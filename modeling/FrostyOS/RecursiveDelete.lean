import FrostyOS.TempFileSystem
import Mathlib.Data.Set.Finite.Lemmas

/-! # Deleting inodes of the temporary file system

`TempFSInode::Delete` and `TempFileSystem::DeleteInode` on the inode tree together with the
objects that still exist. A call that reads a freed inode has no result. -/
namespace TempFileSystem

open Errno TempFS List Option

/-- The tree and the inodes that are allocated; folders are higher than what they hold. -/
@[ext] structure Volume (β : Type*) where
  tree : Tree β
  live : ℕ → Bool
  height : ℕ → ℕ

variable {β : Type*}

def Inode.eraseChild (i : Inode β) (c : ℕ) : Inode β :=
  { i with children := i.children.erase c }

/-- The inodes after `c` was taken out of the child list of `f`. -/
def Tree.eraseChildOf (t : Tree β) (f c : ℕ) (a : ℕ) : Inode β :=
  if a = f ∧ (t.inodes a).type ≠ .symLink then (t.inodes a).eraseChild c else t.inodes a

variable {dead done gone l removed : List ℕ} {a b c f fuel g k n x : ℕ} {w : Volume β} (t : Tree β)

theorem Tree.eraseChildOf_link (h : (t.eraseChildOf f c a).type = .symLink) :
    t.eraseChildOf f c a = t.inodes a ∧ (t.inodes a).type = .symLink := by
  unfold Tree.eraseChildOf at h ⊢
  split at h
  case isTrue hc => exact absurd h hc.2
  case isFalse hc => exact ⟨if_neg hc, h⟩

theorem Tree.eraseChildOf_link_lt (f c a : ℕ) (h : (t.eraseChildOf f c a).type = .symLink) :
    t.linkDepth ((t.eraseChildOf f c a).children.headD a) < t.linkDepth a := by
  obtain ⟨heq, hlink⟩ := t.eraseChildOf_link h
  rw [heq]
  exact t.link_lt a hlink

def Tree.eraseChild (t : Tree β) (f c : ℕ) : Tree β where
  inodes := t.eraseChildOf f c
  rootInodes := t.rootInodes
  rootPrivilege := t.rootPrivilege
  linkDepth := t.linkDepth
  link_lt := t.eraseChildOf_link_lt f c

variable (v : Volume β)

namespace Volume

def free (a : ℕ) : Volume β :=
  { v with live := fun b => v.live b && b ≠ a }

/-- At most `n` steps along a chain of links, each inode being read. -/
def follow : ℕ → ℕ → Option ℕ
  | 0, a => if v.live a = true ∧ (v.tree.inodes a).type ≠ .symLink then some a else none
  | n + 1, a =>
    if v.live a = true then
      if (v.tree.inodes a).type = .symLink then
        follow n ((v.tree.inodes a).children.headD a)
      else some a
    else none

def answering (a : ℕ) : Option ℕ := v.follow (v.tree.linkDepth a) a

def getChildCount (a : ℕ) : Option ℕ :=
  (v.answering a).map fun f => (v.tree.inodes f).children.length

def removeChild (p c : ℕ) : Option (ℤ × Volume β) :=
  match v.answering p with
  | none => none
  | some f =>
    if (v.tree.inodes f).type ≠ .folder then some (-enotdir, v)
    else if c ∉ (v.tree.inodes f).children then some (-enoent, v)
    else some (0, { v with tree := v.tree.eraseChild f c })

def deleteRootInode (a : ℕ) : Volume β :=
  { v with tree := { v.tree with rootInodes := v.tree.rootInodes.erase a } }

end Volume

/-- The loop over the own child list of `a`, from position `i` down. -/
def deleteChildren (del : Volume β → ℕ → Option (ℤ × Volume β)) (a : ℕ) :
    ℕ → Volume β → Option (ℤ × Volume β)
  | 0, v => some (0, v)
  | i + 1, v =>
    if v.live a = false then none
    else
      match (v.tree.inodes a).children[i]? with
      | none => some (-enosys, v)
      | some c =>
        match del v c with
        | none => none
        | some (_, v) => deleteChildren del a i (v.free c)

def Volume.detach (a : ℕ) : Option (ℤ × Volume β) :=
  match (v.tree.inodes a).parent with
  | none => some (0, v.deleteRootInode a)
  | some p =>
    match v.removeChild p a with
    | none => none
    | some (rc, v) => if rc = -einval then some (-enosys, v) else some (0, v)

/-- `Delete`; `fuel` bounds the depth of the recursion. The loop runs as often as the inode
that answers has children, over the list of the inode itself, and hands `deleteName` on as
the flag for targets. -/
def Volume.delete : ℕ → Volume β → ℕ → Bool → Bool → Option (ℤ × Volume β)
  | 0, _, _, _, _ => none
  | fuel + 1, v, a, deleteTarget, deleteName =>
    if v.live a = false then none
    else
      match if (v.tree.inodes a).type = .symLink ∧ deleteTarget = true then
          delete fuel v (v.tree.getTarget a) false false
        else some (0, v) with
      | none => none
      | some (rc, v) =>
        if rc < 0 then some (rc, v)
        else
          match v.getChildCount a with
          | none => none
          | some n =>
            match deleteChildren (fun v c => delete fuel v c deleteName false) a n v with
            | none => none
            | some (rc, v) => if rc < 0 then some (rc, v) else v.detach a

def mayDelete (current parent : FilePrivilegeLevel) : Bool :=
  if current.gid = parent.gid ∧ current.uid ≠ parent.uid then
    parent.acl &&& (aclWrite <<< 3) ≠ 0
  else if current.uid ≠ parent.uid then parent.acl &&& aclWrite ≠ 0
  else true

namespace Volume

/-- The privilege level of the folder above; the parent of a link is that of its target. -/
def parentPrivilege (a : ℕ) : Option FilePrivilegeLevel :=
  match v.answering a with
  | none => none
  | some f =>
    match (v.tree.inodes f).parent with
    | none => some v.tree.rootPrivilege
    | some p => if v.live p then some (v.tree.inodes p).privilegeLevel else none

def deleteInode (fuel : ℕ) (current : FilePrivilegeLevel) (a : ℕ)
    (recursive deleteName : Bool) : Option (ℤ × Volume β) :=
  match v.parentPrivilege a, v.getChildCount a with
  | some parent, some n =>
    if mayDelete current parent = false then some (-eacces, v)
    else if n > 0 ∧ recursive = false then some (-enotempty, v)
    else
      match delete fuel v a false deleteName with
      | none => none
      | some (rc, v) => if rc < 0 then some (rc, v) else some (0, v.free a)
  | _, _ => none

def Holds (f c : ℕ) : Prop :=
  (v.tree.inodes f).type = .folder ∧ c ∈ (v.tree.inodes f).children

def Below : ℕ → ℕ → Prop := Relation.ReflTransGen v.Holds

/-- Everything below `a` is gone, everything else exists as before; only the list that
named `a` has lost this entry. -/
structure OnlyRemoved (v w : Volume β) (a : ℕ) : Prop where
  gone : ∀ b, v.Below a b → w.live b = false
  kept : ∀ b, v.live b = true → ¬ v.Below a b → w.live b = true ∧
    w.tree.inodes b = if (v.tree.inodes b).type = .folder then (v.tree.inodes b).eraseChild a
      else v.tree.inodes b
  roots : w.tree.rootInodes = v.tree.rootInodes.erase a

/-- Children and parents agree, where the parent of an inode may be a link to the folder
that lists it. -/
structure WellFormed : Prop where
  nodup : ∀ f, (v.tree.inodes f).children.Nodup
  roots_nodup : v.tree.rootInodes.Nodup
  file : ∀ a, (v.tree.inodes a).type = .file → (v.tree.inodes a).children = []
  link : ∀ a, (v.tree.inodes a).type = .symLink → (v.tree.inodes a).children.length = 1
  child : ∀ f c, v.live f = true → v.Holds f c → v.live c = true ∧ v.height c < v.height f ∧
    ∃ p, (v.tree.inodes c).parent = some p ∧ v.answering p = some f
  listed : ∀ c p, v.live c = true → (v.tree.inodes c).parent = some p →
    ∃ f, v.answering p = some f ∧ v.Holds f c
  root : ∀ c, v.live c = true → ((v.tree.inodes c).parent = none ↔ c ∈ v.tree.rootInodes)

end Volume

def Inode.dropChildren (i : Inode β) (removed : List ℕ) : Inode β :=
  { i with children := i.children.filter (· ∉ removed) }

namespace Volume

def inodesWithout (removed : List ℕ) (a : ℕ) : Inode β :=
  if v.live a = true ∧ (v.tree.inodes a).type ≠ .symLink then
    (v.tree.inodes a).dropChildren removed
  else v.tree.inodes a

theorem inodesWithout_type (removed : List ℕ) (a : ℕ) :
    (v.inodesWithout removed a).type = (v.tree.inodes a).type := by
  unfold inodesWithout
  split <;> rfl

theorem inodesWithout_parent (removed : List ℕ) (a : ℕ) :
    (v.inodesWithout removed a).parent = (v.tree.inodes a).parent := by
  unfold inodesWithout
  split <;> rfl

theorem inodesWithout_link (removed : List ℕ) (h : (v.tree.inodes a).type = .symLink) :
    v.inodesWithout removed a = v.tree.inodes a := if_neg fun hc => hc.2 h

theorem inodesWithout_link_lt (removed : List ℕ) (a : ℕ)
    (h : (v.inodesWithout removed a).type = .symLink) :
    v.tree.linkDepth ((v.inodesWithout removed a).children.headD a) < v.tree.linkDepth a := by
  rw [v.inodesWithout_type] at h
  rw [v.inodesWithout_link removed h]
  exact v.tree.link_lt a h

/-- No list names `removed` any more, and the objects `dead` are freed. -/
def without (removed dead : List ℕ) : Volume β where
  tree :=
    { inodes := v.inodesWithout removed
      rootInodes := v.tree.rootInodes.filter (· ∉ removed)
      rootPrivilege := v.tree.rootPrivilege
      linkDepth := v.tree.linkDepth
      link_lt := v.inodesWithout_link_lt removed }
  live := fun a => v.live a && a ∉ dead
  height := v.height

theorem without_nil : v.without [] [] = v := by
  have hlist : ∀ l : List ℕ, l.filter (fun x => decide (x ∉ ([] : List ℕ))) = l := by
    intro l
    simp
  have hinodes : v.inodesWithout [] = v.tree.inodes := by
    funext a
    simp only [inodesWithout, Inode.dropChildren, hlist, ite_self]
  ext1
  · ext1
    · exact hinodes
    · exact hlist _
    · rfl
    · rfl
  · funext a
    simp [without]
  · rfl

theorem without_free (removed dead : List ℕ) (c : ℕ) :
    (v.without removed dead).free c = v.without removed (dead ++ [c]) := by
  ext1
  · rfl
  · funext a
    simp [free, without, Bool.and_assoc]
  · rfl

@[simp] theorem without_live : (v.without removed dead).live a ↔ v.live a ∧ a ∉ dead := by
  simp [without]

end Volume

variable {v}

namespace Volume

theorem without_children (hf : v.live f) (ht : (v.tree.inodes f).type = .folder) :
    ((v.without removed dead).tree.inodes f).children =
      (v.tree.inodes f).children.filter (· ∉ removed) := by
  have hc : v.live f ∧ (v.tree.inodes f).type ≠ .symLink := ⟨hf, by simp [ht]⟩
  exact congrArg Inode.children (if_pos hc)

theorem answering_self (hl : v.live a) (ht : (v.tree.inodes a).type ≠ .symLink) :
    v.answering a = some a := by
  unfold answering
  cases v.tree.linkDepth a with
  | zero => exact if_pos ⟨hl, ht⟩
  | succ n => rw [follow, if_pos hl, if_neg ht]

theorem follow_spec (h : v.follow n a = some f) : v.live a ∧ v.live f := by
  induction n generalizing a with
  | zero =>
    rw [follow, ite_none_right_eq_some, some.injEq] at h
    obtain ⟨⟨hl, -⟩, rfl⟩ := h
    exact ⟨hl, hl⟩
  | succ n ih =>
    rw [follow, ite_none_right_eq_some] at h
    obtain ⟨hl, h⟩ := h
    split at h
    case isTrue => exact ⟨hl, (ih h).2⟩
    case isFalse =>
      rw [some.injEq] at h
      subst h
      exact ⟨hl, hl⟩

theorem follow_without (h : (v.without removed dead).follow n a = some f) :
    v.follow n a = some f := by
  have htype : ∀ a, ((v.without removed dead).tree.inodes a).type = (v.tree.inodes a).type :=
    v.inodesWithout_type removed
  induction n generalizing a with
  | zero =>
    rw [follow, htype, ite_none_right_eq_some, without_live] at h
    rw [follow, if_pos ⟨h.1.1.1, h.1.2⟩, h.2]
  | succ n ih =>
    rw [follow, htype, ite_none_right_eq_some, without_live] at h
    obtain ⟨hl, h⟩ := h
    rw [follow, if_pos hl.1]
    split at h
    case isTrue ht =>
      rw [if_pos ht]
      rw [show (v.without removed dead).tree.inodes a = v.tree.inodes a from
        v.inodesWithout_link removed ht] at h
      exact ih h
    case isFalse ht => rw [if_neg ht, h]

theorem WellFormed.holder_unique (hw : v.WellFormed) (hf : v.live f)
    (hg : v.live g) (hfc : v.Holds f c) (hgc : v.Holds g c) : f = g := by
  obtain ⟨-, -, p, hp, hpf⟩ := hw.child f c hf hfc
  obtain ⟨-, -, q, hq, hqg⟩ := hw.child g c hg hgc
  rw [hp, some.injEq] at hq
  rw [← hq, hpf, some.injEq] at hqg
  exact hqg

end Volume

theorem filter_append_singleton (a : ℕ) (hl : l.Nodup) :
    (l.filter (· ∉ removed)).erase a = l.filter (· ∉ removed ++ [a]) := by
  rw [(hl.filter _).erase_eq_filter, List.filter_filter]
  apply List.filter_congr
  intro x _
  by_cases hx : x = a <;> simp [hx]

theorem filter_append_of_not_mem (ha : a ∉ l) :
    l.filter (· ∉ removed ++ [a]) = l.filter (· ∉ removed) := by
  apply filter_congr
  intro x hx
  have hne : x ≠ a := fun h => ha (h ▸ hx)
  simp [hne]

namespace Volume

theorem inodesWithout_of_not_mem
    (h : v.live g → (v.tree.inodes g).type ≠ .symLink → a ∉ (v.tree.inodes g).children) :
    v.inodesWithout (removed ++ [a]) g = v.inodesWithout removed g := by
  unfold inodesWithout
  split
  case isTrue hg => simp only [Inode.dropChildren, filter_append_of_not_mem (h hg.1 hg.2)]
  case isFalse => rfl

theorem WellFormed.holds_of_mem (hw : v.WellFormed) (ht : (v.tree.inodes g).type ≠ .symLink)
    (hc : c ∈ (v.tree.inodes g).children) : v.Holds g c := by
  cases hg : (v.tree.inodes g).type with
  | file =>
    rw [hw.file g hg] at hc
    exact absurd hc not_mem_nil
  | folder => exact ⟨hg, hc⟩
  | symLink => exact absurd hg ht

theorem eraseChild_without (hw : v.WellFormed) {p : ℕ} (ha : v.live a)
    (hp : (v.tree.inodes a).parent = some p) (hf : v.live f) (hholds : v.Holds f a) :
    { v.without removed dead with tree := (v.without removed dead).tree.eraseChild f a } =
      v.without (removed ++ [a]) dead := by
  have hroot : a ∉ v.tree.rootInodes := by
    rw [← hw.root a ha, hp]
    simp
  ext1
  · ext1
    · funext g
      change (v.without removed dead).tree.eraseChildOf f a g = v.inodesWithout (removed ++ [a]) g
      have hlink : (v.tree.inodes f).type ≠ .symLink := by simp [hholds.1]
      unfold Tree.eraseChildOf
      by_cases hg : g = f
      · subst hg
        rw [if_pos ⟨rfl, (v.inodesWithout_type removed g).symm ▸ hlink⟩]
        change (v.inodesWithout removed g).eraseChild a = v.inodesWithout (removed ++ [a]) g
        unfold inodesWithout
        rw [if_pos ⟨hf, hlink⟩, if_pos ⟨hf, hlink⟩]
        simp only [Inode.dropChildren, Inode.eraseChild, filter_append_singleton a (hw.nodup g)]
      · rw [if_neg fun h => hg h.1]
        symm
        apply inodesWithout_of_not_mem
        intro hl ht hmem
        exact hg (hw.holder_unique hl hf (hw.holds_of_mem ht hmem) hholds)
    · exact (filter_append_of_not_mem hroot).symm
    · rfl
    · rfl
  · rfl
  · rfl

theorem deleteRootInode_without (hw : v.WellFormed) (hp : (v.tree.inodes a).parent = none) :
    (v.without removed dead).deleteRootInode a = v.without (removed ++ [a]) dead := by
  ext1
  · ext1
    · funext g
      symm
      apply inodesWithout_of_not_mem
      intro hl ht hmem
      obtain ⟨-, -, p, hparent, -⟩ := hw.child g a hl (hw.holds_of_mem ht hmem)
      rw [hp] at hparent
      exact absurd hparent (by simp)
    · exact filter_append_singleton a hw.roots_nodup
    · rfl
    · rfl
  · rfl
  · rfl

theorem detach_without (hw : v.WellFormed) (ha : v.live a) (hnew : a ∉ removed)
    (hparent : ∀ p, (v.tree.inodes a).parent = some p →
      ((v.without removed dead).answering p).isSome) :
    (v.without removed dead).detach a = some (0, v.without (removed ++ [a]) dead) := by
  have hsame : ((v.without removed dead).tree.inodes a).parent = (v.tree.inodes a).parent :=
    v.inodesWithout_parent removed a
  unfold detach
  rw [hsame]
  cases hp : (v.tree.inodes a).parent with
  | none =>
    dsimp only
    rw [deleteRootInode_without hw hp]
  | some p =>
    obtain ⟨f, hf⟩ := isSome_iff_exists.1 (hparent p hp)
    obtain ⟨g, hg, hholds⟩ := hw.listed a p ha hp
    obtain rfl : g = f := some.inj (hg.symm.trans (follow_without hf))
    have hlive : v.live g := (follow_spec hg).2
    have htype : ((v.without removed dead).tree.inodes g).type = .folder :=
      (v.inodesWithout_type removed g).trans hholds.1
    have hmem : a ∈ ((v.without removed dead).tree.inodes g).children := by
      rw [without_children hlive hholds.1, mem_filter]
      exact ⟨hholds.2, by simpa using hnew⟩
    have hremove : (v.without removed dead).removeChild p a =
        some (0, v.without (removed ++ [a]) dead) := by
      rw [removeChild, hf]
      dsimp only
      rw [if_neg (by simp [htype]), if_neg (by simpa using hmem),
        eraseChild_without hw ha hp hlive hholds]
    dsimp only
    rw [hremove]
    rfl

/-- The inodes below `a` in the order in which they go: the children from the last to the
first, each with what is below it, and then `a`. -/
def order (v : Volume β) : ℕ → ℕ → List ℕ
  | 0, a => [a]
  | n + 1, a =>
    if (v.tree.inodes a).type = .folder then
      (v.tree.inodes a).children.reverse.flatMap (order v n) ++ [a]
    else [a]

theorem order_eq (v : Volume β) (n a : ℕ) : v.order n a = (v.order n a).dropLast ++ [a] := by
  cases n with
  | zero => rfl
  | succ n =>
    rw [order]
    split <;> simp

theorem order_of_not_folder (v : Volume β) (n : ℕ) (h : (v.tree.inodes a).type ≠ .folder) :
    v.order n a = [a] := by
  cases n with
  | zero => rfl
  | succ n => rw [order, if_neg h]

theorem mem_order_self (v : Volume β) (n a : ℕ) : a ∈ v.order n a := by
  rw [v.order_eq]
  simp

theorem WellFormed.live_of_below (hw : v.WellFormed) (ha : v.live a)
    (h : v.Below a x) : v.live x := by
  induction h with
  | refl => exact ha
  | tail _ hstep ih => exact (hw.child _ _ ih hstep).1

theorem WellFormed.height_of_below (hw : v.WellFormed) (ha : v.live a)
    (h : v.Below a x) : v.height x ≤ v.height a := by
  induction h with
  | refl => exact le_rfl
  | tail hb hstep ih =>
    have := (hw.child _ _ (hw.live_of_below ha hb) hstep).2.1
    omega

theorem WellFormed.mem_order (hw : v.WellFormed) (ha : v.live a)
    (hn : v.height a ≤ n) : x ∈ v.order n a ↔ v.Below a x := by
  induction n generalizing a with
  | zero =>
    rw [order, mem_singleton]
    constructor
    · rintro rfl
      exact .refl
    · intro h
      rcases Relation.ReflTransGen.cases_head h with rfl | ⟨c, hc, -⟩
      · rfl
      · have := (hw.child a c ha hc).2.1
        omega
  | succ n ih =>
    rw [order]
    have hchild : ∀ c, v.Holds a c → v.live c ∧ v.height c ≤ n := by
      intro c hc
      have := hw.child a c ha hc
      exact ⟨this.1, by omega⟩
    split
    case isTrue hf =>
      simp only [mem_append, mem_flatMap, mem_reverse, mem_singleton]
      constructor
      · rintro (⟨c, hc, hx⟩ | rfl)
        · have hc' : v.Holds a c := ⟨hf, hc⟩
          have hb := (ih (hchild c hc').1 (hchild c hc').2).1 hx
          exact Relation.ReflTransGen.head hc' hb
        · exact .refl
      · intro h
        rcases Relation.ReflTransGen.cases_head h with rfl | ⟨c, hc, hb⟩
        · exact .inr rfl
        · exact .inl ⟨c, hc.2, (ih (hchild c hc).1 (hchild c hc).2).2 hb⟩
    case isFalse hf =>
      rw [mem_singleton]
      constructor
      · rintro rfl
        exact .refl
      · intro h
        rcases Relation.ReflTransGen.cases_head h with rfl | ⟨c, hc, -⟩
        · rfl
        · exact absurd hc.1 hf

/-- From an inode up to the existing folder that holds it. -/
def HeldBy (v : Volume β) (c f : ℕ) : Prop := v.live f = true ∧ v.Holds f c

theorem WellFormed.heldBy_of_below (hw : v.WellFormed) (ha : v.live a)
    (h : v.Below a x) : Relation.ReflTransGen v.HeldBy x a := by
  induction h with
  | refl => exact .refl
  | tail hb hstep ih => exact Relation.ReflTransGen.head ⟨hw.live_of_below ha hb, hstep⟩ ih

theorem below_of_heldBy (h : Relation.ReflTransGen v.HeldBy x a) : v.Below a x := by
  induction h with
  | refl => exact .refl
  | tail _ hstep ih => exact Relation.ReflTransGen.head hstep.2 ih

theorem WellFormed.not_below_sibling (hw : v.WellFormed) (hf : v.live f)
    (hb : v.Holds f b) (hc : v.Holds f c) (h : Relation.ReflTransGen v.HeldBy b c) : b = c := by
  rcases Relation.ReflTransGen.cases_head h with rfl | ⟨g, hg, hup⟩
  · rfl
  -- `b` is held by `f` alone, which would then be below its own child `c`
  have hgf : g = f := hw.holder_unique hg.1 hf hg.2 hb
  subst hgf
  have hlive := (hw.child g c hf hc).1
  have hle := hw.height_of_below hlive (below_of_heldBy hup)
  have hlt := (hw.child g c hf hc).2.1
  omega

theorem WellFormed.below_unique (hw : v.WellFormed) (hf : v.live f) (hb : v.Holds f b)
    (hc : v.Holds f c) (hbx : v.Below b x) (hcx : v.Below c x) : b = c := by
  have hunique : Relator.RightUnique v.HeldBy := by
    intro d g g' hg hg'
    exact hw.holder_unique hg.1 hg'.1 hg.2 hg'.2
  have hb' := hw.heldBy_of_below (hw.child f b hf hb).1 hbx
  have hc' := hw.heldBy_of_below (hw.child f c hf hc).1 hcx
  rcases Relation.ReflTransGen.total_of_right_unique hunique hb' hc' with h | h
  · exact hw.not_below_sibling hf hb hc h
  · exact (hw.not_below_sibling hf hc hb h).symm

theorem WellFormed.order_nodup (hw : v.WellFormed) (ha : v.live a)
    (hn : v.height a ≤ n) : (v.order n a).Nodup := by
  induction n generalizing a with
  | zero => exact nodup_singleton a
  | succ n ih =>
    rw [order]
    split
    case isFalse => exact nodup_singleton a
    case isTrue hf =>
      have hchild : ∀ c ∈ (v.tree.inodes a).children, v.live c ∧ v.height c ≤ n ∧
          v.height c < v.height a := by
        intro c hc
        have := hw.child a c ha ⟨hf, hc⟩
        exact ⟨this.1, by omega, this.2.1⟩
      rw [nodup_append', nodup_flatMap]
      refine ⟨⟨?_, ?_⟩, nodup_singleton a, ?_⟩
      · intro c hc
        have hc' := hchild c (mem_reverse.1 hc)
        exact ih hc'.1 hc'.2.1
      · refine List.Pairwise.imp_of_mem ?_ (nodup_reverse.2 (hw.nodup a))
        intro b c hb hc hne
        rw [mem_reverse] at hb hc
        intro x hxb hxc
        apply hne
        exact hw.below_unique ha ⟨hf, hb⟩ ⟨hf, hc⟩
          ((hw.mem_order (hchild b hb).1 (hchild b hb).2.1).1 hxb)
          ((hw.mem_order (hchild c hc).1 (hchild c hc).2.1).1 hxc)
      · intro x hx hxa
        rw [mem_singleton] at hxa
        subst hxa
        obtain ⟨c, hc, hxc⟩ := mem_flatMap.1 hx
        have hc' := hchild c (mem_reverse.1 hc)
        have := hw.height_of_below hc'.1 ((hw.mem_order hc'.1 hc'.2.1).1 hxc)
        omega

/-- When everything in `gone` is deleted: a link stands for an inode without children, and
the parent can be read. -/
def Ready (v : Volume β) (gone : List ℕ) (x : ℕ) : Prop :=
  ((v.tree.inodes x).type = .symLink → (v.without gone gone).getChildCount x = some 0) ∧
    ∀ p, (v.tree.inodes x).parent = some p → ((v.without gone gone).answering p).isSome

end Volume

theorem filter_not_mem_append (hc : c ∈ done) (hl : ∀ x ∈ l, x ∉ done) :
    (l ++ [c]).filter (· ∉ done) = l := by
  rw [filter_append, filter_eq_self.2 (by simpa using hl)]
  simp [hc]

/-- The inodes of `l` can go one after the other once those in `gone` are deleted. -/
structure Volume.Turns (v : Volume β) (gone l : List ℕ) : Prop where
  nodup : l.Nodup
  disjoint : l.Disjoint gone
  ready : ∀ done x rest, l = done ++ x :: rest → v.Ready (gone ++ done) x

section Turns

variable {l' : List ℕ}

theorem Volume.Turns.left (h : v.Turns gone (l ++ l')) : v.Turns gone l where
  nodup := (nodup_append'.1 h.nodup).1
  disjoint := (disjoint_append_left.1 h.disjoint).1
  ready := by
    intro done x rest heq
    exact h.ready done x (rest ++ l') (by simp [heq])

theorem Volume.Turns.right (h : v.Turns gone (l ++ l')) : v.Turns (gone ++ l) l' where
  nodup := (nodup_append'.1 h.nodup).2.1
  disjoint := disjoint_append_right.2 ⟨(disjoint_append_left.1 h.disjoint).2,
    fun _ hx hl => (nodup_append'.1 h.nodup).2.2 hl hx⟩
  ready := by
    intro done x rest heq
    rw [append_assoc]
    exact h.ready (l ++ done) x rest (by simp [heq])

theorem Volume.Turns.not_mem (h : v.Turns gone (l ++ [a])) : a ∉ gone ++ l :=
  h.right.disjoint mem_cons_self

end Turns

variable {deleteTarget deleteName : Bool} {del : Volume β → ℕ → Option (ℤ × Volume β)}

namespace Volume

/-- With `del` everything below `c` goes, and only `c` is left to be freed. -/
def Deletes (v : Volume β) (n : ℕ) (del : Volume β → ℕ → Option (ℤ × Volume β)) (c : ℕ) : Prop :=
  ∀ gone, v.Turns gone (v.order n c) → del (v.without gone gone) c =
    some (0, v.without (gone ++ v.order n c) (gone ++ (v.order n c).dropLast))

/-- The loop over the children, which deletes the last one that is left each time. -/
theorem deleteChildren_without (ha : v.live a) (hf : (v.tree.inodes a).type = .folder)
    (hdel : ∀ c ∈ (v.tree.inodes a).children, v.Deletes n del c) (l gone : List ℕ)
    (hl : (v.tree.inodes a).children.filter (· ∉ gone) = l)
    (h : v.Turns gone (l.reverse.flatMap (v.order n) ++ [a])) :
    deleteChildren del a l.length (v.without gone gone) =
      some (0, v.without (gone ++ l.reverse.flatMap (v.order n))
        (gone ++ l.reverse.flatMap (v.order n))) := by
  induction l using List.reverseRecOn generalizing gone with
  | nil => simp [deleteChildren]
  | append_singleton l c ih =>
    have hflat : (l ++ [c]).reverse.flatMap (v.order n) =
        v.order n c ++ l.reverse.flatMap (v.order n) := by
      simp
    have hfree := mt (mem_append_left _) h.not_mem
    rw [hflat, append_assoc] at h
    rw [hflat]
    have hchildren : ((v.without gone gone).tree.inodes a).children = l ++ [c] := by
      rw [without_children ha hf, hl]
    have hnotdead : (v.without gone gone).live a ≠ false := by
      rw [Bool.ne_false_iff, without_live]
      exact ⟨ha, hfree⟩
    have hmem : c ∈ (v.tree.inodes a).children := mem_of_mem_filter (hl ▸ mem_concat_self)
    have hfreed : (v.without (gone ++ v.order n c) (gone ++ (v.order n c).dropLast)).free c =
        v.without (gone ++ v.order n c) (gone ++ v.order n c) := by
      rw [without_free, append_assoc, ← v.order_eq n c]
    rw [length_append, length_singleton, deleteChildren, if_neg hnotdead, hchildren,
      getElem?_concat_length]
    dsimp only
    rw [hdel c hmem gone h.left]
    dsimp only
    rw [hfreed, ih (gone ++ v.order n c) ?_ h.right, append_assoc]
    have hsplit : (v.tree.inodes a).children.filter (· ∉ gone ++ v.order n c) =
        ((v.tree.inodes a).children.filter (· ∉ gone)).filter (· ∉ v.order n c) := by
      rw [List.filter_filter]
      apply filter_congr
      intro x _
      simp [Bool.and_comm]
    rw [hsplit, hl]
    apply filter_not_mem_append (v.mem_order_self n c)
    intro x hx hxc
    have hx' : x ∈ l.reverse.flatMap (v.order n) ++ [a] := mem_append_left _
      (mem_flatMap.2 ⟨x, mem_reverse.2 hx, v.mem_order_self n x⟩)
    exact (nodup_append'.1 h.nodup).2.2 hxc hx'

theorem delete_succ (ha : v.live a)
    (htarget : deleteTarget = true → (v.tree.inodes a).type ≠ .symLink)
    (hcount : v.getChildCount a = some k)
    (hloop : deleteChildren (fun v c => delete fuel v c deleteName false) a k v =
      some (0, w)) : delete (fuel + 1) v a deleteTarget deleteName = w.detach a := by
  have hstay : ¬ ((v.tree.inodes a).type = .symLink ∧ deleteTarget = true) :=
    fun h => htarget h.2 h.1
  rw [delete, if_neg (by simp [ha]), if_neg hstay]
  simp only [Int.lt_irrefl, if_false, hcount, hloop]

theorem delete_leaf (hw : v.WellFormed) (ha : v.live a) (hnew : a ∉ gone) (hready : v.Ready gone a)
    (htarget : deleteTarget = true → (v.tree.inodes a).type ≠ .symLink)
    (hcount : (v.without gone gone).getChildCount a = some 0) :
    delete (fuel + 1) (v.without gone gone) a deleteTarget deleteName =
      some (0, v.without (gone ++ [a]) gone) := by
  have hlive : (v.without gone gone).live a := (v.without_live).2 ⟨ha, hnew⟩
  rw [delete_succ hlive (by simpa [without, v.inodesWithout_type] using htarget)
    hcount rfl]
  exact detach_without hw ha hnew hready.2

theorem getChildCount_without (ha : v.live a) (hnew : a ∉ gone)
    (hf : (v.tree.inodes a).type = .folder) :
    (v.without gone gone).getChildCount a =
      some ((v.tree.inodes a).children.filter (· ∉ gone)).length := by
  have htype : ((v.without gone gone).tree.inodes a).type ≠ .symLink := by
    simp [without, v.inodesWithout_type, hf]
  rw [getChildCount, answering_self ((v.without_live).2 ⟨ha, hnew⟩) htype,
    map_some, without_children ha hf]

theorem WellFormed.count_leaf (hw : v.WellFormed) (ha : v.live a) (hnew : a ∉ gone)
    (hready : v.Ready gone a) (hleaf : (v.tree.inodes a).type ≠ .folder ∨ v.height a ≤ n ∧ n = 0) :
    (v.without gone gone).getChildCount a = some 0 := by
  cases ht : (v.tree.inodes a).type with
  | symLink => exact hready.1 ht
  | file =>
    have htype : ((v.without gone gone).tree.inodes a).type ≠ .symLink := by
      simp [without, v.inodesWithout_type, ht]
    have hchildren : ((v.without gone gone).tree.inodes a).children = [] := by
      simp [without, inodesWithout, Inode.dropChildren, hw.file a ht, ht, ha]
    rw [getChildCount, answering_self ((v.without_live).2 ⟨ha, hnew⟩) htype,
      map_some, hchildren, length_nil]
  | folder =>
    have hheight := hleaf.resolve_left (by simp [ht])
    have hchildren : (v.tree.inodes a).children = [] := by
      rw [eq_nil_iff_forall_not_mem]
      intro c hc
      have := (hw.child a c ha ⟨ht, hc⟩).2.1
      omega
    rw [getChildCount_without ha hnew ht, hchildren]
    rfl

/-- Deleting `a` takes everything below it away; only `a` itself is left to be freed. -/
theorem delete_without (hw : v.WellFormed) (n : ℕ) :
    ∀ fuel a deleteTarget deleteName, n < fuel → v.height a ≤ n → v.live a →
      (deleteTarget = true → (v.tree.inodes a).type ≠ .symLink) →
      (deleteName = true → ∀ c, v.Holds a c → (v.tree.inodes c).type ≠ .symLink) →
      v.Deletes n (fun v a => delete fuel v a deleteTarget deleteName) a := by
  induction n with
  | zero =>
    intro fuel a deleteTarget deleteName hfuel hheight ha htarget hname gone h
    obtain ⟨fuel, rfl⟩ : ∃ f, fuel = f + 1 := ⟨fuel - 1, by omega⟩
    have hnew : a ∉ gone := h.disjoint (v.mem_order_self 0 a)
    have hself : v.Ready gone a := by simpa using h.ready [] a [] rfl
    have hcount := hw.count_leaf ha hnew hself (.inr ⟨hheight, rfl⟩)
    simpa [order] using delete_leaf hw ha hnew hself htarget hcount
  | succ n ih =>
    intro fuel a deleteTarget deleteName hfuel hheight ha htarget hname gone h
    obtain ⟨fuel, rfl⟩ : ∃ f, fuel = f + 1 := ⟨fuel - 1, by omega⟩
    have hnew : a ∉ gone := h.disjoint (v.mem_order_self (n + 1) a)
    by_cases hf : (v.tree.inodes a).type = .folder
    · have horder : v.order (n + 1) a =
          (v.tree.inodes a).children.reverse.flatMap (v.order n) ++ [a] := by
        rw [order, if_pos hf]
      rw [horder] at h ⊢
      have hall : (v.tree.inodes a).children.filter (· ∉ gone) = (v.tree.inodes a).children := by
        rw [filter_eq_self]
        intro c hc
        have hmem : c ∈ (v.tree.inodes a).children.reverse.flatMap (v.order n) :=
          mem_flatMap.2 ⟨c, mem_reverse.2 hc, v.mem_order_self n c⟩
        simpa using h.left.disjoint hmem
      have hcount := getChildCount_without ha hnew hf
      rw [hall] at hcount
      have hchild : ∀ c ∈ (v.tree.inodes a).children,
          v.Deletes n (fun v c => delete fuel v c deleteName false) c := by
        intro c hc
        have hc' := hw.child a c ha ⟨hf, hc⟩
        exact ih fuel c deleteName false (by omega) (by omega) hc'.1
          (fun h => hname h c ⟨hf, hc⟩) (by simp)
      have hloop := deleteChildren_without ha hf hchild _ gone hall h
      have hlive : (v.without gone gone).live a := (v.without_live).2 ⟨ha, hnew⟩
      dsimp only
      rw [delete_succ hlive (by simpa [without, v.inodesWithout_type] using htarget) hcount hloop,
        dropLast_concat, detach_without hw ha h.not_mem (h.ready _ a [] rfl).2, append_assoc]
    · have hself : v.Ready gone a := by
        simpa using h.ready [] a [] (v.order_of_not_folder (n + 1) hf)
      have hcount := hw.count_leaf (n := n) ha hnew hself (.inl hf)
      simpa [v.order_of_not_folder (n + 1) hf] using
        delete_leaf hw ha hnew hself htarget hcount

theorem WellFormed.below_child (hw : v.WellFormed) (ha : v.live a)
    (hb : v.live b) (hout : ¬ v.Below a b) (hc : v.Holds b c) : v.Below a c ↔ c = a := by
  constructor
  · intro h
    rcases Relation.ReflTransGen.cases_tail h with rfl | ⟨g, hg, hstep⟩
    · rfl
    · have hgb : g = b := hw.holder_unique (hw.live_of_below ha hg) hb hstep hc
      exact absurd (hgb ▸ hg) hout
  · rintro rfl
    exact .refl

theorem WellFormed.below_root (hw : v.WellFormed) (ha : v.live a)
    (hc : c ∈ v.tree.rootInodes) (h : v.Below a c) : c = a := by
  rcases Relation.ReflTransGen.cases_tail h with rfl | ⟨g, hg, hstep⟩
  · rfl
  · have hlive := hw.live_of_below ha h
    obtain ⟨-, -, p, hp, -⟩ := hw.child g c (hw.live_of_below ha hg) hstep
    rw [(hw.root c hlive).2 hc] at hp
    exact absurd hp (by simp)

end Volume

theorem filter_eq_erase (hl : l.Nodup) (h : ∀ x ∈ l, x ∈ gone ↔ x = a) :
    l.filter (· ∉ gone) = l.erase a := by
  rw [hl.erase_eq_filter]
  apply filter_congr
  intro x hx
  rw [Bool.eq_iff_iff]
  simp [h x hx]

theorem Inode.dropChildren_nil {i : Inode β} (h : i.children = []) (removed : List ℕ) :
    i.dropChildren removed = i := by
  unfold Inode.dropChildren
  rw [h, filter_nil, ← h]

variable {rc : ℤ}

namespace Volume

theorem WellFormed.onlyRemoved (hw : v.WellFormed) (ha : v.live a)
    (hgone : ∀ x, x ∈ gone ↔ v.Below a x) : v.OnlyRemoved (v.without gone gone) a where
  gone := by
    intro b hb
    simp [without, (hgone b).2 hb]
  kept := by
    intro b hb hout
    refine ⟨(v.without_live).2 ⟨hb, fun h => hout ((hgone b).1 h)⟩, ?_⟩
    change v.inodesWithout gone b = _
    unfold inodesWithout
    cases ht : (v.tree.inodes b).type with
    | symLink => simp
    | file => simp [Inode.dropChildren_nil (hw.file b ht)]
    | folder =>
      have hlist : (v.tree.inodes b).children.filter (· ∉ gone) =
          (v.tree.inodes b).children.erase a := filter_eq_erase (hw.nodup b)
          fun c hc => (hgone c).trans (hw.below_child ha hb hout ⟨ht, hc⟩)
      simp only [Inode.dropChildren, Inode.eraseChild, hb, hlist, ne_eq, reduceCtorEq,
        not_false_eq_true, and_self, if_true]
  roots := by
    apply filter_eq_erase hw.roots_nodup
    intro c hc
    rw [hgone]
    constructor
    · intro h
      exact hw.below_root ha hc h
    · rintro rfl
      exact .refl

/-- Nothing is deleted through a link: every link below `a` stands for an inode without
children when its turn comes, every parent can be read then, and no target is asked for. A
link to a folder with more than one entry is refused. -/
def NoDetour (v : Volume β) (a : ℕ) (deleteName : Bool) : Prop :=
  ((v.tree.inodes a).type = .symLink ∧ ∃ k, 2 ≤ k ∧ v.getChildCount a = some k) ∨
    (∀ done x rest, v.order (v.height a) a = done ++ x :: rest → v.Ready done x) ∧
      (deleteName = true → ∀ c, v.Holds a c → (v.tree.inodes c).type ≠ .symLink)

/-- A successful call removes what is below `a` and nothing else. -/
def RemovesExactly (v : Volume β) (current : FilePrivilegeLevel) (a : ℕ)
    (recursive deleteName : Bool) : Prop :=
  ∃ n, ∀ fuel ≥ n, ∃ rc w, v.deleteInode fuel current a recursive deleteName = some (rc, w) ∧
    (rc = 0 → v.OnlyRemoved w a)

theorem WellFormed.parentPrivilege_isSome (hw : v.WellFormed) (h : v.answering a = some f) :
    (v.parentPrivilege a).isSome := by
  rw [Volume.parentPrivilege, h]
  dsimp only
  cases hp : (v.tree.inodes f).parent with
  | none => rfl
  | some p =>
    obtain ⟨g, hg, -⟩ := hw.listed f p (follow_spec h).2 hp
    simp [(follow_spec hg).1]

theorem WellFormed.deleteInode_cases (hw : v.WellFormed)
    (hcount : v.getChildCount a = some k) (fuel : ℕ) (current : FilePrivilegeLevel)
    (recursive deleteName : Bool) (hdelete : delete fuel v a false deleteName = some (rc, w)) :
    (∃ e w', v.deleteInode fuel current a recursive deleteName = some (e, w') ∧ e < 0) ∨
      v.deleteInode fuel current a recursive deleteName = some (0, w.free a) ∧ ¬ rc < 0 := by
  obtain ⟨f, hf⟩ : ∃ f, v.answering a = some f := by
    cases h : v.answering a with
    | none => simp [getChildCount, h] at hcount
    | some f => exact ⟨f, rfl⟩
  obtain ⟨parent, hparent⟩ := isSome_iff_exists.1 (hw.parentPrivilege_isSome hf)
  simp only [deleteInode, hparent, hcount, hdelete]
  split_ifs with h₁ h₂ h₃
  · exact .inl ⟨_, _, rfl, by decide⟩
  · exact .inl ⟨_, _, rfl, by decide⟩
  · exact .inl ⟨rc, w, rfl, h₃⟩
  · exact .inr ⟨rfl, h₃⟩

theorem WellFormed.delete_refused (hw : v.WellFormed) (ha : v.live a)
    (hlink : (v.tree.inodes a).type = .symLink) (hk : 2 ≤ k) (hcount : v.getChildCount a = some k)
    (fuel : ℕ) (deleteName : Bool) :
    Volume.delete (fuel + 1) v a false deleteName = some (-enosys, v) := by
  obtain ⟨i, rfl⟩ : ∃ i, k = i + 1 := ⟨k - 1, by omega⟩
  have hnone : (v.tree.inodes a).children[i]? = none := by
    rw [getElem?_eq_none_iff, hw.link a hlink]
    omega
  have hpos : ¬ enosys ≤ 0 := by decide
  simp [delete, ha, hcount, deleteChildren, hnone, hpos]

end Volume

def linkedInodes : ℕ → Inode Unit
  | 0 => ⟨['f'], .folder, none, [1], ⟨0, 0, 0⟩, ()⟩
  | 1 => ⟨['l'], .symLink, some 0, [2], ⟨0, 0, 0⟩, ()⟩
  | 2 => ⟨['t'], .folder, none, [3], ⟨0, 0, 0⟩, ()⟩
  | 3 => ⟨['x'], .file, some 2, [], ⟨0, 0, 0⟩, ()⟩
  | _ => ⟨[], .file, none, [], ⟨0, 0, 0⟩, ()⟩

def linkedDepth (a : ℕ) : ℕ :=
  if a = 1 then 1 else 0

theorem linkedInodes_link_lt : ∀ a, (linkedInodes a).type = .symLink →
    linkedDepth ((linkedInodes a).children.headD a) < linkedDepth a := by
  intro a h
  rcases a with _ | _ | _ | _ | a
  · cases h
  · decide
  · cases h
  · cases h
  · cases h

def linkedTree : Tree Unit where
  inodes := linkedInodes
  rootInodes := [0, 2]
  rootPrivilege := ⟨0, 0, 0⟩
  linkDepth := linkedDepth
  link_lt := linkedInodes_link_lt

def linkedVolume : Volume Unit where
  tree := linkedTree
  live := fun a => a < 4
  height := fun a => if a = 0 ∨ a = 2 then 1 else 0

theorem linkedVolume_holds (h : linkedVolume.Holds f c) : f = 0 ∧ c = 1 ∨ f = 2 ∧ c = 3 := by
  obtain ⟨ht, hc⟩ := h
  rcases f with _ | _ | _ | _ | f
  · exact .inl ⟨rfl, mem_singleton.1 hc⟩
  · cases ht
  · exact .inr ⟨rfl, mem_singleton.1 hc⟩
  · cases ht
  · cases ht

theorem linkedVolume_wellFormed : linkedVolume.WellFormed where
  nodup := by
    intro f
    rcases f with _ | _ | _ | _ | f
    · decide
    · decide
    · decide
    · decide
    · exact nodup_nil
  roots_nodup := by decide
  file := by
    intro a h
    rcases a with _ | _ | _ | _ | a
    · cases h
    · cases h
    · cases h
    · rfl
    · rfl
  link := by
    intro a h
    rcases a with _ | _ | _ | _ | a
    · cases h
    · rfl
    · cases h
    · cases h
    · cases h
  child := by
    intro f c _ h
    rcases linkedVolume_holds h with ⟨rfl, rfl⟩ | ⟨rfl, rfl⟩
    · exact ⟨rfl, by decide, 0, rfl, rfl⟩
    · exact ⟨rfl, by decide, 2, rfl, rfl⟩
  listed := by
    intro c p hl hp
    rcases c with _ | _ | _ | _ | c
    · cases hp
    · cases hp
      exact ⟨0, rfl, rfl, by decide⟩
    · cases hp
    · cases hp
      exact ⟨2, rfl, rfl, by decide⟩
    · exact absurd hl (by simp [linkedVolume])
  root := by
    intro c hl
    have hc : c < 4 := by simpa [linkedVolume] using hl
    rcases c with _ | _ | _ | _ | c
    · decide
    · decide
    · decide
    · decide
    · omega

namespace Volume

/-- `detach`, which for an inode without a parent locks the root list. A list that is locked
already is never locked again. -/
def detachIn (v : Volume β) (locked : Bool) (a : ℕ) : Option (ℤ × Volume β) :=
  if (v.tree.inodes a).parent = none ∧ locked = true then none else v.detach a

/-- `Delete`, as it is called with the root list locked or not. -/
def deleteIn (locked : Bool) : ℕ → Volume β → ℕ → Bool → Bool → Option (ℤ × Volume β)
  | 0, _, _, _, _ => none
  | fuel + 1, v, a, deleteTarget, deleteName =>
    if v.live a = false then none
    else
      match if (v.tree.inodes a).type = .symLink ∧ deleteTarget = true then
          deleteIn locked fuel v (v.tree.getTarget a) false false
        else some (0, v) with
      | none => none
      | some (rc, v) =>
        if rc < 0 then some (rc, v)
        else
          match v.getChildCount a with
          | none => none
          | some n =>
            match deleteChildren (fun v c => deleteIn locked fuel v c deleteName false) a n v with
            | none => none
            | some (rc, v) => if rc < 0 then some (rc, v) else v.detachIn locked a

/-- The loop of `DestroyFileSystem`, which takes the first root inode each time. -/
def destroyLoop (fuel : ℕ) : ℕ → ℕ → Volume β → Option (Volume β)
  | 0, _, _ => none
  | turns + 1, i, v =>
    if i < v.tree.rootInodes.length then
      match v.tree.rootInodes.head? with
      | none => destroyLoop fuel turns (i + 1) v
      | some a =>
        match deleteIn true fuel v a false false with
        | none => none
        | some (_, v) => destroyLoop fuel turns (i + 1) (v.free a)
    else some v

def destroyFileSystem (fuel : ℕ) (v : Volume β) : Option (Volume β) :=
  destroyLoop fuel fuel 0 v

/-- The call returns, with the root list empty and all inodes deleted. -/
def Destroys (v : Volume β) : Prop :=
  ∃ n, ∀ fuel ≥ n, ∃ w, v.destroyFileSystem fuel = some w ∧ w.tree.rootInodes = [] ∧
    ∀ a, w.live a = false

theorem deleteIn_unlocked (fuel : ℕ) : deleteIn (β := β) false fuel = delete fuel := by
  have hdetach : ∀ (v : Volume β) a, v.detachIn false a = v.detach a := fun v a => if_neg (by simp)
  induction fuel with
  | zero => rfl
  | succ fuel ih =>
    funext v a deleteTarget deleteName
    simp only [deleteIn, delete, ih, hdetach]

end Volume

section Locked

variable {v : Volume β} {locked : Bool} {rc : ℤ} {R : Volume β → Volume β → Prop}
  (hrefl : ∀ v, R v v) (htrans : ∀ {u v w}, R u v → R v w → R u w)
  (hfree : ∀ v a, R v (v.free a))

include hrefl htrans hfree

theorem deleteChildren_keeps (hdel : ∀ {v c rc w}, del v c = some (rc, w) → R v w) {i : ℕ}
    (h : deleteChildren del a i v = some (rc, w)) : R v w := by
  induction i generalizing v with
  | zero =>
    cases h
    exact hrefl _
  | succ i ih =>
    rw [deleteChildren] at h
    split at h
    · cases h
    split at h
    · cases h
      exact hrefl _
    · split at h
      · cases h
      · next hchild => exact htrans (hdel hchild) (htrans (hfree _ _) (ih h))

/-- What each step keeps, a whole deletion keeps. -/
theorem Volume.deleteIn_keeps (hdetach : ∀ {v a rc w},
      v.detachIn locked a = some (rc, w) → R v w)
    (h : deleteIn locked fuel v a deleteTarget deleteName = some (rc, w)) : R v w := by
  induction fuel generalizing v a deleteTarget deleteName rc w with
  | zero => cases h
  | succ fuel ih =>
    rw [deleteIn] at h
    split at h
    · cases h
    split at h
    · cases h
    next u hfirst =>
    have hstart : R v u := by
      split at hfirst
      · exact ih hfirst
      · cases hfirst
        exact hrefl v
    split at h
    · cases h
      exact hstart
    split at h
    · cases h
    split at h
    · cases h
    next hloop =>
    have hrest := htrans hstart (deleteChildren_keeps hrefl htrans hfree ih hloop)
    split at h
    · cases h
      exact hrest
    · exact htrans hrest (hdetach h)

end Locked

namespace Volume

/-- Whoever holds the lock of the root list cannot change it. -/
theorem detachIn_roots (h : v.detachIn true a = some (rc, w)) :
    w.tree.rootInodes = v.tree.rootInodes := by
  unfold detachIn at h
  split at h
  · cases h
  next hparent =>
  unfold detach removeChild at h
  split at h
  · next hnone => exact absurd ⟨hnone, rfl⟩ hparent
  split at h
  · cases h
  next u hremove =>
  have hsame : u.tree.rootInodes = v.tree.rootInodes := by
    split at hremove
    · cases hremove
    · split_ifs at hremove <;> cases hremove <;> rfl
  split at h <;> cases h <;> exact hsame

theorem deleteIn_roots (h : deleteIn true fuel v a deleteTarget deleteName = some (rc, w)) :
    w.tree.rootInodes = v.tree.rootInodes :=
  deleteIn_keeps (R := fun v w => w.tree.rootInodes = v.tree.rootInodes) (fun _ => rfl)
    (fun h₁ h₂ => h₂.trans h₁) (fun _ _ => rfl) detachIn_roots h

theorem destroyLoop_roots {turns i : ℕ} (h : destroyLoop fuel turns i v = some w) :
    w.tree.rootInodes = v.tree.rootInodes := by
  induction turns generalizing i v with
  | zero => cases h
  | succ turns ih =>
    rw [destroyLoop] at h
    split at h
    · split at h
      · exact ih h
      · split at h
        · cases h
        · next hdelete =>
          have hsame := deleteIn_roots hdelete
          exact (ih h).trans hsame
    · cases h
      rfl

theorem WellFormed.dead_of_no_root (hw : v.WellFormed)
    (hfin : {a | v.live a = true}.Finite) (hroots : v.tree.rootInodes = []) (a : ℕ) :
    v.live a = false := by
  by_contra hlive
  obtain ⟨b, hb, hmax⟩ := Set.exists_max_image _ v.height hfin ⟨a, by simpa using hlive⟩
  -- nothing can hold the highest inode, so it has to be a root
  cases hp : (v.tree.inodes b).parent with
  | none =>
    have hroot := (hw.root b hb).1 hp
    rw [hroots] at hroot
    exact absurd hroot not_mem_nil
  | some p =>
    obtain ⟨f, hf, hholds⟩ := hw.listed b p hb hp
    have hlivef : v.live f := (follow_spec hf).2
    have hlt := (hw.child f b hlivef hholds).2.1
    have hle := hmax f hlivef
    omega

/-- **Only a file system without root inodes can be destroyed.** -/
theorem destroys_iff (v : Volume β) : (v.Destroys → v.tree.rootInodes = []) ∧
    (v.WellFormed → {a | v.live a = true}.Finite → v.tree.rootInodes = [] → v.Destroys) := by
  constructor
  · rintro ⟨n, h⟩
    obtain ⟨w, hrun, hroots, -⟩ := h n le_rfl
    rw [← destroyLoop_roots hrun, hroots]
  · intro hw hfin hroots
    refine ⟨1, fun fuel hfuel => ⟨v, ?_, hroots, hw.dead_of_no_root hfin hroots⟩⟩
    obtain ⟨fuel, rfl⟩ : ∃ k, fuel = k + 1 := ⟨fuel - 1, by omega⟩
    rw [destroyFileSystem, destroyLoop, hroots, if_neg (by simp)]

end Volume

/-- Without the lock the folder `t` would be deleted; with it the call never returns. -/
theorem linkedVolume_not_destroyed : linkedVolume.WellFormed ∧ ¬ linkedVolume.Destroys ∧
    (linkedVolume.delete 5 2 false false).isSome ∧
      linkedVolume.deleteIn true 5 2 false false = none := by
  refine ⟨linkedVolume_wellFormed, ?_, rfl, rfl⟩
  rintro ⟨n, h⟩
  obtain ⟨w, hrun, hroots, -⟩ := h n le_rfl
  have hkept := Volume.destroyLoop_roots hrun
  rw [hroots] at hkept
  cases hkept

end TempFileSystem
