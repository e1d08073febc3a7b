import FrostyOS.AVLInsert

/-! # Deletion from the search tree

A node out of balance loses a part of its heavy side, because the root that a rotation
returns is dropped; a node that takes the key of its successor keeps its own data. -/
namespace AVLTree.Tree

open OrderedMap List

variable {V : Type} {t l r : Tree V} {k key h : ℕ} {v w : V}

/-- At the node to be deleted: `bare` with at most one child, otherwise `two` of the key of
the successor. -/
def atRoot (l r : Tree V) (bare : Bool) (two : ℕ → Bool) : Bool :=
  match l, minValueNode r with
  | leaf, _ => bare
  | _, none => bare
  | _, some (temp, _) => two temp

/-- The deletion takes one level off the tree, if nothing is rotated: along the way the
deletion is always on the higher side. -/
def shrinks : Tree V → ℕ → Bool
  | leaf, _ => false
  | node k _ _ l r, key =>
    if key < k then shrinks l key && decide (height r < height l)
    else if k < key then shrinks r key && decide (height l < height r)
    else atRoot l r true fun temp => shrinks r temp && decide (height l < height r)

/-- At some node of the way the lower side loses a level. -/
def unbalances : Tree V → ℕ → Bool
  | leaf, _ => false
  | node k _ _ l r, key =>
    if key < k then unbalances l key || shrinks l key && decide (height l < height r)
    else if k < key then unbalances r key || shrinks r key && decide (height r < height l)
    else atRoot l r false fun temp =>
      unbalances r temp || shrinks r temp && decide (height r < height l)

theorem length_keys_demoteRight (ht : t.left.depth ≠ 0) :
    (keys (demoteRight t)).length < (keys t).length := by
  cases t with
  | leaf => exact absurd rfl ht
  | node k v h l r =>
    cases l with
    | leaf => exact absurd rfl ht
    | node xk xv xh xl xr =>
      simp only [demoteRight, withHeight, keys_node, length_append, length_cons]
      omega

theorem length_keys_demoteLeft (ht : t.right.depth ≠ 0) :
    (keys (demoteLeft t)).length < (keys t).length := by
  cases t with
  | leaf => exact absurd rfl ht
  | node k v h l r =>
    cases r with
    | leaf => exact absurd rfl ht
    | node xk xv xh xl xr =>
      simp only [demoteLeft, withHeight, keys_node, length_append, length_cons]
      omega

theorem length_keys_le {s} (hs : (entries s).Sublist (entries t)) :
    (keys s).length ≤ (keys t).length := by
  simpa [keys] using hs.length_le

theorem depth_demoteLeft_ne_zero (ht : depth t ≠ 0) : depth (demoteLeft t) ≠ 0 := by
  unfold demoteLeft
  split
  · simp [withHeight, depth]
  · exact ht

theorem depth_demoteRight_ne_zero (ht : depth t ≠ 0) : depth (demoteRight t) ≠ 0 := by
  unfold demoteRight
  split
  · simp [withHeight, depth]
  · exact ht

theorem length_keys_rebalanceDelete (hl : Exact l) (hr : Exact r)
    (hbal : depth r + 1 < depth l ∨ depth l + 1 < depth r) :
    (keys (rebalanceDelete (node k v h l r))).length < (keys (node k v h l r)).length := by
  have hb := getBalance_withHeight (k := k) (v := v) hl hr
  have hkeys : keys (node k v h l r) = keys (withHeight k v l r) := rfl
  have hleft : (withHeight k v l r).left = l := rfl
  have hright : (withHeight k v l r).right = r := rfl
  rw [hkeys, rebalanceDelete]
  rcases hbal with hbal | hbal
  · have hgt : 1 < getBalance (withHeight k v l r) := by omega
    have hlt : ¬ getBalance (withHeight k v l r) < -1 := by omega
    simp only [hgt, hlt, hleft, true_and, false_and, if_false]
    by_cases hll : 0 ≤ getBalance l
    · rw [if_pos hll]
      refine Nat.lt_of_le_of_lt (length_keys_le ?_)
        (length_keys_demoteRight (t := withHeight k v l r) (by rw [hleft]; omega))
      split
      · exact (entries_demoteRight _).trans (entries_setLeft_sublist _ (entries_demoteLeft _))
      · exact List.Sublist.refl _
    · rw [if_neg hll, hleft, if_pos (by omega)]
      refine Nat.lt_of_lt_of_le (length_keys_demoteRight ?_)
        (length_keys_le (entries_setLeft_sublist _ (entries_demoteLeft _)))
      exact depth_demoteLeft_ne_zero (t := l) (by omega)
  · have hgt : ¬ 1 < getBalance (withHeight k v l r) := by omega
    have hlt : getBalance (withHeight k v l r) < -1 := by omega
    simp only [hgt, hlt, hright, true_and, false_and, if_false]
    by_cases hrr : getBalance r ≤ 0
    · rw [if_pos hrr]
      refine Nat.lt_of_le_of_lt (length_keys_le ?_)
        (length_keys_demoteLeft (t := withHeight k v l r) (by rw [hright]; omega))
      split
      · exact (entries_demoteLeft _).trans (entries_setRight_sublist _ (entries_demoteRight _))
      · exact List.Sublist.refl _
    · rw [if_neg hrr, hright, if_pos (by omega)]
      refine Nat.lt_of_lt_of_le (length_keys_demoteLeft ?_)
        (length_keys_le (entries_setRight_sublist _ (entries_demoteRight _)))
      exact depth_demoteRight_ne_zero (t := r) (by omega)

theorem rebalanceDelete_of_steady (hl : Exact l) (hr : Exact r) (h₁ : depth l ≤ depth r + 1)
    (h₂ : depth r ≤ depth l + 1) : rebalanceDelete (node k v h l r) = withHeight k v l r := by
  have hb := getBalance_withHeight (k := k) (v := v) hl hr
  have hgt : ¬ 1 < getBalance (withHeight k v l r) := by omega
  have hlt : ¬ getBalance (withHeight k v l r) < -1 := by omega
  simp only [rebalanceDelete, hgt, hlt, false_and, if_false]

theorem rebalanceDelete_of_balanced (hex : Exact t) (hbal : Balanced t) :
    rebalanceDelete t = t := by
  cases t with
  | leaf => rfl
  | node k v h l r =>
    obtain ⟨hh, hl, hr⟩ := hex
    rw [rebalanceDelete_of_steady hl hr hbal.1 hbal.2.1, withHeight, hl.height_eq, hr.height_eq, hh]

/-- A deletion that should leave the keys `ks` loses some if it unbalances the tree;
otherwise it leaves a balanced tree, one level lower if it shrinks it. -/
def Outcome (unbalances : Bool) (t : Tree V) (ks : List ℕ) (shrinks : Bool) (d : ℕ) : Prop :=
  if unbalances = true then (keys t).length < ks.length
  else keys t = ks ∧ Exact t ∧ Balanced t ∧ depth t + (if shrinks = true then 1 else 0) = d

abbrev Deleted (t : Tree V) (key : ℕ) : Prop :=
  Outcome (unbalances t key) (deleteNode t key) ((keys t).filter (· ≠ key)) (shrinks t key)
    (depth t)

theorem level_lost {a b d : ℕ} {p : Prop} [Decidable p] (h₁ : a ≤ b + 1) (h₂ : b ≤ a + 1)
    (hd : d + (if p then 1 else 0) = a) (hp : ¬ (p ∧ a < b)) :
    d ≤ b + 1 ∧ b ≤ d + 1 ∧ max d b + (if p ∧ b < a then 1 else 0) = max a b := by
  by_cases h : p
  · simp only [h, true_and, if_true] at hd hp ⊢
    split <;> omega
  · simp only [h, false_and, if_false] at hd ⊢
    omega

/-- What becomes of a tree whose right side is replaced by what a deletion there leaves. -/
theorem deleteRight_spec (k' : ℕ) (hex : Exact (node k v h l r))
    (hbal : Balanced (node k v h l r)) (hright : Deleted r key) :
    Outcome (unbalances r key || shrinks r key && decide (height r < height l))
      (rebalanceDelete (node k' v h l (deleteNode r key)))
      (keys l ++ k' :: (keys r).filter (· ≠ key))
      (shrinks r key && decide (height l < height r)) (depth (node k v h l r)) := by
  obtain ⟨-, hl, hr⟩ := id hex
  obtain ⟨h₁, h₂, hbl, -⟩ := id hbal
  rw [hl.height_eq, hr.height_eq]
  unfold Deleted Outcome at *
  cases hub : unbalances r key with
  | true =>
    rw [hub, if_pos rfl] at hright
    rw [Bool.true_or, if_pos rfl]
    refine Nat.lt_of_le_of_lt (keys_rebalanceDelete _).length_le ?_
    rw [keys_node]
    simp only [length_append, length_cons]
    omega
  | false =>
    rw [hub, if_neg (by decide)] at hright
    obtain ⟨hkeys, hexact, hbalanced, hdepth⟩ := hright
    simp only [Bool.false_or, Bool.and_eq_true, decide_eq_true_eq]
    split
    case isTrue hs =>
      obtain ⟨hs, hlt⟩ := hs
      rw [if_pos hs] at hdepth
      rw [← hkeys, ← keys_node (v := v) (h := h)]
      exact length_keys_rebalanceDelete hl hexact (.inl (by omega))
    case isFalse hs =>
      obtain ⟨hlow, hhigh, hmax⟩ := level_lost h₂ h₁ hdepth hs
      rw [rebalanceDelete_of_steady hl hexact hhigh hlow]
      refine ⟨?_, exact_withHeight.mpr ⟨hl, hexact⟩, ⟨hhigh, hlow, hbl, hbalanced⟩, ?_⟩
      · rw [withHeight, keys_node, hkeys]
      · rw [depth_withHeight, depth]
        omega

theorem deleteLeft_spec (hex : Exact (node k v h l r)) (hbal : Balanced (node k v h l r))
    (hleft : Deleted l key) :
    Outcome (unbalances l key || shrinks l key && decide (height l < height r))
      (rebalanceDelete (node k v h (deleteNode l key) r))
      ((keys l).filter (· ≠ key) ++ k :: keys r)
      (shrinks l key && decide (height r < height l)) (depth (node k v h l r)) := by
  obtain ⟨-, hl, hr⟩ := id hex
  obtain ⟨h₁, h₂, -, hbr⟩ := id hbal
  rw [hl.height_eq, hr.height_eq]
  unfold Deleted Outcome at *
  cases hub : unbalances l key with
  | true =>
    rw [hub, if_pos rfl] at hleft
    rw [Bool.true_or, if_pos rfl]
    refine Nat.lt_of_le_of_lt (keys_rebalanceDelete _).length_le ?_
    rw [keys_node]
    simp only [length_append, length_cons]
    omega
  | false =>
    rw [hub, if_neg (by decide)] at hleft
    obtain ⟨hkeys, hexact, hbalanced, hdepth⟩ := hleft
    simp only [Bool.false_or, Bool.and_eq_true, decide_eq_true_eq]
    split
    case isTrue hs =>
      obtain ⟨hs, hlt⟩ := hs
      rw [if_pos hs] at hdepth
      rw [← hkeys, ← keys_node (v := v) (h := h)]
      exact length_keys_rebalanceDelete hexact hr (.inr (by omega))
    case isFalse hs =>
      obtain ⟨hlow, hhigh, hmax⟩ := level_lost h₁ h₂ hdepth hs
      rw [rebalanceDelete_of_steady hexact hr hlow hhigh]
      refine ⟨?_, exact_withHeight.mpr ⟨hexact, hr⟩, ⟨hlow, hhigh, hbalanced, hbr⟩, ?_⟩
      · rw [withHeight, keys_node, hkeys]
      · rw [depth_withHeight, depth]
        omega

/-- Either some node of the way gets out of balance and keys are lost, or nothing is
rotated. -/
theorem deleteNode_spec (hord : Ordered t) (hex : Exact t) (hbal : Balanced t) (key : ℕ) :
    Deleted t key := by
  induction t generalizing key with
  | leaf => exact ⟨rfl, trivial, trivial, rfl⟩
  | node k v h l r ihl ihr =>
    obtain ⟨hl, hr, -, -⟩ := ordered_node.mp hord
    obtain ⟨-, hel, her⟩ := id hex
    obtain ⟨-, -, hbl, hbr⟩ := id hbal
    unfold Deleted
    rcases Nat.lt_trichotomy key k with hk | rfl | hk
    · rw [deleteNode, unbalances, shrinks, filter_keys_lt hord hk]
      simp only [hk, if_true]
      exact deleteLeft_spec hex hbal (ihl hl hel hbl key)
    · rw [deleteNode, unbalances, shrinks, filter_keys_self hord]
      simp only [lt_irrefl, if_false]
      cases l with
      | leaf =>
        simp only [deleteRoot, rebalanceDelete_of_balanced her hbr]
        refine ⟨rfl, her, hbr, ?_⟩
        rw [depth, depth, Nat.zero_max]
        rfl
      | node lk lv lh ll lr =>
        cases hmin : minValueNode r with
        | none =>
          rw [minValueNode_eq, head?_eq_none_iff] at hmin
          obtain rfl : r = leaf := by
            cases r with
            | leaf => rfl
            | node => simp [entries] at hmin
          simp only [deleteRoot, minValueNode, rebalanceDelete_of_balanced hel hbl]
          exact ⟨(append_nil _).symm, hel, hbl, rfl⟩
        | some e =>
          obtain ⟨temp, tw⟩ := e
          obtain ⟨rest, hrest⟩ := keys_of_minValueNode hmin
          have hfilter : temp :: (keys r).filter (· ≠ temp) = keys r := by
            have hsorted := ordered_iff_keys.mp hr
            rw [hrest, pairwise_cons] at hsorted
            rw [hrest, filter_cons_of_neg (by simp), filter_ne_of_notMem]
            intro hm
            exact lt_irrefl _ (hsorted.1 temp hm)
          have hspec := deleteRight_spec temp hex hbal (ihr hr her hbr temp)
          rw [hfilter] at hspec
          simp only [deleteRoot, atRoot, hmin]
          exact hspec
    · have hno : ¬ key < k := by omega
      rw [deleteNode, unbalances, shrinks, filter_keys_gt hord hk]
      simp only [hno, hk, if_true, if_false]
      exact deleteRight_spec k hex hbal (ihr hr her hbr key)

/-- A deletion from a balanced tree takes out its key and nothing else exactly when no node
of its way gets out of balance. -/
theorem delete_loses_no_key_iff (hord : Ordered t) (hex : Exact t) (hbal : Balanced t) (key : ℕ) :
    keys (deleteNode t key) = (keys t).filter (· ≠ key) ↔ unbalances t key = false := by
  have hspec : Deleted t key := deleteNode_spec hord hex hbal key
  unfold Deleted Outcome at hspec
  constructor
  · intro hkeys
    by_contra hu
    rw [if_pos (by simpa using hu), hkeys] at hspec
    exact lt_irrefl _ hspec
  · intro hu
    rw [if_neg (by simp [hu])] at hspec
    exact hspec.1

def rightLeaning : Tree ℕ :=
  node 2 20 3 (node 1 10 1 leaf leaf) (node 3 30 2 leaf (node 4 40 1 leaf leaf))

theorem delete_loses_no_key_four :
    keys (deleteNode rightLeaning 4) = (keys rightLeaning).filter (· ≠ 4) :=
  (delete_loses_no_key_iff (by decide) (by decide) (by decide) 4).mpr (by decide)

/-- With one gone the root is to be rotated to the left; three and four are lost. -/
theorem delete_loses_keys :
    Ordered rightLeaning ∧ Exact rightLeaning ∧ Balanced rightLeaning ∧
      keys rightLeaning = [1, 2, 3, 4] ∧ keys (deleteNode rightLeaning 1) = [2] := by
  decide

def takenOverAtRoot (v : V) (l r : Tree V) : Option (V × ℕ × V) :=
  match l, minValueNode r with
  | leaf, _ => none
  | _, none => none
  | _, some (temp, w) => some (v, temp, w)

def takenOver : Tree V → ℕ → Option (V × ℕ × V)
  | leaf, _ => none
  | node k v _ l r, key =>
    if key < k then takenOver l key
    else if k < key then takenOver r key
    else takenOverAtRoot v l r

def KeepsData (t : Tree V) (key : ℕ) : Prop :=
  ∀ e ∈ entries (deleteNode t key), findNode t e.1 = some e.2

variable {temp : ℕ} {e : ℕ × V}

theorem takenOverAtRoot_mem (h : takenOverAtRoot v l r = some (v, temp, w)) :
    (temp, w) ∈ entries r := by
  unfold takenOverAtRoot at h
  split at h
  · cases h
  · cases h
  · next hmin =>
    obtain ⟨rfl, rfl⟩ := Prod.mk.inj (Prod.mk.inj (Option.some.inj h)).2
    rw [minValueNode_eq] at hmin
    exact mem_of_mem_head? hmin

theorem takenOver_mem {u} (h : takenOver t key = some (u, temp, w)) :
    (temp, w) ∈ entries t := by
  induction t with
  | leaf => cases h
  | node k v h' l r ihl ihr =>
    rw [takenOver] at h
    rw [entries, mem_append, mem_cons]
    split at h
    · exact .inl (ihl h)
    split at h
    · exact .inr (.inr (ihr h))
    have hu : u = v := by
      unfold takenOverAtRoot at h
      split at h <;> simp_all
    rw [hu] at h
    exact .inr (.inr (takenOverAtRoot_mem h))

theorem takenOver_minValueNode (hord : Ordered t) (hmin : minValueNode t = some (temp, w)) :
    takenOver t temp = none := by
  induction t with
  | leaf => rfl
  | node k v h l r ihl _ =>
    obtain ⟨hl, -, hlk, -⟩ := ordered_node.mp hord
    rw [minValueNode] at hmin
    cases hleft : minValueNode l with
    | none =>
      rw [hleft, Option.none_or, Option.some.injEq, Prod.mk.injEq] at hmin
      rw [minValueNode_eq, head?_eq_none_iff] at hleft
      obtain rfl : l = leaf := by
        cases l with
        | leaf => rfl
        | node => simp [entries] at hleft
      rw [takenOver, hmin.1, if_neg (lt_irrefl _), if_neg (lt_irrefl _)]
      rfl
    | some e =>
      rw [hleft, Option.some_or] at hmin
      have hlt : temp < k := by
        rw [Option.some.inj hmin, minValueNode_eq] at hleft
        exact hlk _ (mem_of_mem_head? hleft)
      rw [takenOver, if_pos hlt]
      exact ihl hl (hleft.trans hmin)

theorem mem_entries_rebalanceDelete (he : e ∈ entries (rebalanceDelete (node k v h l r))) :
    e ∈ entries l ∨ e = (k, v) ∨ e ∈ entries r := by
  have hmem := (entries_rebalanceDelete _).subset he
  rwa [entries, mem_append, mem_cons] at hmem

theorem mem_entries_deleteRoot (hord : Ordered (node k v h l r))
    (hright : ∀ {temp w}, minValueNode r = some (temp, w) → e ∈ entries (deleteNode r temp) →
      (∃ w, takenOver r temp = some (e.2, e.1, w)) ∨
        e ∈ entries r ∧ ∀ v temp' w, takenOver r temp = some (v, temp', w) → e.1 ≠ temp')
    (he : e ∈ entries (deleteRoot v h l r fun temp => deleteNode r temp)) :
    (∃ w, takenOverAtRoot v l r = some (e.2, e.1, w)) ∨
      (e ∈ entries l ∨ e = (k, v) ∨ e ∈ entries r) ∧
        ∀ v' temp w, takenOverAtRoot v l r = some (v', temp, w) → e.1 ≠ temp := by
  obtain ⟨-, hr, hlk, hrk⟩ := ordered_node.mp hord
  cases l with
  | leaf =>
    refine .inr ⟨.inr (.inr ((entries_rebalanceDelete r).subset he)), ?_⟩
    intro v' temp w htaken
    cases htaken
  | node lk lv lh ll lr =>
    cases hmin : minValueNode r with
    | none =>
      simp only [deleteRoot, hmin] at he
      refine .inr ⟨.inl ((entries_rebalanceDelete _).subset he), ?_⟩
      intro v' temp w htaken
      simp [takenOverAtRoot, hmin] at htaken
    | some s =>
      obtain ⟨temp, w⟩ := s
      simp only [deleteRoot, hmin] at he
      have htaken : takenOverAtRoot v (node lk lv lh ll lr) r = some (v, temp, w) := by
        simp only [takenOverAtRoot, hmin]
      have hgt : k < temp := hrk _ (takenOverAtRoot_mem htaken)
      rw [htaken]
      rcases mem_entries_rebalanceDelete he with he | rfl | he
      · refine .inr ⟨.inl he, ?_⟩
        rintro v' temp' w' ⟨⟩
        have hlt := hlk e he
        omega
      · exact .inl ⟨w, rfl⟩
      · have hne : e.1 ≠ temp := by
          have hkey := (keys_deleteNode hr temp).subset (mem_map_of_mem he)
          simpa using (mem_filter.mp hkey).2
        rcases hright hmin he with ⟨w', hw'⟩ | ⟨hold, -⟩
        · -- the successor is taken out of a place with one child at most
          rw [takenOver_minValueNode hr hmin] at hw'
          cases hw'
        · refine .inr ⟨.inr (.inr hold), ?_⟩
          rintro v' temp' w' ⟨⟩
          exact hne

/-- What is left is old, but for the key that was taken over: it comes with the data of the
node that took it. -/
theorem mem_entries_deleteNode (hord : Ordered t) (he : e ∈ entries (deleteNode t key)) :
    (∃ w, takenOver t key = some (e.2, e.1, w)) ∨
      e ∈ entries t ∧ ∀ v temp w, takenOver t key = some (v, temp, w) → e.1 ≠ temp := by
  induction t generalizing key with
  | leaf => cases he
  | node k v h l r ihl ihr =>
    obtain ⟨hl, hr, hlk, hrk⟩ := ordered_node.mp hord
    rw [deleteNode] at he
    rw [takenOver, entries, mem_append, mem_cons]
    rcases Nat.lt_trichotomy key k with hk | rfl | hk
    · rw [if_pos hk] at he ⊢
      rcases mem_entries_rebalanceDelete he with he | he
      · exact (ihl hl he).imp_right fun h => ⟨.inl h.1, h.2⟩
      refine .inr ⟨.inr he, ?_⟩
      rintro v' temp w htaken rfl
      have hlt : e.1 < k := hlk (e.1, w) (takenOver_mem htaken)
      rcases he with rfl | he
      · exact lt_irrefl _ hlt
      · exact Nat.lt_asymm hlt (hrk e he)
    · rw [if_neg (lt_irrefl _), if_neg (lt_irrefl _)] at he ⊢
      exact mem_entries_deleteRoot hord (fun hmin he => ihr hr he) he
    · have hno : ¬ key < k := by omega
      rw [if_neg hno, if_pos hk] at he ⊢
      rcases mem_entries_rebalanceDelete he with he | he | he
      · refine .inr ⟨.inl he, ?_⟩
        rintro v' temp w htaken rfl
        have hlt : k < e.1 := hrk (e.1, w) (takenOver_mem htaken)
        exact Nat.lt_asymm hlt (hlk e he)
      · refine .inr ⟨.inr (.inl he), ?_⟩
        rintro v' temp w htaken rfl
        have hlt : k < e.1 := hrk (e.1, w) (takenOver_mem htaken)
        rw [he] at hlt
        exact lt_irrefl _ hlt
      · exact (ihr hr he).imp_right fun h => ⟨.inr (.inr h.1), h.2⟩

theorem findNode_of_mem (hord : Ordered t) (he : e ∈ entries t) : findNode t e.1 = some e.2 := by
  rw [findNode_eq hord, Assoc.find, find?_eq_some_iff_append.mpr ?_, Option.map_some]
  obtain ⟨before, after, hsplit⟩ := append_of_mem he
  refine ⟨by simp, before, after, hsplit, ?_⟩
  intro e' he'
  rw [Ordered, hsplit, Assoc.Sorted, pairwise_append] at hord
  have hlt := hord.2.2 e' he' e mem_cons_self
  simpa using ne_of_lt hlt

/-- The deleted node has one child at most, or its successor has the same data. -/
def SameData (t : Tree V) (key : ℕ) : Prop :=
  ∀ v temp w, takenOver t key = some (v, temp, w) → v = w

theorem keepsData_of_sameData (hord : Ordered t) (hsame : SameData t key) : KeepsData t key := by
  intro e he
  rcases mem_entries_deleteNode hord he with ⟨w, hw⟩ | ⟨hold, -⟩
  · rw [hsame _ _ _ hw]
    exact findNode_of_mem hord (takenOver_mem hw)
  · exact findNode_of_mem hord hold

theorem same_of_keepsData (hord : Ordered t) (hkeeps : KeepsData t key)
    (htaken : takenOver t key = some (v, temp, w)) (hmem : temp ∈ keys (deleteNode t key)) :
    v = w := by
  obtain ⟨e, he, rfl⟩ := mem_map.mp hmem
  have hold := findNode_of_mem hord (takenOver_mem htaken)
  have hnew := hkeeps e he
  rcases mem_entries_deleteNode hord he with ⟨w', hw'⟩ | ⟨-, hne⟩
  · rw [htaken, Option.some.injEq, Prod.mk.injEq] at hw'
    rw [hold, Option.some.injEq] at hnew
    exact hw'.1.trans hnew.symm
  · exact absurd rfl (hne _ _ _ htaken)

/-! In a balanced tree a dropped rotation is always on the side away from the deletion, so
that the key that was taken over stays. -/

/-- The node and its left side are still there, and the right side is not higher than `m`. -/
def KeepsLeft (k : ℕ) (v : V) (l : Tree V) (m : ℕ) (t : Tree V) : Prop :=
  ∃ h r, t = node k v h l r ∧ Exact r ∧ height r ≤ m ∧ h ≤ max (height l) m + 1

def KeepsRight (k : ℕ) (v : V) (r : Tree V) (m : ℕ) (t : Tree V) : Prop :=
  ∃ h l, t = node k v h l r ∧ Exact l ∧ height l ≤ m ∧ h ≤ max (height r) m + 1

theorem keepsLeft_withHeight (hr : Exact r) : KeepsLeft k v l (height r) (withHeight k v l r) :=
  ⟨_, r, rfl, hr, le_rfl, le_rfl⟩

theorem keepsRight_withHeight (hl : Exact l) : KeepsRight k v r (height l) (withHeight k v l r) :=
  ⟨_, l, rfl, hl, le_rfl, by rw [Nat.max_comm]⟩

theorem height_children (hex : Exact (node k v h l r)) : height l < h ∧ height r < h := by
  obtain ⟨hh, hl, hr⟩ := hex
  rw [hl.height_eq, hr.height_eq]
  omega

theorem keepsLeft_demoteLeft {m : ℕ} (ht : KeepsLeft k v l m t) :
    KeepsLeft k v l m (demoteLeft t) := by
  obtain ⟨h, r, rfl, hr, hm, hh⟩ := ht
  cases r with
  | leaf => exact ⟨h, leaf, rfl, hr, hm, hh⟩
  | node yk yv yh s yr =>
    have hlow := (height_children hr).1
    have hm' : yh ≤ m := hm
    exact ⟨_, s, rfl, hr.2.1, by omega, by omega⟩

theorem keepsRight_demoteRight {m : ℕ} (ht : KeepsRight k v r m t) :
    KeepsRight k v r m (demoteRight t) := by
  obtain ⟨h, l, rfl, hl, hm, hh⟩ := ht
  cases l with
  | leaf => exact ⟨h, leaf, rfl, hl, hm, hh⟩
  | node xk xv xh xl s =>
    have hlow := (height_children hl).2
    have hm' : xh ≤ m := hm
    exact ⟨_, s, rfl, hl.2.2, by omega, by omega⟩

theorem exact_demoteRight (ht : Exact t) :
    Exact (demoteRight t) ∧ height (demoteRight t) ≤ height t := by
  unfold demoteRight
  split
  · next k v h xk xv xh xl s r =>
    have hl := height_children ht
    have hs := height_children ht.2.1
    refine ⟨exact_withHeight.mpr ⟨ht.2.1.2.2, ht.2.2⟩, ?_⟩
    simp only [height, withHeight] at hl hs ⊢
    omega
  · exact ⟨ht, le_rfl⟩

theorem exact_demoteLeft (ht : Exact t) :
    Exact (demoteLeft t) ∧ height (demoteLeft t) ≤ height t := by
  unfold demoteLeft
  split
  · next k v h l yk yv yh s yr =>
    have hr := height_children ht
    have hs := height_children ht.2.2
    refine ⟨exact_withHeight.mpr ⟨ht.2.1, ht.2.2.2.1⟩, ?_⟩
    simp only [height, withHeight] at hr hs ⊢
    omega
  · exact ⟨ht, le_rfl⟩

theorem keepsLeft_rebalanceDelete (hr : Exact r) (hle : height l ≤ height r + 1) :
    KeepsLeft k v l (height r) (rebalanceDelete (node k v h l r)) := by
  have hgt : ¬ 1 < getBalance (withHeight k v l r) := by
    simp only [getBalance, withHeight]
    omega
  have htwice : ∀ {t : Tree V} {m : ℕ}, KeepsLeft k v l m t →
      KeepsLeft k v l m (demoteLeft (t.setRight (demoteRight t.right))) := by
    rintro _ m ⟨h', r', rfl, hr', hm, hh⟩
    obtain ⟨hex, hlow⟩ := exact_demoteRight hr'
    exact keepsLeft_demoteLeft ⟨h', _, rfl, hex, Nat.le_trans hlow hm, hh⟩
  simp only [rebalanceDelete, hgt, false_and, if_false]
  split
  · have hone : KeepsLeft k v l _ (demoteLeft (withHeight k v l r)) :=
      keepsLeft_demoteLeft (keepsLeft_withHeight hr)
    split
    · exact htwice hone
    · exact hone
  · split
    · exact htwice (keepsLeft_withHeight hr)
    · exact keepsLeft_withHeight hr

theorem keepsRight_rebalanceDelete (hl : Exact l) (hle : height r ≤ height l + 1) :
    KeepsRight k v r (height l) (rebalanceDelete (node k v h l r)) := by
  have hlt : ¬ getBalance (withHeight k v l r) < -1 := by
    simp only [getBalance, withHeight]
    omega
  have htwice : ∀ {t : Tree V} {m : ℕ}, KeepsRight k v r m t →
      KeepsRight k v r m (demoteRight (t.setLeft (demoteLeft t.left))) := by
    rintro _ m ⟨h', l', rfl, hl', hm, hh⟩
    obtain ⟨hex, hlow⟩ := exact_demoteLeft hl'
    exact keepsRight_demoteRight ⟨h', _, rfl, hex, Nat.le_trans hlow hm, hh⟩
  simp only [rebalanceDelete, hlt, false_and, if_false]
  split
  · have hone : KeepsRight k v r _ (demoteRight (withHeight k v l r)) :=
      keepsRight_demoteRight (keepsRight_withHeight hl)
    split
    · exact htwice hone
    · exact hone
  · split
    · exact htwice (keepsRight_withHeight hl)
    · exact keepsRight_withHeight hl

theorem takenOverAtRoot_stays (hex : Exact (node k v h l r))
    (hbal : Balanced (node k v h l r)) (hright : ∀ temp, height (deleteNode r temp) ≤ height r) :
    height (deleteRoot v h l r fun temp => deleteNode r temp) ≤ h ∧
      ∀ u temp w, takenOverAtRoot v l r = some (u, temp, w) →
        temp ∈ keys (deleteRoot v h l r fun temp => deleteNode r temp) := by
  have hlow := height_children hex
  obtain ⟨-, hl, hr⟩ := hex
  obtain ⟨-, hbal', hbl, hbr⟩ := hbal
  cases l with
  | leaf =>
    have heq : deleteRoot v h leaf r (fun temp => deleteNode r temp) = r :=
      rebalanceDelete_of_balanced hr hbr
    rw [heq]
    exact ⟨Nat.le_of_lt hlow.2, fun u temp w htaken => by cases htaken⟩
  | node lk lv lh ll lr =>
    cases hmin : minValueNode r with
    | none =>
      simp only [deleteRoot, takenOverAtRoot, hmin]
      rw [rebalanceDelete_of_balanced hl hbl]
      exact ⟨Nat.le_of_lt hlow.1, fun u temp w htaken => by cases htaken⟩
    | some s =>
      obtain ⟨temp', w'⟩ := s
      simp only [deleteRoot, takenOverAtRoot, hmin]
      have hshort := hright temp'
      have hle : height (deleteNode r temp') ≤ height (node lk lv lh ll lr) + 1 := by
        rw [hr.height_eq] at hshort
        rw [hl.height_eq]
        omega
      obtain ⟨h', l', heq, -, -, hh'⟩ := keepsRight_rebalanceDelete (k := temp') (v := v) (h := h)
        hl hle
      rw [heq]
      constructor
      · change h' ≤ h
        omega
      · rintro u temp w ⟨⟩
        simp [keys_node]

theorem takenOver_stays (hex : Exact t) (hbal : Balanced t) (key : ℕ) :
    height (deleteNode t key) ≤ height t ∧
      ∀ u temp w, takenOver t key = some (u, temp, w) → temp ∈ keys (deleteNode t key) := by
  induction t generalizing key with
  | leaf => exact ⟨le_rfl, fun u temp w htaken => by cases htaken⟩
  | node k v h l r ihl ihr =>
    have hlow := height_children hex
    have hhl := hex.2.1.height_eq
    have hhr := hex.2.2.height_eq
    have hb := hbal
    obtain ⟨hb₁, hb₂, hbl, hbr⟩ := hb
    rw [deleteNode, takenOver]
    rcases Nat.lt_trichotomy key k with hk | rfl | hk
    · obtain ⟨hshort, hstays⟩ := ihl hex.2.1 hbl key
      rw [if_pos hk, if_pos hk]
      obtain ⟨h', r', heq, -, -, hh'⟩ := keepsLeft_rebalanceDelete (k := k) (v := v) (h := h)
        (l := deleteNode l key) hex.2.2 (by omega)
      rw [heq]
      refine ⟨?_, fun u temp w htaken => ?_⟩
      · change h' ≤ h
        omega
      · rw [keys_node]
        exact mem_append_left _ (hstays u temp w htaken)
    · rw [if_neg (lt_irrefl _), if_neg (lt_irrefl _), if_neg (lt_irrefl _),
        if_neg (lt_irrefl _)]
      have hright := fun temp => (ihr hex.2.2 hbr temp).1
      exact takenOverAtRoot_stays hex hbal hright
    · have hno : ¬ key < k := by omega
      obtain ⟨hshort, hstays⟩ := ihr hex.2.2 hbr key
      rw [if_neg hno, if_pos hk, if_neg hno, if_pos hk]
      obtain ⟨h', l', heq, -, -, hh'⟩ := keepsRight_rebalanceDelete (k := k) (v := v) (h := h)
        (r := deleteNode r key) hex.2.1 (by omega)
      rw [heq]
      refine ⟨?_, fun u temp w htaken => ?_⟩
      · change h' ≤ h
        omega
      · rw [keys_node]
        exact mem_append_right _ (mem_cons_of_mem _ (hstays u temp w htaken))

/-- The data stay with their keys if the deleted node has one child at most or its successor
has the same data. Otherwise the successor's key has the wrong data wherever it is still
found, as it always is in a balanced tree. -/
theorem delete_keeps_data_iff (hord : Ordered t) (key : ℕ) : (SameData t key → KeepsData t key) ∧
    (KeepsData t key → ∀ v temp w, takenOver t key = some (v, temp, w) →
      temp ∈ keys (deleteNode t key) → v = w) ∧
    (Exact t → Balanced t → (KeepsData t key ↔ SameData t key)) := by
  refine ⟨keepsData_of_sameData hord, fun hkeeps v temp w => same_of_keepsData hord hkeeps, ?_⟩
  intro hex hbal
  refine ⟨fun hkeeps v temp w htaken => ?_, keepsData_of_sameData hord⟩
  exact same_of_keepsData hord hkeeps htaken ((takenOver_stays hex hbal key).2 v temp w htaken)

theorem delete_keeps_data_three : KeepsData rightLeaning 3 :=
  ((delete_keeps_data_iff (by decide) 3).2.2 (by decide) (by decide)).mpr (by
    intro v temp w htaken
    exact absurd htaken (by simp [takenOver, takenOverAtRoot, rightLeaning]))

/-- Two goes, three takes its place and its data. -/
theorem delete_mixes_data :
    Ordered rightLeaning ∧ findNode rightLeaning 3 = some 30 ∧
      findNode (deleteNode rightLeaning 2) 3 = some 20 ∧ ¬ KeepsData rightLeaning 2 := by
  refine ⟨by decide, by decide, by decide, ?_⟩
  intro hkeeps
  exact absurd (hkeeps (3, 20) (by decide)) (by decide)

end AVLTree.Tree
