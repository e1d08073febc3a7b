import FrostyOS.FileSession

/-! # The tree of an archive

The inode tree with exactly the paths of an archive's entries. Entry number `i` is the inode
at address `i`. -/
namespace InitRAMFS

open Errno TempFS VFS MachineWord List
open TempFileSystem (Name Disk Kind Regular pathSeparator)

/-- A file or a folder, with the names on its path. -/
structure Entry where
  path : List Bytes
  isFolder : Bool
  mode : ℕ
  uid : ℕ
  gid : ℕ
  data : Bytes
  deriving DecidableEq, Repr

def toName (b : Bytes) : Name :=
  b.map toChar

namespace Entry

variable (e : Entry)

def names : List Name :=
  e.path.map toName

def parent : List Bytes :=
  e.path.dropLast

def name : Bytes :=
  e.path.getLastD []

def privilege : FilePrivilegeLevel :=
  ⟨e.uid % 2 ^ 32, e.gid % 2 ^ 32, e.mode % 2 ^ 16⟩

def kind : Kind :=
  if e.isFolder then .folder else .file

end Entry

/-- A name of a file: `.` and `..` are none. -/
structure IsName (w : Bytes) : Prop where
  ne_nil : w ≠ []
  no_zero : 0 ∉ w
  no_separator : separator ∉ w
  ne_dot : w ≠ [46]
  ne_dotDot : w ≠ [46, 46]

def pathBytes (path : List Bytes) : Bytes :=
  [separator].intercalate path

/-- Paths are made of names, are short and appear once; every parent is a folder that comes
before, and folders have no contents. -/
structure WellFormed (es : List Entry) : Prop where
  path_ne_nil : ∀ e ∈ es, e.path ≠ []
  names : ∀ e ∈ es, ∀ w ∈ e.path, IsName w
  short : ∀ e ∈ es, (pathBytes e.path).length < 99
  unique : (es.map Entry.path).Nodup
  parents : ∀ (i : ℕ) (e : Entry), es[i]? = some e → e.parent ≠ [] →
    ∃ (j : ℕ) (f : Entry), j < i ∧ es[j]? = some f ∧ f.path = e.parent ∧ f.isFolder = true
  folders : ∀ e ∈ es, e.isFolder = true → e.data = []

theorem toChar_injective : Function.Injective toChar := by
  intro a b h
  have hvalid : ∀ c : UInt8, c.toNat.isValidChar := fun c =>
    .inl (Nat.lt_trans c.toNat_lt (by decide))
  have hnat : (toChar a).toNat = (toChar b).toNat := congrArg Char.toNat h
  have hof : ∀ c : UInt8, (toChar c).toNat = c.toNat := by
    intro c
    rw [toChar, Char.ofNat, dif_pos (hvalid c)]
    rfl
  rw [hof, hof] at hnat
  exact UInt8.toNat_inj.mp hnat

theorem toName_injective : Function.Injective toName :=
  map_injective_iff.mpr toChar_injective

theorem toChar_separator : toChar separator = pathSeparator := by
  decide

theorem IsName.regular {w} (h : IsName w) : Regular (toName w) := by
  have hdot : TempFileSystem.dot = toName [46] := by decide
  have hdotDot : TempFileSystem.dotDot = toName [46, 46] := by decide
  refine ⟨?_, ?_, ?_⟩
  · intro hnil
    exact h.ne_nil (map_eq_nil_iff.mp hnil)
  · rw [hdot]
    exact fun heq => h.ne_dot (toName_injective heq)
  · rw [hdotDot]
    exact fun heq => h.ne_dotDot (toName_injective heq)

theorem IsName.no_pathSeparator {w} (h : IsName w) : pathSeparator ∉ toName w := by
  intro hmem
  obtain ⟨c, hc, heq⟩ := mem_map.mp hmem
  rw [← toChar_separator] at heq
  exact h.no_separator (toChar_injective heq ▸ hc)

variable {es : List Entry} {e f : Entry} {i j : ℕ}

theorem Entry.path_eq (h : e.path ≠ []) : e.path = e.parent ++ [e.name] := by
  rw [Entry.parent, Entry.name, getLastD_eq_getLast?, getLast?_eq_getLast_of_ne_nil h]
  exact (dropLast_append_getLast h).symm

theorem Entry.isName (h : e.path ≠ []) (hnames : ∀ w ∈ e.path, IsName w) : IsName e.name := by
  apply hnames
  rw [e.path_eq h]
  exact mem_append_right _ (mem_singleton_self _)

theorem Entry.names_eq (h : e.path ≠ []) : e.names = e.parent.map toName ++ [toName e.name] := by
  calc e.names = (e.parent ++ [e.name]).map toName := congrArg (List.map toName) (e.path_eq h)
    _ = e.parent.map toName ++ [toName e.name] := by rw [map_append, map_singleton]

theorem WellFormed.index_unique (h : WellFormed es) (hi : es[i]? = some e) (hj : es[j]? = some f)
    (hpath : e.path = f.path) : i = j := by
  have hlt : i < (es.map Entry.path).length := by
    rw [length_map]
    exact (List.getElem?_eq_some_iff.mp hi).1
  apply (getElem?_inj hlt h.unique).mp
  rw [getElem?_map, getElem?_map, hi, hj, Option.map_some, Option.map_some, hpath]

theorem getElem?_append_of_lt {rest} (h : es[i]? = some e) :
    (es ++ rest)[i]? = some e := by
  rw [List.getElem?_append_left (List.getElem?_eq_some_iff.mp h).1]
  exact h

theorem getElem?_append_last (h : (es ++ [e])[i]? = some f) :
    (i = es.length ∧ f = e) ∨ (i ≠ es.length ∧ es[i]? = some f) := by
  have hlt := (List.getElem?_eq_some_iff.mp h).1
  rw [length_append, length_singleton] at hlt
  by_cases hi : i = es.length
  · subst hi
    left
    simpa [eq_comm] using h
  · right
    rw [getElem?_append_left (by omega)] at h
    exact ⟨hi, h⟩

theorem WellFormed.front {rest} (h : WellFormed (es ++ rest)) : WellFormed es where
  path_ne_nil e he := h.path_ne_nil e (mem_append_left rest he)
  names e he := h.names e (mem_append_left rest he)
  short e he := h.short e (mem_append_left rest he)
  unique := by
    have hunique := h.unique
    rw [map_append] at hunique
    exact (List.nodup_append.mp hunique).1
  parents i e hi hparent := by
    have hlt := (List.getElem?_eq_some_iff.mp hi).1
    obtain ⟨j, f, hj, hf, hpath, hfolder⟩ := h.parents i e (getElem?_append_of_lt hi) hparent
    rw [getElem?_append_left (Nat.lt_trans hj hlt)] at hf
    exact ⟨j, f, hj, hf, hpath, hfolder⟩
  folders e he := h.folders e (mem_append_left rest he)

def childrenOf (es : List Entry) (path : List Bytes) : List ℕ :=
  (List.range es.length).filter fun j => es[j]?.any fun f => f.parent = path

theorem mem_childrenOf {path} :
    j ∈ childrenOf es path ↔ ∃ f, es[j]? = some f ∧ f.parent = path := by
  rw [childrenOf, mem_filter, mem_range]
  constructor
  · rintro ⟨hlt, hany⟩
    obtain ⟨f, hf⟩ : ∃ f, es[j]? = some f := ⟨_, getElem?_eq_getElem hlt⟩
    refine ⟨f, hf, ?_⟩
    simpa [hf] using hany
  · rintro ⟨f, hf, hpath⟩
    refine ⟨(List.getElem?_eq_some_iff.mp hf).1, ?_⟩
    simp [hf, hpath]

theorem childrenOf_append (path : List Bytes) :
    childrenOf (es ++ [e]) path =
      childrenOf es path ++ if e.parent = path then [es.length] else [] := by
  have hold : ((List.range es.length).filter fun j =>
      (es ++ [e])[j]?.any fun f => f.parent = path) = childrenOf es path := by
    apply filter_congr
    intro j hj
    rw [getElem?_append_left (mem_range.mp hj)]
  rw [childrenOf, length_append, length_singleton, range_succ, filter_append, hold]
  congr 1
  by_cases hpath : e.parent = path <;> simp [hpath]

theorem WellFormed.childrenOf_new (h : WellFormed (es ++ [e])) :
    childrenOf (es ++ [e]) e.path = [] := by
  have he : (es ++ [e])[es.length]? = some e := by simp
  have hne := h.path_ne_nil e (by simp)
  rw [List.eq_nil_iff_forall_not_mem]
  intro k hk
  obtain ⟨f, hf, hpath⟩ := mem_childrenOf.mp hk
  obtain ⟨j, g, hj, hg, hgpath, -⟩ := h.parents k f hf (hpath ▸ hne)
  have hjlen : j = es.length := h.index_unique hg he (hgpath.trans hpath)
  have hklen := (List.getElem?_eq_some_iff.mp hf).1
  rw [length_append, length_singleton] at hklen
  omega

theorem walk_append {t : TempFileSystem.Tree TempFSInode} {p q r ws vs} (hw : t.Walk p ws q)
    (hv : t.Walk q vs r) : t.Walk p (ws ++ vs) r := by
  induction hw with
  | done => exact hv
  | ignore h _ ih => exact .ignore h (ih hv)
  | up _ ih => exact .up (ih hv)
  | down h hy _ ih => exact .down h hy (ih hv)

variable {A : Type} {d : Disk A}

/-- The inode of an entry. -/
structure Shows (es : List Entry) (e : Entry) (node : TempFileSystem.Inode TempFSInode) :
    Prop where
  name : node.name = toName e.name
  type : node.type = e.kind.type
  privilege : node.privilegeLevel = e.privilege
  children : node.children = childrenOf es e.path

/-- The disk has the inodes of the entries, whatever their contents are. -/
structure Shape (d : Disk A) (es : List Entry) : Prop where
  next : d.next = es.length
  blockSize : d.blockSize = pageSize
  rootPrivilege : d.tree.rootPrivilege = ⟨0, 0, 0o755⟩
  rootInodes : d.tree.rootInodes = childrenOf es []
  entry : ∀ {i e}, es[i]? = some e → Shows es e (d.tree.inodes i)
  unused : ∀ i, es.length ≤ i →
    (d.tree.inodes i).type ≠ .symLink ∧ (d.tree.inodes i).children = []

theorem Entry.kind_type (e : Entry) : e.kind.type ≠ .symLink := by
  unfold Entry.kind
  split <;> decide

theorem Entry.kind_folder (h : e.isFolder) : e.kind = .folder :=
  if_pos h

theorem Entry.kind_file (h : e.isFolder = false) : e.kind = .file := by
  rw [Entry.kind, h]
  rfl

theorem Entry.kind_before (e : Entry) (n : ℕ) : e.kind.Before n := by
  unfold Entry.kind
  split <;> trivial

def ParentOf (es : List Entry) (e : Entry) : Option ℕ → Prop
  | none => e.parent = []
  | some j => ∃ f, es[j]? = some f ∧ f.path = e.parent ∧ f.isFolder = true

theorem parentOf_lt {j : ℕ} (h : ParentOf es e (some j)) : j < es.length := by
  obtain ⟨f, hf, -⟩ := h
  exact (List.getElem?_eq_some_iff.mp hf).1

theorem parentOf_iff (hwf : WellFormed (es ++ [e])) {p} (hp : ParentOf es e p)
    (hi : es[i]? = some f) : p = some i ↔ e.parent = f.path := by
  have hne := hwf.front.path_ne_nil f (mem_of_getElem? hi)
  cases p with
  | none =>
    have hroot : e.parent = [] := hp
    refine iff_of_false (Option.some_ne_none i).symm ?_
    rw [hroot]
    exact hne.symm
  | some j =>
    obtain ⟨g, hg, hpath, -⟩ := hp
    constructor
    · intro h
      cases h
      cases hg.symm.trans hi
      exact hpath.symm
    · intro h
      rw [hwf.front.index_unique hg hi (hpath.trans h)]

theorem WellFormed.parentOf (h : WellFormed (es ++ [e])) : ∃ p, ParentOf es e p := by
  by_cases hroot : e.parent = []
  · exact ⟨none, hroot⟩
  · obtain ⟨j, f, hj, hf, hpath, hfolder⟩ := h.parents es.length e (by simp) hroot
    rw [getElem?_append_left hj] at hf
    exact ⟨some j, f, hf, hpath, hfolder⟩

namespace Shape

theorem empty (pages : A) : Shape (Disk.empty pages) [] where
  next := rfl
  blockSize := rfl
  rootPrivilege := rfl
  rootInodes := rfl
  entry h := by simp at h
  unused i _ := ⟨Disk.emptyInodes_type i, rfl⟩

theorem type_ne (h : Shape d es) (x : ℕ) : (d.tree.inodes x).type ≠ .symLink := by
  by_cases hx : x < es.length
  · rw [(h.entry (getElem?_eq_getElem hx)).type]
    exact Entry.kind_type _
  · exact (h.unused x (not_lt.mp hx)).1

theorem resolve (h : Shape d es) (x : ℕ) : d.tree.resolve x = x :=
  TempFileSystem.Tree.resolve_of_ne_link _ (h.type_ne x)

theorem put (h : Shape d es) (a : ℕ) (c : TempFSInode) (pages : A) :
    Shape (d.put a c pages) es := by
  refine ⟨h.next, h.blockSize, h.rootPrivilege, h.rootInodes, ?_, ?_⟩
  · intro i e hi
    have he := h.entry hi
    by_cases ha : i = a
    · subst ha
      rw [Disk.put_inode]
      exact ⟨he.name, he.type, he.privilege, he.children⟩
    · rw [Disk.put_other ha]
      exact he
  · intro i hi
    rw [Disk.put_type, Disk.put_children]
    exact h.unused i hi

variable {p : Option ℕ}

section

variable (h : Shape d es)

include h

theorem inodes_new (hbefore : e.kind.Before d.next) :
    (d.insert (toName e.name) p e.kind e.privilege hbefore).tree.inodes es.length =
      d.newInode (toName e.name) p e.kind e.privilege :=
  if_pos h.next.symm

theorem inodes_old (hbefore : e.kind.Before d.next) (hi : i ≠ es.length) :
    (d.insert (toName e.name) p e.kind e.privilege hbefore).tree.inodes i = if p = some i then
        { d.tree.inodes i with children := (d.tree.inodes i).children ++ [es.length] }
      else d.tree.inodes i := by
  have hholder : d.holder p = p := by
    cases p with
    | none => rfl
    | some j => exact congrArg some (h.resolve j)
  have hne : i ≠ d.next := by
    rw [h.next]
    exact hi
  change d.inodesWith _ _ _ _ i = _
  rw [Disk.inodesWith, if_neg hne, hholder, h.next]

theorem insert (hwf : WellFormed (es ++ [e])) (hp : ParentOf es e p)
    (hbefore : e.kind.Before d.next) :
    Shape (d.insert (toName e.name) p e.kind e.privilege hbefore) (es ++ [e]) := by
  constructor
  · change d.next + 1 = _
    rw [h.next, length_append, length_singleton]
  · exact h.blockSize
  · exact h.rootPrivilege
  · change (if p = none then d.tree.rootInodes ++ [d.next] else d.tree.rootInodes) = _
    rw [h.rootInodes, h.next, childrenOf_append]
    cases p with
    | none =>
      have hroot : e.parent = [] := hp
      rw [if_pos rfl, if_pos hroot]
    | some j =>
      obtain ⟨f, hf, hpath, -⟩ := hp
      have hne := hwf.front.path_ne_nil f (mem_of_getElem? hf)
      rw [if_neg (Option.some_ne_none j), if_neg (hpath ▸ hne), append_nil]
  · intro i f hf
    rcases getElem?_append_last hf with ⟨rfl, rfl⟩ | ⟨hi, hf⟩
    · rw [h.inodes_new]
      refine ⟨rfl, rfl, rfl, ?_⟩
      rw [hwf.childrenOf_new]
      change f.kind.children = []
      unfold Entry.kind
      split <;> rfl
    · have hiff := parentOf_iff hwf hp hf
      have he := h.entry hf
      rw [h.inodes_old hbefore hi]
      split
      case isTrue hparent =>
        refine ⟨he.name, he.type, he.privilege, ?_⟩
        rw [childrenOf_append, if_pos (hiff.mp hparent), he.children]
      case isFalse hparent =>
        refine ⟨he.name, he.type, he.privilege, ?_⟩
        rw [childrenOf_append, if_neg (fun heq => hparent (hiff.mpr heq)), append_nil, he.children]
  · intro i hi
    rw [length_append, length_singleton] at hi
    have hne : i ≠ es.length := by omega
    have hnot : p ≠ some i := by
      rintro rfl
      have := parentOf_lt hp
      omega
    rw [h.inodes_old hbefore hne, if_neg hnot]
    exact h.unused i (by omega)

theorem entries_root : d.tree.entries none = childrenOf es [] :=
  h.rootInodes

theorem entries_some (hi : es[i]? = some e) (hfolder : e.isFolder) :
    d.tree.entries (some i) = childrenOf es e.path := by
  rw [TempFileSystem.Tree.entries, h.resolve, (h.entry hi).type, e.kind_folder hfolder,
    (h.entry hi).children]
  rfl

theorem entries_file (hi : es[i]? = some e) (hfile : e.isFolder = false) :
    d.tree.entries (some i) = [] := by
  rw [TempFileSystem.Tree.entries, h.resolve, (h.entry hi).type, e.kind_file hfile]
  rfl

theorem names_nodup (hwf : WellFormed es) (path : List Bytes) :
    ((childrenOf es path).map fun y => (d.tree.inodes y).name).Nodup := by
  apply List.Nodup.map_on
  · intro x hx y hy hname
    obtain ⟨f, hf, hfpath⟩ := mem_childrenOf.mp hx
    obtain ⟨g, hg, hgpath⟩ := mem_childrenOf.mp hy
    rw [(h.entry hf).name, (h.entry hg).name] at hname
    apply hwf.index_unique hf hg
    rw [f.path_eq (hwf.path_ne_nil f (mem_of_getElem? hf)),
      g.path_eq (hwf.path_ne_nil g (mem_of_getElem? hg)), hfpath, hgpath, toName_injective hname]
  · exact List.Nodup.filter _ nodup_range

theorem uniqueNames (hwf : WellFormed es) : d.tree.UniqueNames := by
  intro p
  cases p with
  | none =>
    rw [h.entries_root]
    exact h.names_nodup hwf []
  | some x =>
    by_cases hx : x < es.length
    · have hget : es[x]? = some es[x] := getElem?_eq_getElem hx
      cases hfolder : es[x].isFolder with
      | true =>
        rw [h.entries_some hget hfolder]
        exact h.names_nodup hwf _
      | false =>
        rw [h.entries_file hget hfolder]
        exact nodup_nil
    · rw [TempFileSystem.Tree.entries, h.resolve, (h.unused x (not_lt.mp hx)).2, ite_self]
      exact nodup_nil

theorem walk (hwf : WellFormed es) :
    ∀ (i : ℕ) (e : Entry), es[i]? = some e → d.tree.Walk none e.names (some i) := by
  intro i
  induction i using Nat.strong_induction_on with
  | _ i ih =>
    intro e hi
    have hmem := mem_of_getElem? hi
    have hne := hwf.path_ne_nil e hmem
    have hname := e.isName hne (hwf.names e hmem)
    have hlast : ∀ p, i ∈ d.tree.entries p → d.tree.Walk p [toName e.name] (some i) :=
      fun p hp => .down hname.regular ⟨hp, (h.entry hi).name⟩ (.done _)
    rw [e.names_eq hne]
    by_cases hroot : e.parent = []
    · rw [hroot]
      apply hlast none
      rw [h.entries_root]
      exact mem_childrenOf.mpr ⟨e, hi, hroot⟩
    obtain ⟨j, f, hj, hf, hpath, hfolder⟩ := hwf.parents i e hi hroot
    have hwalk := ih j hj f hf
    rw [Entry.names, hpath] at hwalk
    apply walk_append hwalk
    apply hlast (some j)
    rw [h.entries_some hf hfolder]
    exact mem_childrenOf.mpr ⟨e, hi, hpath.symm⟩

theorem lookup (hwf : WellFormed es) (hi : es[i]? = some e) :
    d.table.getMountPoint (Disk.joined e.names) none = some ⟨some 0, some i, 0⟩ := by
  have hmem := mem_of_getElem? hi
  have hne : e.names ≠ [] := by
    intro hnil
    exact hwf.path_ne_nil e hmem (map_eq_nil_iff.mp hnil)
  apply Disk.getMountPoint_joined (h.uniqueNames hwf) hne
  · intro w hw
    obtain ⟨b, hb, rfl⟩ := mem_map.mp hw
    exact (hwf.names e hmem b hb).regular
  · intro w hw
    obtain ⟨b, hb, rfl⟩ := mem_map.mp hw
    exact (hwf.names e hmem b hb).no_pathSeparator
  · exact h.walk hwf i e hi

end

end Shape

/-- The inode is reached from the root by the names of the inodes on the way. -/
inductive HasPath (t : TempFileSystem.Tree TempFSInode) : List Name → ℕ → Prop where
  | root {x : ℕ} (hx : x ∈ t.rootInodes) : HasPath t [(t.inodes x).name] x
  | child {ws : List Name} {x y : ℕ} (hx : HasPath t ws x) (hy : y ∈ t.entries (some x)) :
      HasPath t (ws ++ [(t.inodes y).name]) y

def storedBytes (node : TempFSInode) : Bytes :=
  (node.data.flatMap MemBlock.bytes).take node.size

def Stores (c : TempFSInode) (e : Entry) : Prop :=
  e.isFolder = false → c.size = e.data.length ∧ storedBytes c = e.data

/-- The tree has exactly the paths of the archive, one inode for each, and every inode is
what its entry says. -/
structure Loaded (t : TempFileSystem.Tree TempFSInode) (es : List Entry) : Prop where
  paths : ∀ ws, (∃ x, HasPath t ws x) ↔ ∃ e ∈ es, e.names = ws
  single : ∀ ws x y, HasPath t ws x → HasPath t ws y → x = y
  entry : ∀ e ∈ es, ∀ x, HasPath t e.names x →
    (t.inodes x).type = e.kind.type ∧ (t.inodes x).privilegeLevel = e.privilege ∧
      Stores (t.inodes x).contents e

theorem Shape.hasPath_iff (h : Shape d es) (hwf : WellFormed es) {ws} {x : ℕ} :
    HasPath d.tree ws x ↔ ∃ e, es[x]? = some e ∧ e.names = ws := by
  constructor
  · intro hpath
    have hend : ∀ (path : List Bytes) {y : ℕ}, y ∈ childrenOf es path →
        ∃ e, es[y]? = some e ∧ e.names = path.map toName ++ [(d.tree.inodes y).name] := by
      intro path y hy
      obtain ⟨e, he, hparent⟩ := mem_childrenOf.mp hy
      refine ⟨e, he, ?_⟩
      rw [e.names_eq (hwf.path_ne_nil e (mem_of_getElem? he)), hparent, (h.entry he).name]
    induction hpath with
    | root hx =>
      rw [h.rootInodes] at hx
      exact hend [] hx
    | child _ hy ih =>
      obtain ⟨f, hf, rfl⟩ := ih
      cases hfolder : f.isFolder with
      | true =>
        rw [h.entries_some hf hfolder] at hy
        exact hend f.path hy
      | false =>
        rw [h.entries_file hf hfolder] at hy
        exact absurd hy not_mem_nil
  · rintro ⟨e, he, rfl⟩
    induction x using Nat.strong_induction_on generalizing e with
    | _ x ih =>
      have hne := hwf.path_ne_nil e (mem_of_getElem? he)
      rw [e.names_eq hne, ← (h.entry he).name]
      by_cases hroot : e.parent = []
      · rw [hroot]
        apply HasPath.root
        rw [h.rootInodes]
        exact mem_childrenOf.mpr ⟨e, he, hroot⟩
      obtain ⟨j, f, hj, hf, hpath, hfolder⟩ := hwf.parents x e he hroot
      rw [← hpath]
      apply HasPath.child (ih j hj f hf)
      rw [h.entries_some hf hfolder]
      exact mem_childrenOf.mpr ⟨e, he, hpath.symm⟩

theorem Shape.loaded (h : Shape d es) (hwf : WellFormed es)
    (hstores : ∀ i e, es[i]? = some e → Stores (d.tree.inodes i).contents e) :
    Loaded d.tree es where
  paths ws := by
    constructor
    · rintro ⟨x, hx⟩
      obtain ⟨e, he, hnames⟩ := (h.hasPath_iff hwf).mp hx
      exact ⟨e, mem_of_getElem? he, hnames⟩
    · rintro ⟨e, he, hnames⟩
      obtain ⟨x, hx⟩ := mem_iff_getElem?.mp he
      exact ⟨x, (h.hasPath_iff hwf).mpr ⟨e, hx, hnames⟩⟩
  single ws x y hx hy := by
    obtain ⟨e, he, rfl⟩ := (h.hasPath_iff hwf).mp hx
    obtain ⟨f, hf, hnames⟩ := (h.hasPath_iff hwf).mp hy
    apply hwf.index_unique he hf
    exact (map_injective_iff.mpr toName_injective hnames).symm
  entry e he x hx := by
    obtain ⟨f, hf, hnames⟩ := (h.hasPath_iff hwf).mp hx
    obtain ⟨y, hy⟩ := mem_iff_getElem?.mp he
    have hpath : f.path = e.path := map_injective_iff.mpr toName_injective hnames
    obtain rfl := hwf.index_unique hf hy hpath
    obtain rfl := Option.some.inj (hf.symm.trans hy)
    exact ⟨(h.entry hf).type, (h.entry hf).privilege, hstores x f hf⟩

end InitRAMFS
