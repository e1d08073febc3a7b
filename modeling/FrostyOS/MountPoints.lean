import FrostyOS.PathResolution

/-! # Path resolution across mounts

`VFS::GetMountPoint` looks a path up in one file system after another. Mounts are numbered
by their position in the mount list, the root mount first. -/
namespace VFS

open Errno TempFileSystem TempFileSystem.Tree

structure MountPoint (β : Type*) where
  fs : TempFileSystem.Tree β
  rootInode : Option ℕ

/-- The mount list. Inodes of different file systems are different objects, and the folder
a file system is mounted on belongs to a mount that was there before. -/
structure MountTable (β : Type*) where
  root : MountPoint β
  others : List (MountPoint β)
  home : ℕ → ℕ
  root_rootInode : root.rootInode = none
  home_entries : ∀ i ≤ others.length, ∀ p y, (∀ x, p = some x → home x = i) →
    y ∈ ((root :: others).getD i root).fs.entries p → home y = i
  home_rootInode : ∀ i x, ((root :: others).getD i root).rootInode = some x → home x < i

open MountTable

variable {β : Type*} (vfs : MountTable β)

def MountTable.mountPoints : List (MountPoint β) := vfs.root :: vfs.others

def MountTable.mountPoint (i : ℕ) : MountPoint β := vfs.mountPoints.getD i vfs.root

def MountTable.fs (i : ℕ) : TempFileSystem.Tree β := (vfs.mountPoint i).fs

structure WorkingDirectory where
  mountPoint : ℕ
  inode : Option ℕ
  deriving DecidableEq, Repr

structure Resolution where
  mountPoint : Option ℕ
  inode : Option ℕ
  status : ℤ
  deriving DecidableEq, Repr

def failed (status : ℤ) : Resolution := ⟨none, none, status⟩

namespace MountTable

/-- The search of the mount list for a root inode. -/
def mountedOn (inode : Option ℕ) : Option ℕ :=
  vfs.mountPoints.findIdx? fun m => m.rootInode = inode

/-- What follows a lookup in `mountPoint`: a result, or the mount, the inode and the index
for the next lookup. `previous` is the inode on which `mountPoint` was entered. -/
def next (mountPoint : ℕ) (previous : Option ℕ) (found : SubInode) :
    Except Resolution (ℕ × Option ℕ × ℤ) :=
  if found.inode = found.lastInode ∧ found.inode ≠ none then
    .error ⟨some mountPoint, found.inode, 0⟩
  else if found.inode = none ∧ found.lastInode = none ∧ found.status.getD 0 ≠ 0 then
    .error (failed (found.status.getD 0))
  else
    let lastInode :=
      if found.inode = none ∧ found.lastInode = none then previous else found.lastInode
    match vfs.mountedOn lastInode with
    | none => .error (failed (-einval))
    | some m =>
      if m = mountPoint then .error (failed (-einval)) else .ok (m, lastInode, found.endIndex)

/-- The loop over the mounts. The index that the last lookup gave is taken as an index of
the whole path; one before its start is no part of the path. -/
def walkMounts (path : Name) : ℕ → ℕ → Option ℕ → ℤ → Option Resolution
  | 0, _, _, _ => none
  | fuel + 1, mountPoint, lastInode, splitIndex =>
    if splitIndex < 0 then none
    else
      match vfs.next mountPoint lastInode
        ((vfs.fs mountPoint).getInode (path.drop splitIndex.toNat)) with
      | .error result => some result
      | .ok (m, inode, index) => walkMounts path fuel m inode index

def walkAll (path : Name) (mountPoint : ℕ) (lastInode : Option ℕ) (splitIndex : ℤ) :
    Option Resolution :=
  vfs.walkMounts path (vfs.mountPoints.length + 1) mountPoint lastInode splitIndex

/-- The start of a path that is not absolute; the parent of a working directory that has
none is not implemented. -/
def fromWorkingDirectory (path : Name) (mountPoint : ℕ) (start : Option ℕ) : Option Resolution :=
  if path = dot then some ⟨some mountPoint, start, 0⟩
  else if path = dotDot then
    match start with
    | none => some (failed (-einval))
    | some x =>
      match (vfs.fs mountPoint).getParent x with
      | none => none
      | some y => some ⟨some mountPoint, some y, 0⟩
  else
    let found := (vfs.fs mountPoint).getSubInode start path
    if found.inode = found.lastInode ∧ found.inode ≠ none ∧ found.inode ≠ start then
      some ⟨some mountPoint, found.inode, 0⟩
    else if found.inode = none ∧ found.lastInode = none ∧ found.status.getD 0 ≠ 0 then
      some (failed (found.status.getD 0))
    else
      let lastInode :=
        if found.inode = none ∧ found.lastInode = none then start else found.lastInode
      match vfs.mountedOn lastInode with
      | none => some (failed (-einval))
      | some m =>
        if m = mountPoint then some (failed (-einval))
        else vfs.walkAll path m lastInode found.endIndex

def getMountPoint (path : Name) (workingDirectory : Option WorkingDirectory) : Option Resolution :=
  if path = [pathSeparator] then some ⟨some 0, none, 0⟩
  else if path.head? ≠ some pathSeparator then
    match workingDirectory with
    | none => vfs.fromWorkingDirectory path 0 none
    | some wd => vfs.fromWorkingDirectory path wd.mountPoint wd.inode
  else vfs.walkAll path 0 none 0

/-- A step first leaves an inode on which a file system is mounted for that one's root. -/
def enter (i : ℕ) : Option ℕ → ℕ × Option ℕ
  | none => (i, none)
  | some x =>
    match vfs.mountedOn (some x) with
    | none => (i, some x)
    | some j => (j, none)

inductive Walk : ℕ × Option ℕ → List Name → ℕ × Option ℕ → Prop where
  | done (at_ : ℕ × Option ℕ) : Walk at_ [] at_
  | ignore {p q : ℕ × Option ℕ} {name : Name} {rest : List Name} (h : name = [] ∨ name = dot)
      (hw : Walk p rest q) : Walk p (name :: rest) q
  | down {i j : ℕ} {p p' : Option ℕ} {q : ℕ × Option ℕ} {name : Name} {y : ℕ}
      {rest : List Name} (h : Regular name) (he : vfs.enter i p = (j, p'))
      (hy : (vfs.fs j).IsChild p' name y) (hw : Walk (j, some y) rest q) :
      Walk (i, p) (name :: rest) q

/-- A mount and an inode are the result exactly when the walk ends there. -/
def FollowsPath (path : Name) : Prop :=
  ∃ result, vfs.getMountPoint path none = some result ∧
    ∀ i p, (result.mountPoint = some i ∧ result.inode = p) ↔ vfs.Walk (0, none) (pieces path) (i, p)

/-- Before a step to the name at the head of `cs`: where the walk goes on, and the index of
the separator in front of `cs` in what is read there. The covered folder does not have the
name, and what is read in the mounted file system before `cs` again is unknown there. -/
inductive Enters (path : Name) :
    Name → List Name → ℕ → Option ℕ → ℤ → ℕ → Option ℕ → ℤ → Prop where
  | stay {w : Name} {ws : List Name} {i : ℕ} {p : Option ℕ} {s : ℤ}
      (h : ∀ x, p = some x → vfs.mountedOn (some x) = none) :
      Enters path w ws i p s i p s
  | cross {w : Name} {ws : List Name} {i j x : ℕ} {s : ℤ} (us : List Name)
      (hj : vfs.mountedOn (some x) = some j)
      (hcover : ∀ y, ¬ (vfs.fs i).IsChild (some x) w y)
      (hread : pieces (path.drop s.toNat) = us ++ w :: ws) (hskip : (vfs.fs j).Skippable us) :
      Enters path w ws i (some x) s j none (-1 + width us)

/-- Along the walk every inner name that is looked up at a root is there, every mount is
entered as `Enters` says, and the last piece is no `.` and names the root of nothing. -/
def Straight (path : Name) : List Name → ℕ → Option ℕ → ℤ → Prop
  | [], _, _, _ => True
  | [w], i, p, s => w ≠ dot ∧ (w = [] → p ≠ none) ∧
      (Regular w → ∃ j q t, vfs.Enters path w [] i p s j q t)
  | w :: v :: ws, i, p, s =>
      (w = [] ∨ w = dot → Straight path (v :: ws) i p (s + 1 + w.length)) ∧
      (Regular w → ∃ j q t, vfs.Enters path w (v :: ws) i p s j q t ∧
        (q = none → ∃ y, (vfs.fs j).IsChild none w y) ∧ ∀ y, (vfs.fs j).IsChild q w y →
          Straight path (v :: ws) j (some y) (t + 1 + w.length))

def resume (path : Name) (fuel mountPoint : ℕ) (previous : Option ℕ)
    (found : SubInode) : Option Resolution :=
  match vfs.next mountPoint previous found with
  | .error result => some result
  | .ok (m, inode, index) => vfs.walkMounts path fuel m inode index

def Gives (r : Option Resolution) (start : ℕ × Option ℕ) (cs : List Name) : Prop :=
  ∃ result, r = some result ∧
    ∀ i p, (result.mountPoint = some i ∧ result.inode = p) ↔ vfs.Walk start cs (i, p)

end MountTable

variable {vfs}

variable {path w : Name} {s t : ℤ} {p previous q : Option ℕ} {cs ws : List Name}
  {start : ℕ × Option ℕ} {fuel i j x : ℕ}

namespace MountTable

theorem walkMounts_succ (path : Name) (fuel i : ℕ) (previous : Option ℕ) (hs : 0 ≤ s) :
    vfs.walkMounts path (fuel + 1) i previous s = vfs.resume path fuel i previous
        ((vfs.fs i).scanPieces (pieces (path.drop s.toNat)) (-1) none) := by
  rw [walkMounts, if_neg (by omega), resume, ← getSubInode_eq]
  rfl

theorem walk_nil {p q} : vfs.Walk p [] q ↔ q = p := by
  constructor
  · rintro ⟨⟩
    rfl
  · rintro rfl
    exact .done _

theorem walk_ignore {p q} (h : w = [] ∨ w = dot) :
    vfs.Walk p (w :: ws) q ↔ vfs.Walk p ws q := by
  constructor
  · intro hw
    cases hw with
    | ignore _ hw => exact hw
    | down hr => rcases h with h | h <;> exact absurd h (by first | exact hr.1 | exact hr.2.1)
  · intro hw
    exact .ignore h hw

theorem walk_down {p' q} (hr : Regular w) (he : vfs.enter i p = (j, p')) :
    vfs.Walk (i, p) (w :: ws) q ↔
      ∃ y, (vfs.fs j).IsChild p' w y ∧ vfs.Walk (j, some y) ws q := by
  constructor
  · intro hw
    cases hw with
    | ignore h => rcases h with rfl | rfl <;> simp [Regular] at hr
    | down _ he' hy hw =>
      rw [he, Prod.mk.injEq] at he'
      obtain ⟨rfl, rfl⟩ := he'
      exact ⟨_, hy, hw⟩
  · rintro ⟨y, hy, hw⟩
    exact .down hr he hy hw

theorem enters_enter (h : vfs.Enters path w ws i p s j q t) : vfs.enter i p = (j, q) := by
  cases h with
  | stay h =>
    cases p with
    | none => rfl
    | some x => simp only [enter, h x rfl]
  | cross _ hj => simp only [enter, hj]

theorem mountedOn_spec (h : vfs.mountedOn (some x) = some j) :
    j < vfs.mountPoints.length ∧ vfs.home x < j := by
  rw [mountedOn, List.findIdx?_eq_some_iff_getElem] at h
  obtain ⟨hlt, hroot, -⟩ := h
  refine ⟨hlt, vfs.home_rootInode j x ?_⟩
  have hget : vfs.mountPoints.getD j vfs.root = vfs.mountPoints[j] := by
    rw [List.getD_eq_getElem?_getD, List.getElem?_eq_getElem hlt]
    rfl
  change (vfs.mountPoints.getD j vfs.root).rootInode = some x
  rw [hget]
  simpa using hroot

/-- What holds in front of every piece: the position belongs to the mount, the index is not
before the path once a name was found, and enough lookups are left. -/
structure Standing (vfs : MountTable β) (fuel i : ℕ) (p : Option ℕ) (s : ℤ) :
    Prop where
  lt : i < vfs.mountPoints.length
  fuel_le : vfs.mountPoints.length ≤ fuel + i + 1
  home : ∀ x, p = some x → vfs.home x = i
  index : ∀ x, p = some x → 0 ≤ s
  start : -1 ≤ s

theorem Standing.forward (h : vfs.Standing fuel i p s) (ht : 0 ≤ t)
    (hq : ∀ x, q = some x → vfs.home x = i) : vfs.Standing fuel i q t :=
  ⟨h.lt, h.fuel_le, hq, fun _ _ => ht, by omega⟩

theorem Standing.index_next {n : ℕ} (h : vfs.Standing fuel i p s) : 0 ≤ s + 1 + n := by
  have := h.start
  omega

theorem Standing.child {y : ℕ} (h : vfs.Standing fuel i p s)
    (hy : (vfs.fs i).IsChild p w y) : vfs.home y = i :=
  vfs.home_entries i (Nat.lt_succ_iff.1 h.lt) p y h.home hy.1

theorem resume_enters (hu : ∀ i, (vfs.fs i).UniqueNames) (hr : Regular w)
    (hst : vfs.Standing fuel i p s) (h : vfs.Enters path w ws i p s j q t) (previous : Option ℕ) :
    ∃ fuel' previous', vfs.Standing fuel' j q t ∧ (∀ x, q = some x → vfs.mountedOn q = none) ∧
      vfs.resume path fuel i previous ((vfs.fs i).scanPieces (w :: ws) s p) =
        vfs.resume path fuel' j previous' ((vfs.fs j).scanPieces (w :: ws) t q) := by
  cases h with
  | stay h =>
    refine ⟨fuel, previous, hst, ?_, rfl⟩
    rintro x rfl
    exact h x rfl
  | cross us hj hcover hread hskip =>
    rename_i x
    obtain ⟨status, hstop⟩ := scanPieces_stop (hu i) ws hr s hcover
    have hlater := mountedOn_spec hj
    have hhome := hst.home x rfl
    have hle := hst.fuel_le
    have hne : j ≠ i := by omega
    obtain ⟨f, rfl⟩ : ∃ f, fuel = f + 1 := ⟨fuel - 1, by omega⟩
    refine ⟨f, some x, ⟨hlater.1, by omega, by simp, by simp, by omega⟩, by simp, ?_⟩
    have hnext : vfs.next i previous ⟨none, some x, s, some status⟩ = .ok (j, some x, s) := by
      simp [next, hj, hne]
    rw [hstop, resume, hnext]
    dsimp only
    rw [walkMounts_succ path f j _ (hst.index x rfl), hread, scanPieces_skip (hu j) hskip]

theorem gives_missing (hu : ∀ i, (vfs.fs i).UniqueNames) (hr : Regular w)
    (hno : vfs.mountedOn (some x) = none) (hmiss : ∀ y, ¬ (vfs.fs i).IsChild (some x) w y) :
    vfs.resume path fuel i previous ((vfs.fs i).scanPieces (w :: ws) s (some x)) =
      some (failed (-einval)) := by
  obtain ⟨status, hstop⟩ := scanPieces_stop (hu i) ws hr s hmiss
  rw [hstop]
  simp [resume, next, hno]

theorem gives_failed {status} (h : ∀ q, ¬ vfs.Walk start cs q) :
    vfs.Gives (some (failed status)) start cs := by
  refine ⟨_, rfl, fun i p => iff_of_false ?_ (h (i, p))⟩
  rintro ⟨⟨⟩, -⟩

theorem gives_found (h : ∀ q, vfs.Walk start cs q ↔ q = (i, some x)) :
    vfs.Gives (some ⟨some i, some x, 0⟩) start cs := by
  refine ⟨_, rfl, fun j p => ?_⟩
  rw [h, Prod.mk.injEq, Option.some.injEq, eq_comm (a := i), eq_comm (a := some x)]

theorem resume_finish (path : Name) (fuel i x : ℕ) (previous : Option ℕ) (e : ℤ) :
    vfs.resume path fuel i previous (finish (some x) e) = some ⟨some i, some x, 0⟩ := by
  simp [resume, next, finish]

theorem resume_finish_root (path : Name) (fuel i : ℕ) (previous : Option ℕ) (e : ℤ) :
    vfs.resume path fuel i previous (finish none e) = some (failed (-enoent)) := by
  simp [resume, next, finish, enoent]

theorem enter_of_unmounted (hno : ∀ x, p = some x → vfs.mountedOn p = none) :
    vfs.enter i p = (i, p) := by
  cases p with
  | none => rfl
  | some x => simp only [enter, hno x rfl]

theorem gives_last (hu : ∀ i, (vfs.fs i).UniqueNames) (hr : Regular w)
    (hno : ∀ x, p = some x → vfs.mountedOn p = none) :
    vfs.Gives (vfs.resume path fuel i previous ((vfs.fs i).scanPieces [w] s p)) (i, p) [w] := by
  have he : vfs.enter i p = (i, p) := enter_of_unmounted hno
  have hwalk : ∀ q, vfs.Walk (i, p) [w] q ↔
      ∃ y, (vfs.fs i).IsChild p w y ∧ q = (i, some y) := by
    intro q
    simp only [walk_down hr he, walk_nil]
  by_cases hfound : ∃ y, (vfs.fs i).IsChild p w y
  · obtain ⟨y, hy⟩ := hfound
    have hscan : (vfs.fs i).scanPieces [w] s p = finish (some y) (s + 1 + w.length) := by
      have hnamed := (named_eq_some (hu i)).2 hy
      rw [scanPieces, if_neg hr.1]
      cases p with
      | none => exact congrArg (finish · _) hnamed
      | some x =>
        rcases (vfs.fs i).getTMPFSChild_spec x w with ⟨status, -, hnone⟩ | ⟨z, hget, hz⟩
        · simp [hnamed] at hnone
        · rw [hnamed, Option.some.injEq] at hz
          simp only [lastComponent, hget, hz]
    rw [hscan, resume_finish]
    refine gives_found fun q => ?_
    rw [hwalk]
    constructor
    · rintro ⟨z, hz, rfl⟩
      rw [isChild_unique (hu i) hy hz]
    · rintro rfl
      exact ⟨y, hy, rfl⟩
  · rw [not_exists] at hfound
    have hnone : ∀ q, ¬ vfs.Walk (i, p) [w] q := by
      intro q hq
      obtain ⟨y, hy, -⟩ := (hwalk q).1 hq
      exact hfound y hy
    cases p with
    | none =>
      have hnamed : (vfs.fs i).named (vfs.fs i).rootInodes w = none :=
        (named_eq_none (hu i) (p := none)).2 hfound
      have hscan : (vfs.fs i).scanPieces [w] s none = finish none (s + 1 + w.length) := by
        rw [scanPieces, if_neg hr.1, lastComponent, hnamed]
      rw [hscan, resume_finish_root]
      exact gives_failed hnone
    | some x =>
      rw [gives_missing hu hr (hno x rfl) hfound]
      exact gives_failed hnone

/-- The induction is over the pieces that are left; a mount that is entered leaves them. -/
theorem gives_of_straight (hu : ∀ i, (vfs.fs i).UniqueNames) (path : Name)
    (cs : List Name) (hcs : cs ≠ []) (hup : dotDot ∉ cs) (fuel i : ℕ) (p : Option ℕ) (s : ℤ)
    (previous : Option ℕ) (hst : vfs.Standing fuel i p s) (h : vfs.Straight path cs i p s) :
    vfs.Gives (vfs.resume path fuel i previous ((vfs.fs i).scanPieces cs s p)) (i, p) cs := by
  induction cs generalizing fuel i p s previous with
  | nil => exact absurd rfl hcs
  | cons w cs ih =>
    cases cs with
    | nil =>
      obtain ⟨hdot, hnil, hregular⟩ := h
      rcases piece_cases w with (rfl | rfl) | rfl | hr
      · obtain ⟨x, rfl⟩ := Option.ne_none_iff_exists'.1 (hnil rfl)
        rw [scanPieces, if_pos rfl, resume_finish]
        refine gives_found fun q => ?_
        rw [walk_ignore (.inl rfl), walk_nil]
      · exact absurd rfl hdot
      · exact absurd List.mem_cons_self hup
      · obtain ⟨j, q, t, henters⟩ := hregular hr
        obtain ⟨fuel', previous', hst', hno, heq⟩ := resume_enters hu hr hst henters previous
        rw [heq]
        obtain ⟨r, hresult, hall⟩ := gives_last (s := t) hu hr hno
        refine ⟨r, hresult, fun k x => ?_⟩
        rw [hall, walk_down hr (enter_of_unmounted hno), walk_down hr (enters_enter henters)]
    | cons v ws =>
      rw [List.mem_cons, not_or] at hup
      rcases piece_cases w with hw | rfl | hr
      · rw [scanPieces_ignore hw]
        obtain ⟨r, hr, hall⟩ := ih (by simp) hup.2 fuel i p _ previous
          (hst.forward hst.index_next hst.home) (h.1 hw)
        refine ⟨r, hr, fun j q => ?_⟩
        rw [walk_ignore hw]
        exact hall j q
      · exact absurd rfl hup.1
      · obtain ⟨j, q, t, henters, hknown, hrest⟩ := h.2 hr
        obtain ⟨fuel', previous', hst', hno, heq⟩ := resume_enters hu hr hst henters previous
        have hwalk : ∀ r, vfs.Walk (i, p) (w :: v :: ws) r ↔
            ∃ y, (vfs.fs j).IsChild q w y ∧ vfs.Walk (j, some y) (v :: ws) r :=
          fun r => walk_down hr (enters_enter henters)
        rw [heq]
        by_cases hfound : ∃ y, (vfs.fs j).IsChild q w y
        · obtain ⟨y, hy⟩ := hfound
          rw [scanPieces_down (hu j) hr t hy]
          obtain ⟨r, hresult, hall⟩ := ih (by simp) hup.2 fuel' j (some y) _ previous'
            (hst'.forward hst'.index_next (by rintro x ⟨⟩; exact hst'.child hy)) (hrest y hy)
          refine ⟨r, hresult, fun k x => ?_⟩
          rw [hall, hwalk]
          constructor
          · intro hw
            exact ⟨y, hy, hw⟩
          · rintro ⟨z, hz, hw⟩
            exact isChild_unique (hu j) hy hz ▸ hw
        · cases q with
          | none => exact absurd (hknown rfl) hfound
          | some x =>
            rw [not_exists] at hfound
            rw [gives_missing hu hr (hno x rfl) hfound]
            refine gives_failed fun r hr => ?_
            obtain ⟨y, hy, -⟩ := (hwalk r).1 hr
            exact hfound y hy

/-- On an absolute path without `..` on which no defect shows, the result is the mount and
the inode of the walk, or nothing if the walk fails. -/
theorem followsPath_of_straight (hu : ∀ i, (vfs.fs i).UniqueNames) (path : Name)
    (habs : path.head? = some pathSeparator) (hup : dotDot ∉ pieces path)
    (h : path = [pathSeparator] ∨ vfs.Straight path (pieces path) 0 none (-1)) :
    vfs.FollowsPath path := by
  by_cases hroot : path = [pathSeparator]
  · subst hroot
    refine ⟨⟨some 0, none, 0⟩, by simp [getMountPoint], fun i p => ?_⟩
    have hp : pieces [pathSeparator] = [[], []] := by decide
    rw [hp, walk_ignore (.inl rfl), walk_ignore (.inl rfl),
      walk_nil, Prod.mk.injEq, Option.some.injEq, eq_comm (a := 0), eq_comm (b := p)]
  · have hget : vfs.getMountPoint path none = vfs.resume path vfs.mountPoints.length 0 none
          ((vfs.fs 0).scanPieces (pieces path) (-1) none) := by
      rw [getMountPoint, if_neg hroot, if_neg (by simp [habs]), walkAll,
        walkMounts_succ path _ 0 none (Int.le_refl 0)]
      rfl
    rw [FollowsPath, hget]
    have hst : vfs.Standing vfs.mountPoints.length 0 none (-1) :=
      ⟨by simp [mountPoints], by omega, by simp, by simp, Int.le_refl _⟩
    exact gives_of_straight hu path (pieces path) (List.splitOn_ne_nil _ _) hup _ 0
      none (-1) none hst (h.resolve_left hroot)

end MountTable

def sampleInodes : ℕ → Inode Unit
  | 0 => ⟨['a', 'a'], .folder, none, [], ⟨0, 0, 0⟩, ()⟩
  | 2 => ⟨['c'], .file, none, [], ⟨0, 0, 0⟩, ()⟩
  | _ => ⟨['b'], .folder, none, [], ⟨0, 0, 0⟩, ()⟩

theorem sampleInodes_plain (a : ℕ) :
    (sampleInodes a).type ≠ .symLink ∧ (sampleInodes a).children = [] := by
  unfold sampleInodes
  split <;> exact ⟨by decide, rfl⟩

def sampleFs (rootInodes : List ℕ) : TempFileSystem.Tree Unit where
  inodes := sampleInodes
  rootInodes := rootInodes
  rootPrivilege := ⟨0, 0, 0⟩
  linkDepth := fun _ => 0
  link_lt := fun a h => absurd h (sampleInodes_plain a).1

theorem sampleFs_entries (rootInodes : List ℕ) (x : ℕ) :
    (sampleFs rootInodes).entries (some x) = [] := by
  simp only [entries, sampleFs, (sampleInodes_plain _).2, ite_self]

def sampleMounts : List (MountPoint Unit) := [⟨sampleFs [1], some 0⟩, ⟨sampleFs [2, 3], some 1⟩]

def sampleHome : ℕ → ℕ
  | 0 => 0
  | 1 => 1
  | _ => 2

theorem sample_home_entries : ∀ i ≤ sampleMounts.length, ∀ p y,
    (∀ x, p = some x → sampleHome x = i) →
    y ∈ ((⟨sampleFs [0], none⟩ :: sampleMounts).getD i ⟨sampleFs [0], none⟩).fs.entries p →
    sampleHome y = i := by
  intro i hi p y _ hy
  cases p with
  | some x =>
    have hnone : ((⟨sampleFs [0], none⟩ :: sampleMounts).getD i
        ⟨sampleFs [0], none⟩).fs.entries (some x) = [] := by
      rcases i with _ | _ | _ | i <;> exact sampleFs_entries _ x
    rw [hnone] at hy
    exact absurd hy List.not_mem_nil
  | none =>
    have hi' : i = 0 ∨ i = 1 ∨ i = 2 := by
      have : sampleMounts.length = 2 := rfl
      omega
    rcases hi' with rfl | rfl | rfl <;>
      simp [sampleMounts, sampleFs, entries] at hy
    · subst hy; rfl
    · subst hy; rfl
    · rcases hy with rfl | rfl <;> rfl

theorem sample_home_rootInode : ∀ i x,
    ((⟨sampleFs [0], none⟩ :: sampleMounts).getD i ⟨sampleFs [0], none⟩).rootInode = some x →
    sampleHome x < i := by
  intro i x h
  rcases i with _ | _ | _ | i
  · exact absurd h (by simp)
  · cases h; decide
  · cases h; decide
  · exact absurd h (by simp [sampleMounts])

def sampleTable : MountTable Unit where
  root := ⟨sampleFs [0], none⟩
  others := sampleMounts
  home := sampleHome
  root_rootInode := rfl
  home_entries := sample_home_entries
  home_rootInode := sample_home_rootInode

theorem sampleTable_uniqueNames (i : ℕ) : (sampleTable.fs i).UniqueNames := by
  intro p
  cases p with
  | some x =>
    have hnone : (sampleTable.fs i).entries (some x) = [] := by
      rcases i with _ | _ | _ | i <;> exact sampleFs_entries _ x
    rw [hnone]
    exact List.nodup_nil
  | none =>
    rcases i with _ | _ | _ | i
    · decide
    · decide
    · decide
    · exact List.nodup_singleton _

theorem followsPath_sampleTable : (∀ i, (sampleTable.fs i).UniqueNames) ∧
    sampleTable.FollowsPath "/aa/b".toList := by
  refine ⟨sampleTable_uniqueNames, followsPath_of_straight sampleTable_uniqueNames
    _ rfl (by decide) (.inr ⟨fun _ => ⟨?_, fun _ => ?_⟩, ?_⟩)⟩
  · intro h
    exact absurd h (by decide)
  · refine ⟨0, none, 0, .stay (by simp), fun _ => ⟨0, by decide, rfl⟩, fun y hy => ?_⟩
    have hy0 : y = 0 := by simpa [entries, sampleTable, fs, sampleFs,
      mountPoint, mountPoints] using hy.1
    subst hy0
    refine ⟨by decide, by decide, fun _ => ⟨1, none, 0, ?_⟩⟩
    refine .cross [[]] rfl ?_ rfl ?_
    · intro z hz
      have := hz.1
      rw [show (sampleTable.fs 0).entries (some 0) = [] from sampleFs_entries _ 0] at this
      exact absurd this List.not_mem_nil
    · intro u hu
      exact .inl (.inl (List.mem_singleton.1 hu))
  · intro h
    exact absurd h (by decide)

/-- In the third file system the path is read from index two, and `b` is taken for a name
there. -/
theorem sampleTable_misses : (∀ i, (sampleTable.fs i).UniqueNames) ∧
    ¬ sampleTable.FollowsPath "/aa/b/c".toList := by
  refine ⟨sampleTable_uniqueNames, ?_⟩
  rintro ⟨r, hr, hall⟩
  have hget : sampleTable.getMountPoint "/aa/b/c".toList none = some (failed (-einval)) := by
    decide
  rw [hget, Option.some.injEq] at hr
  subst hr
  have hwalk : sampleTable.Walk (0, none) (pieces "/aa/b/c".toList) (2, some 2) := by
    refine .ignore (.inl rfl) (.down (by decide) rfl (y := 0) ⟨by decide, rfl⟩ ?_)
    refine .down (by decide) rfl (y := 1) ⟨by decide, rfl⟩ ?_
    exact .down (by decide) rfl (y := 2) ⟨by decide, rfl⟩ (.done _)
  exact absurd ((hall 2 (some 2)).2 hwalk).1 (by decide)

end VFS
