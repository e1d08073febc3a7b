import FrostyOS.Streams

/-! # Unmounting

`Unmount` closes the streams of a mount in two loops that go forward through the lists from
which they remove. -/
namespace VFS.State

open Errno TempFS ForwardRemoval
open TempFileSystem (Name)

variable {F : Type*} (S : FileSystems F)

/-- The stream behind a registered pointer is one of the mount at `mountPoint`. -/
def onMount (mountPoint : ℕ) (v : State F) (address : ℕ) : Bool :=
  (v.fileStreams address).any fun stream => stream.mountPoint = mountPoint

def onFileSystem (fs : ℕ) (v : State F) (address : ℕ) : Bool :=
  (v.directories address).any fun stream => stream.fs = fs

/-- The loop over `m_streams`; the registered pointers lead to objects that exist. -/
def closeStreamsOf (v : State F) (mountPoint : ℕ) : State F :=
  match loop (onMount mountPoint) (fun v a => (v.deleteStream S a).getD v) v.streams.length 0
    v.streams v with
  | (streams, v) => { v with streams }

def closeDirectoryStreamsOf (v : State F) (fs : ℕ) : State F :=
  match loop (onFileSystem fs) (fun v a => (v.deleteDirectoryStream a).getD v)
    v.directoryStreams.length 0 v.directoryStreams v with
  | (directoryStreams, v) => { v with directoryStreams }

def removeMount (v : State F) (m : Mount) : State F :=
  let v := (v.closeStreamsOf S m.address).closeDirectoryStreamsOf m.fs
  { v with
    mountPoints := v.mountPoints.eraseP fun n => n.address = m.address
    files := S.destroyFileSystem v.files m.fs }

/-- Where nothing is mounted on the inode, the root mount, which has no parent, makes the
mount list busy; without it the null pointer would be followed. -/
def unmount (v : State F) (current : FilePrivilegeLevel) (path : Name)
    (workingDirectory : Option WorkingDirectory) : Option (State F × ℤ) :=
  if current.uid ≠ 0 then some (v, -eacces)
  else
    (v.getMountPoint S path workingDirectory).bind fun found =>
      match found.mountPoint, found.inode with
      | some _, some x =>
        let mountPoint := v.mountedOn (some x)
        if v.mountPoints.any fun m => m.parent = mountPoint.map Mount.address then
          some (v, -ebusy)
        else mountPoint.map fun m => (v.removeMount S m, 0)
      | _, _ => some (v, -einval)

variable {S} {v v' : State F} {m : Mount}

variable (streams l : List ℕ)

theorem fileStreams_deleteStream (v : State F) (a b : ℕ) :
    ((v.deleteStream S a).getD v).fileStreams b = if b = a then none else v.fileStreams b := by
  unfold deleteStream
  cases ha : v.fileStreams a with
  | none => by_cases hb : b = a <;> simp [hb, ha]
  | some stream => simp [Function.update_apply]

theorem directories_deleteDirectoryStream (v : State F) (a b : ℕ) :
    ((v.deleteDirectoryStream a).getD v).directories b =
      if b = a then none else v.directories b := by
  unfold deleteDirectoryStream
  cases ha : v.directories a with
  | none => by_cases hb : b = a <;> simp [hb, ha]
  | some stream => simp [Function.update_apply]

theorem closeStreamsOf_spec (hnd : v.streams.Nodup) (mountPoint : ℕ) :
    (v.closeStreamsOf S mountPoint).streams = left (v.onMount mountPoint) v.streams ∧
    (∀ a, (v.closeStreamsOf S mountPoint).fileStreams a =
      if a ∈ taken (v.onMount mountPoint) v.streams then none else v.fileStreams a) ∧
    (v.closeStreamsOf S mountPoint).directories = v.directories ∧
    (v.closeStreamsOf S mountPoint).directoryStreams = v.directoryStreams := by
  obtain ⟨t, hloop, htable, hsame⟩ := loop_table (fun v => (v.directories, v.directoryStreams))
    (fun stream => stream.mountPoint = mountPoint) (fileStreams_deleteStream (S := S))
    (fun v a => by unfold deleteStream; cases v.fileStreams a <;> rfl) hnd v
  unfold closeStreamsOf onMount
  rw [hloop]
  exact ⟨rfl, htable, Prod.mk.inj hsame⟩

theorem closeDirectoryStreamsOf_spec (hnd : v.directoryStreams.Nodup) (fs : ℕ) :
    (v.closeDirectoryStreamsOf fs).directoryStreams = left (v.onFileSystem fs) v.directoryStreams ∧
    (∀ a, (v.closeDirectoryStreamsOf fs).directories a =
      if a ∈ taken (v.onFileSystem fs) v.directoryStreams then none else v.directories a) ∧
    (v.closeDirectoryStreamsOf fs).fileStreams = v.fileStreams ∧
    (v.closeDirectoryStreamsOf fs).streams = v.streams := by
  obtain ⟨t, hloop, htable, hsame⟩ := loop_table (fun v => (v.fileStreams, v.streams))
    (fun stream => stream.fs = fs) directories_deleteDirectoryStream
    (fun v a => by unfold deleteDirectoryStream; cases v.directories a <;> rfl) hnd v
  unfold closeDirectoryStreamsOf onFileSystem
  rw [hloop]
  exact ⟨rfl, htable, Prod.mk.inj hsame⟩

/-- The pointers that are left lead to objects without `P`, and every object without `P`
that was registered still is, unchanged. -/
structure Cleared {β : Type*} (P : β → Prop) (l l' : List ℕ) (table table' : ℕ → Option β) :
    Prop where
  gone : ∀ a ∈ l', ∃ s, table' a = some s ∧ ¬ P s
  kept : ∀ a ∈ l, ∀ s, table a = some s → ¬ P s → a ∈ l' ∧ table' a = some s

theorem cleared_iff {β : Type*} {P : β → Prop} [DecidablePred P] {l} {table table' q}
    (hlive : ∀ a ∈ l, (table a).isSome)
    (hq : ∀ a, q a = (table a).any fun s => decide (P s))
    (htable : ∀ a, table' a = if a ∈ taken q l then none else table a) :
    Cleared P l (left q l) table table' ↔ Apart q l := by
  have hnot : ∀ a, q a = false → table' a = table a := by
    intro a ha
    rw [htable, if_neg]
    intro hmem
    rw [mem_taken hmem] at ha
    cases ha
  rw [← left_clean_iff]
  constructor
  · intro hc a ha
    obtain ⟨s, hs, hP⟩ := hc.gone a ha
    rw [htable] at hs
    split at hs
    · cases hs
    · rw [hq, hs]
      simpa using hP
  · intro hclean
    constructor
    · intro a ha
      have hqa := hclean a ha
      obtain ⟨s, hs⟩ := Option.isSome_iff_exists.mp (hlive a (left_sublist.subset ha))
      refine ⟨s, (hnot a hqa).trans hs, ?_⟩
      rw [hq, hs] at hqa
      simpa using hqa
    · intro a ha s hs hP
      have hqa : q a = false := by
        rw [hq, hs]
        simpa using hP
      exact ⟨mem_left_of_not ha hqa, (hnot a hqa).trans hs⟩

structure Registered (v : State F) : Prop where
  streams : v.streams.Nodup
  streams_live : ∀ a ∈ v.streams, (v.fileStreams a).isSome = true
  directoryStreams : v.directoryStreams.Nodup
  directories_live : ∀ a ∈ v.directoryStreams, (v.directories a).isSome = true

/-- No stream that is still registered refers to the mount or to its file system, and every
stream of other mounts is registered and as open as it was. -/
structure LeavesNothing (v v' : State F) (m : Mount) : Prop where
  files : Cleared (fun stream => stream.mountPoint = m.address) v.streams v'.streams
    v.fileStreams v'.fileStreams
  directories : Cleared (fun stream => stream.fs = m.fs) v.directoryStreams v'.directoryStreams
    v.directories v'.directories

/-- No two neighbours in either list of streams are of the mount. -/
structure NoNeighbours (v : State F) (m : Mount) : Prop where
  files : Apart (v.onMount m.address) v.streams
  directories : Apart (v.onFileSystem m.fs) v.directoryStreams

theorem leavesNothing_removeMount (hv : v.Registered) :
    LeavesNothing v (v.removeMount S m) m ↔ NoNeighbours v m := by
  obtain ⟨hstreams, hfiles, hdirs, hdirList⟩ := closeStreamsOf_spec (S := S) hv.streams m.address
  obtain ⟨hdirStreams, hdirectories, hfiles', hstreams'⟩ :=
    closeDirectoryStreamsOf_spec (v := v.closeStreamsOf S m.address)
      (hdirList ▸ hv.directoryStreams) m.fs
  have hq : (v.closeStreamsOf S m.address).onFileSystem m.fs = v.onFileSystem m.fs := by
    funext a
    exact congrArg (fun t => Option.any _ (t a)) hdirs
  rw [hq, hdirList] at hdirStreams
  rw [hq, hdirList, hdirs] at hdirectories
  have hfirst : Cleared (fun stream => stream.mountPoint = m.address) v.streams
      (v.removeMount S m).streams v.fileStreams (v.removeMount S m).fileStreams ↔
      Apart (v.onMount m.address) v.streams := by
    have hl : (v.removeMount S m).streams = left (v.onMount m.address) v.streams :=
      hstreams'.trans hstreams
    rw [hl]
    exact cleared_iff hv.streams_live (fun _ => rfl) fun a =>
      (congrFun hfiles' a).trans (hfiles a)
  have hsecond : Cleared (fun stream => stream.fs = m.fs) v.directoryStreams
      (v.removeMount S m).directoryStreams v.directories (v.removeMount S m).directories ↔
      Apart (v.onFileSystem m.fs) v.directoryStreams := by
    have hl : (v.removeMount S m).directoryStreams =
        left (v.onFileSystem m.fs) v.directoryStreams := hdirStreams
    rw [hl]
    exact cleared_iff hv.directories_live (fun _ => rfl) hdirectories
  constructor
  · intro h
    exact ⟨hfirst.mp h.files, hsecond.mp h.directories⟩
  · intro h
    exact ⟨hfirst.mpr h.files, hsecond.mpr h.directories⟩

theorem unmount_cases {current path} {workingDirectory}
    (h : v.unmount S current path workingDirectory = some (v', 0)) :
    ∃ found m, v.getMountPoint S path workingDirectory = some found ∧ found.inode ≠ none ∧
      v.mountedOn found.inode = some m ∧ v' = v.removeMount S m := by
  unfold unmount at h
  split at h
  · cases h
  obtain ⟨found, hfound, h⟩ := Option.bind_eq_some_iff.mp h
  split at h
  · next x _ hx =>
    dsimp only at h
    split at h
    · cases h
    · obtain ⟨m, hm, he⟩ := Option.map_eq_some_iff.mp h
      cases he
      exact ⟨found, m, hfound, by simp [hx], by rw [hx]; exact hm, rfl⟩
  · cases h

def sampleSystems : FileSystems (MountTable Unit) where
  getMountPoint := fun files _ => files.getMountPoint
  getType := fun _ x => if x = 2 then .file else .folder
  getPrivilegeLevel := fun _ _ => ⟨0, 0, 0⟩
  getSize := fun _ _ => 0
  getCurrentHead := fun _ _ => ⟨0, true, 0, 0⟩
  setCurrentHead := fun files _ _ => files
  openInode := fun files _ => (files, 0)
  closeInode := fun files _ => (files, 0)
  rewind := fun files _ => (files, 0)
  seek := fun files _ _ => (files, -einval)
  readStream := fun files _ _ bytes _ => some (files, -einval, bytes)
  writeStream := fun files _ _ _ _ => some (files, -eacces)
  getRootPrivilege := fun _ _ => ⟨0, 0, 0⟩
  createFile := fun files _ _ _ _ _ _ _ => some (files, -eacces)
  createFolder := fun files _ _ _ _ _ _ => some (files, -eacces)
  createSymLink := fun files _ _ _ _ _ _ _ => some (files, -eacces)
  destroyFileSystem := fun files _ => files

/-- Three mounts, the third on the folder `/aa/b`, and the given file streams: those at even
addresses are of the third mount, the others of the root mount. -/
def sampleState (streams : List ℕ) : State (MountTable Unit) where
  files := sampleTable
  mountPoints := [⟨0, none, none, 10⟩, ⟨1, some 0, some 0, 11⟩, ⟨2, some 1, some 1, 12⟩]
  fileStreams := fun a =>
    if a ∈ streams then
      some ⟨2, if a % 2 = 0 then 2 else 0, vfsRead, ⟨0, 0, 0⟩, some ⟨0, true, 0, 0⟩⟩
    else none
  streams := streams
  directories := fun _ => none
  directoryStreams := []

theorem registered_sampleState {streams} (hnd : streams.Nodup) :
    (sampleState streams).Registered where
  streams := hnd
  streams_live := fun a ha => by
    have ha : a ∈ streams := ha
    simp [sampleState, ha]
  directoryStreams := List.nodup_nil
  directories_live := fun a ha => by cases ha

theorem getMountPoint_sampleState :
    (sampleState streams).getMountPoint sampleSystems "/aa/b".toList none =
      some ⟨some 1, some 1, 0⟩ := by
  have hfound : sampleTable.getMountPoint "/aa/b".toList none = some ⟨some 1, some 1, 0⟩ := by
    decide +kernel
  exact hfound

theorem unmount_sampleState :
    (sampleState streams).unmount sampleSystems ⟨0, 0, 0⟩ "/aa/b".toList none =
      some ((sampleState streams).removeMount sampleSystems ⟨2, some 1, some 1, 12⟩, 0) := by
  rw [unmount, if_neg (by decide), getMountPoint_sampleState]
  rfl

end VFS.State
