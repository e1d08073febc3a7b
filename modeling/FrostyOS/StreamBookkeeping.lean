import FrostyOS.FileDescriptorManager
import FrostyOS.RamDisk

/-! # Registered streams

The VFS keeps the streams it opened in two lists. `sys_open` and `sys_close` of `Thread.cpp`
open and close streams behind file descriptors. -/
namespace StreamBookkeeping

open Errno TempFS VFS FileDescriptors Function VFS TempFileSystem Option
open TempFileSystem (Name pathSeparator)

variable {F : Type*} (S : FileSystems F)

def openDescriptor (v : State F) (d : FileDescriptor) : Option (State F × ℤ) :=
  match d.type with
  | .debug => some (v, 0)
  | .tty => some (v, 0)
  | .fileStream =>
    (v.fileStreams d.data).bind fun stream =>
      match stream.openFile S v.files with
      | (files, stream, rc) =>
        if rc ≠ 0 ∨ d.mode ≠ .append then
          some ({ v with files, fileStreams := update v.fileStreams d.data (some stream) }, rc)
        else
          -- the last byte is sought, not the end
          (stream.seek S files (asSigned (MachineWord.subWord (stream.getSize S files) 1))).map
            fun (files, stream, rc) =>
              ({ v with files, fileStreams := update v.fileStreams d.data (some stream) },
                if rc ≠ 0 then -enosys else 0)
  | .directoryStream =>
    (v.directories d.data).map fun stream =>
      match stream.openDirectory S v.files with
      | (stream, rc) => ({ v with directories := update v.directories d.data (some stream) }, rc)
  | .unknown => some (v, -enosys)

def closeDescriptor (v : State F) (d : FileDescriptor) : Option (State F) :=
  match d.type with
  | .fileStream =>
    (v.fileStreams d.data).map fun stream =>
      match stream.closeFile S v.files with
      | (files, stream, _) =>
        { v with files, fileStreams := update v.fileStreams d.data (some stream) }
  | .directoryStream =>
    (v.directories d.data).map fun stream =>
      { v with directories := update v.directories d.data (some stream.closeDirectory.1) }
  | _ => some v

/-- The VFS and the descriptor table of every thread; the kernel halts when an assertion
fails. -/
structure Kernel (F : Type*) where
  vfs : State F
  descriptors : ℕ → FileDescriptorManager
  halted : Bool

def oRead : ℕ := 1

def oWrite : ℕ := 2

def oCreate : ℕ := 4

def oAppend : ℕ := 8

def openModes (flags : ℕ) : Option (FileDescriptorMode × ℕ) :=
  if flags = oRead then some (.read, vfsRead)
  else if flags = oAppend then some (.append, vfsWrite)
  else if flags = oWrite then some (.write, vfsWrite)
  else if flags = oRead ||| oWrite then some (.readWrite, vfsRead ||| vfsWrite)
  else none

def splitLast : Name → Option (Name × Name)
  | [] => none
  | c :: rest =>
    match splitLast rest with
    | some (parent, name) => some (c :: parent, name)
    | none => if c = pathSeparator then some ([c], rest) else none

structure OpenCall where
  thread : ℕ
  readable : Bool
  path : Name
  flags : ℕ
  mode : ℕ
  uid : ℕ
  gid : ℕ
  workingDirectory : Option WorkingDirectory
  address : ℕ
  object : ℕ
  krealloc : Krealloc

namespace OpenCall

variable (c : OpenCall) (v : State F)

def current : FilePrivilegeLevel := ⟨c.uid, c.gid, 0⟩

def create : Bool := c.flags &&& oCreate ≠ 0

/-- The file is created where the path leads nowhere; no code means success. -/
def createMissing : Option (State F × Option ℤ) :=
  let make := fun (v : State F) parent name =>
    (v.createFile S c.current parent name 0 false ⟨c.uid, c.gid, c.mode⟩).map fun (v, rc) =>
      (v, if rc ≠ (0 : ℤ) then some rc else none)
  match splitLast c.path with
  | none => make v [pathSeparator] c.path
  | some (parent, name) =>
    (v.isValidPath S parent c.workingDirectory).bind fun valid =>
      if valid then make v parent name else some (v, some (-enoent))

def ensure : Option (State F × Option ℤ) :=
  (v.isValidPath S c.path c.workingDirectory).bind fun valid =>
    if valid then some (v, none)
    else if c.create then c.createMissing S v
    else some (v, some (-enoent))

/-- The kind of stream that is opened: there is no inode for the root of a mount. -/
def kindAt : Option (Except ℤ FileDescriptorType) :=
  (v.getChildMountPoint S c.path c.workingDirectory).map fun found =>
    match found.mountPoint, found.inode with
    | none, _ => .error (-enoent)
    | some _, none => .ok .directoryStream
    | some _, some x =>
      match S.getType v.files x with
      | .file => .ok .fileStream
      | .folder => .ok .directoryStream

/-- Everything before the stream is opened: an error, or its kind and the modes. -/
def prepare : Option (State F × Except ℤ (FileDescriptorType × FileDescriptorMode × ℕ)) :=
  if c.readable = false then some (v, .error (-efault))
  else
    match openModes (if c.create then c.flags ^^^ oCreate else c.flags) with
    | none => some (v, .error (-einval))
    | some (mode, modes) =>
      (c.ensure S v).bind fun
        | (v, some rc) => some (v, .error rc)
        | (v, none) =>
          (c.kindAt S v).map fun
            | .error rc => (v, .error rc)
            | .ok type => (v, .ok (type, mode, modes))

end OpenCall

namespace Kernel

variable (k : Kernel F) (assertions : Bool)

def setDescriptors (thread : ℕ) (m : FileDescriptorManager) : Kernel F :=
  { k with descriptors := update k.descriptors thread m }

/-- What is done with the stream that was opened: `close` is how it is closed again. The
last test takes the code for success for a failure. -/
def attach (c : OpenCall) (type : FileDescriptorType) (mode : FileDescriptorMode)
    (close : State F → Option (State F × ℤ)) : Option (Kernel F × ℤ) :=
  match (k.descriptors c.thread).allocateFileDescriptor c.object type c.address mode
    c.krealloc with
  | (fd, m) =>
    if fd < 0 then
      (close k.vfs).map fun (vfs, _) => ({ k.setDescriptors c.thread m with vfs }, -enomem)
    else
      match m.getFileDescriptor fd with
      | none =>
        (close k.vfs).bind fun (vfs, _) =>
          if assertions then
            some ({ k.setDescriptors c.thread (m.freeFileDescriptor fd).2 with
              vfs, halted := true }, fd)
          else none
      | some d =>
        (openDescriptor S k.vfs d).map fun (vfs, rc) =>
          ({ k.setDescriptors c.thread m with
            vfs, halted := k.halted || assertions && decide (rc = 0) }, fd)

def sysOpen (c : OpenCall) : Option (Kernel F × ℤ) := (c.prepare S k.vfs).bind fun
    | (vfs, .error rc) => some ({ k with vfs }, rc)
    | (vfs, .ok (.fileStream, mode, modes)) =>
      (vfs.openStream S c.address c.current c.path modes c.workingDirectory).bind fun
        | (vfs, .error rc) => some ({ k with vfs }, rc)
        | (vfs, .ok address) =>
          { k with vfs }.attach S assertions c .fileStream mode
            fun v => v.closeStream S (some address)
    | (vfs, .ok (_, mode, modes)) =>
      (vfs.openDirectoryStream S c.address c.current c.path modes c.workingDirectory).bind fun
        | (vfs, .error rc) => some ({ k with vfs }, rc)
        | (vfs, .ok address) =>
          { k with vfs }.attach S assertions c .directoryStream mode
            fun v => v.closeDirectoryStream (some address)

/-- The stream of a file is deleted, but stays in the list of the VFS. -/
def sysClose (thread : ℕ) (fd : ℤ) : Option (Kernel F × ℤ) :=
  match (k.descriptors thread).getFileDescriptor fd with
  | none => some (k, -ebadf)
  | some d =>
    (closeDescriptor S k.vfs d).bind fun vfs =>
      (if d.type = .fileStream then vfs.deleteStream S d.data else some vfs).map fun vfs =>
        ({ k.setDescriptors thread ((k.descriptors thread).freeFileDescriptor fd).2 with vfs }, 0)

end Kernel

inductive Call where
  | openStream (address : ℕ) (current : FilePrivilegeLevel) (path : Name) (modes : ℕ)
      (workingDirectory : Option WorkingDirectory)
  | openDirectoryStream (address : ℕ) (current : FilePrivilegeLevel) (path : Name) (modes : ℕ)
      (workingDirectory : Option WorkingDirectory)
  | closeStream (stream : Option ℕ)
  | closeDirectoryStream (stream : Option ℕ)
  | sysOpen (c : OpenCall)
  | sysClose (thread : ℕ) (fd : ℤ)

def Kernel.call (k : Kernel F) (assertions : Bool) : Call → Option (Kernel F)
  | .openStream address current path modes workingDirectory =>
    (k.vfs.openStream S address current path modes workingDirectory).map fun (vfs, _) =>
      { k with vfs }
  | .openDirectoryStream address current path modes workingDirectory =>
    (k.vfs.openDirectoryStream S address current path modes workingDirectory).map
      fun (vfs, _) => { k with vfs }
  | .closeStream stream => (k.vfs.closeStream S stream).map fun (vfs, _) => { k with vfs }
  | .closeDirectoryStream stream =>
    (k.vfs.closeDirectoryStream stream).map fun (vfs, _) => { k with vfs }
  | .sysOpen c => (k.sysOpen S assertions c).map Prod.fst
  | .sysClose thread fd => (k.sysClose S thread fd).map Prod.fst

/-- `new` does not give the address of an object that exists. -/
def Fresh (v : State F) : Call → Prop
  | .openStream address _ _ _ _ => v.fileStreams address = none
  | .openDirectoryStream address _ _ _ _ => v.directories address = none
  | .sysOpen c => v.fileStreams c.address = none ∧ v.directories c.address = none
  | _ => True

inductive Run (assertions : Bool) (Meets : Kernel F → Call → Prop) (start : Kernel F) :
    Kernel F → Prop where
  | start : Run assertions Meets start start
  | step {k k' : Kernel F} {c : Call} (hrun : Run assertions Meets start k)
      (halive : k.halted = false) (hfresh : Fresh k.vfs c) (hmeets : Meets k c)
      (hcall : k.call S assertions c = some k') : Run assertions Meets start k'

structure Tracks {β : Type*} (l : List ℕ) (objects : ℕ → Option β) : Prop where
  nodup : l.Nodup
  mem_iff : ∀ a, a ∈ l ↔ (objects a).isSome = true

namespace Tracks

variable {β : Type*} {l : List ℕ} {objects : ℕ → Option β}

section

variable (h : Tracks l objects)

include h

theorem not_mem {a : ℕ} (ha : objects a = none) : a ∉ l := by
  intro hmem
  rw [h.mem_iff, ha] at hmem
  cases hmem

theorem add {a : ℕ} (ha : objects a = none) (x : β) :
    Tracks (l ++ [a]) (update objects a (some x)) where
  nodup := List.nodup_append.mpr ⟨h.nodup, List.nodup_singleton a, by
    rintro b hb _ hc rfl
    rw [List.mem_singleton.mp hc] at hb
    exact h.not_mem ha hb⟩
  mem_iff b := by
    by_cases hb : b = a
    · subst hb
      simp
    · simp [hb, h.mem_iff]

theorem remove (a : ℕ) : Tracks (l.erase a) (update objects a none) where
  nodup := h.nodup.erase a
  mem_iff b := by
    rw [h.nodup.mem_erase_iff, h.mem_iff]
    by_cases hb : b = a
    · simp [hb]
    · simp [hb]

theorem modify {a : ℕ} {x} (ha : objects a = some x) (y : β) :
    Tracks l (update objects a (some y)) where
  nodup := h.nodup
  mem_iff b := by
    rw [h.mem_iff]
    by_cases hb : b = a
    · subst hb
      simp [ha]
    · simp [hb]

theorem not_of_lost {a : ℕ} (ha : objects a = none) (x : β) :
    ¬ Tracks l (update objects a (some x)) := by
  intro h'
  apply h.not_mem ha
  rw [h'.mem_iff]
  simp

theorem not_of_dangling {a : ℕ} (ha : (objects a).isSome) : ¬ Tracks l (update objects a none) := by
  intro h'
  exact h'.not_mem (update_self a none objects) ((h.mem_iff a).mpr ha)

end

end Tracks

structure Tracked (v : State F) : Prop where
  files : Tracks v.streams v.fileStreams
  directories : Tracks v.directoryStreams v.directories

variable {S} {v v' : State F} {k k' : Kernel F} {assertions : Bool}

variable {address modes : ℕ} {c : OpenCall} {rc : ℤ} {path : Name} {result : Except ℤ ℕ}
  {current : FilePrivilegeLevel} {workingDirectory : Option WorkingDirectory} {stream : Option ℕ}
  {d : FileDescriptor} {α : Type*}

theorem Tracked.of_some {a b : α} (hv : Tracked v) (h : some (v, a) = some (v', b)) :
    Tracked v' := by
  cases h
  exact hv

theorem openFile_succeeds_iff (S : FileSystems F) (files : F) (stream : FileStream)
    (h : stream.inodeState = none) :
    (stream.openFile S files).2.2 = 0 ↔ S.getType files stream.inode = .file ∧
      0 ≤ (S.openInode (S.setCurrentHead files stream.inode ⟨0, false, 0, 0⟩) stream.inode).2 := by
  have hdir : -eisdir ≠ 0 := by decide
  have hsys : -enosys ≠ 0 := by decide
  rw [FileStream.openFile, if_neg (by simp [h])]
  by_cases htype : S.getType files stream.inode = .file
  · rw [if_neg (by simp [htype])]
    dsimp only
    split
    · next hrc => simp [htype, hsys, Int.not_le.mpr hrc]
    · next hrc => simp [htype, Int.not_lt.mp hrc]
  · simp [htype, hdir]

/-- The inode at the path, if there is one, is a file that can be opened. -/
def OpensFile (S : FileSystems F) (v : State F) (path : Name)
    (workingDirectory : Option WorkingDirectory) : Prop :=
  ∀ found m x, v.getMountPoint S path workingDirectory = some found →
    found.mountPoint = some m → found.inode = some x → S.getType v.files x = .file ∧
      0 ≤ (S.openInode (S.setCurrentHead v.files x ⟨0, false, 0, 0⟩) x).2

/-- What is at the path, if there is something, is a folder or the root of a mount that the
access test of `DirectoryStream::Open` lets the caller read. -/
def OpensDirectory (S : FileSystems F) (v : State F) (current : FilePrivilegeLevel)
    (path : Name) (workingDirectory : Option WorkingDirectory) : Prop :=
  ∀ found atMount m, v.getMountPoint S path workingDirectory = some found →
    v.isMountpoint S path workingDirectory = some atMount → found.mountPoint.bind v.mount = some m →
    let stream : DirectoryStream := ⟨if atMount then none else found.inode, current, m.fs, 0, false⟩
    (∀ x, stream.inode = some x → S.getType v.files x = .folder) ∧
      directoryPermits (stream.owner S v.files) current = true

theorem openDirectory_succeeds_iff (S : FileSystems F) (files : F) (stream : DirectoryStream)
    (h : stream.isOpen = false) :
    (stream.openDirectory S files).2 = 0 ↔
      (∀ x, stream.inode = some x → S.getType files x = .folder) ∧
        directoryPermits (stream.owner S files) stream.privilege := by
  have hdir : -enotdir ≠ 0 := by decide
  have hacc : -eacces ≠ 0 := by decide
  rw [DirectoryStream.openDirectory, if_neg (by simp [h])]
  by_cases htype : ∀ x, stream.inode = some x → S.getType files x = .folder
  · rw [if_neg (fun h => any_not_folder_iff.mp h htype)]
    cases directoryPermits _ _ with
    | false => simp [hacc]
    | true => simp only [if_true, true_iff, and_true]; exact htype
  · rw [if_pos (any_not_folder_iff.mpr htype)]
    simp [htype, hdir]

theorem openStream_tracked_iff (hv : Tracked v) (hfresh : v.fileStreams address = none)
    (h : v.openStream S address current path modes workingDirectory = some (v', result)) :
    (Tracked v' ↔ OpensFile S v path workingDirectory) ∧ (∀ a, result = .ok a → Tracked v') := by
  obtain ⟨found, hfound, h⟩ := map_eq_some_iff.mp h
  split at h
  · next m x hm hx =>
    have hcode := openFile_succeeds_iff S v.files ⟨x, m, modes, current, none⟩ rfl
    generalize FileStream.openFile S v.files ⟨x, m, modes, current, none⟩ = opened at h hcode
    obtain ⟨files, stream, rc⟩ := opened
    dsimp only at h hcode
    split at h
    · next hrc =>
      cases h
      refine ⟨iff_of_false ?_ ?_, fun _ hok => by cases hok⟩
      · intro h'
        exact hv.files.not_of_lost hfresh stream h'.files
      · intro hopens
        exact hrc (hcode.mpr (hopens found m x hfound hm hx))
    · next hrc =>
      cases h
      have htracked := hv.files.add hfresh stream
      refine ⟨iff_of_true ⟨htracked, hv.directories⟩ ?_, fun _ _ => ⟨htracked, hv.directories⟩⟩
      intro found' m' x' hfound' hm' hx'
      cases hfound.symm.trans hfound'
      cases hx.symm.trans hx'
      exact hcode.mp (not_not.mp hrc)
  · next hno =>
    cases h
    refine ⟨iff_of_true hv ?_, fun _ _ => hv⟩
    intro found' m x hfound' hm hx
    cases hfound.symm.trans hfound'
    exact absurd hx (hno m x hm)

theorem openDirectoryStream_tracked_iff (hv : Tracked v) (hfresh : v.directories address = none)
    (h : v.openDirectoryStream S address current path modes workingDirectory = some (v', result)) :
    (Tracked v' ↔ (modes = vfsRead → OpensDirectory S v current path workingDirectory)) ∧
      (∀ a, result = .ok a → Tracked v') := by
  unfold State.openDirectoryStream at h
  split at h
  · next hmodes =>
    cases h
    exact ⟨iff_of_true hv fun h => absurd h hmodes, fun _ _ => hv⟩
  next hmodes =>
  rw [forall_prop_of_true (not_not.mp hmodes)]
  obtain ⟨found, hfound, h⟩ := bind_eq_some_iff.mp h
  obtain ⟨atMount, hat, h⟩ := map_eq_some_iff.mp h
  split at h
  · next hnone =>
    cases h
    refine ⟨iff_of_true hv ?_, fun _ _ => hv⟩
    intro found' atMount' m hfound' _ hm
    cases hfound.symm.trans hfound'
    exact absurd (hnone.symm.trans hm) (some_ne_none m).symm
  · next m hm =>
    dsimp only at h
    have hcode := openDirectory_succeeds_iff S v.files
      ⟨if atMount then none else found.inode, current, m.fs, 0, false⟩ rfl
    generalize DirectoryStream.openDirectory S v.files _ = opened at h hcode
    obtain ⟨stream, rc⟩ := opened
    dsimp only at h
    split at h
    · next hrc =>
      cases h
      refine ⟨iff_of_false ?_ ?_, fun _ hok => by cases hok⟩
      · intro h'
        exact hv.directories.not_of_lost hfresh stream h'.directories
      · intro hopens
        exact hrc (hcode.mpr (hopens found atMount m hfound hat hm))
    · next hrc =>
      cases h
      have htracked := hv.directories.add hfresh stream
      refine ⟨iff_of_true ⟨hv.files, htracked⟩ ?_, fun _ _ => ⟨hv.files, htracked⟩⟩
      intro found' atMount' m' hfound' hat' hm'
      cases hfound.symm.trans hfound'
      cases hat.symm.trans hat'
      cases hm.symm.trans hm'
      exact hcode.mp (not_not.mp hrc)

theorem closeStream_tracked (hv : Tracked v) (h : v.closeStream S stream = some (v', rc)) :
    Tracked v' := by
  cases stream with
  | none =>
    exact hv.of_some h
  | some address =>
    rw [State.closeStream] at h
    split at h
    · obtain ⟨w, hw, he⟩ := map_eq_some_iff.mp h
      cases he
      obtain ⟨stream, -, rfl⟩ := map_eq_some_iff.mp hw
      exact ⟨hv.files.remove address, hv.directories⟩
    · exact hv.of_some h

theorem closeDirectoryStream_tracked (hv : Tracked v)
    (h : v.closeDirectoryStream stream = some (v', rc)) : Tracked v' := by
  cases stream with
  | none =>
    exact hv.of_some h
  | some address =>
    rw [State.closeDirectoryStream] at h
    split at h
    · obtain ⟨w, hw, he⟩ := map_eq_some_iff.mp h
      cases he
      obtain ⟨stream, -, rfl⟩ := map_eq_some_iff.mp hw
      exact ⟨hv.files, hv.directories.remove address⟩
    · exact hv.of_some h

theorem openDescriptor_tracked (hv : Tracked v) (h : openDescriptor S v d = some (v', rc)) :
    Tracked v' := by
  unfold openDescriptor at h
  split at h
  · exact hv.of_some h
  · exact hv.of_some h
  · obtain ⟨stream, hstream, h⟩ := bind_eq_some_iff.mp h
    dsimp only at h
    split at h
    · cases h
      exact ⟨hv.files.modify hstream _, hv.directories⟩
    · obtain ⟨moved, -, he⟩ := map_eq_some_iff.mp h
      cases he
      exact ⟨hv.files.modify hstream _, hv.directories⟩
  · obtain ⟨stream, hstream, he⟩ := map_eq_some_iff.mp h
    cases he
    exact ⟨hv.files, hv.directories.modify hstream _⟩
  · exact hv.of_some h

theorem closeDescriptor_tracked (hv : Tracked v) (h : closeDescriptor S v d = some v') :
    Tracked v' := by
  unfold closeDescriptor at h
  split at h
  · obtain ⟨stream, hstream, rfl⟩ := map_eq_some_iff.mp h
    exact ⟨hv.files.modify hstream _, hv.directories⟩
  · obtain ⟨stream, hstream, rfl⟩ := map_eq_some_iff.mp h
    exact ⟨hv.files, hv.directories.modify hstream _⟩
  · cases h
    exact hv

theorem attach_tracked (hk : Tracked k.vfs) {type : FileDescriptorType} {mode} {close}
    (hclose : ∀ w code, close k.vfs = some (w, code) → Tracked w)
    (h : k.attach S assertions c type mode close = some (k', rc)) : Tracked k'.vfs := by
  unfold Kernel.attach at h
  dsimp only at h
  split at h
  · obtain ⟨⟨w, code⟩, hw, he⟩ := map_eq_some_iff.mp h
    cases he
    exact hclose w code hw
  split at h
  · obtain ⟨⟨w, code⟩, hw, he⟩ := bind_eq_some_iff.mp h
    dsimp only at he
    split at he
    · cases he
      exact hclose w code hw
    · cases he
  · obtain ⟨⟨w, code⟩, hw, he⟩ := map_eq_some_iff.mp h
    cases he
    exact openDescriptor_tracked hk hw

/-- Nothing but the file systems differs. -/
def SameStreams (v v' : State F) : Prop := v' = { v with files := v'.files }

theorem SameStreams.of_some {a b : α} (h : some (v, a) = some (v', b)) : SameStreams v v' := by
  cases h
  rfl

theorem SameStreams.tracked (h : SameStreams v v') (hv : Tracked v) : Tracked v' := by
  rw [h]
  exact ⟨hv.files, hv.directories⟩

theorem createFile_same {privilege : FilePrivilegeLevel} {parent name} {size : ℕ}
    {inheritPermissions}
    (h : v.createFile S current parent name size inheritPermissions privilege = some (v', rc)) :
    SameStreams v v' := by
  obtain ⟨found, -, h⟩ := bind_eq_some_iff.mp h
  split at h
  · exact .of_some h
  split at h
  · exact .of_some h
  · obtain ⟨made, -, he⟩ := map_eq_some_iff.mp h
    cases he
    rfl

theorem ensure_same {failure : Option ℤ} (h : c.ensure S v = some (v', failure)) :
    SameStreams v v' := by
  obtain ⟨valid, -, h⟩ := bind_eq_some_iff.mp h
  have hmake : ∀ parent name, ((v.createFile S c.current parent name 0 false
      ⟨c.uid, c.gid, c.mode⟩).map fun (w, rc) => (w, if rc ≠ (0 : ℤ) then some rc else none)) =
        some (v', failure) → SameStreams v v' := by
    intro parent name h
    obtain ⟨⟨w, rc⟩, hw, he⟩ := map_eq_some_iff.mp h
    cases he
    exact createFile_same hw
  split at h
  · exact .of_some h
  split at h
  · unfold OpenCall.createMissing at h
    dsimp only at h
    split at h
    · exact hmake _ _ h
    · obtain ⟨valid', -, h⟩ := bind_eq_some_iff.mp h
      split at h
      · exact hmake _ _ h
      · exact .of_some h
  · exact .of_some h

theorem prepare_same {plan : Except ℤ (FileDescriptorType × FileDescriptorMode × ℕ)}
    (h : c.prepare S v = some (v', plan)) : SameStreams v v' := by
  unfold OpenCall.prepare at h
  split at h
  · exact .of_some h
  split at h
  · exact .of_some h
  obtain ⟨⟨w, failure⟩, hw, h⟩ := bind_eq_some_iff.mp h
  cases failure with
  | some rc =>
    cases h
    exact ensure_same hw
  | none =>
    obtain ⟨kind, -, he⟩ := map_eq_some_iff.mp h
    have hv' : w = v' := by
      cases kind with
      | error rc => exact (Prod.mk.inj he).1
      | ok type => exact (Prod.mk.inj he).1
    exact hv' ▸ ensure_same hw

/-- The stream that `sys_open` is going to open, on the files as they are once the path is
valid, can be opened. -/
def OpenCall.Opens (S : FileSystems F) (c : OpenCall) (v : State F) : Prop :=
  ∀ w type mode modes, c.prepare S v = some (w, .ok (type, mode, modes)) →
    (type = .fileStream → OpensFile S w c.path c.workingDirectory) ∧
    (type ≠ .fileStream → modes = vfsRead → OpensDirectory S w c.current c.path c.workingDirectory)

theorem opens_iff {w} {type : FileDescriptorType} {mode}
    (h : c.prepare S v = some (w, .ok (type, mode, modes))) :
    c.Opens S v ↔ (type = .fileStream → OpensFile S w c.path c.workingDirectory) ∧
      (type ≠ .fileStream → modes = vfsRead →
        OpensDirectory S w c.current c.path c.workingDirectory) := by
  constructor
  · intro hopens
    exact hopens w type mode modes h
  · intro hopens w' type' mode' modes' h'
    cases h.symm.trans h'
    exact hopens

theorem sysOpen_tracked_iff (hk : Tracked k.vfs) (hfile : k.vfs.fileStreams c.address = none)
    (hdir : k.vfs.directories c.address = none) (h : k.sysOpen S assertions c = some (k', rc)) :
    Tracked k'.vfs ↔ c.Opens S k.vfs := by
  obtain ⟨⟨w, plan⟩, hprepare, h⟩ := bind_eq_some_iff.mp h
  have hsame := prepare_same hprepare
  have hw := hsame.tracked hk
  rw [SameStreams] at hsame
  split at h
  · next heq =>
    cases heq
    cases h
    refine iff_of_true hw ?_
    intro w' type mode modes h'
    cases hprepare.symm.trans h'
  · next mode modes heq =>
    cases heq
    obtain ⟨⟨w₁, result⟩, hopen, h⟩ := bind_eq_some_iff.mp h
    have hfresh : w.fileStreams c.address = none := by
      rw [hsame]
      exact hfile
    have hiff := (openStream_tracked_iff hw hfresh hopen).1
    simp only [opens_iff hprepare, ← hiff, forall_const, ne_eq, not_true, false_implies, and_true]
    cases result with
    | error rc' =>
      cases h
      rfl
    | ok address =>
      have hw₁ := (openStream_tracked_iff hw hfresh hopen).2 _ rfl
      have hk' := attach_tracked (k := { k with vfs := w₁ }) hw₁
        (fun _ _ hclose => closeStream_tracked hw₁ hclose) h
      exact iff_of_true hk' hw₁
  · next type mode modes hne heq =>
    cases heq
    obtain ⟨⟨w₁, result⟩, hopen, h⟩ := bind_eq_some_iff.mp h
    have hfresh : w.directories c.address = none := by
      rw [hsame]
      exact hdir
    have hiff := (openDirectoryStream_tracked_iff hw hfresh hopen).1
    have hother : type ≠ .fileStream := hne
    simp only [opens_iff hprepare, ← hiff, hother, false_implies, true_and, forall_const, ne_eq,
      not_false_eq_true]
    cases result with
    | error rc' =>
      cases h
      rfl
    | ok address =>
      have hw₁ := (openDirectoryStream_tracked_iff hw hfresh hopen).2 _ rfl
      have hk' := attach_tracked (k := { k with vfs := w₁ }) hw₁
        (fun _ _ hclose => closeDirectoryStream_tracked hw₁ hclose) h
      exact iff_of_true hk' hw₁

theorem sysClose_tracked_iff (hk : Tracked k.vfs) {thread : ℕ} {fd}
    (h : k.sysClose S thread fd = some (k', rc)) :
    Tracked k'.vfs ↔
      ∀ d, (k.descriptors thread).getFileDescriptor fd = some d → d.type ≠ .fileStream := by
  unfold Kernel.sysClose at h
  split at h
  · next hnone =>
    cases h
    refine iff_of_true hk ?_
    intro d hd
    exact absurd (hnone.symm.trans hd) (some_ne_none d).symm
  · next d hd =>
    obtain ⟨w, hw, h⟩ := bind_eq_some_iff.mp h
    obtain ⟨w', hw', he⟩ := map_eq_some_iff.mp h
    cases he
    have htracked := closeDescriptor_tracked hk hw
    split at hw'
    · next htype =>
      refine iff_of_false ?_ (fun hall => hall d hd htype)
      obtain ⟨stream, hstream, rfl⟩ := map_eq_some_iff.mp hw'
      intro h'
      refine htracked.files.not_of_dangling ?_ h'.files
      rw [hstream]
      rfl
    · next htype =>
      cases hw'
      refine iff_of_true htracked ?_
      intro d' hd'
      cases hd.symm.trans hd'
      exact htype

/-- No stream is made that then cannot be opened, and `sys_close` is not given the
descriptor of a file. -/
def Clear (S : FileSystems F) (k : Kernel F) : Call → Prop
  | .openStream _ _ path _ workingDirectory => OpensFile S k.vfs path workingDirectory
  | .openDirectoryStream _ current path modes workingDirectory =>
    modes = vfsRead → OpensDirectory S k.vfs current path workingDirectory
  | .sysOpen c => c.Opens S k.vfs
  | .sysClose thread fd =>
    ∀ d, (k.descriptors thread).getFileDescriptor fd = some d → d.type ≠ .fileStream
  | _ => True

theorem call_tracked_iff (hk : Tracked k.vfs) {c} (hfresh : Fresh k.vfs c)
    (h : k.call S assertions c = some k') : Tracked k'.vfs ↔ Clear S k c := by
  cases c with
  | openStream address current path modes workingDirectory =>
    obtain ⟨⟨w, result⟩, hw, rfl⟩ := map_eq_some_iff.mp h
    exact (openStream_tracked_iff hk hfresh hw).1
  | openDirectoryStream address current path modes workingDirectory =>
    obtain ⟨⟨w, result⟩, hw, rfl⟩ := map_eq_some_iff.mp h
    exact (openDirectoryStream_tracked_iff hk hfresh hw).1
  | closeStream stream =>
    obtain ⟨⟨w, rc⟩, hw, rfl⟩ := map_eq_some_iff.mp h
    exact iff_of_true (closeStream_tracked hk hw) trivial
  | closeDirectoryStream stream =>
    obtain ⟨⟨w, rc⟩, hw, rfl⟩ := map_eq_some_iff.mp h
    exact iff_of_true (closeDirectoryStream_tracked hk hw) trivial
  | sysOpen c =>
    obtain ⟨⟨w, rc⟩, hw, rfl⟩ := map_eq_some_iff.mp h
    exact sysOpen_tracked_iff hk hfresh.1 hfresh.2 hw
  | sysClose thread fd =>
    obtain ⟨⟨w, rc⟩, hw, rfl⟩ := map_eq_some_iff.mp h
    exact sysClose_tracked_iff hk hw

/-- Along every run of clear calls the lists of the VFS have exactly the streams that were
made and not deleted; a call that is not clear makes them wrong. -/
theorem run_tracked {start : Kernel F} (hstart : Tracked start.vfs)
    (hrun : Run S assertions (Clear S) start k) :
    Tracked k.vfs ∧ ∀ c k', Fresh k.vfs c → k.call S assertions c = some k' →
      (Tracked k'.vfs ↔ Clear S k c) := by
  have htracked : Tracked k.vfs := by
    induction hrun with
    | start => exact hstart
    | step _ _ hfresh hclear hcall ih => exact (call_tracked_iff ih hfresh hcall).mpr hclear
  exact ⟨htracked, fun c k' hfresh hcall => call_tracked_iff htracked hfresh hcall⟩

def sampleKernel : Kernel (Disk Unit) where
  vfs := (((Disk.empty ()).insert ['f'] none .file ⟨0, 0, 0o644⟩ trivial).insert
    ['d'] none .folder ⟨0, 0, 0o755⟩ trivial).mounted
  descriptors := fun _ => .init
  halted := false

def sampleDisks : FileSystems (Disk Unit) := Disk.systems TempFSInode.zeroPages

theorem sampleKernel_tracked : Tracked sampleKernel.vfs where
  files := ⟨List.nodup_nil, fun a => by simp [sampleKernel, Disk.mounted]⟩
  directories := ⟨List.nodup_nil, fun a => by simp [sampleKernel, Disk.mounted]⟩

def sampleOpen (path : Name) : Call := .openStream 7 ⟨0, 0, 0⟩ path vfsRead none

theorem sampleOpen_fresh (path : Name) : Fresh sampleKernel.vfs (sampleOpen path) := rfl

theorem sampleOpen_clear : Clear sampleDisks sampleKernel (sampleOpen ['/', 'f']) := by
  intro found m x hfound _ hx
  have hlookup : sampleKernel.vfs.getMountPoint sampleDisks ['/', 'f'] none =
      some ⟨some 0, some 0, 0⟩ := by decide +kernel
  cases hlookup.symm.trans hfound
  cases hx
  decide +kernel

theorem run_tracked_one_file : ∃ k,
    Run sampleDisks true (Clear sampleDisks) sampleKernel k ∧ k.vfs.streams = [7] ∧
      Tracked k.vfs := by
  have hstreams : (sampleKernel.call sampleDisks true (sampleOpen ['/', 'f'])).map
      (fun k => k.vfs.streams) = some [7] := by decide +kernel
  obtain ⟨k, hk, hlist⟩ := map_eq_some_iff.mp hstreams
  have hrun : Run sampleDisks true (Clear sampleDisks) sampleKernel k :=
    .step .start rfl (sampleOpen_fresh _) sampleOpen_clear hk
  exact ⟨k, hrun, hlist, (run_tracked sampleKernel_tracked hrun).1⟩

def sampleSysOpen : OpenCall where
  thread := 0
  readable := true
  path := ['/', 'f']
  flags := oRead
  mode := 0
  uid := 0
  gid := 0
  workingDirectory := none
  address := 7
  object := 9
  krealloc := fun _ => some fun _ => 0

/-- `OpenStream` of the folder leaves a stream that is in no list; and after `sys_open` of the
file, in a build without assertions, `sys_close` leaves one in the list that is deleted. -/
theorem streams_lost_and_dangling :
    (∃ k, Run sampleDisks true (fun _ _ => True) sampleKernel k ∧
      (k.vfs.fileStreams 7).isSome = true ∧ k.vfs.streams = [] ∧ ¬ Tracked k.vfs) ∧
    ∃ k, Run sampleDisks false (fun _ _ => True) sampleKernel k ∧
      k.vfs.fileStreams 7 = none ∧ k.vfs.streams = [7] ∧ ¬ Tracked k.vfs := by
  constructor
  · have hstep : (sampleKernel.call sampleDisks true (sampleOpen ['/', 'd'])).map
        (fun k => ((k.vfs.fileStreams 7).isSome, k.vfs.streams)) = some (true, []) := by
      decide +kernel
    obtain ⟨k, hk, hstate⟩ := map_eq_some_iff.mp hstep
    obtain ⟨hlive, hlist⟩ := Prod.mk.inj hstate
    refine ⟨k, .step .start rfl (sampleOpen_fresh _) trivial hk, hlive, hlist, ?_⟩
    intro h
    have hmem := (h.files.mem_iff 7).mpr hlive
    rw [hlist] at hmem
    cases hmem
  · have hstep : ((sampleKernel.call sampleDisks false (.sysOpen sampleSysOpen)).bind fun k =>
        (k.call sampleDisks false (.sysClose 0 0)).map fun k' =>
          (k.halted, (k'.vfs.fileStreams 7).isSome, k'.vfs.streams)) =
            some (false, false, [7]) := by
      decide +kernel
    obtain ⟨k, hk, hrest⟩ := bind_eq_some_iff.mp hstep
    obtain ⟨k', hk', hstate⟩ := map_eq_some_iff.mp hrest
    obtain ⟨hhalted, hstate⟩ := Prod.mk.inj hstate
    obtain ⟨hdead, hlist⟩ := Prod.mk.inj hstate
    have hnone : k'.vfs.fileStreams 7 = none := by simpa using hdead
    have hfresh : Fresh sampleKernel.vfs (.sysOpen sampleSysOpen) := ⟨rfl, rfl⟩
    have hclose : Fresh k.vfs (.sysClose 0 0) := trivial
    refine ⟨k', .step (.step .start rfl hfresh trivial hk) hhalted hclose trivial hk', hnone,
      hlist, ?_⟩
    intro h
    apply h.files.not_mem hnone
    rw [hlist]
    exact List.mem_singleton_self 7

end StreamBookkeeping
