import FrostyOS.MountPoints
import FrostyOS.ForwardRemoval

/-! # Streams of the virtual file system

File and directory streams are objects behind pointers, which the VFS registers in two lists.
The mounted file systems are behind the methods of `FileSystems`. -/
namespace VFS

open Errno TempFS
open TempFileSystem (Name)

structure Mount where
  address : ℕ
  rootInode : Option ℕ
  parent : Option ℕ
  fs : ℕ
  deriving DecidableEq, Repr

/-- The methods that the VFS and the streams call on inodes and file systems. A method
called on a link is passed on to the target, but for the privilege level and the head. -/
structure FileSystems (F : Type*) where
  getMountPoint : F → List Mount → Name → Option WorkingDirectory → Option Resolution
  getType : F → ℕ → InodeType
  getPrivilegeLevel : F → ℕ → FilePrivilegeLevel
  getSize : F → ℕ → ℕ
  getCurrentHead : F → ℕ → Head
  setCurrentHead : F → ℕ → Head → F
  openInode : F → ℕ → F × ℤ
  closeInode : F → ℕ → F × ℤ
  rewind : F → ℕ → F × ℤ
  seek : F → ℕ → ℕ → F × ℤ
  readStream : F → ℕ → FilePrivilegeLevel → List UInt8 → ℕ → Option (F × ℤ × List UInt8)
  writeStream : F → ℕ → FilePrivilegeLevel → List UInt8 → ℕ → Option (F × ℤ)
  getRootPrivilege : F → ℕ → FilePrivilegeLevel
  createFile : F → ℕ → FilePrivilegeLevel → Option ℕ → Name → ℕ → Bool →
    FilePrivilegeLevel → Option (F × ℤ)
  createFolder : F → ℕ → FilePrivilegeLevel → Option ℕ → Name → Bool →
    FilePrivilegeLevel → Option (F × ℤ)
  createSymLink : F → ℕ → FilePrivilegeLevel → Option ℕ → Name → ℕ → Bool →
    FilePrivilegeLevel → Option (F × ℤ)
  destroyFileSystem : F → ℕ → F

variable {F : Type*} (S : FileSystems F)

def asSigned (n : ℕ) : ℤ :=
  if n < 2 ^ 63 then n else n - (2 ^ 64 : ℕ)

/-- The stream is open as long as it has a head; `Close` frees it. -/
structure FileStream where
  inode : ℕ
  mountPoint : ℕ
  modes : ℕ
  privilege : FilePrivilegeLevel
  inodeState : Option Head
  deriving DecidableEq, Repr

def vfsRead : ℕ := 1

def vfsWrite : ℕ := 2

namespace FileStream

def openFile (files : F) (stream : FileStream) : F × FileStream × ℤ :=
  if stream.inodeState.isSome then (files, stream, 0)
  else if S.getType files stream.inode ≠ .file then (files, stream, -eisdir)
  else
    match S.openInode (S.setCurrentHead files stream.inode ⟨0, false, 0, 0⟩) stream.inode with
    | (files, rc) =>
      if rc < 0 then (files, stream, -enosys)
      else
        (files, { stream with inodeState := some (S.getCurrentHead files stream.inode) }, 0)

def closeFile (files : F) (stream : FileStream) : F × FileStream × ℤ :=
  match stream.inodeState with
  | none => (files, stream, 0)
  | some head =>
    if S.getType files stream.inode ≠ .file then (files, stream, -eisdir)
    else
      match S.closeInode (S.setCurrentHead files stream.inode head) stream.inode with
      | (files, rc) => (files, { stream with inodeState := none }, rc)

/-- What `Seek` and `Rewind` share: the stream's head goes into the inode and comes back.
A stream that is not open has no head to read. -/
def move (method : F → ℕ → F × ℤ) (files : F) (stream : FileStream) : Option (F × FileStream × ℤ) :=
  if S.getType files stream.inode ≠ .file then some (files, stream, -eisdir)
  else
    stream.inodeState.map fun head =>
      match method (S.setCurrentHead files stream.inode head) stream.inode with
      | (files, rc) =>
        (files, { stream with inodeState := some (S.getCurrentHead files stream.inode) },
          if rc < 0 then rc else 0)

def rewind (files : F) (stream : FileStream) : Option (F × FileStream × ℤ) :=
  stream.move S S.rewind files

def seek (files : F) (stream : FileStream) (offset : ℤ) : Option (F × FileStream × ℤ) :=
  if offset < 0 then some (files, stream, -einval)
  else stream.move S (fun files inode => S.seek files inode offset.toNat) files

/-- What `ReadStream` and `WriteStream` share, given the mode that is needed and the method of
the inode. -/
def transfer {α : Type*} (mode : ℕ) (method : F → Option (F × ℤ × α)) (files : F)
    (stream : FileStream) (count : ℤ) (unchanged : α) : Option (F × FileStream × ℤ × α) :=
  if count < 0 then some (files, stream, -einval, unchanged)
  else if stream.modes &&& mode = 0 then some (files, stream, -eacces, unchanged)
  else if S.getType files stream.inode ≠ .file then some (files, stream, -eisdir, unchanged)
  else
    stream.inodeState.bind fun head =>
      (method (S.setCurrentHead files stream.inode head)).map fun (files, rc, out) =>
        (files, { stream with inodeState := some (S.getCurrentHead files stream.inode) }, rc, out)

/-- The bytes are the caller's buffer, before and after the call. -/
def readStream (files : F) (stream : FileStream) (bytes : List UInt8) (count : ℤ) :
    Option (F × FileStream × ℤ × List UInt8) := stream.transfer S vfsRead
    (fun files => S.readStream files stream.inode stream.privilege bytes count.toNat)
    files count bytes

def writeStream (files : F) (stream : FileStream) (bytes : List UInt8) (count : ℤ) :
    Option (F × FileStream × ℤ × Unit) := stream.transfer S vfsWrite
    (fun files => (S.writeStream files stream.inode stream.privilege bytes count.toNat).map
      fun (files, rc) => (files, rc, ()))
    files count ()

def getSize (files : F) (stream : FileStream) : ℕ :=
  if S.getType files stream.inode ≠ .file then 0 else S.getSize files stream.inode

end FileStream

theorem any_not_folder_iff {S : FileSystems F} {files inode} :
    (inode.any fun x => S.getType files x ≠ .folder) ↔
      ¬ ∀ x, inode = some x → S.getType files x = .folder := by
  cases inode <;> simp

structure DirectoryStream where
  inode : Option ℕ
  privilege : FilePrivilegeLevel
  fs : ℕ
  index : ℕ
  isOpen : Bool
  deriving DecidableEq, Repr

/-- The access test of `DirectoryStream::Open`. Here it is the owner whose user identifier
is compared with zero, and no group counts as all groups. -/
def directoryPermits (owner caller : FilePrivilegeLevel) : Bool :=
  if owner.uid = caller.uid ∨ owner.uid = 0 then owner.acl &&& (aclRead <<< 6) ≠ 0
  else if owner.gid = caller.gid then owner.acl &&& (aclRead <<< 3) ≠ 0
  else owner.acl &&& aclRead ≠ 0

namespace DirectoryStream

def owner (files : F) (stream : DirectoryStream) : FilePrivilegeLevel :=
  match stream.inode with
  | some x => S.getPrivilegeLevel files x
  | none => S.getRootPrivilege files stream.fs

def openDirectory (files : F) (stream : DirectoryStream) : DirectoryStream × ℤ :=
  if stream.isOpen then (stream, 0)
  else if stream.inode.any fun x => S.getType files x ≠ .folder then (stream, -enotdir)
  else if directoryPermits (stream.owner S files) stream.privilege then
    ({ stream with index := 0, isOpen := true }, 0)
  else (stream, -eacces)

def closeDirectory (stream : DirectoryStream) : DirectoryStream × ℤ :=
  ({ stream with isOpen := false }, 0)

end DirectoryStream

structure State (F : Type*) where
  files : F
  mountPoints : List Mount
  fileStreams : ℕ → Option FileStream
  streams : List ℕ
  directories : ℕ → Option DirectoryStream
  directoryStreams : List ℕ

namespace State

variable (v : State F)

def getMountPoint (path : Name) (workingDirectory : Option WorkingDirectory) :
    Option Resolution := S.getMountPoint v.files v.mountPoints path workingDirectory

def mountedOn (inode : Option ℕ) : Option Mount := v.mountPoints.find? fun m => m.rootInode = inode

def getChildMountPoint (path : Name) (workingDirectory : Option WorkingDirectory) :
    Option Resolution :=
  (v.getMountPoint S path workingDirectory).map fun (found : Resolution) =>
    if found.mountPoint = none ∨ found.inode = none ∧ found.status ≠ (0 : ℤ) then
      failed (-einval)
    else
      match v.mountedOn found.inode with
      | none => ⟨found.mountPoint, found.inode, 0⟩
      | some m => ⟨some m.address, none, 0⟩

def isValidPath (path : Name) (workingDirectory : Option WorkingDirectory) : Option Bool :=
  (v.getMountPoint S path workingDirectory).map fun found =>
    decide (¬ (found.mountPoint = none ∨ found.inode = none ∧ found.status ≠ 0))

def mount (address : ℕ) : Option Mount := v.mountPoints.find? fun m => m.address = address

def isMountpoint (path : Name) (workingDirectory : Option WorkingDirectory) : Option Bool :=
  (v.getMountPoint S path workingDirectory).map fun found =>
    decide (path ≠ []) && found.mountPoint.any fun m =>
      (v.mount m).any fun m => decide (found.inode = m.rootInode)

/-- What the functions that create an inode share: the place, which has to be a folder or the
root of a mount, and the method of its file system. -/
def createAt (parent : Name) (create : F → ℕ → Option ℕ → Option (F × ℤ)) : Option (State F × ℤ) :=
  (v.getChildMountPoint S parent none).bind fun found =>
    match found.mountPoint.bind v.mount with
    | none => some (v, -einval)
    | some m =>
      if found.inode = none ∧ found.status ≠ (0 : ℤ) ∨
          found.inode.any fun x => S.getType v.files x ≠ .folder then
        some (v, -einval)
      else (create v.files m.fs found.inode).map fun (files, rc) => ({ v with files }, rc)

/-- A separator at the end of a name is cut off. For an empty name the byte in front of the
string is read, which is taken not to be a separator. -/
def folderName (name : Name) : Name :=
  if name.getLast? = some TempFileSystem.pathSeparator then name.dropLast else name

def createFile (current : FilePrivilegeLevel) (parent name : Name) (size : ℕ)
    (inheritPermissions : Bool) (privilege : FilePrivilegeLevel) : Option (State F × ℤ) :=
  v.createAt S parent fun files fs inode =>
    S.createFile files fs current inode name size inheritPermissions privilege

def createFolder (current : FilePrivilegeLevel) (parent name : Name)
    (inheritPermissions : Bool) (privilege : FilePrivilegeLevel) : Option (State F × ℤ) :=
  v.createAt S parent fun files fs inode =>
    S.createFolder files fs current inode (folderName name) inheritPermissions privilege

/-- The target has to be on the mount of the parent. -/
def createSymLink (current : FilePrivilegeLevel) (parent name target : Name)
    (inheritPermissions : Bool) (privilege : FilePrivilegeLevel) : Option (State F × ℤ) :=
  (v.getChildMountPoint S parent none).bind fun found =>
    (v.getMountPoint S target none).bind fun aim =>
      match aim.inode with
      | some x =>
        if found.mountPoint ≠ aim.mountPoint then some (v, -einval)
        else
          v.createAt S parent fun files fs inode =>
            S.createSymLink files fs current inode (folderName name) x inheritPermissions privilege
      | none => some (v, -einval)

/-- `new` gave `address`. A stream that cannot be opened is left as it is, neither
registered nor deleted. -/
def openStream (address : ℕ) (current : FilePrivilegeLevel) (path : Name) (modes : ℕ)
    (workingDirectory : Option WorkingDirectory) : Option (State F × Except ℤ ℕ) :=
  (v.getMountPoint S path workingDirectory).map fun found =>
    match found.mountPoint, found.inode with
    | some m, some x =>
      match FileStream.openFile S v.files ⟨x, m, modes, current, none⟩ with
      | (files, stream, rc) =>
        let v := { v with
          files, fileStreams := Function.update v.fileStreams address (some stream) }
        if rc ≠ 0 then (v, .error rc)
        else ({ v with streams := v.streams ++ [address] }, .ok address)
    | _, _ => (v, .error (-einval))

def deleteStream (address : ℕ) : Option (State F) :=
  (v.fileStreams address).map fun stream =>
    { v with
      files := (stream.closeFile S v.files).1
      fileStreams := Function.update v.fileStreams address none }

def closeStream (stream : Option ℕ) : Option (State F × ℤ) :=
  match stream with
  | none => some (v, -einval)
  | some address =>
    if address ∈ v.streams then
      ({ v with streams := v.streams.erase address }.deleteStream S address).map fun v => (v, 0)
    else some (v, -einval)

def openDirectoryStream (address : ℕ) (current : FilePrivilegeLevel) (path : Name) (modes : ℕ)
    (workingDirectory : Option WorkingDirectory) : Option (State F × Except ℤ ℕ) :=
  if modes ≠ vfsRead then some (v, .error (-einval))
  else
    (v.getMountPoint S path workingDirectory).bind fun found =>
      (v.isMountpoint S path workingDirectory).map fun atMount =>
        match found.mountPoint.bind v.mount with
        | none => (v, .error (-einval))
        | some m =>
          let inode := if atMount then none else found.inode
          match DirectoryStream.openDirectory S v.files ⟨inode, current, m.fs, 0, false⟩ with
          | (stream, rc) =>
            let v := { v with directories := Function.update v.directories address (some stream) }
            if rc ≠ 0 then (v, .error rc)
            else ({ v with directoryStreams := v.directoryStreams ++ [address] }, .ok address)

def deleteDirectoryStream (address : ℕ) : Option (State F) :=
  (v.directories address).map fun _ =>
    { v with directories := Function.update v.directories address none }

def closeDirectoryStream (stream : Option ℕ) : Option (State F × ℤ) :=
  match stream with
  | none => some (v, -einval)
  | some address =>
    if address ∈ v.directoryStreams then
      ({ v with directoryStreams := v.directoryStreams.erase address }.deleteDirectoryStream
        address).map fun v => (v, 0)
    else some (v, -einval)

end State

end VFS
