import FrostyOS.SequentialFiles
import FrostyOS.TempFileSystem

/-! # Creating inodes of the temporary file system

The six creation functions of `TempFileSystem.cpp`, with the parent as a path or as an
inode. -/
namespace TempFS

def aclExecute : ℕ := 1

/-- The access test that knows neither the user zero nor the group zero. -/
def strictPermits (owner caller : FilePrivilegeLevel) (bit : ℕ) : Bool :=
  if caller.uid = owner.uid then owner.acl &&& (bit <<< 6) ≠ 0
  else if caller.gid = owner.gid then owner.acl &&& (bit <<< 3) ≠ 0
  else owner.acl &&& bit ≠ 0

end TempFS

namespace TempFileSystem

open Errno TempFS

/-- What kind of inode is to be made; a link comes with its target. -/
inductive Kind where
  | file
  | folder
  | symLink (target : ℕ)
  deriving DecidableEq, Repr

def Kind.type : Kind → InodeType
  | .file => .file
  | .folder => .folder
  | .symLink _ => .symLink

def Kind.children : Kind → List ℕ
  | .symLink target => [target]
  | _ => []

/-- The stream functions know files and what is no file. -/
def Kind.contents : Kind → TempFS.InodeType
  | .file => .file
  | _ => .folder

def Kind.Before (n : ℕ) : Kind → Prop
  | .symLink target => target < n
  | _ => True

instance (n : ℕ) : (kind : Kind) → Decidable (kind.Before n)
  | .symLink target => inferInstanceAs (Decidable (target < n))
  | .file => isTrue trivial
  | .folder => isTrue trivial

/-- A temporary file system. Inodes have been made at the addresses below `next`, where the
next one will be, and links lead to such. -/
structure Disk (A : Type*) where
  tree : Tree TempFSInode
  blockSize : ℕ
  next : ℕ
  pages : A
  targets : ∀ a, (tree.inodes a).type = .symLink → (tree.inodes a).children.headD a < next

variable {A : Type*} (S : PageSource A) (d : Disk A)

namespace Disk

def newInode (name : Name) (parent : Option ℕ) (kind : Kind) (privilege : FilePrivilegeLevel) :
    Inode TempFSInode := ⟨name, kind.type, parent, kind.children, privilege,
    TempFSInode.create TempFSInode.clearedInode kind.contents privilege d.blockSize⟩

/-- The inode whose child list grows: a call on a link goes to its target. -/
def holder (parent : Option ℕ) : Option ℕ := parent.map d.tree.resolve

def inodesWith (name : Name) (parent : Option ℕ) (kind : Kind) (privilege : FilePrivilegeLevel)
    (a : ℕ) : Inode TempFSInode :=
  if a = d.next then d.newInode name parent kind privilege
  else if d.holder parent = some a then
    { d.tree.inodes a with children := (d.tree.inodes a).children ++ [d.next] }
  else d.tree.inodes a

def newDepth : Kind → ℕ
  | .symLink target => d.tree.linkDepth target + 1
  | _ => 0

def linkDepthWith (kind : Kind) (a : ℕ) : ℕ :=
  if a = d.next then d.newDepth kind else d.tree.linkDepth a

variable {d}

variable {name : Name} {privilege : FilePrivilegeLevel} {kind : Kind} {parent : Option ℕ} (a : ℕ)
  (contents : TempFSInode) (b : ℕ)

theorem holder_type {a : ℕ} (h : d.holder parent = some a) : (d.tree.inodes a).type ≠ .symLink := by
  obtain ⟨p, -, rfl⟩ := Option.map_eq_some_iff.mp h
  exact d.tree.type_resolve p

theorem link_cases {a : ℕ} (h : (d.inodesWith name parent kind privilege a).type = .symLink) :
    (∃ target, a = d.next ∧ kind = .symLink target ∧
      (d.inodesWith name parent kind privilege a).children.headD a = target) ∨
    (a ≠ d.next ∧ (d.tree.inodes a).type = .symLink ∧
      d.inodesWith name parent kind privilege a = d.tree.inodes a) := by
  unfold inodesWith at h ⊢
  split at h
  · next ha =>
    cases kind with
    | file => cases h
    | folder => cases h
    | symLink target =>
      refine .inl ⟨target, ha, rfl, ?_⟩
      rw [if_pos ha]
      rfl
  · next ha =>
    split at h
    · next hp => exact absurd h (holder_type hp)
    · next hp =>
      refine .inr ⟨ha, h, ?_⟩
      rw [if_neg ha, if_neg hp]

theorem inodesWith_link_lt (hkind : kind.Before d.next) (name : Name) (parent : Option ℕ)
    (privilege : FilePrivilegeLevel) (a : ℕ)
    (h : (d.inodesWith name parent kind privilege a).type = .symLink) :
    d.linkDepthWith kind ((d.inodesWith name parent kind privilege a).children.headD a) <
      d.linkDepthWith kind a := by
  rcases link_cases h with ⟨target, rfl, rfl, htarget⟩ | ⟨ha, hlink, heq⟩
  · have hne : target ≠ d.next := ne_of_lt hkind
    rw [htarget, linkDepthWith, linkDepthWith, if_neg hne, if_pos rfl]
    exact Nat.lt_succ_self _
  · have hne := ne_of_lt (d.targets a hlink)
    rw [heq, linkDepthWith, linkDepthWith, if_neg hne, if_neg ha]
    exact d.tree.link_lt a hlink

theorem inodesWith_targets (hkind : kind.Before d.next) (name : Name) (parent : Option ℕ)
    (privilege : FilePrivilegeLevel) (a : ℕ)
    (h : (d.inodesWith name parent kind privilege a).type = .symLink) :
    (d.inodesWith name parent kind privilege a).children.headD a < d.next + 1 := by
  rcases link_cases h with ⟨target, -, rfl, htarget⟩ | ⟨-, hlink, heq⟩
  · rw [htarget]
    exact Nat.lt_succ_of_lt hkind
  · rw [heq]
    exact Nat.lt_succ_of_lt (d.targets a hlink)

variable (d)

def insert (name : Name) (parent : Option ℕ) (kind : Kind) (privilege : FilePrivilegeLevel)
    (hkind : kind.Before d.next) : Disk A where
  tree :=
    { inodes := d.inodesWith name parent kind privilege
      rootInodes := if parent = none then d.tree.rootInodes ++ [d.next] else d.tree.rootInodes
      rootPrivilege := d.tree.rootPrivilege
      linkDepth := d.linkDepthWith kind
      link_lt := inodesWith_link_lt hkind name parent privilege }
  blockSize := d.blockSize
  next := d.next + 1
  pages := d.pages
  targets := inodesWith_targets hkind name parent privilege

/-- `TempFSInode::Create`. An inode that its parent does not take is lost. -/
def create (name : Name) (parent : Option ℕ) (kind : Kind) (privilege : FilePrivilegeLevel)
    (hkind : kind.Before d.next) : Disk A × ℤ :=
  if d.blockSize = 0 then (d, -einval)
  else if (d.holder parent).any fun f => (d.tree.inodes f).type ≠ .folder then (d, -enotdir)
  else (d.insert name parent kind privilege hkind, 0)

def setContentsOf (a : ℕ) (contents : TempFSInode) (b : ℕ) : Inode TempFSInode :=
  if b = a then { d.tree.inodes b with contents } else d.tree.inodes b

@[simp] theorem setContentsOf_type :
    (d.setContentsOf a contents b).type = (d.tree.inodes b).type := by
  unfold setContentsOf
  split <;> rfl

@[simp] theorem setContentsOf_children :
    (d.setContentsOf a contents b).children = (d.tree.inodes b).children := by
  unfold setContentsOf
  split <;> rfl

theorem setContentsOf_link_lt (h : (d.setContentsOf a contents b).type = .symLink) :
    d.tree.linkDepth ((d.setContentsOf a contents b).children.headD b) < d.tree.linkDepth b := by
  rw [setContentsOf_type] at h
  rw [setContentsOf_children]
  exact d.tree.link_lt b h

theorem setContentsOf_targets (h : (d.setContentsOf a contents b).type = .symLink) :
    (d.setContentsOf a contents b).children.headD b < d.next := by
  rw [setContentsOf_type] at h
  rw [setContentsOf_children]
  exact d.targets b h

def setContents (a : ℕ) (contents : TempFSInode) : Disk A :=
  { d with
    tree :=
      { d.tree with
        inodes := d.setContentsOf a contents
        link_lt := d.setContentsOf_link_lt a contents }
    targets := d.setContentsOf_targets a contents }

/-- `Expand` of the inode at `a`, which is no link. -/
def expand (a newSize : ℕ) : Disk A × ℤ :=
  match (d.tree.inodes a).contents.expand S newSize d.pages with
  | (contents, pages, rc) => ({ d.setContents a contents with pages }, rc)

/-- What follows `Create`: a file that is to have a size is expanded. -/
def expandNew (a size : ℕ) (made : Disk A × ℤ) : Disk A × ℤ :=
  if made.2 < 0 then made
  else if 0 < size then
    match made.1.expand S a size with
    | (expanded, rc) => if rc < 0 then (expanded, rc) else (expanded, 0)
  else (made.1, 0)

def privilegeOf : Option ℕ → FilePrivilegeLevel
  | none => d.tree.rootPrivilege
  | some p => (d.tree.inodes p).privilegeLevel

/-- What the creation functions share, from the parent's privilege level on. A target that
was never made has no result. -/
def createWith (test : FilePrivilegeLevel → FilePrivilegeLevel → ℕ → Bool)
    (current : FilePrivilegeLevel) (parent : Option ℕ) (name : Name) (kind : Kind) (size : ℕ)
    (inheritPermissions : Bool) (privilege : FilePrivilegeLevel) : Option (Disk A × ℤ) :=
  let parentPrivilege := d.privilegeOf parent
  if test parentPrivilege current aclWrite then
    if hkind : kind.Before d.next then
      some (expandNew S d.next size (d.create name parent kind
        (if inheritPermissions then parentPrivilege else privilege) hkind))
    else none
  else some (d, -eacces)

def createFile (current : FilePrivilegeLevel) (parent : Option ℕ) (name : Option Name)
    (size : ℕ) (inheritPermissions : Bool) (privilege : FilePrivilegeLevel) : Option (Disk A × ℤ) :=
  match name with
  | none => some (d, -efault)
  | some name => d.createWith S permits current parent name .file size inheritPermissions privilege

def createFolder (current : FilePrivilegeLevel) (parent : Option ℕ) (name : Option Name)
    (inheritPermissions : Bool) (privilege : FilePrivilegeLevel) : Option (Disk A × ℤ) :=
  match name with
  | none => some (d, -efault)
  | some name => d.createWith S permits current parent name .folder 0 inheritPermissions privilege

/-- The one function with the strict test. A link without a target is not created. -/
def createSymLink (current : FilePrivilegeLevel) (parent : Option ℕ) (name : Option Name)
    (target : Option ℕ) (inheritPermissions : Bool) (privilege : FilePrivilegeLevel) :
    Option (Disk A × ℤ) :=
  match name, target with
  | none, _ => some (d, -efault)
  | some _, none =>
    some (d, if strictPermits (d.privilegeOf parent) current aclWrite then -einval else -eacces)
  | some name, some target =>
    d.createWith S strictPermits current parent name (.symLink target) 0 inheritPermissions
      privilege

/-- `GetInode` on a path that may be null; no result means that it was not found. -/
def parentInode : Option Name → Option (Option ℕ)
  | none => some none
  | some path => (d.tree.getInode path).inode.map some

/-- Returns `false` for a parent that is not found, which is the code for success. -/
def createFileAt (current : FilePrivilegeLevel) (parent name : Option Name)
    (size : ℕ) (inheritPermissions : Bool) (privilege : FilePrivilegeLevel) : Option (Disk A × ℤ) :=
  match name, d.parentInode parent with
  | none, _ => some (d, -efault)
  | some _, none => some (d, 0)
  | some name, some parent =>
    d.createWith S permits current parent name .file size inheritPermissions privilege

def createFolderAt (current : FilePrivilegeLevel) (parent name : Option Name)
    (inheritPermissions : Bool) (privilege : FilePrivilegeLevel) : Option (Disk A × ℤ) :=
  match name, d.parentInode parent with
  | none, _ => some (d, -efault)
  | some _, none => some (d, -enoent)
  | some name, some parent =>
    d.createWith S permits current parent name .folder 0 inheritPermissions privilege

def createSymLinkAt (current : FilePrivilegeLevel) (parent name target : Option Name)
    (inheritPermissions : Bool) (privilege : FilePrivilegeLevel) : Option (Disk A × ℤ) :=
  match name, d.parentInode parent, target.bind fun path => (d.tree.getInode path).inode with
  | none, _, _ => some (d, -efault)
  | some _, none, _ => some (d, -enoent)
  | some _, some _, none => some (d, -enoent)
  | some name, some parent, some target =>
    d.createWith S permits current parent name (.symLink target) 0 inheritPermissions privilege

variable {d}

theorem create_code (hkind : kind.Before d.next) :
    (d.create name parent kind privilege hkind).2 ∈ [-einval, -enotdir, 0] := by
  unfold create
  split
  · simp
  · split <;> simp

theorem expand_code {S} (newSize : ℕ) : (d.expand S a newSize).2 ∈ [-enomem, 0] := by
  unfold expand TempFSInode.expand
  dsimp only
  cases S.allocatePages d.pages _ with
  | mk bytes pages => cases bytes <;> simp

theorem expandNew_code {S : PageSource A} {a size : ℕ} {made} (h : made.2 ∈ [-einval, -enotdir, 0])
    :
    (expandNew S a size made).2 ∈ [-einval, -enotdir, 0, -enomem] := by
  have hexpand := expand_code (d := made.1) (S := S) a size
  unfold expandNew
  split
  · exact List.mem_append_left [-enomem] h
  split
  · rcases hmade : made.1.expand S a size with ⟨expanded, rc⟩
    rw [hmade] at hexpand
    dsimp only at hexpand ⊢
    split
    · simp only [List.mem_cons, List.not_mem_nil, or_false] at hexpand ⊢
      rcases hexpand with rfl | rfl <;> simp
    · simp
  · simp

theorem createWith_refused {S : PageSource A} {test current} {size : ℕ} {inheritPermissions} :
    (∃ d', d.createWith S test current parent name kind size inheritPermissions privilege =
      some (d', -eacces)) ↔ test (d.privilegeOf parent) current aclWrite = false := by
  simp only [createWith]
  cases test _ _ _ with
  | false => simp
  | true =>
    rw [if_pos rfl]
    refine iff_of_false ?_ (by decide)
    rintro ⟨d', h⟩
    split at h
    · next hkind =>
      have hcode : (d', -eacces).2 ∈ [-einval, -enotdir, 0, -enomem] := by
        rw [← Option.some.inj h]
        exact expandNew_code (create_code hkind)
      have hnot : -eacces ∉ [-einval, -enotdir, 0, -enomem] := by decide
      exact hnot hcode
    · cases h

end Disk

end TempFileSystem
