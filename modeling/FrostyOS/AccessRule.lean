import FrostyOS.RamDisk

/-! # The access rule

Ten functions test whether a caller may use an object, each with a copy of the test. They
are compared with one rule: a bit for each class of callers. -/
namespace VFS.State

open Errno TempFS
open TempFileSystem (Name)

variable {F : Type*} (S : FileSystems F) (v : State F)

/-- `Execute` up to its access test; no code means that it goes on to load the program. The
stream stays open when the test fails. -/
def executeCheck (address uid gid : ℕ) (path : Name) : Option (State F × Option ℤ) :=
  (v.isValidPath S path none).bind fun valid =>
    if valid = false then some (v, some (-enoent))
    else
      (v.openStream S address ⟨uid, gid, 0o7777⟩ path vfsRead none).bind fun
        | (v, .error status) => some (v, some status)
        | (v, .ok stream) =>
          (v.fileStreams stream).map fun stream =>
            if strictPermits (S.getPrivilegeLevel v.files stream.inode) ⟨uid, gid, 0o7777⟩
              aclExecute then (v, none)
            else (v, some (-eacces))

end VFS.State

namespace AccessRule

open Errno TempFS VFS TempFileSystem

inductive AccessClass where
  | user
  | group
  | other
  deriving DecidableEq, Repr

def AccessClass.shift : AccessClass → ℕ
  | .user => 6
  | .group => 3
  | .other => 0

def AccessClass.grants (c : AccessClass) (acl bit : ℕ) : Bool := acl &&& (bit <<< c.shift) ≠ 0

def ruleClass (owner caller : FilePrivilegeLevel) : AccessClass :=
  if caller.uid = owner.uid ∨ caller.uid = 0 then .user
  else if caller.gid = owner.gid ∨ caller.gid = 0 then .group
  else .other

def ruleGrants (owner caller : FilePrivilegeLevel) (bit : ℕ) : Bool :=
  (ruleClass owner caller).grants owner.acl bit

def strictClass (owner caller : FilePrivilegeLevel) : AccessClass :=
  if caller.uid = owner.uid then .user
  else if caller.gid = owner.gid then .group
  else .other

def directoryClass (owner caller : FilePrivilegeLevel) : AccessClass :=
  if owner.uid = caller.uid ∨ owner.uid = 0 then .user
  else if owner.gid = caller.gid then .group
  else .other

variable {name : Name} {parent : Option ℕ} {inheritPermissions : Bool}
  {privilege : FilePrivilegeLevel} (owner : FilePrivilegeLevel)

theorem permits_eq (caller : FilePrivilegeLevel) (bit : ℕ) :
    permits owner caller bit = ruleGrants owner caller bit := by
  unfold permits ruleGrants ruleClass
  split
  · rfl
  · split <;> rfl

theorem strictPermits_eq (caller : FilePrivilegeLevel) (bit : ℕ) :
    strictPermits owner caller bit = (strictClass owner caller).grants owner.acl bit := by
  unfold strictPermits strictClass
  split
  · rfl
  · split <;> rfl

theorem directoryPermits_eq (caller : FilePrivilegeLevel) :
    directoryPermits owner caller = (directoryClass owner caller).grants owner.acl aclRead := by
  unfold directoryPermits directoryClass
  split
  · rfl
  · split <;> rfl

theorem AccessClass.eq_of_grants {c c' : AccessClass} {bit : ℕ} (hbit : bit ∈ [1, 2, 4])
    (h : ∀ acl, c.grants acl bit = c'.grants acl bit) : c = c' := by
  have hall : ∀ bit ∈ [1, 2, 4], ∀ c c' : AccessClass,
      c.grants (bit <<< c.shift) bit = c'.grants (bit <<< c.shift) bit → c = c' := by
    intro bit hbit c c'
    revert bit
    cases c <;> cases c' <;> decide
  exact hall bit hbit c c' (h _)

/-- Of a caller who is not the owner the rule looks at another class than the strict test if
one of the caller's identifiers is zero. -/
theorem strictClass_eq_iff (caller : FilePrivilegeLevel) :
    strictClass owner caller = ruleClass owner caller ↔
      caller.uid = owner.uid ∨ caller.uid ≠ 0 ∧ (caller.gid = owner.gid ∨ caller.gid ≠ 0) := by
  unfold strictClass ruleClass
  by_cases huid : caller.uid = owner.uid
  · simp [huid]
  by_cases hroot : caller.uid = 0
  · rw [if_neg huid, if_pos (.inr hroot : caller.uid = owner.uid ∨ caller.uid = 0)]
    refine iff_of_false ?_ ?_
    · split <;> decide
    · rintro (h | ⟨h, -⟩)
      · exact huid h
      · exact h hroot
  · rw [if_neg huid, if_neg (not_or.mpr ⟨huid, hroot⟩)]
    by_cases hgid : caller.gid = owner.gid <;> by_cases hzero : caller.gid = 0 <;>
      simp [huid, hroot, hgid, hzero]

theorem directoryClass_eq_iff (caller : FilePrivilegeLevel) :
    directoryClass owner caller = ruleClass owner caller ↔
      caller.uid = owner.uid ∨ caller.uid ≠ 0 ∧ owner.uid ≠ 0 ∧
        (caller.gid = owner.gid ∨ caller.gid ≠ 0) := by
  by_cases huid : caller.uid = owner.uid
  · simp [directoryClass, ruleClass, huid]
  by_cases howner : owner.uid = 0
  · have hroot : caller.uid ≠ 0 := fun h => huid (h.trans howner.symm)
    have hrule : ruleClass owner caller ≠ .user := by
      rw [ruleClass, if_neg (not_or.mpr ⟨huid, hroot⟩)]
      split <;> decide
    rw [directoryClass, if_pos (.inr howner)]
    refine iff_of_false hrule.symm ?_
    rintro (h | ⟨-, h, -⟩)
    · exact huid h
    · exact h howner
  · have hstrict : directoryClass owner caller = strictClass owner caller := by
      simp only [directoryClass, strictClass, howner, or_false, eq_comm]
    rw [hstrict, strictClass_eq_iff]
    simp [howner]

inductive Gate where
  | readStream
  | writeStream
  | createFile
  | createFileAt
  | createFolder
  | createFolderAt
  | createSymLink
  | createSymLinkAt
  | openDirectory
  | execute
  deriving DecidableEq, Repr

def OwnedBy (uid gid : ℕ) (owner : FilePrivilegeLevel) : Prop := owner.uid = uid ∧ owner.gid = gid

/-- In every call that gets as far as the test, on every object of the owner, whatever its
access list is, the caller is refused exactly when the rule does not grant the bit. -/
def Gate.Obeys (uid gid : ℕ) (caller : FilePrivilegeLevel) : Gate → Prop
  | .readStream => ∀ (node : TempFSInode) (bytes : List UInt8) (count : ℤ),
      node.isOpen = true → node.type = .file → count ≠ 0 → OwnedBy uid gid node.privilegeLevel →
      ((∃ out, node.readStream caller (some bytes) count = some out ∧ out.value = -eacces) ↔
        ruleGrants node.privilegeLevel caller aclRead = false)
  | .writeStream => ∀ (A : Type) (S : PageSource A) (a : A) (node : TempFSInode)
      (bytes : List UInt8) (count : ℤ), node.isOpen = true → node.type = .file → count ≠ 0 →
      OwnedBy uid gid node.privilegeLevel →
      ((∃ out, node.writeStream S caller (some bytes) count a = some out ∧
        out.value = -eacces) ↔ ruleGrants node.privilegeLevel caller aclWrite = false)
  | .createFile => ∀ (A : Type) (S : PageSource A) (d : Disk A) (parent : Option ℕ) (name : Name)
      (size : ℕ) (inheritPermissions : Bool) (privilege : FilePrivilegeLevel),
      OwnedBy uid gid (d.privilegeOf parent) →
      ((∃ d', d.createFile S caller parent (some name) size inheritPermissions privilege =
        some (d', -eacces)) ↔ ruleGrants (d.privilegeOf parent) caller aclWrite = false)
  | .createFileAt => ∀ (A : Type) (S : PageSource A) (d : Disk A) (path : Option Name)
      (parent : Option ℕ) (name : Name) (size : ℕ) (inheritPermissions : Bool)
      (privilege : FilePrivilegeLevel), d.parentInode path = some parent →
      OwnedBy uid gid (d.privilegeOf parent) →
      ((∃ d', d.createFileAt S caller path (some name) size inheritPermissions privilege =
        some (d', -eacces)) ↔ ruleGrants (d.privilegeOf parent) caller aclWrite = false)
  | .createFolder => ∀ (A : Type) (S : PageSource A) (d : Disk A) (parent : Option ℕ)
      (name : Name) (inheritPermissions : Bool) (privilege : FilePrivilegeLevel),
      OwnedBy uid gid (d.privilegeOf parent) →
      ((∃ d', d.createFolder S caller parent (some name) inheritPermissions privilege =
        some (d', -eacces)) ↔ ruleGrants (d.privilegeOf parent) caller aclWrite = false)
  | .createFolderAt => ∀ (A : Type) (S : PageSource A) (d : Disk A) (path : Option Name)
      (parent : Option ℕ) (name : Name) (inheritPermissions : Bool)
      (privilege : FilePrivilegeLevel), d.parentInode path = some parent →
      OwnedBy uid gid (d.privilegeOf parent) →
      ((∃ d', d.createFolderAt S caller path (some name) inheritPermissions privilege =
        some (d', -eacces)) ↔ ruleGrants (d.privilegeOf parent) caller aclWrite = false)
  | .createSymLink => ∀ (A : Type) (S : PageSource A) (d : Disk A) (parent : Option ℕ)
      (name : Name) (target : Option ℕ) (inheritPermissions : Bool)
      (privilege : FilePrivilegeLevel), OwnedBy uid gid (d.privilegeOf parent) →
      ((∃ d', d.createSymLink S caller parent (some name) target inheritPermissions privilege =
        some (d', -eacces)) ↔ ruleGrants (d.privilegeOf parent) caller aclWrite = false)
  | .createSymLinkAt => ∀ (A : Type) (S : PageSource A) (d : Disk A) (path : Option Name)
      (parent : Option ℕ) (name target : Name) (inode : ℕ) (inheritPermissions : Bool)
      (privilege : FilePrivilegeLevel), d.parentInode path = some parent →
      (d.tree.getInode target).inode = some inode → OwnedBy uid gid (d.privilegeOf parent) →
      ((∃ d', d.createSymLinkAt S caller path (some name) (some target) inheritPermissions
        privilege = some (d', -eacces)) ↔ ruleGrants (d.privilegeOf parent) caller aclWrite = false)
  | .openDirectory => ∀ (F : Type) (S : FileSystems F) (files : F) (stream : DirectoryStream),
      stream.isOpen = false → (∀ x, stream.inode = some x → S.getType files x = .folder) →
      stream.privilege = caller → OwnedBy uid gid (stream.owner S files) →
      ((stream.openDirectory S files).2 = -eacces ↔
        ruleGrants (stream.owner S files) caller aclRead = false)
  | .execute => ∀ (F : Type) (S : FileSystems F) (v v' : VFS.State F) (address : ℕ) (path : Name)
      (stream : FileStream), v.isValidPath S path none = some true →
      v.openStream S address ⟨caller.uid, caller.gid, 0o7777⟩ path vfsRead none =
        some (v', .ok address) → v'.fileStreams address = some stream →
      OwnedBy uid gid (S.getPrivilegeLevel v'.files stream.inode) →
      ((∃ w, v.executeCheck S address caller.uid caller.gid path = some (w, some (-eacces))) ↔
        ruleGrants (S.getPrivilegeLevel v'.files stream.inode) caller aclExecute = false)

variable {uid gid : ℕ} {caller : FilePrivilegeLevel}

theorem finish_value_nonneg {E : Type*} (count : ℤ) (exit : Exit E) :
    0 ≤ (TempFSInode.finish count exit).value := by
  unfold TempFSInode.finish
  split <;> exact Int.natCast_nonneg _

theorem refused_iff {E : Type*} {node : TempFSInode} {bit : ℕ} {bytes : List UInt8} {count : ℤ}
    (hopen : node.isOpen) (htype : node.type = .file) (hcount : count ≠ 0)
    {refused : ℤ → Outcome E} (hrefused : ∀ rc, (refused rc).value = rc)
    {loop : Option (Exit E)} {result : Option (Outcome E)}
    (hresult : result = match node.refusal caller bit (some bytes) count with
      | some rc => some (refused rc)
      | none => loop.map (TempFSInode.finish count)) :
    (∃ out, result = some out ∧ out.value = -eacces) ↔
      ruleGrants node.privilegeLevel caller bit = false := by
  rw [hresult, TempFSInode.refusal, if_neg (by simp [hopen]), if_neg (by simp [htype]),
    if_neg (by simp [hcount]), permits_eq]
  cases ruleGrants _ _ _ with
  | false => simp [hrefused]
  | true =>
    refine iff_of_false ?_ (by decide)
    rintro ⟨out, hout, hvalue⟩
    obtain ⟨exit, -, rfl⟩ := Option.map_eq_some_iff.mp hout
    have hnonneg := finish_value_nonneg count exit
    rw [hvalue] at hnonneg
    exact absurd hnonneg (by decide)

theorem readStream_obeys : Gate.Obeys uid gid caller .readStream := by
  intro node bytes count hopen htype hcount _
  exact refused_iff hopen htype hcount (fun _ => rfl) rfl

theorem writeStream_obeys : Gate.Obeys uid gid caller .writeStream := by
  intro A S a node bytes count hopen htype hcount _
  exact refused_iff hopen htype hcount (fun _ => rfl) rfl

theorem createWith_obeys {A : Type} {S : PageSource A} {d : Disk A} {kind} {size : ℕ} :
    (∃ d', d.createWith S permits caller parent name kind size inheritPermissions privilege =
      some (d', -eacces)) ↔ ruleGrants (d.privilegeOf parent) caller aclWrite = false := by
  rw [Disk.createWith_refused, permits_eq]

theorem createFile_obeys : Gate.Obeys uid gid caller .createFile := by
  intro A S d parent name size inheritPermissions privilege _
  exact createWith_obeys

theorem createFileAt_obeys : Gate.Obeys uid gid caller .createFileAt := by
  intro A S d path parent name size inheritPermissions privilege hparent _
  simp only [Disk.createFileAt, hparent]
  exact createWith_obeys

theorem createFolder_obeys : Gate.Obeys uid gid caller .createFolder := by
  intro A S d parent name inheritPermissions privilege _
  exact createWith_obeys

theorem createFolderAt_obeys : Gate.Obeys uid gid caller .createFolderAt := by
  intro A S d path parent name inheritPermissions privilege hparent _
  simp only [Disk.createFolderAt, hparent]
  exact createWith_obeys

theorem createSymLinkAt_obeys : Gate.Obeys uid gid caller .createSymLinkAt := by
  intro A S d path parent name target inode inheritPermissions privilege hparent htarget _
  simp only [Disk.createSymLinkAt, hparent, Option.bind_some, htarget]
  exact createWith_obeys

theorem createSymLink_refused {A : Type} {S : PageSource A} {d : Disk A} {target} :
    (∃ d', d.createSymLink S caller parent (some name) target inheritPermissions privilege =
      some (d', -eacces)) ↔ strictPermits (d.privilegeOf parent) caller aclWrite = false := by
  cases target with
  | some target => exact Disk.createWith_refused
  | none =>
    rw [Disk.createSymLink]
    cases strictPermits _ _ _ with
    | false => simp
    | true =>
      have hne : -einval ≠ -eacces := by decide
      simp [hne]

theorem openDirectory_refused {F : Type} {S : FileSystems F} {files : F}
    {stream : DirectoryStream} (hclosed : stream.isOpen = false)
    (hfolder : ∀ x, stream.inode = some x → S.getType files x = .folder) :
    (stream.openDirectory S files).2 = -eacces ↔
      directoryPermits (stream.owner S files) stream.privilege = false := by
  have hany : ¬ (stream.inode.any fun x => S.getType files x ≠ .folder) :=
    fun h => any_not_folder_iff.mp h hfolder
  rw [DirectoryStream.openDirectory, if_neg (by simp [hclosed]), if_neg hany]
  cases directoryPermits _ _ with
  | false => simp
  | true =>
    have hne : (0 : ℤ) ≠ -eacces := by decide
    simp [hne]

theorem executeCheck_refused {F : Type} {S : FileSystems F} {v v' : VFS.State F} {address : ℕ}
    {path stream} (hvalid : v.isValidPath S path none = some true)
    (hopen : v.openStream S address ⟨caller.uid, caller.gid, 0o7777⟩ path vfsRead none =
      some (v', .ok address)) (hstream : v'.fileStreams address = some stream) :
    (∃ w, v.executeCheck S address caller.uid caller.gid path = some (w, some (-eacces))) ↔
      strictPermits (S.getPrivilegeLevel v'.files stream.inode) caller aclExecute = false := by
  have hsame : strictPermits (S.getPrivilegeLevel v'.files stream.inode)
      ⟨caller.uid, caller.gid, 0o7777⟩ aclExecute =
        strictPermits (S.getPrivilegeLevel v'.files stream.inode) caller aclExecute := rfl
  rw [VFS.State.executeCheck, hvalid, Option.bind_some, if_neg (by decide), hopen, Option.bind_some]
  dsimp only
  rw [hstream, Option.map_some, hsame]
  cases strictPermits (S.getPrivilegeLevel v'.files stream.inode) caller aclExecute <;> simp

def ownedInodes (owner : FilePrivilegeLevel) (_ : ℕ) : Inode TempFSInode :=
  ⟨['f'], .file, none, [], owner, TempFSInode.create TempFSInode.clearedInode .file owner 4096⟩

theorem ownedInodes_type (a : ℕ) : (ownedInodes owner a).type ≠ .symLink := InodeType.noConfusion

def ownedDisk (owner : FilePrivilegeLevel) : Disk Unit where
  tree :=
    { inodes := ownedInodes owner
      rootInodes := [0]
      rootPrivilege := owner
      linkDepth := fun _ => 0
      link_lt := fun a h => absurd h (ownedInodes_type owner a) }
  blockSize := 4096
  next := 1
  pages := ()
  targets := fun a h => absurd h (ownedInodes_type owner a)

theorem eq_of_refused_iff {a b} (h : a = false ↔ b = false) : a = b := by
  cases a
  · exact (h.mp rfl).symm
  · cases b
    · exact h.mpr rfl
    · rfl

theorem grants_eq_of_class {owner : FilePrivilegeLevel}
    {choice : FilePrivilegeLevel → FilePrivilegeLevel → AccessClass}
    (hchoice : choice owner caller = choice ⟨owner.uid, owner.gid, 0⟩ caller)
    (howner : OwnedBy uid gid owner)
    (h : choice ⟨uid, gid, 0⟩ caller = ruleClass ⟨uid, gid, 0⟩ caller) (bit : ℕ) :
    (choice owner caller).grants owner.acl bit = ruleGrants owner caller bit := by
  obtain ⟨rfl, rfl⟩ := howner
  rw [hchoice, h]
  rfl

theorem createSymLink_obeys_iff : Gate.Obeys uid gid caller .createSymLink ↔
    strictClass ⟨uid, gid, 0⟩ caller = ruleClass ⟨uid, gid, 0⟩ caller := by
  constructor
  · intro h
    have hbit : aclWrite ∈ [1, 2, 4] := by decide
    apply AccessClass.eq_of_grants hbit
    intro acl
    have hgate := h Unit TempFSInode.zeroPages (ownedDisk ⟨uid, gid, acl⟩) none ['l'] (some 0)
      false ⟨uid, gid, acl⟩ ⟨rfl, rfl⟩
    rw [createSymLink_refused, strictPermits_eq] at hgate
    exact eq_of_refused_iff hgate
  · intro h A S d parent name target inheritPermissions privilege howner
    rw [createSymLink_refused, strictPermits_eq, grants_eq_of_class rfl howner h]

theorem openDirectory_obeys_iff : Gate.Obeys uid gid caller .openDirectory ↔
    directoryClass ⟨uid, gid, 0⟩ caller = ruleClass ⟨uid, gid, 0⟩ caller := by
  constructor
  · intro h
    have hbit : aclRead ∈ [1, 2, 4] := by decide
    have hfolder : ∀ files x, (none : Option ℕ) = some x →
        (Disk.systems TempFSInode.zeroPages).getType files x = .folder := by
      intro files x hx
      cases hx
    apply AccessClass.eq_of_grants hbit
    intro acl
    have hgate := h (Disk Unit) (Disk.systems TempFSInode.zeroPages) (ownedDisk ⟨uid, gid, acl⟩)
      ⟨none, caller, 0, 0, false⟩ rfl (hfolder _) rfl ⟨rfl, rfl⟩
    rw [openDirectory_refused rfl (hfolder _), directoryPermits_eq] at hgate
    exact eq_of_refused_iff hgate
  · intro h F S files stream hclosed hfolder hcaller howner
    rw [openDirectory_refused hclosed hfolder, hcaller, directoryPermits_eq,
      grants_eq_of_class rfl howner h]

theorem execute_obeys (h : strictClass ⟨uid, gid, 0⟩ caller = ruleClass ⟨uid, gid, 0⟩ caller) :
    Gate.Obeys uid gid caller .execute := by
  intro F S v v' address path stream hvalid hopen hstream howner
  rw [executeCheck_refused hvalid hopen hstream, strictPermits_eq, grants_eq_of_class rfl howner h]

/-- All ten functions follow the rule for the caller and the owner exactly when the caller is
the owner, or neither of the two is user zero and the caller's group, where it is not the
owner's, is not zero. -/
theorem gates_obey_iff (caller : FilePrivilegeLevel) (uid gid : ℕ) :
    (∀ gate, Gate.Obeys uid gid caller gate) ↔
      caller.uid = uid ∨ caller.uid ≠ 0 ∧ uid ≠ 0 ∧ (caller.gid = gid ∨ caller.gid ≠ 0) := by
  have hdirectory := directoryClass_eq_iff ⟨uid, gid, 0⟩ caller
  constructor
  · intro h
    exact hdirectory.mp (openDirectory_obeys_iff.mp (h .openDirectory))
  · intro h
    have hstrict : strictClass ⟨uid, gid, 0⟩ caller = ruleClass ⟨uid, gid, 0⟩ caller := by
      apply (strictClass_eq_iff ⟨uid, gid, 0⟩ caller).mpr
      rcases h with h | ⟨hcaller, -, hgid⟩
      · exact .inl h
      · exact .inr ⟨hcaller, hgid⟩
    intro gate
    cases gate with
    | readStream => exact readStream_obeys
    | writeStream => exact writeStream_obeys
    | createFile => exact createFile_obeys
    | createFileAt => exact createFileAt_obeys
    | createFolder => exact createFolder_obeys
    | createFolderAt => exact createFolderAt_obeys
    | createSymLink => exact createSymLink_obeys_iff.mpr hstrict
    | createSymLinkAt => exact createSymLinkAt_obeys
    | openDirectory => exact openDirectory_obeys_iff.mpr (hdirectory.mpr h)
    | execute => exact execute_obeys hstrict

/-- A user who is neither the owner nor in the group opens a directory of user zero that is
closed to all others; user zero may not link into a folder of another user that only its
owner may write to. -/
theorem root_directory_open_to_all :
    (DirectoryStream.openDirectory (Disk.systems TempFSInode.zeroPages) (ownedDisk ⟨0, 0, 0o700⟩)
      ⟨none, ⟨1, 1, 0⟩, 0, 0, false⟩).2 = 0 ∧ ruleGrants ⟨0, 0, 0o700⟩ ⟨1, 1, 0⟩ aclRead = false ∧
    ((ownedDisk ⟨1, 1, 0o700⟩).createSymLink TempFSInode.zeroPages ⟨0, 0, 0⟩ none (some ['l'])
      (some 0) false ⟨0, 0, 0⟩).map Prod.snd = some (-eacces) ∧
    ruleGrants ⟨1, 1, 0o700⟩ ⟨0, 0, 0⟩ aclWrite = true ∧
    ¬ ∀ gate, Gate.Obeys 0 0 ⟨1, 1, 0⟩ gate := by
  refine ⟨by decide +kernel, by decide +kernel, by decide +kernel, by decide +kernel, ?_⟩
  intro h
  exact absurd (openDirectory_obeys_iff.mp (h .openDirectory)) (by decide)

end AccessRule
