import FrostyOS.ArchiveHeaders

/-! # Loading an archive

Each entry is loaded or stops the loader, and so the whole archive. -/
namespace InitRAMFS

open Errno TempFS VFS MachineWord List
open TempFileSystem (Name Disk)

variable {A : Type} {T : PageSource A} {d : Disk A} {es : List Entry} {e : Entry} {p : Option ℕ}

/-- The owner's bit of the mode. The loader is user zero, whom the access test always takes
for the owner. -/
def Entry.OwnerHas (e : Entry) (bit : ℕ) : Prop := e.privilege.acl &&& (bit <<< 6) ≠ 0

theorem permits_loader (owner : FilePrivilegeLevel) (bit : ℕ) :
    permits owner loader bit ↔ owner.acl &&& (bit <<< 6) ≠ 0 := by
  have hroot : loader.uid = owner.uid ∨ loader.uid = 0 := .inr rfl
  rw [permits, if_pos hroot, decide_eq_true_eq]

/-- The folder that the entry is in, if it is not the root, lets its owner write. -/
def Entry.MayEnter (e : Entry) (es : List Entry) : Prop :=
  ∀ f ∈ es, f.path = e.parent → f.OwnerHas aclWrite

section

variable (h : Shape d es)

include h

theorem Shape.permits_parent (hwf : WellFormed (es ++ [e])) (hp : ParentOf es e p) :
    permits (d.privilegeOf p) loader aclWrite ↔ e.MayEnter es := by
  cases p with
  | none =>
    have hroot : e.parent = [] := hp
    have hprivilege : d.privilegeOf none = ⟨0, 0, 0o755⟩ := h.rootPrivilege
    rw [hprivilege]
    refine iff_of_true (by decide) ?_
    intro f hf hpath
    exact absurd (hpath.trans hroot) (hwf.front.path_ne_nil f hf)
  | some j =>
    obtain ⟨f, hf, hpath, -⟩ := hp
    have hprivilege : d.privilegeOf (some j) = f.privilege := (h.entry hf).privilege
    rw [hprivilege, permits_loader]
    constructor
    · intro hwrite g hg hgpath
      obtain ⟨k, hk⟩ := mem_iff_getElem?.mp hg
      obtain rfl := hwf.front.index_unique hf hk (hpath.trans hgpath.symm)
      cases hf.symm.trans hk
      exact hwrite
    · intro hall
      exact hall f (mem_of_getElem? hf) hpath

theorem Shape.getChildMountPoint (hwf : WellFormed (es ++ [e])) (hp : ParentOf es e p) :
    d.mounted.getChildMountPoint (Disk.systems T) e.parentName none = some ⟨some 0, p, 0⟩ := by
  cases p with
  | none =>
    have hroot : e.parent = [] := hp
    rw [Entry.parentName, if_pos hroot]
    rfl
  | some j =>
    obtain ⟨f, hf, hpath, -⟩ := hp
    have hne : e.parent ≠ [] := hpath ▸ hwf.front.path_ne_nil f (mem_of_getElem? hf)
    have hlookup : d.mounted.getMountPoint (Disk.systems T) (Disk.joined (e.parent.map toName))
        none = some ⟨some 0, some j, 0⟩ := by
      rw [← hpath]
      exact h.lookup hwf.front hf
    rw [Entry.parentName, if_neg hne, State.getChildMountPoint, hlookup]
    rfl

theorem Shape.createAt (hwf : WellFormed (es ++ [e])) (hp : ParentOf es e p)
    (create : Disk A → ℕ → Option ℕ → Option (Disk A × ℤ)) :
    d.mounted.createAt (Disk.systems T) e.parentName create =
      (create d 0 p).map fun (files, rc) => (files.mounted, rc) := by
  have htype : ∀ x, p = some x → (Disk.systems T).getType d x = .folder := by
    rintro j rfl
    obtain ⟨f, hf, -, hfolder⟩ := hp
    have hresolved : (d.tree.inodes (d.tree.resolve j)).type = .folder := by
      rw [h.resolve, (h.entry hf).type, f.kind_folder hfolder]
      rfl
    change (if _ = _ then _ else _) = _
    rw [hresolved]
    rfl
  rw [State.createAt, h.getChildMountPoint hwf hp]
  change (if _ ∨ _ then _ else _) = _
  rw [if_neg]
  · rfl
  · rintro (⟨-, hstatus⟩ | hany)
    · exact hstatus rfl
    · exact any_not_folder_iff.mp hany htype

theorem Shape.create (hp : ParentOf es e p) (hbefore : e.kind.Before d.next) :
    d.create (toName e.name) p e.kind e.privilege hbefore =
      (d.insert (toName e.name) p e.kind e.privilege hbefore, 0) := by
  have hblock : d.blockSize ≠ 0 := by
    rw [h.blockSize]
    decide
  have hholder : ¬ ((d.holder p).any fun f => (d.tree.inodes f).type ≠ .folder) := by
    cases p with
    | none => simp [Disk.holder]
    | some j =>
      obtain ⟨f, hf, -, hfolder⟩ := hp
      have htype : (d.tree.inodes j).type = .folder := by
        rw [(h.entry hf).type, f.kind_folder hfolder]
        rfl
      have hresolved : d.holder (some j) = some j := congrArg some (h.resolve j)
      simp [hresolved, htype]
  rw [Disk.create, if_neg hblock, if_neg hholder]

theorem Shape.createWith_refused (hwf : WellFormed (es ++ [e]))
    (hp : ParentOf es e p) (hno : ¬ e.MayEnter es) (size : ℕ) :
    d.createWith T permits loader p (toName e.name) e.kind size false e.privilege =
      some (d, -eacces) := by
  rw [← h.permits_parent hwf hp] at hno
  rw [Disk.createWith]
  exact if_neg hno

theorem Shape.createWith_entered (hwf : WellFormed (es ++ [e]))
    (hp : ParentOf es e p) (henter : e.MayEnter es) (size : ℕ) :
    d.createWith T permits loader p (toName e.name) e.kind size false e.privilege =
      some (Disk.expandNew T d.next size
        (d.insert (toName e.name) p e.kind e.privilege (e.kind_before d.next), 0)) := by
  rw [← h.permits_parent hwf hp] at henter
  rw [Disk.createWith, if_pos henter, dif_pos _]
  congr 2
  exact h.create hp _

end

/-- The file can be filled: it is empty, or it does not end at the end of a page and its owner
may write and read it. -/
def Entry.MayFill (e : Entry) : Prop :=
  e.data = [] ∨ ¬ pageSize ∣ e.data.length ∧ e.OwnerHas aclWrite ∧ e.OwnerHas aclRead

instance (e : Entry) (bit : ℕ) : Decidable (e.OwnerHas bit) := inferInstanceAs (Decidable (_ ≠ _))

instance (e : Entry) : Decidable e.MayFill := inferInstanceAs (Decidable (_ ∨ _))

/-- After the entries `es` the entry is loaded. -/
def Entry.Accepted (e : Entry) (es : List Entry) : Prop :=
  e.MayEnter es ∧ (e.isFolder = false → e.MayFill)

structure Holds (d : Disk A) (es : List Entry) : Prop where
  shape : Shape d es
  stores : ∀ i f, es[i]? = some f → Stores (d.tree.inodes i).contents f

theorem Holds.insert (h : Holds d es) {d' : Disk A} (hshape : Shape d' (es ++ [e]))
    (hold : ∀ i ≠ es.length, (d'.tree.inodes i).contents = (d.tree.inodes i).contents)
    (hnew : Stores (d'.tree.inodes es.length).contents e) : Holds d' (es ++ [e]) where
  shape := hshape
  stores i f hf := by
    rcases getElem?_append_last hf with ⟨rfl, rfl⟩ | ⟨hi, hf⟩
    · exact hnew
    · rw [hold i hi]
      exact h.stores i f hf

theorem Shape.contents_old (h : Shape d es) (hbefore : e.kind.Before d.next) {i : ℕ}
    (hi : i ≠ es.length) :
    ((d.insert (toName e.name) p e.kind e.privilege hbefore).tree.inodes i).contents =
      (d.tree.inodes i).contents := by
  rw [h.inodes_old hbefore hi]
  split <;> rfl

theorem Shape.type_new (h : Shape d es) (hwf : WellFormed (es ++ [e])) (hp : ParentOf es e p)
    (hfile : e.isFolder = false) :
    ((d.insert (toName e.name) p e.kind e.privilege (e.kind_before d.next)).tree.inodes
      es.length).type = .file := by
  rw [((h.insert hwf hp _).entry (e := e) (by simp)).type, e.kind_file hfile]
  rfl

theorem folderName_toName {w} (h : IsName w) : State.folderName (toName w) = toName w := by
  rw [State.folderName, if_neg]
  intro hlast
  exact h.no_pathSeparator (mem_of_getLast? hlast)

theorem WellFormed.isName (hwf : WellFormed (es ++ [e])) : IsName e.name := by
  have hmem : e ∈ es ++ [e] := by simp
  exact e.isName (hwf.path_ne_nil e hmem) (hwf.names e hmem)

theorem Shape.createFile (h : Shape d es) (hwf : WellFormed (es ++ [e])) (hp : ParentOf es e p)
    (hfile : e.isFolder = false) (size : ℕ) :
    d.mounted.createFile (Disk.systems T) loader e.parentName (toName e.name) size false
        e.privilege =
      (d.createWith T permits loader p (toName e.name) e.kind size false e.privilege).map
        fun (files, rc) => (files.mounted, rc) := by
  rw [State.createFile, h.createAt hwf hp, e.kind_file hfile]
  rfl

theorem Shape.createFolder (h : Shape d es) (hwf : WellFormed (es ++ [e])) (hp : ParentOf es e p)
    (hfolder : e.isFolder) :
    d.mounted.createFolder (Disk.systems T) loader e.parentName (toName e.name) false
        e.privilege =
      (d.createWith T permits loader p (toName e.name) e.kind 0 false e.privilege).map
        fun (files, rc) => (files.mounted, rc) := by
  rw [State.createFolder, h.createAt hwf hp, folderName_toName hwf.isName, e.kind_folder hfolder]
  rfl

/-- The loader has taken the entries in, if it may, and has stopped otherwise. -/
inductive Ends (ok : Prop) (es : List Entry) : Result (VFS.State (Disk A)) → Prop where
  | done (hok : ok) {d : Disk A} (h : Holds d es) : Ends ok es (.done d.mounted)
  | assertion (hno : ¬ ok) : Ends ok es .assertion

section Ends

variable (h : Holds d es) (hwf : WellFormed (es ++ [e]))

include h hwf

theorem Holds.inserted (hp : ParentOf es e p) (hempty : e.isFolder = false → e.data = []) :
    Holds (d.insert (toName e.name) p e.kind e.privilege (e.kind_before d.next)) (es ++ [e]) := by
  have hbefore := e.kind_before d.next
  apply h.insert (h.shape.insert hwf hp hbefore)
  · intro i hi
    exact h.shape.contents_old hbefore hi
  · intro hfile
    rw [h.shape.inodes_new, hempty hfile]
    exact ⟨rfl, rfl⟩

theorem loadFolder_ends (hfolder : e.isFolder) : Ends (e.MayEnter es) (es ++ [e])
    (loadFolder (Disk.systems T) d.mounted e.parentName (toName e.name) e.privilege) := by
  obtain ⟨p, hp⟩ := hwf.parentOf
  have hcode : ¬ -eacces = 0 := by decide
  rw [loadFolder, h.shape.createFolder hwf hp hfolder]
  by_cases henter : e.MayEnter es
  · rw [h.shape.createWith_entered hwf hp henter]
    apply Ends.done henter (h.inserted hwf hp _)
    intro hfile
    rw [hfolder] at hfile
    cases hfile
  · rw [h.shape.createWith_refused hwf hp henter]
    simpa [hcode] using Ends.assertion henter

theorem loadFile_created (hS : T.Supplies) (hfile : e.isFolder = false) (henter : e.MayEnter es)
    (hne : e.data ≠ []) (hlen : e.data.length < 2 ^ 63) (hp : ParentOf es e p) (address : ℕ) :
    ∃ f : Disk.OneFile A,
      f.disk = d.insert (toName e.name) p e.kind e.privilege (e.kind_before d.next) ∧
      f.inode = es.length ∧ f.owner = e.privilege ∧
      f.block.size = alignUp e.data.length pageSize ∧ f.block.bytes.length = f.block.size ∧
      loadFile (Disk.systems T) d.mounted address e.parentName (toName e.name)
          (Disk.joined e.names) e.data.length e.privilege e.data =
        fill (Disk.systems T) (f.opened address 0 e.data.length) address (f.stream 0 0) e.data
          e.data.length := by
  have hbefore := e.kind_before d.next
  have hpos : 0 < e.data.length := length_pos_iff.mpr hne
  obtain ⟨block, pages, hsize, hbytes, hexpand⟩ := TempFSInode.expand_empty
    (.create .clearedInode .file e.privilege pageSize) hS rfl rfl (Nat.dvd_refl _)
    (by decide : 0 < pageSize) (by decide : pageSize ≤ 2 ^ 63) hlen d.pages
  refine ⟨⟨_, es.length, e.privilege, block, pages, h.shape.type_new hwf hp hfile⟩, rfl, rfl, rfl,
    hsize, hbytes, ?_⟩
  have hnew : ((d.insert (toName e.name) p e.kind e.privilege hbefore).tree.inodes
      es.length).contents = .create .clearedInode .file e.privilege pageSize := by
    rw [h.shape.inodes_new, ← h.shape.blockSize]
    change TempFSInode.create _ e.kind.contents _ _ = _
    rw [e.kind_file hfile]
    rfl
  have hexpanded : (d.insert (toName e.name) p e.kind e.privilege hbefore).expand T es.length
      e.data.length = ((d.insert (toName e.name) p e.kind e.privilege hbefore).put es.length
          (TempFSInode.filled e.privilege pageSize false block e.data.length 0) pages, 0) := by
    have hpages : (d.insert (toName e.name) p e.kind e.privilege hbefore).pages = d.pages := rfl
    rw [Disk.expand, hnew, hpages, hexpand]
    rfl
  apply Disk.OneFile.loadFile_opened
  · exact ((h.shape.insert hwf hp hbefore).put _ _ _).lookup hwf (by simp)
  · exact ne_of_gt hpos
  · rw [h.shape.createFile hwf hp hfile, h.shape.createWith_entered hwf hp henter]
    simp only [Disk.expandNew, h.shape.next, hpos, hexpanded]
    rfl

theorem loadFile_filled (hS : T.Supplies) (hfile : e.isFolder = false) (henter : e.MayEnter es)
    (hne : e.data ≠ []) (hlen : e.data.length < 2 ^ 63) (address : ℕ) :
    Ends (¬ pageSize ∣ e.data.length ∧ e.OwnerHas aclWrite ∧ e.OwnerHas aclRead) (es ++ [e])
      (loadFile (Disk.systems T) d.mounted address e.parentName (toName e.name)
        (Disk.joined e.names) e.data.length e.privilege e.data) := by
  obtain ⟨p, hp⟩ := hwf.parentOf
  have hbefore := e.kind_before d.next
  obtain ⟨f, hdisk, hinode, howner, hsize, hbytes, hload⟩ :=
    loadFile_created h hwf hS hfile henter hne hlen hp address
  have hbound := TempFSInode.pageSize_bound hlen
  have hle : e.data.length ≤ f.block.size := by
    rw [hsize]
    exact (alignUp_spec (by decide) hbound).1
  rw [hload, ← lt_alignUp_iff (by decide) hbound, ← hsize, Entry.OwnerHas, Entry.OwnerHas,
    ← permits_loader, ← permits_loader, ← howner]
  by_cases hok : e.data.length < f.block.size ∧ permits f.owner loader aclWrite ∧
      permits f.owner loader aclRead
  · rw [f.fill_done hne hlen (by omega) hok.2.1 hok.2.2 hok.1]
    apply Ends.done hok
    rw [Disk.OneFile.stored]
    change Holds (f.disk.put f.inode _ _) _
    rw [hdisk, hinode]
    apply h.insert ((h.shape.insert hwf hp hbefore).put _ _ _)
    · intro i hi
      rw [Disk.put_other hi]
      exact h.shape.contents_old hbefore hi
    · rw [Disk.put_inode]
      intro _
      refine ⟨rfl, ?_⟩
      simp [storedBytes, Disk.OneFile.node, TempFSInode.filled, Disk.OneFile.holding]
  · have hreason : permits f.owner loader aclWrite = false ∨
        permits f.owner loader aclRead = false ∨ f.block.size = e.data.length := by
      by_contra hnone
      simp only [not_or, Bool.not_eq_false] at hnone
      exact hok ⟨lt_of_le_of_ne hle (Ne.symm hnone.2.2), hnone.1, hnone.2.1⟩
    rw [f.fill_assertion hne hlen (by omega) hle hreason]
    exact .assertion hok

theorem loadFile_ends (hS : T.Supplies) (hfile : e.isFolder = false)
    (hlen : e.data.length < 2 ^ 63) (address : ℕ) :
    Ends (e.MayEnter es ∧ e.MayFill) (es ++ [e])
      (loadFile (Disk.systems T) d.mounted address e.parentName (toName e.name)
        (Disk.joined e.names) e.data.length e.privilege e.data) := by
  obtain ⟨p, hp⟩ := hwf.parentOf
  by_cases henter : e.MayEnter es
  · rw [and_iff_right henter, Entry.MayFill]
    by_cases hempty : e.data = []
    · have hbefore := e.kind_before d.next
      have hload : loadFile (Disk.systems T) d.mounted address e.parentName (toName e.name)
          (Disk.joined e.names) e.data.length e.privilege e.data =
            .done (d.insert (toName e.name) p e.kind e.privilege hbefore).mounted := by
        simp [loadFile, h.shape.createFile hwf hp hfile, h.shape.createWith_entered hwf hp henter,
          Disk.expandNew, hempty]
      rw [hload]
      exact .done (.inl hempty) (h.inserted hwf hp fun _ => hempty)
    · rw [or_iff_right hempty]
      exact loadFile_filled h hwf hS hfile henter hempty hlen address
  · have hcode : ¬ -eacces = 0 := by decide
    rw [loadFile, h.shape.createFile hwf hp hfile, h.shape.createWith_refused hwf hp henter]
    simpa [hcode] using Ends.assertion fun hok => henter hok.1

end Ends

variable {h : Header} {ds : List ℕ} {before : List Entry} (S : FileSystems F) (v : VFS.State F)
  {F : Type}

theorem loadItem_file (address : ℕ) (hread : e.Read h) (hfile : e.isFolder = false) (data : Bytes) :
    loadItem S v address h data =
      loadFile S v address e.parentName (toName e.name) (Disk.joined e.names) e.data.length
        e.privilege data := by
  have hflag : h.typeFlag = 48 := by
    rw [hread.typeFlag, hfile]
    rfl
  simp only [loadItem, hread.terminated, decide_true, Result.check_true, hflag, if_true,
    hread.parent, hread.name, hread.path, hread.size, hread.privilege]

theorem loadItem_folder (address : ℕ) (hread : e.Read h) (hfolder : e.isFolder) (data : Bytes) :
    loadItem S v address h data =
      loadFolder S v e.parentName (toName e.name) e.privilege := by
  have hflag : h.typeFlag = 53 := by
    rw [hread.typeFlag, hfolder]
    rfl
  have hfile : ¬ (53 : UInt8) = 48 := by decide
  have hlink : ¬ (53 : UInt8) = 50 := by decide
  simp only [loadItem, hread.terminated, decide_true, Result.check_true, hflag, hfile, hlink,
    if_false, if_true, hread.parent, hread.name, hread.privilege]

theorem loadItem_ends (hS : T.Supplies) (h : Holds d es) (hwf : WellFormed (es ++ [e]))
    {header} (hread : e.Read header) (address : ℕ) :
    Ends (e.Accepted es) (es ++ [e])
      (loadItem (Disk.systems T) d.mounted address header e.data) := by
  have hlt := hread.size_lt
  rw [Entry.Accepted]
  cases hfolder : e.isFolder with
  | true =>
    rw [loadItem_folder _ _ _ hread hfolder, and_iff_left (by simp)]
    exact loadFolder_ends h hwf hfolder
  | false =>
    rw [loadItem_file _ _ _ hread hfolder, imp_iff_right rfl]
    exact loadFile_ends h hwf hS hfolder (by omega) address

def AllAccepted : List Entry → List Entry → Prop
  | _, [] => True
  | before, e :: rest => e.Accepted before ∧ AllAccepted (before ++ [e]) rest

variable {mem : Memory} {size o fuel : ℕ} {rest : List Entry} {address : ℕ → ℕ}

theorem WellFormed.read (hwf : WellFormed (before ++ e :: rest)) (hat : e.At mem o) :
    e.Read (readHeader mem o) := by
  have hmem : e ∈ before ++ e :: rest := by simp
  exact hat.read (hwf.path_ne_nil e hmem) (hwf.names e hmem) (hwf.short e hmem)

theorem load_step (hat : e.At mem o) (hread : e.Read (readHeader mem o))
    (hin : o + 512 + alignUp e.data.length 512 ≤ size) (hsize : size < 2 ^ 64) :
    load S mem size address (fuel + 1) o v =
      (loadItem S v (address o) (readHeader mem o) e.data).bind
        (load S mem size address fuel (o + 512 + alignUp e.data.length 512)) := by
  have hlt : o < size := by omega
  rw [load, if_pos ⟨hat.magic, hlt⟩]
  dsimp only
  rw [hread.size, hat.data, u64_of_lt (by omega)]

theorem load_end (hend : ¬ (hasMagic mem o ∧ o < size)) :
    load S mem size address (fuel + 1) o v = .done v := by
  rw [load, if_neg hend]

theorem load_ends (hS : T.Supplies) (hsize : size < 2 ^ 64) :
    ∀ (rest es : List Entry) (d : Disk A) (o fuel : ℕ), Holds d es → WellFormed (es ++ rest) →
      Archive mem size rest o → rest.length < fuel → Ends (AllAccepted es rest) (es ++ rest)
        (load (Disk.systems T) mem size address fuel o d.mounted) := by
  intro rest
  induction rest with
  | nil =>
    intro es d o fuel h _ harchive hfuel
    obtain ⟨fuel, rfl⟩ := Nat.exists_eq_succ_of_ne_zero (ne_of_gt hfuel)
    rw [load_end _ _ harchive, append_nil]
    exact .done trivial h
  | cons e rest ih =>
    intro es d o fuel h hwf harchive hfuel
    obtain ⟨hat, hin, hrest⟩ := harchive
    obtain ⟨fuel, rfl⟩ := Nat.exists_eq_succ_of_ne_zero (ne_of_gt (Nat.zero_lt_of_lt hfuel))
    have hread := hwf.read hat
    rw [append_cons] at hwf ⊢
    have hitem := loadItem_ends hS h hwf.front hread (address o)
    rw [load_step _ _ hat hread hin hsize, AllAccepted]
    generalize loadItem (Disk.systems T) d.mounted (address o) _ e.data = r at hitem ⊢
    cases hitem with
    | done haccepted h' =>
      rw [and_iff_right haccepted]
      exact ih _ _ _ fuel h' hwf hrest (Nat.lt_of_succ_lt_succ hfuel)
    | assertion hno => exact .assertion fun hall => hno hall.1

/-- Every file can be filled, and every folder with something in it lets its owner write. -/
structure Loadable (es : List Entry) : Prop where
  files : ∀ e ∈ es, e.isFolder = false → e.MayFill
  folders : ∀ e ∈ es, ∀ f ∈ es, f.path = e.parent → f.OwnerHas aclWrite

theorem WellFormed.mayEnter_iff (hwf : WellFormed (before ++ e :: rest)) :
    e.MayEnter before ↔
      ∀ f ∈ before ++ e :: rest, f.path = e.parent → f.OwnerHas aclWrite := by
  constructor
  · intro henter f hf hpath
    obtain ⟨k, hk⟩ := mem_iff_getElem?.mp hf
    have he : (before ++ e :: rest)[before.length]? = some e := by simp
    have hne : e.parent ≠ [] := hpath ▸ hwf.path_ne_nil f hf
    obtain ⟨j, g, hj, hg, hgpath, -⟩ := hwf.parents before.length e he hne
    obtain rfl := hwf.index_unique hg hk (hgpath.trans hpath.symm)
    rw [getElem?_append_left hj] at hk
    exact henter f (mem_of_getElem? hk) hpath
  · intro hall f hf hpath
    exact hall f (mem_append_left _ hf) hpath

theorem allAccepted_iff : ∀ (rest before : List Entry), WellFormed (before ++ rest) →
    (AllAccepted before rest ↔ (∀ e ∈ rest, e.isFolder = false → e.MayFill) ∧
      ∀ e ∈ rest, ∀ f ∈ before ++ rest, f.path = e.parent → f.OwnerHas aclWrite) := by
  intro rest
  induction rest with
  | nil =>
    intro before _
    simp [AllAccepted]
  | cons e rest ih =>
    intro before hwf
    have hrest := ih (before ++ [e]) (by rwa [← append_cons])
    rw [← append_cons] at hrest
    rw [AllAccepted, Entry.Accepted, hwf.mayEnter_iff, hrest]
    simp only [forall_mem_cons]
    tauto

theorem loadable_iff (hwf : WellFormed es) : AllAccepted [] es ↔ Loadable es := by
  rw [allAccepted_iff es [] hwf, nil_append]
  exact ⟨fun h => ⟨h.1, h.2⟩, fun h => ⟨h.files, h.folders⟩⟩

theorem Holds.empty (pages : A) : Holds (Disk.empty pages) [] where
  shape := Shape.empty pages
  stores i f hf := by simp at hf

theorem initialise_ends (hS : T.Supplies) (hwf : WellFormed es) (hsize : size < 2 ^ 64)
    (harchive : Archive mem size es 0) (hfuel : es.length < fuel) (pages : A) (address : ℕ → ℕ) :
    Ends (Loadable es) es
      (load (Disk.systems T) mem size address fuel 0 (Disk.empty pages).mounted) := by
  rw [← loadable_iff hwf]
  exact load_ends hS hsize es [] _ 0 fuel (Holds.empty pages) hwf harchive hfuel

theorem initialise_assertion (hS : T.Supplies) (hwf : WellFormed es) (hsize : size < 2 ^ 64)
    (harchive : Archive mem size es 0) (hfuel : es.length < fuel) (pages : A)
    (hno : ¬ Loadable es) :
    initialiseInitRAMFS (Disk.systems T) mem size address fuel (some (Disk.empty pages).mounted) =
      .assertion := by
  have hload := initialise_ends hS hwf hsize harchive hfuel pages address
  rw [initialiseInitRAMFS]
  generalize load (Disk.systems T) mem size address fuel 0 _ = r at hload ⊢
  cases hload with
  | done hok h => exact absurd hok hno
  | assertion _ => rfl

/-- An archive is loaded exactly if no file ends at the end of a page and the owner may read
and write the files and may write to the folders. -/
theorem initialise_loads_iff (hS : T.Supplies) (hwf : WellFormed es) (hsize : size < 2 ^ 64)
    (harchive : Archive mem size es 0) (hfuel : es.length < fuel) (pages : A) :
    (∃ v, initialiseInitRAMFS (Disk.systems T) mem size address fuel
        (some (Disk.empty pages).mounted) = .done (some v, true) ∧ Loaded v.files.tree es) ↔
      Loadable es := by
  constructor
  · rintro ⟨v, hdone, -⟩
    by_contra hno
    rw [initialise_assertion hS hwf hsize harchive hfuel pages hno] at hdone
    cases hdone
  · intro hloadable
    have hload := initialise_ends hS hwf hsize harchive hfuel pages address
    rw [initialiseInitRAMFS]
    generalize load (Disk.systems T) mem size address fuel 0 _ = r at hload ⊢
    cases hload with
    | done _ h => exact ⟨_, rfl, h.shape.loaded hwf h.stores⟩
    | assertion hno => exact absurd hloadable hno

def octalField (ds : List ℕ) (length : ℕ) : Bytes := (ds.map digit ++ [0]).rightpad length 0

def header (path : List Bytes) (mode size : List ℕ) (flag : UInt8) : Bytes :=
  (pathBytes path).rightpad 100 0 ++ (octalField mode 8 ++ (octalField [0] 8 ++
    (octalField [0] 8 ++ (octalField size 12 ++ (replicate 20 0 ++
      ([flag] ++ (replicate 100 0 ++ ustar)))))))

def blockBytes (blocks : List Bytes) : Bytes :=
  blocks.flatMap fun b => b.rightpad (alignUp b.length 512) 0

/-- Memory that holds the blocks, each filled up to a multiple of 512, and is clear behind. -/
def image (blocks : List Bytes) : Memory := fun o =>
  (blockBytes blocks).getD o 0

def folderEntry (mode : ℕ) : Entry := ⟨[[100]], true, mode, 0, 0, []⟩

def fileEntry (path : List Bytes) (mode : ℕ) (data : Bytes) : Entry :=
  ⟨path, false, mode, 0, 0, data⟩

theorem isOctal_field (hds : ∀ d ∈ ds, d < 8) (length : ℕ) :
    IsOctal (octalField ds length) (octalValue ds 0) := by
  refine ⟨ds, replicate (length - (ds.length + 1)) 0, ?_, hds, rfl⟩
  simp [octalField, rightpad]

theorem entry_at {e : Entry} (mode size : List ℕ) (n : ℕ) (hids : e.uid = 0 ∧ e.gid = 0)
    (hmode : octalValue mode 0 = e.mode) (hsize : octalValue size 0 = e.data.length)
    (hdigits : ∀ d ∈ mode ++ size, d < 8)
    (h : field mem o 100 = pathBytes e.path ++ replicate n 0 ∧
      field mem (o + 100) 8 = octalField mode 8 ∧ field mem (o + 108) 8 = octalField [0] 8 ∧
      field mem (o + 116) 8 = octalField [0] 8 ∧ field mem (o + 124) 12 = octalField size 12 ∧
      mem (o + 156) = (if e.isFolder then 53 else 48) ∧ hasMagic mem o)
    (hdata : field mem (o + 512) e.data.length = e.data) : e.At mem o := by
  obtain ⟨hpath, hmodes, huid, hgid, hsizes, hflag, hmagic⟩ := h
  have hzero : ∀ d ∈ [0], d < 8 := by decide
  refine ⟨⟨n, hpath⟩, ?_, ?_, ?_, ?_, hflag, hmagic, hdata⟩
  · rw [hmodes, ← hmode]
    exact isOctal_field (fun d hd => hdigits d (mem_append_left _ hd)) 8
  · rw [huid, hids.1]
    exact isOctal_field hzero 8
  · rw [hgid, hids.2]
    exact isOctal_field hzero 8
  · rw [hsizes, ← hsize]
    exact isOctal_field (fun d hd => hdigits d (mem_append_right _ hd)) 12

theorem isName_d : IsName [100] := by
  constructor <;> decide

theorem isName_f : IsName [102] := by
  constructor <;> decide

theorem wellFormed_file (mode : ℕ) (data : Bytes) : WellFormed [fileEntry [[102]] mode data] where
  path_ne_nil := by simp [fileEntry]
  names := by simpa [fileEntry] using isName_f
  short := by simp [fileEntry, pathBytes_singleton]
  unique := by simp
  parents i e he hparent := by
    obtain rfl : fileEntry [[102]] mode data = e := by
      have hmem := mem_of_getElem? he
      simpa [eq_comm] using hmem
    exact absurd rfl hparent
  folders := by simp [fileEntry]

theorem wellFormed_folder (folderMode mode : ℕ) (data : Bytes) :
    WellFormed [folderEntry folderMode, fileEntry [[100], [102]] mode data] where
  path_ne_nil := by simp [folderEntry, fileEntry]
  names := by simpa [folderEntry, fileEntry] using ⟨isName_d, isName_f⟩
  short := by simp [folderEntry, fileEntry, pathBytes, intercalate]
  unique := by simp [folderEntry, fileEntry]
  parents i e he hparent := by
    obtain ⟨hi, rfl⟩ := List.getElem?_eq_some_iff.mp he
    cases i with
    | zero => exact absurd rfl hparent
    | succ i =>
      have hlast : i = 0 := by
        rw [length_cons, length_singleton] at hi
        omega
      subst hlast
      exact ⟨0, folderEntry folderMode, by decide, rfl, rfl, rfl⟩
  folders := by simp [folderEntry, fileEntry]

def folderAndFile (folderMode mode size : List ℕ) (data : Bytes) : Memory :=
  image [header [[100]] folderMode [0] 53, header [[100], [102]] mode size 48, data]

def oneFile (mode size : List ℕ) (data : Bytes) : Memory :=
  image [header [[102]] mode size 48, data]

theorem archive_nil {mem} {size o : ℕ} (h : size ≤ o) : Archive mem size [] o :=
  fun hheader => not_lt.mpr h hheader.2

theorem folderAndFile_archive : Archive (folderAndFile [7, 5, 5] [6, 4, 4] [3] [1, 2, 3]) 1536
    [folderEntry 0o755, fileEntry [[100], [102]] 0o644 [1, 2, 3]] 0 := by
  refine ⟨?_, by decide, ?_, by decide, archive_nil (by decide)⟩
  · exact entry_at [7, 5, 5] [0] 99 ⟨rfl, rfl⟩ rfl rfl (by decide) (by decide +kernel) rfl
  · exact entry_at [6, 4, 4] [3] 97 ⟨rfl, rfl⟩ rfl rfl (by decide) (by decide +kernel)
      (by decide +kernel)

theorem initialise_loads_folder_and_file :
    ∃ v, initialiseInitRAMFS (Disk.systems TempFSInode.zeroPages)
        (folderAndFile [7, 5, 5] [6, 4, 4] [3] [1, 2, 3]) 1536 id 3
        (some (Disk.empty ()).mounted) = .done (some v, true) ∧
      Loaded v.files.tree [folderEntry 0o755, fileEntry [[100], [102]] 0o644 [1, 2, 3]] := by
  apply (initialise_loads_iff TempFSInode.zeroPages_supplies (wellFormed_folder _ _ _) (by decide)
    folderAndFile_archive (by decide) ()).mpr
  constructor
  · decide
  · decide

theorem page_archive : Archive (oneFile [6, 4, 4] [1, 0, 0, 0, 0] []) 4608
    [fileEntry [[102]] 0o644 (replicate 4096 0)] 0 := by
  have hlength : (blockBytes [header [[102]] [6, 4, 4] [1, 0, 0, 0, 0] 48, []]).length = 512 := by
    decide +kernel
  have hclear : field (oneFile [6, 4, 4] [1, 0, 0, 0, 0] []) 512 4096 =
      replicate 4096 0 := by
    refine eq_replicate_iff.mpr ⟨field_length _ _ _, ?_⟩
    intro c hc
    obtain ⟨i, -, rfl⟩ := mem_map.mp hc
    rw [oneFile, image, getD_eq_getElem?_getD, getElem?_eq_none, Option.getD_none]
    rw [hlength]
    exact Nat.le_add_right 512 i
  have hdata : (fileEntry [[102]] 0o644 (replicate 4096 0)).data.length = 4096 :=
    length_replicate
  refine ⟨?_, ?_, archive_nil ?_⟩
  · refine entry_at [6, 4, 4] [1, 0, 0, 0, 0] 99 ⟨rfl, rfl⟩ rfl hdata.symm (by decide)
      (by decide +kernel) ?_
    rw [hdata]
    exact hclear
  · rw [hdata]
    decide
  · rw [hdata]
    decide

theorem readOnly_archive : Archive (oneFile [4, 4, 4] [1] [1]) 1024
    [fileEntry [[102]] 0o444 [1]] 0 := by
  refine ⟨?_, by decide, archive_nil (by decide)⟩
  exact entry_at [4, 4, 4] [1] 99 ⟨rfl, rfl⟩ rfl rfl (by decide) (by decide +kernel)
    (by decide +kernel)

theorem readOnlyFolder_archive : Archive (folderAndFile [5, 5, 5] [6, 4, 4] [0] []) 1024
    [folderEntry 0o555, fileEntry [[100], [102]] 0o644 []] 0 := by
  refine ⟨?_, by decide, ?_, by decide, archive_nil (by decide)⟩
  · exact entry_at [5, 5, 5] [0] 99 ⟨rfl, rfl⟩ rfl rfl (by decide) (by decide +kernel) rfl
  · exact entry_at [6, 4, 4] [0] 97 ⟨rfl, rfl⟩ rfl rfl (by decide) (by decide +kernel) rfl

/-- Each of the three archives stops the loader. -/
theorem initialise_stops :
    let run := fun mem size => initialiseInitRAMFS (Disk.systems TempFSInode.zeroPages) mem size id
      3 (some (Disk.empty ()).mounted)
    (∃ mem size, WellFormed [fileEntry [[102]] 0o644 (replicate 4096 0)] ∧
      Archive mem size [fileEntry [[102]] 0o644 (replicate 4096 0)] 0 ∧
      run mem size = .assertion) ∧ (∃ mem size, WellFormed [fileEntry [[102]] 0o444 [1]] ∧
      Archive mem size [fileEntry [[102]] 0o444 [1]] 0 ∧ run mem size = .assertion) ∧
    (∃ mem size, WellFormed [folderEntry 0o555, fileEntry [[100], [102]] 0o644 []] ∧
      Archive mem size [folderEntry 0o555, fileEntry [[100], [102]] 0o644 []] 0 ∧
      run mem size = .assertion) := by
  refine ⟨⟨_, _, wellFormed_file _ _, page_archive, ?_⟩,
    ⟨_, _, wellFormed_file _ _, readOnly_archive, ?_⟩,
    ⟨_, _, wellFormed_folder _ _ _, readOnlyFolder_archive, ?_⟩⟩
  · apply initialise_assertion TempFSInode.zeroPages_supplies (wellFormed_file _ _) (by decide)
      page_archive (by decide)
    intro hloadable
    rcases hloadable.files _ mem_cons_self rfl with hempty | ⟨hdvd, -⟩
    · cases hempty
    · rw [fileEntry, length_replicate] at hdvd
      exact hdvd (by decide)
  · apply initialise_assertion TempFSInode.zeroPages_supplies (wellFormed_file _ _) (by decide)
      readOnly_archive (by decide)
    intro hloadable
    have hfill := hloadable.files _ mem_cons_self rfl
    revert hfill
    decide
  · apply initialise_assertion TempFSInode.zeroPages_supplies (wellFormed_folder _ _ _) (by decide)
      readOnlyFolder_archive (by decide)
    intro hloadable
    have hwrite := hloadable.folders (fileEntry [[100], [102]] 0o644 []) (by simp)
      (folderEntry 0o555) (by simp) rfl
    revert hwrite
    decide

end InitRAMFS
