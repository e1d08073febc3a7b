import FrostyOS.InitRAMFS
import FrostyOS.RamDisk

/-! # One file of the initial RAM disk

A file that was created with its size has one block of whole pages. The loader opens it,
writes its bytes, rewinds, reads them back and closes it. -/
namespace TempFS.TempFSInode

open Errno MachineWord

variable {A : Type*} {S : PageSource A} {owner privilege : FilePrivilegeLevel} {blockSize : ℕ}
variable {block : MemBlock} {b : List UInt8}

theorem pageSize_bound {n : ℕ} (h : n < 2 ^ 63) : n + (pageSize - 1) < 2 ^ 64 := by
  unfold pageSize
  omega

theorem filled_refused {bit n : ℕ} (hn : 0 < n) (h : permits owner privilege bit = false) :
    (filled owner blockSize true block n 0).refusal privilege bit (some b) n =
      some (-eacces) := by
  simp [refusal, filled, h, ne_of_gt hn]

theorem filled_writeStream_full (hne : b ≠ []) (hwrite : permits owner privilege aclWrite)
    (hsize : block.size = b.length) (hbytes : b.length ≤ block.bytes.length) (a : A) :
    ∃ out, (filled owner blockSize true block b.length 0).writeStream S privilege (some b)
      b.length a = some out ∧ out.value = (b.length - 1 : ℕ) := by
  have hpos : 0 < b.length := List.length_pos_iff.mpr hne
  obtain ⟨stored, hcopy⟩ : ∃ stored, memcpy block.bytes 0 b (block.size - 1) = some stored := by
    refine ⟨_, memcpy_eq_some.mpr ⟨⟨?_, ?_⟩, rfl⟩⟩
    · omega
    · omega
  have hend : ¬ b.length < block.size := by omega
  have hoff : 0 < block.size := by omega
  rw [writeStream, filled_granted hpos hwrite]
  simp only [Option.getD_some, Int.toNat_natCast]
  rw [writeLoop, if_pos hpos]
  simp only [blockForWrite, filled, List.getElem?_cons_zero, Int.lt_irrefl, if_false,
    endsIn_start, hend, hoff, dif_pos, List.drop_zero, Nat.zero_add, Nat.sub_zero, hcopy]
  rw [writeLoop, if_neg (by omega)]
  exact ⟨_, rfl, by simp [finish, hsize]⟩

end TempFS.TempFSInode

namespace TempFileSystem.Disk

open Errno TempFS VFS TempFSInode Function

variable {A : Type} {T : PageSource A} {d : Disk A} {i : ℕ} {c : TempFSInode} {pages : A}

def put (d : Disk A) (a : ℕ) (contents : TempFSInode) (pages : A) : Disk A :=
  { d.setContents a contents with pages }

@[simp] theorem put_type (a : ℕ) (c : TempFSInode) (pages : A) (b : ℕ) :
    ((d.put a c pages).tree.inodes b).type = (d.tree.inodes b).type := d.setContentsOf_type a c b

@[simp] theorem put_children (a : ℕ) (c : TempFSInode) (pages : A) (b : ℕ) :
    ((d.put a c pages).tree.inodes b).children = (d.tree.inodes b).children :=
  d.setContentsOf_children a c b

theorem put_inode (a : ℕ) (c : TempFSInode) (pages : A) :
    (d.put a c pages).tree.inodes a = { d.tree.inodes a with contents := c } := if_pos rfl

theorem put_other {a b : ℕ} (h : b ≠ a) (c : TempFSInode) (pages : A) :
    (d.put a c pages).tree.inodes b = d.tree.inodes b := if_neg h

theorem put_put (a : ℕ) (c c' : TempFSInode) (pages pages' : A) :
    (d.put a c pages).put a c' pages' = d.put a c' pages' := by
  have hinodes : ((d.put a c pages).put a c' pages').tree.inodes =
      (d.put a c' pages').tree.inodes := by
    funext b
    by_cases hb : b = a
    · subst hb
      rw [put_inode, put_inode, put_inode]
    · rw [put_other hb, put_other hb, put_other hb]
  have htree : ((d.put a c pages).put a c' pages').tree = (d.put a c' pages').tree :=
    Tree.ext hinodes rfl rfl rfl
  unfold put setContents at htree ⊢
  simp only [mk.injEq, and_true]
  exact htree

section File

variable (hfile : (d.tree.inodes i).type = .file)

include hfile

theorem put_resolve : (d.put i c pages).tree.resolve i = i := by
  apply Tree.resolve_of_ne_link
  rw [put_type, hfile]
  decide

theorem put_contents : (d.put i c pages).contents i = c := by
  rw [contents, put_resolve hfile, put_inode]

theorem getType_put : (systems T).getType (d.put i c pages) i = .file := by
  have htype : ((d.put i c pages).tree.inodes ((d.put i c pages).tree.resolve i)).type =
      .file := by
    rw [put_resolve hfile, put_type, hfile]
  exact if_pos htype

theorem modify_put (method : TempFSInode → TempFSInode × ℤ) :
    (d.put i c pages).modify method i = (d.put i (method c).1 pages, (method c).2) := by
  unfold modify
  rw [put_contents hfile, put_resolve hfile]
  dsimp only
  exact Prod.ext (put_put i c (method c).1 pages pages) rfl

theorem openInode_put : (systems T).openInode (d.put i c pages) i =
    (d.put i c.openInode.1 pages, c.openInode.2) := modify_put hfile TempFSInode.openInode

theorem closeInode_put : (systems T).closeInode (d.put i c pages) i =
    (d.put i c.closeInode.1 pages, c.closeInode.2) := modify_put hfile TempFSInode.closeInode

theorem rewind_put : (systems T).rewind (d.put i c pages) i =
    (d.put i c.rewind.1 pages, c.rewind.2) := modify_put hfile TempFSInode.rewind

variable (privilege : FilePrivilegeLevel) (bytes : List UInt8) (count : ℕ)

theorem readStream_put :
    (systems T).readStream (d.put i c pages) i privilege bytes count =
      (c.readStream privilege (some bytes) count).map fun out =>
        (d.put i out.node pages, out.value, out.env) := by
  have hput : ∀ c', (d.put i c pages).setContents i c' = d.put i c' pages := fun c' =>
    put_put i c c' pages pages
  change (d.put i c pages).readStream i privilege bytes count = _
  rw [readStream, put_contents hfile, put_resolve hfile]
  simp only [hput]

theorem writeStream_put :
    (systems T).writeStream (d.put i c pages) i privilege bytes count =
      (c.writeStream T privilege (some bytes) count pages).map fun out =>
        (d.put i out.node out.env, out.value) := by
  have hput : ∀ c' pages', { (d.put i c pages).setContents i c' with pages := pages' } =
      d.put i c' pages' := fun c' pages' => put_put i c c' pages pages'
  change (d.put i c pages).writeStream T i privilege bytes count = _
  rw [writeStream, put_contents hfile, put_resolve hfile]
  simp only [hput]
  rfl

omit hfile in
theorem setCurrentHead_put (head : Head) :
    (systems T).setCurrentHead (d.put i c pages) i head =
      d.put i (c.setCurrentHead head) pages := by
  change (d.put i c pages).setContents i _ = _
  rw [put_inode]
  exact put_put i c _ pages pages

omit hfile in
theorem getCurrentHead_put : (systems T).getCurrentHead (d.put i c pages) i = c.getCurrentHead := by
  change ((d.put i c pages).tree.inodes i).contents.getCurrentHead = _
  rw [put_inode]

end File

open InitRAMFS MachineWord

/-- A file of one block on a disk. -/
structure OneFile (A : Type) where
  disk : Disk A
  inode : ℕ
  owner : FilePrivilegeLevel
  block : MemBlock
  pages : A
  isFile : (disk.tree.inodes inode).type = .file

namespace OneFile

variable (f : OneFile A) {m n : ℕ} {b : List UInt8}

def node (isOpen : Bool) (size offset : ℕ) : TempFSInode :=
  filled f.owner pageSize isOpen f.block size offset

def stored (isOpen : Bool) (size offset : ℕ) : Disk A :=
  f.disk.put f.inode (f.node isOpen size offset) f.pages

def stream (m offset : ℕ) : FileStream :=
  ⟨f.inode, m, vfsRead ||| vfsWrite, loader, some ⟨offset, true, 0, offset⟩⟩

def holding (b : List UInt8) : OneFile A :=
  { f with block := { f.block with bytes := b ++ f.block.bytes.drop b.length } }

theorem getType_stored (isOpen : Bool) (offset : ℕ) :
    (systems T).getType (f.stored isOpen n offset) f.inode = .file := getType_put f.isFile

theorem setCurrentHead_stored (isOpen isOpen' : Bool) (offset offset' : ℕ) :
    (systems T).setCurrentHead (f.stored isOpen n offset) f.inode ⟨offset', isOpen', 0, offset'⟩ =
      f.stored isOpen' n offset' := setCurrentHead_put _

theorem getCurrentHead_stored (isOpen : Bool) (offset : ℕ) :
    (systems T).getCurrentHead (f.stored isOpen n offset) f.inode = ⟨offset, isOpen, 0, offset⟩ :=
  getCurrentHead_put

theorem openFile_closed :
    FileStream.openFile (systems T) (f.stored false n 0)
        ⟨f.inode, m, vfsRead ||| vfsWrite, loader, none⟩ =
      (f.stored true n 0, f.stream m 0, 0) := by
  have hopen : (systems T).openInode ((systems T).setCurrentHead (f.stored false n 0) f.inode
      ⟨0, false, 0, 0⟩) f.inode = (f.stored true n 0, 0) := by
    rw [← Int.natCast_zero, f.setCurrentHead_stored]
    exact openInode_put f.isFile
  simp only [FileStream.openFile, f.getType_stored, hopen, f.getCurrentHead_stored]
  rfl

theorem transfer_stream {α : Type} {mode offset : ℕ} {unchanged : α} {count} {method}
    (hcount : 0 ≤ count) (hmode : (vfsRead ||| vfsWrite) &&& mode ≠ 0) :
    (f.stream m offset).transfer (systems T) mode method (f.stored true n offset) count unchanged =
      (method (f.stored true n offset)).map
        fun (files, rc, out) => (files, { f.stream m offset with
          inodeState := some ((systems T).getCurrentHead files f.inode) }, rc, out) := by
  have htype : (systems T).getType (f.stored true n offset) (f.stream m offset).inode = .file :=
    f.getType_stored _ _
  have hmodes : ¬ (f.stream m offset).modes &&& mode = 0 := hmode
  rw [FileStream.transfer, if_neg (Int.not_lt.mpr hcount), if_neg hmodes,
    if_neg (not_not.mpr htype)]
  change (method ((systems T).setCurrentHead _ f.inode _)).map _ = _
  rw [f.setCurrentHead_stored]
  rfl

theorem writeStream_stream (count : ℕ) :
    (f.stream m 0).writeStream (systems T) (f.stored true n 0) b count =
      ((f.node true n 0).writeStream T loader (some b) count f.pages).map
        fun out => (f.disk.put f.inode out.node out.env,
          { f.stream m 0 with inodeState := some out.node.getCurrentHead }, out.value, ()) := by
  have hmode : (vfsRead ||| vfsWrite) &&& vfsWrite ≠ 0 := by decide
  rw [FileStream.writeStream, f.transfer_stream (Int.natCast_nonneg count) hmode]
  change ((((systems T).writeStream (f.stored true n 0) f.inode loader b count).map _).map _) = _
  rw [stored, writeStream_put f.isFile]
  simp only [Option.map_map]
  congr 1
  funext out
  simp only [comp_apply, getCurrentHead_put]

theorem readStream_stream (count : ℕ) :
    (f.stream m 0).readStream (systems T) (f.stored true n 0) b count =
      ((f.node true n 0).readStream loader (some b) count).map
        fun out => (f.disk.put f.inode out.node f.pages,
          { f.stream m 0 with inodeState := some out.node.getCurrentHead }, out.value,
          out.env) := by
  have hmode : (vfsRead ||| vfsWrite) &&& vfsRead ≠ 0 := by decide
  rw [FileStream.readStream, f.transfer_stream (Int.natCast_nonneg count) hmode]
  change (((systems T).readStream (f.stored true n 0) f.inode loader b count).map _) = _
  rw [stored, readStream_put f.isFile]
  simp only [Option.map_map]
  congr 1
  funext out
  simp only [comp_apply, getCurrentHead_put]

theorem rewind_stream (offset : ℕ) :
    (f.stream m offset).rewind (systems T) (f.stored true n offset) =
      some (f.stored true n 0, f.stream m 0, 0) := by
  have hrewind : (systems T).rewind ((systems T).setCurrentHead (f.stored true n offset) f.inode
      ⟨offset, true, 0, offset⟩) f.inode = (f.stored true n 0, 0) := by
    rw [f.setCurrentHead_stored]
    exact rewind_put f.isFile
  simp [FileStream.rewind, FileStream.move, stream, f.getType_stored, hrewind,
    f.getCurrentHead_stored]

theorem closeFile_stream (offset : ℕ) :
    (f.stream m offset).closeFile (systems T) (f.stored true n offset) =
      (f.stored false n offset, { f.stream m offset with inodeState := none }, 0) := by
  have hclose : (systems T).closeInode ((systems T).setCurrentHead (f.stored true n offset)
      f.inode ⟨offset, true, 0, offset⟩) f.inode = (f.stored false n offset, 0) := by
    rw [f.setCurrentHead_stored]
    exact closeInode_put f.isFile
  simp [FileStream.closeFile, stream, f.getType_stored, hclose]

section Fill

variable {f} (hne : b ≠ [])

include hne

theorem writeStream_succeeds (hwrite : permits f.owner loader aclWrite)
    (hlt : b.length < f.block.size) (hbytes : b.length ≤ f.block.bytes.length) :
    (f.stream m 0).writeStream (systems T) (f.stored true b.length 0) b b.length =
      some ((f.holding b).stored true b.length b.length, (f.holding b).stream m b.length,
        (b.length : ℤ), ()) := by
  have hpos : 0 < b.length := List.length_pos_iff.mpr hne
  rw [writeStream_stream, node,
    writeStream_filled hne (filled_granted hpos hwrite) rfl hlt hbytes]
  rfl

theorem writeStream_fails (hbytes : b.length ≤ f.block.bytes.length)
    (h : permits f.owner loader aclWrite = false ∨ f.block.size = b.length) :
    ∃ files stream count, (f.stream m 0).writeStream (systems T) (f.stored true b.length 0) b
      b.length = some (files, stream, count, ()) ∧ count ≠ b.length := by
  have hpos : 0 < b.length := List.length_pos_iff.mpr hne
  rw [writeStream_stream, node]
  cases hwrite : permits _ _ _ with
  | false =>
    rw [TempFSInode.writeStream, filled_refused hpos hwrite]
    refine ⟨_, _, -eacces, rfl, ?_⟩
    have hneg : -eacces < 0 := by decide
    omega
  | true =>
    have hsize : f.block.size = b.length := h.resolve_left (by simp [hwrite])
    obtain ⟨out, hout, hvalue⟩ : ∃ out, (filled f.owner pageSize true f.block b.length
        0).writeStream T loader (some b) b.length f.pages = some out ∧
          out.value = (b.length - 1 : ℕ) :=
      filled_writeStream_full hne hwrite hsize hbytes f.pages
    rw [hout]
    refine ⟨_, _, out.value, rfl, ?_⟩
    rw [hvalue]
    omega

theorem readStream_succeeds (hread : permits f.owner loader aclRead)
    (hlt : b.length < f.block.size) (htake : f.block.bytes.take b.length = b) :
    (f.stream m 0).readStream (systems T) (f.stored true b.length 0) (List.replicate b.length 0)
        b.length =
      some (f.stored true b.length b.length, f.stream m b.length, (b.length : ℤ), b) := by
  have hbytes : b.length ≤ f.block.bytes.length := by
    rw [← htake]
    exact List.length_take_le' ..
  rw [readStream_stream, node, filled_readStream hne hread hlt htake hbytes List.length_replicate]
  rfl

theorem readStream_fails (hread : permits f.owner loader aclRead = false) :
    ∃ files stream buffer, (f.stream m 0).readStream (systems T) (f.stored true b.length 0)
      (List.replicate b.length 0) b.length = some (files, stream, -eacces, buffer) := by
  have hpos : 0 < b.length := List.length_pos_iff.mpr hne
  rw [readStream_stream, TempFSInode.readStream, node, filled_refused hpos hread]
  exact ⟨_, _, _, rfl⟩

end Fill

variable {v : VFS.State (Disk A)} {address : ℕ}

theorem openFile_stream (files : Disk A) :
    (f.stream m 0).openFile (systems T) files = (files, f.stream m 0, 0) := rfl

theorem closeStream_closed {files stream} (hreg : address ∈ v.streams)
    (hclosed : stream.inodeState = none) :
    State.closeStream (systems T)
        { v with files, fileStreams := update v.fileStreams address (some stream) }
        (some address) =
      some ({ v with
        files
        streams := v.streams.erase address
        fileStreams := update v.fileStreams address none }, 0) := by
  rw [State.closeStream, if_pos hreg]
  simp [State.deleteStream, FileStream.closeFile, hclosed]

theorem asSigned_length (hlen : b.length < 2 ^ 63) : asSigned b.length = b.length := if_pos hlen

def opened (address m n : ℕ) : VFS.State (Disk A) :=
  { (f.stored true n 0).mounted with
    fileStreams := update (f.stored true n 0).mounted.fileStreams address (some (f.stream m 0))
    streams := [address] }

theorem opened_files (address m n : ℕ) : (f.opened address m n).files = f.stored true n 0 := rfl

section Session

variable {f} (hne : b ≠ []) (hlen : b.length < 2 ^ 63) (hbytes : b.length ≤ f.block.bytes.length)

include hne hlen hbytes

theorem fill_done (hwrite : permits f.owner loader aclWrite)
    (hread : permits f.owner loader aclRead) (hlt : b.length < f.block.size) :
    fill (systems T) (f.opened address m b.length) address (f.stream m 0) b b.length =
      .done ((f.holding b).stored false b.length b.length).mounted := by
  have hmem : address ∈ (f.opened address m b.length).streams := List.mem_singleton_self address
  have htake : (f.holding b).block.bytes.take b.length = b := by simp [holding]
  have hreads := readStream_succeeds (T := T) (m := m) (f := f.holding b) hne hread hlt htake
  simp only [fill, openFile_stream, opened_files, asSigned_length hlen, decide_true,
    Result.check_true, writeStream_succeeds hne hwrite hlt hbytes, Result.ofOption_some,
    Result.bind_done, rewind_stream, hreads, closeFile_stream]
  rw [closeStream_closed hmem rfl]
  simp [opened, mounted]

theorem fill_assertion (hle : b.length ≤ f.block.size)
    (h : permits f.owner loader aclWrite = false ∨ permits f.owner loader aclRead = false ∨
      f.block.size = b.length) :
    fill (systems T) (f.opened address m b.length) address (f.stream m 0) b b.length =
      .assertion := by
  by_cases hwrites : permits f.owner loader aclWrite = false ∨ f.block.size = b.length
  · obtain ⟨files, stream, count, hcall, hcount⟩ :=
      writeStream_fails (T := T) (m := m) hne hbytes hwrites
    simp only [fill, openFile_stream, opened_files, asSigned_length hlen, decide_true,
      Result.check_true, hcall, Result.ofOption_some, Result.bind_done, hcount, decide_false,
      Result.check_false]
  · rw [not_or] at hwrites
    have hwrite : permits f.owner loader aclWrite := by simpa using hwrites.1
    have hlt : b.length < f.block.size := lt_of_le_of_ne hle (Ne.symm hwrites.2)
    have hread : permits (f.holding b).owner loader aclRead = false :=
      (h.resolve_left hwrites.1).resolve_right hwrites.2
    obtain ⟨files, stream, buffer, hcall⟩ := readStream_fails (T := T) (m := m) hne hread
    have hcount : (-eacces : ℤ) ≠ b.length := by
      have hneg : -eacces < 0 := by decide
      omega
    simp only [fill, openFile_stream, opened_files, asSigned_length hlen, decide_true,
      Result.check_true, writeStream_succeeds hne hwrite hlt hbytes, Result.ofOption_some,
      Result.bind_done, rewind_stream, hcall, hcount, decide_false, Result.check_false]

end Session

variable {parent name path : Name}
  (hlookup : (f.stored false n 0).table.getMountPoint path none = some ⟨some m, some f.inode, 0⟩)

include hlookup

theorem openStream_stored :
    (f.stored false n 0).mounted.openStream (systems T) address loader path (vfsRead ||| vfsWrite)
      none = some (f.opened address m n, .ok address) := by
  have hfound : (f.stored false n 0).mounted.getMountPoint (systems T) path none =
      some ⟨some m, some f.inode, 0⟩ := hlookup
  have hopen : FileStream.openFile (systems T) (f.stored false n 0).mounted.files
      ⟨f.inode, m, vfsRead ||| vfsWrite, loader, none⟩ =
        (f.stored true n 0, f.stream m 0, 0) := f.openFile_closed
  rw [State.openStream, hfound, Option.map_some]
  simp only [hopen]
  rfl

theorem loadFile_opened {privilege} (hne : n ≠ 0)
    (hcreate : v.createFile (systems T) loader parent name n false privilege =
      some ((f.stored false n 0).mounted, 0)) :
    loadFile (systems T) v address parent name path n privilege b =
      fill (systems T) (f.opened address m n) address (f.stream m 0) b n := by
  have hstream : (f.opened address m n).fileStreams address = some (f.stream m 0) := update_self ..
  simp only [loadFile, hcreate, Result.ofOption_some, Result.bind_done, decide_true,
    Result.check_true, hne, if_false, f.openStream_stored hlookup, hstream]

end OneFile

end TempFileSystem.Disk
