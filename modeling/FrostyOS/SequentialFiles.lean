import FrostyOS.TempFSInode

/-! # Sequential writes to a file

Each block that a write fills loses one byte of the count, and only a write past the last
block moves the size of the file. -/
namespace TempFS

open MachineWord List Option

theorem memcpy_eq_some {dst src out} {pos n : ℕ} :
    memcpy dst pos src n = some out ↔ (n ≤ src.length ∧ pos + n ≤ dst.length) ∧
        dst.take pos ++ src.take n ++ dst.drop (pos + n) = out := by
  unfold memcpy
  split_ifs with h
  · simp only [some.injEq, h, and_self, true_and]
  · simp only [h, false_and]

/-- Every request for pages is met, with as many bytes as the pages hold. -/
def PageSource.Supplies {A : Type*} (S : PageSource A) : Prop :=
  ∀ a n, ∃ bytes a', S.allocatePages a n = (some bytes, a') ∧ bytes.length = n * pageSize

namespace TempFSInode

variable {A : Type*} {S : PageSource A} {node : TempFSInode} {a : A}

def writeAll (S : PageSource A) (privilege : FilePrivilegeLevel) :
    List (List UInt8) → TempFSInode → A → Option (TempFSInode × A × List ℤ)
  | [], node, a => some (node, a, [])
  | b :: bs, node, a => do
    let out ← node.writeStream S privilege (some b) b.length a
    let (node, a, values) ← writeAll S privilege bs out.node out.env
    some (node, a, out.value :: values)

/-- What a sequential file is for: the strings written one after another are all taken,
counted in the size, and read back in order after `Rewind`. -/
def KeepsStrings (S : PageSource A) (privilege : FilePrivilegeLevel) (bs : List (List UInt8))
    (node : TempFSInode) (a : A) : Prop :=
  ∃ node' a', writeAll S privilege bs node a = some (node', a', bs.map fun b => (b.length : ℤ)) ∧
    node'.getSize.1 = bs.flatten.length ∧ ∀ buffer : List UInt8, buffer.length = bs.flatten.length →
      ∃ out, node'.rewind.1.readStream privilege (some buffer) bs.flatten.length = some out ∧
        out.value = bs.flatten.length ∧ out.env = bs.flatten

variable {out : Outcome A} {block : MemBlock} {node' : TempFSInode} {bs : List (List UInt8)}
  {currentCount done n : ℕ} {bytes : List UInt8} {exit : Exit A}

theorem full_block_le {stored} (hlen : bytes.length < 2 ^ 63) (hcc : currentCount ≤ bytes.length)
    (hend : ¬ node.endsIn block bytes.length currentCount)
    (hoff : node.currentBlockOffset < block.size)
    (hcopy : memcpy block.bytes node.currentBlockOffset (bytes.drop currentCount)
      (block.size - (node.currentBlockOffset + 1)) = some stored) :
    currentCount + (block.size - node.currentBlockOffset) ≤ bytes.length := by
  obtain ⟨⟨hsrc, -⟩, -⟩ := memcpy_eq_some.mp hcopy
  rw [length_drop] at hsrc
  unfold endsIn at hend
  rw [subWord_of_le block.size_lt (Nat.le_of_lt hoff), u64_of_lt (by omega)] at hend
  omega

theorem writeLoop_done_le (hlen : bytes.length < 2 ^ 63) (hcc : currentCount ≤ bytes.length)
    (h : writeLoop S bytes bytes.length currentCount done node a = some exit) :
    exit.done ≤ done + (bytes.length - currentCount) := by
  fun_induction writeLoop S bytes bytes.length currentCount done node a with
  | case1 | case2 | case7 =>
    simp only [some.injEq] at h
    subst h
    exact Nat.le_add_right _ _
  | case3 =>
    obtain ⟨stored, -, rfl⟩ := map_eq_some_iff.mp h
    exact le_rfl
  | case4 | case6 => exact absurd h (by simp)
  | case5 currentCount done _ _ _ _ _ _ _ _ block _ offset hend hoff stored hcopy ih =>
    have hle := full_block_le hlen hcc hend hoff hcopy
    have := ih hle h
    omega

theorem writeLoop_counts_all (hlen : bytes.length < 2 ^ 63) (hcc : currentCount < bytes.length)
    (h : writeLoop S bytes bytes.length currentCount done node a = some exit)
    (hdone : exit.done = done + (bytes.length - currentCount)) :
    ∃ node' a' rc block stored, node.blockForWrite S bytes.length a = (node', a', rc) ∧
      node'.data[node'.currentBlockIndex]? = some block ∧
      node'.endsIn block bytes.length currentCount ∧
      exit = ⟨(node'.putBlock block stored).advance (bytes.length - currentCount), a', exit.done,
        none⟩ := by
  revert h
  fun_cases writeLoop S bytes bytes.length currentCount done node a <;> intro h
  case case1 | case2 =>
    simp only [some.injEq] at h
    subst h
    simp only at hdone
    omega
  case case3 _ node' a' rc hfor _ block hblock offset hend =>
    obtain ⟨stored, -, rfl⟩ := map_eq_some_iff.mp h
    exact ⟨node', a', rc, block, stored, hfor, hblock, hend, rfl⟩
  case case4 | case6 => exact absurd h (by simp)
  case case5 _ node' a' rc hfor _ block hblock offset hend hoff stored hcopy =>
    -- the byte that a filled block loses is never made up
    have hle := full_block_le hlen (Nat.le_of_lt hcc) hend hoff hcopy
    have := writeLoop_done_le hlen hle h
    omega
  case case7 h' => exact absurd hcc h'

variable {privilege : FilePrivilegeLevel} {b : List UInt8}

theorem refusal_neg {bit : ℕ} {bytes count rc}
    (h : node.refusal privilege bit bytes count = some rc) : rc < 0 := by
  unfold refusal at h
  split_ifs at h <;> simp only [some.injEq] at h <;> subst h <;> decide

theorem refusal_zero (node : TempFSInode) (privilege : FilePrivilegeLevel) (bit : ℕ)
    (bytes : Option (List UInt8)) : ∃ rc, node.refusal privilege bit bytes 0 = some rc := by
  unfold refusal
  split_ifs <;> simp_all

/-- A call that returns the length of its string leaves the file with the blocks and the
size that the lookup of the block under the cursor left. -/
theorem writeStream_counts_all (hne : b ≠ []) (hlen : b.length < 2 ^ 63)
    (h : node.writeStream S privilege (some b) b.length a = some out)
    (hvalue : out.value = b.length) :
    ∃ node' a' rc block stored, node.blockForWrite S b.length a = (node', a', rc) ∧
      node'.data[node'.currentBlockIndex]? = some block ∧ node'.endsIn block b.length 0 ∧
      out.node = { (node'.putBlock block stored).advance b.length with
        currentOffset := node'.currentOffset + b.length } := by
  have hpos : 0 < b.length := length_pos_iff.mpr hne
  unfold writeStream at h
  split at h
  case h_1 rc hrc =>
    have := refusal_neg hrc
    simp only [some.injEq] at h
    subst h
    simp only at hvalue
    omega
  case h_2 =>
    obtain ⟨exit, hexit, rfl⟩ := map_eq_some_iff.mp h
    simp only [getD_some, Int.toNat_natCast] at hexit
    have hdone : exit.done = 0 + (b.length - 0) := by
      unfold finish at hvalue
      split at hvalue <;> simp only [Int.natCast_inj] at hvalue <;> omega
    obtain ⟨node', a', rc, block, stored, hfor, hblock, hend, he⟩ :=
      writeLoop_counts_all hlen hpos hexit hdone
    refine ⟨node', a', rc, block, stored, hfor, hblock, hend, ?_⟩
    rw [he]
    rfl

theorem getSize_le (node : TempFSInode) : node.getSize.1 ≤ node.size := by
  unfold getSize
  split_ifs
  · exact Nat.zero_le _
  · exact le_rfl

structure OneBlock (node : TempFSInode) (size : ℕ) : Prop where
  size : node.size = size
  blocks : node.data.length = 1
  index : node.currentBlockIndex = 0

theorem OneBlock.writeStream (hnode : node.OneBlock n) (hne : b ≠ []) (hlen : b.length < 2 ^ 63)
    (h : node.writeStream S privilege (some b) b.length a = some out)
    (hvalue : out.value = b.length) : out.node.OneBlock n := by
  obtain ⟨node', a', rc, block, stored, hfor, -, -, hout⟩ :=
    writeStream_counts_all hne hlen h hvalue
  obtain ⟨first, hfirst⟩ := length_eq_one_iff.mp hnode.blocks
  simp only [blockForWrite, hnode.index, hfirst, getElem?_cons_zero, Prod.mk.injEq] at hfor
  obtain ⟨rfl, -, -⟩ := hfor
  rw [hout]
  exact ⟨hnode.size, by simpa [advance, putBlock] using hnode.blocks, hnode.index⟩

theorem writeAll_cons {a' value values}
    (h : writeAll S privilege (b :: bs) node a = some (node', a', value :: values)) :
    ∃ out, node.writeStream S privilege (some b) b.length a = some out ∧ out.value = value ∧
      writeAll S privilege bs out.node out.env = some (node', a', values) := by
  simp only [writeAll, bind_eq_bind, bind_eq_some_iff, some.injEq, Prod.mk.injEq, cons.injEq] at h
  obtain ⟨out, hout, rest, hrest, rfl, rfl, hvalue, rfl⟩ := h
  exact ⟨out, hout, hvalue, hrest⟩

theorem OneBlock.writeAll (hnode : node.OneBlock n) (hne : ∀ b ∈ bs, b ≠ [])
    (hlen : bs.flatten.length < 2 ^ 63) {a'}
    (h : writeAll S privilege bs node a = some (node', a', bs.map fun b => (b.length : ℤ))) :
    node'.OneBlock n := by
  induction bs generalizing node a with
  | nil =>
    simp only [TempFSInode.writeAll, some.injEq, Prod.mk.injEq] at h
    exact h.1 ▸ hnode
  | cons b bs ih =>
    rw [flatten_cons, length_append] at hlen
    obtain ⟨out, hout, hvalue, hrest⟩ := writeAll_cons h
    have hb := hnode.writeStream (hne b mem_cons_self) (by omega) hout hvalue
    exact ih hb (fun c hc => hne c (mem_cons_of_mem _ hc)) (by omega) hrest

theorem endsIn_start (h : node.currentBlockOffset = 0) :
    node.endsIn block n 0 ↔ n < block.size := by
  unfold endsIn
  rw [h, subWord_of_le block.size_lt (Nat.zero_le _), Nat.sub_zero, Nat.add_zero,
    u64_of_lt block.size_lt]

def emptyFile (owner : FilePrivilegeLevel) (blockSize : ℕ) : TempFSInode :=
  ⟨.file, owner, blockSize, 0, true, [], 0, 0, 0⟩

theorem openInode_create {raw} (hraw : raw.isOpen = false) (owner : FilePrivilegeLevel)
    (blockSize : ℕ) :
    (openInode (create raw .file owner blockSize)).1 = emptyFile owner blockSize := by
  simp [openInode, create, rewind, emptyFile, hraw]

def filled (owner : FilePrivilegeLevel) (blockSize : ℕ) (isOpen : Bool) (block : MemBlock)
    (size offset : ℕ) : TempFSInode :=
  ⟨.file, owner, blockSize, offset, isOpen, [block], size, 0, offset⟩

section OneBlock

variable {owner : FilePrivilegeLevel} {blockSize : ℕ}

theorem expand_empty (node : TempFSInode) (hS : S.Supplies) (hsize : node.size = 0)
    (hdata : node.data = []) (hpage : pageSize ∣ node.blockSize) (hpos : 0 < node.blockSize)
    (hmax : node.blockSize ≤ 2 ^ 63) {n : ℕ} (hn : n < 2 ^ 63) (a : A) :
    ∃ block a', block.size = alignUp n node.blockSize ∧ block.bytes.length = block.size ∧
      node.expand S n a = ({ node with size := n, data := [block] }, a', 0) := by
  obtain ⟨bytes, a', hpages, hbytes⟩ := hS a (alignUp n node.blockSize / pageSize)
  have hdvd := (alignUp_spec hpos (v := n) (by omega)).2.2
  have hsub : subWord n 0 = n := subWord_of_le (by omega) (Nat.zero_le _)
  refine ⟨⟨bytes, alignUp n node.blockSize, u64_lt _⟩, a', rfl, ?_, ?_⟩
  · rw [hbytes, Nat.div_mul_cancel (Nat.dvd_trans hpage hdvd)]
  · simp [expand, hsize, hdata, hsub, hpages]

theorem filled_granted {bit : ℕ} (hn : 0 < n) (h : permits owner privilege bit) :
    (filled owner blockSize true block n 0).refusal privilege bit (some b) n = none := by
  simp [refusal, filled, h, ne_of_gt hn]

theorem writeStream_filled {a'} (hne : b ≠ [])
    (hrefusal : node.refusal privilege aclWrite (some b) b.length = none)
    (hfor : node.blockForWrite S b.length a = (filled owner blockSize true block n 0, a', 0))
    (hlt : b.length < block.size) (hbytes : b.length ≤ block.bytes.length) :
    node.writeStream S privilege (some b) b.length a =
      some ⟨filled owner blockSize true { block with bytes := b ++ block.bytes.drop b.length } n
        b.length, a', b.length, some 0⟩ := by
  have hcopy : memcpy block.bytes 0 b b.length = some (b ++ block.bytes.drop b.length) := by
    rw [memcpy_eq_some]
    exact ⟨⟨le_rfl, by omega⟩, by simp⟩
  rw [writeStream, hrefusal]
  simp only [getD_some, Int.toNat_natCast]
  rw [writeLoop, if_pos (length_pos_iff.mpr hne), hfor]
  simp [endsIn_start, filled, hlt, hcopy, putBlock, advance, finish]

theorem filled_readStream (hne : b ≠ []) (hread : permits owner privilege aclRead)
    (hlt : b.length < block.size) (hbytes : block.bytes.take b.length = b)
    (hlen : b.length ≤ block.bytes.length) {buffer} (hbuffer : buffer.length = b.length) :
    (filled owner blockSize true block b.length 0).readStream privilege (some buffer) b.length =
      some ⟨filled owner blockSize true block b.length b.length, b, b.length, some 0⟩ := by
  have hpos : 0 < b.length := length_pos_iff.mpr hne
  have hcopy : memcpy buffer 0 block.bytes b.length = some b := by
    rw [memcpy_eq_some]
    exact ⟨⟨hlen, by omega⟩, by simp [drop_eq_nil_of_le, hbuffer, hbytes]⟩
  rw [readStream, filled_granted hpos hread]
  simp only [getD_some, Int.toNat_natCast]
  rw [readLoop, if_pos hpos]
  simp [endsIn_start, filled, hlt, hcopy, advance, finish, hne]

theorem emptyFile_blockForWrite (owner : FilePrivilegeLevel) (hS : S.Supplies)
    (hpage : pageSize ∣ blockSize) (hpos : 0 < blockSize) (hmax : blockSize ≤ 2 ^ 63) {n : ℕ}
    (hn : n < 2 ^ 63) (a : A) :
    ∃ block a', block.size = alignUp n blockSize ∧ block.bytes.length = block.size ∧
      (emptyFile owner blockSize).blockForWrite S n a =
        (filled owner blockSize true block n 0, a', 0) :=
  expand_empty (emptyFile owner blockSize) hS rfl rfl hpage hpos hmax hn a

theorem emptyFile_writeStream_counts_all {out} (hS : S.Supplies) (hpage : pageSize ∣ blockSize)
    (hpos : 0 < blockSize) (hmax : blockSize ≤ 2 ^ 63)
    (hne : b ≠ []) (hlen : b.length < 2 ^ 63)
    (h : (emptyFile owner blockSize).writeStream S privilege (some b) b.length a = some out)
    (hvalue : out.value = b.length) : out.node.OneBlock b.length ∧ ¬ blockSize ∣ b.length := by
  obtain ⟨node', a', rc, block, stored, hfor, hblock, hend, hout⟩ :=
    writeStream_counts_all hne hlen h hvalue
  obtain ⟨first, a₁, hsize, -, hfirst⟩ := emptyFile_blockForWrite owner hS hpage hpos hmax hlen a
  rw [hfirst, Prod.mk.injEq] at hfor
  obtain ⟨rfl, -⟩ := hfor
  obtain rfl : first = block := by simpa [filled] using hblock
  refine ⟨hout ▸ ⟨rfl, ?_, rfl⟩, ?_⟩
  · simp [advance, putBlock, filled]
  · rw [endsIn_start rfl, hsize] at hend
    exact (lt_alignUp_iff hpos (by omega)).mp hend

theorem emptyFile_writeStream (hS : S.Supplies) (hpage : pageSize ∣ blockSize)
    (hpos : 0 < blockSize) (hmax : blockSize ≤ 2 ^ 63)
    (hwrite : permits owner privilege aclWrite) (hne : b ≠ []) (hlen : b.length < 2 ^ 63)
    (hdvd : ¬ blockSize ∣ b.length) (a : A) :
    ∃ block a', b.length < block.size ∧ b.length ≤ block.bytes.length ∧
      block.bytes.take b.length = b ∧
      (emptyFile owner blockSize).writeStream S privilege (some b) b.length a =
        some ⟨filled owner blockSize true block b.length b.length, a', b.length, some 0⟩ := by
  obtain ⟨block, a', hsize, hbytes, hfor⟩ := emptyFile_blockForWrite owner hS hpage hpos hmax hlen a
  have hlt : b.length < block.size := hsize ▸ (lt_alignUp_iff hpos (by omega)).mpr hdvd
  refine ⟨{ block with bytes := b ++ block.bytes.drop b.length }, a', hlt, by simp, by simp, ?_⟩
  refine writeStream_filled hne ?_ hfor hlt (by omega)
  simp [refusal, emptyFile, hwrite, hne]

theorem emptyFile_keepsStrings (hS : S.Supplies) (hpage : pageSize ∣ blockSize)
    (hpos : 0 < blockSize) (hmax : blockSize ≤ 2 ^ 63)
    (hwrite : permits owner privilege aclWrite) (hread : permits owner privilege aclRead)
    (hne : b ≠ []) (hlen : b.length < 2 ^ 63) (hdvd : ¬ blockSize ∣ b.length) (a : A) :
    KeepsStrings S privilege [b] (emptyFile owner blockSize) a := by
  obtain ⟨block, a', hlt, hbytes, htake, hout⟩ :=
    emptyFile_writeStream hS hpage hpos hmax hwrite hne hlen hdvd a
  refine ⟨_, a', by simp only [writeAll, hout]; rfl, by simp [getSize, filled], ?_⟩
  intro buffer hbuffer
  rw [flatten_singleton] at hbuffer ⊢
  exact ⟨_, filled_readStream hne hread hlt htake hbytes hbuffer, rfl, rfl⟩

theorem not_keepsStrings_nil : ¬ KeepsStrings S privilege [] node a := by
  rintro ⟨node', a', -, -, hread⟩
  obtain ⟨out, hout, hvalue, -⟩ := hread [] rfl
  obtain ⟨rc, hrc⟩ := node'.rewind.1.refusal_zero privilege aclRead (some [])
  have hneg := refusal_neg hrc
  simp only [readStream, flatten_nil, length_nil, Int.ofNat_zero, hrc, some.injEq] at hout hvalue
  rw [← hout] at hvalue
  simp only at hvalue
  omega

end OneBlock

/-- A newly created empty file keeps the strings written to it exactly when there is one
string and it does not end at the end of a block. -/
theorem keepsStrings_iff (hS : S.Supplies) {raw : TempFSInode} (hraw : raw.isOpen = false)
    {owner : FilePrivilegeLevel} {blockSize : ℕ} (hpage : pageSize ∣ blockSize)
    (hpos : 0 < blockSize) (hmax : blockSize ≤ 2 ^ 63)
    (hwrite : permits owner privilege aclWrite) (hread : permits owner privilege aclRead)
    {bs : List (List UInt8)} (hne : ∀ b ∈ bs, b ≠ []) (hlen : bs.flatten.length < 2 ^ 63) (a : A) :
    KeepsStrings S privilege bs (openInode (create raw .file owner blockSize)).1 a ↔
      ∃ b, bs = [b] ∧ ¬ blockSize ∣ b.length := by
  rw [openInode_create hraw]
  constructor
  · intro hkeeps
    cases bs with
    | nil => exact absurd hkeeps not_keepsStrings_nil
    | cons b bs =>
      obtain ⟨node', a', hall, hsize, -⟩ := hkeeps
      rw [flatten_cons, length_append] at hlen hsize
      obtain ⟨out, hout, hvalue, hrest⟩ := writeAll_cons hall
      obtain ⟨hone, hdvd⟩ := emptyFile_writeStream_counts_all hS hpage hpos hmax
        (hne b mem_cons_self) (by omega) hout hvalue
      have hne' := fun c hc => hne c (mem_cons_of_mem _ hc)
      have hlast := (hone.writeAll hne' (by omega) hrest).size
      have hsize' : node'.getSize.1 ≤ node'.size := node'.getSize_le
      obtain rfl : bs = [] := eq_nil_iff_forall_not_mem.mpr fun c hc => by
        have hc' := (sublist_flatten_of_mem hc).length_le
        have := length_pos_iff.mpr (hne' c hc)
        omega
      exact ⟨b, rfl, hdvd⟩
  · rintro ⟨b, rfl, hdvd⟩
    rw [flatten_singleton] at hlen
    exact emptyFile_keepsStrings hS hpage hpos hmax hwrite hread (hne b mem_cons_self) hlen
      hdvd a

def zeroPages : PageSource Unit := ⟨fun _ n => (some (List.replicate (n * pageSize) 0), ())⟩

theorem zeroPages_supplies : zeroPages.Supplies := fun _ n =>
  ⟨List.replicate (n * pageSize) 0, (), rfl, length_replicate⟩

def rootLevel : FilePrivilegeLevel := ⟨0, 0, 0o644⟩

def clearedInode : TempFSInode := ⟨.file, ⟨0, 0, 0⟩, 0, 0, false, [], 0, 0, 0⟩

theorem keepsStrings_iff_three_bytes :
    KeepsStrings zeroPages rootLevel [[1, 2, 3]]
      (openInode (create clearedInode .file rootLevel pageSize)).1 () :=
  (keepsStrings_iff zeroPages_supplies rfl (Nat.dvd_refl _) (by decide) (by decide) (by decide)
    (by decide) (by decide) (by decide) ()).mpr ⟨[1, 2, 3], rfl, by decide⟩

/-- Two writes of one byte each are both counted in full, and the size of the file is one. -/
theorem second_write_leaves_size :
    ¬ KeepsStrings zeroPages rootLevel [[1], [2]]
      (openInode (create clearedInode .file rootLevel pageSize)).1 () ∧
    (writeAll zeroPages rootLevel [[1], [2]]
      (openInode (create clearedInode .file rootLevel pageSize)).1 ()).map
        (fun r => (r.2.2, r.1.getSize.1)) = some ([1, 1], 1) := by
  have hrun : (writeAll zeroPages rootLevel [[1], [2]]
      (openInode (create clearedInode .file rootLevel pageSize)).1 ()).map
        (fun r => (r.2.2, r.1.getSize.1)) = some ([1, 1], 1) := by
    decide +kernel
  refine ⟨?_, hrun⟩
  rintro ⟨node', a', hall, hsize, -⟩
  rw [hall] at hrun
  simp [hsize] at hrun

end TempFSInode

end TempFS
