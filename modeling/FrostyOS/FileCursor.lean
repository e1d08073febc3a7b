import FrostyOS.SequentialFiles

/-! # The cursor of a file

`Seek` rounds its offset up to eight bytes and counts the blocks from the current one on as
if they were the whole file. `ReadStream` looks at the size of the file once per block. -/
namespace TempFS.TempFSInode

open MachineWord List

variable {node : TempFSInode}

def getOffset (node : TempFSInode) : ℤ := node.currentOffset

def sizes (blocks : List MemBlock) : ℕ := blocks.foldr (fun block n => block.size + n) 0

@[simp] theorem sizes_nil : sizes [] = 0 := rfl

@[simp] theorem sizes_cons (block : MemBlock) (blocks : List MemBlock) :
    sizes (block :: blocks) = block.size + sizes blocks := rfl

theorem sizes_append (xs ys : List MemBlock) : sizes (xs ++ ys) = sizes xs + sizes ys := by
  induction xs with
  | nil => simp
  | cons block xs ih => simp [ih, add_assoc]

/-- The next transfer starts in a block, with byte `o` of the file. -/
def StandsAt (node : TempFSInode) (o : ℕ) : Prop :=
  ∃ block, node.data[node.currentBlockIndex]? = some block ∧ node.currentBlockOffset < block.size ∧
    sizes (node.data.take node.currentBlockIndex) + node.currentBlockOffset = o

theorem seekLoop_spec {offset base : ℕ} {blocks} (hbase : node.currentOffset = base)
    (hle : base ≤ offset) :
    (∃ before block after, blocks = before ++ block :: after ∧ base + sizes before ≤ offset ∧
      offset < base + sizes before + block.size ∧ seekLoop offset blocks node =
        { node with
          currentBlockIndex := node.currentBlockIndex + before.length
          currentBlockOffset := offset - (base + sizes before)
          currentOffset := offset }) ∨ base + sizes blocks ≤ offset ∧ seekLoop offset blocks node =
        { node with
          currentBlockIndex := node.currentBlockIndex + blocks.length
          currentOffset := (base + sizes blocks : ℕ) } := by
  induction blocks generalizing node base with
  | nil => exact .inr ⟨hle, by simp [seekLoop, ← hbase]⟩
  | cons block blocks ih =>
    rw [seekLoop, hbase]
    by_cases hlt : offset < base + block.size
    · rw [if_pos (by omega)]
      exact .inl ⟨[], block, blocks, rfl, hle, hlt, by simp [← Int.ofNat_sub hle]⟩
    rw [if_neg (by omega)]
    have hnext : (base : ℤ) + block.size = (base + block.size : ℕ) := by omega
    rw [hnext]
    generalize hnode : ({ node with
      currentBlockIndex := node.currentBlockIndex + 1
      currentOffset := (base + block.size : ℕ) } : TempFSInode) = next
    have hbase' : next.currentOffset = (base + block.size : ℕ) := by rw [← hnode]
    obtain ⟨before, found, after, rfl, hlow, hhigh, heq⟩ | ⟨hend, heq⟩ :=
      ih hbase' (not_lt.mp hlt) <;> subst hnode
    · refine .inl ⟨block :: before, found, after, rfl, ?_, ?_, ?_⟩
      · rw [sizes_cons]; omega
      · rw [sizes_cons]; omega
      · rw [heq, sizes_cons, length_cons]
        simp only [add_assoc, add_comm 1]
    · refine .inr ⟨by rw [sizes_cons]; omega, ?_⟩
      rw [heq, sizes_cons, length_cons]
      simp only [add_assoc, add_comm 1]

theorem seek_spec (hopen : node.isOpen) (htype : node.type = .file) {o : ℕ} (ho : o < node.size) :
    (node.seek o).2 = 0 ∧ (alignUp o 8 < sizes (node.data.drop node.currentBlockIndex) →
      (node.seek o).1.getOffset = alignUp o 8) ∧
    ∀ p, (node.seek o).1.StandsAt p ↔ alignUp o 8 < sizes (node.data.drop node.currentBlockIndex) ∧
      sizes (node.data.take node.currentBlockIndex) + alignUp o 8 = p := by
  have hseek : node.seek o = (seekLoop (alignUp o 8) (node.data.drop node.currentBlockIndex)
      { node with currentOffset := 0 }, 0) := by
    simp [seek, hopen, htype, not_le.mpr ho]
  rw [hseek]
  have hstart : ({ node with currentOffset := 0 } : TempFSInode).currentOffset = (0 : ℕ) := rfl
  obtain ⟨before, block, after, hsplit, hlow, hhigh, heq⟩ | ⟨hend, heq⟩ :=
    @seekLoop_spec _ (alignUp o 8) _ (node.data.drop node.currentBlockIndex) hstart (Nat.zero_le _)
  · have hget : node.data[node.currentBlockIndex + before.length]? = some block := by
      rw [← getElem?_drop, hsplit]
      simp
    have hbefore : sizes (node.data.take (node.currentBlockIndex + before.length)) =
        sizes (node.data.take node.currentBlockIndex) + sizes before := by
      rw [take_add, sizes_append, hsplit, take_left]
    rw [heq, hsplit, sizes_append, sizes_cons]
    refine ⟨rfl, fun _ => rfl, fun p => ?_⟩
    simp only [StandsAt, hget, hbefore, Option.some.injEq, exists_eq_left']
    omega
  · have hnone : node.data[node.currentBlockIndex +
        (node.data.drop node.currentBlockIndex).length]? = none := by
      rw [← getElem?_drop]
      exact getElem?_eq_none le_rfl
    rw [heq]
    refine ⟨rfl, fun hlt => by omega, fun p => ?_⟩
    constructor
    · rintro ⟨block, hget, -⟩
      cases hnone.symm.trans hget
    · rintro ⟨hlt, -⟩
      omega

/-- `Seek` puts the cursor at its offset exactly when the offset is a multiple of eight, no
block before the current one has bytes, and the blocks from there on reach past the offset. -/
theorem seek_exact_iff (hopen : node.isOpen = true) (htype : node.type = .file) {o : ℕ}
    (hword : o < 2 ^ 63) (ho : o < node.size) :
    (node.seek o).2 = 0 ∧ ((node.seek o).1.getOffset = o ∧ (node.seek o).1.StandsAt o ↔
      8 ∣ o ∧ sizes (node.data.take node.currentBlockIndex) = 0 ∧
        o < sizes (node.data.drop node.currentBlockIndex)) := by
  obtain ⟨hrc, hoffset, hstands⟩ := seek_spec hopen htype ho
  obtain ⟨hup, -, -⟩ := alignUp_spec (v := o) (a := 8) (by decide) (by omega)
  have hround := lt_alignUp_iff (v := o) (a := 8) (by decide) (by omega)
  refine ⟨hrc, ?_⟩
  rw [hstands o]
  constructor
  · rintro ⟨-, hlt, hstart⟩
    exact ⟨not_not.mp fun h8 => absurd (hround.mpr h8) (by omega), by omega, by omega⟩
  · rintro ⟨h8, hzero, hlt⟩
    have heq : alignUp o 8 = o := by
      omega
    rw [heq] at hoffset ⊢
    exact ⟨hoffset hlt, hlt, by omega⟩

def pageFile (size index offset : ℕ) : TempFSInode := ⟨.file, rootLevel, pageSize, offset, true,
    [⟨List.replicate pageSize 1, pageSize, by decide⟩], size, index, offset⟩

theorem seek_exact_sixteen :
    ((pageFile 100 0 40).seek 16).1.getOffset = 16 ∧ ((pageFile 100 0 40).seek 16).1.StandsAt 16 :=
  (seek_exact_iff rfl rfl (by decide) (by decide)).2.mpr ⟨by decide, by decide, by decide⟩

/-- A seek to byte one goes to byte eight. -/
theorem seek_rounds_up :
    ((pageFile 100 0 0).seek 1).2 = 0 ∧ ((pageFile 100 0 0).seek 1).1.getOffset = 8 ∧
      ¬ ((pageFile 100 0 0).seek 1).1.StandsAt 1 := by
  refine ⟨by decide, by decide, ?_⟩
  rintro ⟨block, -, -, hstart⟩
  exact absurd hstart (by decide)

/-- The memory of each block is as long as the block says. -/
def Backed (node : TempFSInode) : Prop :=
  ∀ block ∈ node.data, block.bytes.length = block.size ∧ block.size < 2 ^ 63

def remaining (node : TempFSInode) : ℕ := (node.size - node.currentOffset).toNat

/-- What the blocks from the cursor on have left. -/
def ahead (node : TempFSInode) : List ℕ :=
  match node.data.drop node.currentBlockIndex with
  | [] => []
  | block :: blocks => (block.size - node.currentBlockOffset) :: blocks.map MemBlock.size

/-- Each block that a read comes to has bytes left, and ends at most one byte behind the end
of the file unless the request ends before. -/
def Stays (count left : ℕ) : List ℕ → ℕ → ℕ → Prop
  | [], _, _ => True
  | r :: rest, currentCount, done =>
    currentCount < count → done < left → 0 < r ∧ (count ≤ left ∨ currentCount + r ≤ left + 1) ∧
        Stays count left rest (currentCount + r) (done + (r - 1))

/-- A buffer for what the file has left is enough, and no more bytes are counted. -/
def ReadsInside (node : TempFSInode) (privilege : FilePrivilegeLevel) (count : ℤ) : Prop :=
  ∀ buffer : List UInt8, buffer.length = node.remaining →
    ∃ out, node.readStream privilege (some buffer) count = some out ∧ out.value ≤ node.remaining

variable {count currentCount done : ℕ} {block : MemBlock} {blocks : List MemBlock}

theorem ahead_cons (h : node.data.drop node.currentBlockIndex = block :: blocks) :
    node.data[node.currentBlockIndex]? = some block ∧
      node.nextBlock.data.drop node.nextBlock.currentBlockIndex = blocks ∧
      node.ahead = (block.size - node.currentBlockOffset) :: node.nextBlock.ahead := by
  have hnext : node.data.drop (node.currentBlockIndex + 1) = blocks := by
    rw [← drop_drop, h, drop_one, tail_cons]
  refine ⟨?_, hnext, ?_⟩
  · rw [← add_zero node.currentBlockIndex, ← getElem?_drop, h, getElem?_cons_zero]
  · simp only [ahead, h, nextBlock, hnext]
    cases blocks <;> simp

theorem stays_of_le {left : ℕ} (h : count ≤ currentCount) (rs : List ℕ) :
    Stays count left rs currentCount done := by
  cases rs with
  | nil => trivial
  | cons r rs => exact fun hlt => absurd hlt (not_lt.mpr h)

theorem readLoop_inside_iff (hdrop : node.data.drop node.currentBlockIndex = blocks)
    (hback : node.Backed) (hword : count < 2 ^ 63) (hle : done ≤ node.remaining)
    (hcount : done ≤ currentCount) {buffer} (hbuffer : buffer.length = node.remaining) :
    (∃ exit, readLoop count currentCount done node buffer = some exit ∧
      exit.done ≤ node.remaining) ↔ Stays count node.remaining node.ahead currentCount done := by
  induction blocks generalizing node currentCount done buffer with
  | nil =>
    have hnone : node.data[node.currentBlockIndex]? = none :=
      getElem?_eq_none (drop_eq_nil_iff.mp hdrop)
    rw [readLoop, hnone, ahead, hdrop]
    refine iff_of_true ?_ trivial
    split_ifs <;> exact ⟨_, rfl, hle⟩
  | cons block blocks ih =>
    obtain ⟨hget, hnext, hahead⟩ := ahead_cons hdrop
    obtain ⟨hbytes, hsize⟩ := hback block (mem_of_getElem? hget)
    have hlen := length_drop (i := node.currentBlockOffset) (l := block.bytes)
    have hroom : (node.size : ℤ) ≤ node.currentOffset + done ↔ node.remaining ≤ done := by
      unfold remaining
      omega
    rw [readLoop, hget, hahead, Stays]
    generalize hr : block.size - node.currentBlockOffset = r
    by_cases hlt : currentCount < count
    · by_cases hstop : node.remaining ≤ done
      · rw [if_pos hlt, if_pos (hroom.mpr hstop)]
        exact iff_of_true ⟨_, rfl, hle⟩ fun _ h => absurd hstop (not_le.mpr h)
      rw [if_pos hlt, if_neg (mt hroom.mp hstop)]
      simp only [hlt, not_le.mp hstop, true_imp_iff]
      have hends : node.currentBlockOffset < block.size →
          (node.endsIn block count currentCount ↔ count < currentCount + r) := by
        intro hoff
        rw [endsIn, subWord_of_le block.size_lt (Nat.le_of_lt hoff), u64_of_lt (by omega), hr,
          add_comm]
      unfold memcpy
      split_ifs with hend hcopy hoff hcopy
      · have hoff : node.currentBlockOffset < block.size := by omega
        have hlast := (hends hoff).mp hend
        refine iff_of_true ⟨_, rfl, by dsimp only; omega⟩ ⟨by omega, .inl (by omega), ?_⟩
        exact stays_of_le (Nat.le_of_lt hlast) _
      · refine iff_of_false (by simp) fun h => hcopy ?_
        have hlast := (hends (by omega)).mp hend
        omega
      · have hlast : block.size - (node.currentBlockOffset + 1) = r - 1 := by omega
        have hfit : done + (r - 1) ≤ node.nextBlock.remaining := by
          change _ ≤ node.remaining
          omega
        rw [hlast] at hcopy
        rw [hr, hlast]
        refine (ih hnext hback hfit (by omega) ?_).trans
          ⟨fun hs => ⟨by omega, .inr (by omega), hs⟩, fun h => h.2.2⟩
        change _ = node.remaining
        simp only [length_append, length_take, length_drop]
        omega
      · refine iff_of_false (by simp) fun h => hcopy ?_
        have hfull := mt (hends hoff).mpr hend
        omega
      · refine iff_of_false (by simp) fun h => ?_
        omega
    · rw [if_neg hlt]
      exact iff_of_true ⟨_, rfl, hle⟩ fun h => absurd h hlt

theorem pageFile_backed (size index offset : ℕ) : (pageFile size index offset).Backed := by
  intro block hblock
  rw [mem_singleton.mp hblock]
  exact ⟨length_replicate, by decide⟩

end TempFS.TempFSInode
