import FrostyOS.MachineWord
import Mathlib.Data.List.Flatten

/-! # Keyboard input

`KeyboardInput::AppendChar` and `GetChar` over a `Buffer`, a list of blocks that grows at
its end and is cleared from its front. -/
namespace KeyboardInput

open MachineWord List

/-- The data of the blocks in order; a block's size is the length of its data. -/
structure Buffer where
  blocks : List (List UInt8)
  blockSize : ℕ
  deriving DecidableEq, Repr

open Buffer

def Buffer.addBlock (b : Buffer) (size : ℕ) : Buffer :=
  { b with blocks := b.blocks ++ [replicate size 0] }

def Buffer.create (size blockSize : ℕ) : Buffer := addBlock ⟨[], blockSize⟩ (alignUp size blockSize)

/-- The search that `Write` and `Read` begin with: the index of the block that holds the
offset, and the offset in it. -/
def locate (offset : ℕ) : List (List UInt8) → ℕ → ℕ → Option (ℕ × ℕ)
  | [], _, _ => none
  | block :: rest, start, index =>
    if start ≤ offset ∧ offset < start + block.length then some (index, offset - start)
    else locate offset rest (start + block.length) (index + 1)

def overwrite (block : List UInt8) (offset : ℕ) (bytes : List UInt8) : List UInt8 :=
  block.take offset ++ bytes ++ block.drop (offset + bytes.length)

/-- What is left after the first block goes into the following ones, and after the last of
them into a new block. -/
def spread (blockSize : ℕ) : List (List UInt8) → List UInt8 → List (List UInt8)
  | [], bytes => [overwrite (replicate (alignUp bytes.length blockSize) 0) 0 bytes]
  | block :: rest, bytes =>
    if bytes.length ≤ block.length then overwrite block 0 bytes :: rest
    else overwrite block 0 (bytes.take block.length) ::
      spread blockSize rest (bytes.drop block.length)

/-- The part of `Write` once the starting block is known. -/
def Buffer.writeAt (b : Buffer) (index offset : ℕ) (bytes : List UInt8) : Buffer :=
  let block := b.blocks.getD index []
  if bytes.length ≤ block.length - offset then
    { b with blocks := b.blocks.set index (overwrite block offset bytes) }
  else
    let first := bytes.take (block.length - offset)
    { b with blocks := b.blocks.take index ++ overwrite block offset first ::
        spread b.blockSize (b.blocks.drop (index + 1)) (bytes.drop (block.length - offset)) }

def Buffer.write (b : Buffer) (offset : ℕ) (bytes : List UInt8) : Buffer :=
  match locate offset b.blocks 0 0 with
  | some (index, within) => b.writeAt index within bytes
  | none => (b.addBlock (alignUp bytes.length b.blockSize)).writeAt b.blocks.length 0 bytes

/-- What `Read` copies from the blocks after the first. -/
def collect : List (List UInt8) → ℕ → List UInt8
  | [], _ => []
  | block :: rest, size =>
    if size ≤ block.length then block.take size
    else block ++ collect rest (size - block.length)

/-- The bytes `Read` copies; nothing when no block holds the offset. -/
def Buffer.read (b : Buffer) (offset size : ℕ) : List UInt8 :=
  match locate offset b.blocks 0 0 with
  | none => []
  | some (index, within) =>
    let block := b.blocks.getD index []
    if size ≤ block.length - within then (block.drop within).take size
    else block.drop within ++ collect (b.blocks.drop (index + 1)) (size - (block.length - within))

/-- The loop of `ClearUntil`; the count of blocks shrinks while the index grows. A deleted
block's size is what it was before the deletion. -/
def clearBlocks (i : ℕ) : List (List UInt8) → ℕ → List (List UInt8) × ℕ
  | [], _ => ([], 0)
  | block :: rest, offset =>
    if i < rest.length + 1 ∧ 0 < offset then
      if block.length ≤ offset then
        let later := clearBlocks (i + 1) rest (offset - block.length)
        (later.1, later.2 + 1)
      else (overwrite block 0 (replicate offset 0) :: rest, 0)
    else (block :: rest, 0)

def Buffer.clearUntil (b : Buffer) (offset : ℕ) : Buffer × ℕ :=
  let cleared := clearBlocks 0 b.blocks offset
  ({ b with blocks := cleared.1 }, cleared.2)

def defaultBufferBlockSize : ℕ := 64

structure Input where
  bufferOffset : ℕ
  bufferReadOffset : ℕ
  bufferSize : ℕ
  buffer : Buffer
  deriving DecidableEq, Repr

def Input.initialise : Input := ⟨0, 0, 0, create defaultBufferBlockSize defaultBufferBlockSize⟩

def Input.appendChar (s : Input) (c : UInt8) : Input :=
  { s with
    bufferOffset := s.bufferOffset + 1
    buffer := s.buffer.write s.bufferOffset [c]
    bufferSize := s.bufferSize + 1 }

/-- `GetChar`; `none` is the result -1, also for the character `0xFF`, which is -1 as a
`char`. -/
def Input.getChar (s : Input) : Input × Option UInt8 :=
  if s.bufferSize = 0 then (s, none)
  else
    let c := (s.buffer.read s.bufferReadOffset 1).headD 0xFF
    let cleared := s.buffer.clearUntil (s.bufferReadOffset + 1)
    let moved : Input :=
      if 0 < cleared.2 then
        { s with
          bufferOffset := if s.bufferReadOffset ≤ s.bufferOffset then 0 else s.bufferOffset
          bufferReadOffset := 0
          buffer := cleared.1 }
      else { s with bufferReadOffset := s.bufferReadOffset + 1, buffer := cleared.1 }
    ({ moved with bufferSize := s.bufferSize - 1 }, if c = 0xFF then none else some c)

def Buffer.contents (b : Buffer) : List UInt8 := b.blocks.flatten

variable {unread : List UInt8} {s : Input} (b : Buffer) (block : List UInt8)
  (blocks rest : List (List UInt8)) (offset : ℕ) (c : UInt8)

theorem locate_append (pre : List (List UInt8)) (block : List UInt8) (post : List (List UInt8))
    (start index : ℕ) (hlow : start + pre.flatten.length ≤ offset)
    (hhigh : offset < start + pre.flatten.length + block.length) :
    locate offset (pre ++ block :: post) start index =
      some (index + pre.length, offset - (start + pre.flatten.length)) := by
  induction pre generalizing start index with
  | nil =>
    simp only [flatten_nil, length_nil, add_zero] at hlow hhigh ⊢
    exact if_pos ⟨hlow, hhigh⟩
  | cons first rest ih =>
    simp only [flatten_cons, length_append] at hlow hhigh
    rw [cons_append, locate, if_neg (by omega), ih _ _ (by omega) (by omega)]
    simp only [flatten_cons, length_append, length_cons, Option.some.injEq, Prod.mk.injEq]
    omega

theorem locate_beyond (blocks : List (List UInt8)) (start index : ℕ)
    (h : start + blocks.flatten.length ≤ offset) : locate offset blocks start index = none := by
  induction blocks generalizing start index with
  | nil => rfl
  | cons first rest ih =>
    simp only [flatten_cons, length_append] at h
    rw [locate, if_neg (by omega)]
    exact ih _ _ (by omega)

theorem exists_block (h : offset < blocks.flatten.length) :
    ∃ pre block post, blocks = pre ++ block :: post ∧ pre.flatten.length ≤ offset ∧
      offset < pre.flatten.length + block.length := by
  induction blocks generalizing offset with
  | nil => exact absurd h (Nat.not_lt_zero _)
  | cons first rest ih =>
    by_cases hf : offset < first.length
    · exact ⟨[], first, rest, rfl, Nat.zero_le _, by simpa using hf⟩
    · rw [flatten_cons, length_append] at h
      obtain ⟨pre, block, post, rfl, hlow, hhigh⟩ := ih (offset - first.length) (by omega)
      refine ⟨first :: pre, block, post, rfl, ?_, ?_⟩ <;>
        rw [flatten_cons, length_append] <;> omega

theorem getD_middle (pre post : List (List UInt8)) (block : List UInt8) :
    (pre ++ block :: post).getD pre.length [] = block := by
  rw [getD_eq_getElem?_getD, getElem?_append_right (Nat.le_refl _), Nat.sub_self]
  rfl

theorem overwrite_one (h : offset < block.length) :
    overwrite block offset [c] = block.set offset c := by
  rw [overwrite, length_singleton, set_eq_take_append_cons_drop, if_pos h]
  simp

theorem Buffer.read_one (h : offset < b.contents.length) :
    b.read offset 1 = [b.contents.get ⟨offset, h⟩] := by
  obtain ⟨blocks, blockSize⟩ := b
  obtain ⟨pre, block, post, rfl, hlow, hhigh⟩ := exists_block blocks offset h
  have hin : offset - pre.flatten.length < block.length := by omega
  rw [read, locate_append offset pre block post 0 0 (by omega) (by omega)]
  simp only [zero_add, getD_middle]
  rw [if_pos (by omega), drop_eq_getElem_cons hin]
  simp only [contents, get_eq_getElem, flatten_append, flatten_cons]
  rw [getElem_append_right hlow, getElem_append_left hin]
  rfl

theorem Buffer.write_one_inside (h : offset < b.contents.length) :
    (b.write offset [c]).contents = b.contents.set offset c ∧
      (b.write offset [c]).blocks.map length = b.blocks.map length ∧
      (b.write offset [c]).blockSize = b.blockSize := by
  obtain ⟨blocks, blockSize⟩ := b
  obtain ⟨pre, block, post, rfl, hlow, hhigh⟩ := exists_block blocks offset h
  have hin : offset - pre.flatten.length < block.length := by omega
  have hw : (mk (pre ++ block :: post) blockSize).write offset [c] =
      ⟨pre ++ block.set (offset - pre.flatten.length) c :: post, blockSize⟩ := by
    rw [write, locate_append offset pre block post 0 0 (by omega) (by omega)]
    simp only [zero_add, writeAt, getD_middle]
    rw [if_pos (by simp only [length_singleton]; omega), overwrite_one _ _ _ hin,
      set_append_right _ _ (Nat.le_refl _), Nat.sub_self, set_cons_zero]
  rw [hw]
  refine ⟨?_, by simp, rfl⟩
  simp only [contents, flatten_append, flatten_cons]
  rw [set_append_right _ _ hlow, set_append_left _ _ hin]

theorem Buffer.write_one_beyond (hs : 0 < alignUp 1 b.blockSize) (h : b.contents.length ≤ offset) :
    b.write offset [c] =
      { b with blocks := b.blocks ++ [c :: replicate (alignUp 1 b.blockSize - 1) 0] } := by
  rw [write, locate_beyond offset b.blocks 0 0 (by rw [Nat.zero_add]; exact h)]
  simp only [writeAt, addBlock, length_singleton, getD_middle]
  rw [if_pos (by rw [length_replicate]; omega),
    overwrite_one _ _ _ (by rw [length_replicate]; exact hs),
    set_append_right _ _ (Nat.le_refl _), Nat.sub_self, set_cons_zero]
  cases hn : alignUp 1 b.blockSize with
  | zero => omega
  | succ n => simp [replicate_succ]

theorem clearBlocks_inside (hpos : 0 < offset) (h : offset < block.length) :
    clearBlocks 0 (block :: rest) offset =
      (overwrite block 0 (replicate offset 0) :: rest, 0) := by
  rw [clearBlocks, if_pos ⟨Nat.succ_pos _, hpos⟩, if_neg (by omega)]

theorem clearBlocks_first (hpos : 0 < block.length) :
    clearBlocks 0 (block :: rest) block.length = (rest, 1) := by
  rw [clearBlocks, if_pos ⟨Nat.succ_pos _, hpos⟩, if_pos (Nat.le_refl _), Nat.sub_self]
  cases rest with
  | nil => rfl
  | cons b bs => rw [clearBlocks, if_neg (by omega)]

/-- A character other than `0xFF`, which `GetChar` could not tell from -1. -/
abbrev KeyChar := { c : UInt8 // c ≠ 0xFF }

inductive Call where
  | appendChar (c : KeyChar)
  | getChar
  deriving DecidableEq

/-- The input with what was appended and what `GetChar` returned since it was made. -/
structure Session where
  input : Input
  appended : List UInt8
  returned : List UInt8
  deriving DecidableEq

open Session

def Session.start : Session := ⟨Input.initialise, [], []⟩

def Session.step (s : Session) : Call → Session
  | .appendChar c => { s with input := s.input.appendChar c.val, appended := s.appended ++ [c.val] }
  | .getChar =>
    { s with input := s.input.getChar.1, returned := s.returned ++ s.input.getChar.2.toList }

def Session.run (s : Session) (calls : List Call) : Session := calls.foldl step s

/-- The characters returned are the first of those appended, and `GetChar` returns -1 exactly
when all of them were returned. -/
def Session.IsQueue (s : Session) : Prop :=
  s.returned <+: s.appended ∧ (s.input.getChar.2 = none ↔ s.returned = s.appended)

instance (s : Session) : Decidable s.IsQueue := inferInstanceAs (Decidable (_ ∧ _))

/-- A character is appended right behind the unread ones. -/
def Session.AppendsAtEnd (s : Session) : Call → Prop
  | .appendChar _ => s.input.bufferOffset = s.input.bufferReadOffset + s.input.bufferSize
  | .getChar => True

/-- Every call of a run finds the write offset at the end of the unread characters. -/
def Session.AllAtEnd (s : Session) : List Call → Prop
  | [] => True
  | call :: rest => s.AppendsAtEnd call ∧ (s.step call).AllAtEnd rest

/-- The buffer holds `unread` from the read offset on, in blocks of one size. -/
structure Input.Holds (s : Input) (unread : List UInt8) : Prop where
  blockSizes : ∀ block ∈ s.buffer.blocks, block.length = defaultBufferBlockSize
  blockSize : s.buffer.blockSize = defaultBufferBlockSize
  readOffset : s.bufferReadOffset < defaultBufferBlockSize
  size : s.bufferSize = unread.length
  contents : ∃ past free, s.buffer.contents = past ++ unread ++ free ∧
    past.length = s.bufferReadOffset

theorem alignUp_one : alignUp 1 defaultBufferBlockSize = defaultBufferBlockSize := by
  decide

theorem Input.initialise_holds : Input.initialise.Holds [] where
  blockSizes := by decide
  blockSize := rfl
  readOffset := by decide
  size := rfl
  contents := ⟨[], Input.initialise.buffer.contents, rfl, rfl⟩

theorem sizes_of_map_length {old new : List (List UInt8)} {size : ℕ}
    (h : new.map length = old.map length) (hold : ∀ block ∈ old, block.length = size) :
    ∀ block ∈ new, block.length = size := by
  intro block hb
  have hmem : block.length ∈ old.map length := h ▸ mem_map_of_mem hb
  obtain ⟨other, ho, he⟩ := mem_map.mp hmem
  rw [← he]
  exact hold other ho

/-- A character appended right behind the unread ones joins them. -/
theorem Input.Holds.appendChar (h : s.Holds unread) (c : UInt8)
    (hend : s.bufferOffset = s.bufferReadOffset + s.bufferSize) :
    (s.appendChar c).Holds (unread ++ [c]) := by
  obtain ⟨past, free, hc, hpast⟩ := h.contents
  have hoffset : s.bufferOffset = (past ++ unread).length := by
    rw [hend, length_append, hpast, h.size]
  cases free with
  | cons x free =>
    -- there is room behind the unread characters
    have hin : s.bufferOffset < s.buffer.contents.length := by
      rw [hc, hoffset]
      simp only [length_append, length_cons]
      omega
    obtain ⟨hcontents, hsizes, hbs⟩ := s.buffer.write_one_inside s.bufferOffset c hin
    refine ⟨sizes_of_map_length hsizes h.blockSizes, hbs.trans h.blockSize, h.readOffset, ?_,
      past, free, ?_, hpast⟩
    · simp only [Input.appendChar, h.size, length_append, length_singleton]
    · refine hcontents.trans ?_
      rw [hc, hoffset, set_append_right _ _ (Nat.le_refl _), Nat.sub_self, set_cons_zero]
      simp
  | nil =>
    rw [append_nil] at hc
    have hbeyond : s.buffer.contents.length ≤ s.bufferOffset := by rw [hc, hoffset]
    have hw := s.buffer.write_one_beyond s.bufferOffset c
      (by rw [h.blockSize, alignUp_one]; decide) hbeyond
    rw [h.blockSize, alignUp_one] at hw
    refine ⟨?_, ?_, h.readOffset, ?_, past, replicate (defaultBufferBlockSize - 1) 0, ?_,
      hpast⟩
    · intro block hb
      simp only [Input.appendChar, hw, mem_append, mem_singleton] at hb
      rcases hb with hb | rfl
      · exact h.blockSizes block hb
      · rw [length_cons, length_replicate]
        rfl
    · simp only [Input.appendChar, hw]
    · simp only [Input.appendChar, h.size, length_append, length_singleton]
    · simp only [Input.appendChar, hw, Buffer.contents, flatten_append, flatten_cons,
        flatten_nil, append_nil]
      rw [show s.buffer.blocks.flatten = past ++ unread from hc]
      simp

theorem getChar_of_clear {c buffer} {deleted : ℕ} (hsize : s.bufferSize ≠ 0)
    (hread : s.buffer.read s.bufferReadOffset 1 = [c])
    (hclear : s.buffer.clearUntil (s.bufferReadOffset + 1) = (buffer, deleted)) (hc : c ≠ 0xFF) :
    s.getChar = (if 0 < deleted then
        ⟨if s.bufferReadOffset ≤ s.bufferOffset then 0 else s.bufferOffset, 0, s.bufferSize - 1,
          buffer⟩
      else ⟨s.bufferOffset, s.bufferReadOffset + 1, s.bufferSize - 1, buffer⟩, some c) := by
  rw [Input.getChar, if_neg hsize]
  simp only [hread, hclear, headD_cons, if_neg hc]
  by_cases hd : 0 < deleted
  · simp only [if_pos hd]
  · simp only [if_neg hd]

/-- With unread characters `GetChar` returns the first of them and holds the others. -/
theorem Input.Holds.getChar {c} (h : s.Holds (c :: unread)) (hc : c ≠ 0xFF) :
    s.getChar.1.Holds unread ∧ s.getChar.2 = some c := by
  obtain ⟨past, free, hcontents, hpast⟩ := h.contents
  have hsize : s.bufferSize ≠ 0 := by rw [h.size]; exact Nat.succ_ne_zero _
  have hlen : s.bufferReadOffset < s.buffer.contents.length := by
    rw [hcontents, ← hpast]
    simp only [length_append, length_cons]
    omega
  have hread : s.buffer.read s.bufferReadOffset 1 = [c] := by
    rw [Buffer.read_one _ _ hlen, get_eq_getElem]
    simp only [hcontents, ← hpast, append_assoc]
    rw [getElem_append_right le_rfl]
    simp
  have hpop : s.bufferSize - 1 = unread.length := by rw [h.size]; rfl
  cases hblocks : s.buffer.blocks with
  | nil =>
    rw [Buffer.contents, hblocks] at hlen
    exact absurd hlen (Nat.not_lt_zero _)
  | cons block rest =>
    have hblock : block.length = defaultBufferBlockSize :=
      h.blockSizes block (by rw [hblocks]; exact mem_cons_self ..)
    have hrest : ∀ b ∈ rest, b.length = defaultBufferBlockSize := fun b hb =>
      h.blockSizes b (by rw [hblocks]; exact mem_cons_of_mem _ hb)
    -- what the buffer holds behind the character that is read
    have hbehind : (block ++ rest.flatten).drop (s.bufferReadOffset + 1) = unread ++ free := by
      have : block ++ rest.flatten = past ++ [c] ++ (unread ++ free) := by
        rw [← flatten_cons, ← hblocks]
        refine hcontents.trans ?_
        simp
      rw [this]
      exact drop_left' (by rw [length_append, hpast]; rfl)
    by_cases hlast : s.bufferReadOffset + 1 < defaultBufferBlockSize
    · have hclear : s.buffer.clearUntil (s.bufferReadOffset + 1) =
          (⟨overwrite block 0 (replicate (s.bufferReadOffset + 1) 0) :: rest,
            s.buffer.blockSize⟩, 0) := by
        rw [Buffer.clearUntil, hblocks,
          clearBlocks_inside block rest _ (Nat.succ_pos _) (by rw [hblock]; exact hlast)]
      rw [getChar_of_clear hsize hread hclear hc, if_neg (lt_irrefl 0)]
      refine ⟨⟨?_, h.blockSize, hlast, hpop, replicate (s.bufferReadOffset + 1) 0, free, ?_,
        length_replicate⟩, rfl⟩
      · intro b hb
        rcases mem_cons.mp hb with rfl | hb
        · simp only [overwrite, take_zero, nil_append, length_append, length_replicate, length_drop]
          omega
        · exact hrest b hb
      · rw [drop_append_of_le_length (by omega)] at hbehind
        simp only [Buffer.contents, overwrite, take_zero, nil_append,
          length_replicate, zero_add, flatten_cons, append_assoc]
        rw [hbehind]
    · have hfull : s.bufferReadOffset + 1 = block.length := by
        have := h.readOffset
        omega
      have hclear : s.buffer.clearUntil (s.bufferReadOffset + 1) =
          (⟨rest, s.buffer.blockSize⟩, 1) := by
        rw [Buffer.clearUntil, hblocks, hfull, clearBlocks_first block rest (by omega)]
      rw [getChar_of_clear hsize hread hclear hc, if_pos Nat.one_pos]
      refine ⟨⟨hrest, h.blockSize, (by decide : 0 < defaultBufferBlockSize), hpop, [], free, ?_,
        rfl⟩, rfl⟩
      rw [hfull, drop_left] at hbehind
      exact hbehind

def Session.Queued (s : Session) : Prop :=
  ∃ unread, s.appended = s.returned ++ unread ∧ s.input.Holds unread ∧ ∀ c ∈ unread, c ≠ 0xFF

theorem Input.Holds.getChar_empty (h : s.Holds []) : s.getChar = (s, none) := by
  have hsize : s.bufferSize = 0 := h.size
  rw [Input.getChar, if_pos hsize]

theorem Session.Queued.isQueue {s : Session} (h : s.Queued) : s.IsQueue := by
  obtain ⟨unread, ha, hh, hc⟩ := h
  refine ⟨⟨unread, ha.symm⟩, ?_⟩
  cases unread with
  | nil =>
    rw [append_nil] at ha
    rw [hh.getChar_empty]
    exact iff_of_true rfl ha.symm
  | cons c unread =>
    rw [(hh.getChar (hc c (mem_cons_self ..))).2]
    refine iff_of_false (Option.some_ne_none c) fun he => ?_
    rw [he] at ha
    exact cons_ne_nil c unread (self_eq_append_right.mp ha)

theorem Session.Queued.step {s : Session} (h : s.Queued) (call : Call)
    (hend : s.AppendsAtEnd call) : (s.step call).Queued := by
  obtain ⟨unread, ha, hh, hc⟩ := h
  cases call with
  | appendChar c =>
    refine ⟨unread ++ [c.val], ?_, hh.appendChar c.val hend, ?_⟩
    · simp only [Session.step, ha, append_assoc]
    · intro x hx
      rcases mem_append.mp hx with hx | hx
      · exact hc x hx
      · rw [mem_singleton.mp hx]
        exact c.property
  | getChar =>
    cases unread with
    | nil =>
      refine ⟨[], ?_, ?_, by simp⟩
      · simp only [Session.step, hh.getChar_empty, Option.toList_none, ha, append_nil]
      · simp only [Session.step, hh.getChar_empty]
        exact hh
    | cons c unread =>
      obtain ⟨hnext, hget⟩ := hh.getChar (hc c (mem_cons_self ..))
      refine ⟨unread, ?_, hnext, fun x hx => hc x (mem_cons_of_mem _ hx)⟩
      simp only [Session.step, hget, Option.toList_some, ha, append_assoc, singleton_append]

theorem Session.Queued.run {s : Session} (h : s.Queued) (calls : List Call)
    (hend : s.AllAtEnd calls) : (s.run calls).Queued := by
  induction calls generalizing s with
  | nil => exact h
  | cons call rest ih => exact ih (h.step call hend.1) hend.2

/-- **The input is a queue** in every state of a run each of whose appended characters was
written right behind the unread ones. -/
theorem input_is_queue (calls : List Call) (h : start.AllAtEnd calls) :
    (start.run calls).IsQueue := by
  have hstart : start.Queued := ⟨[], rfl, Input.initialise_holds, by simp⟩
  exact (hstart.run calls h).isQueue

theorem letterA_ne : (97 : UInt8) ≠ 0xFF := by decide

theorem letterB_ne : (98 : UInt8) ≠ 0xFF := by decide

theorem input_is_queue_two :
    (start.run [.appendChar ⟨97, letterA_ne⟩, .appendChar ⟨98, letterB_ne⟩, .getChar]).IsQueue :=
  input_is_queue _ ⟨rfl, rfl, trivial, trivial⟩

/-- One block and one character are appended, the block is read, another character is
appended: `GetChar` set the write offset to zero with a character unread, so the new one
takes its place. -/
def typeAhead : List Call :=
  replicate 65 (.appendChar ⟨97, letterA_ne⟩) ++ replicate 64 .getChar ++
    [.appendChar ⟨98, letterB_ne⟩, .getChar]

theorem unread_character_replaced : ¬ (start.run typeAhead).IsQueue := by
  decide +kernel

end KeyboardInput
