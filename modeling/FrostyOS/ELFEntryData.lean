import FrostyOS.ELFBounds

/-! # The entry data of a program

What `ELF_Executable::Load` builds after the segments: one block with the counts, the two
pointer tables and copies of the strings. The run is kept as the list of its stores. -/

open MachineWord ByteMemory

namespace ELF

open List

/-- A string of the caller, without its terminator. -/
structure Argument where
  pointer : ℕ
  text : List UInt8
  deriving DecidableEq, Repr

/-- `ELF_entry_data`; the counts are `int64_t`. -/
structure EntryData where
  argv : List Argument
  envv : List Argument
  argvPointer : ℕ
  envvPointer : ℕ
  argc_lt : argv.length < 2 ^ 63
  envc_lt : envv.length < 2 ^ 63

/-- Bytes, and the offset in the block they are stored at. -/
abbrev Store := ℕ × List UInt8

def storeWord (offset value : ℕ) : Store := (offset, toBytes 8 value)

def textSize : List Argument → ℕ
  | [] => 0
  | s :: ss => s.text.length + 1 + textSize ss

/-- The offset after the copies. The loop adds one more for each string than its bytes. -/
def afterStrings : List Argument → ℕ → ℕ
  | [], offset => offset
  | s :: ss, offset => afterStrings ss (offset + s.text.length + 1 + 1)

def copyStrings (base : ℕ) : List Argument → ℕ → ℕ → List Store
  | [], _, _ => []
  | s :: ss, table, offset =>
    storeWord table (base + offset) :: (offset, s.text ++ [0]) ::
      copyStrings base ss (table + 8) (offset + s.text.length + 1 + 1)

namespace EntryData

variable (d : EntryData)

def size : ℕ :=
  32 + (d.argv.length + 1) * 8 + (d.envv.length + 1) * 8 + textSize d.argv + 1 +
    textSize d.envv + 1

def totalSize : ℕ := u64 d.size

def envvOffset : ℕ := 32 + (d.argv.length + 1) * 8

def argvTexts : ℕ := d.envvOffset + (d.envv.length + 1) * 8

def argvEnd : ℕ := afterStrings d.argv d.argvTexts

def envvEnd : ℕ := afterStrings d.envv (d.argvEnd + 1)

/-- The stores before the strings: the block is zeroed, and then the caller's entry data and
its pointer tables are copied. -/
def tableStores (base : ℕ) : List Store :=
  [(0, replicate (8 * (alignUp d.totalSize pageSize >>> 3)) 0),
    storeWord 0 d.argv.length, storeWord 8 d.argvPointer,
    storeWord 16 d.envv.length, storeWord 24 d.envvPointer,
    storeWord 8 (base + 32), (32, d.argv.flatMap fun s => toBytes 8 s.pointer),
    storeWord 24 (base + d.envvOffset), (d.envvOffset, d.envv.flatMap fun s => toBytes 8 s.pointer)]

def envvStores (base : ℕ) : List Store :=
  (d.argvEnd, [0]) ::
    (copyStrings base d.envv d.envvOffset (d.argvEnd + 1) ++ [(d.envvEnd, [0])])

def textStores (base : ℕ) : List Store :=
  copyStrings base d.argv 32 d.argvTexts ++ d.envvStores base

def stores (base : ℕ) : List Store := d.tableStores base ++ d.textStores base

end EntryData

variable {base table offset n : ℕ} {d : EntryData} {ss : List Argument}

theorem afterStrings_eq : afterStrings ss offset = offset + textSize ss + ss.length := by
  induction ss generalizing offset with
  | nil => rfl
  | cons s ss ih =>
    rw [afterStrings, ih, textSize, length_cons]
    omega

theorem length_pointers : (ss.flatMap fun s => toBytes 8 s.pointer).length = 8 * ss.length := by
  induction ss with
  | nil => rfl
  | cons s ss ih =>
    rw [flatMap_cons, length_append, length_toBytes, ih, length_cons]
    omega

theorem argvTexts_le : d.argvTexts ≤ d.argvEnd := by
  rw [EntryData.argvEnd, afterStrings_eq]
  omega

theorem argvEnd_lt : d.argvEnd < d.envvEnd := by
  rw [EntryData.envvEnd, afterStrings_eq]
  omega

theorem envvEnd_eq : d.envvEnd + 1 = d.size + d.argv.length + d.envv.length := by
  rw [EntryData.envvEnd, EntryData.argvEnd, afterStrings_eq, afterStrings_eq]
  unfold EntryData.argvTexts EntryData.envvOffset EntryData.size
  omega

theorem mem_copyStrings {w} (hw : w ∈ copyStrings base ss table offset) :
    (table ≤ w.1 ∧ w.1 + w.2.length ≤ table + 8 * ss.length) ∨
      (offset ≤ w.1 ∧ w.1 + w.2.length ≤ afterStrings ss offset) := by
  induction ss generalizing table offset with
  | nil => cases hw
  | cons s ss ih =>
    have hend : offset + s.text.length + 2 ≤ afterStrings (s :: ss) offset := by
      rw [afterStrings, afterStrings_eq]
      omega
    rw [length_cons]
    rcases mem_cons.mp hw with rfl | hw
    · left
      simp only [storeWord, length_toBytes]
      omega
    rcases mem_cons.mp hw with rfl | hw
    · right
      rw [length_append, length_singleton]
      omega
    rcases ih hw with h | h
    · left
      omega
    · right
      rw [afterStrings]
      omega

theorem mem_envvStores {w} (hw : w ∈ d.envvStores base) :
    (d.envvOffset ≤ w.1 ∧ w.1 + w.2.length ≤ d.envvOffset + 8 * d.envv.length) ∨
      (d.argvEnd ≤ w.1 ∧ w.1 + w.2.length ≤ d.envvEnd + 1) := by
  have hend := argvEnd_lt (d := d)
  rcases mem_cons.mp hw with rfl | hw
  · rw [length_singleton]
    omega
  rcases mem_append.mp hw with hw | hw
  · have hstrings := mem_copyStrings hw
    change _ ∨ (_ ∧ _ ≤ d.envvEnd) at hstrings
    omega
  · rw [mem_singleton.mp hw, length_singleton]
    omega

theorem mem_textStores {w} (hw : w ∈ d.textStores base) :
    (32 ≤ w.1 ∧ w.1 + w.2.length ≤ 32 + 8 * d.argv.length) ∨
      (d.envvOffset ≤ w.1 ∧ w.1 + w.2.length ≤ d.envvOffset + 8 * d.envv.length) ∨
      (d.argvTexts ≤ w.1 ∧ w.1 + w.2.length ≤ d.envvEnd + 1) := by
  have htexts := argvTexts_le (d := d)
  have hend := argvEnd_lt (d := d)
  rcases mem_append.mp hw with hw | hw
  · have hstrings := mem_copyStrings hw
    change _ ∨ (_ ∧ _ ≤ d.argvEnd) at hstrings
    omega
  · have := mem_envvStores hw
    omega

theorem mem_tableStores {w} (hw : w ∈ d.tableStores base) :
    w.1 + w.2.length ≤ max (alignUp d.totalSize pageSize) d.argvTexts := by
  have htables : d.argvTexts = d.envvOffset + (d.envv.length + 1) * 8 := rfl
  have henvv : d.envvOffset = 32 + (d.argv.length + 1) * 8 := rfl
  simp only [EntryData.tableStores, mem_cons, not_mem_nil, or_false, storeWord] at hw
  rcases hw with rfl | rfl | rfl | rfl | rfl | rfl | rfl | rfl | rfl <;>
    simp only [length_toBytes, length_pointers, length_replicate, Nat.shiftRight_eq_div_pow] <;>
    omega

theorem last_mem_stores : (d.envvEnd, [0]) ∈ d.stores base := by
  simp only [EntryData.stores, EntryData.textStores, EntryData.envvStores, mem_append, mem_cons,
    true_or, or_true]

/-- **The block has room for what is stored in it exactly when its pages hold one byte more
for each string** than the size that was computed. -/
theorem entry_data_fits_iff (d : EntryData) (base : ℕ) :
    (∀ w ∈ d.stores base, ∀ x, w.1 ≤ x → x < w.1 + w.2.length →
      x < alignUp d.totalSize pageSize) ↔
    d.size + d.argv.length + d.envv.length ≤ alignUp d.totalSize pageSize := by
  rw [← envvEnd_eq]
  constructor
  · intro h
    exact h _ last_mem_stores d.envvEnd (Nat.le_refl _) (Nat.lt_succ_self _)
  · intro h w hw x _ hx
    have htexts := argvTexts_le (d := d)
    have hend := argvEnd_lt (d := d)
    rcases mem_append.mp hw with hw | hw
    · have hle := mem_tableStores hw
      omega
    · have hle := mem_textStores hw
      have htables : d.argvTexts = d.envvOffset + (d.envv.length + 1) * 8 := rfl
      have henvv : d.envvOffset = 32 + (d.argv.length + 1) * 8 := rfl
      omega

def oneArgument (n : ℕ) : EntryData :=
  ⟨[⟨0, replicate n 97⟩], [], 0, 0, Nat.one_lt_two_pow (Nat.succ_ne_zero 62), Nat.two_pow_pos 63⟩

/-- With an argument of 4037 bytes the size is that of a page, and a byte is stored behind
that page. -/
theorem entry_data_overruns : alignUp (oneArgument 4037).totalSize pageSize = 4096 ∧
    ∃ w ∈ (oneArgument 4037).stores 0x1000, w.1 = 4096 ∧ 0 < w.2.length := by
  have hsize : alignUp (oneArgument 4037).totalSize pageSize = 4096 ∧
      (oneArgument 4037).envvEnd = 4096 := by decide +kernel
  exact ⟨hsize.1, _, last_mem_stores, hsize.2, Nat.one_pos⟩

end ELF
