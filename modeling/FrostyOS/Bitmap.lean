import Mathlib.Tactic.Common

/-! # The bitmap of `Bitmap.cpp`

One bit for each index, most significant bit of a byte first. An index past the buffer
reads as clear and cannot be set. -/

structure Bitmap where
  size : ℕ
  buffer : ℕ → BitVec 8

namespace Bitmap

def bitIndexer (index : ℕ) : BitVec 8 := 0b10000000#8 >>> (index % 8)

def get (b : Bitmap) (index : ℕ) : Bool :=
  if b.size ≤ index / 8 then false
  else decide (0 < b.buffer (index / 8) &&& bitIndexer index)

def set (b : Bitmap) (index : ℕ) (value : Bool) : Bitmap :=
  { b with
    buffer :=
      if b.size ≤ index / 8 then b.buffer
      else if value then
        Function.update b.buffer (index / 8) (b.buffer (index / 8) ||| bitIndexer index)
      else
        Function.update b.buffer (index / 8) (b.buffer (index / 8) &&& ~~~ bitIndexer index) }

def bits (b : Bitmap) : ℕ := b.size * 8

variable {b : Bitmap} {i j : ℕ} {v : Bool}

@[simp] theorem set_bits : (b.set i v).bits = b.bits := rfl

theorem size_le_byte_iff : b.size ≤ i / 8 ↔ b.bits ≤ i := by
  unfold bits
  omega

theorem get_past_end (h : b.bits ≤ i) : b.get i = false := by
  simp [get, size_le_byte_iff, h]

theorem set_past_end (h : b.bits ≤ i) : b.set i v = b := by
  simp [set, size_le_byte_iff, h]

theorem lt_bits_of_get (h : b.get i) : i < b.bits := by
  by_contra hi
  rw [get_past_end (by omega)] at h
  cases h

theorem bitIndexer_eq (i : ℕ) : bitIndexer i = BitVec.twoPow 8 (7 - i % 8) := by
  have masks : ∀ k < 8, 0b10000000#8 >>> k = BitVec.twoPow 8 (7 - k) := by decide
  exact masks _ (Nat.mod_lt _ (by decide))

theorem masked_pos (x : BitVec 8) (i : ℕ) : 0 < x &&& bitIndexer i ↔ x.getLsbD (7 - i % 8) := by
  have hpos : ∀ k < 8, 0 < BitVec.twoPow 8 k := by decide
  rw [bitIndexer_eq, BitVec.and_twoPow]
  cases hx : x.getLsbD (7 - i % 8) with
  | true => simpa using hpos (7 - i % 8) (by omega)
  | false => simp

theorem get_in_range (h : i < b.bits) : b.get i = (b.buffer (i / 8)).getLsbD (7 - i % 8) := by
  have hin : ¬ b.size ≤ i / 8 := by
    rw [size_le_byte_iff]
    omega
  rw [get, if_neg hin, Bool.eq_iff_iff, decide_eq_true_iff]
  exact masked_pos _ i

theorem get_set (hi : i < b.bits) : (b.set i v).get j = if j = i then v else b.get j := by
  have hin : ¬ b.size ≤ i / 8 := by
    rw [size_le_byte_iff]
    omega
  by_cases hbyte : j / 8 = i / 8
  · have hj : j < b.bits := by
      unfold bits at *
      omega
    have hidx : j = i ↔ 7 - j % 8 = 7 - i % 8 := by omega
    have hlt : 7 - i % 8 < 8 ∧ 7 - j % 8 < 8 := by omega
    rw [get_in_range (b := b.set i v) hj, get_in_range hj]
    simp only [set, hin, hbyte, if_false, bitIndexer_eq, hidx]
    cases v <;> by_cases he : 7 - j % 8 = 7 - i % 8 <;> simp [he, hlt]
  · have hne : j ≠ i := fun h => hbyte (by rw [h])
    cases v <;> simp [get, set, hin, hbyte, hne]

end Bitmap
