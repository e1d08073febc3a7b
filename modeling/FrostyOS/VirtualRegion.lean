import FrostyOS.MachineWord
import Mathlib.Order.Interval.Set.LinearOrder

/-! # Virtual regions

A region is kept as its start, its end and its size, all of them 64-bit words; the sums
and differences wrap as the pointers of `VirtualRegion.cpp` do. -/

open MachineWord

structure VirtualRegion where
  start : ℕ
  endAddr : ℕ
  size : ℕ
  start_lt : start < 2 ^ 64
  size_lt : size < 2 ^ 64
  closed : endAddr = u64 (start + size)

namespace VirtualRegion

def ofSize (start size : ℕ) : VirtualRegion where
  start := u64 start
  endAddr := u64 (u64 start + u64 size)
  size := u64 size
  start_lt := u64_lt start
  size_lt := u64_lt size
  closed := rfl

theorem u64_add_subWord {a b : ℕ} (ha : a < 2 ^ 64) (hb : b < 2 ^ 64) :
    b = u64 (a + subWord b a) := by
  unfold u64 subWord
  omega

def ofBounds (start endAddr : ℕ) : VirtualRegion where
  start := u64 start
  endAddr := u64 endAddr
  size := subWord (u64 endAddr) (u64 start)
  start_lt := u64_lt start
  size_lt := u64_lt _
  closed := u64_add_subWord (u64_lt start) (u64_lt endAddr)

theorem endAddr_lt (r : VirtualRegion) : r.endAddr < 2 ^ 64 := by
  rw [r.closed]
  exact u64_lt _

def setStart (r : VirtualRegion) (start : ℕ) : VirtualRegion :=
  if r.endAddr < u64 start then r else ofBounds start r.endAddr

def expandRight (r : VirtualRegion) (newSize : ℕ) : VirtualRegion := ofSize r.start newSize

def isInside (r : VirtualRegion) (mem size : ℕ) : Bool :=
  decide (r.start ≤ mem ∧ u64 (mem + size) ≤ r.endAddr)

/-- The clipped address and size, or nothing when the range is found to be outside. -/
def ensureIsInside (r : VirtualRegion) (mem size : ℕ) : Option (ℕ × ℕ) :=
  if r.isInside mem size then some (mem, size)
  else if r.endAddr < mem then none
  else if u64 (mem + size) ≤ r.start then none
  else
    some (if r.start < u64 (mem + size) ∧ mem < r.start then r.start else mem,
      if r.size < size then subWord size (subWord mem r.start) else size)

/-- The region is an interval of the address space: its end has not wrapped. -/
def Straight (r : VirtualRegion) : Prop := r.start + r.size < 2 ^ 64

variable {r : VirtualRegion} {mem size : ℕ}

theorem Straight.endAddr_eq (h : r.Straight) : r.endAddr = r.start + r.size := by
  rw [r.closed]
  exact u64_of_lt h

theorem isInside_iff : r.isInside mem size ↔ r.start ≤ mem ∧ u64 (mem + size) ≤ r.endAddr := by
  simp [isInside]

theorem ensureIsInside_of_isInside (h : r.isInside mem size) :
    r.ensureIsInside mem size = some (mem, size) := by
  simp [ensureIsInside, h]

theorem expandRight_spec {newSize : ℕ} (h : r.start + newSize < 2 ^ 64) :
    (r.expandRight newSize).start = r.start ∧ (r.expandRight newSize).size = newSize ∧
      (r.expandRight newSize).endAddr = r.start + newSize := by
  have hs := u64_of_lt r.start_lt
  have hn : u64 newSize = newSize := u64_of_lt (by omega)
  unfold expandRight ofSize
  simp only [hs, hn, true_and]
  exact u64_of_lt h

theorem ensureIsInside_size_lt {a length : ℕ} (hs : size < 2 ^ 64)
    (h : r.ensureIsInside mem size = some (a, length)) : length < 2 ^ 64 := by
  unfold ensureIsInside at h
  split at h
  · simp_all
  split at h
  · cases h
  split at h
  · cases h
  · cases h
    split
    · exact Nat.mod_lt _ (by decide)
    · exact hs

/-! ## Clipping

What `EnsureIsInside` is for: the range it leaves is the part of the given range that lies
in the region. -/

def addresses (r : VirtualRegion) : Set ℕ := Set.Ico r.start r.endAddr

/-- The call says whether the range meets the region, and leaves what they share. -/
structure Clips (r : VirtualRegion) (mem size : ℕ) : Prop where
  meets : (r.ensureIsInside mem size).isSome ↔ (Set.Ico mem (mem + size) ∩ r.addresses).Nonempty
  cut : ∀ a length, r.ensureIsInside mem size = some (a, length) →
    Set.Ico a (a + length) = Set.Ico mem (mem + size) ∩ r.addresses

/-- A range that starts before the region gets `size + (start - mem)` as its size when it is
longer than the region. The sum is the right size only if it wraps to it. -/
def WrapsRight (r : VirtualRegion) (mem size : ℕ) : Prop := mem < r.start ∧ r.start < mem + size ∧
    (mem + size ≤ r.endAddr ∧ 2 * (r.start - mem) = 2 ^ 64 ∨
      r.start < r.endAddr ∧ r.endAddr < mem + size ∧
        size + (r.start - mem) = 2 ^ 64 + (r.endAddr - r.start))

/-- A nonempty range within the region, a range before it, a range that starts behind its
end, or one of the wrapped sizes. -/
def ClipClear (r : VirtualRegion) (mem size : ℕ) : Prop :=
  0 < size ∧ r.start ≤ mem ∧ mem + size ≤ r.endAddr ∨
    mem < r.start ∧ mem + size ≤ r.start ∨ r.endAddr < mem ∨ r.WrapsRight mem size

theorem size_eq_sub (h : r.start ≤ r.endAddr) : r.size = r.endAddr - r.start := by
  have hz := r.size_lt
  have hc := r.closed
  unfold u64 at hc
  omega

theorem shared_eq : Set.Ico mem (mem + size) ∩ r.addresses =
    Set.Ico (max mem r.start) (min (mem + size) r.endAddr) := Set.Ico_inter_Ico

theorem clips_of_none (h : r.ensureIsInside mem size = none) :
    r.Clips mem size ↔ min (mem + size) r.endAddr ≤ max mem r.start := by
  rw [← not_lt, ← Set.nonempty_Ico, ← shared_eq]
  constructor
  · intro hc hne
    have := hc.meets.mpr hne
    rw [h] at this
    cases this
  · intro hempty
    refine ⟨?_, ?_⟩
    · simp [h, hempty]
    · intro a length hsome
      rw [h] at hsome
      cases hsome

theorem clips_of_some {a length : ℕ} (h : r.ensureIsInside mem size = some (a, length)) :
    r.Clips mem size ↔ a = max mem r.start ∧ a + length = min (mem + size) r.endAddr ∧
      0 < length := by
  constructor
  · intro hc
    have hne : max mem r.start < min (mem + size) r.endAddr := by
      rw [← Set.nonempty_Ico, ← shared_eq]
      exact hc.meets.mp (by rw [h]; rfl)
    have hcut := hc.cut a length h
    rw [shared_eq, Set.Ico_eq_Ico_iff (.inr hne)] at hcut
    omega
  · rintro ⟨hl, hr, hpos⟩
    have hcut : Set.Ico a (a + length) = Set.Ico mem (mem + size) ∩ r.addresses := by
      rw [shared_eq, hl.symm, hr]
    refine ⟨?_, ?_⟩
    · rw [← hcut, Set.nonempty_Ico, h]
      simpa using hpos
    · intro a' length' hsome
      rw [h] at hsome
      cases hsome
      exact hcut

section NoWrap

variable (hw : mem + size < 2 ^ 64)

include hw

theorem ensureIsInside_outside (hout : ¬ (r.start ≤ mem ∧ mem + size ≤ r.endAddr))
    (h : r.endAddr < mem ∨ mem + size ≤ r.start) : r.ensureIsInside mem size = none := by
  have hin : r.isInside mem size = false := by
    simpa [isInside, u64_of_lt hw] using hout
  rcases h with h | h
  · simp [ensureIsInside, hin, h]
  · simp [ensureIsInside, hin, u64_of_lt hw, h]

theorem ensureIsInside_across (hout : ¬ (r.start ≤ mem ∧ mem + size ≤ r.endAddr))
    (hend : mem ≤ r.endAddr) (hstart : r.start < mem + size) :
    r.ensureIsInside mem size = some (max mem r.start,
      if r.size < size then subWord size (subWord mem r.start) else size) := by
  have hin : r.isInside mem size = false := by
    simpa [isInside, u64_of_lt hw] using hout
  have hmax : (if mem < r.start then r.start else mem) = max mem r.start := by
    split <;> omega
  simp [ensureIsInside, hin, u64_of_lt hw, not_lt.mpr hend, hstart, hmax]

theorem leftClear_iff (hl : mem < r.start) (hr : r.start < mem + size) (hend : mem ≤ r.endAddr) :
    (r.start + (if r.size < size then subWord size (subWord mem r.start) else size) =
        min (mem + size) r.endAddr ∧
      0 < if r.size < size then subWord size (subWord mem r.start) else size) ↔
      r.ClipClear mem size := by
  have hclear : r.ClipClear mem size ↔ r.WrapsRight mem size := by
    constructor
    · rintro (h | h | h | h)
      · omega
      · omega
      · omega
      · exact h
    · exact fun h => .inr (.inr (.inr h))
  have he := r.endAddr_lt
  have hsub : subWord mem r.start = 2 ^ 64 - (r.start - mem) := by
    unfold subWord
    omega
  rw [hclear, hsub]
  unfold WrapsRight subWord
  by_cases hle : r.start ≤ r.endAddr
  · rw [size_eq_sub hle]
    by_cases hb : mem + size ≤ r.endAddr
    · rw [Nat.min_eq_left hb]
      split <;> omega
    · rw [Nat.min_eq_right (by omega)]
      split <;> omega
  · rw [Nat.min_eq_right (by omega)]
    split <;> omega

omit hw in
theorem clips_left (hl : mem < r.start) {length : ℕ}
    (h : r.ensureIsInside mem size = some (max mem r.start, length)) :
    r.Clips mem size ↔ r.start + length = min (mem + size) r.endAddr ∧ 0 < length := by
  rw [clips_of_some h, Nat.max_eq_right hl.le]
  simp

omit hw in
theorem clips_right (hl : r.start ≤ mem) (hr : r.endAddr < mem + size) {length : ℕ}
    (h : r.ensureIsInside mem size = some (max mem r.start, length)) :
    r.Clips mem size ↔ mem + length = r.endAddr ∧ 0 < length := by
  rw [clips_of_some h, Nat.max_eq_left hl, Nat.min_eq_right hr.le]
  simp

/-- `EnsureIsInside` cuts a range to the region if the range lies within the region or
outside of it. A range that lies across a bound is cut wrongly, apart from the sizes that
wrap to the right one; an empty range within the region and one at its end are accepted. -/
theorem clips_iff : r.Clips mem size ↔ r.ClipClear mem size := by
  by_cases hin : r.start ≤ mem ∧ mem + size ≤ r.endAddr
  · have hsome : r.ensureIsInside mem size = some (mem, size) :=
      ensureIsInside_of_isInside (isInside_iff.mpr (by rwa [u64_of_lt hw]))
    rw [clips_of_some hsome, Nat.max_eq_left hin.1, Nat.min_eq_left hin.2]
    unfold ClipClear WrapsRight
    omega
  · by_cases hout : r.endAddr < mem ∨ mem + size ≤ r.start
    · rw [clips_of_none (ensureIsInside_outside hw hin hout)]
      unfold ClipClear
      omega
    · have hend : mem ≤ r.endAddr := by omega
      have hstart : r.start < mem + size := by omega
      have hsome := ensureIsInside_across hw hin hend hstart
      by_cases hl : mem < r.start
      · rw [clips_left hl hsome]
        exact leftClear_iff hw hl hstart hend
      have hr : r.endAddr < mem + size := by omega
      have hsize := size_eq_sub (r := r) (by omega)
      rw [clips_right (by omega) hr hsome, hsize]
      unfold ClipClear WrapsRight subWord
      split <;> omega

end NoWrap

theorem clips_inner_page : (ofBounds 0x1000 0x3000).Clips 0x2000 0x1000 :=
  (clips_iff (by decide)).mpr (.inl (by decide))

/-- Two pages of which one lies in the region of two stay two pages. -/
theorem ensureIsInside_keeps_overhang :
    (ofBounds 0x1000 0x3000).ensureIsInside 0x2000 0x2000 = some (0x2000, 0x2000) ∧
      ¬ (ofBounds 0x1000 0x3000).Clips 0x2000 0x2000 := by
  have hsome : (ofBounds 0x1000 0x3000).ensureIsInside 0x2000 0x2000 = some (0x2000, 0x2000) := by
    decide
  refine ⟨hsome, fun h => ?_⟩
  rw [clips_of_some hsome] at h
  exact absurd h.2.1 (by decide)

end VirtualRegion
