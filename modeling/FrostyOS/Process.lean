import FrostyOS.WritableCheck

/-! # Pointer checks of a process

A system call trusts a user pointer after the tests of `Process.cpp`. -/

open MachineWord

structure Process (F U A : Type) where
  region : VirtualRegion
  pm : Option (PageManager F U A)

namespace Process

variable {F U A : Type}

variable (p : Process F U A) {buf size : ℕ}

def validateRead (buf size : ℕ) : Bool := p.region.isInside buf size

def validateWrite (buf size : ℕ) : Bool :=
  if p.region.isInside buf size = false then false
  else
    match p.pm with
    | none => false
    | some pm => PageManager.isWritable pm.objects buf size

/-- Every byte lies in the region of the process, with addresses counted without bound. -/
def Inside (buf size : ℕ) : Prop :=
  ∀ k < size, p.region.start ≤ buf + k ∧ buf + k < p.region.endAddr

theorem inside_of_isInside (hword : buf + size < 2 ^ 64)
    (h : p.region.isInside buf size) : p.Inside buf size := by
  rw [VirtualRegion.isInside_iff, u64_of_lt hword] at h
  intro k hk
  omega

/-- Both tests of `ValidateWrite` together: a buffer that does not wrap and whose objects
join up lies in the region and is writable byte by byte. -/
theorem validateWrite_sound {pm} (hpm : p.pm = some pm) (hword : buf + size < 2 ^ 64)
    (hwalk : PageManager.WalkConnected pm.objects buf size) (h : p.validateWrite buf size) :
    p.Inside buf size ∧
      ∀ b, buf ≤ b → b < buf + size → ∃ o ∈ pm.objects, o.Contains b ∧ o.isWritable := by
  simp only [validateWrite, hpm] at h
  split at h
  · cases h
  · rename_i hregion
    exact ⟨p.inside_of_isInside hword (by simpa only [Bool.not_eq_false] using hregion),
      hwalk.sound hword h⟩

/-- The region test vouches for the whole buffer exactly if the buffer does not wrap, or if
it starts below the region, or if its wrapped end still lies behind the region. -/
theorem region_test_sound_iff (hbuf : buf < 2 ^ 64) (hsize : size < 2 ^ 64) :
    (p.validateRead buf size = true ∨ p.region.isInside buf size = true → p.Inside buf size) ↔
      buf + size < 2 ^ 64 ∨ buf < p.region.start ∨ p.region.endAddr < buf + size - 2 ^ 64 := by
  have hend := p.region.endAddr_lt
  simp only [validateRead, or_self]
  by_cases hwrap : buf + size < 2 ^ 64
  · simp only [hwrap, true_or, iff_true]
    exact p.inside_of_isInside hwrap
  have hword : u64 (buf + size) = buf + size - 2 ^ 64 := by
    unfold u64
    omega
  simp only [VirtualRegion.isInside_iff, hword, hwrap, false_or]
  constructor
  · intro h
    by_contra hout
    have hlast := h (by omega) (size - 1) (by omega)
    omega
  · intro h htest
    omega

def sampleProcess : Process Unit Unit Unit := ⟨.ofBounds 0x1000 0x10000, none⟩

theorem region_test_sound_iff_sample :
    sampleProcess.validateRead 0x2000 0x100 = true ∧ sampleProcess.Inside 0x2000 0x100 := by
  have htest : sampleProcess.validateRead 0x2000 0x100 = true := by decide
  exact ⟨htest, (region_test_sound_iff sampleProcess (by decide) (by decide)).mpr
    (.inl (by decide)) (.inl htest)⟩

/-- A buffer that wraps around the top of memory passes. -/
theorem region_test_accepts_wrap :
    sampleProcess.validateRead 0xFFFFFFFFFFFFF000 0x2000 = true ∧
      ¬ sampleProcess.Inside 0xFFFFFFFFFFFFF000 0x2000 := by
  refine ⟨by decide, fun h => ?_⟩
  exact absurd (h 0 (by decide)).2 (by decide)

end Process
