import Mathlib.Algebra.Ring.Nat
import Mathlib.Tactic.Common

/-! 64-bit unsigned arithmetic of the kernel, over naturals reduced modulo 2^64,
and the rounding macros of `util.h` in the order in which the compiler evaluates them. -/
namespace MachineWord

def u64 (n : ℕ) : ℕ := n % 2 ^ 64

def subWord (a b : ℕ) : ℕ := (a + (2 ^ 64 - b)) % 2 ^ 64

def uint64Max : ℕ := 2 ^ 64 - 1

def pageSize : ℕ := 4096

def divRoundup (value div : ℕ) : ℕ := u64 (value + (div - 1)) / div

def alignUp (value align : ℕ) : ℕ := u64 (divRoundup value align * align)

def alignDown (value align : ℕ) : ℕ := value / align * align

theorem u64_of_lt {n : ℕ} (h : n < 2 ^ 64) : u64 n = n := Nat.mod_eq_of_lt h

theorem u64_lt (n : ℕ) : u64 n < 2 ^ 64 := Nat.mod_lt _ (by decide)

theorem subWord_of_le {a b : ℕ} (ha : a < 2 ^ 64) (h : b ≤ a) : subWord a b = a - b := by
  unfold subWord
  omega

theorem alignUp_spec {v a : ℕ} (ha : 0 < a) (h : v + (a - 1) < 2 ^ 64) :
    v ≤ alignUp v a ∧ alignUp v a ≤ v + (a - 1) ∧ a ∣ alignUp v a := by
  have hd := Nat.div_add_mod (v + (a - 1)) a
  have hm := Nat.mod_lt (v + (a - 1)) ha
  rw [mul_comm] at hd
  have he : alignUp v a = (v + (a - 1)) / a * a := by
    unfold alignUp divRoundup
    rw [u64_of_lt h, u64_of_lt (by omega)]
  rw [he]
  exact ⟨by omega, by omega, Nat.dvd_mul_left _ _⟩

theorem lt_alignUp_iff {v a : ℕ} (ha : 0 < a) (h : v + (a - 1) < 2 ^ 64) :
    v < alignUp v a ↔ ¬ a ∣ v := by
  obtain ⟨hle, hub, hdvd⟩ := alignUp_spec ha h
  constructor
  · intro hlt hv
    have := Nat.le_of_dvd (by omega) (Nat.dvd_sub hdvd hv)
    omega
  · intro hv
    refine lt_of_le_of_ne hle fun he => hv ?_
    rwa [← he] at hdvd

end MachineWord
