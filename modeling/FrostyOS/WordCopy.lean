import Mathlib.Data.Nat.Init

/-! # Copying and filling memory word by word

Memory is a function from cells to values and a word is a number of cells. A loop that stores
one word after the other leaves exactly the cells of its words changed. -/
namespace WordCopy

variable {α : Type*}

def storeWord (size dst : ℕ) (word : ℕ → α) (memory : ℕ → α) : ℕ → α := fun j =>
  if dst ≤ j ∧ j < dst + size then word (j - dst) else memory j

def copyWords (size : ℕ) (source : (ℕ → α) → ℕ → α) (dst src : ℕ) : ℕ → (ℕ → α) → ℕ → α
  | 0, memory => memory
  | count + 1, memory =>
    let before := copyWords size source dst src count memory
    storeWord size (dst + size * count) (fun i => source before (src + size * count + i)) before

def fillWords (size : ℕ) (word : ℕ → α) (dst : ℕ) : ℕ → (ℕ → α) → ℕ → α
  | 0, memory => memory
  | count + 1, memory =>
    storeWord size (dst + size * count) word (fillWords size word dst count memory)

theorem storeWord_inside {size dst : ℕ} (word memory : ℕ → α) {j : ℕ} (h : dst ≤ j)
    (hlt : j < dst + size) : storeWord size dst word memory j = word (j - dst) := if_pos ⟨h, hlt⟩

theorem storeWord_outside {size dst : ℕ} (word memory : ℕ → α) {j : ℕ}
    (h : ¬ (dst ≤ j ∧ j < dst + size)) : storeWord size dst word memory j = memory j := if_neg h

theorem fillWords_apply (size : ℕ) (value : α) (dst count : ℕ) (memory : ℕ → α) (j : ℕ) :
    fillWords size (fun _ => value) dst count memory j =
      if dst ≤ j ∧ j < dst + size * count then value else memory j := by
  induction count with
  | zero => rw [fillWords, if_neg (by omega)]
  | succ count ih =>
    have hsize : size * (count + 1) = size * count + size := Nat.mul_succ size count
    rw [fillWords, hsize]
    by_cases hlast : dst + size * count ≤ j ∧ j < dst + size * count + size
    · rw [storeWord_inside _ _ hlast.1 hlast.2, if_pos (by omega)]
    · rw [storeWord_outside _ _ hlast, ih]
      by_cases hin : dst ≤ j ∧ j < dst + size * count
      · rw [if_pos hin, if_pos (by omega)]
      · rw [if_neg hin, if_neg (by omega)]

/-- What is read does not depend on what is written. -/
def Apart (source : (ℕ → α) → ℕ → α) (dst src cells : ℕ) : Prop :=
  ∀ memory other : ℕ → α, (∀ j, ¬ (dst ≤ j ∧ j < dst + cells) → memory j = other j) →
    ∀ i, i < cells → source memory (src + i) = source other (src + i)

theorem apart_const (g : ℕ → α) (dst src cells : ℕ) : Apart (fun _ => g) dst src cells :=
  fun _ _ _ _ _ => rfl

theorem apart_self {dst src cells : ℕ} (h : dst + cells ≤ src) :
    Apart (fun memory : ℕ → α => memory) dst src cells := by
  intro memory other hsame i _
  exact hsame (src + i) (by omega)

theorem Apart.mono {source : (ℕ → α) → ℕ → α} {dst src cells fewer : ℕ}
    (h : Apart source dst src cells) (hle : fewer ≤ cells) : Apart source dst src fewer := by
  intro memory other hsame i hi
  exact h memory other (fun j hj => hsame j (by omega)) i (by omega)

theorem copyWords_apply (size : ℕ) (source : (ℕ → α) → ℕ → α) (dst src count : ℕ)
    (h : Apart source dst src (size * count)) (memory : ℕ → α) (j : ℕ) :
    copyWords size source dst src count memory j =
      if dst ≤ j ∧ j < dst + size * count then source memory (src + (j - dst)) else memory j := by
  induction count generalizing j with
  | zero => rw [copyWords, if_neg (by omega)]
  | succ count ih =>
    have hsize : size * (count + 1) = size * count + size := Nat.mul_succ size count
    have hfewer := h.mono (show size * count ≤ size * (count + 1) by omega)
    have hbefore := ih hfewer
    rw [copyWords]
    by_cases hlast : dst + size * count ≤ j ∧ j < dst + size * count + size
    · -- the last word is read from a memory that differs only in cells already written
      have hread := h (copyWords size source dst src count memory) memory
        (fun k hk => by rw [hbefore k, if_neg (by omega)]) (j - dst) (by omega)
      have hcell : src + size * count + (j - (dst + size * count)) = src + (j - dst) := by omega
      rw [storeWord_inside _ _ hlast.1 hlast.2, if_pos (by omega), hcell, hread]
    · rw [storeWord_outside _ _ hlast, hbefore j]
      by_cases hin : dst ≤ j ∧ j < dst + size * count
      · rw [if_pos hin, if_pos (by omega)]
      · rw [if_neg hin, if_neg (by omega)]

end WordCopy
