import FrostyOS.PooledObjects

/-! # New user tables

`x86_64_InitUserTable` gives `memset` the number of words of the table, where it takes bytes,
so that only the first 64 entries of the frame are cleared. -/
namespace PageTables

open LinkedPageManager

variable {F U A H : Type} (E : Services F U A H) {root : ℕ} {left : Index → Entry}

/-- The slots that every user table takes from the kernel's. -/
def Shared (i : Index) : Prop := i = pml4Index E.layout.hhdmStart ∨ i.val = 511

/-- Whatever the other frames hold, the table over a frame that held `left` translates no
address of its own. -/
def StartsEmpty (root : ℕ) (left : Index → Entry) : Prop :=
  ∀ memory : Memory, memory root = left → ∀ v, ¬ inKernel E.layout v → ¬ inHHDM E.layout v →
    ¬ Shared E (pml4Index v) → getPhysaddr E.layout (initUserTable E memory root) root v = 0

def ClearBehind (left : Index → Entry) : Prop :=
  ∀ i, 64 ≤ i.val → ¬ Shared E i → presentBit (left i) = false

/-- The addresses with a shortcut lie under the shared slots. -/
def Placed : Prop :=
  ∀ v, ¬ Shared E (pml4Index v) → ¬ inKernel E.layout v ∧ ¬ inHHDM E.layout v

variable {E}

theorem initUserTable_root {memory i} (h : ¬ Shared E i) :
    initUserTable E memory root root i = if i.val < 64 then 0 else memory root i :=
  (if_pos rfl).trans (if_neg h)

/-- The address whose four indices are the same. -/
def sameIndices (i : Index) : ℕ := i * (2 ^ 39 + 2 ^ 30 + 2 ^ 21 + 2 ^ 12) + 1

theorem tableIndex_sameIndices : ∀ i : Index,
    pml4Index (sameIndices i) = i ∧ pdpIndex (sameIndices i) = i ∧ pdIndex (sameIndices i) = i ∧
      ptIndex (sameIndices i) = i := by
  decide +kernel

/-- A walk that finds the same present entry in every table comes to an end. -/
theorem getPhysaddr_sameIndices {L memory i} (hkernel : ¬ inKernel L (sameIndices i))
    (hhhdm : ¬ inHHDM L (sameIndices i))
    (hpresent : ∀ table, presentBit (memory table i)) :
    getPhysaddr L memory root (sameIndices i) ≠ 0 := by
  obtain ⟨h4, h3, h2, h1⟩ := tableIndex_sameIndices i
  have hoffset : 0 < sameIndices i &&& 0xFFF := by
    have hmod : sameIndices i &&& 0xFFF = sameIndices i % 2 ^ 12 :=
      Nat.and_two_pow_sub_one_eq_mod _ 12
    rw [hmod, sameIndices]
    omega
  rw [getPhysaddr, if_neg hkernel, if_neg hhhdm]
  simp only [h4, h3, h2, h1, hpresent, Bool.true_eq_false, if_false]
  split
  · exact (hoffset.trans_le Nat.right_le_or).ne'
  · exact (hoffset.trans_le Nat.right_le_or).ne'

/-- **New address spaces.** A new user table is empty if no entry behind the 64th was left
present in its frame, and under the kernel's layout only then. -/
theorem startsEmpty_iff (E : Services F U A H) (root : ℕ) (left : Index → Entry) :
    (ClearBehind E left → StartsEmpty E root left) ∧
      (Placed E → StartsEmpty E root left → ClearBehind E left) := by
  constructor
  · rintro hclear memory rfl v hkernel hhhdm hshared
    have hentry : presentBit (initUserTable E memory root root (pml4Index v)) = false := by
      rw [initUserTable_root hshared]
      split
      · rfl
      · next h => exact hclear _ (not_lt.mp h) hshared
    rw [getPhysaddr, if_neg hkernel, if_neg hhhdm]
    exact if_pos hentry
  · intro hplaced hempty i hi hshared
    by_contra hpresent
    obtain ⟨h4, -⟩ := tableIndex_sameIndices i
    have hown : ¬ Shared E (pml4Index (sameIndices i)) := by rwa [h4]
    obtain ⟨hkernel, hhhdm⟩ := hplaced _ hown
    let memory : Memory := fun table => if table = root then left else fun _ => 1
    refine getPhysaddr_sameIndices hkernel hhhdm (fun table => ?_)
      (hempty memory (if_pos rfl) _ hkernel hhhdm hown)
    by_cases htable : table = root
    · rw [htable, initUserTable_root hshared, if_neg (not_lt.mpr hi)]
      simpa [memory] using hpresent
    · have hother : initUserTable E memory root table i = memory table i := if_neg htable
      rw [hother]
      simp [memory, htable, presentBit]

/-- An entry that was left in slot 64 translates in the new table. -/
theorem left_entry_translates :
    let left : Index → Entry := fun i => if i.val = 64 then 1 else 0
    let memory : Memory := fun table => if table = sampleRoot then left else fun _ => 1
    memory sampleRoot = left ∧ ¬ inKernel sampleLayout (sameIndices 64) ∧
      ¬ inHHDM sampleLayout (sameIndices 64) ∧
      ¬ Shared PooledObjects.sampleServices (pml4Index (sameIndices 64)) ∧
      getPhysaddr sampleLayout (initUserTable PooledObjects.sampleServices memory sampleRoot)
        sampleRoot (sameIndices 64) = 1 := by
  refine ⟨by simp, by decide +kernel, by decide +kernel, ?_, by decide +kernel⟩
  rintro (h | h)
  · exact absurd h (by decide +kernel)
  · exact absurd h (by decide +kernel)

end PageTables
