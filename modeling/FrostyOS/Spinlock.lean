import Mathlib.Logic.Function.Iterate

/-! # Spinlocks

`spinlock.asm`, with each access to the lock as one step. -/
namespace Spinlock

variable {P : Type} [DecidableEq P]

/-- Where a processor is: at the `lock bts`, in the loop behind it, or between both calls. -/
inductive Place where
  | outside
  | acquiring
  | spinning
  | holding

structure State (P : Type) where
  lock : UInt64
  place : P → Place

def State.set (s : State P) (lock : UInt64) (p : P) (x : Place) : State P :=
  ⟨lock, Function.update s.place p x⟩

def State.step (s : State P) (p : P) : State P :=
  match s.place p with
  | .outside => s.set s.lock p .acquiring
  | .acquiring =>
    if s.lock &&& 1 = 0 then s.set (s.lock ||| 1) p .holding else s.set s.lock p .spinning
  | .spinning => if s.lock &&& 1 = 0 then s.set s.lock p .acquiring else s
  | .holding => s.set 0 p .outside

def run (schedule : List P) : State P := schedule.foldl State.step ⟨0, fun _ => .outside⟩

/-- The lock says whether there is a holder. -/
structure HeldBy (holder : Option P) (s : State P) : Prop where
  lock : s.lock = if holder.isSome then 1 else 0
  place : ∀ p, s.place p = .holding ↔ holder = some p

theorem HeldBy.step {s : State P} {holder} (h : HeldBy holder s) (p : P) :
    ∃ holder, HeldBy holder (s.step p) := by
  obtain ⟨hlock, hplace⟩ := h
  have hset : ∀ lock x q, (s.set lock p x).place q = if q = p then x else s.place q :=
    fun _ _ _ => Function.update_apply ..
  unfold State.step
  split
  · exact ⟨holder, hlock, by grind⟩
  · split
    · cases holder with
      | none => exact ⟨some p, by simp [State.set, hlock], by grind⟩
      | some q => simp_all
    · exact ⟨holder, hlock, by grind⟩
  · split
    · exact ⟨holder, hlock, by grind⟩
    · exact ⟨holder, hlock, hplace⟩
  · exact ⟨none, rfl, by grind⟩

/-- **Exclusion and progress.** However the processors' steps interleave, at most one of them
holds the lock; when none does, each gets it within two steps of its own. -/
theorem lock_exclusive (schedule : List P) :
    (∀ p q, (run schedule).place p = .holding → (run schedule).place q = .holding → p = q) ∧
      ((∀ p, (run schedule).place p ≠ .holding) →
        ∀ p, ∃ k ≤ 2, ((State.step · p)^[k] (run schedule)).place p = .holding) := by
  obtain ⟨holder, hlock, hplace⟩ : ∃ holder, HeldBy holder (run schedule) := by
    apply List.foldlRecOn (motive := fun s => ∃ holder, HeldBy holder s)
    · exact ⟨none, rfl, by simp⟩
    · exact fun _ h p _ => h.elim fun _ h => h.step p
  refine ⟨by grind, fun hnone p => ?_⟩
  obtain rfl : holder = none :=
    Option.eq_none_iff_forall_ne_some.mpr fun q hq => hnone q ((hplace q).mpr hq)
  cases hp : (run schedule).place p with
  | acquiring => exact ⟨1, by decide, by simp [State.step, State.set, hp, hlock]⟩
  | holding => exact absurd hp (hnone p)
  | _ => exact ⟨2, by decide, by simp [State.step, State.set, hp, hlock]⟩

end Spinlock
