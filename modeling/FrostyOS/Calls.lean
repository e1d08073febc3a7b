import Mathlib.Tactic.Common

/-! # Calls that may not come back

A call leaves a state and gives a result, or none if it does not come back. `Ensures` is
what holds behind it; where `stuck` is never the case, the call comes back. -/
namespace Calls

variable {σ α β : Type} {stuck stuck' : σ → Prop} {post post' : σ → α → Prop}
  {r : σ × Option α} {f : σ → α → σ × Option β} {s : σ} {a : α}

def andThen (r : σ × Option α) (f : σ → α → σ × Option β) : σ × Option β :=
  match r.2 with
  | none => (r.1, none)
  | some a => f r.1 a

def Ensures (stuck : σ → Prop) (post : σ → α → Prop) (r : σ × Option α) : Prop :=
  match r.2 with
  | none => stuck r.1
  | some a => post r.1 a

@[simp] theorem andThen_none : andThen (s, none) f = (s, none) := rfl

@[simp] theorem andThen_some : andThen (s, some a) f = f s a := rfl

@[simp] theorem ensures_none : Ensures stuck post (s, none) ↔ stuck s := Iff.rfl

@[simp] theorem ensures_some : Ensures stuck post (s, some a) ↔ post s a := Iff.rfl

theorem Ensures.andThen {post'} (hr : Ensures stuck post r)
    (hf : ∀ s a, post s a → Ensures stuck post' (f s a)) : Ensures stuck post' (andThen r f) := by
  obtain ⟨s, _ | a⟩ := r
  · exact hr
  · exact hf s a hr

theorem Ensures.stop {post'} (hr : Ensures stuck (fun _ _ => False) r) :
    Ensures stuck post' (Calls.andThen r f) := hr.andThen fun _ _ hf => hf.elim

theorem Ensures.mono (hr : Ensures stuck post r) (hstuck : ∀ s, stuck s → stuck' s)
    (hpost : ∀ s a, post s a → post' s a) : Ensures stuck' post' r := by
  obtain ⟨s, _ | a⟩ := r
  · exact hstuck s hr
  · exact hpost s a hr

theorem Ensures.post_of_eq (hr : Ensures stuck post r) (h : r = (s, some a)) : post s a := by
  rw [h] at hr
  exact hr

theorem Ensures.returns (hr : Ensures (fun _ => False) post r) :
    ∃ s a, r = (s, some a) ∧ post s a := by
  obtain ⟨s, _ | a⟩ := r
  · exact False.elim hr
  · exact ⟨s, a, rfl, hr⟩

end Calls
