import Mathlib.Tactic.Common

/-! Clients of one resource. Each client has a state of its own, and a call changes the
resource and the state of its client. If the clients leave the resource alike for each other,
none of them can tell from its results what the others do. -/
namespace SharedResource

open Function

variable {F P C R : Type} {act : F → P → C → Option (F × P × R)} {ok : P → Prop}
  {same : F → F → Prop}

def run (act : F → P → C → Option (F × P × R)) : F → (ℕ → P) → List (ℕ × C) → Option (List (ℕ × R))
  | _, _, [] => some []
  | f, own, (k, c) :: calls =>
    (act f (own k) c).bind fun (f, p, r) =>
      (run act f (update own k p) calls).map ((k, r) :: ·)

/-- A call keeps the resource alike, and has the same result on all that are alike. -/
structure Respects (act : F → P → C → Option (F × P × R)) (ok : P → Prop)
    (same : F → F → Prop) : Prop where
  keeps : ∀ {f g f' p p' c r}, ok p → same f g → act f p c = some (f', p', r) → same f' g
  agrees : ∀ {f g f' p p' c r}, ok p → same f g → act f p c = some (f', p', r) →
    ok p' ∧ ∃ g', act g p c = some (g', p', r) ∧ same f' g'

theorem run_filter (h : Respects act ok same) {f g} (hsame : same f g) {own other}
    (hok : ∀ k, ok (own k)) {k : ℕ} (hk : other k = own k) {calls}
    {results} (hrun : run act f own calls = some results) :
    run act g other (calls.filter (·.1 = k)) = some (results.filter (·.1 = k)) := by
  induction calls generalizing f g own other results with
  | nil =>
    obtain rfl : [] = results := Option.some.inj hrun
    rfl
  | cons call calls ih =>
    obtain ⟨j, c⟩ := call
    obtain ⟨⟨f', p, r⟩, hact, hmap⟩ := Option.bind_eq_some_iff.mp hrun
    obtain ⟨rest, hrest, rfl⟩ := Option.map_eq_some_iff.mp hmap
    obtain ⟨hp, g', hact', hsame'⟩ := h.agrees (hok j) hsame hact
    have hok' : ∀ l, ok (update own j p l) :=
      (forall_update_iff own fun _ => ok).mpr ⟨hp, fun l _ => hok l⟩
    by_cases hj : j = k
    · subst hj
      have hk' : update other j p j = update own j p j := by
        rw [update_self, update_self]
      have hnext := ih hsame' hok' hk' hrest
      rw [List.filter_cons_of_pos (by simp), List.filter_cons_of_pos (by simp), run, hk, hact',
        Option.bind_some]
      exact congrArg (Option.map ((j, r) :: ·)) hnext
    · rw [List.filter_cons_of_neg (by simpa using hj), List.filter_cons_of_neg (by simpa using hj)]
      refine ih (h.keeps (hok j) hsame hact) hok' ?_ hrest
      rw [hk, update_of_ne (Ne.symm hj)]

end SharedResource
