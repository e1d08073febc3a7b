import Mathlib.Tactic.Common

/-! # Runs that leave a trace

A run performs actions in order and ends with a value, or stops early without one. What a
bound on every action means for a run is read off its steps. -/

structure Trace (ε α : Type) where
  actions : List ε
  result : Option α

namespace Trace

open List

variable {ε α β σ : Type} {P : ε → Prop}

def stop : Trace ε α := ⟨[], none⟩

def act (a : ε) (v : α) : Trace ε α := ⟨[a], some v⟩

def emit (a : ε) : Trace ε Unit := act a ()

protected def bind (t : Trace ε α) (f : α → Trace ε β) : Trace ε β :=
  match t.result with
  | none => ⟨t.actions, none⟩
  | some v => ⟨t.actions ++ (f v).actions, (f v).result⟩

instance : Monad (Trace ε) where
  pure v := ⟨[], some v⟩
  bind := Trace.bind

def loop (test : ℕ → Trace ε Bool) (body : ℕ → σ → Trace ε σ) : ℕ → ℕ → σ → Trace ε σ
  | 0, _, s => pure s
  | turns + 1, i, s => do
    let more ← test i
    if more then
      let s ← body i s
      loop test body turns (i + 1) s
    else pure s

def Every (P : ε → Prop) (t : Trace ε α) : Prop := ∀ a ∈ t.actions, P a

@[simp] theorem result_pure (v : α) : (pure v : Trace ε α).result = some v := rfl

@[simp] theorem actions_act (a : ε) (v : α) : (act a v).actions = [a] := rfl

theorem result_bind (t : Trace ε α) (f : α → Trace ε β) :
    (t >>= f).result = t.result.bind fun v => (f v).result := by
  change (Trace.bind t f).result = _
  rw [Trace.bind]
  cases t.result <;> rfl

variable {f : α → Trace ε β} {a : ε} {v : α} {t : Trace ε α}

theorem actions_bind (h : t.result = some v) (f : α → Trace ε β) :
    (t >>= f).actions = t.actions ++ (f v).actions := by
  change (Trace.bind t f).actions = _
  rw [Trace.bind, h]

theorem actions_bind_none (h : t.result = none) (f : α → Trace ε β) :
    (t >>= f).actions = t.actions := by
  change (Trace.bind t f).actions = _
  rw [Trace.bind, h]

@[simp] theorem every_pure (v : α) : Every P (pure v : Trace ε α) := fun _ h => by cases h

@[simp] theorem every_stop : Every P (stop : Trace ε α) := fun _ h => by cases h

@[simp] theorem every_act : Every P (act a v) ↔ P a := forall_mem_singleton

theorem every_bind : Every P (t >>= f) ↔ Every P t ∧ ∀ v, t.result = some v → Every P (f v) := by
  cases h : t.result with
  | none =>
    rw [Every, actions_bind_none h]
    exact ⟨fun ht => ⟨ht, fun v hv => by cases hv⟩, fun ht => ht.1⟩
  | some v =>
    rw [Every, actions_bind h, forall_mem_append]
    constructor
    · rintro ⟨ht, hf⟩
      refine ⟨ht, fun w hw => ?_⟩
      cases hw
      exact hf
    · rintro ⟨ht, hf⟩
      exact ⟨ht, hf v rfl⟩

@[simp] theorem every_act_bind : Every P (act a v >>= f) ↔ P a ∧ Every P (f v) := by
  rw [every_bind, every_act]
  exact and_congr_right fun _ => ⟨fun h => h v rfl, fun h w hw => Option.some.inj hw ▸ h⟩

@[simp] theorem every_emit_bind {f : Unit → Trace ε β} :
    Every P (emit a >>= f) ↔ P a ∧ Every P (f ()) := every_act_bind

theorem result_ite_stop {c : Prop} [Decidable c] :
    (if c then stop else t).result = some v ↔ ¬ c ∧ t.result = some v := by
  split_ifs with hc
  · exact ⟨fun h => (by cases h), fun h => absurd hc h.1⟩
  · exact ⟨fun h => ⟨hc, h⟩, fun h => h.2⟩

theorem every_ite_stop {c : Prop} [Decidable c] :
    Every P (if c then stop else t) ↔ (¬ c → Every P t) := by
  split_ifs with hc
  · exact ⟨fun _ h => absurd hc h, fun _ => every_stop⟩
  · exact ⟨fun h _ => h, fun h => h hc⟩

def sweep (body : ℕ → σ → Trace ε σ) : List ℕ → σ → Trace ε σ
  | [], s => pure s
  | i :: is, s => body i s >>= sweep body is

section Loop

variable {test : ℕ → Trace ε Bool} {body : ℕ → σ → Trace ε σ} {n : ℕ}

theorem result_loop (htest : ∀ i, (test i).result = some (decide (i < n))) {turns i : ℕ}
    (hturns : n ≤ i + turns) (s : σ) :
    (loop test body turns i s).result = (sweep body (range' i (n - i)) s).result := by
  induction turns generalizing i s with
  | zero =>
    have hzero : n - i = 0 := by omega
    rw [hzero]
    rfl
  | succ turns ih =>
    rw [loop, result_bind, htest, Option.bind_some]
    by_cases hi : i < n
    · have hsucc : n - i = (n - (i + 1)) + 1 := by omega
      rw [hsucc, range'_succ, sweep, if_pos (decide_eq_true hi), result_bind, result_bind]
      congr 1
      funext v
      exact ih (by omega) v
    · have hzero : n - i = 0 := by omega
      rw [hzero, if_neg (by simpa using hi)]
      rfl

theorem every_loop (htest : ∀ i, (test i).result = some (decide (i < n)))
    (hP : ∀ i, Every P (test i)) {turns i : ℕ} (hturns : n ≤ i + turns) (s : σ) :
    Every P (loop test body turns i s) ↔ Every P (sweep body (range' i (n - i)) s) := by
  induction turns generalizing i s with
  | zero =>
    have hzero : n - i = 0 := by omega
    rw [hzero]
    exact Iff.rfl
  | succ turns ih =>
    rw [loop, every_bind]
    simp only [htest, Option.some.injEq, forall_eq']
    by_cases hi : i < n
    · have hsucc : n - i = (n - (i + 1)) + 1 := by omega
      rw [hsucc, range'_succ, sweep, if_pos (decide_eq_true hi), every_bind, every_bind]
      constructor
      · rintro ⟨-, hb, hrest⟩
        exact ⟨hb, fun v hv => (ih (by omega) v).mp (hrest v hv)⟩
      · rintro ⟨hb, hrest⟩
        exact ⟨hP i, hb, fun v hv => (ih (by omega) v).mpr (hrest v hv)⟩
    · have hzero : n - i = 0 := by omega
      rw [hzero, if_neg (by simpa using hi)]
      exact ⟨fun _ => every_pure s, fun _ => ⟨hP i, every_pure s⟩⟩

theorem every_test {turns i : ℕ} {s} (hturns : 0 < turns) (h : Every P (loop test body turns i s)) :
    Every P (test i) := by
  obtain ⟨k, rfl⟩ := Nat.exists_eq_succ_of_ne_zero (Nat.ne_of_gt hturns)
  rw [Nat.succ_eq_add_one, loop, every_bind] at h
  exact h.1

end Loop

section Range

variable {body : ℕ → Unit → Trace ε Unit}

theorem every_sweep_range (a m : ℕ) : Every P (sweep body (range' a m) ()) ↔
    ∀ j < m, (∀ k < j, (body (a + k) ()).result = some ()) → Every P (body (a + j) ()) := by
  induction m generalizing a with
  | zero => exact ⟨fun _ j hj => absurd hj (Nat.not_lt_zero j), fun _ => every_pure ()⟩
  | succ m ih =>
    rw [range'_succ, sweep, every_bind]
    constructor
    · rintro ⟨hfirst, hrest⟩ j hj hbefore
      cases j with
      | zero => exact hfirst
      | succ j =>
        have htail := (ih (a + 1)).mp (hrest () (hbefore 0 (Nat.succ_pos j))) j (by omega)
        rw [Nat.add_assoc, Nat.add_comm 1 j] at htail
        refine htail fun k hk => ?_
        rw [Nat.add_assoc, Nat.add_comm 1 k]
        exact hbefore (k + 1) (by omega)
    · intro h
      refine ⟨h 0 (Nat.succ_pos m) fun k hk => absurd hk (Nat.not_lt_zero k), fun _ hgo => ?_⟩
      refine (ih (a + 1)).mpr fun j hj hbefore => ?_
      rw [Nat.add_assoc, Nat.add_comm 1 j]
      refine h (j + 1) (by omega) fun k hk => ?_
      cases k with
      | zero => exact hgo
      | succ k =>
        have hk := hbefore k (by omega)
        rwa [Nat.add_assoc, Nat.add_comm 1 k] at hk

theorem result_sweep_range (a m : ℕ) : (sweep body (range' a m) ()).result = some () ↔
    ∀ j < m, (body (a + j) ()).result = some () := by
  induction m generalizing a with
  | zero => exact ⟨fun _ j hj => absurd hj (Nat.not_lt_zero j), fun _ => rfl⟩
  | succ m ih =>
    rw [range'_succ, sweep, result_bind, Option.bind_eq_some_iff]
    constructor
    · rintro ⟨_, hfirst, hrest⟩ j hj
      cases j with
      | zero => exact hfirst
      | succ j =>
        rw [Nat.add_comm j 1, ← Nat.add_assoc]
        exact (ih (a + 1)).mp hrest j (by omega)
    · intro h
      refine ⟨(), h 0 (Nat.succ_pos m), (ih (a + 1)).mpr fun j hj => ?_⟩
      rw [Nat.add_assoc, Nat.add_comm 1 j]
      exact h (j + 1) (by omega)

end Range

/-! ## The effect of a run

An action changes a state or cannot be performed. A run that ends with a value leaves the
state behind its last action. -/

section After

variable {S : Type} {step : S → ε → Option S} {m : S}

def after (step : S → ε → Option S) (t : Trace ε α) (m : S) : Option (α × S) :=
  (t.actions.foldlM step m).bind fun m' => t.result.map fun v => (v, m')

theorem after_bind (t : Trace ε α) (f : α → Trace ε β) :
    after step (t >>= f) m = (after step t m).bind fun r => after step (f r.1) r.2 := by
  unfold after
  cases h : t.result with
  | none =>
    rw [actions_bind_none h, result_bind, h]
    cases t.actions.foldlM step m <;> rfl
  | some v =>
    rw [actions_bind h, result_bind, h, foldlM_append]
    cases t.actions.foldlM step m <;> rfl

@[simp] theorem after_act_bind (a : ε) (v : α) (f : α → Trace ε β) :
    after step (act a v >>= f) m = (step m a).bind fun m' => after step (f v) m' := by
  rw [after_bind]
  have hact : after step (act a v) m = (step m a).map fun m' => (v, m') := by
    unfold after
    rw [actions_act, foldlM_cons]
    cases step m a <;> rfl
  rw [hact]
  cases step m a <;> rfl

@[simp] theorem after_emit_bind (a : ε) (f : Unit → Trace ε β) :
    after step (emit a >>= f) m = (step m a).bind fun m' => after step (f ()) m' :=
  after_act_bind a () f

theorem after_loop {test body} {n : ℕ}
    (htest : ∀ i m, after step (test i) m = some (decide (i < n), m)) {turns i : ℕ}
    (hturns : n ≤ i + turns) (s : σ) (m : S) :
    after step (loop test body turns i s) m =
      after step (sweep body (range' i (n - i)) s) m := by
  induction turns generalizing i s m with
  | zero =>
    have hzero : n - i = 0 := by omega
    rw [hzero]
    rfl
  | succ turns ih =>
    rw [loop, after_bind, htest, Option.bind_some]
    by_cases hi : i < n
    · have hsucc : n - i = (n - (i + 1)) + 1 := by omega
      rw [hsucc, range'_succ, sweep, if_pos (decide_eq_true hi), after_bind, after_bind]
      congr 1
      funext r
      exact ih (by omega) r.1 r.2
    · have hzero : n - i = 0 := by omega
      rw [hzero, if_neg (by simpa using hi)]
      rfl

end After

end Trace
