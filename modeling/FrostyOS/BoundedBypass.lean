import FrostyOS.SchedulerRuns

/-! # Bypassing lower priorities

How often `PickNext` takes a thread of one priority while a lower one is queued. -/
namespace Scheduling

open Scheduler List

variable {n : ℕ} {T : Threads} {info info' : ProcessorInfo} {f f' : ListQueues} {p q : Priority}

def Priority.level : Priority → ℕ
  | .kernel => 0
  | .high => 1
  | .normal => 2
  | .low => 3

/-- What `PickNext` takes from, and the lengths of the queues when it chooses. -/
structure Choice where
  queue : Option Queue
  count : Priority → ℕ

def Choice.below (p : Priority) (c : Choice) : Bool :=
  match c.queue with
  | some (.ready q) => p.level ≤ q.level
  | _ => false

def Choice.Bypasses (c : Choice) (p : Priority) : Prop :=
  c.queue = some (.ready p) ∧ ∃ q : Priority, p.level < q.level ∧ 0 < c.count q

def Scheduler.choice (T : Threads) (s : Scheduler ThreadQueues n) (i : Fin n) : Choice :=
  let r := requeue linkedOps T (s.processors i) s.store
  ⟨choose linkedOps r.1 r.2, fun p => linkedOps.getCount r.2 (.ready p)⟩

/-- The queues have the threads of their priority, each once and none that is current. -/
structure Proper (T : Threads) (s : Scheduler ThreadQueues n) (b : Scheduler ListQueues n) :
    Prop where
  simulates : Simulates s b
  nodup : b.threads.Nodup
  matching : Matching T b.store

/-- Runs from any run counts, with the choices of one processor. -/
inductive Chooses (T : Threads) (i : Fin n) : Scheduler ThreadQueues n → List Choice → Prop where
  | start {s : Scheduler ThreadQueues n} {b : Scheduler ListQueues n} (h : Proper T s b) :
      Chooses T i s []
  | schedule {s : Scheduler ThreadQueues n} {cs : List Choice} (h : Chooses T i s cs) (t : ℕ)
      (hnew : ∀ place, ¬ s.Occupies place t) (hlinks : s.store.Unlinked t)
      (hidle : T.isIdle t = false) : Chooses T i (s.scheduleThread linkedOps T t) cs
  | pick {s s' : Scheduler ThreadQueues n} {cs : List Choice} (h : Chooses T i s cs)
      (htotal : 2 ≤ s.totalThreads) (hp : s.pickNext linkedOps T i = .ok s') :
      Chooses T i s' (cs ++ [s.choice T i])

def ProcessorInfo.runCount (info : ProcessorInfo) : Priority → ℕ
  | .kernel => info.kernelRunCount
  | .high => info.highRunCount
  | .normal => info.normalRunCount
  | .low => 0

def ProcessorInfo.nextCount (T : Threads) (info : ProcessorInfo) : Priority → ℕ :=
  (requeue listOps T info fun _ => []).1.runCount

theorem requeue_fst {S : Type*} (Q : QueueOps S) (store : S) :
    (requeue Q T info store).1.runCount = info.nextCount T := by
  unfold ProcessorInfo.nextCount requeue
  cases info.currentThread with
  | none => rfl
  | some t =>
    dsimp only
    split <;> rfl

theorem nextCount_some (t : ℕ) (p : Priority) :
    ({ info with currentThread := some t } : ProcessorInfo).nextCount T p =
      match T.queueOf t with
      | .idle => info.runCount p
      | .ready q => (info.countRun q).runCount p := by
  unfold ProcessorInfo.nextCount requeue Threads.queueOf
  dsimp only
  cases T.isIdle t with
  | true => cases p <;> rfl
  | false => cases T.priority t <;> cases p <;> rfl

theorem runCount_other (h : q.level < p.level) :
    ((info.resetFor q).countRun q).runCount p = info.runCount p := by
  cases p <;> cases q <;> first | rfl | exact absurd h (by decide)

theorem runCount_self (h : p.level < q.level) :
    ((info.resetFor p).countRun p).runCount p = (info.runCount p + 1) % 256 := by
  cases p with
  | low => cases q <;> exact absurd h (by decide)
  | _ => rfl

theorem choose_lt (h : choose listOps info f = some (.ready p)) (hlevel : p.level < q.level)
    (hq : 0 < listOps.getCount f (.ready q)) : info.runCount p < 4 := by
  unfold choose at h
  dsimp only at h
  split_ifs at h <;> cases h
  · cases q <;> exact absurd hlevel (by decide)
  all_goals
    simp only [ProcessorInfo.runCount]
    cases q <;> first | exact absurd hlevel (by decide) | omega

theorem choose_ne_nil {q} (h : choose listOps info f = some q) : f q ≠ [] := by
  intro hq
  have hcount : listOps.getCount f q = 0 := congrArg length hq
  unfold choose at h
  dsimp only at h
  split_ifs at h <;> cases h <;> omega

/-- What a choice does to the counts, which are those after the requeueing. -/
theorem nextCount_select (hf : Matching T f) (hs : select listOps info f = .ok (info', f')) :
    (∀ c : Choice, c.queue = choose listOps info f → c.below p = false →
      info'.nextCount T p = info.runCount p) ∧
    (choose listOps info f = some (.ready p) → p.level < q.level →
      info'.nextCount T p = (info.runCount p + 1) % 256) := by
  unfold select at hs
  have hhead : ∀ {r : Queue}, choose listOps info f = some r → ∃ t rest, f r = t :: rest ∧
      T.queueOf t = r := by
    intro r hr
    obtain ⟨t, rest, hr⟩ := exists_cons_of_ne_nil (choose_ne_nil hr)
    exact ⟨t, rest, hr, hf r t (hr ▸ mem_cons_self)⟩
  split at hs
  · next hnone =>
    cases hs
    refine ⟨fun _ _ _ => ?_, fun h => ?_⟩
    · cases p <;> rfl
    · cases hnone.symm.trans h
  · next hidle =>
    obtain ⟨t, rest, hr, ht⟩ := hhead hidle
    simp only [popInto, listOps, hr] at hs
    cases hs
    refine ⟨fun _ _ _ => ?_, fun h => ?_⟩
    · rw [nextCount_some, ht]
    · cases hidle.symm.trans h
  · next r hready =>
    obtain ⟨t, rest, hr, ht⟩ := hhead hready
    simp only [popInto, listOps, hr] at hs
    cases hs
    rw [nextCount_some, ht]
    refine ⟨fun c hc hbelow => ?_, fun h hlevel => ?_⟩
    · rw [Choice.below, hc, hready] at hbelow
      exact runCount_other (by simpa using hbelow)
    · cases hready.symm.trans h
      exact runCount_self hlevel

/-- No streak is longer than four, and the one that is going on not longer than `k`. -/
def Streaks (p : Priority) (l : List Choice) (k : ℕ) : Prop :=
  ∀ seg, (∀ c ∈ seg, Choice.Bypasses c p) →
    (seg <:+: l → seg.length ≤ 4) ∧ (seg <:+ l → seg.length ≤ k)

theorem Streaks.concat {cs c} {k k' : ℕ} (h : Streaks p (cs.filter (·.below p)) k)
    (hskip : c.below p = false → k ≤ k') (hnext : c.Bypasses p → k < 4 ∧ k + 1 ≤ k') :
    Streaks p ((cs ++ [c]).filter (·.below p)) k' := by
  intro seg hall
  rw [filter_append]
  cases hc : c.below p with
  | false =>
    rw [filter_singleton, hc, cond_false, append_nil]
    exact ⟨(h seg hall).1, fun hs => ((h seg hall).2 hs).trans (hskip hc)⟩
  | true =>
    rw [filter_singleton, hc, cond_true]
    have hlast : seg <:+ cs.filter (·.below p) ++ [c] → seg.length ≤ k' ∧ seg.length ≤ 4 := by
      intro hs
      rcases suffix_concat_iff.mp hs with rfl | ⟨before, rfl, hbefore⟩
      · exact ⟨Nat.zero_le _, Nat.zero_le _⟩
      · have hk := hnext (hall c (mem_append_right _ mem_cons_self))
        have hle := (h before fun d hd => hall d (mem_append_left _ hd)).2 hbefore
        rw [length_append, length_singleton]
        omega
    refine ⟨fun hs => ?_, fun hs => (hlast hs).1⟩
    rcases infix_concat_iff.mp hs with hs | hs
    · exact (hlast hs).2
    · exact (h seg hall).1 hs

variable {s : Scheduler ThreadQueues n} {b : Scheduler ListQueues n} {i : Fin n}
  {cs seg : List Choice}

theorem Proper.pick {s'} (h : Proper T s b) (htotal : 2 ≤ s.totalThreads)
    (hp : s.pickNext linkedOps T i = .ok s') :
    (∃ b', Proper T s' b') ∧ ∃ info f f', Matching T f ∧
      info.runCount = (s.processors i).nextCount T ∧
      s.choice T i = ⟨choose listOps info f, fun p => listOps.getCount f (.ready p)⟩ ∧
      select listOps info f = .ok (s'.processors i, f') := by
  rw [h.simulates.total] at htotal
  obtain ⟨b', hb', -, hperm⟩ := pickNext_list (T := T) b i (by omega)
  obtain ⟨t, ht, hsim⟩ := h.simulates.pickNext h.nodup hb'
  cases hp.symm.trans ht
  refine ⟨⟨b', hsim, hperm.nodup_iff.mpr h.nodup, h.matching.pickNext hb'⟩, ?_⟩
  obtain ⟨hinfo, hrep, -⟩ := h.simulates.store.requeue T
    (fun t ht => not_queued_of_running h.nodup ht) (h.simulates.unlinked i)
  rw [pickNext, if_neg (by omega), if_neg (by omega)] at hb'
  split at hb'
  · cases hb'
  next info f hs =>
  cases hb'
  have hnew : s'.processors i = info := by
    rw [hsim.processors]
    exact Function.update_self ..
  rw [h.simulates.processors, hnew]
  refine ⟨_, _, _, h.matching.requeue _, requeue_fst _ _, ?_, hs⟩
  simp only [choice, h.simulates.processors, hinfo, hrep.choose, hrep.getCount]

theorem Chooses.streaks (h : Chooses T i s cs) : (∃ b, Proper T s b) ∧
    ∀ p, Streaks p (cs.filter (·.below p)) ((s.processors i).nextCount T p) := by
  induction h with
  | start h =>
    refine ⟨⟨_, h⟩, fun p seg _ => ⟨fun hs => ?_, fun hs => ?_⟩⟩
    all_goals exact hs.length_le.trans (Nat.zero_le _)
  | schedule h t hnew hlinks hidle ih =>
    obtain ⟨⟨b, hb⟩, hstreaks⟩ := ih
    have ht : t ∉ b.threads := fun ht => (hb.simulates.exists_place ht).elim hnew
    refine ⟨⟨_, hb.simulates.scheduleThread T hb.nodup ht hlinks, ?_, ?_⟩, hstreaks⟩
    · exact (((queued_pushBack b.store _ t).append_right _).nodup_iff).mpr
        (nodup_cons.mpr ⟨ht, hb.nodup⟩)
    · have hpush := hb.matching.pushBack t
      rwa [Threads.queueOf, if_neg (by simp [hidle])] at hpush
  | pick h htotal hp ih =>
    obtain ⟨⟨b, hb⟩, hstreaks⟩ := ih
    obtain ⟨hproper, info, f, f', hf, hinfo, hchoice, hs⟩ := hb.pick htotal hp
    refine ⟨hproper, fun p => (hstreaks p).concat ?_ ?_⟩
    · intro hc
      rw [hchoice] at hc
      rw [(nextCount_select (q := p) hf hs).1 _ rfl hc, hinfo]
    · rw [hchoice]
      rintro ⟨hqueue, q, hlevel, hq⟩
      have hlt := choose_lt hqueue hlevel hq
      rw [(nextCount_select hf hs).2 hqueue hlevel, ← hinfo]
      omega

/-- **Bounded bypass.** Among the choices of a priority or a lower one, at most four in a row
are of the priority while a lower one is queued. -/
theorem bounded_bypass (h : Chooses T i s cs) (p : Priority)
    (hseg : seg <:+: cs.filter (·.below p)) (hall : ∀ c ∈ seg, c.Bypasses p) : seg.length ≤ 4 :=
  (h.streaks.2 p seg hall).1 hseg

theorem bounded_bypass_two : ∃ (T : Threads) (s : Scheduler ThreadQueues 1) (cs : List Choice),
    Chooses T 0 s cs ∧ cs.length = 4 ∧ (∀ c ∈ cs, c.Bypasses .kernel) ∧ cs.length ≤ 4 := by
  obtain ⟨b, hb⟩ := keeps_of_reachable (n := 1) (T := ⟨fun t => if t = 1 then .kernel else .low,
    fun _ => false⟩) (.schedule (.schedule (.init .cleared) 1 (by simp) ⟨rfl, rfl⟩ rfl) 2 (by simp)
      ⟨rfl, rfl⟩ rfl)
  have hrun := ((((Chooses.start (i := 0) ⟨hb.simulates, hb.threads_nodup, hb.matching⟩).pick
    (by decide) rfl).pick (by decide) rfl).pick (by decide) rfl).pick (by decide) rfl
  refine ⟨_, _, _, hrun, rfl, ?hall, bounded_bypass hrun .kernel (infix_refl _) ?hall⟩
  intro c hc
  simp only [nil_append, cons_append, mem_cons, not_mem_nil, or_false] at hc
  rcases hc with rfl | rfl | rfl | rfl
  all_goals exact ⟨rfl, .low, by decide, by decide⟩

end Scheduling
