import FrostyOS.MachineWord
import FrostyOS.SchedulerRuns

/-! # The number of threads that the scheduler counts

`g_total_threads` over runs. The queues are plain lists here, and no thread is an idle
thread. -/
namespace Scheduling

open List

variable {n : ℕ}

/-- The scheduler with the threads that sleep. -/
structure Sleepers (n : ℕ) where
  scheduler : Scheduler ListQueues n
  sleeping : List ℕ

/-- Threads that are not idle threads, by the priorities of their processes. -/
def ordinary (priority : ℕ → Priority) : Threads := ⟨priority, fun _ => false⟩

def decrement (total : ℕ) : ℕ :=
  if total = 0 then MachineWord.uint64Max else total - 1

def processorOf (s : Scheduler ListQueues n) (thread : ℕ) : Option (Fin n) :=
  (List.finRange n).find? fun i => (s.processors i).currentThread = some thread

variable (priority : ℕ → Priority)

def Scheduler.removeReady (s : Scheduler ListQueues n) (thread : ℕ) : Scheduler ListQueues n :=
  let queue := Queue.ready (priority thread)
  { s with store := Function.update s.store queue ((s.store queue).erase thread) }

def Scheduler.clearCurrent (s : Scheduler ListQueues n) (i : Fin n) : Scheduler ListQueues n :=
  { s with
    processors := Function.update s.processors i { s.processors i with currentThread := none } }

def Scheduler.removeThread (s : Scheduler ListQueues n) (thread : ℕ) :
    Except Halt (Scheduler ListQueues n) :=
  if thread ∈ s.store (.ready (priority thread)) then
    .ok { s.removeReady priority thread with totalThreads := decrement s.totalThreads }
  else
    match processorOf s thread with
    | none => .ok s
    | some i =>
      { s.clearCurrent i with totalThreads := decrement s.totalThreads }.pickNext listOps
        (ordinary priority) i

/-- A ready thread leaves its queue and the count stays; a current one is counted off. -/
def Sleepers.sleepThread (s : Sleepers n) (thread : ℕ) : Except Halt (Sleepers n) :=
  if thread ∈ s.scheduler.store (.ready (priority thread)) then
    .ok ⟨s.scheduler.removeReady priority thread, s.sleeping ++ [thread]⟩
  else
    match processorOf s.scheduler thread with
    | none => .ok s
    | some i =>
      match ({ s.scheduler.clearCurrent i with
          totalThreads := decrement s.scheduler.totalThreads }.pickNext listOps
            (ordinary priority) i) with
      | .error halt => .error halt
      | .ok scheduler => .ok ⟨scheduler, s.sleeping ++ [thread]⟩

def Scheduler.readdThread (s : Scheduler ListQueues n) (thread : ℕ) : Scheduler ListQueues n :=
  { s with store := listOps.pushBack s.store (.ready (priority thread)) thread }

def Sleepers.wake (s : Sleepers n) (thread : ℕ) : Sleepers n :=
  ⟨s.scheduler.readdThread priority thread, s.sleeping.erase thread⟩

/-- The current thread ends; without one the processor would follow a null pointer. -/
def Scheduler.endThread (s : Scheduler ListQueues n) (i : Fin n) :
    Except Halt (Scheduler ListQueues n) :=
  if (s.processors i).currentThread = none then .error .fault
  else (s.clearCurrent i).pickNext listOps (ordinary priority) i

inductive Action (n : ℕ) where
  | scheduleThread (thread : ℕ)
  | pickNext (processor : Fin n)
  | sleepThread (thread : ℕ)
  | wake (thread : ℕ)
  | readdThread (thread : ℕ)
  | removeThread (thread : ℕ)
  | endThread (processor : Fin n)

def Sleepers.withScheduler (s : Sleepers n) (r : Except Halt (Scheduler ListQueues n)) :
    Except Halt (Sleepers n) :=
  match r with
  | .error halt => .error halt
  | .ok scheduler => .ok { s with scheduler := scheduler }

def Sleepers.act (s : Sleepers n) : Action n → Except Halt (Sleepers n)
  | .scheduleThread t =>
    .ok { s with scheduler := s.scheduler.scheduleThread listOps (ordinary priority) t }
  | .pickNext i => s.withScheduler (s.scheduler.pickNext listOps (ordinary priority) i)
  | .sleepThread t => s.sleepThread priority t
  | .wake t => .ok (s.wake priority t)
  | .readdThread t => .ok { s with scheduler := s.scheduler.readdThread priority t }
  | .removeThread t => s.withScheduler (s.scheduler.removeThread priority t)
  | .endThread i => s.withScheduler (s.scheduler.endThread priority i)

def Sleepers.Possible (s : Sleepers n) : Action n → Prop
  | .scheduleThread t => t ∉ s.scheduler.threads ∧ t ∉ s.sleeping
  | .wake t => t ∈ s.sleeping
  | .readdThread t => t ∉ s.scheduler.threads ∧ t ∉ s.sleeping
  | _ => True

instance (s : Sleepers n) : (x : Action n) → Decidable (s.Possible x)
  | .scheduleThread t =>
    inferInstanceAs (Decidable (t ∉ s.scheduler.threads ∧ t ∉ s.sleeping))
  | .wake t => inferInstanceAs (Decidable (t ∈ s.sleeping))
  | .readdThread t => inferInstanceAs (Decidable (t ∉ s.scheduler.threads ∧ t ∉ s.sleeping))
  | .pickNext _ | .sleepThread _ | .removeThread _ | .endThread _ => .isTrue trivial

/-- The actions that keep the count: no thread ends or is made ready again, and no ready
thread is sent to sleep. -/
def Sleepers.Counted (s : Sleepers n) : Action n → Prop
  | .sleepThread t => t ∉ s.scheduler.store (.ready (priority t))
  | .wake _ => False
  | .readdThread _ => False
  | .endThread _ => False
  | _ => True

instance (s : Sleepers n) : (x : Action n) → Decidable (s.Counted priority x)
  | .sleepThread t => inferInstanceAs (Decidable (t ∉ s.scheduler.store (.ready (priority t))))
  | .wake _ | .readdThread _ | .endThread _ => .isFalse not_false
  | .scheduleThread _ | .pickNext _ | .removeThread _ => .isTrue trivial

def Sleepers.initial (n : ℕ) : Sleepers n := ⟨⟨fun _ => [], fun _ => ⟨0, 0, 0, none⟩, 0⟩, []⟩

inductive ReachableBy (Meets : Sleepers n → Action n → Prop) : Sleepers n → Prop where
  | init : ReachableBy Meets (.initial n)
  | step {s s' : Sleepers n} (h : ReachableBy Meets s) (x : Action n) (hp : s.Possible x)
      (hm : Meets s x) (hs : s.act priority x = .ok s') : ReachableBy Meets s'

def readyThreads (f : ListQueues) : List ℕ :=
  [Priority.kernel, .high, .normal, .low].flatMap fun p => f (.ready p)

/-- The count is the number of threads that are ready or running. -/
def Sleepers.CountsThreads (s : Sleepers n) : Prop := s.scheduler.totalThreads =
    (readyThreads s.scheduler.store).length + (running s.scheduler.processors).length

instance (s : Sleepers n) : Decidable s.CountsThreads :=
  inferInstanceAs (Decidable (s.scheduler.totalThreads =
    (readyThreads s.scheduler.store).length + (running s.scheduler.processors).length))

variable {priority}

theorem queued_eq (f : ListQueues) : queued f = readyThreads f ++ f .idle := by
  simp [queued, readyThreads, allQueues]

theorem processorOf_spec {s : Scheduler ListQueues n} {t : ℕ} {i} (h : processorOf s t = some i) :
    (s.processors i).currentThread = some t := by
  simpa using find?_some h

structure Tallied (priority : ℕ → Priority) (s : Scheduler ListQueues n) : Prop where
  total : s.totalThreads = s.threads.length
  matching : Matching (ordinary priority) s.store

section

variable {s s' : Scheduler ListQueues n} {t : ℕ} {i : Fin n}

theorem Matching.idle_eq_nil {f} (h : Matching (ordinary priority) f) :
    f .idle = [] := by
  apply eq_nil_iff_forall_not_mem.2
  intro t ht
  exact absurd (h .idle t ht) (by simp [Threads.queueOf, ordinary])

theorem Matching.removeReady (h : Matching (ordinary priority) s.store) (t : ℕ) :
    Matching (ordinary priority) (s.removeReady priority t).store := by
  intro q x hx
  by_cases hq : q = .ready (priority t)
  · subst hq
    simp only [Scheduler.removeReady, Function.update_self] at hx
    exact h _ x (mem_of_mem_erase hx)
  · simp only [Scheduler.removeReady, Function.update_of_ne hq] at hx
    exact h q x hx

theorem Tallied.length_eq (h : Tallied priority s) :
    s.totalThreads = (readyThreads s.store).length + (running s.processors).length := by
  rw [h.total, Scheduler.threads, queued_eq, h.matching.idle_eq_nil, append_nil, length_append]

theorem Tallied.ready_eq_nil (h : Tallied priority s) (ht : s.totalThreads = 0) :
    readyThreads s.store = [] := by
  have hlength := h.length_eq
  apply eq_nil_of_length_eq_zero
  omega

theorem Tallied.scheduleThread (h : Tallied priority s) (t : ℕ) :
    Tallied priority (s.scheduleThread listOps (ordinary priority) t) where
  total := by
    have hpush := (queued_pushBack s.store (.ready (priority t)) t).length_eq
    have htotal := h.total
    simp only [Scheduler.threads, length_append, Scheduler.scheduleThread, ordinary,
      length_cons] at hpush htotal ⊢
    omega
  matching := h.matching.pushBack t

theorem pickNext_error {e} (h : s.pickNext listOps (ordinary priority) i = .error e) :
    s.totalThreads = 0 := by
  by_contra htotal
  obtain ⟨s', hs', -⟩ := pickNext_list (T := ordinary priority) s i htotal
  rw [hs'] at h
  cases h

section

variable (h : Tallied priority s)

include h

theorem Tallied.pickNext
    (hp : s.pickNext listOps (ordinary priority) i = .ok s') : Tallied priority s' := by
  have htotal : s.totalThreads ≠ 0 := by
    intro hz
    rw [Scheduler.pickNext, if_pos hz] at hp
    cases hp
  obtain ⟨b, hb, hsame, hperm⟩ := pickNext_list (T := ordinary priority) s i htotal
  cases hb.symm.trans hp
  exact ⟨by rw [hsame, h.total, hperm.length_eq], h.matching.pickNext hp⟩

theorem Tallied.removeReady (ht : t ∈ s.store (.ready (priority t))) : Tallied priority
      { s.removeReady priority t with totalThreads := decrement s.totalThreads } where
  total := by
    have hperm := (flatMap_update_perm allQueues_nodup (mem_allQueues (.ready (priority t)))
      s.store ((s.store (.ready (priority t))).erase t)).length_eq
    have herase := length_erase_of_mem ht
    have hpos := length_pos_of_mem ht
    have htotal := h.total
    simp only [Scheduler.threads, queued, length_append, Scheduler.removeReady]
      at hperm htotal ⊢
    rw [decrement, if_neg]
    · omega
    · omega
  matching := h.matching.removeReady t

theorem Tallied.clearCurrent (ht : (s.processors i).currentThread = some t) :
    Tallied priority { s.clearCurrent i with totalThreads := decrement s.totalThreads } where
  total := by
    have hrun := (running_update s.processors i
      { s.processors i with currentThread := none }).length_eq
    have htotal := h.total
    simp only [Scheduler.threads, length_append, Scheduler.clearCurrent, ht,
      Option.toList_some, Option.toList_none, length_singleton, length_nil]
      at hrun htotal ⊢
    rw [decrement, if_neg]
    · omega
    · omega
  matching := h.matching

theorem Tallied.removeThread (hr : s.removeThread priority t = .ok s') : Tallied priority s' := by
  unfold Scheduler.removeThread at hr
  split at hr
  case isTrue ht =>
    cases hr
    exact h.removeReady ht
  case isFalse =>
    split at hr
    case h_1 =>
      cases hr
      exact h
    case h_2 i hi => exact (h.clearCurrent (processorOf_spec hi)).pickNext hr

theorem Tallied.removeThread_error {e : Halt}
    (hr : s.removeThread priority t = .error e) : readyThreads s.store = [] := by
  unfold Scheduler.removeThread at hr
  split at hr
  case isTrue => cases hr
  case isFalse =>
    split at hr
    case h_1 => cases hr
    case h_2 i hi => exact (h.clearCurrent (processorOf_spec hi)).ready_eq_nil (pickNext_error hr)

end

end

section

variable {s s' : Sleepers n} {t : ℕ}

variable {x : Action n} {r : Except Halt (Scheduler ListQueues n)}

theorem withScheduler_ok (h : s.withScheduler r = .ok s') : r = .ok s'.scheduler := by
  cases r with
  | error e => cases h
  | ok b =>
    cases h
    rfl

theorem withScheduler_error {e} (h : s.withScheduler r = .error e) : r = .error e := by
  cases r with
  | error e' =>
    cases h
    rfl
  | ok b => cases h

section

variable (h : Tallied priority s.scheduler)

include h

theorem Tallied.sleepThread (ht : t ∉ s.scheduler.store (.ready (priority t)))
    (hs : s.sleepThread priority t = .ok s') : Tallied priority s'.scheduler := by
  unfold Sleepers.sleepThread at hs
  rw [if_neg ht] at hs
  split at hs
  case h_1 =>
    cases hs
    exact h
  case h_2 i hi =>
    split at hs
    case h_1 => cases hs
    case h_2 b hb =>
      cases hs
      exact (h.clearCurrent (processorOf_spec hi)).pickNext hb

theorem Tallied.sleepThread_error {e : Halt}
    (hs : s.sleepThread priority t = .error e) : readyThreads s.scheduler.store = [] := by
  unfold Sleepers.sleepThread at hs
  split at hs
  case isTrue => cases hs
  case isFalse =>
    split at hs
    case h_1 => cases hs
    case h_2 i hi =>
      split at hs
      case h_1 hp => exact (h.clearCurrent (processorOf_spec hi)).ready_eq_nil (pickNext_error hp)
      case h_2 => cases hs

theorem Tallied.act (hx : s.Counted priority x)
    (hs : s.act priority x = .ok s') : Tallied priority s'.scheduler := by
  cases x with
  | scheduleThread t =>
    cases hs
    exact h.scheduleThread t
  | pickNext i => exact h.pickNext (withScheduler_ok hs)
  | sleepThread t => exact h.sleepThread hx hs
  | removeThread t => exact h.removeThread (withScheduler_ok hs)
  | wake t => exact hx.elim
  | readdThread t => exact hx.elim
  | endThread i => exact hx.elim

theorem Tallied.act_error
    (hs : s.act priority x = .error .noAvailableThreads) : readyThreads s.scheduler.store = [] := by
  cases x with
  | scheduleThread t => cases hs
  | pickNext i => exact h.ready_eq_nil (pickNext_error (withScheduler_error hs))
  | sleepThread t => exact h.sleepThread_error hs
  | removeThread t => exact h.removeThread_error (withScheduler_error hs)
  | wake t => cases hs
  | readdThread t => cases hs
  | endThread i =>
    have hend := withScheduler_error hs
    rw [Scheduler.endThread] at hend
    split at hend
    case isTrue => cases hend
    case isFalse =>
      -- the panic reads the count, which is that of the state before
      have hzero := pickNext_error hend
      exact h.ready_eq_nil hzero

end

theorem tallied_of_reachable (h : ReachableBy priority (Sleepers.Counted priority) s) :
    Tallied priority s.scheduler := by
  induction h with
  | init =>
    constructor
    · simp [Sleepers.initial, Scheduler.threads, queued, running]
    · intro q t ht
      exact absurd ht not_mem_nil
  | step _ x _ hx hs ih => exact ih.act hx hs

end

/-- In a run whose actions all keep the count, the count is the number of threads that are
ready or running, and no action panics for lack of threads while one is ready. -/
theorem totalThreads_exact {s : Sleepers n}
    (h : ReachableBy priority (Sleepers.Counted priority) s) :
    s.CountsThreads ∧ ∀ x, s.act priority x = .error .noAvailableThreads →
      readyThreads s.scheduler.store = [] := by
  have htallied := tallied_of_reachable h
  exact ⟨htallied.length_eq, fun x hx => htallied.act_error hx⟩

theorem totalThreads_exact_asleep :
    ∃ s : Sleepers 1, ReachableBy (fun _ => .kernel) (Sleepers.Counted fun _ => .kernel) s ∧
      s.sleeping = [1] ∧ s.scheduler.totalThreads = 1 ∧ s.CountsThreads := by
  have hrun : ∃ s : Sleepers 1,
      ReachableBy (fun _ => .kernel) (Sleepers.Counted fun _ => .kernel) s ∧
        s.sleeping = [1] ∧ s.scheduler.totalThreads = 1 :=
    ⟨_, .step (.step (.step (.step .init (.scheduleThread 1) (by decide) trivial rfl)
      (.scheduleThread 2) (by decide) trivial rfl) (.pickNext 0) trivial trivial rfl)
      (.sleepThread 1) trivial (by decide) rfl, rfl, rfl⟩
  obtain ⟨s, hs, hsleep, htotal⟩ := hrun
  exact ⟨s, hs, hsleep, htotal, (totalThreads_exact hs).1⟩

/-- The first thread wakes up again and is not counted: with the other one asleep too,
picking finds no thread although one is ready. -/
theorem wake_not_counted :
    ∃ s : Sleepers 1, ReachableBy (fun _ => .kernel) (fun _ _ => True) s ∧
      ¬ s.CountsThreads ∧ readyThreads s.scheduler.store = [1] ∧
      s.act (fun _ => .kernel) (.sleepThread 2) = .error .noAvailableThreads := by
  refine ⟨_, .step (.step (.step (.step (.step .init (.scheduleThread 1) (by decide) trivial rfl)
    (.scheduleThread 2) (by decide) trivial rfl) (.pickNext 0) trivial trivial rfl)
    (.sleepThread 1) trivial trivial rfl) (.wake 1) (by decide) trivial rfl, ?_, rfl, rfl⟩
  decide

end Scheduling
