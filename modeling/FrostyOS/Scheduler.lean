import FrostyOS.ThreadList
import Mathlib.Data.List.FinRange

/-! # Scheduling threads and picking the next one

`ScheduleThread` and `PickNext` over any implementation of the queues: the linked thread
lists of the kernel, or plain lists. -/
namespace Scheduling

open IntrusiveList List Function

inductive Priority where
  | kernel
  | high
  | normal
  | low
  deriving DecidableEq, Repr

/-- The lists that `PickNext` pushes to and pops from. -/
inductive Queue where
  | ready (priority : Priority)
  | idle
  deriving DecidableEq, Repr

/-- Queues behind one store; a pop has no result when it follows a null pointer. -/
structure QueueOps (S : Type*) where
  pushBack : S → Queue → ℕ → S
  popFront : S → Queue → Option (Option ℕ × S)
  getCount : S → Queue → ℕ

structure ProcessorInfo where
  kernelRunCount : ℕ
  highRunCount : ℕ
  normalRunCount : ℕ
  currentThread : Option ℕ
  deriving DecidableEq, Repr

/-- What the scheduler reads of a thread: its process's priority and the idle flag. -/
structure Threads where
  priority : ℕ → Priority
  isIdle : ℕ → Bool

def Threads.queueOf (T : Threads) (thread : ℕ) : Queue :=
  if T.isIdle thread then .idle else .ready (T.priority thread)

structure Scheduler (S : Type*) (n : ℕ) where
  store : S
  processors : Fin n → ProcessorInfo
  totalThreads : ℕ

/-- How `PickNext` can end without picking. -/
inductive Halt where
  | noAvailableThreads
  | fault
  deriving DecidableEq, Repr

variable {S : Type*} {n : ℕ} (Q : QueueOps S) (T : Threads)

/-- The run counts are bytes. -/
def ProcessorInfo.countRun (info : ProcessorInfo) : Priority → ProcessorInfo
  | .kernel => { info with kernelRunCount := (info.kernelRunCount + 1) % 256 }
  | .high => { info with highRunCount := (info.highRunCount + 1) % 256 }
  | .normal => { info with normalRunCount := (info.normalRunCount + 1) % 256 }
  | .low => info

def requeue (info : ProcessorInfo) (store : S) : ProcessorInfo × S :=
  match info.currentThread with
  | none => (info, store)
  | some thread =>
    if T.isIdle thread then (info, Q.pushBack store .idle thread)
    else (info.countRun (T.priority thread), Q.pushBack store (.ready (T.priority thread)) thread)

def popInto (info : ProcessorInfo) (store : S) (queue : Queue) : Except Halt (ProcessorInfo × S) :=
  match Q.popFront store queue with
  | none => .error .fault
  | some (thread, store) => .ok ({ info with currentThread := thread }, store)

/-- The run counts that a choice resets. -/
def ProcessorInfo.resetFor (info : ProcessorInfo) : Priority → ProcessorInfo
  | .kernel => info
  | .high => { info with kernelRunCount := 0 }
  | .normal => { info with kernelRunCount := 0, highRunCount := 0 }
  | .low => { info with kernelRunCount := 0, highRunCount := 0, normalRunCount := 0 }

/-- The queue to take from, by the run counts and by what is queued; `none` when the idle
list is empty too. -/
def choose (info : ProcessorInfo) (store : S) : Option Queue :=
  let count := fun priority => Q.getCount store (.ready priority)
  if (info.kernelRunCount ≥ 4 ∨ count .kernel = 0) ∧
      (count .high > 0 ∨ count .normal > 0 ∨ count .low > 0) then
    if (info.highRunCount ≥ 4 ∨ count .high = 0) ∧ (count .normal > 0 ∨ count .low > 0) then
      if (info.normalRunCount ≥ 4 ∨ count .normal = 0) ∧ count .low > 0 then
        some (.ready .low)
      else some (.ready .normal)
    else some (.ready .high)
  else if count .kernel = 0 then
    if Q.getCount store .idle > 0 then some .idle else none
  else some (.ready .kernel)

def select (info : ProcessorInfo) (store : S) : Except Halt (ProcessorInfo × S) :=
  match choose Q info store with
  | none => .ok ({ info with currentThread := none }, store)
  | some .idle => popInto Q info store .idle
  | some (.ready priority) => popInto Q (info.resetFor priority) store (.ready priority)

def Scheduler.pickNext (s : Scheduler S n) (i : Fin n) : Except Halt (Scheduler S n) :=
  if s.totalThreads = 0 then .error .noAvailableThreads
  else if s.totalThreads = 1 ∧ (s.processors i).currentThread ≠ none then .ok s
  else
    match select Q (requeue Q T (s.processors i) s.store).1
      (requeue Q T (s.processors i) s.store).2 with
    | .error halt => .error halt
    | .ok (info, store) =>
      .ok { s with store := store, processors := update s.processors i info }

/-- The queue of a thread's priority and the thread count. -/
def Scheduler.scheduleThread (s : Scheduler S n) (thread : ℕ) : Scheduler S n :=
  { s with
    store := Q.pushBack s.store (.ready (T.priority thread)) thread
    totalThreads := s.totalThreads + 1 }

structure ThreadQueues where
  links : Links ℕ
  lists : Queue → ThreadList

def linkedOps : QueueOps ThreadQueues where
  pushBack s q thread :=
    let r := (s.lists q).pushBack s.links thread
    ⟨r.1, update s.lists q r.2⟩
  popFront s q :=
    match (s.lists q).popFront s.links with
    | none => none
    | some (thread, links, l) => some (thread, ⟨links, update s.lists q l⟩)
  getCount s q := (s.lists q).count

abbrev ListQueues := Queue → List ℕ

def listOps : QueueOps ListQueues where
  pushBack s q thread := update s q (s q ++ [thread])
  popFront s q :=
    match s q with
    | [] => some (none, s)
    | thread :: rest => some (some thread, update s q rest)
  getCount s q := (s q).length

def allQueues : List Queue := [.ready .kernel, .ready .high, .ready .normal, .ready .low, .idle]

variable (info : ProcessorInfo) (f : ListQueues) (q : Queue)

theorem mem_allQueues : q ∈ allQueues := by
  rcases q with (_ | _ | _ | _) | _ <;> decide

theorem allQueues_nodup : allQueues.Nodup := by decide

theorem flatMap_update_perm {κ α : Type*} [DecidableEq κ] {l : List κ} (hl : l.Nodup) {k}
    (hk : k ∈ l) (f : κ → List α) (g : List α) :
    (l.flatMap (update f k g) ++ f k).Perm (g ++ l.flatMap f) := by
  induction l with
  | nil => exact absurd hk not_mem_nil
  | cons j l ih =>
    rw [nodup_cons] at hl
    rw [flatMap_cons, flatMap_cons]
    by_cases hj : j = k
    · subst hj
      have hrest : l.flatMap (update f j g) = l.flatMap f := by
        apply flatMap_congr
        intro i hi
        have hij : i ≠ j := fun he => hl.1 (he ▸ hi)
        exact update_of_ne hij _ _
      rw [update_self, hrest, append_assoc]
      exact perm_append_comm.append_left g
    · have hk' : k ∈ l := (mem_cons.1 hk).resolve_left (Ne.symm hj)
      rw [update_of_ne hj, append_assoc]
      exact ((ih hl.2 hk').append_left (f j)).trans (perm_append_comm_assoc _ _ _)

theorem eq_of_mem_of_nodup_flatMap {κ α : Type*} {l : List κ} {f : κ → List α}
    (h : (l.flatMap f).Nodup) {i j} (hi : i ∈ l) (hj : j ∈ l) {x} (hxi : x ∈ f i)
    (hxj : x ∈ f j) : i = j := by
  induction l with
  | nil => exact absurd hi not_mem_nil
  | cons k l ih =>
    rw [flatMap_cons, nodup_append'] at h
    have hrest : ∀ m ∈ l, x ∈ f m → x ∈ l.flatMap f :=
      fun m hm hx => mem_flatMap.2 ⟨m, hm, hx⟩
    rcases mem_cons.1 hi with hik | hil <;> rcases mem_cons.1 hj with hjk | hjl
    · rw [hik, hjk]
    · exact absurd (hrest j hjl hxj) (h.2.2 (hik ▸ hxi))
    · exact absurd (hrest i hil hxi) (h.2.2 (hjk ▸ hxj))
    · exact ih h.2.1 hil hjl

def queued (f : ListQueues) : List ℕ := allQueues.flatMap f

def running (p : Fin n → ProcessorInfo) : List ℕ :=
  (List.finRange n).flatMap fun i => (p i).currentThread.toList

def Scheduler.threads (s : Scheduler ListQueues n) : List ℕ :=
  queued s.store ++ running s.processors

theorem mem_queued {f} {t : ℕ} : t ∈ queued f ↔ ∃ q, t ∈ f q := by
  simp only [queued, mem_flatMap, mem_allQueues, true_and]

theorem mem_running {p : Fin n → ProcessorInfo} {t : ℕ} :
    t ∈ running p ↔ ∃ i, (p i).currentThread = some t := by
  simp only [running, mem_flatMap, mem_finRange, true_and, Option.mem_toList]

theorem queued_pushBack (t : ℕ) : (queued (listOps.pushBack f q t)).Perm (t :: queued f) := by
  have h := flatMap_update_perm allQueues_nodup (mem_allQueues q) f (f q ++ [t])
  rw [← perm_append_right_iff (f q)]
  refine h.trans ?_
  rw [append_assoc]
  exact perm_append_comm

theorem queued_popFront {f f' : ListQueues} {q r} (h : listOps.popFront f q = some (r, f')) :
    (queued f).Perm (r.toList ++ queued f') := by
  simp only [listOps] at h
  cases hq : f q with
  | nil =>
    rw [hq] at h
    cases h
    exact .refl _
  | cons t rest =>
    rw [hq] at h
    cases h
    have hperm := flatMap_update_perm allQueues_nodup (mem_allQueues q) f rest
    rw [hq] at hperm
    rw [← perm_append_left_iff rest]
    refine hperm.symm.trans ?_
    refine perm_append_comm.trans ?_
    exact perm_middle.symm

theorem running_update (p : Fin n → ProcessorInfo) (i : Fin n) (info : ProcessorInfo) :
    (running (update p i info) ++ (p i).currentThread.toList).Perm
      (info.currentThread.toList ++ running p) := by
  have hfun : (fun j => (update p i info j).currentThread.toList) =
      update (fun j => (p j).currentThread.toList) i info.currentThread.toList := by
    funext j
    by_cases hj : j = i
    · subst hj
      simp
    · simp [update_of_ne hj]
  have h := flatMap_update_perm (nodup_finRange n) (mem_finRange i)
    (fun j => (p j).currentThread.toList) info.currentThread.toList
  rwa [← hfun] at h

variable {T}

theorem requeue_queued :
    (queued (requeue listOps T info f).2).Perm (info.currentThread.toList ++ queued f) := by
  unfold requeue
  cases info.currentThread with
  | none => exact .refl _
  | some t =>
    dsimp only
    split <;> exact queued_pushBack f _ t

theorem popInto_list :
    ∃ t f', popInto listOps info f q = .ok ({ info with currentThread := t }, f') ∧
      listOps.popFront f q = some (t, f') := by
  unfold popInto
  cases hq : f q with
  | nil => exact ⟨none, f, by simp only [listOps, hq], by simp only [listOps, hq]⟩
  | cons t rest =>
    exact ⟨some t, update f q rest, by simp only [listOps, hq],
      by simp only [listOps, hq]⟩

theorem select_list :
    ∃ info' f', select listOps info f = .ok (info', f') ∧
      (queued f).Perm (info'.currentThread.toList ++ queued f') := by
  unfold select
  cases choose listOps info f with
  | none => exact ⟨_, f, rfl, .refl _⟩
  | some q =>
    cases q with
    | idle =>
      obtain ⟨t, f', hpop, hfront⟩ := popInto_list info f .idle
      exact ⟨_, f', hpop, queued_popFront hfront⟩
    | ready priority =>
      obtain ⟨t, f', hpop, hfront⟩ := popInto_list (info.resetFor priority) f (.ready priority)
      exact ⟨_, f', hpop, queued_popFront hfront⟩

theorem pickNext_list (s : Scheduler ListQueues n) (i : Fin n) (h : s.totalThreads ≠ 0) :
    ∃ s', s.pickNext listOps T i = .ok s' ∧ s'.totalThreads = s.totalThreads ∧
      s'.threads.Perm s.threads := by
  unfold Scheduler.pickNext
  rw [if_neg h]
  split
  case isTrue => exact ⟨s, rfl, rfl, .refl _⟩
  case isFalse =>
    obtain ⟨info, f, hselect, hperm⟩ := select_list (requeue listOps T (s.processors i) s.store).1
      (requeue listOps T (s.processors i) s.store).2
    rw [hselect]
    refine ⟨_, rfl, rfl, ?_⟩
    have hback := requeue_queued (T := T) (s.processors i) s.store
    have hrun := running_update s.processors i info
    rw [perm_iff_count] at hperm hback hrun ⊢
    intro x
    have hx := hperm x
    have hx' := hback x
    have hx'' := hrun x
    simp only [Scheduler.threads, count_append] at hx hx' hx'' ⊢
    omega

end Scheduling
