import FrostyOS.MachineWord
import Mathlib.Algebra.BigOperators.Group.Finset.Basic
import Mathlib.Data.Fintype.Basic

/-! # Semaphores

`Semaphore.cpp` with every section under a spinlock as one step. `acquire` is one section;
`release` gives up its locks between taking the holder out, raising the value, popping a
waiting thread, lowering the value for it and making it a holder. -/
namespace Semaphores

open MachineWord

variable {n : ℕ}

structure Semaphore (n : ℕ) where
  value : ℕ
  waitingThreads : List (Fin n)
  holders : List (Fin n)
  deriving DecidableEq

open Semaphore

/-- Where a thread is with the semaphore: the stages of a release name the section that
comes next, with the thread that was popped. -/
inductive Stage (n : ℕ) where
  | running
  | blocked
  | raising
  | popping
  | lowering (nextThread : Fin n)
  | inserting (nextThread : Fin n)
  deriving DecidableEq

structure System (n : ℕ) where
  semaphore : Semaphore n
  stage : Fin n → Stage n

open Semaphores.System

namespace Semaphore

def lower (s : Semaphore n) : Semaphore n :=
  { s with value := subWord s.value 1 }

def raise (s : Semaphore n) : Semaphore n :=
  { s with value := u64 (s.value + 1) }

def insertHolder (s : Semaphore n) (thread : Fin n) : Semaphore n :=
  { s with holders := s.holders ++ [thread] }

def removeHolder (s : Semaphore n) (thread : Fin n) : Semaphore n :=
  { s with holders := s.holders.erase thread }

def setWaiting (s : Semaphore n) (threads : List (Fin n)) : Semaphore n :=
  { s with waitingThreads := threads }

end Semaphore

def System.set (s : System n) (semaphore : Semaphore n) (thread : Fin n) (stage : Stage n) :
    System n := ⟨semaphore, Function.update s.stage thread stage⟩

def System.acquire (s : System n) (thread : Fin n) : System n :=
  if s.semaphore.value = 0 then
    s.set (s.semaphore.setWaiting (s.semaphore.waitingThreads ++ [thread])) thread .blocked
  else s.set (s.semaphore.lower.insertHolder thread) thread .running

def System.acquireNolock (s : System n) (thread : Fin n) : System n :=
  if s.semaphore.value ≠ 0 then
    s.set (s.semaphore.lower.insertHolder thread) thread .running
  else s

def System.release (s : System n) (thread : Fin n) : System n :=
  if thread ∈ s.semaphore.holders then
    s.set (s.semaphore.removeHolder thread) thread .raising
  else s

def System.resume (s : System n) (thread : Fin n) : System n :=
  match s.stage thread with
  | .running => s
  | .blocked => s
  | .raising => s.set s.semaphore.raise thread .popping
  | .popping =>
    match s.semaphore.waitingThreads with
    | [] => s.set s.semaphore thread .running
    | nextThread :: rest =>
      s.set (s.semaphore.setWaiting rest) thread (.lowering nextThread)
  | .lowering nextThread => s.set s.semaphore.lower thread (.inserting nextThread)
  | .inserting nextThread =>
    (s.set (s.semaphore.insertHolder nextThread) thread .running).set
      (s.semaphore.insertHolder nextThread) nextThread .running

inductive Event (n : ℕ) where
  | acquire (thread : Fin n)
  | acquireNolock (thread : Fin n)
  | release (thread : Fin n)
  | resume (thread : Fin n)

def System.Enabled (s : System n) : Event n → Prop
  | .acquire t => s.stage t = .running
  | .acquireNolock t => s.stage t = .running
  | .release t => s.stage t = .running
  | .resume _ => True

def System.next (s : System n) : Event n → System n
  | .acquire t => s.acquire t
  | .acquireNolock t => s.acquireNolock t
  | .release t => s.release t
  | .resume t => s.resume t

/-- The unit that a release has raised is still there when it is taken for a waiting
thread. -/
def System.Backed (s : System n) : Event n → Prop
  | .resume t => ∀ w, s.stage t = .lowering w → s.semaphore.value ≠ 0
  | _ => True

instance (s : System n) : (e : Event n) → Decidable (s.Enabled e)
  | .acquire t | .acquireNolock t | .release t => inferInstanceAs (Decidable (s.stage t = .running))
  | .resume _ => .isTrue trivial

instance (s : System n) : (e : Event n) → Decidable (s.Backed e)
  | .resume t =>
    inferInstanceAs (Decidable (∀ w, s.stage t = .lowering w → s.semaphore.value ≠ 0))
  | .acquire _ | .acquireNolock _ | .release _ => .isTrue trivial

def initial (N : UInt32) : System n := ⟨⟨N.toNat, [], []⟩, fun _ => .running⟩

inductive Reachable (N : UInt32) (Meets : System n → Event n → Prop) : System n → Prop where
  | init : Reachable N Meets (initial N)
  | step {s : System n} (h : Reachable N Meets s) (e : Event n) (he : s.Enabled e)
      (hm : Meets s e) : Reachable N Meets (s.next e)

def Stage.inHand : Stage n → ℕ
  | .raising => 1
  | .inserting _ => 1
  | _ => 0

def System.inHand (s : System n) : ℕ := ∑ t, (s.stage t).inHand

def System.units (s : System n) : ℕ := s.semaphore.value + s.semaphore.holders.length + s.inHand

theorem System.units_set (s : System n) (sem : Semaphore n) (t : Fin n) (x : Stage n) :
    (s.set sem t x).units +
        (s.semaphore.value + s.semaphore.holders.length + (s.stage t).inHand) =
      s.units + (sem.value + sem.holders.length + x.inHand) := by
  have hrest : ∑ u ∈ Finset.univ.erase t, (Function.update s.stage t x u).inHand =
      ∑ u ∈ Finset.univ.erase t, (s.stage u).inHand := by
    apply Finset.sum_congr rfl
    intro u hu
    rw [Function.update_of_ne (Finset.ne_of_mem_erase hu)]
  have hnew := Finset.add_sum_erase Finset.univ
    (fun u => (Function.update s.stage t x u).inHand) (Finset.mem_univ t)
  have hold := Finset.add_sum_erase Finset.univ (fun u => (s.stage u).inHand)
    (Finset.mem_univ t)
  simp only [Function.update_self] at hnew
  simp only [units, inHand, set]
  omega

section

variable (s : Semaphore n) (t : Fin n)

namespace Semaphore

@[simp] theorem lower_holders : s.lower.holders = s.holders := by
  rw [lower]

@[simp] theorem raise_holders : s.raise.holders = s.holders := rfl

@[simp] theorem insertHolder_value : (s.insertHolder t).value = s.value := rfl

@[simp] theorem insertHolder_length :
    (s.insertHolder t).holders.length = s.holders.length + 1 := List.length_append

@[simp] theorem removeHolder_value : (s.removeHolder t).value = s.value := rfl

@[simp] theorem setWaiting_value (ts : List (Fin n)) : (s.setWaiting ts).value = s.value := rfl

@[simp] theorem setWaiting_holders (ts : List (Fin n)) :
    (s.setWaiting ts).holders = s.holders := rfl

variable {s t}

theorem lower_value (h : s.value ≠ 0) (hlt : s.value < 2 ^ 64) : s.lower.value + 1 = s.value := by
  have hsub : s.lower.value = s.value - 1 := subWord_of_le hlt (by omega)
  omega

theorem raise_value : s.raise.value ≤ s.value + 1 := Nat.mod_le _ _

theorem removeHolder_length (h : t ∈ s.holders) :
    (s.removeHolder t).holders.length + 1 = s.holders.length := by
  have hlength : (s.removeHolder t).holders.length = s.holders.length - 1 :=
    List.length_erase_of_mem h
  have hpos := List.length_pos_of_mem h
  omega

end Semaphore

end

variable {s : System n} {t : Fin n}

section

variable (hrun : s.stage t = .running)

include hrun

theorem System.units_take (h : s.semaphore.value ≠ 0) (hlt : s.semaphore.value < 2 ^ 64) :
    (s.set (s.semaphore.lower.insertHolder t) t .running).units = s.units := by
  have hunits := s.units_set (s.semaphore.lower.insertHolder t) t .running
  have hvalue := lower_value h hlt
  simp only [hrun, insertHolder_value, insertHolder_length, lower_holders] at hunits
  omega

theorem System.units_acquire
    (hlt : s.semaphore.value < 2 ^ 64) : (s.acquire t).units = s.units := by
  unfold acquire
  split
  case isTrue =>
    have hunits := s.units_set
      (s.semaphore.setWaiting (s.semaphore.waitingThreads ++ [t])) t .blocked
    simp only [hrun, Stage.inHand, setWaiting_value, setWaiting_holders] at hunits
    omega
  case isFalse h => exact units_take hrun h hlt

theorem System.units_acquireNolock
    (hlt : s.semaphore.value < 2 ^ 64) : (s.acquireNolock t).units = s.units := by
  unfold acquireNolock
  split
  case isTrue h => exact units_take hrun h hlt
  case isFalse => rfl

theorem System.units_release : (s.release t).units = s.units := by
  unfold release
  split
  case isTrue h =>
    have hunits := s.units_set (s.semaphore.removeHolder t) t .raising
    have hlength := removeHolder_length h
    simp only [hrun, Stage.inHand, removeHolder_value] at hunits
    omega
  case isFalse => rfl

end

/-- The sections of a release. The woken thread is blocked, but nothing here asks for it:
whatever it had in hand, the units do not grow. -/
theorem System.units_resume (hlt : s.semaphore.value < 2 ^ 64)
    (hback : ∀ w, s.stage t = .lowering w → s.semaphore.value ≠ 0) :
    (s.resume t).units ≤ s.units := by
  unfold resume
  cases hs : s.stage t with
  | running => exact le_rfl
  | blocked => exact le_rfl
  | raising =>
    have hunits := s.units_set s.semaphore.raise t .popping
    have hvalue := raise_value (s := s.semaphore)
    simp only [hs, Stage.inHand, raise_holders] at hunits
    dsimp only
    omega
  | popping =>
    cases hw : s.semaphore.waitingThreads with
    | nil =>
      have hunits := s.units_set s.semaphore t .running
      simp only [hs, Stage.inHand] at hunits
      dsimp only
      omega
    | cons w rest =>
      have hunits := s.units_set (s.semaphore.setWaiting rest) t (.lowering w)
      simp only [hs, Stage.inHand, setWaiting_value, setWaiting_holders] at hunits
      dsimp only
      omega
  | lowering w =>
    have hunits := s.units_set s.semaphore.lower t (.inserting w)
    have hvalue := lower_value (hback w hs) hlt
    simp only [hs, Stage.inHand, lower_holders] at hunits
    dsimp only
    omega
  | inserting w =>
    have hunits := s.units_set (s.semaphore.insertHolder w) t .running
    simp only [hs, Stage.inHand, insertHolder_value, insertHolder_length] at hunits
    have hwoken := (s.set (s.semaphore.insertHolder w) t .running).units_set
      (s.semaphore.insertHolder w) w .running
    simp only [set, Stage.inHand] at hunits hwoken
    dsimp only [set]
    omega

theorem System.value_le_units (s : System n) : s.semaphore.value ≤ s.units := by
  rw [units, add_assoc]
  exact Nat.le_add_right _ _

theorem System.units_next {e} (he : s.Enabled e) (hb : s.Backed e)
    (hlt : s.semaphore.value < 2 ^ 64) : (s.next e).units ≤ s.units := by
  cases e with
  | acquire t => exact Nat.le_of_eq (units_acquire he hlt)
  | acquireNolock t => exact Nat.le_of_eq (units_acquireNolock he hlt)
  | release t => exact Nat.le_of_eq (units_release he)
  | resume t => exact units_resume hlt hb

theorem units_le_of_reachable {N} (h : Reachable N Backed s) : s.units ≤ N.toNat := by
  induction h with
  | init => simp [initial, units, inHand, Stage.inHand]
  | @step s _ e he hb ih =>
    have hvalue := s.value_le_units
    have hN := N.toNat_lt
    exact (units_next he hb (by omega)).trans ih

/-- In a run in which no release takes a unit that is not there, the value and the holders
together never exceed the initial value. -/
theorem holders_bounded {N : UInt32} (h : Reachable N Backed s) :
    s.semaphore.holders.length ≤ N.toNat ∧
      s.semaphore.value + s.semaphore.holders.length ≤ N.toNat := by
  have hunits := units_le_of_reachable h
  rw [units] at hunits
  omega

section

variable {Meets : System n → Event n → Prop}

def System.after (s : System n) (events : List (Event n)) : System n := events.foldl next s

def Allowed (Meets : System n → Event n → Prop) : List (Event n) → System n → Prop
  | [], _ => True
  | e :: es, s => (s.Enabled e ∧ Meets s e) ∧ Allowed Meets es (s.next e)

instance [∀ s e, Decidable (Meets s e)] : (es : List (Event n)) → (s : System n) →
    Decidable (Allowed Meets es s)
  | [], _ => .isTrue trivial
  | e :: es, s =>
    have := instDecidableAllowed es (s.next e)
    inferInstanceAs (Decidable ((s.Enabled e ∧ Meets s e) ∧ Allowed Meets es (s.next e)))

theorem Reachable.after {N} (h : Reachable N Meets s) {es} (ha : Allowed Meets es s) :
    Reachable N Meets (s.after es) := by
  induction es generalizing s with
  | nil => exact h
  | cons e es ih => exact ih (h.step e ha.1.1 ha.1.2) ha.2

end

theorem holders_bounded_handover :
    ∃ s : System 2, Reachable 1 Backed s ∧ s.semaphore.holders = [1] ∧
      s.semaphore.value + s.semaphore.holders.length ≤ 1 := by
  have hrun : Reachable 1 Backed ((initial 1 : System 2).after [.acquire 0, .acquire 1,
      .release 0, .resume 0, .resume 0, .resume 0, .resume 0]) := .after .init (by decide +kernel)
  exact ⟨_, hrun, by decide +kernel, (holders_bounded hrun).2⟩

/-- A third thread takes the unit before it is taken for the waiting one: the value goes
below zero and there are two holders of one unit. -/
theorem handover_overtaken :
    ∃ s : System 3, Reachable 1 (fun _ _ => True) s ∧ s.semaphore.value = 2 ^ 64 - 1 ∧
      s.semaphore.holders = [2, 1] := by
  have hrun : Reachable 1 (fun _ _ => True) ((initial 1 : System 3).after [.acquire 0,
      .acquire 1, .release 0, .resume 0, .acquire 2, .resume 0, .resume 0, .resume 0]) :=
    .after .init (by decide +kernel)
  exact ⟨_, hrun, by decide +kernel, by decide +kernel⟩

end Semaphores
