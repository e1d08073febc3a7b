import FrostyOS.IntrusiveList

/-! # The thread lists of the scheduler

The two ends and a count, with the links in the threads themselves. Threads are named by
their addresses; following a null pointer has no result. -/
namespace Scheduling

open IntrusiveList Links Function

structure ThreadList where
  start : Option ℕ
  last : Option ℕ
  count : ℕ
  deriving DecidableEq, Repr

open ThreadList

namespace ThreadList

def empty : ThreadList := ⟨none, none, 0⟩

def pushBack (m : Links ℕ) (l : ThreadList) (thread : ℕ) : Links ℕ × ThreadList :=
  let m := match l.last with
    | some e => m.setNext e (some thread)
    | none => m
  let m := m.setPrevious thread l.last
  (m, ⟨if l.start = none then some thread else l.start, some thread, l.count + 1⟩)

def popFront (m : Links ℕ) (l : ThreadList) : Option (Option ℕ × Links ℕ × ThreadList) :=
  if l.count = 0 then some (none, m, l)
  else if l.count = 1 then some (l.start, m, ⟨none, none, 0⟩)
  else
    match l.start with
    | none => none
    | some thread =>
      match m.next thread with
      | none => none
      | some start =>
        some (some thread, (m.setPrevious start none).setNext thread none,
          ⟨some start, l.last, l.count - 1⟩)

/-- The list stands for a sequence of threads. -/
structure Represents (m : Links ℕ) (l : ThreadList) (ts : List ℕ) : Prop where
  start : l.start = ts.head?
  last : l.last = ts.getLast?
  count : l.count = ts.length
  linked : Linked m none ts

variable {m : Links ℕ} {l : ThreadList} {ts us : List ℕ} {t : ℕ}

theorem represents_empty (m : Links ℕ) : empty.Represents m [] :=
  ⟨rfl, rfl, rfl, trivial⟩

theorem Represents.frame {m'} (h : l.Represents m ts) (hn : ∀ x ∈ ts, m'.next x = m.next x)
    (hp : ∀ x ∈ ts, m'.previous x = m.previous x) :
    l.Represents m' ts := ⟨h.start, h.last, h.count, h.linked.congr hn hp⟩

theorem pushBack_next (x : ℕ) : (l.pushBack m t).1.next x =
    if l.last = some x then some t else m.next x := by
  unfold pushBack
  cases he : l.last with
  | none => simp [setPrevious]
  | some e =>
    by_cases hx : x = e
    · simp [setPrevious, setNext, hx]
    · simp [setPrevious, setNext, update_of_ne hx, Ne.symm hx]

theorem pushBack_previous (x : ℕ) : (l.pushBack m t).1.previous x =
    if x = t then l.last else m.previous x := by
  unfold pushBack
  cases l.last with
  | none => simp [setPrevious, update_apply]
  | some e => simp [setPrevious, setNext, update_apply]

theorem pushBack_represents (h : l.Represents m ts) (hts : ts.Nodup) (ht : t ∉ ts)
    (hnext : m.next t = none) : (l.pushBack m t).2.Represents (l.pushBack m t).1 (ts ++ [t]) := by
  refine ⟨?_, ?_, ?_, ?_⟩
  · change (if l.start = none then some t else l.start) = _
    rw [h.start]
    cases ts with
    | nil => rfl
    | cons x ts => simp
  · change some t = _
    simp
  · change l.count + 1 = _
    rw [h.count]
    simp
  · have hne : ts.getLast? ≠ some t := fun he => ht (List.mem_of_getLast? he)
    refine h.linked.concat hts ?_ ?_ ?_ ?_ ?_
    · intro e he
      rw [pushBack_next, h.last, if_pos he]
    · intro x _ hx
      rw [pushBack_next, h.last, if_neg hx]
    · intro x hx
      rw [pushBack_previous, if_neg (fun hxt : x = t => ht (hxt ▸ hx))]
    · rw [pushBack_previous, if_pos rfl, h.last]
      simp
    · rw [pushBack_next, h.last, if_neg hne, hnext]

theorem popFront_cons (h : l.Represents m (t :: us)) (hts : (t :: us).Nodup) :
    ∃ m' l', l.popFront m = some (some t, m', l') ∧ l'.Represents m' us ∧
      m'.next t = none ∧ m'.previous t = none ∧
      ∀ x ∉ t :: us, m'.next x = m.next x ∧ m'.previous x = m.previous x := by
  obtain ⟨hprev, hnext, hlinked⟩ := h.linked
  rw [List.nodup_cons] at hts
  have hcount := h.count
  cases us with
  | nil =>
    refine ⟨m, ⟨none, none, 0⟩, ?_, represents_empty m, hnext, hprev,
      fun _ _ => ⟨rfl, rfl⟩⟩
    have h1 : l.count = 1 := hcount
    rw [popFront, if_neg (by omega), if_pos h1, h.start]
    rfl
  | cons u us =>
    have htu : t ≠ u := fun he => hts.1 (he ▸ List.mem_cons_self)
    rw [List.length_cons, List.length_cons] at hcount
    refine ⟨(m.setPrevious u none).setNext t none, ⟨some u, l.last, l.count - 1⟩, ?_, ?_, ?_, ?_,
      ?_⟩
    · have hstart : l.start = some t := h.start
      have hu : m.next t = some u := hnext
      rw [popFront, if_neg (by omega), if_neg (by omega), hstart]
      simp only [hu]
    · refine ⟨rfl, ?_, ?_, ?_⟩
      · change l.last = _
        rw [h.last, List.getLast?_cons_cons]
      · change l.count - 1 = _
        simp only [List.length_cons]
        omega
      · refine h.linked.tail hts.2 ?_ ?_ ?_
        · intro y hy
          have hyt : y ≠ t := fun he => hts.1 (he ▸ hy)
          simp [setNext, setPrevious, update_of_ne hyt]
        · rintro y ⟨⟩
          simp [setNext, setPrevious]
        · intro y _ hne
          have hyu : y ≠ u := fun he => hne (by rw [he]; rfl)
          simp [setNext, setPrevious, update_of_ne hyu]
    · simp [setNext]
    · simpa [setNext, setPrevious, update_of_ne htu] using hprev
    · intro x hx
      simp only [List.mem_cons, not_or] at hx
      simp [setNext, setPrevious, update_of_ne hx.1, update_of_ne hx.2.1]

theorem popFront_nil (h : l.Represents m []) : l.popFront m = some (none, m, l) :=
  if_pos h.count

end ThreadList

end Scheduling
