import Mathlib.Data.List.Nodup

/-! # Doubly linked lists whose links are fields of the elements

A memory of link fields and what it means that a sequence of elements is linked both ways,
with the changes that appending and removing the first element make. -/
namespace IntrusiveList

open List

structure Links (α : Type*) where
  next : α → Option α
  previous : α → Option α

variable {α : Type*} [DecidableEq α]

def Links.setNext (m : Links α) (x : α) (v : Option α) : Links α :=
  { m with next := Function.update m.next x v }

def Links.setPrevious (m : Links α) (x : α) (v : Option α) : Links α :=
  { m with previous := Function.update m.previous x v }

def Links.cleared : Links α := ⟨fun _ => none, fun _ => none⟩

omit [DecidableEq α] in
def Linked (m : Links α) : Option α → List α → Prop
  | _, [] => True
  | p, x :: rest => m.previous x = p ∧ m.next x = rest.head? ∧ Linked m (some x) rest

variable {l : List α} {p : Option α}

omit [DecidableEq α] in
theorem Linked.congr {m m'} (h : Linked m p l) (hn : ∀ x ∈ l, m'.next x = m.next x)
    (hp : ∀ x ∈ l, m'.previous x = m.previous x) : Linked m' p l := by
  induction l generalizing p with
  | nil => trivial
  | cons x rest ih =>
    obtain ⟨h₁, h₂, h₃⟩ := h
    refine ⟨?_, ?_, ih h₃ (fun y hy => hn y (mem_cons_of_mem x hy))
      (fun y hy => hp y (mem_cons_of_mem x hy))⟩
    · rw [hp x mem_cons_self, h₁]
    · rw [hn x mem_cons_self, h₂]

omit [DecidableEq α] in
theorem Linked.concat {m m' t} (h : Linked m p l) (hl : l.Nodup)
    (hlast : ∀ e, l.getLast? = some e → m'.next e = some t)
    (hn : ∀ x ∈ l, l.getLast? ≠ some x → m'.next x = m.next x)
    (hp : ∀ x ∈ l, m'.previous x = m.previous x) (htp : m'.previous t = l.getLast?.or p)
    (htn : m'.next t = none) : Linked m' p (l ++ [t]) := by
  induction l generalizing p with
  | nil => exact ⟨htp, htn, trivial⟩
  | cons x rest ih =>
    obtain ⟨h₁, h₂, h₃⟩ := h
    rw [nodup_cons] at hl
    refine ⟨(hp x mem_cons_self).trans h₁, ?_, ?_⟩
    · cases rest with
      | nil => exact hlast x rfl
      | cons y rest =>
        have hx : (x :: y :: rest).getLast? ≠ some x := by
          intro he
          rw [getLast?_cons_cons] at he
          exact hl.1 (mem_of_getLast? he)
        rw [hn x mem_cons_self hx, h₂]
        rfl
    · cases rest with
      | nil => exact ⟨htp, htn, trivial⟩
      | cons y rest =>
        refine ih h₃ hl.2 ?_ ?_ (fun z hz => hp z (mem_cons_of_mem x hz)) ?_
        · intro e he
          exact hlast e (by rw [getLast?_cons_cons, he])
        · intro z hz hne
          exact hn z (mem_cons_of_mem x hz) (by rwa [getLast?_cons_cons])
        · rw [htp, getLast?_cons_cons]
          simp [getLast?_cons]

omit [DecidableEq α] in
theorem Linked.tail {m m' x rest} (h : Linked m p (x :: rest))
    (hrest : rest.Nodup) (hn : ∀ y ∈ rest, m'.next y = m.next y)
    (hfirst : ∀ y, rest.head? = some y → m'.previous y = none)
    (hp : ∀ y ∈ rest, rest.head? ≠ some y → m'.previous y = m.previous y) :
    Linked m' none rest := by
  cases rest with
  | nil => trivial
  | cons y rest =>
    obtain ⟨-, -, -, hnext, hlinked⟩ := h
    rw [nodup_cons] at hrest
    refine ⟨hfirst y rfl, (hn y mem_cons_self).trans hnext, ?_⟩
    refine hlinked.congr (fun z hz => hn z (mem_cons_of_mem y hz)) ?_
    intro z hz
    refine hp z (mem_cons_of_mem y hz) ?_
    rintro ⟨⟩
    exact hrest.1 hz

omit [DecidableEq α] in
/-- What is read by following the next links from an element, at most `k` times. -/
def readFrom (next : α → Option α) : ℕ → Option α → List α
  | 0, _ => []
  | _ + 1, none => []
  | k + 1, some x => x :: readFrom next k (next x)

omit [DecidableEq α] in
theorem Linked.readFrom_eq {m} (h : Linked m p l) :
    readFrom m.next l.length l.head? = l := by
  induction l generalizing p with
  | nil => rfl
  | cons x rest ih =>
    obtain ⟨-, hnext, hrest⟩ := h
    rw [length_cons, head?_cons, readFrom, hnext, ih hrest]

end IntrusiveList
