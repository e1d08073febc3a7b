import Mathlib.Data.List.Basic
import Mathlib.Data.Nat.Basic

/-! # Ordered maps with natural keys

`Ops` is what a client of a search tree calls; `Lawful` says what the calls mean on the maps
that satisfy `Intact`. Deletion is lawful whenever its result is intact. -/
namespace OrderedMap

open List

structure Ops (M V : Type) where
  empty : M
  find : M → ℕ → Option V
  findOrHigher : M → ℕ → Option (ℕ × V)
  insert : M → ℕ → V → M
  delete : M → ℕ → M
  setValue : M → ℕ → V → M

structure Lawful {M V : Type} (T : Ops M V) (Intact : M → Prop) : Prop where
  empty_intact : Intact T.empty
  find_empty : ∀ k, T.find T.empty k = none
  higher_some : ∀ {m k j v}, Intact m → T.findOrHigher m k = some (j, v) →
    k ≤ j ∧ T.find m j = some v ∧ ∀ i, k ≤ i → i < j → T.find m i = none
  higher_none : ∀ {m k}, Intact m → T.findOrHigher m k = none → ∀ i, k ≤ i → T.find m i = none
  insert_intact : ∀ {m} k v, Intact (T.insert m k v) ↔ Intact m
  find_insert : ∀ {m} k v, Intact m → T.find m k = none →
    ∀ i, T.find (T.insert m k v) i = if i = k then some v else T.find m i
  setValue_intact : ∀ {m} k v, Intact (T.setValue m k v) ↔ Intact m
  find_setValue : ∀ {m} k v, Intact m → T.find m k ≠ none →
    ∀ i, T.find (T.setValue m k v) i = if i = k then some v else T.find m i
  intact_of_delete : ∀ {m k}, Intact (T.delete m k) → Intact m
  find_delete : ∀ {m k}, Intact (T.delete m k) →
    ∀ i, T.find (T.delete m k) i = if i = k then none else T.find m i

namespace Assoc

variable {V : Type}

def Sorted (l : List (ℕ × V)) : Prop := l.Pairwise (fun a b => a.1 < b.1)

def find (l : List (ℕ × V)) (k : ℕ) : Option V := (l.find? (fun e => e.1 == k)).map Prod.snd

def findOrHigher (l : List (ℕ × V)) (k : ℕ) : Option (ℕ × V) := l.find? (fun e => decide (k ≤ e.1))

/-- Insert a new key; an old one keeps its value. -/
def insert : List (ℕ × V) → ℕ → V → List (ℕ × V)
  | [], k, v => [(k, v)]
  | (j, w) :: l, k, v =>
    if k < j then (k, v) :: (j, w) :: l
    else if j < k then (j, w) :: insert l k v
    else (j, w) :: l

def delete (l : List (ℕ × V)) (k : ℕ) : List (ℕ × V) := l.filter (fun e => e.1 != k)

def setValue (l : List (ℕ × V)) (k : ℕ) (v : V) : List (ℕ × V) :=
  l.map fun e => if e.1 = k then (k, v) else e

variable {l : List (ℕ × V)} {k j : ℕ} {v w : V}

@[simp] theorem find_nil (k : ℕ) : find ([] : List (ℕ × V)) k = none := rfl

variable {r : List (ℕ × V)} (e : ℕ × V)

@[simp] theorem find_cons (l : List (ℕ × V)) (k : ℕ) :
    find (e :: l) k = if e.1 = k then some e.2 else find l k := by
  by_cases h : e.1 = k
  · simp [find, h]
  · simp [find, h]

theorem find_append (l r : List (ℕ × V)) (k : ℕ) : find (l ++ r) k = (find l k).or (find r k) := by
  induction l with
  | nil => simp
  | cons e l ih =>
    by_cases h : e.1 = k
    · simp [h]
    · simp [h, ih]

theorem find_eq_none : find l k = none ↔ ∀ e ∈ l, e.1 ≠ k := by
  simp [find]

theorem find_none_of_lt (h : ∀ e ∈ l, k < e.1) : find l k = none :=
  find_eq_none.mpr fun e he => ne_of_gt (h e he)

theorem find_none_of_gt (h : ∀ e ∈ l, e.1 < k) : find l k = none :=
  find_eq_none.mpr fun e he => ne_of_lt (h e he)

theorem mem_insert {e} (h : e ∈ insert l k v) : e.1 = k ∨ e ∈ l := by
  induction l with
  | nil => exact .inl (by rw [mem_singleton.mp h])
  | cons d l ih =>
    unfold insert at h
    split at h
    · rcases mem_cons.mp h with rfl | h
      · exact .inl rfl
      · exact .inr h
    split at h
    · rcases mem_cons.mp h with rfl | h
      · exact .inr mem_cons_self
      · exact (ih h).imp_right (mem_cons_of_mem _)
    · exact .inr h

theorem Sorted.insert (hs : Sorted l) : Sorted (insert l k v) := by
  induction l with
  | nil => exact pairwise_singleton _ _
  | cons d l ih =>
    obtain ⟨hd, hl⟩ := pairwise_cons.mp hs
    unfold Assoc.insert
    split
    · next hlt =>
      refine pairwise_cons.mpr ⟨fun e he => ?_, hs⟩
      rcases mem_cons.mp he with rfl | he
      · exact hlt
      · exact Nat.lt_trans hlt (hd e he)
    · split
      · next hgt =>
        refine pairwise_cons.mpr ⟨fun e he => ?_, ih hl⟩
        rcases mem_insert he with h | h
        · rw [h]; exact hgt
        · exact hd e h
      · exact hs

theorem find_insert (hs : Sorted l) (i : ℕ) :
    find (insert l k v) i = if i = k ∧ find l k = none then some v else find l i := by
  induction l with
  | nil =>
    by_cases h : k = i
    · simp [insert, h]
    · simp [insert, h, Ne.symm h]
  | cons d l ih =>
    obtain ⟨hd, hl⟩ := pairwise_cons.mp hs
    unfold insert
    split
    · next hlt =>
      have hk : find l k = none := find_none_of_lt fun e he => Nat.lt_trans hlt (hd e he)
      have hdk : d.1 ≠ k := ne_of_gt hlt
      by_cases h : i = k
      · subst h; simp [hk, hdk]
      · simp [h, Ne.symm h]
    · split
      · next hgt =>
        have hdk : d.1 ≠ k := ne_of_lt hgt
        by_cases h : d.1 = i
        · have hik : i ≠ k := fun hi => hdk (h.trans hi)
          simp [h, hik]
        · simp [h, hdk, ih hl]
      · next h₁ h₂ =>
        have hdk : d.1 = k := by
          have := h₁; have := h₂; omega
        simp [hdk]

theorem Sorted.delete (hs : Sorted l) (k : ℕ) : Sorted (delete l k) := hs.filter _

theorem find_delete (i : ℕ) : find (delete l k) i = if i = k then none else find l i := by
  induction l with
  | nil => simp [delete]
  | cons d l ih =>
    unfold delete at ih ⊢
    by_cases hd : d.1 = k
    · by_cases hi : i = k
      · subst hi; simpa [hd] using ih
      · simp [hd, hi, ih, Ne.symm hi]
    · by_cases hi : i = k
      · subst hi; simp [hd, ih]
      · simp [hd, hi, ih]

theorem Sorted.setValue (hs : Sorted l) (k : ℕ) (v : V) : Sorted (setValue l k v) := by
  unfold Assoc.setValue
  refine pairwise_map.mpr (List.Pairwise.imp ?_ hs)
  intro a b hab
  split <;> split <;> simp_all

theorem find_setValue (i : ℕ) :
    find (setValue l k v) i = if i = k ∧ find l k ≠ none then some v else find l i := by
  induction l with
  | nil => simp [setValue]
  | cons d l ih =>
    unfold setValue at ih ⊢
    by_cases hd : d.1 = k
    · by_cases hi : i = k
      · simp [hd, hi]
      · simp [hd, hi, ih, Ne.symm hi]
    · by_cases hi : i = k
      · subst hi; simp [hd, ih]
      · simp [hd, hi, ih]

theorem findOrHigher_some (hs : Sorted l) (h : findOrHigher l k = some (j, v)) :
    k ≤ j ∧ find l j = some v ∧ ∀ i, k ≤ i → i < j → find l i = none := by
  induction l with
  | nil => cases h
  | cons d l ih =>
    obtain ⟨hd, hl⟩ := pairwise_cons.mp hs
    by_cases hk : k ≤ d.1
    · simp only [findOrHigher, find?_cons, hk, decide_true, Option.some.injEq] at h
      subst h
      refine ⟨hk, by simp, fun i _ hlt => ?_⟩
      refine find_none_of_lt fun e he => ?_
      rcases mem_cons.mp he with rfl | he
      · exact hlt
      · exact Nat.lt_trans hlt (hd e he)
    · have hrest : findOrHigher l k = some (j, v) := by
        simpa [findOrHigher, find?_cons, hk] using h
      obtain ⟨hkj, hj, hmin⟩ := ih hl hrest
      refine ⟨hkj, ?_, fun i hi hlt => ?_⟩
      · rw [find_cons, if_neg (by omega)]; exact hj
      · rw [find_cons, if_neg (by omega)]; exact hmin i hi hlt

theorem findOrHigher_none (h : findOrHigher l k = none) (i : ℕ) (hi : k ≤ i) : find l i = none := by
  refine find_eq_none.mpr fun e he hei => ?_
  have := find?_eq_none.mp h e he
  simp at this
  omega

theorem sorted_middle : Sorted (l ++ (j, w) :: r) ↔
    Sorted l ∧ Sorted r ∧ (∀ e ∈ l, e.1 < j) ∧ (∀ e ∈ r, j < e.1) := by
  unfold Sorted
  simp only [pairwise_append, pairwise_cons, mem_cons, forall_eq_or_imp]
  constructor
  · rintro ⟨hl, ⟨hr, hrr⟩, hlr⟩
    exact ⟨hl, hrr, fun e he => (hlr e he).1, hr⟩
  · rintro ⟨hl, hrr, hlj, hr⟩
    exact ⟨hl, ⟨hr, hrr⟩, fun e he => ⟨hlj e he, fun f hf => Nat.lt_trans (hlj e he) (hr f hf)⟩⟩

theorem find_middle (hs : Sorted (l ++ (j, w) :: r)) (k : ℕ) :
    find (l ++ (j, w) :: r) k = if j = k then some w else if j < k then find r k else find l k := by
  obtain ⟨-, -, hl, hr⟩ := sorted_middle.mp hs
  rw [find_append, find_cons]
  rcases Nat.lt_trichotomy j k with h | h | h
  · have hnone : find l k = none := find_none_of_gt fun e he => Nat.lt_trans (hl e he) h
    simp [hnone, h, ne_of_lt h]
  · subst h
    simp [find_none_of_gt hl]
  · have hnone : find r k = none := find_none_of_lt fun e he => Nat.lt_trans h (hr e he)
    simp [hnone, Nat.ne_of_gt h, Nat.not_lt.mpr (Nat.le_of_lt h)]

theorem findOrHigher_middle (hs : Sorted (l ++ (j, w) :: r)) (k : ℕ) :
    findOrHigher (l ++ (j, w) :: r) k =
      if k ≤ j then (findOrHigher l k).or (some (j, w)) else findOrHigher r k := by
  obtain ⟨-, -, hl, -⟩ := sorted_middle.mp hs
  unfold findOrHigher
  rw [find?_append, find?_cons]
  by_cases h : k ≤ j
  · simp [h]
  have hnone : l.find? (fun e => decide (k ≤ e.1)) = none := by
    rw [find?_eq_none]
    intro e he
    have := hl e he
    simp
    omega
  simp [h, hnone]

theorem findOrHigher_of_find (hs : Sorted l) (h : find l k = some v) :
    findOrHigher l k = some (k, v) := by
  cases hh : findOrHigher l k with
  | none => rw [findOrHigher_none hh k (Nat.le_refl k)] at h; cases h
  | some e =>
    obtain ⟨j, w⟩ := e
    obtain ⟨hle, hj, hmin⟩ := findOrHigher_some hs hh
    by_cases he : j = k
    · subst he
      rw [h] at hj
      rw [Option.some.inj hj]
    · rw [hmin k (Nat.le_refl k) (by omega)] at h
      cases h

theorem insert_middle (hs : Sorted (l ++ (j, w) :: r)) (k : ℕ) (v : V) :
    insert (l ++ (j, w) :: r) k v =
      if k < j then insert l k v ++ (j, w) :: r
      else if j < k then l ++ (j, w) :: insert r k v
      else l ++ (j, w) :: r := by
  induction l with
  | nil => simp [insert]
  | cons e l ih =>
    obtain ⟨he, hl⟩ := pairwise_cons.mp hs
    have hej : e.1 < j := he (j, w) (by simp)
    rw [cons_append, insert, ih hl]
    rcases Nat.lt_trichotomy k e.1 with h | h | h
    · simp [insert, h, Nat.lt_trans h hej]
    · subst h
      simp [insert, hej]
    · simp only [Nat.not_lt.mpr (Nat.le_of_lt h), h, if_true, if_false, insert]
      split
      · rfl
      · split <;> rfl

theorem delete_append (l r : List (ℕ × V)) (k : ℕ) : delete (l ++ r) k = delete l k ++ delete r k :=
  filter_append ..

theorem delete_cons (l : List (ℕ × V)) (k : ℕ) :
    delete (e :: l) k = if e.1 = k then delete l k else e :: delete l k := by
  by_cases h : e.1 = k <;> simp [delete, h]

theorem delete_of_find_none (h : find l k = none) : delete l k = l := by
  unfold delete
  rw [filter_eq_self]
  intro e he
  have := find_eq_none.mp h e he
  simpa using this

theorem setValue_of_find_none (h : find l k = none) : setValue l k v = l := by
  unfold setValue
  refine (map_congr_left fun e he => ?_).trans (map_id l)
  rw [if_neg (find_eq_none.mp h e he)]
  rfl

theorem setValue_append (l r : List (ℕ × V)) (k : ℕ) (v : V) :
    setValue (l ++ r) k v = setValue l k v ++ setValue r k v := map_append

theorem setValue_cons (l : List (ℕ × V)) (k : ℕ) (v : V) :
    setValue (e :: l) k v = (if e.1 = k then (k, v) else e) :: setValue l k v := rfl

end Assoc

def SortedMap (V : Type) : Type := { l : List (ℕ × V) // Assoc.Sorted l }

def sortedOps (V : Type) : Ops (SortedMap V) V where
  empty := ⟨[], List.Pairwise.nil⟩
  find m := Assoc.find m.1
  findOrHigher m := Assoc.findOrHigher m.1
  insert m k v := ⟨Assoc.insert m.1 k v, m.2.insert⟩
  delete m k := ⟨Assoc.delete m.1 k, m.2.delete k⟩
  setValue m k v := ⟨Assoc.setValue m.1 k v, m.2.setValue k v⟩

theorem sortedOps_lawful (V : Type) : Lawful (sortedOps V) (fun _ => True) where
  empty_intact := trivial
  find_empty _ := rfl
  higher_some {m} _ _ _ _ h := Assoc.findOrHigher_some m.2 h
  higher_none _ h := Assoc.findOrHigher_none h
  insert_intact _ _ := Iff.rfl
  find_insert {m} k v _ hk i := by
    have hk' : Assoc.find m.1 k = none := hk
    have := Assoc.find_insert m.2 (k := k) (v := v) i
    simp only [hk', and_true] at this
    exact this
  setValue_intact _ _ := Iff.rfl
  find_setValue {m} k v _ hk i := by
    have hk' : Assoc.find m.1 k ≠ none := hk
    have := Assoc.find_setValue (l := m.1) (k := k) (v := v) i
    simp only [hk', ne_eq, not_false_eq_true, and_true] at this
    exact this
  intact_of_delete _ := trivial
  find_delete _ i := Assoc.find_delete i

end OrderedMap
