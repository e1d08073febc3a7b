import Mathlib.Data.List.Nodup

/-! # Singly linked lists

Nodes of any type that point to one another; the loops that follow the pointers, with the
lists of nodes that they go through. -/
namespace SinglyLinked

open List

variable {ι : Type*}

def Segment (next : ι → Option ι) : Option ι → List ι → Option ι → Prop
  | head, [], stop => head = stop
  | head, i :: l, stop => head = some i ∧ Segment next (next i) l stop

def Chain (next : ι → Option ι) (head : Option ι) (l : List ι) : Prop := Segment next head l none

def find (next : ι → Option ι) (test : ι → Bool) : ℕ → Option ι → Option (Option ι)
  | _, none => some none
  | 0, some _ => none
  | fuel + 1, some i => if test i then some (some i) else find next test fuel (next i)

/-- The node before `current`, or the last one if `current` does not come. -/
def previous [DecidableEq ι] (next : ι → Option ι) (current : ι) : ℕ → Option ι → Option (Option ι)
  | _, none => some none
  | 0, some _ => none
  | fuel + 1, some i =>
    if i = current then some none
    else if next i = none then some (some i)
    else if next i = some current then some (some i)
    else previous next current fuel (next i)

def nodes (next : ι → Option ι) : ℕ → Option ι → Option (List ι)
  | _, none => some []
  | 0, some _ => none
  | fuel + 1, some i => (nodes next fuel (next i)).map (i :: ·)

inductive Scan (ι : Type*) where
  | missing
  | hit (i : ι)
  | done
  deriving DecidableEq

/-- A search through a whole list. -/
def Scan.ofFind : Option ι → Scan ι
  | some i => .hit i
  | none => .done

/-- The loop over a given number of nodes; it misses one if the list is shorter. -/
def scan (next : ι → Option ι) (test : ι → Bool) : ℕ → Option ι → Scan ι
  | 0, _ => .done
  | _ + 1, none => .missing
  | count + 1, some i => if test i then .hit i else scan next test count (next i)

variable {next next' : ι → Option ι} {head stop : Option ι} {a b l : List ι} {i j : ι}

namespace Segment

theorem append_iff : Segment next head (a ++ b) stop ↔
    ∃ mid, Segment next head a mid ∧ Segment next mid b stop := by
  induction a generalizing head with
  | nil => simp [Segment]
  | cons i a ih =>
    simp only [cons_append, Segment, ih, ← exists_and_left, and_assoc]

theorem snoc_iff : Segment next head (a ++ [j]) stop ↔
    Segment next head a (some j) ∧ next j = stop := by
  rw [append_iff]
  constructor
  · rintro ⟨mid, ha, rfl, hstop⟩
    exact ⟨ha, hstop⟩
  · rintro ⟨ha, hstop⟩
    exact ⟨some j, ha, rfl, hstop⟩

theorem middle_iff : Segment next head (a ++ i :: b) stop ↔
    Segment next head a (some i) ∧ Segment next (next i) b stop := by
  rw [append_iff]
  constructor
  · rintro ⟨mid, ha, rfl, hb⟩
    exact ⟨ha, hb⟩
  · rintro ⟨ha, hb⟩
    exact ⟨some i, ha, rfl, hb⟩

theorem congr (h : Segment next head l stop) (hnext : ∀ i ∈ l, next' i = next i) :
    Segment next' head l stop := by
  induction l generalizing head with
  | nil => exact h
  | cons i l ih =>
    obtain ⟨rfl, hl⟩ := h
    refine ⟨rfl, ?_⟩
    rw [hnext i mem_cons_self]
    exact ih hl fun j hj => hnext j (mem_cons_of_mem i hj)

theorem rest_of_chain (h : Segment next head a stop) (hl : Chain next head l) :
    ∃ rest, l = a ++ rest ∧ Chain next stop rest := by
  induction a generalizing head l with
  | nil =>
    rw [show head = stop from h] at hl
    exact ⟨l, rfl, hl⟩
  | cons i a ih =>
    obtain ⟨rfl, ha⟩ := h
    cases l with
    | nil => cases hl
    | cons i' l =>
      obtain ⟨hi, hl⟩ := hl
      cases hi
      obtain ⟨rest, rfl, hrest⟩ := ih ha hl
      exact ⟨rest, rfl, hrest⟩

theorem length_lt (h : Segment next head a (some j)) (hl : Chain next head l) :
    a.length < l.length := by
  obtain ⟨rest, rfl, hrest⟩ := h.rest_of_chain hl
  cases rest with
  | nil => cases hrest
  | cons i rest =>
    rw [length_append, length_cons]
    omega

theorem link (h : Segment next head (a ++ [j]) none) (hj : j ∉ a) (hi : i ∉ a)
    (hlast : next' j = some i) (hnext : ∀ k, k ≠ j → k ≠ i → next' k = next k)
    (hstop : next' i = stop) : Segment next' head (a ++ [j] ++ [i]) stop := by
  have hfront : Segment next' head a (some j) := by
    apply (snoc_iff.mp h).1.congr
    intro k hk
    exact hnext k (fun hkj => hj (hkj ▸ hk)) (fun hki => hi (hki ▸ hk))
  exact snoc_iff.mpr ⟨snoc_iff.mpr ⟨hfront, hlast⟩, hstop⟩

end Segment

theorem Chain.unique (ha : Chain next head a) (hb : Chain next head b) : a = b := by
  induction a generalizing head b with
  | nil =>
    cases b with
    | nil => rfl
    | cons i b =>
      rw [show head = none from ha] at hb
      cases hb.1
  | cons i a ih =>
    obtain ⟨rfl, ha⟩ := ha
    cases b with
    | nil => cases hb
    | cons i' b =>
      obtain ⟨hi, hb⟩ := hb
      cases hi
      rw [ih ha hb]

theorem no_chain_of_cycle (h : Segment next stop a stop) (ha : a ≠ []) (l : List ι) :
    ¬ Chain next stop l := by
  intro hl
  obtain ⟨rest, hrest, hchain⟩ := h.rest_of_chain hl
  have hlen := congrArg List.length (hl.unique hchain)
  rw [hrest, length_append] at hlen
  exact ha (length_eq_zero_iff.mp (by omega))

theorem Chain.nodup (h : Chain next head l) : l.Nodup := by
  induction l generalizing head with
  | nil => exact nodup_nil
  | cons i l ih =>
    obtain ⟨-, hl⟩ := h
    refine nodup_cons.mpr ⟨fun hi => ?_, ih hl⟩
    obtain ⟨a, b, rfl⟩ := append_of_mem hi
    have hb : Chain next (next i) b := (Segment.middle_iff.mp hl).2
    have hlen := congrArg List.length (Chain.unique hl hb)
    simp at hlen
    omega

theorem Chain.unlink (h : Chain next head (a ++ i :: b)) {head'}
    (hfirst : a = [] → head' = next i) (hfront : a ≠ [] → head' = head)
    (hlast : ∀ j, a.getLast? = some j → next' j = next i)
    (hnext : ∀ k, a.getLast? ≠ some k → next' k = next k) : Chain next' head' (a ++ b) := by
  have hnd : (a ++ i :: b).Nodup := h.nodup
  obtain ⟨ha, hb⟩ := Segment.middle_iff.mp h
  have hrest : Segment next' (next i) b none := by
    apply hb.congr
    intro k hk
    apply hnext
    intro hlast
    have hka : k ∈ a := mem_of_getLast? hlast
    exact disjoint_of_nodup_append hnd hka (mem_cons_of_mem i hk)
  rcases eq_nil_or_concat a with rfl | ⟨a, j, rfl⟩
  · rw [hfirst rfl]
    exact hrest
  rw [concat_eq_append] at *
  rw [hfront (by simp)]
  have hja : j ∉ a := fun hj =>
    disjoint_of_nodup_append (nodup_append.mp hnd).1 hj mem_cons_self
  apply Segment.append_iff.mpr
  refine ⟨next i, Segment.snoc_iff.mpr ⟨?_, hlast j (by simp)⟩, hrest⟩
  apply (Segment.snoc_iff.mp ha).1.congr
  intro k hk
  apply hnext
  rw [getLast?_concat, ne_eq, Option.some.injEq]
  rintro rfl
  exact hja hk

variable {test : ι → Bool} {fuel : ℕ}

theorem find_chain (h : Chain next head l) (hfuel : l.length ≤ fuel) :
    find next test fuel head = some (l.find? test) := by
  induction l generalizing head fuel with
  | nil =>
    rw [show head = none from h]
    cases fuel <;> rfl
  | cons i l ih =>
    obtain ⟨rfl, hl⟩ := h
    cases fuel with
    | zero => cases hfuel
    | succ fuel =>
      rw [find, find?_cons]
      cases hi : test i with
      | true => rfl
      | false => exact ih hl (Nat.le_of_succ_le_succ hfuel)

theorem nodes_chain (h : Chain next head l) (hfuel : l.length ≤ fuel) :
    nodes next fuel head = some l := by
  induction l generalizing head fuel with
  | nil =>
    rw [show head = none from h]
    cases fuel <;> rfl
  | cons i l ih =>
    obtain ⟨rfl, hl⟩ := h
    cases fuel with
    | zero => cases hfuel
    | succ fuel =>
      rw [nodes, ih hl (Nat.le_of_succ_le_succ hfuel)]
      rfl

theorem chain_of_find (h : find next test fuel head = some none) : ∃ l, Chain next head l := by
  induction fuel generalizing head with
  | zero =>
    cases head with
    | none => exact ⟨[], rfl⟩
    | some i => cases h
  | succ fuel ih =>
    cases head with
    | none => exact ⟨[], rfl⟩
    | some i =>
      rw [find] at h
      split at h
      · cases h
      · obtain ⟨l, hl⟩ := ih h
        exact ⟨i :: l, rfl, hl⟩

theorem find_endless (h : ∀ l, ¬ Chain next head l) (fuel : ℕ) :
    find next (fun _ => false) fuel head = none := by
  have hmiss : ∀ fuel head, find next (fun _ => false) fuel head = none ∨
      find next (fun _ => false) fuel head = some none := by
    intro fuel
    induction fuel with
    | zero => intro head; cases head <;> simp [find]
    | succ fuel ih =>
      intro head
      cases head with
      | none => exact .inr rfl
      | some i => exact ih (next i)
  rcases hmiss fuel head with hnone | hend
  · exact hnone
  · obtain ⟨l, hl⟩ := chain_of_find hend
    exact absurd hl (h l)

theorem scan_chain (h : Chain next head l) :
    scan next test l.length head = .ofFind (l.find? test) := by
  induction l generalizing head with
  | nil => rfl
  | cons i l ih =>
    obtain ⟨rfl, hl⟩ := h
    rw [length_cons, scan, find?_cons]
    cases hi : test i with
    | true => rfl
    | false => exact ih hl

section Previous

variable [DecidableEq ι]

theorem previous_nil : previous next i fuel none = some none := by
  cases fuel <;> rfl

theorem previous_self (h : fuel ≠ 0) : previous next i fuel (some i) = some none := by
  cases fuel with
  | zero => exact absurd rfl h
  | succ fuel => rw [previous, if_pos rfl]

/-- The nodes in front of `i`, or all of them if the list ends without it. -/
theorem previous_segment (h : Segment next head a stop) (hi : i ∉ a)
    (hstop : stop = none ∨ stop = some i ∧ fuel ≠ 0) (hfuel : a.length ≤ fuel) :
    previous next i fuel head = some a.getLast? := by
  induction a generalizing head fuel with
  | nil =>
    rw [show head = stop from h]
    rcases hstop with rfl | ⟨rfl, hpos⟩
    · exact previous_nil
    · exact previous_self hpos
  | cons j a ih =>
    obtain ⟨rfl, hl⟩ := h
    have hji : j ≠ i := fun hji => hi (by simp [hji])
    cases fuel with
    | zero => cases hfuel
    | succ fuel =>
      rw [previous, if_neg hji]
      cases a with
      | nil =>
        have hnext : next j = stop := hl
        rcases hstop with rfl | ⟨rfl, -⟩ <;> simp [hnext]
      | cons k a =>
        have hk : next j = some k := hl.1
        have hki : k ≠ i := fun hki => hi (by simp [hki])
        have hle := Nat.le_of_succ_le_succ hfuel
        have hpos : fuel ≠ 0 := by
          rintro rfl
          cases hle
        rw [if_neg (by simp [hk]), if_neg (by simp [hk, hki]), getLast?_cons_cons]
        exact ih hl (fun hmem => hi (mem_cons_of_mem j hmem)) (hstop.imp_right fun h => ⟨h.1, hpos⟩)
          hle

theorem head_of_previous_none (h : previous next i fuel head = some none) :
    head = none ∨ head = some i := by
  induction fuel generalizing head with
  | zero =>
    cases head with
    | none => exact .inl rfl
    | some j => cases h
  | succ fuel ih =>
    cases head with
    | none => exact .inl rfl
    | some j =>
      rw [previous] at h
      split at h
      · rename_i hj
        exact .inr (by rw [hj])
      split at h
      · cases h
      · split at h
        · cases h
        · rename_i hnull hcurrent
          exact absurd (ih h) (by simp [hnull, hcurrent])

end Previous

end SinglyLinked
