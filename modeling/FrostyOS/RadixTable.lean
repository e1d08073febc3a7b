import Mathlib.Data.List.Basic
import Mathlib.Order.BooleanAlgebra.Set

/-! # Radix tables in a shared store

A store holds pages of entries; an entry may link to another page. Writes to tables that no
two paths share act on the view by path alone. -/
namespace RadixTable

open List Option

variable {A I E : Type*}

abbrev Store (A I E : Type*) := A → I → E

/-- What stands behind each path and index. -/
abbrev View (I E : Type*) := List I → I → Option E

def write [DecidableEq A] [DecidableEq I] (m : Store A I E) (a : A) (i : I) (e : E) : Store A I E :=
  fun b j => if b = a ∧ j = i then e else m b j

def fill [DecidableEq A] (m : Store A I E) (a : A) (z : E) : Store A I E :=
  fun b j => if b = a then z else m b j

def tableAt (link : ℕ → E → Option A) (m : Store A I E) (root : A) : List I → Option A
  | [] => some root
  | i :: p => (tableAt link m root p).bind fun a => link p.length (m a i)

def view (link : ℕ → E → Option A) (m : Store A I E) (root : A) : View I E :=
  fun p i => (tableAt link m root p).map fun a => m a i

def Separate (link : ℕ → E → Option A) (m : Store A I E) (root : A) : Prop :=
  ∀ p q a, tableAt link m root p = some a → tableAt link m root q = some a → p = q

def tables (link : ℕ → E → Option A) (m : Store A I E) (root : A) : Set A :=
  {a | ∃ p, tableAt link m root p = some a}

def View.set [DecidableEq I] (v : View I E) (p : List I) (i : I) (e : E) : View I E :=
  fun q j => if q = p ∧ j = i then some e else v q j

/-- The entry at `(p, i)` becomes `e`, and what was below it is cut off. -/
def View.cut [DecidableEq I] (v : View I E) (p : List I) (i : I) (e : E) : View I E :=
  fun q j => if i :: p <:+ q then none else v.set p i e q j

def View.grow [DecidableEq I] (v : View I E) (p : List I) (i : I) (e z : E) : View I E :=
  fun q j => if q = i :: p then some z else v.set p i e q j

variable {link : ℕ → E → Option A} {m : Store A I E} {root a f : A} {p q : List I} {i j : I}
  {e e' z : E} {v : View I E} {final : ℕ → E → Bool} {live : E → Bool} {x : List I}
  {P : Set (List I)}

theorem view_of_tableAt (h : tableAt link m root p = some a) :
    view link m root p i = some (m a i) := by
  simp [view, h]

theorem view_of_none (h : tableAt link m root p = none) : view link m root p i = none := by
  simp [view, h]

theorem tableAt_cons (h : tableAt link m root p = some a) :
    tableAt link m root (i :: p) = link p.length (m a i) := by
  simp [tableAt, h]

theorem tableAt_eq_bind_view :
    tableAt link m root (i :: p) = (view link m root p i).bind (link p.length) := by
  cases h : tableAt link m root p <;> simp [tableAt, view, h]

theorem view_isSome_cons : (view link m root (i :: p) j).isSome ↔
    ∃ e, view link m root p i = some e ∧ (link p.length e).isSome := by
  rw [view, isSome_map, tableAt_eq_bind_view]
  cases view link m root p i <;> simp

theorem view_below_none (h : ∀ j e, view link m root p j = some e → link p.length e = none)
    (hq : p <:+ q) (hne : q ≠ p) : tableAt link m root q = none := by
  induction q with
  | nil => exact absurd (suffix_nil.mp hq).symm hne
  | cons j q ih =>
    rcases suffix_cons_iff.mp hq with heq | hs
    · exact absurd heq.symm hne
    by_cases hqp : q = p
    · subst hqp
      rw [tableAt_eq_bind_view]
      cases hv : view link m root q j with
      | none => rfl
      | some e => exact h j e hv
    · simp [tableAt, ih hs hqp]

/-- The entries at which a walk ends. -/
def leaves (final : ℕ → E → Bool) (v : View I E) : View I E :=
  fun p i => (v p i).filter (final p.length)

theorem leaves_eq_none (h : v p i = some e) (hfinal : final p.length e = false) :
    leaves final v p i = none := by
  simp [leaves, h, hfinal]

/-- The paths, with their last index, at which a live entry stands. -/
def occupied (live : E → Bool) (v : View I E) : Set (List I) :=
  {x | ∃ p i e, x = i :: p ∧ v p i = some e ∧ live e = true}

/-- The paths that lead to one of the given ones, the end included. -/
def suffixes (P : Set (List I)) : Set (List I) := {x | x ≠ [] ∧ ∃ u ∈ P, x <:+ u}

theorem cons_mem_occupied : i :: p ∈ occupied live v ↔ ∃ e, v p i = some e ∧ live e := by
  constructor
  · rintro ⟨q, j, e, hx, he⟩
    obtain ⟨rfl, rfl⟩ := cons.inj hx
    exact ⟨e, he⟩
  · rintro ⟨e, he⟩
    exact ⟨p, i, e, rfl, he⟩

theorem nil_notMem_occupied : [] ∉ occupied live v := by
  rintro ⟨q, j, e, hx, -⟩
  cases hx

theorem suffixes_insert_cons (x : List I) (P : Set (List I)) :
    suffixes (insert (i :: x) P) = insert (i :: x) (suffixes (insert x P)) := by
  ext y
  simp only [suffixes, Set.mem_ofPred_eq, Set.mem_insert_iff, exists_eq_or_imp, suffix_cons_iff]
  constructor
  · rintro ⟨hne, (h | h) | h⟩
    · exact .inl h
    · exact .inr ⟨hne, .inl h⟩
    · exact .inr ⟨hne, .inr h⟩
  · rintro (rfl | ⟨hne, h | h⟩)
    · exact ⟨by simp, .inl (.inl rfl)⟩
    · exact ⟨hne, .inl (.inr h)⟩
    · exact ⟨hne, .inr h⟩

theorem suffixes_insert_nil (P : Set (List I)) : suffixes (insert [] P) = suffixes P := by
  ext y
  simp only [suffixes, Set.mem_ofPred_eq, Set.mem_insert_iff, exists_eq_or_imp, suffix_nil]
  constructor
  · rintro ⟨hne, h | h⟩
    · exact absurd h hne
    · exact ⟨hne, h⟩
  · rintro ⟨hne, h⟩
    exact ⟨hne, .inr h⟩

theorem suffixes_absorb (h : x ∈ suffixes P) : suffixes (insert x P) = suffixes P := by
  obtain ⟨-, u, hu, hs⟩ := h
  ext y
  simp only [suffixes, Set.mem_ofPred_eq, Set.mem_insert_iff, exists_eq_or_imp]
  constructor
  · rintro ⟨hne, h | h⟩
    · exact ⟨hne, u, hu, h.trans hs⟩
    · exact ⟨hne, h⟩
  · rintro ⟨hne, h⟩
    exact ⟨hne, .inr h⟩

theorem suffixes_tail (h : i :: x ∈ suffixes P) (hx : x ≠ []) : x ∈ suffixes P := by
  obtain ⟨-, u, hu, hs⟩ := h
  exact ⟨hx, u, hu, (suffix_cons i x).trans hs⟩

theorem exists_cons_mem_suffixes {n : ℕ} (hP : ∀ u ∈ P, u.length = n) (hx : x.length < n)
    (h : x ∈ suffixes P) : ∃ j, j :: x ∈ suffixes P := by
  obtain ⟨-, u, hu, t, ht⟩ := h
  have hlen := hP u hu
  cases hr : t.reverse with
  | nil =>
    rw [← ht, reverse_eq_nil_iff.mp hr] at hlen
    simp only [nil_append] at hlen
    omega
  | cons j r =>
    have hsplit : t = r.reverse ++ [j] := by rw [← reverse_reverse t, hr, reverse_cons]
    refine ⟨j, by simp, u, hu, r.reverse, ?_⟩
    rw [← ht, hsplit]
    simp

theorem mem_suffixes_insert_longer {y} (hlen : x.length < y.length) :
    y ∈ suffixes (insert x P) ↔ y ∈ suffixes P := by
  simp only [suffixes, Set.mem_ofPred_eq, Set.mem_insert_iff, exists_eq_or_imp]
  have hno : ¬ y <:+ x := fun h => absurd h.length_le (by omega)
  simp [hno]

theorem suffixes_release {n : ℕ} (hP : ∀ u ∈ P, u.length = n) (hx : (i :: x).length < n) :
    ((∃ j, j :: i :: x ∈ suffixes (insert (i :: x) P)) →
      suffixes (insert (i :: x) P) = suffixes (insert x P)) ∧
    ((¬ ∃ j, j :: i :: x ∈ suffixes (insert (i :: x) P)) →
      suffixes (insert (i :: x) P) \ {i :: x} = suffixes (insert x P)) := by
  have hlonger : ∀ j, j :: i :: x ∈ suffixes (insert (i :: x) P) ↔ j :: i :: x ∈ suffixes P :=
    fun j => mem_suffixes_insert_longer (by simp)
  simp only [hlonger]
  constructor
  · rintro ⟨j, hj⟩
    have hmem := suffixes_tail hj (by simp)
    rw [suffixes_absorb hmem]
    by_cases hnil : x = []
    · rw [hnil, suffixes_insert_nil]
    · rw [suffixes_absorb (suffixes_tail hmem hnil)]
  · intro hno
    have hout : i :: x ∉ suffixes (insert x P) := by
      rw [mem_suffixes_insert_longer (by simp)]
      exact fun h => hno (exists_cons_mem_suffixes hP hx h)
    rw [suffixes_insert_cons, Set.insert_sdiff_of_mem _ (Set.mem_singleton _),
      Set.sdiff_singleton_eq_self hout]

variable [DecidableEq A]

section Fill

variable (hf : f ∉ tables link m root)

include hf

theorem fill_of_tableAt (hq : tableAt link m root q = some a) : fill m f z a j = m a j := by
  apply if_neg
  rintro rfl
  exact hf ⟨q, hq⟩

theorem tableAt_fill : tableAt link (fill m f z) root q = tableAt link m root q := by
  induction q with
  | nil => rfl
  | cons j q ih =>
    simp only [tableAt, ih]
    cases hq : tableAt link m root q with
    | none => rfl
    | some b => simp [fill_of_tableAt hf hq]

theorem separate_fill (hsep : Separate link m root) : Separate link (fill m f z) root := by
  intro q r b hq hr
  rw [tableAt_fill hf] at hq hr
  exact hsep q r b hq hr

theorem tables_fill : tables link (fill m f z) root = tables link m root := by
  ext b
  simp only [tables, Set.mem_ofPred_eq, tableAt_fill hf]

theorem view_fill : view link (fill m f z) root = view link m root := by
  funext q j
  simp only [view, tableAt_fill hf]
  cases hq : tableAt link m root q with
  | none => rfl
  | some b => simp [fill_of_tableAt hf hq]

end Fill

variable [DecidableEq I]

theorem View.set_eq_some : v.set p i e q j = some e' ↔
    (q = p ∧ j = i) ∧ e = e' ∨ ¬ (q = p ∧ j = i) ∧ v q j = some e' := by
  unfold View.set
  split <;> simp [*]

theorem View.cut_eq_some :
    v.cut p i e q j = some e' ↔ ¬ i :: p <:+ q ∧ v.set p i e q j = some e' := by
  unfold View.cut
  split <;> simp [*]

theorem View.grow_eq_some : v.grow p i e z q j = some e' ↔
    q = i :: p ∧ z = e' ∨ q ≠ i :: p ∧ v.set p i e q j = some e' := by
  unfold View.grow
  split <;> simp [*]

theorem View.set_of_length_ne (h : q.length ≠ p.length) : v.set p i e q j = v q j := by
  apply if_neg
  rintro ⟨rfl, -⟩
  exact h rfl

theorem write_self : write m a i e a i = e := if_pos ⟨rfl, rfl⟩

theorem write_elsewhere (hsep : Separate link m root) (hp : tableAt link m root p = some a)
    (hq : tableAt link m root q = some f) (hne : ¬ (q = p ∧ j = i)) :
    write m a i e f j = m f j := by
  apply if_neg
  rintro ⟨rfl, rfl⟩
  exact hne ⟨hsep q p _ hq hp, rfl⟩

theorem write_unused (hp : tableAt link m root p = some a) (hf : f ∉ tables link m root) :
    write m a i e f j = m f j := by
  apply if_neg
  rintro ⟨rfl, -⟩
  exact hf ⟨p, hp⟩

theorem view_write_of_tableAt_eq (hsep : Separate link m root) (hp : tableAt link m root p = some a)
    (hq : tableAt link (write m a i e) root q = tableAt link m root q) :
    view link (write m a i e) root q j = (view link m root).set p i e q j := by
  simp only [view, View.set, hq]
  by_cases h : q = p ∧ j = i
  · obtain ⟨rfl, rfl⟩ := h
    simp [hp, write_self]
  · rw [if_neg h]
    cases hq' : tableAt link m root q with
    | none => rfl
    | some b => simp [write_elsewhere hsep hp hq' h]

theorem tableAt_write_off (hsep : Separate link m root) (hp : tableAt link m root p = some a)
    (hq : ¬ i :: p <:+ q) : tableAt link (write m a i e) root q = tableAt link m root q := by
  induction q with
  | nil => rfl
  | cons j q ih =>
    rw [suffix_cons_iff, not_or] at hq
    obtain ⟨hne, hs⟩ := hq
    simp only [tableAt, ih hs]
    cases hq' : tableAt link m root q with
    | none => rfl
    | some b =>
      have helse : ¬ (q = p ∧ j = i) := fun h => hne (by rw [h.1, h.2])
      simp only [bind_some, write_elsewhere hsep hp hq' helse]

section SameLink

variable (hsep : Separate link m root) (hp : tableAt link m root p = some a)
  (hlink : link p.length e = link p.length (m a i))

include hsep hp hlink

theorem tableAt_write : tableAt link (write m a i e) root q = tableAt link m root q := by
  induction q with
  | nil => rfl
  | cons j q ih =>
    simp only [tableAt, ih]
    cases hq : tableAt link m root q with
    | none => rfl
    | some b =>
      by_cases h : q = p ∧ j = i
      · obtain ⟨rfl, rfl⟩ := h
        obtain rfl : b = a := some.inj (hq.symm.trans hp)
        simp [write_self, hlink]
      · simp [write_elsewhere hsep hp hq h]

theorem separate_write : Separate link (write m a i e) root := by
  intro q r b hq hr
  rw [tableAt_write hsep hp hlink] at hq hr
  exact hsep q r b hq hr

theorem tables_write : tables link (write m a i e) root = tables link m root := by
  ext b
  simp only [tables, Set.mem_ofPred_eq, tableAt_write hsep hp hlink]

theorem view_write : view link (write m a i e) root = (view link m root).set p i e := by
  funext q j
  exact view_write_of_tableAt_eq hsep hp (tableAt_write hsep hp hlink)

end SameLink

section Unlink

variable (hsep : Separate link m root) (hp : tableAt link m root p = some a)
  (hlink : link p.length e = none)

include hsep hp hlink

theorem tableAt_unlink : tableAt link (write m a i e) root q =
    if i :: p <:+ q then none else tableAt link m root q := by
  induction q with
  | nil => simp [tableAt]
  | cons j q ih =>
    by_cases hs : i :: p <:+ q
    · have : i :: p <:+ j :: q := hs.trans (suffix_cons j q)
      simp [tableAt, ih, hs, this]
    simp only [tableAt, ih, suffix_cons_iff, hs, or_false, cons.injEq]
    cases hq : tableAt link m root q with
    | none => simp
    | some b =>
      by_cases h : q = p ∧ j = i
      · obtain ⟨rfl, rfl⟩ := h
        obtain rfl : b = a := some.inj (hq.symm.trans hp)
        simp [write_self, hlink]
      · have hne : ¬ (i = j ∧ p = q) := fun ⟨h₁, h₂⟩ => h ⟨h₂.symm, h₁.symm⟩
        simp [write_elsewhere hsep hp hq h, hne]

theorem separate_unlink : Separate link (write m a i e) root := by
  intro q r b hq hr
  rw [tableAt_unlink hsep hp hlink] at hq hr
  split at hq
  · cases hq
  · split at hr
    · cases hr
    · exact hsep q r b hq hr

theorem view_unlink : view link (write m a i e) root = (view link m root).cut p i e := by
  funext q j
  have ht := tableAt_unlink (q := q) (i := i) hsep hp hlink
  by_cases hs : i :: p <:+ q
  · simp [view, View.cut, ht, hs]
  · rw [if_neg hs] at ht
    simp only [View.cut, if_neg hs]
    exact view_write_of_tableAt_eq hsep hp ht

end Unlink

section Attach

variable (hsep : Separate link m root) (hp : tableAt link m root p = some a)
  (hold : link p.length (m a i) = none) (hf : f ∉ tables link m root)
  (hz : ∀ j, m f j = z) (hzlink : ∀ d, link d z = none) (hlink : link p.length e = some f)

include hsep hp hold hf hz hzlink hlink

theorem tableAt_attach : tableAt link (write m a i e) root q =
    if q = i :: p then some f else tableAt link m root q := by
  induction q with
  | nil => simp [tableAt]
  | cons j q ih =>
    by_cases hq : q = i :: p
    · -- below the new table there is nothing yet, and nothing stood there before
      have hread := write_unused (i := i) (j := j) (e := e) hp hf
      have hnone : tableAt link m root q = none := by rw [hq, tableAt_cons hp, hold]
      have hne : j :: q ≠ i :: p := fun h => by
        have := congrArg List.length (cons.inj h).2
        simp [hq] at this
      simp only [tableAt, ih, if_pos hq, if_neg hne, hnone, bind_some, hread, hz, hzlink, bind_none]
    · simp only [tableAt, ih, if_neg hq]
      cases hq' : tableAt link m root q with
      | none =>
        have : j :: q ≠ i :: p := fun h => by
          rw [(cons.inj h).2, hp] at hq'
          cases hq'
        simp [this]
      | some b =>
        by_cases h : q = p ∧ j = i
        · obtain ⟨rfl, rfl⟩ := h
          obtain rfl : b = a := some.inj (hq'.symm.trans hp)
          simp [write_self, hlink]
        · have hne : j :: q ≠ i :: p := fun he => h ⟨(cons.inj he).2, (cons.inj he).1⟩
          simp [write_elsewhere hsep hp hq' h, hne]

theorem tables_attach : tables link (write m a i e) root ⊆ insert f (tables link m root) := by
  rintro b ⟨q, hq⟩
  rw [tableAt_attach hsep hp hold hf hz hzlink hlink] at hq
  split at hq
  · exact .inl (some.inj hq).symm
  · exact .inr ⟨q, hq⟩

theorem separate_attach : Separate link (write m a i e) root := by
  intro q r b hq hr
  rw [tableAt_attach hsep hp hold hf hz hzlink hlink] at hq hr
  split at hq <;> split at hr
  · rename_i h₁ h₂
    rw [h₁, h₂]
  · exact absurd ⟨r, some.inj hq ▸ hr⟩ hf
  · exact absurd ⟨q, some.inj hr ▸ hq⟩ hf
  · exact hsep q r b hq hr

theorem view_attach : view link (write m a i e) root = (view link m root).grow p i e z := by
  funext q j
  have ht := tableAt_attach (q := q) hsep hp hold hf hz hzlink hlink
  by_cases hq : q = i :: p
  · have hread := write_unused (i := i) (j := j) (e := e) hp hf
    simp only [view, View.grow, ht, if_pos hq, map_some, hread, hz]
  · rw [if_neg hq] at ht
    simp only [View.grow, if_neg hq]
    exact view_write_of_tableAt_eq hsep hp ht

end Attach

theorem leaves_set : leaves final (v.set p i e) q j =
    if q = p ∧ j = i then (some e).filter (final p.length) else leaves final v q j := by
  by_cases h : q = p ∧ j = i
  · obtain ⟨rfl, rfl⟩ := h
    simp [leaves, View.set]
  · simp [leaves, View.set, h]

theorem leaves_set_inner (h : v p i = some e) (hfinal : final p.length e = false)
    (hfinal' : final p.length e' = false) : leaves final (v.set p i e') = leaves final v := by
  funext q j
  rw [leaves_set]
  split
  · rename_i hq
    obtain ⟨rfl, rfl⟩ := hq
    rw [leaves_eq_none h hfinal]
    simp [hfinal']
  · rfl

theorem leaves_grow (h : v p i = some e) (hfinal : final p.length e = false)
    (hfinal' : final p.length e' = false) (hz : ∀ d, final d z = false)
    (hbelow : ∀ j, v (i :: p) j = none) : leaves final (v.grow p i e' z) = leaves final v := by
  funext q j
  by_cases hq : q = i :: p
  · simp [leaves, View.grow, hq, hz, hbelow]
  · have : leaves final (v.grow p i e' z) q j = leaves final (v.set p i e') q j := by
      simp only [leaves, View.grow, if_neg hq]
    rw [this, leaves_set_inner h hfinal hfinal']

theorem leaves_cut (h : v p i = some e) (hfinal : final p.length e = false)
    (hfinal' : final p.length e' = false)
    (hbelow : ∀ q j, i :: p <:+ q → leaves final v q j = none) :
    leaves final (v.cut p i e') = leaves final v := by
  funext q j
  by_cases hq : i :: p <:+ q
  · rw [hbelow q j hq]
    simp [leaves, View.cut, hq]
  · have : leaves final (v.cut p i e') q j = leaves final (v.set p i e') q j := by
      simp only [leaves, View.cut, if_neg hq]
    rw [this, leaves_set_inner h hfinal hfinal']

theorem occupied_set (hlive : live e) :
    occupied live (v.set p i e) = insert (i :: p) (occupied live v) := by
  ext x
  cases x with
  | nil => simp [nil_notMem_occupied]
  | cons j q =>
    rw [Set.mem_insert_iff, cons_mem_occupied, cons_mem_occupied, View.set]
    by_cases h : q = p ∧ j = i
    · simp [h, hlive]
    · have hne : j :: q ≠ i :: p := fun hx => h ⟨(cons.inj hx).2, (cons.inj hx).1⟩
      simp [h, hne]

theorem occupied_set_dead (hdead : live e = false) :
    occupied live (v.set p i e) = occupied live v \ {i :: p} := by
  ext x
  cases x with
  | nil => simp [nil_notMem_occupied]
  | cons j q =>
    rw [Set.mem_sdiff, Set.mem_singleton_iff, cons_mem_occupied, cons_mem_occupied, View.set]
    by_cases h : q = p ∧ j = i
    · simp [h, hdead]
    · have hne : j :: q ≠ i :: p := fun hx => h ⟨(cons.inj hx).2, (cons.inj hx).1⟩
      simp [h, hne]

theorem occupied_grow (hlive : live e) (hz : live z = false) (hbelow : ∀ j, v (i :: p) j = none) :
    occupied live (v.grow p i e z) = insert (i :: p) (occupied live v) := by
  rw [← occupied_set hlive]
  ext x
  cases x with
  | nil => simp [nil_notMem_occupied]
  | cons j q =>
    rw [cons_mem_occupied, cons_mem_occupied, View.grow]
    by_cases hq : q = i :: p
    · simp [hq, hz, View.set, hbelow]
    · rw [if_neg hq]

theorem occupied_cut (hdead : live e = false)
    (hbelow : ∀ q j, i :: p <:+ q → j :: q ∉ occupied live v) :
    occupied live (v.cut p i e) = occupied live v \ {i :: p} := by
  rw [← occupied_set_dead hdead]
  ext x
  cases x with
  | nil => simp [nil_notMem_occupied]
  | cons j q =>
    rw [cons_mem_occupied, View.cut]
    by_cases hs : i :: p <:+ q
    · have hno := hbelow q j hs
      rw [occupied_set_dead hdead, Set.mem_sdiff]
      simp [hs, hno]
    · rw [if_neg hs, cons_mem_occupied]

end RadixTable
