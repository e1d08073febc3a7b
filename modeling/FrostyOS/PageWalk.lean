import FrostyOS.PageTables

/-! # The page walk by paths

A path to a table lists the indices that lead to it, the innermost first. The translation of
an address depends only on the entries at which walks end. -/
namespace PageTables

open MachineWord RadixTable Option

variable {A : Type*} {L : Layout} {S : FrameSource A} {m m' : Machine A} {root table : ℕ}
  {p : List Index} {i : Index} {e : Entry} {flags : BitVec 32} {d : ℕ}

/-- The table below an entry at depth `d`, counted from the root. -/
def link (L : Layout) (d : ℕ) (e : Entry) : Option ℕ :=
  if d < 3 ∧ presentBit e = true ∧ ¬ (d = 2 ∧ pageSizeBit e = true) then some (tableOf L e)
  else none

def final (d : ℕ) (e : Entry) : Bool :=
  presentBit e && (decide (d = 3) || (decide (d = 2) && pageSizeBit e))

def Machine.Separate (L : Layout) (root : ℕ) (m : Machine A) : Prop :=
  RadixTable.Separate (link L) m.memory root

def Machine.tableAt (L : Layout) (root : ℕ) (m : Machine A) (p : List Index) : Option ℕ :=
  RadixTable.tableAt (link L) m.memory root p

def Machine.tables (L : Layout) (root : ℕ) (m : Machine A) : Set ℕ :=
  RadixTable.tables (link L) m.memory root

def Machine.view (L : Layout) (root : ℕ) (m : Machine A) : View Index Entry :=
  RadixTable.view (link L) m.memory root

theorem link_eq_some (hd : d < 3) (hpresent : presentBit e)
    (hlarge : ¬ (d = 2 ∧ pageSizeBit e)) : link L d e = some (tableOf L e) :=
  if_pos ⟨hd, hpresent, hlarge⟩

theorem link_some (h : link L d e = some table) :
    presentBit e ∧ ¬ (d = 2 ∧ pageSizeBit e) ∧ tableOf L e = table := by
  unfold link at h
  split at h
  · rename_i hc
    exact ⟨hc.2.1, hc.2.2, some.inj h⟩
  · cases h

theorem link_absent (h : presentBit e = false) : link L d e = none := by
  simp [link, h]

theorem link_last : link L 3 e = none := by
  simp [link]

theorem final_absent (h : presentBit e = false) : final d e = false := by
  simp [final, h]

theorem final_of_link (h : (link L d e).isSome) : final d e = false := by
  simp only [link] at h
  split at h
  · rename_i hc
    simp only [final, Bool.and_eq_false_iff, Bool.or_eq_false_iff, decide_eq_false_iff_not]
    refine .inr ⟨by omega, ?_⟩
    grind
  · cases h

theorem presentBit_zero : presentBit 0 = false := by decide

theorem link_or_upperFlags (hpresent : presentBit e) (hflag : flags.getLsbD 7 = false) :
    link L d (e ||| upperFlags flags) = link L d e := by
  have hp : presentBit (e ||| upperFlags flags) := by
    rw [presentBit, getLsbD_or_upperFlags (by decide)]
    simp [show e.getLsbD 0 = true from hpresent]
  have hs : pageSizeBit (e ||| upperFlags flags) = pageSizeBit e := by
    rw [pageSizeBit, getLsbD_or_upperFlags (by decide), hflag, Bool.or_false, pageSizeBit]
  have ht : tableOf L (e ||| upperFlags flags) = tableOf L e := by
    simp only [tableOf, address_or_upperFlags]
  simp only [link, hp, hs, ht, hpresent]

theorem presentBit_tableEntry (a : BitVec 40) : presentBit (tableEntry flags a) := by
  rw [presentBit, getLsbD_tableEntry a (by decide)]
  rfl

theorem pageSizeBit_tableEntry (a : BitVec 40) (hflag : flags.getLsbD 7 = false) :
    pageSizeBit (tableEntry flags a) = false := by
  rw [pageSizeBit, getLsbD_tableEntry a (by decide), hflag]
  rfl

theorem link_tableEntry (flags : BitVec 32) (a : BitVec 40) (hd : d < 3)
    (hflag : flags.getLsbD 7 = false) :
    link L d (tableEntry flags a) = some (tableOf L (tableEntry flags a)) := by
  refine link_eq_some hd (presentBit_tableEntry a) ?_
  simp [pageSizeBit_tableEntry a hflag]

/-- The next `n` frames are page-aligned frames between 4 KiB and 512 GiB, distinct and
none of them among the tables in use. -/
def Ready (L : Layout) (S : FrameSource A) : ℕ → A → Set ℕ → Prop
  | 0, _, _ => True
  | n + 1, a, used =>
    let frame := (S.allocatePage a).1
    0x1000 ∣ frame ∧ 0x1000 ≤ frame ∧ frame < gib 512 ∧ toHHDM L frame ∉ used ∧
      Ready L S n (S.allocatePage a).2 (insert (toHHDM L frame) used)

theorem Ready.mono {n : ℕ} {a used used'} (hsub : used' ⊆ used) (h : Ready L S n a used) :
    Ready L S n a used' := by
  induction n generalizing a used used' with
  | zero => trivial
  | succ n ih =>
    obtain ⟨h₁, h₂, h₃, hnot, hrest⟩ := h
    exact ⟨h₁, h₂, h₃, fun hm => hnot (hsub hm), ih (Set.insert_subset_insert hsub) hrest⟩

theorem Ready.pred {n : ℕ} {a used} (h : Ready L S (n + 1) a used) :
    Ready L S n a used := by
  induction n generalizing a used with
  | zero => trivial
  | succ n ih =>
    obtain ⟨h₁, h₂, h₃, hnot, hrest⟩ := h
    exact ⟨h₁, h₂, h₃, hnot, ih hrest⟩

theorem tableOf_tableEntry {frame : ℕ} (flags : BitVec 32) (hdvd : 0x1000 ∣ frame)
    (hlt : frame < 2 ^ 52) :
    tableOf L (tableEntry flags (BitVec.ofNat 40 (frame >>> 12))) = toHHDM L frame := by
  have hbound : frame >>> 12 < 2 ^ 40 := by
    rw [Nat.shiftRight_eq_div_pow]
    omega
  have hback : frame >>> 12 <<< 12 = frame := by
    rw [Nat.shiftRight_eq_div_pow, Nat.shiftLeft_eq]
    exact Nat.div_mul_cancel hdvd
  rw [tableOf, tableEntry, address_setAddress, BitVec.toNat_ofNat, Nat.mod_eq_of_lt hbound, hback]

/-- What one level of a mapping does to the tables: the entry at `(p, i)` got the flags, or
it got an empty table. The next table is behind `e`, unless `e` is a 2 MiB page. -/
structure Entered (L : Layout) (root : ℕ) (flags : BitVec 32) (m m' : Machine A) (p : List Index)
    (i : Index) (e : Entry) : Prop where
  separate : m'.Separate L root
  table : ¬ (p.length = 2 ∧ pageSizeBit e = true) → m'.tableAt L root (i :: p) = some (tableOf L e)
  view : m.view L root p i = some e ∧ presentBit e = true ∧
      m'.view L root = (m.view L root).set p i (e ||| upperFlags flags) ∨
    ∃ old a, m.view L root p i = some old ∧ presentBit old = false ∧ e = tableEntry flags a ∧
      m'.view L root = (m.view L root).grow p i e 0

theorem store_flags_spec (hsep : m.Separate L root) (hp : m.tableAt L root p = some table)
    (hd : p.length < 3) (hflag : flags.getLsbD 7 = false)
    (hpresent : presentBit (m.memory table i)) :
    Entered L root flags m (m.store table i (m.memory table i ||| upperFlags flags)) p i
        (m.memory table i) ∧
      (m.store table i (m.memory table i ||| upperFlags flags)).tables L root =
        m.tables L root := by
  have hlink := link_or_upperFlags (L := L) (d := p.length) hpresent hflag
  refine ⟨⟨separate_write hsep hp hlink, fun hlarge => ?_,
    .inl ⟨view_of_tableAt hp, hpresent, view_write hsep hp hlink⟩⟩, tables_write hsep hp hlink⟩
  have htable := tableAt_write (q := i :: p) hsep hp hlink
  exact htable.trans ((tableAt_cons hp).trans (link_eq_some hd hpresent hlarge))

theorem enter_absent (hsep : m.Separate L root) (hp : m.tableAt L root p = some table)
    (hd : p.length < 3) (hflag : flags.getLsbD 7 = false)
    (habsent : presentBit (m.memory table i) = false)
    (hdvd : 0x1000 ∣ (S.allocatePage m.ppfa).1) (hlt : (S.allocatePage m.ppfa).1 < 2 ^ 52)
    (hfresh : toHHDM L (S.allocatePage m.ppfa).1 ∉ m.tables L root) :
    Entered L root flags m (enter L S flags m table i).1 p i (enter L S flags m table i).2 ∧
      (enter L S flags m table i).1.tables L root ⊆
        insert (toHHDM L (S.allocatePage m.ppfa).1) (m.tables L root) := by
  have htable := tableOf_tableEntry (L := L) flags hdvd hlt
  have hz : ∀ d, link L d 0 = none := fun d => link_absent presentBit_zero
  have hlink := link_tableEntry (L := L) flags
    (BitVec.ofNat 40 ((S.allocatePage m.ppfa).1 >>> 12)) hd hflag
  rw [htable] at hlink
  simp only [enter, if_pos habsent, htable]
  set f := toHHDM L (S.allocatePage m.ppfa).1
  have hf : f ∉ RadixTable.tables (link L) (fill m.memory f 0) root := by
    rw [tables_fill hfresh]
    exact hfresh
  have hp' : RadixTable.tableAt (link L) (fill m.memory f 0) root p = some table := by
    rw [tableAt_fill hfresh]
    exact hp
  have hold : link L p.length (fill m.memory f 0 table i) = none := by
    rw [fill_of_tableAt hfresh hp]
    exact link_absent habsent
  have hclear : ∀ j, fill m.memory f (0 : Entry) f j = 0 := fun j => if_pos rfl
  have hsep' := separate_fill (z := 0) hfresh hsep
  refine ⟨⟨separate_attach hsep' hp' hold hf hclear hz hlink, fun _ => ?_, .inr ?_⟩, ?_⟩
  · rw [htable]
    exact (tableAt_attach hsep' hp' hold hf hclear hz hlink).trans (if_pos rfl)
  · refine ⟨_, _, view_of_tableAt hp, habsent, rfl, ?_⟩
    have hgrow := view_attach hsep' hp' hold hf hclear hz hlink
    rwa [view_fill hfresh] at hgrow
  · have hsub := tables_attach hsep' hp' hold hf hclear hz hlink
    rwa [tables_fill hfresh] at hsub

theorem enter_absent_ppfa (habsent : presentBit (m.memory table i) = false) :
    (enter L S flags m table i).1.ppfa = (S.allocatePage m.ppfa).2 := by
  simp only [enter, if_pos habsent, Machine.store]

theorem enter_spec {n : ℕ} (hsep : m.Separate L root) (hp : m.tableAt L root p = some table)
    (hd : p.length < 3) (hflag : flags.getLsbD 7 = false)
    (hready : Ready L S (n + 1) m.ppfa (m.tables L root)) :
    Entered L root flags m (enter L S flags m table i).1 p i (enter L S flags m table i).2 ∧
      Ready L S n (enter L S flags m table i).1.ppfa
        ((enter L S flags m table i).1.tables L root) := by
  by_cases hpresent : presentBit (m.memory table i) = false
  · obtain ⟨hdvd, -, hlt, hfresh, hrest⟩ := hready
    unfold gib at hlt
    obtain ⟨hentered, hsub⟩ := enter_absent hsep hp hd hflag hpresent hdvd (by omega) hfresh
    refine ⟨hentered, ?_⟩
    rw [enter_absent_ppfa hpresent]
    exact hrest.mono hsub
  · have hpresent : presentBit (m.memory table i) := by simpa using hpresent
    obtain ⟨hentered, htables⟩ := store_flags_spec hsep hp hd hflag hpresent
    simp only [enter, hpresent, Bool.true_eq_false, if_false]
    exact ⟨hentered, hready.pred.mono htables.subset⟩

theorem view_below_none_of_absent (h : m.view L root p i = some e) (habsent : presentBit e = false)
    (j : Index) : m.view L root (i :: p) j = none := by
  apply not_isSome_iff_eq_none.mp
  intro hsome
  obtain ⟨x, hx, hlink⟩ := view_isSome_cons.mp hsome
  obtain rfl : x = e := some.inj (hx.symm.trans h)
  simp [link_absent habsent] at hlink

theorem Entered.leaves (h : Entered L root flags m m' p i e) (hd : p.length < 3)
    (hflag : flags.getLsbD 7 = false) (hlarge : ¬ (p.length = 2 ∧ pageSizeBit e)) :
    leaves final (m'.view L root) = leaves final (m.view L root) := by
  rcases h.view with ⟨hview, hpresent, hset⟩ | ⟨old, a, hview, habsent, rfl, hgrow⟩
  · have hlink := link_eq_some (L := L) hd hpresent hlarge
    rw [hset]
    apply leaves_set_inner hview
    · exact final_of_link (L := L) (by simp [hlink])
    · exact final_of_link (L := L) (by simp [link_or_upperFlags hpresent hflag, hlink])
  · rw [hgrow]
    apply leaves_grow hview (final_absent habsent)
    · exact final_of_link (L := L) (by simp [link_tableEntry flags a hd hflag])
    · exact fun d => final_absent presentBit_zero
    · exact view_below_none_of_absent hview habsent

theorem Entered.view_of_ne (h : Entered L root flags m m' p i e) {q} (hq : q ≠ p) (hq' : q ≠ i :: p)
    (j : Index) : m'.view L root q j = m.view L root q j := by
  rcases h.view with ⟨-, -, hset⟩ | ⟨_, _, -, -, -, hgrow⟩
  · simp [hset, View.set, hq]
  · simp [hgrow, View.grow, View.set, hq, hq']

theorem inUse_iff {mem} {group : ℕ} :
    inUse mem group = false ↔ ∀ j, presentBit (mem group j) = false := by
  simp [inUse]

/-- What `releaseUnused` does: nothing, or the entry at `(p, i)` loses its table, which had
no present entry. -/
structure Released (L : Layout) (root : ℕ) (m m' : Machine A) (p : List Index) (i : Index)
    (e : Entry) : Prop where
  separate : m'.Separate L root
  memory : m'.memory = m.memory ∨ m'.view L root = (m.view L root).cut p i (clearPresent e) ∧
      (link L p.length e = some (tableOf L e) →
        ∀ j e', m.view L root (i :: p) j = some e' → presentBit e' = false)
  tableAt : ∀ q, ¬ i :: p <:+ q → m'.tableAt L root q = m.tableAt L root q

theorem releaseUnused_spec (hsep : m.Separate L root) (hp : m.tableAt L root p = some table) :
    Released L root m (releaseUnused L S m table i) p i (m.memory table i) := by
  simp only [releaseUnused]
  split
  · exact ⟨hsep, .inl rfl, fun _ _ => rfl⟩
  rename_i hused
  have hlink : link L p.length (clearPresent (m.memory table i)) = none :=
    link_absent presentBit_clearPresent
  refine ⟨separate_unlink hsep hp hlink, .inr ⟨view_unlink hsep hp hlink, ?_⟩, ?_⟩
  · intro hbelow j e' he'
    have htable : m.tableAt L root (i :: p) = some (tableOf L (m.memory table i)) :=
      (tableAt_cons hp).trans hbelow
    obtain rfl : m.memory (tableOf L (m.memory table i)) j = e' :=
      some.inj ((view_of_tableAt htable).symm.trans he')
    exact inUse_iff.mp (by simpa using hused) j
  · intro q hq
    exact (tableAt_unlink hsep hp hlink).trans (if_neg hq)

theorem Released.leaves (h : Released L root m m' p i e) (hview : m.view L root p i = some e)
    (hlink : link L p.length e = some (tableOf L e)) :
    leaves final (m'.view L root) = leaves final (m.view L root) := by
  rcases h.memory with hmem | ⟨hcut, hbelow⟩
  · simp only [Machine.view, hmem]
  rw [hcut]
  have habsent := hbelow hlink
  apply leaves_cut hview
  · exact final_of_link (L := L) (by simp [hlink])
  · exact final_absent presentBit_clearPresent
  · intro q j hq
    by_cases heq : q = i :: p
    · subst heq
      cases hv : m.view L root (i :: p) j with
      | none => simp [RadixTable.leaves, hv]
      | some e' => exact leaves_eq_none hv (final_absent (habsent j e' hv))
    · have hnone : m.view L root q j = none := view_of_none
        (view_below_none (fun j e' he' => link_absent (habsent j e' he')) hq heq)
      simp [RadixTable.leaves, hnone]

theorem Released.view_of_not_suffix (h : Released L root m m' p i e) {q j} (hq : ¬ i :: p <:+ q)
    (hne : ¬ (q = p ∧ j = i)) : m'.view L root q j = m.view L root q j := by
  rcases h.memory with hmem | ⟨hcut, -⟩
  · simp only [Machine.view, hmem]
  · simp [hcut, View.cut, View.set, hq, hne]

def physical (leaves : View Index Entry) (v : ℕ) : ℕ :=
  match leaves [pdpIndex v, pml4Index v] (pdIndex v) with
  | some e => (largeAddress e).toNat <<< 21 ||| (ptIndex v).val <<< 12 ||| (v &&& 0xFFF)
  | none =>
    match leaves [pdIndex v, pdpIndex v, pml4Index v] (ptIndex v) with
    | some e => (address e).toNat <<< 12 ||| (v &&& 0xFFF)
    | none => 0

theorem getPhysaddr_eq_physical {v : ℕ} (hk : ¬ inKernel L v) (hh : ¬ inHHDM L v) :
    getPhysaddr L m.memory root v = physical (leaves final (m.view L root)) v := by
  simp only [getPhysaddr, if_neg hk, if_neg hh, physical, leaves, Machine.view, RadixTable.view,
    RadixTable.tableAt, List.length_cons, List.length_nil, bind_some]
  -- the walk by paths takes the same turns, level by level
  cases h₄ : presentBit (m.memory root (pml4Index v)) with
  | false => simp [link, h₄]
  | true =>
    cases h₃ : presentBit (m.memory _ (pdpIndex v)) with
    | false => simp [link, h₄, h₃]
    | true =>
      have hl₄ : link L 0 (m.memory root (pml4Index v)) = some _ :=
        link_eq_some (by decide) h₄ (by simp)
      have hl₃ : link L 1 _ = some _ := link_eq_some (L := L) (by decide) h₃ (by simp)
      simp only [hl₄, hl₃, bind_some, map_some, zero_add, Nat.reduceAdd]
      generalize m.memory (tableOf L _) (pdIndex v) = pml2
      cases h₂ : presentBit pml2 with
      | false => simp [link, final, filter_some, h₂]
      | true =>
        cases hlarge : pageSizeBit pml2 with
        | true => simp [final, filter_some, h₂, hlarge]
        | false =>
          generalize hpml1 : m.memory (tableOf L pml2) (ptIndex v) = pml1
          cases h₁ : presentBit pml1 <;> 
            simp [link, final, filter_some, h₂, hlarge, hpml1, h₁]

end PageTables
