import FrostyOS.PageWalk

/-! # Mapping and unmapping 4 KiB pages

Mapping a page translates it to its frame, unmapping it to null, and no other page
notices. -/
namespace PageTables

open MachineWord RadixTable Option

variable {A : Type*} {L : Layout} {S : FrameSource A} {m : Machine A} {root : ℕ}
  {flags : BitVec 32} {v w : ℕ}

section Indices

theorem tableIndex_val (shift v : ℕ) : (tableIndex shift v).val = v / 2 ^ shift % 512 := by
  simp only [tableIndex]
  rw [Nat.shiftRight_and_distrib, Nat.shiftLeft_shiftRight, Nat.shiftRight_eq_div_pow]
  exact Nat.and_two_pow_sub_one_eq_mod _ 9

variable {bits o shift : ℕ}

theorem tableIndex_clearLow (h : bits ≤ shift) (v : ℕ) :
    tableIndex shift (clearLow bits v) = tableIndex shift v := by
  apply Fin.ext
  obtain ⟨k, rfl⟩ := Nat.exists_eq_add_of_le h
  have hb : 0 < 2 ^ bits := Nat.two_pow_pos bits
  rw [tableIndex_val, tableIndex_val, clearLow, Nat.shiftRight_eq_div_pow, Nat.shiftLeft_eq,
    Nat.pow_add, ← Nat.div_div_eq_div_mul, ← Nat.div_div_eq_div_mul, Nat.mul_div_cancel _ hb]

theorem ptIndex_clearLow : ptIndex (clearLow 12 v) = ptIndex v := tableIndex_clearLow le_rfl v

theorem pdIndex_clearLow (h : bits ≤ 21) : pdIndex (clearLow bits v) = pdIndex v :=
  tableIndex_clearLow h v

theorem pdpIndex_clearLow (h : bits ≤ 21) : pdpIndex (clearLow bits v) = pdpIndex v :=
  tableIndex_clearLow (by omega) v

theorem pml4Index_clearLow (h : bits ≤ 21) : pml4Index (clearLow bits v) = pml4Index v :=
  tableIndex_clearLow (by omega) v

def tablePath (v : ℕ) : List Index := [pdIndex v, pdpIndex v, pml4Index v]

/-- Bit 47 repeats up to the top. -/
def Canonical (v : ℕ) : Prop := v < 2 ^ 47 ∨ 2 ^ 64 - 2 ^ 47 ≤ v ∧ v < 2 ^ 64

theorem page_eq_of_indices (hv : Canonical v) (hw : Canonical w)
    (hpath : tablePath w = tablePath v) (hpt : ptIndex w = ptIndex v) :
    w / 0x1000 = v / 0x1000 := by
  simp only [tablePath, List.cons.injEq, and_true] at hpath
  obtain ⟨h₂, h₃, h₄⟩ := hpath
  have hval : ∀ {shift : ℕ}, tableIndex shift w = tableIndex shift v →
      w / 2 ^ shift % 512 = v / 2 ^ shift % 512 := fun h => by
    rw [← tableIndex_val, ← tableIndex_val, h]
  have d₁ := hval hpt
  have d₂ := hval h₂
  have d₃ := hval h₃
  have d₄ := hval h₄
  unfold Canonical at hv hw
  omega

theorem indices_eq_of_page (h : w / 0x1000 = v / 0x1000) :
    tablePath w = tablePath v ∧ ptIndex w = ptIndex v := by
  have hclear : clearLow 12 w = clearLow 12 v := by
    simp only [clearLow, Nat.shiftRight_eq_div_pow]
    rw [show w / 2 ^ 12 = v / 2 ^ 12 from h]
  have hindex : ∀ {shift : ℕ}, 12 ≤ shift → tableIndex shift w = tableIndex shift v := by
    intro shift hs
    rw [← tableIndex_clearLow hs w, hclear, tableIndex_clearLow hs v]
  simp only [tablePath, pdIndex, pdpIndex, pml4Index, ptIndex, hindex (Nat.le_refl 12),
    hindex (show 12 ≤ 21 by decide), hindex (show 12 ≤ 30 by decide),
    hindex (show 12 ≤ 39 by decide), and_self]

theorem tableIndex_add (hs : 12 ≤ shift) (hv : 0x1000 ∣ v) (ho : o < 0x1000) :
    tableIndex shift (v + o) = tableIndex shift v := by
  have h := tableIndex_clearLow hs (v + o)
  obtain ⟨k, rfl⟩ := hv
  have hclear : clearLow 12 (0x1000 * k + o) = 0x1000 * k := by
    rw [clearLow, Nat.shiftRight_eq_div_pow, Nat.shiftLeft_eq]
    omega
  rw [← h, hclear]

theorem offset_add (hv : 0x1000 ∣ v) (ho : o < 0x1000) : (v + o) &&& 0xFFF = o := by
  have h := Nat.and_two_pow_sub_one_eq_mod (v + o) 12
  simp only [Nat.reducePow, Nat.add_one_sub_one] at h
  omega

end Indices

variable {p : List Index} {i : Index} {e : Entry} {table : ℕ} {m₃ m₂ m₁ : Machine A}

section Chains

theorem store_view (hsep : m.Separate L root)
    (hp : m.tableAt L root p = some table) (hd : p.length = 3) :
    (m.store table i e).Separate L root ∧
      (m.store table i e).view L root = (m.view L root).set p i e ∧
      ∀ q, (m.store table i e).tableAt L root q = m.tableAt L root q := by
  have hlink : link L p.length e = link L p.length (m.memory table i) := by
    rw [hd, link_last, link_last]
  exact ⟨separate_write hsep hp hlink, view_write hsep hp hlink,
    fun _ => tableAt_write hsep hp hlink⟩

/-- The three levels that a mapping enters, and the entry that it writes at the last one. -/
structure MapChain (L : Layout) (root v : ℕ) (flags : BitVec 32) (leaf : Entry)
    (m m₁ m₂ m₃ m' : Machine A) (e₄ e₃ e₂ : Entry) : Prop where
  first : Entered L root flags m m₁ [] (pml4Index v) e₄
  second : Entered L root flags m₁ m₂ [pml4Index v] (pdpIndex v) e₃
  third : Entered L root flags m₂ m₃ [pdpIndex v, pml4Index v] (pdIndex v) e₂
  last : pageSizeBit e₂ = true ∧ m' = m₃ ∨
    pageSizeBit e₂ = false ∧ (m₃.tableAt L root (tablePath v)).isSome ∧ m'.Separate L root ∧
      m'.view L root = (m₃.view L root).set (tablePath v) (ptIndex v) leaf

theorem MapChain.separate {m' e₄ e₃ e₂ leaf}
    (h : MapChain L root v flags leaf m m₁ m₂ m₃ m' e₄ e₃ e₂) : m'.Separate L root := by
  rcases h.last with ⟨-, hm⟩ | ⟨-, -, hsep, -⟩
  · rw [hm]
    exact h.third.separate
  · exact hsep

theorem enter_two_levels (hsep : m.Separate L root) (hflag : flags.getLsbD 7 = false) {n : ℕ}
    (hready : Ready L S (n + 2) m.ppfa (m.tables L root)) (v : ℕ) :
    ∃ m₁ m₂ e₄ e₃, enter L S flags m root (pml4Index v) = (m₁, e₄) ∧
      enter L S flags m₁ (tableOf L e₄) (pdpIndex v) = (m₂, e₃) ∧
      Entered L root flags m m₁ [] (pml4Index v) e₄ ∧
      Entered L root flags m₁ m₂ [pml4Index v] (pdpIndex v) e₃ ∧
      Ready L S n m₂.ppfa (m₂.tables L root) := by
  obtain ⟨h₁, hr₁⟩ := enter_spec (i := pml4Index v) hsep (p := []) rfl (by simp) hflag hready
  obtain ⟨h₂, hr₂⟩ :=
    enter_spec (i := pdpIndex v) h₁.separate (h₁.table (by simp)) (by simp) hflag hr₁
  exact ⟨_, _, _, _, rfl, rfl, h₁, h₂, hr₂⟩

theorem mapPageNoflush_chain (hsep : m.Separate L root) (hflag : flags.getLsbD 7 = false)
    (hready : Ready L S 3 m.ppfa (m.tables L root)) (physaddr v : ℕ) :
    ∃ m₁ m₂ m₃ e₄ e₃ e₂, MapChain L root v flags
      (leafEntry flags (BitVec.ofNat 40 (clearLow 12 physaddr >>> 12))) m m₁ m₂ m₃
      (mapPageNoflush L S root physaddr v flags m) e₄ e₃ e₂ := by
  obtain ⟨m₁, m₂, e₄, e₃, hm₁, hm₂, h₁, h₂, hr₂⟩ := enter_two_levels hsep hflag hready v
  have h₃ := (enter_spec (i := pdIndex v) h₂.separate (h₂.table (by simp)) (by simp) hflag hr₂).1
  obtain ⟨m₃, e₂, hm₃⟩ : ∃ m₃ e₂, enter L S flags m₂ (tableOf L e₃) (pdIndex v) = (m₃, e₂) :=
    ⟨_, _, rfl⟩
  rw [hm₃] at h₃
  refine ⟨m₁, m₂, m₃, e₄, e₃, e₂, h₁, h₂, h₃, ?_⟩
  simp only [mapPageNoflush, pml4Index_clearLow, pdpIndex_clearLow, pdIndex_clearLow,
    ptIndex_clearLow, Nat.reduceLeDiff, hm₁, hm₂, hm₃]
  cases hlarge : pageSizeBit e₂ with
  | true => exact .inl ⟨rfl, rfl⟩
  | false =>
    have htable := h₃.table (by simp [hlarge])
    obtain ⟨hsep', hview, -⟩ := store_view h₃.separate htable rfl
    exact .inr ⟨rfl, isSome_iff_exists.mpr ⟨_, htable⟩, hsep', hview⟩

theorem memory_of_view (hp : m.tableAt L root p = some table) (hv : m.view L root p i = some e) :
    m.memory table i = e := some.inj ((view_of_tableAt hp).symm.trans hv)

theorem not_suffix_of_length {q} (h : q.length < p.length) : ¬ p <:+ q :=
  fun hs => absurd hs.length_le (by omega)

/-- Unmapping a page clears its entry and then looks at the three tables above it. -/
structure UnmapChain (L : Layout) (root v : ℕ) (m m₀ m₁ m₂ m' : Machine A) (e₄ e₃ e₂ : Entry) :
    Prop where
  cleared : m₀.view L root = (m.view L root).set (tablePath v) (ptIndex v) 0
  first : Released L root m₀ m₁ [pdpIndex v, pml4Index v] (pdIndex v) e₂
  second : Released L root m₁ m₂ [pml4Index v] (pdpIndex v) e₃
  third : Released L root m₂ m' [] (pml4Index v) e₄
  entry₂ : m₀.view L root [pdpIndex v, pml4Index v] (pdIndex v) = some e₂
  entry₃ : m₁.view L root [pml4Index v] (pdpIndex v) = some e₃
  entry₄ : m₂.view L root [] (pml4Index v) = some e₄
  link₂ : link L 2 e₂ = some (tableOf L e₂)
  link₃ : link L 1 e₃ = some (tableOf L e₃)
  link₄ : link L 0 e₄ = some (tableOf L e₄)

/-- Unmapping finds the three tables of the page, or stops at once. -/
theorem unmapPageNoflush_cases (L : Layout) (S : FrameSource A) (root : ℕ) (m : Machine A) (v : ℕ) :
    unmapPageNoflush L S root v m = m ∧ m.tableAt L root (tablePath v) = none ∨
    ∃ t₃ t₂ t₁, m.tableAt L root [pml4Index v] = some t₃ ∧
      m.tableAt L root [pdpIndex v, pml4Index v] = some t₂ ∧
      m.tableAt L root (tablePath v) = some t₁ ∧ unmapPageNoflush L S root v m =
        releaseUnused L S (releaseUnused L S (releaseUnused L S
          (m.store t₁ (ptIndex v) 0) t₂ (pdIndex v)) t₃ (pdpIndex v)) root (pml4Index v) := by
  simp only [unmapPageNoflush, pml4Index_clearLow, pdpIndex_clearLow, pdIndex_clearLow,
    ptIndex_clearLow, Nat.reduceLeDiff]
  generalize h₄ : m.memory root (pml4Index v) = e₄
  generalize h₃ : m.memory (tableOf L e₄) (pdpIndex v) = e₃
  generalize h₂ : m.memory (tableOf L e₃) (pdIndex v) = e₂
  have ht₃ : m.tableAt L root [pml4Index v] = link L 0 e₄ := by
    rw [← h₄]
    exact tableAt_cons rfl
  have htable : m.tableAt L root (tablePath v) =
      (link L 0 e₄).bind fun t₃ => (link L 1 (m.memory t₃ (pdpIndex v))).bind fun t₂ =>
        link L 2 (m.memory t₂ (pdIndex v)) := by
    rw [← h₄]
    simp [Machine.tableAt, tablePath, RadixTable.tableAt, bind_assoc]
  cases hp₄ : presentBit e₄ with
  | false => exact .inl ⟨if_pos rfl, by simp [htable, link_absent hp₄]⟩
  | true =>
    have hl₄ : link L 0 e₄ = some (tableOf L e₄) := link_eq_some (by decide) hp₄ (by simp)
    rw [hl₄] at ht₃
    rw [hl₄, bind_some, h₃] at htable
    rw [if_neg (by simp)]
    cases hp₃ : presentBit e₃ with
    | false => exact .inl ⟨if_pos rfl, by simp [htable, link_absent hp₃]⟩
    | true =>
      have hl₃ : link L 1 e₃ = some (tableOf L e₃) := link_eq_some (by decide) hp₃ (by simp)
      have ht₂ : m.tableAt L root [pdpIndex v, pml4Index v] = some (tableOf L e₃) := by
        rw [← hl₃, ← h₃]
        exact tableAt_cons ht₃
      rw [hl₃, bind_some, h₂] at htable
      rw [if_neg (by simp)]
      by_cases hstop : presentBit e₂ = false ∨ pageSizeBit e₂ = true
      · exact .inl ⟨if_pos hstop, by rcases hstop with h | h <;> simp [htable, link, h]⟩
      · rw [if_neg hstop]
        have hl₂ : link L 2 e₂ = some (tableOf L e₂) :=
          link_eq_some (by decide) (by simp_all) (by simp_all)
        exact .inr ⟨_, _, _, ht₃, ht₂, htable.trans hl₂, rfl⟩

theorem unmap_mapped (hsep : m.Separate L root) {t₃ t₂ t₁ : ℕ}
    (ht₃ : m.tableAt L root [pml4Index v] = some t₃)
    (ht₂ : m.tableAt L root [pdpIndex v, pml4Index v] = some t₂)
    (ht₁ : m.tableAt L root (tablePath v) = some t₁) :
    ∃ m₀ m₁ m₂ e₄ e₃ e₂, UnmapChain L root v m m₀ m₁ m₂
      (releaseUnused L S (releaseUnused L S (releaseUnused L S
        (m.store t₁ (ptIndex v) 0) t₂ (pdIndex v)) t₃ (pdpIndex v)) root (pml4Index v))
      e₄ e₃ e₂ := by
  have hl₄ : link L 0 (m.memory root (pml4Index v)) = some t₃ := (tableAt_cons rfl).symm.trans ht₃
  have hl₃ : link L 1 (m.memory t₃ (pdpIndex v)) = some t₂ := (tableAt_cons ht₃).symm.trans ht₂
  have hl₂ : link L 2 (m.memory t₂ (pdIndex v)) = some t₁ := (tableAt_cons ht₂).symm.trans ht₁
  obtain ⟨hsep₀, hview₀, htables₀⟩ := store_view (i := ptIndex v) (e := 0) hsep ht₁ rfl
  set m₀ := m.store t₁ (ptIndex v) 0
  -- the entries above the cleared one are as they were, each until its own turn comes
  have hkeep : ∀ {p : List Index} {t : ℕ} {i : Index}, p.length < 3 →
      m.tableAt L root p = some t → m₀.view L root p i = some (m.memory t i) := by
    intro p t i hlen hp
    have hne : p ≠ tablePath v := fun h => by simp [h, tablePath] at hlen
    simp only [hview₀, View.set, hne, false_and, if_false]
    exact view_of_tableAt hp
  have hv₂ := hkeep (i := pdIndex v) (by simp) ht₂
  have ht₂₀ := (htables₀ _).trans ht₂
  have r₁ := releaseUnused_spec (S := S) (i := pdIndex v) hsep₀ ht₂₀
  rw [memory_of_view ht₂₀ hv₂] at r₁
  set m₁ := releaseUnused L S m₀ t₂ (pdIndex v)
  have hv₃ : m₁.view L root [pml4Index v] (pdpIndex v) = some (m.memory t₃ (pdpIndex v)) := by
    rw [r₁.view_of_not_suffix (not_suffix_of_length (by simp)) (by simp)]
    exact hkeep (by simp) ht₃
  have ht₃₁ := (r₁.tableAt _ (not_suffix_of_length (by simp))).trans ((htables₀ _).trans ht₃)
  have r₂ := releaseUnused_spec (S := S) (i := pdpIndex v) r₁.separate ht₃₁
  rw [memory_of_view ht₃₁ hv₃] at r₂
  set m₂ := releaseUnused L S m₁ t₃ (pdpIndex v)
  have hv₄ : m₂.view L root [] (pml4Index v) = some (m.memory root (pml4Index v)) := by
    rw [r₂.view_of_not_suffix (not_suffix_of_length (by simp)) (by simp),
      r₁.view_of_not_suffix (not_suffix_of_length (by simp)) (by simp)]
    exact hkeep (by simp) rfl
  have r₃ := releaseUnused_spec (S := S) (i := pml4Index v) (p := []) r₂.separate rfl
  rw [memory_of_view (p := []) rfl hv₄] at r₃
  rw [← (link_some hl₂).2.2] at hl₂
  rw [← (link_some hl₃).2.2] at hl₃
  rw [← (link_some hl₄).2.2] at hl₄
  exact ⟨m₀, m₁, m₂, _, _, _, hview₀, r₁, r₂, r₃, hv₂, hv₃, hv₄, hl₂, hl₃, hl₄⟩

theorem unmapPageNoflush_chain (hsep : m.Separate L root) (v : ℕ) :
    unmapPageNoflush L S root v m = m ∧ m.tableAt L root (tablePath v) = none ∨ ∃ m₀ m₁ m₂ e₄ e₃ e₂,
      UnmapChain L root v m m₀ m₁ m₂ (unmapPageNoflush L S root v m) e₄ e₃ e₂ := by
  rcases unmapPageNoflush_cases L S root m v with hsame | ⟨t₃, t₂, t₁, ht₃, ht₂, ht₁, heq⟩
  · exact .inl hsame
  · rw [heq]
    exact .inr (unmap_mapped hsep ht₃ ht₂ ht₁)

end Chains

section Leaves

/-- A 2 MiB entry is on the path of `v`. -/
def onLargePage (L : Layout) (root : ℕ) (m : Machine A) (v : ℕ) : Bool :=
  (leaves final (m.view L root) [pdpIndex v, pml4Index v] (pdIndex v)).isSome

theorem MapChain.small {m' e₄ e₃ e₂ leaf} (h : MapChain L root v flags leaf m m₁ m₂ m₃ m' e₄ e₃ e₂)
    (hflag : flags.getLsbD 7 = false) (hsmall : onLargePage L root m v = false) :
    pageSizeBit e₂ = false := by
  have hleaves : leaves final (m₂.view L root) = leaves final (m.view L root) :=
    (h.second.leaves (by simp) hflag (by simp)).trans (h.first.leaves (by simp) hflag (by simp))
  rw [onLargePage, ← hleaves] at hsmall
  rcases h.third.view with ⟨hview, hpresent, -⟩ | ⟨_, a, -, -, rfl, -⟩
  · cases hlarge : pageSizeBit e₂ with
    | false => rfl
    | true => simp [leaves, hview, filter_some, final, hpresent, hlarge] at hsmall
  · exact pageSizeBit_tableEntry a hflag

section

variable (hsep : m.Separate L root)

include hsep

theorem mapPageNoflush_leaves (hflag : flags.getLsbD 7 = false)
    (hready : Ready L S 3 m.ppfa (m.tables L root)) (hsmall : onLargePage L root m v = false)
    (physaddr : ℕ) (q : List Index) (j : Index) :
    leaves final ((mapPageNoflush L S root physaddr v flags m).view L root) q j =
      if q = tablePath v ∧ j = ptIndex v then
        (some (leafEntry flags (BitVec.ofNat 40 (clearLow 12 physaddr >>> 12)))).filter (final 3)
      else leaves final (m.view L root) q j := by
  obtain ⟨m₁, m₂, m₃, e₄, e₃, e₂, h⟩ := mapPageNoflush_chain hsep hflag hready physaddr v
  have hlarge := h.small hflag hsmall
  rcases h.last with ⟨habs, -⟩ | ⟨-, -, -, hview⟩
  · simp [habs] at hlarge
  have hleaves : leaves final (m₃.view L root) = leaves final (m.view L root) :=
    (h.third.leaves (by simp) hflag (by simp [hlarge])).trans
      ((h.second.leaves (by simp) hflag (by simp)).trans
        (h.first.leaves (by simp) hflag (by simp)))
  rw [hview, leaves_set, hleaves]
  rfl

theorem unmapPageNoflush_leaves (q : List Index) (j : Index) :
    leaves final ((unmapPageNoflush L S root v m).view L root) q j =
      if q = tablePath v ∧ j = ptIndex v then none else leaves final (m.view L root) q j := by
  rcases unmapPageNoflush_chain (S := S) hsep v with ⟨hsame, hnone⟩ | ⟨m₀, m₁, m₂, e₄, e₃, e₂, h⟩
  · rw [hsame]
    split
    · rename_i hq
      obtain ⟨rfl, rfl⟩ := hq
      have hview : m.view L root (tablePath v) (ptIndex v) = none := view_of_none hnone
      simp [leaves, hview]
    · rfl
  · rw [h.third.leaves h.entry₄ h.link₄, h.second.leaves h.entry₃ h.link₃,
      h.first.leaves h.entry₂ h.link₂, h.cleared, leaves_set]
    simp only [filter_some, final_absent presentBit_zero, Bool.false_eq_true, if_false]

theorem mapPageNoflush_separate (hflag : flags.getLsbD 7 = false)
    (hready : Ready L S 3 m.ppfa (m.tables L root)) (physaddr : ℕ) :
    (mapPageNoflush L S root physaddr v flags m).Separate L root := by
  obtain ⟨m₁, m₂, m₃, e₄, e₃, e₂, h⟩ := mapPageNoflush_chain hsep hflag hready physaddr v
  exact h.separate

theorem unmapPageNoflush_separate : (unmapPageNoflush L S root v m).Separate L root := by
  rcases unmapPageNoflush_chain (S := S) hsep v with ⟨hsame, -⟩ | ⟨m₀, m₁, m₂, e₄, e₃, e₂, h⟩
  · rw [hsame]
    exact hsep
  · exact h.third.separate

end

theorem pageSizeBit_setPageSize (e : Entry) : pageSizeBit (setPageSize e) := by
  rw [pageSizeBit, setPageSize, BitVec.getLsbD_or]
  simp

theorem mapLargePageNoflush_separate (hsep : m.Separate L root) (hflag : flags.getLsbD 7 = false)
    (hready : Ready L S 2 m.ppfa (m.tables L root)) (physaddr : ℕ) :
    (mapLargePageNoflush L S root physaddr v flags m).Separate L root := by
  obtain ⟨m₁, m₂, e₄, e₃, hm₁, hm₂, h₁, h₂, -⟩ := enter_two_levels hsep hflag hready v
  simp only [mapLargePageNoflush, pml4Index_clearLow, pdpIndex_clearLow, pdIndex_clearLow, le_refl,
    hm₁, hm₂]
  apply separate_unlink h₂.separate (h₂.table (by simp))
  simp [link, pageSizeBit_setPageSize]

theorem store_absent {a : A} (hsep : m.Separate L root) (hp : m.tableAt L root p = some table)
    (habsent : presentBit e = false) :
    (Machine.store ⟨m.memory, a⟩ table i e).Separate L root ∧ ∀ q, ¬ i :: p <:+ q →
        (Machine.store ⟨m.memory, a⟩ table i e).tableAt L root q = m.tableAt L root q := by
  have hlink : link L p.length e = none := link_absent habsent
  exact ⟨separate_unlink hsep hp hlink,
    fun q hq => (tableAt_unlink hsep hp hlink).trans (if_neg hq)⟩

theorem unmapLargePageNoflush_separate (hsep : m.Separate L root) :
    (unmapLargePageNoflush L S root v m).Separate L root := by
  simp only [unmapLargePageNoflush, pml4Index_clearLow, pdpIndex_clearLow, pdIndex_clearLow,
    le_refl]
  generalize h₄ : m.memory root (pml4Index v) = e₄
  cases hp₄ : presentBit e₄ with
  | false => exact hsep
  | true =>
    have ht₃ : m.tableAt L root [pml4Index v] = some (tableOf L e₄) := by
      rw [← h₄] at hp₄ ⊢
      exact (tableAt_cons rfl).trans (link_eq_some (by decide) hp₄ (by simp))
    generalize h₃ : m.memory (tableOf L e₄) (pdpIndex v) = e₃
    cases hp₃ : presentBit e₃ with
    | false => exact hsep
    | true =>
      have ht₂ : m.tableAt L root [pdpIndex v, pml4Index v] = some (tableOf L e₃) := by
        rw [← h₃] at hp₃ ⊢
        exact (tableAt_cons ht₃).trans (link_eq_some (by simp) hp₃ (by simp))
      obtain ⟨hsep₀, hkeep₀⟩ := store_absent (i := pdIndex v) (a := m.ppfa) hsep ht₂ presentBit_zero
      have ht₃₀ := (hkeep₀ _ (not_suffix_of_length (by simp))).trans ht₃
      have r := releaseUnused_spec (S := S) (i := pdpIndex v) hsep₀ ht₃₀
      have ht₃₁ := (r.tableAt _ (not_suffix_of_length (by simp))).trans ht₃₀
      simp only [Bool.true_eq_false, if_false]
      split
      · exact r.separate
      · exact (store_absent r.separate ht₃₁ presentBit_clearPresent).1

end Leaves

section Runs

inductive Op where
  | mapPage (physaddr virtualaddr : ℕ) (mode : Bool) (perms : PagePermissions)
  | unmapPage (virtualaddr : ℕ)
  | mapLargePage (physaddr virtualaddr : ℕ) (mode : Bool) (perms : PagePermissions)
  | unmapLargePage (virtualaddr : ℕ)

def perform (L : Layout) (S : FrameSource A) (root : ℕ) (m : Machine A) : Op → Machine A
  | .mapPage p v mode perms => mapPageNoflush L S root p v (decodePageFlags mode perms) m
  | .unmapPage v => unmapPageNoflush L S root v m
  | .mapLargePage p v mode perms => mapLargePageNoflush L S root p v (decodePageFlags mode perms) m
  | .unmapLargePage v => unmapLargePageNoflush L S root v m

/-- The frames that an operation may ask for are unused. -/
def Supplied (L : Layout) (S : FrameSource A) (root : ℕ) (m : Machine A) : Op → Prop
  | .mapPage .. => Ready L S 3 m.ppfa (m.tables L root)
  | .mapLargePage .. => Ready L S 2 m.ppfa (m.tables L root)
  | .unmapPage _ | .unmapLargePage _ => True

/-- The tables that the operations build from an empty root, whatever else memory holds. -/
inductive Built (L : Layout) (S : FrameSource A) (root : ℕ) : Machine A → Prop where
  | empty (m : Machine A) (h : ∀ i, m.memory root i = 0) : Built L S root m
  | step {m : Machine A} (op : Op) (hm : Built L S root m) (hframes : Supplied L S root m op) :
      Built L S root (perform L S root m op)

theorem empty_tableAt (h : ∀ i, m.memory root i = 0) (hp : p ≠ []) : m.tableAt L root p = none := by
  induction p with
  | nil => exact absurd rfl hp
  | cons i p ih =>
    by_cases hnil : p = []
    · subst hnil
      have hlink : link L 0 (m.memory root i) = none := by
        rw [h i]
        exact link_absent presentBit_zero
      exact (tableAt_cons rfl).trans hlink
    · have := ih hnil
      simp only [Machine.tableAt] at this
      simp [Machine.tableAt, RadixTable.tableAt, this]

theorem empty_view (h : ∀ i, m.memory root i = 0) (he : m.view L root p i = some e) : e = 0 := by
  by_cases hnil : p = []
  · subst hnil
    rw [← h i]
    exact (some.inj he).symm
  · cases (view_of_none (empty_tableAt h hnil)).symm.trans he

theorem empty_separate (h : ∀ i, m.memory root i = 0) : m.Separate L root := by
  have hroot : ∀ {p a}, m.tableAt L root p = some a → p = [] := by
    intro p a hp
    by_contra hne
    rw [empty_tableAt h hne] at hp
    cases hp
  intro p q a hp hq
  rw [hroot hp, hroot hq]

theorem decodePageFlags_small (mode : Bool) (perms : PagePermissions) :
    (decodePageFlags mode perms).getLsbD 7 = false := by
  cases mode <;> cases perms <;> decide

theorem decodePageFlags_present (mode : Bool) (perms : PagePermissions) :
    (decodePageFlags mode perms).getLsbD 0 := by
  cases mode <;> cases perms <;> decide

theorem step_preserves_separate (op : Op) (hsep : m.Separate L root)
    (hframes : Supplied L S root m op) : (perform L S root m op).Separate L root := by
  cases op with
  | mapPage p v mode perms =>
    exact mapPageNoflush_separate hsep (decodePageFlags_small mode perms) hframes p
  | unmapPage v => exact unmapPageNoflush_separate hsep
  | mapLargePage p v mode perms =>
    exact mapLargePageNoflush_separate hsep (decodePageFlags_small mode perms) hframes p
  | unmapLargePage v => exact unmapLargePageNoflush_separate hsep

theorem built_separate (hm : Built L S root m) : m.Separate L root := by
  induction hm with
  | empty m h => exact empty_separate h
  | step op _ hframes ih => exact step_preserves_separate op ih hframes

end Runs

section Translation

variable {m' : Machine A}

theorem getPhysaddr_other (hv : Canonical v) (hw : Canonical w) (hne : w / 0x1000 ≠ v / 0x1000)
    (hleaves : ∀ q j, ¬ (q = tablePath v ∧ j = ptIndex v) →
      leaves final (m'.view L root) q j = leaves final (m.view L root) q j) :
    getPhysaddr L m'.memory root w = getPhysaddr L m.memory root w := by
  by_cases hk : inKernel L w
  · simp only [getPhysaddr, if_pos hk]
  by_cases hh : inHHDM L w
  · simp only [getPhysaddr, if_neg hk, if_pos hh]
  have hlarge := hleaves [pdpIndex w, pml4Index w] (pdIndex w) (by simp [tablePath])
  have hleaf := hleaves _ _ fun h => hne (page_eq_of_indices hv hw h.1 h.2)
  simp only [tablePath] at hleaf
  rw [getPhysaddr_eq_physical hk hh, getPhysaddr_eq_physical hk hh]
  simp only [physical, hlarge, hleaf]

variable {o : ℕ}

theorem getPhysaddr_page (halign : 0x1000 ∣ v) (ho : o < 0x1000)
    (hk : ¬ inKernel L (v + o)) (hh : ¬ inHHDM L (v + o))
    (hsmall : leaves final (m.view L root) [pdpIndex v, pml4Index v] (pdIndex v) = none) :
    getPhysaddr L m.memory root (v + o) =
      match leaves final (m.view L root) (tablePath v) (ptIndex v) with
      | some e => (address e).toNat <<< 12 ||| o
      | none => 0 := by
  have hindex : ∀ {shift : ℕ}, 12 ≤ shift → tableIndex shift (v + o) = tableIndex shift v :=
    fun h => tableIndex_add h halign ho
  have h₁ : ptIndex (v + o) = ptIndex v := hindex (by decide)
  have h₂ : pdIndex (v + o) = pdIndex v := hindex (by decide)
  have h₃ : pdpIndex (v + o) = pdpIndex v := hindex (by decide)
  have h₄ : pml4Index (v + o) = pml4Index v := hindex (by decide)
  rw [getPhysaddr_eq_physical hk hh]
  cases he : leaves _ _ _ _ with
  | none | some e =>
    simp only [tablePath] at he
    simp only [physical, h₁, h₂, h₃, h₄, hsmall, he, offset_add halign ho]

theorem leaf_address {physaddr : ℕ} (hdvd : 0x1000 ∣ physaddr) (hlt : physaddr < 2 ^ 52)
    (ho : o < 0x1000) :
    (address (leafEntry flags (BitVec.ofNat 40 (clearLow 12 physaddr >>> 12)))).toNat <<< 12 ||| o =
      physaddr + o := by
  have hshift : clearLow 12 physaddr >>> 12 = physaddr / 0x1000 := by
    rw [clearLow, Nat.shiftLeft_shiftRight, Nat.shiftRight_eq_div_pow]
  have hsmall : physaddr / 0x1000 < 2 ^ 40 := by omega
  rw [leafEntry, address_setAddress, BitVec.toNat_ofNat, hshift, Nat.mod_eq_of_lt hsmall,
    ← Nat.shiftLeft_add_eq_or_of_lt (by simpa using ho), Nat.shiftLeft_eq]
  omega

section Pages

variable (hsep : m.Separate L root) (hsmall : onLargePage L root m v = false)

include hsep hsmall

theorem mapPage_page {physaddr : ℕ} (mode : Bool) (perms : PagePermissions)
    (hready : Ready L S 3 m.ppfa (m.tables L root)) (hdvd : 0x1000 ∣ physaddr)
    (hlt : physaddr < 2 ^ 52) (halign : 0x1000 ∣ v) (ho : o < 0x1000)
    (hout : ¬ inKernel L (v + o) ∧ ¬ inHHDM L (v + o)) :
    getPhysaddr L (mapPageNoflush L S root physaddr v (decodePageFlags mode perms) m).memory root
      (v + o) = physaddr + o := by
  have hleaves := mapPageNoflush_leaves hsep (decodePageFlags_small mode perms) hready hsmall
    physaddr
  have hpresent : presentBit (leafEntry (decodePageFlags mode perms)
      (BitVec.ofNat 40 (clearLow 12 physaddr >>> 12))) = true := by
    rw [presentBit, getLsbD_leafEntry _ (by decide), decodePageFlags_present]
  rw [getPhysaddr_page halign ho hout.1 hout.2, hleaves, if_pos ⟨rfl, rfl⟩]
  · simp only [filter_some, final, hpresent, decide_true, Bool.true_or, Bool.and_self, if_true]
    exact leaf_address hdvd hlt ho
  · rw [hleaves, if_neg (by simp [tablePath])]
    simpa [onLargePage] using hsmall

theorem unmapPage_page (halign : 0x1000 ∣ v) (ho : o < 0x1000)
    (hout : ¬ inKernel L (v + o) ∧ ¬ inHHDM L (v + o)) :
    getPhysaddr L (unmapPageNoflush L S root v m).memory root (v + o) = 0 := by
  have hleaves := unmapPageNoflush_leaves (S := S) (v := v) hsep
  rw [getPhysaddr_page halign ho hout.1 hout.2, hleaves, if_pos ⟨rfl, rfl⟩]
  rw [hleaves, if_neg (by simp [tablePath])]
  simpa [onLargePage] using hsmall

end Pages

/-- Mapping a 4 KiB page translates it to its frame, unmapping it translates it to null, and
every other page keeps its translation. -/
theorem pages_translate (hm : Built L S root m) (hcanon : Canonical v) (halign : 0x1000 ∣ v)
    (hout : ∀ o < 0x1000, ¬ inKernel L (v + o) ∧ ¬ inHHDM L (v + o))
    (hsmall : onLargePage L root m v = false) :
    (∀ physaddr mode perms, 0x1000 ∣ physaddr → physaddr < 2 ^ 52 →
      Ready L S 3 m.ppfa (m.tables L root) →
      ∀ m', m' = mapPageNoflush L S root physaddr v (decodePageFlags mode perms) m →
        (∀ o < 0x1000, getPhysaddr L m'.memory root (v + o) = physaddr + o) ∧
        ∀ w, Canonical w → w / 0x1000 ≠ v / 0x1000 →
          getPhysaddr L m'.memory root w = getPhysaddr L m.memory root w) ∧
    ∀ m', m' = unmapPageNoflush L S root v m →
      (∀ o < 0x1000, getPhysaddr L m'.memory root (v + o) = 0) ∧
      ∀ w, Canonical w → w / 0x1000 ≠ v / 0x1000 →
        getPhysaddr L m'.memory root w = getPhysaddr L m.memory root w := by
  have hsep := built_separate hm
  constructor
  · rintro physaddr mode perms hdvd hlt hready m' rfl
    refine ⟨fun o ho => mapPage_page hsep hsmall mode perms hready hdvd hlt halign ho (hout o ho),
      fun w hw hne => getPhysaddr_other hcanon hw hne fun q j hq => ?_⟩
    rw [mapPageNoflush_leaves hsep (decodePageFlags_small mode perms) hready hsmall, if_neg hq]
  · rintro m' rfl
    refine ⟨fun o ho => unmapPage_page hsep hsmall halign ho (hout o ho),
      fun w hw hne => getPhysaddr_other hcanon hw hne fun q j hq => ?_⟩
    rw [unmapPageNoflush_leaves hsep, if_neg hq]

def listSource : FrameSource (List ℕ) where
  allocatePage frames := (frames.headD 0, frames.tail)
  freePage frames _ := frames

def sampleLayout : Layout where
  kernelPhysical := 0x200000
  kernelVirtual := 0xFFFFFFFF80000000
  kernelLength := 0x100000
  hhdmStart := 0xFFFF800000000000

def sampleRoot : ℕ := 0xFFFFFFFF80010000

def sampleMachine : Machine (List ℕ) := ⟨fun _ _ => 0, [0x1000, 0x2000, 0x3000]⟩

theorem sample_ready : Ready sampleLayout listSource 3 sampleMachine.ppfa
    (sampleMachine.tables sampleLayout sampleRoot) := by
  have hroot : sampleMachine.tables sampleLayout sampleRoot ⊆ {sampleRoot} := by
    rintro a ⟨p, hp⟩
    by_cases hnil : p = []
    · subst hnil
      exact (some.inj hp).symm
    · cases (empty_tableAt (fun _ => rfl) hnil).symm.trans hp
  refine Ready.mono hroot ⟨by decide, by decide, by decide, ?_, by decide, by decide, by decide, ?_,
    by decide, by decide, by decide, ?_, trivial⟩
  all_goals
    simp only [Set.mem_insert_iff, Set.mem_singleton_iff]
    decide +kernel

theorem pages_translate_sample : Built sampleLayout listSource sampleRoot sampleMachine ∧
    ∀ o < 0x1000, getPhysaddr sampleLayout (mapPageNoflush sampleLayout listSource sampleRoot 0x5000
      0x400000 (decodePageFlags true .readWrite) sampleMachine).memory sampleRoot (0x400000 + o) =
        0x5000 + o := by
  have hbuilt : Built sampleLayout listSource sampleRoot sampleMachine := .empty _ fun _ => rfl
  have hout : ∀ o < 0x1000, ¬ inKernel sampleLayout (0x400000 + o) ∧
      ¬ inHHDM sampleLayout (0x400000 + o) := by
    intro o ho
    simp only [inKernel, inHHDM, sampleLayout]
    omega
  have h := pages_translate hbuilt (v := 0x400000) (.inl (by decide)) (by decide) hout
    (by decide +kernel)
  exact ⟨hbuilt, (h.1 0x5000 true .readWrite (by decide) (by decide) sample_ready _ rfl).1⟩

end Translation

end PageTables
