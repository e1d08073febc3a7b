import FrostyOS.PageMapping

/-! # What the hardware enforces

The writable and user bits of all four levels, and the execute-disable bit of any. Upper
entries only gain bits while they are in use. -/
namespace PageTables

open MachineWord RadixTable List Option Function

variable {A : Type*} {L : Layout} {S : FrameSource A} {m m' : Machine A} {root : ℕ}
  {flags : BitVec 32} {v w : ℕ} {p : List Index} {i : Index} {e e' : Entry}

structure Permissions where
  writable : Bool
  user : Bool
  noExecute : Bool
  deriving DecidableEq, Repr

def combine (levels : List Entry) : Permissions where
  writable := levels.all readWriteBit
  user := levels.all userSuperBit
  noExecute := levels.any executeDisableBit

/-- The page walk of the processor. -/
def effective (L : Layout) (m : Memory) (root v : ℕ) : Option Permissions :=
  let pml4 := m root (pml4Index v)
  if presentBit pml4 = false then none
  else
    let pml3 := m (tableOf L pml4) (pdpIndex v)
    if presentBit pml3 = false then none
    else
      let pml2 := m (tableOf L pml3) (pdIndex v)
      if presentBit pml2 = false then none
      else if pageSizeBit pml2 then some (combine [pml4, pml3, pml2])
      else
        let pml1 := m (tableOf L pml2) (ptIndex v)
        if presentBit pml1 = false then none
        else some (combine [pml4, pml3, pml2, pml1])

def requested (flags : BitVec 32) : Permissions where
  writable := flags.getLsbD 1
  user := flags.getLsbD 2
  noExecute := flags.getLsbD 27

/-- `e` allows writes and user accesses wherever `e'` does. -/
def Allows (e e' : Entry) : Prop := (readWriteBit e' = true → readWriteBit e = true) ∧
    (userSuperBit e' = true → userSuperBit e = true)

/-- Upper entries point to tables, do not forbid execution, and allow what the pages below
them allow; each page has the permissions of its latest flags. -/
structure Enforced (view : View Index Entry) (latest : ℕ → BitVec 32) : Prop where
  upper : ∀ p i e, p.length < 3 → view p i = some e →
    pageSizeBit e = false ∧ executeDisableBit e = false
  allows : ∀ p i e q j e', p.length < 3 → view p i = some e → i :: p <:+ q → q.length = 3 →
    view q j = some e' → presentBit e' = true → Allows e e'
  latest : ∀ v e, Canonical v → view (tablePath v) (ptIndex v) = some e → presentBit e = true →
    combine [e] = requested (latest (v / 0x1000))

section Updates

variable {view : View Index Entry} {latest : ℕ → BitVec 32}

theorem tablePath_length : (tablePath v).length = 3 := rfl

section

variable (hE : Enforced view latest)

include hE

theorem Enforced.of_upper {view'}
    (hleaf : ∀ {q j x}, q.length = 3 → view' q j = some x → presentBit x → view q j = some x)
    (hupper : ∀ {q j x}, q.length < 3 → view' q j = some x → view q j = some x ∨
      (pageSizeBit x = false ∧ executeDisableBit x = false) ∧ ∀ {r k y}, j :: q <:+ r →
        r.length = 3 → view' r k = some y → presentBit y → Allows x y) :
    Enforced view' latest := by
  constructor
  · intro q j x hq hx
    rcases hupper hq hx with hx | ⟨hbits, -⟩
    · exact hE.upper q j x hq hx
    · exact hbits
  · intro q j x r k y hq hx hs hr hy hpresent
    rcases hupper hq hx with hx | ⟨-, hallows⟩
    · exact hE.allows q j x r k y hq hx hs hr (hleaf hr hy hpresent) hpresent
    · exact hallows hs hr hy hpresent
  · intro v x hv hx hpresent
    exact hE.latest v x hv (hleaf rfl hx hpresent) hpresent

theorem Enforced.set_upper (hd : p.length < 3)
    (he : view p i = some e) (hsize : pageSizeBit e' = false) (hexec : executeDisableBit e' = false)
    (hmore : Allows e' e) : Enforced (view.set p i e') latest := by
  refine hE.of_upper ?_ ?_
  · intro q j x hq hx _
    rwa [View.set_of_length_ne (by omega)] at hx
  · intro q j x hq hx
    rcases View.set_eq_some.mp hx with ⟨⟨rfl, rfl⟩, rfl⟩ | ⟨-, hx⟩
    · refine .inr ⟨⟨hsize, hexec⟩, fun hs hr hy hpresent => ?_⟩
      rw [View.set_of_length_ne (by omega)] at hy
      have hold := hE.allows _ _ e _ _ _ hq he hs hr hy hpresent
      exact ⟨fun h => hmore.1 (hold.1 h), fun h => hmore.2 (hold.2 h)⟩
    · exact .inl hx

theorem Enforced.grow (hd : p.length < 3)
    (hbelow : ∀ q j, i :: p <:+ q → view q j = none) (hsize : pageSizeBit e' = false)
    (hexec : executeDisableBit e' = false) : Enforced (view.grow p i e' 0) latest := by
  have hleaf : ∀ {q j x}, q.length = 3 → view.grow p i e' 0 q j = some x → presentBit x →
      view q j = some x := by
    intro q j x hq hx hpresent
    rcases View.grow_eq_some.mp hx with ⟨-, rfl⟩ | ⟨-, hx⟩
    · cases presentBit_zero.symm.trans hpresent
    · rwa [View.set_of_length_ne (by omega)] at hx
  have hnothing : ∀ {r k y}, i :: p <:+ r → r.length = 3 → view.grow p i e' 0 r k = some y →
      ¬ presentBit y = true := by
    intro r k y hs hr hy hpresent
    cases (hbelow r k hs).symm.trans (hleaf hr hy hpresent)
  refine hE.of_upper hleaf ?_
  intro q j x hq hx
  rcases View.grow_eq_some.mp hx with ⟨rfl, rfl⟩ | ⟨-, hx⟩
  · exact .inr ⟨by decide, fun hs hr hy hpresent =>
      absurd hpresent (hnothing ((suffix_cons j _).trans hs) hr hy)⟩
  · rcases View.set_eq_some.mp hx with ⟨⟨rfl, rfl⟩, rfl⟩ | ⟨-, hx⟩
    · exact .inr ⟨⟨hsize, hexec⟩, fun hs hr hy hpresent => absurd hpresent (hnothing hs hr hy)⟩
    · exact .inl hx

theorem Enforced.cut (hd : p.length < 3)
    (hsize : pageSizeBit e' = false) (hexec : executeDisableBit e' = false) :
    Enforced (view.cut p i e') latest := by
  refine hE.of_upper ?_ ?_
  · intro q j x hq hx _
    rw [View.cut_eq_some, View.set_of_length_ne (by omega)] at hx
    exact hx.2
  · intro q j x hq hx
    rcases View.set_eq_some.mp (View.cut_eq_some.mp hx).2 with ⟨⟨rfl, rfl⟩, rfl⟩ | ⟨-, hx⟩
    · exact .inr ⟨⟨hsize, hexec⟩, fun hs _ hy _ => absurd hs (View.cut_eq_some.mp hy).1⟩
    · exact .inl hx

theorem Enforced.set_leaf {leaf} (hv : Canonical v)
    (habove : ∀ q j x, j :: q <:+ tablePath v → view q j = some x → presentBit leaf →
      Allows x leaf) (hleaf : presentBit leaf → combine [leaf] = requested flags) :
    Enforced (view.set (tablePath v) (ptIndex v) leaf) (update latest (v / 0x1000) flags) := by
  constructor
  · intro q j x hq hx
    rw [View.set_of_length_ne (by rw [tablePath_length]; omega)] at hx
    exact hE.upper q j x hq hx
  · intro q j x r k y hq hx hs hr hy hpresent
    rw [View.set_of_length_ne (by rw [tablePath_length]; omega)] at hx
    rcases View.set_eq_some.mp hy with ⟨⟨rfl, rfl⟩, rfl⟩ | ⟨-, hy⟩
    · exact habove q j x hs hx hpresent
    · exact hE.allows q j x r k y hq hx hs hr hy hpresent
  · intro w x hw hx hpresent
    rcases View.set_eq_some.mp hx with ⟨h, rfl⟩ | ⟨h, hx⟩
    · rw [page_eq_of_indices hv hw h.1 h.2, update_self]
      exact hleaf hpresent
    · rw [update_of_ne fun heq => h (indices_eq_of_page heq)]
      exact hE.latest w x hw hx hpresent

end

end Updates

variable {e₄ e₃ e₂ : Entry}

section Levels

variable {latest : ℕ → BitVec 32}

theorem executeDisableBit_or_upperFlags :
    executeDisableBit (e ||| upperFlags flags) = executeDisableBit e := by
  rw [executeDisableBit, BitVec.getLsbD_or, getLsbD_upperFlags_top, Bool.or_false,
    executeDisableBit]

theorem executeDisableBit_tableEntry (a : BitVec 40) :
    executeDisableBit (tableEntry flags a) = false := by
  rw [executeDisableBit, tableEntry, getLsbD_setAddress, if_neg (by decide), setPresent,
    BitVec.getLsbD_or, getLsbD_upperFlags_top]
  decide

theorem allows_or_upperFlags : Allows (e ||| upperFlags flags) e := by
  refine ⟨fun h => ?_, fun h => ?_⟩
  · rw [readWriteBit, getLsbD_or_upperFlags (by decide), show e.getLsbD 1 = true from h,
      Bool.true_or]
  · rw [userSuperBit, getLsbD_or_upperFlags (by decide), show e.getLsbD 2 = true from h,
      Bool.true_or]

def Grants (flags : BitVec 32) (e : Entry) : Prop :=
  (flags.getLsbD 1 = true → readWriteBit e = true) ∧
    (flags.getLsbD 2 = true → userSuperBit e = true)

theorem grants_or_upperFlags : Grants flags (e ||| upperFlags flags) := by
  refine ⟨fun h => ?_, fun h => ?_⟩
  · rw [readWriteBit, getLsbD_or_upperFlags (by decide), h, Bool.or_true]
  · rw [userSuperBit, getLsbD_or_upperFlags (by decide), h, Bool.or_true]

theorem grants_tableEntry (a : BitVec 40) : Grants flags (tableEntry flags a) := by
  refine ⟨fun h => ?_, fun h => ?_⟩
  · rw [readWriteBit, getLsbD_tableEntry a (by decide), h, Bool.or_true]
  · rw [userSuperBit, getLsbD_tableEntry a (by decide), h, Bool.or_true]

theorem view_below_absent (h : m.view L root p i = some e) (habsent : presentBit e = false) {q}
    (hq : i :: p <:+ q) (j : Index) : m.view L root q j = none := by
  have hnone := view_below_none_of_absent h habsent
  by_cases heq : q = i :: p
  · rw [heq]
    exact hnone j
  · refine view_of_none (view_below_none (fun j x hx => ?_) hq heq)
    cases (hnone j).symm.trans hx

theorem Entered.enforced (h : Entered L root flags m m' p i e) (hd : p.length < 3)
    (hflag : flags.getLsbD 7 = false) (hE : Enforced (m.view L root) latest) :
    Enforced (m'.view L root) latest := by
  rcases h.view with ⟨hview, hpresent, hset⟩ | ⟨old, a, hview, habsent, rfl, hgrow⟩
  · obtain ⟨hsize, hexec⟩ := hE.upper p i e hd hview
    rw [hset]
    apply hE.set_upper hd hview _ _ allows_or_upperFlags
    · rw [pageSizeBit, getLsbD_or_upperFlags (by decide), hflag, Bool.or_false]
      exact hsize
    · rw [executeDisableBit_or_upperFlags]
      exact hexec
  · rw [hgrow]
    exact hE.grow hd (fun q j hq => view_below_absent hview habsent hq j)
      (pageSizeBit_tableEntry a hflag) (executeDisableBit_tableEntry a)

theorem Entered.grants (h : Entered L root flags m m' p i e) :
    ∃ x, m'.view L root p i = some x ∧ Grants flags x := by
  rcases h.view with ⟨-, -, hset⟩ | ⟨_, a, -, -, rfl, hgrow⟩
  · exact ⟨e ||| upperFlags flags, by simp [hset, View.set], grants_or_upperFlags⟩
  · exact ⟨_, by simp [hgrow, View.grow, View.set], grants_tableEntry a⟩

variable {m₂ m₁ : Machine A}

theorem MapChain.enforced {m₃ leaf} (h : MapChain L root v flags leaf m m₁ m₂ m₃ m' e₄ e₃ e₂)
    (hflag : flags.getLsbD 7 = false) (hv : Canonical v) (hE : Enforced (m.view L root) latest)
    (hleaf : combine [leaf] = requested flags) :
    Enforced (m'.view L root) (update latest (v / 0x1000) flags) := by
  have hE₁ := h.first.enforced (by simp) hflag hE
  have hE₂ := h.second.enforced (by simp) hflag hE₁
  have hE₃ := h.third.enforced (by simp) hflag hE₂
  have hsmall : pageSizeBit e₂ = false := by
    rcases h.third.view with ⟨hview, -, -⟩ | ⟨_, a, -, -, rfl, -⟩
    · exact (hE₂.upper _ _ _ (by simp) hview).1
    · exact pageSizeBit_tableEntry a hflag
  rcases h.last with ⟨habs, -⟩ | ⟨-, -, -, hview⟩
  · simp [hsmall] at habs
  rw [hview]
  refine hE₃.set_leaf hv (fun q j x hs hx _ => ?_) fun _ => hleaf
  -- each of the three levels was given the flags, and later levels left it alone
  obtain ⟨x₄, hx₄, hg₄⟩ := h.first.grants
  obtain ⟨x₃, hx₃, hg₃⟩ := h.second.grants
  obtain ⟨x₂, hx₂, hg₂⟩ := h.third.grants
  rw [← h.second.view_of_ne (by simp) (by simp), ← h.third.view_of_ne (by simp) (by simp)] at hx₄
  rw [← h.third.view_of_ne (by simp) (by simp)] at hx₃
  have hgrants : Grants flags x := by
    simp only [tablePath, suffix_cons_iff, suffix_nil, cons.injEq, reduceCtorEq, or_false] at hs
    rcases hs with ⟨rfl, rfl⟩ | ⟨rfl, rfl⟩ | ⟨rfl, rfl⟩
    · exact some.inj (hx₂.symm.trans hx) ▸ hg₂
    · exact some.inj (hx₃.symm.trans hx) ▸ hg₃
    · exact some.inj (hx₄.symm.trans hx) ▸ hg₄
  simp only [combine, requested, Permissions.mk.injEq, all_cons, all_nil, Bool.and_true]
    at hleaf
  exact ⟨fun hw => hgrants.1 (hleaf.1 ▸ hw), fun hu => hgrants.2 (hleaf.2.1 ▸ hu)⟩

theorem clearPresent_keeps : pageSizeBit (clearPresent e) = pageSizeBit e ∧
    executeDisableBit (clearPresent e) = executeDisableBit e := by
  simp [pageSizeBit, executeDisableBit, clearPresent]

theorem Released.enforced (h : Released L root m m' p i e) (hd : p.length < 3)
    (hview : m.view L root p i = some e) (hE : Enforced (m.view L root) latest) :
    Enforced (m'.view L root) latest := by
  rcases h.memory with hsame | ⟨hcut, -⟩
  · simp only [Machine.view, hsame]
    exact hE
  obtain ⟨hsize, hexec⟩ := hE.upper p i e hd hview
  rw [hcut]
  apply hE.cut hd
  · rw [clearPresent_keeps.1, hsize]
  · rw [clearPresent_keeps.2, hexec]

theorem UnmapChain.enforced {m₀} (h : UnmapChain L root v m m₀ m₁ m₂ m' e₄ e₃ e₂) (hv : Canonical v)
    (hE : Enforced (m.view L root) latest) : Enforced (m'.view L root) latest := by
  have hE₀ : Enforced (m₀.view L root) latest := by
    rw [h.cleared, ← update_eq_self (v / 0x1000) latest]
    apply hE.set_leaf hv
    · intro q j x _ _ hpresent
      rw [presentBit_zero] at hpresent
      cases hpresent
    · intro hpresent
      rw [presentBit_zero] at hpresent
      cases hpresent
  have hE₁ := h.first.enforced (by simp) h.entry₂ hE₀
  have hE₂ := h.second.enforced (by simp) h.entry₃ hE₁
  exact h.third.enforced (by simp) h.entry₄ hE₂

structure Mapped (L : Layout) (root v : ℕ) (m : Machine A) (e₄ e₃ e₂ e₁ : Entry) : Prop where
  entry₄ : m.view L root [] (pml4Index v) = some e₄
  entry₃ : m.view L root [pml4Index v] (pdpIndex v) = some e₃
  entry₂ : m.view L root [pdpIndex v, pml4Index v] (pdIndex v) = some e₂
  entry₁ : m.view L root (tablePath v) (ptIndex v) = some e₁
  present₄ : presentBit e₄ = true
  present₃ : presentBit e₃ = true
  present₂ : presentBit e₂ = true
  present₁ : presentBit e₁ = true

theorem effective_eq_some {perms} (hE : Enforced (m.view L root) latest)
    (h : effective L m.memory root v = some perms) :
    ∃ e₄ e₃ e₂ e₁, Mapped L root v m e₄ e₃ e₂ e₁ ∧ perms = combine [e₄, e₃, e₂, e₁] := by
  simp only [effective] at h
  generalize h₄ : m.memory root (pml4Index v) = e₄ at h
  generalize h₃ : m.memory (tableOf L e₄) (pdpIndex v) = e₃ at h
  generalize h₂ : m.memory (tableOf L e₃) (pdIndex v) = e₂ at h
  generalize h₁ : m.memory (tableOf L e₂) (ptIndex v) = e₁ at h
  cases hp₄ : presentBit e₄ with
  | false => simp [hp₄] at h
  | true =>
    cases hp₃ : presentBit e₃ with
    | false => simp [hp₄, hp₃] at h
    | true =>
      cases hp₂ : presentBit e₂ with
      | false => simp [hp₄, hp₃, hp₂] at h
      | true =>
        have ht₃ : m.tableAt L root [pml4Index v] = some (tableOf L e₄) := by
          rw [← h₄] at hp₄ ⊢
          exact (tableAt_cons rfl).trans (link_eq_some (by simp) hp₄ (by simp))
        have ht₂ : m.tableAt L root [pdpIndex v, pml4Index v] = some (tableOf L e₃) := by
          rw [← h₃] at hp₃ ⊢
          exact (tableAt_cons ht₃).trans (link_eq_some (by simp) hp₃ (by simp))
        have hv₂ : m.view L root [pdpIndex v, pml4Index v] (pdIndex v) = some e₂ := by
          rw [← h₂]
          exact view_of_tableAt ht₂
        have hsmall := (hE.upper _ _ _ (by simp) hv₂).1
        have ht₁ : m.tableAt L root (tablePath v) = some (tableOf L e₂) := by
          rw [← h₂] at hp₂ hsmall ⊢
          exact (tableAt_cons ht₂).trans (link_eq_some (by simp) hp₂ (by simp [hsmall]))
        cases hp₁ : presentBit e₁ with
        | false => simp [hp₄, hp₃, hp₂, hsmall, hp₁] at h
        | true =>
          simp only [hp₄, hp₃, hp₂, hsmall, hp₁, Bool.true_eq_false, Bool.false_eq_true, if_false,
            some.injEq] at h
          refine ⟨e₄, e₃, e₂, e₁, ⟨?_, ?_, hv₂, ?_, hp₄, hp₃, hp₂, hp₁⟩, h.symm⟩
          · rw [← h₄]
            rfl
          · rw [← h₃]
            exact view_of_tableAt ht₃
          · rw [← h₁]
            exact view_of_tableAt ht₁

theorem Entered.view_of_present (h : Entered L root flags m m' p i e) {x}
    (hx : m.view L root p i = some x) (hpresent : presentBit x) {q} (hq : q ≠ p) (j : Index) :
    m'.view L root q j = m.view L root q j := by
  rcases h.view with ⟨-, -, hset⟩ | ⟨old, _, hold, habsent, -, -⟩
  · simp [hset, View.set, hq]
  · obtain rfl : old = x := some.inj (hold.symm.trans hx)
    simp [habsent] at hpresent

theorem remapPageNoflush_chain (hsep : m.Separate L root) (hflag : flags.getLsbD 7 = false) {e₁}
    (h : Mapped L root v m e₄ e₃ e₂ e₁) (hsmall : pageSizeBit e₂ = false) :
    ∃ m₁ m₂ m₃, MapChain L root v flags (remappedEntry flags e₁) m m₁ m₂ m₃
      (remapPageNoflush L root v flags m) e₄ e₃ e₂ := by
  obtain rfl : m.memory root (pml4Index v) = e₄ := memory_of_view (p := []) rfl h.entry₄
  have s₁ := (store_flags_spec hsep (p := []) rfl (by simp) hflag h.present₄).1
  have hv₃ := (s₁.view_of_present h.entry₄ h.present₄ (by simp) _).trans h.entry₃
  have hm₃ := memory_of_view (s₁.table (by simp)) hv₃
  have s₂ := (store_flags_spec (i := pdpIndex v) s₁.separate (s₁.table (by simp)) (by simp) hflag
    (by rw [hm₃]; exact h.present₃)).1
  rw [hm₃] at s₂
  have hv₂ := (s₂.view_of_present hv₃ h.present₃ (by simp) _).trans
    ((s₁.view_of_present h.entry₄ h.present₄ (by simp) _).trans h.entry₂)
  have hm₂ := memory_of_view (s₂.table (by simp)) hv₂
  have s₃ := (store_flags_spec (i := pdIndex v) s₂.separate (s₂.table (by simp)) (by simp) hflag
    (by rw [hm₂]; exact h.present₂)).1
  rw [hm₂] at s₃
  have hv₁ := (s₃.view_of_present hv₂ h.present₂ (by simp [tablePath]) _).trans
    ((s₂.view_of_present hv₃ h.present₃ (by simp [tablePath]) _).trans
      ((s₁.view_of_present h.entry₄ h.present₄ (by simp [tablePath]) _).trans h.entry₁))
  have htable := s₃.table (by simp [hsmall])
  have hm₁ := memory_of_view htable hv₁
  refine ⟨_, _, _, s₁, s₂, s₃, .inr ⟨hsmall, isSome_iff_exists.mpr ⟨_, htable⟩, ?_⟩⟩
  obtain ⟨hsep', hview, -⟩ := store_view (i := ptIndex v) (e := remappedEntry flags e₁)
    s₃.separate htable rfl
  simp only [remapPageNoflush, pml4Index_clearLow, pdpIndex_clearLow, pdIndex_clearLow,
    ptIndex_clearLow, Nat.reduceLeDiff, h.present₄, hm₃, h.present₃, hm₂, h.present₂, hsmall, hm₁,
    Bool.true_eq_false, Bool.false_eq_true, if_false]
  exact ⟨hsep', hview⟩

end Levels

section Runs

/-- The tables together with the flags of each page's latest mapping or change. -/
structure Tracked (A : Type*) where
  machine : Machine A
  latest : ℕ → BitVec 32

/-- Bit 7 of a flag word would turn upper entries into 2 MiB pages. -/
inductive Tracked.Step (L : Layout) (S : FrameSource A) (root : ℕ) (s : Tracked A) :
    Tracked A → Prop where
  | mapPage (physaddr v : ℕ) (flags : BitVec 32) (hv : Canonical v)
      (hflag : flags.getLsbD 7 = false)
      (hready : Ready L S 3 s.machine.ppfa (s.machine.tables L root)) :
      Step L S root s ⟨mapPageNoflush L S root physaddr v flags s.machine,
        update s.latest (v / 0x1000) flags⟩
  | remapPage (v : ℕ) (flags : BitVec 32) (hv : Canonical v) (hflag : flags.getLsbD 7 = false)
      (hmapped : (effective L s.machine.memory root v).isSome) :
      Step L S root s ⟨remapPageNoflush L root v flags s.machine,
        update s.latest (v / 0x1000) flags⟩
  | unmapPage (v : ℕ) (hv : Canonical v) :
      Step L S root s ⟨unmapPageNoflush L S root v s.machine, s.latest⟩

inductive Tracked.Reachable (L : Layout) (S : FrameSource A) (root : ℕ) : Tracked A → Prop where
  | empty (s : Tracked A) (h : ∀ i, s.machine.memory root i = 0) : Reachable L S root s
  | step {s t : Tracked A} (hr : Reachable L S root s) (hs : Step L S root s t) :
      Reachable L S root t

structure Tracked.Invariant (L : Layout) (root : ℕ) (s : Tracked A) : Prop where
  separate : s.machine.Separate L root
  enforced : Enforced (s.machine.view L root) s.latest

variable {s t : Tracked A} {latest : ℕ → BitVec 32}

theorem empty_enforced (h : ∀ i, m.memory root i = 0) : Enforced (m.view L root) latest := by
  constructor
  · intro p i e _ he
    rw [empty_view h he]
    decide
  · intro p i e q j e' _ _ _ _ he' hpresent
    rw [empty_view h he', presentBit_zero] at hpresent
    cases hpresent
  · intro v e _ he hpresent
    rw [empty_view h he, presentBit_zero] at hpresent
    cases hpresent

theorem combine_of_bits (hlow : ∀ {k}, k < 12 → e.getLsbD k = flags.getLsbD k)
    (htop : executeDisableBit e = flags.getLsbD 27) : combine [e] = requested flags := by
  have hw : readWriteBit e = flags.getLsbD 1 := hlow (by decide)
  have hu : userSuperBit e = flags.getLsbD 2 := hlow (by decide)
  simp only [combine, requested, all_cons, all_nil, any_cons, any_nil, htop, hw,
    hu, Bool.and_true, Bool.or_false]

theorem combine_leafEntry (a : BitVec 40) : combine [leafEntry flags a] = requested flags := by
  apply combine_of_bits (getLsbD_leafEntry a)
  rw [executeDisableBit, leafEntry, getLsbD_setAddress, if_neg (by decide), getLsbD_leafFlags_top]

theorem combine_remappedEntry : combine [remappedEntry flags e] = requested flags := by
  apply combine_of_bits getLsbD_remappedEntry
  rw [executeDisableBit, remappedEntry, getLsbD_or_address, getLsbD_leafFlags_top]
  simp

theorem Tracked.step_preserves_invariant (hI : s.Invariant L root) (hs : s.Step L S root t) :
    t.Invariant L root := by
  cases hs with
  | mapPage physaddr v flags hv hflag hready =>
    obtain ⟨m₁, m₂, m₃, e₄, e₃, e₂, h⟩ := mapPageNoflush_chain hI.separate hflag hready physaddr v
    exact ⟨h.separate, h.enforced hflag hv hI.enforced (combine_leafEntry _)⟩
  | remapPage v flags hv hflag hmapped =>
    obtain ⟨perms, hperms⟩ := isSome_iff_exists.mp hmapped
    obtain ⟨e₄, e₃, e₂, e₁, hpage, -⟩ := effective_eq_some hI.enforced hperms
    have hsmall := (hI.enforced.upper _ _ _ (by simp) hpage.entry₂).1
    obtain ⟨m₁, m₂, m₃, h⟩ := remapPageNoflush_chain hI.separate hflag hpage hsmall
    exact ⟨h.separate, h.enforced hflag hv hI.enforced combine_remappedEntry⟩
  | unmapPage v hv =>
    refine ⟨unmapPageNoflush_separate hI.separate, ?_⟩
    rcases unmapPageNoflush_chain (S := S) hI.separate v with
      ⟨hsame, -⟩ | ⟨m₀, m₁, m₂, e₄, e₃, e₂, h⟩
    · simp only [hsame]
      exact hI.enforced
    · exact h.enforced hv hI.enforced

theorem Tracked.reachable_invariant (hr : Tracked.Reachable L S root s) : s.Invariant L root := by
  induction hr with
  | empty s h => exact ⟨empty_separate h, empty_enforced h⟩
  | step _ hs ih => exact step_preserves_invariant ih hs

theorem Mapped.combine_eq {e₁} (h : Mapped L root v m e₄ e₃ e₂ e₁)
    (hE : Enforced (m.view L root) latest) :
    combine [e₄, e₃, e₂, e₁] = combine [e₁] := by
  have hupper : ∀ {p i e}, p.length < 3 → m.view L root p i = some e → i :: p <:+ tablePath v →
      executeDisableBit e = false ∧ Allows e e₁ := fun hd he hs =>
    ⟨(hE.upper _ _ _ hd he).2, hE.allows _ _ _ _ _ _ hd he hs rfl h.entry₁ h.present₁⟩
  obtain ⟨hx₄, hw₄, hu₄⟩ := hupper (by simp) h.entry₄ (by simp [tablePath, suffix_cons_iff])
  obtain ⟨hx₃, hw₃, hu₃⟩ := hupper (by simp) h.entry₃ (by simp [tablePath])
  obtain ⟨hx₂, hw₂, hu₂⟩ := hupper (by simp) h.entry₂ (by simp [tablePath])
  simp only [combine, all_cons, all_nil, any_cons, any_nil, hx₄, hx₃, hx₂,
    Bool.false_or, Bool.and_true, Bool.or_false, Permissions.mk.injEq, and_true]
  constructor
  · cases hw : readWriteBit e₁ with
    | false => simp
    | true => simp [hw₄ hw, hw₃ hw, hw₂ hw]
  · cases hu : userSuperBit e₁ with
    | false => simp
    | true => simp [hu₄ hu, hu₃ hu, hu₂ hu]

/-- What the processor enforces on a mapped page is what its latest mapping or change of
flags asked for. -/
theorem effective_permissions_are_latest (hr : Tracked.Reachable L S root s) (hv : Canonical v)
    {perms : Permissions} (hmapped : effective L s.machine.memory root v = some perms) :
    perms = requested (s.latest (v / 0x1000)) := by
  have hI := Tracked.reachable_invariant hr
  obtain ⟨e₄, e₃, e₂, e₁, hpage, rfl⟩ := effective_eq_some hI.enforced hmapped
  rw [hpage.combine_eq hI.enforced]
  exact hI.enforced.latest v e₁ hv hpage.entry₁ hpage.present₁

theorem effective_permissions_are_latest_sample :
    ∃ s : Tracked (List ℕ), Tracked.Reachable sampleLayout listSource sampleRoot s ∧
      effective sampleLayout s.machine.memory sampleRoot 0x400000 = some ⟨false, true, true⟩ ∧
      requested (s.latest 0x400) = ⟨false, true, true⟩ := by
  set mapped := mapPageNoflush sampleLayout listSource sampleRoot 0x5000 0x400000
    (decodePageFlags true .readWrite) sampleMachine with hm
  have hcanon : Canonical 0x400000 := .inl (by decide)
  have hwritable : (effective sampleLayout mapped.memory sampleRoot 0x400000).isSome := by
    rw [hm]
    decide +kernel
  have heff : effective sampleLayout (remapPageNoflush sampleLayout sampleRoot 0x400000
      (decodePageFlags true .read) mapped).memory sampleRoot 0x400000 =
      some ⟨false, true, true⟩ := by
    rw [hm]
    decide +kernel
  have hr := ((Tracked.Reachable.empty (L := sampleLayout) (S := listSource)
    ⟨sampleMachine, fun _ => 0⟩ fun _ => rfl).step
      (.mapPage 0x5000 0x400000 _ hcanon (decodePageFlags_small true .readWrite) sample_ready)).step
      (.remapPage 0x400000 _ hcanon (decodePageFlags_small true .read) hwritable)
  exact ⟨_, hr, heff, (effective_permissions_are_latest hr hcanon heff).symm⟩

end Runs

end PageTables
