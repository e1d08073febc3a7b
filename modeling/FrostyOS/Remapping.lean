import FrostyOS.PageMapping

/-! # Changing the flags of a page

The remap functions add flags to the upper entries of a page and build the last one anew. -/
namespace PageTables

open MachineWord RadixTable

variable {A : Type*} {L : Layout} {m m' : Machine A} {root : ℕ} {flags : BitVec 32} {v w : ℕ}
  {p : List Index} {i : Index} {e e' : Entry} {t d : ℕ} {mem mem' : Memory}

/-- The translation of `v` below an entry of the page directory. -/
def translateBelow (L : Layout) (mem : Memory) (e : Entry) (v : ℕ) : Option ℕ :=
  if presentBit e = false then none
  else if pageSizeBit e then
    some ((largeAddress e).toNat <<< 21 ||| (ptIndex v).val <<< 12 ||| (v &&& 0xFFF))
  else
    let pml1 := mem (tableOf L e) (ptIndex v)
    if presentBit pml1 = false then none
    else some ((address pml1).toNat <<< 12 ||| (v &&& 0xFFF))

def directoryPath (v : ℕ) : List Index := [pdpIndex v, pml4Index v]

def translation (L : Layout) (mem : Memory) (root v : ℕ) : Option ℕ :=
  (tableAt (link L) mem root (directoryPath v)).bind fun t =>
    translateBelow L mem (mem t (pdIndex v)) v

theorem getPhysaddr_eq_translation : getPhysaddr L mem root v =
    if inKernel L v then u64 (subWord v L.kernelVirtual + L.kernelPhysical)
    else if inHHDM L v then subWord v L.hhdmStart else (translation L mem root v).getD 0 := by
  simp only [getPhysaddr, translation, directoryPath, tableAt, translateBelow, List.length_cons,
    List.length_nil, Option.bind_some]
  split
  · rfl
  split
  · rfl
  cases h₄ : presentBit (mem root (pml4Index v)) with
  | false => simp [link, h₄]
  | true =>
    cases h₃ : presentBit (mem _ (pdpIndex v)) with
    | false => simp [link, h₄, h₃]
    | true =>
      simp only [link, h₄, Bool.true_eq_false, if_false]
      grind

def SameTranslation (L : Layout) (root : ℕ) (m m' : Machine A) : Prop :=
  ∀ w < 2 ^ 64, translation L m'.memory root w = translation L m.memory root w ∧
    getPhysaddr L m'.memory root w = getPhysaddr L m.memory root w

theorem sameTranslation_iff : SameTranslation L root m m' ↔
    ∀ w < 2 ^ 64, translation L m'.memory root w = translation L m.memory root w := by
  refine ⟨fun h w hw => (h w hw).1, fun h w hw => ⟨h w hw, ?_⟩⟩
  rw [getPhysaddr_eq_translation, getPhysaddr_eq_translation, h w hw]

structure Alike (e e' : Entry) : Prop where
  present : presentBit e' = presentBit e
  pageSize : pageSizeBit e' = pageSizeBit e
  address : address e' = address e

def MemoryAlike (mem mem' : Memory) : Prop := ∀ t i, Alike (mem t i) (mem' t i)

theorem Alike.refl (e : Entry) : Alike e e := ⟨rfl, rfl, rfl⟩

theorem Alike.tableOf (h : Alike e e') : tableOf L e' = tableOf L e := by
  simp only [PageTables.tableOf, h.address]

theorem Alike.link (h : Alike e e') : link L d e' = link L d e := by
  simp only [PageTables.link, h.present, h.pageSize, h.tableOf]

theorem MemoryAlike.refl (mem : Memory) : MemoryAlike mem mem := fun _ _ => Alike.refl _

section

variable (h : MemoryAlike mem mem')

include h

theorem MemoryAlike.trans {mem''} (h' : MemoryAlike mem' mem'') : MemoryAlike mem mem'' := by
  intro t i
  obtain ⟨hp, hs, ha⟩ := h t i
  obtain ⟨hp', hs', ha'⟩ := h' t i
  exact ⟨hp'.trans hp, hs'.trans hs, ha'.trans ha⟩

theorem MemoryAlike.tableAt : RadixTable.tableAt (PageTables.link L) mem' root p =
      RadixTable.tableAt (PageTables.link L) mem root p := by
  induction p with
  | nil => rfl
  | cons i p ih =>
    simp only [RadixTable.tableAt, ih]
    congr 1
    funext a
    exact (h a i).link

theorem MemoryAlike.separate (hsep : Separate (link L) mem root) : Separate (link L) mem' root := by
  intro p q a hp hq
  rw [h.tableAt] at hp hq
  exact hsep p q a hp hq

theorem MemoryAlike.translateBelow (he : Alike e e') :
    translateBelow L mem' e' v = translateBelow L mem e v := by
  have hcell := h (PageTables.tableOf L e) (ptIndex v)
  simp only [PageTables.translateBelow, he.present, he.pageSize, he.tableOf, hcell.present,
    hcell.address, largeAddress_eq, he.address]

theorem MemoryAlike.translation : translation L mem' root v = translation L mem root v := by
  simp only [PageTables.translation, h.tableAt]
  congr 1
  funext t
  exact h.translateBelow (h t _)

end

theorem alike_write (h : Alike (mem t i) e) : MemoryAlike mem (write mem t i e) := by
  intro b j
  by_cases hb : b = t ∧ j = i
  · obtain ⟨rfl, rfl⟩ := hb
    rw [write_self]
    exact h
  · simp only [write, if_neg hb]
    exact Alike.refl _

theorem alike_or_upperFlags (hpresent : presentBit e) (hflag : flags.getLsbD 7 = false) :
    Alike e (e ||| upperFlags flags) := by
  refine ⟨?_, ?_, address_or_upperFlags⟩
  · rw [hpresent, presentBit, getLsbD_or_upperFlags (by decide)]
    simp [show e.getLsbD 0 = true from hpresent]
  · rw [pageSizeBit, getLsbD_or_upperFlags (by decide), hflag, Bool.or_false, pageSizeBit]

/-- A function changed flags on its way and rebuilt the entry at `(p, i)`, if there is a
table at that path. -/
def Rebuilt (L : Layout) (root : ℕ) (flags : BitVec 32) (m m' : Machine A) (p : List Index)
    (i : Index) : Prop := ∃ u : Machine A, MemoryAlike m.memory u.memory ∧
    (tableAt (link L) m.memory root p = none ∧ m' = u ∨
      ∃ t, tableAt (link L) m.memory root p = some t ∧
        m' = u.store t i (remappedEntry flags (u.memory t i)))

theorem tableAt_absent (hp : tableAt (link L) mem root p = some t)
    (h : presentBit (mem t i) = false) : tableAt (link L) mem root (i :: p) = none := by
  rw [tableAt_cons hp]
  exact link_absent h

theorem tableAt_below (h : tableAt (link L) mem root p = none) :
    tableAt (link L) mem root (i :: p) = none := by
  simp [tableAt, h]

theorem Rebuilt.of_alike {m₁} (ha : MemoryAlike m.memory m₁.memory)
    (h : Rebuilt L root flags m₁ m' p i) : Rebuilt L root flags m m' p i := by
  obtain ⟨u, hu, h⟩ := h
  refine ⟨u, ha.trans hu, ?_⟩
  rwa [ha.tableAt] at h

theorem rebuilt_absent (h : tableAt (link L) m.memory root p = none) :
    Rebuilt L root flags m m p i := ⟨m, .refl _, .inl ⟨h, rfl⟩⟩

theorem rebuilt_store (h : tableAt (link L) m.memory root p = some t) :
    Rebuilt L root flags m (m.store t i (remappedEntry flags (m.memory t i))) p i :=
  ⟨m, .refl _, .inr ⟨t, h, rfl⟩⟩

theorem store_upperFlags (hflag : flags.getLsbD 7 = false)
    (hp : tableAt (link L) m.memory root p = some t) (hd : p.length < 3)
    (hpresent : presentBit (m.memory t i)) :
    ∃ m₁, m₁ = m.store t i (m.memory t i ||| upperFlags flags) ∧ MemoryAlike m.memory m₁.memory ∧
      (¬ (p.length = 2 ∧ pageSizeBit (m.memory t i)) →
        tableAt (link L) m₁.memory root (i :: p) = some (tableOf L (m.memory t i))) := by
  have ha : MemoryAlike m.memory (m.store t i (m.memory t i ||| upperFlags flags)).memory :=
    alike_write (alike_or_upperFlags hpresent hflag)
  refine ⟨_, rfl, ha, fun hlarge => ?_⟩
  rw [ha.tableAt, tableAt_cons hp]
  exact link_eq_some hd hpresent hlarge

theorem remapLargePageNoflush_rebuilt (hflag : flags.getLsbD 7 = false) (m : Machine A) (v : ℕ) :
    Rebuilt L root flags m (remapLargePageNoflush L root v flags m) (directoryPath v)
      (pdIndex v) := by
  simp only [remapLargePageNoflush, pml4Index_clearLow, pdpIndex_clearLow, pdIndex_clearLow,
    le_refl]
  cases h₄ : presentBit (m.memory root (pml4Index v)) with
  | false => exact rebuilt_absent (tableAt_below (tableAt_absent rfl h₄))
  | true =>
    obtain ⟨m₁, hm₁, ha₁, ht₁⟩ := store_upperFlags (L := L) (p := []) hflag rfl (by simp) h₄
    have ht₁ := ht₁ (by simp)
    rw [← hm₁]
    apply Rebuilt.of_alike ha₁
    cases h₃ : presentBit (m₁.memory _ (pdpIndex v)) with
    | false => exact rebuilt_absent (tableAt_absent ht₁ h₃)
    | true =>
      obtain ⟨m₂, hm₂, ha₂, ht₂⟩ := store_upperFlags hflag ht₁ (by simp) h₃
      rw [← hm₂]
      exact Rebuilt.of_alike ha₂ (rebuilt_store (ht₂ (by simp)))

theorem remapPageNoflush_rebuilt (hflag : flags.getLsbD 7 = false) (m : Machine A) (v : ℕ) :
    Rebuilt L root flags m (remapPageNoflush L root v flags m) (tablePath v) (ptIndex v) := by
  simp only [remapPageNoflush, pml4Index_clearLow, pdpIndex_clearLow, pdIndex_clearLow,
    ptIndex_clearLow, Nat.reduceLeDiff]
  cases h₄ : presentBit (m.memory root (pml4Index v)) with
  | false => exact rebuilt_absent (tableAt_below (tableAt_below (tableAt_absent rfl h₄)))
  | true =>
    obtain ⟨m₁, hm₁, ha₁, ht₁⟩ := store_upperFlags (L := L) (p := []) hflag rfl (by simp) h₄
    have ht₁ := ht₁ (by simp)
    rw [← hm₁]
    apply Rebuilt.of_alike ha₁
    cases h₃ : presentBit (m₁.memory _ (pdpIndex v)) with
    | false => exact rebuilt_absent (tableAt_below (tableAt_absent ht₁ h₃))
    | true =>
      obtain ⟨m₂, hm₂, ha₂, ht₂⟩ := store_upperFlags hflag ht₁ (by simp) h₃
      have ht₂ := ht₂ (by simp)
      rw [← hm₂]
      apply Rebuilt.of_alike ha₂
      generalize tableOf L (m₁.memory _ (pdpIndex v)) = t₂ at ht₂ ⊢
      cases h₂ : presentBit (m₂.memory t₂ (pdIndex v)) with
      | false => exact rebuilt_absent (tableAt_absent ht₂ h₂)
      | true =>
        obtain ⟨m₃, hm₃, ha₃, ht₃⟩ := store_upperFlags hflag ht₂ (by simp) h₂
        rw [← hm₃]
        apply Rebuilt.of_alike ha₃
        cases hlarge : pageSizeBit (m₂.memory t₂ (pdIndex v)) with
        | true =>
          apply rebuilt_absent
          rw [ha₃.tableAt, tablePath, tableAt_cons ht₂]
          simp [link, hlarge]
        | false => exact rebuilt_store (ht₃ (by simp [hlarge]))

theorem translation_of_directory (hp : tableAt (link L) mem root (directoryPath v) = some t) :
    translation L mem root v = translateBelow L mem (mem t (pdIndex v)) v := by
  simp only [translation, hp, Option.bind_some]

theorem translateBelow_of_link (h : link L 2 e = some t) : translateBelow L mem e v =
    if presentBit (mem t (ptIndex v)) = false then none
    else some ((address (mem t (ptIndex v))).toNat <<< 12 ||| (v &&& 0xFFF)) := by
  obtain ⟨hpresent, hsmall, rfl⟩ := link_some h
  have hsmall : pageSizeBit e = false := by simpa using hsmall
  simp only [translateBelow, hpresent, hsmall, Bool.true_eq_false, Bool.false_eq_true, if_false]

theorem translation_of_table (hp : tableAt (link L) mem root (tablePath v) = some t) :
    translation L mem root v = if presentBit (mem t (ptIndex v)) = false then none
      else some ((address (mem t (ptIndex v))).toNat <<< 12 ||| (v &&& 0xFFF)) := by
  obtain ⟨t₂, hd, hlink⟩ := Option.bind_eq_some_iff.mp hp
  rw [translation_of_directory hd]
  exact translateBelow_of_link hlink

theorem translation_write_elsewhere (hsep : Separate (link L) mem root)
    (hp : tableAt (link L) mem root p = some t) (hs : ¬ i :: p <:+ directoryPath w)
    (hd : ¬ (directoryPath w = p ∧ pdIndex w = i)) (hl : ¬ (tablePath w = p ∧ ptIndex w = i)) :
    translation L (write mem t i e) root w = translation L mem root w := by
  have htable : tableAt (link L) (write mem t i e) root (directoryPath w) =
      tableAt (link L) mem root _ := tableAt_write_off hsep hp hs
  cases ht : tableAt (link L) mem root (directoryPath w) with
  | none => simp only [translation, htable, ht, Option.bind_none]
  | some t₂ =>
    have hentry : write mem t i e t₂ (pdIndex w) = mem t₂ (pdIndex w) :=
      write_elsewhere hsep hp ht hd
    rw [translation_of_directory ht, translation_of_directory (htable.trans ht), hentry]
    cases hlink : link L 2 (mem t₂ (pdIndex w)) with
    | none =>
      -- the entry is absent or a 2 MiB page, so no table is read
      have hstop : presentBit (mem t₂ (pdIndex w)) = false ∨ pageSizeBit (mem t₂ (pdIndex w)) := by
        by_contra hcon
        rw [not_or, Bool.not_eq_false, Bool.not_eq_true] at hcon
        rw [link_eq_some (by decide) hcon.1 (by simp [hcon.2])] at hlink
        cases hlink
      rcases hstop with h | h <;> simp [translateBelow, h]
    | some t₁ =>
      have ht₁ : tableAt (link L) mem root (tablePath w) = some t₁ := (tableAt_cons ht).trans hlink
      rw [translateBelow_of_link hlink, translateBelow_of_link hlink,
        write_elsewhere hsep hp ht₁ hl]

theorem remappedEntry_fields (hflag : flags.getLsbD 7 = false) (hset : flags.getLsbD 0) :
    presentBit (remappedEntry flags e) ∧ pageSizeBit (remappedEntry flags e) = false := by
  constructor
  · rw [presentBit, getLsbD_remappedEntry (by decide), hset]
  · rw [pageSizeBit, getLsbD_remappedEntry (by decide), hflag]

/-- If the walk reaches a table of the last level, the page is mapped there. -/
def PageClear (L : Layout) (mem : Memory) (root v : ℕ) : Prop :=
  ∀ t, tableAt (link L) mem root (tablePath v) = some t → presentBit (mem t (ptIndex v)) = true

theorem MemoryAlike.pageClear (h : MemoryAlike mem mem') :
    PageClear L mem' root v ↔ PageClear L mem root v := by
  simp only [PageClear, h.tableAt, (h _ _).present]

theorem rebuilt_leaf_iff (hsep : Separate (link L) mem root) (hv : v < 2 ^ 64)
    (hflag : flags.getLsbD 7 = false) (hset : flags.getLsbD 0)
    (hp : tableAt (link L) mem root (tablePath v) = some t) :
    (∀ w < 2 ^ 64, translation L (write mem t (ptIndex v) (remappedEntry flags
        (mem t (ptIndex v)))) root w = translation L mem root w) ↔
      presentBit (mem t (ptIndex v)) := by
  set e := mem t (ptIndex v) with he
  have hafter : tableAt (link L) (write mem t (ptIndex v) (remappedEntry flags e)) root
      (tablePath v) = some t := by
    rw [tableAt_write_off hsep hp (not_suffix_of_length (by simp))]
    exact hp
  -- the page itself is mapped afterwards, at the address that the entry held before
  have hpage : ∀ w, tablePath w = tablePath v → ptIndex w = ptIndex v →
      translation L (write mem t (ptIndex v) (remappedEntry flags e)) root w =
        some ((address e).toNat <<< 12 ||| (w &&& 0xFFF)) := by
    intro w hpath hpt
    rw [translation_of_table (hpath ▸ hafter), hpt, write_self, (remappedEntry_fields hflag hset).1,
      address_remappedEntry]
    rfl
  constructor
  · intro h
    have hmapped := (h v hv).symm.trans (hpage v rfl rfl)
    rw [translation_of_table hp] at hmapped
    by_contra habsent
    rw [← he, if_pos (by simpa using habsent)] at hmapped
    cases hmapped
  · intro hpresent w _
    by_cases hw : tablePath w = tablePath v ∧ ptIndex w = ptIndex v
    · rw [hpage w hw.1 hw.2, translation_of_table (hw.1 ▸ hp), hw.2, ← he, hpresent]
      rfl
    · exact translation_write_elsewhere hsep hp (not_suffix_of_length
        (by simp [directoryPath, tablePath])) (by simp [directoryPath, tablePath]) hw

def frameAt (mem : Memory) (t : ℕ) (i : Index) : Option ℕ :=
  if presentBit (mem t i) = false then none else some ((address (mem t i)).toNat <<< 12)

/-- What the page directory entry of `v` says about the 512 pages of its 2 MiB, read as an
entry that points to a table. An absent entry has to point to an empty table, other than the
page directory itself; a 2 MiB page to a table of its own 512 pages. -/
def LargeClear (L : Layout) (mem : Memory) (root v : ℕ) : Prop :=
  ∀ t, tableAt (link L) mem root (directoryPath v) = some t →
    (presentBit (mem t (pdIndex v)) = false → tableOf L (mem t (pdIndex v)) ≠ t ∧
        ∀ i, frameAt mem (tableOf L (mem t (pdIndex v))) i = none) ∧
    (presentBit (mem t (pdIndex v)) = true → pageSizeBit (mem t (pdIndex v)) = true →
      ∀ i, frameAt mem (tableOf L (mem t (pdIndex v))) i =
        some ((largeAddress (mem t (pdIndex v))).toNat <<< 21 ||| i.val <<< 12))

theorem MemoryAlike.frameAt (h : MemoryAlike mem mem') : frameAt mem' t i = frameAt mem t i := by
  simp only [PageTables.frameAt, (h t i).present, (h t i).address]

theorem MemoryAlike.largeClear (h : MemoryAlike mem mem') :
    LargeClear L mem' root v ↔ LargeClear L mem root v := by
  simp only [LargeClear, h.tableAt, (h _ _).present, (h _ _).pageSize, (h _ _).tableOf, h.frameAt,
    largeAddress_eq, (h _ _).address]

def pageOf (v : ℕ) (i : Index) : ℕ := clearLow 21 v + i.val * 0x1000

theorem pageOf_spec (hv : v < 2 ^ 64) (i : Index) : pageOf v i < 2 ^ 64 ∧
    tablePath (pageOf v i) = tablePath v ∧ ptIndex (pageOf v i) = i ∧ pageOf v i &&& 0xFFF = 0 := by
  have hclear : clearLow 21 v = v / 2 ^ 21 * 2 ^ 21 := by
    rw [clearLow, Nat.shiftRight_eq_div_pow, Nat.shiftLeft_eq]
  have hindex : ∀ shift, pageOf v i / 2 ^ shift % 512 = v / 2 ^ shift % 512 →
      tableIndex shift (pageOf v i) = tableIndex shift v := fun shift h => by
    apply Fin.ext
    rw [tableIndex_val, tableIndex_val, h]
  have hoff := Nat.and_two_pow_sub_one_eq_mod (pageOf v i) 12
  simp only [Nat.reducePow, Nat.add_one_sub_one] at hoff
  have hpage : pageOf v i = v / 2 ^ 21 * 2 ^ 21 + i.val * 0x1000 := by rw [pageOf, hclear]
  refine ⟨by omega, ?_, ?_, by omega⟩
  · simp only [tablePath, pdIndex, pdpIndex, pml4Index]
    rw [hindex 21 (by omega), hindex 30 (by omega), hindex 39 (by omega)]
  · apply Fin.ext
    rw [ptIndex, tableIndex_val]
    omega

/-- The frames of the 512 pages below an entry of the page directory. -/
def framesBelow (L : Layout) (mem : Memory) (e : Entry) (i : Index) : Option ℕ :=
  if presentBit e = false then none
  else if pageSizeBit e then some ((largeAddress e).toNat <<< 21 ||| i.val <<< 12)
  else frameAt mem (tableOf L e) i

theorem translateBelow_eq : translateBelow L mem e v =
    (framesBelow L mem e (ptIndex v)).map fun frame => frame ||| (v &&& 0xFFF) := by
  simp only [translateBelow, framesBelow, frameAt]
  split
  · rfl
  · split
    · rfl
    · split <;> rfl

theorem translateBelow_iff (hv : v < 2 ^ 64) :
    (∀ w < 2 ^ 64, tablePath w = tablePath v →
      translateBelow L mem' e' w = translateBelow L mem e w) ↔
      ∀ i, framesBelow L mem' e' i = framesBelow L mem e i := by
  constructor
  · intro h i
    obtain ⟨hlt, hpath, hpt, hoff⟩ := pageOf_spec hv i
    have hpage := h _ hlt hpath
    rw [translateBelow_eq, translateBelow_eq, hpt, hoff] at hpage
    simpa using hpage
  · intro h w _ _
    rw [translateBelow_eq, translateBelow_eq, h]

section Directory

variable (hflag : flags.getLsbD 7 = false) (hset : flags.getLsbD 0)

include hflag hset

theorem frameAt_rebuilt (t' : ℕ) (j : Index) :
    frameAt (write mem t i (remappedEntry flags (mem t i))) t' j =
      if t' = t ∧ j = i then some ((address (mem t i)).toNat <<< 12) else frameAt mem t' j := by
  by_cases h : t' = t ∧ j = i
  · obtain ⟨rfl, rfl⟩ := h
    rw [if_pos ⟨rfl, rfl⟩, frameAt, write_self, (remappedEntry_fields hflag hset).1,
      address_remappedEntry]
    rfl
  · rw [if_neg h]
    simp only [frameAt, write, if_neg h]

theorem frameAt_rebuilt_present (hpresent : presentBit (mem t i)) (t' : ℕ) (j : Index) :
    frameAt (write mem t i (remappedEntry flags (mem t i))) t' j = frameAt mem t' j := by
  rw [frameAt_rebuilt hflag hset]
  split
  · rename_i h
    rw [h.1, h.2, frameAt, hpresent]
    rfl
  · rfl

theorem framesBelow_rebuilt (mem : Memory) :
    framesBelow L mem (remappedEntry flags e) i = frameAt mem (tableOf L e) i := by
  obtain ⟨hpresent, hsmall⟩ := remappedEntry_fields (e := e) hflag hset
  simp only [framesBelow, hpresent, hsmall, tableOf, address_remappedEntry, Bool.true_eq_false,
    Bool.false_eq_true, if_false]

theorem framesBelow_iff (hp : tableAt (link L) mem root (directoryPath v) = some t) :
    (∀ i, framesBelow L (write mem t (pdIndex v) (remappedEntry flags (mem t (pdIndex v))))
        (remappedEntry flags (mem t (pdIndex v))) i = framesBelow L mem (mem t (pdIndex v)) i) ↔
      LargeClear L mem root v := by
  simp only [framesBelow_rebuilt hflag hset, LargeClear, hp, Option.some.injEq, forall_eq']
  cases hpresent : presentBit (mem t (pdIndex v)) with
  | false =>
    simp only [framesBelow, hpresent, if_true, forall_const, Bool.false_eq_true, false_imp_iff,
      and_true]
    constructor
    · intro h
      have hne : tableOf L (mem t (pdIndex v)) ≠ t := by
        intro heq
        have hself := h (pdIndex v)
        rw [frameAt_rebuilt hflag hset, if_pos ⟨heq, rfl⟩] at hself
        cases hself
      refine ⟨hne, fun i => ?_⟩
      have hi := h i
      rwa [frameAt_rebuilt hflag hset, if_neg fun hc => hne hc.1] at hi
    · rintro ⟨hne, h⟩ i
      rw [frameAt_rebuilt hflag hset, if_neg fun hc => hne hc.1, h i]
  | true =>
    simp only [frameAt_rebuilt_present hflag hset hpresent]
    cases hlarge : pageSizeBit (mem t (pdIndex v)) with
    | false => simp [framesBelow, hpresent, hlarge]
    | true => simp [framesBelow, hpresent, hlarge]

theorem rebuilt_directory_iff (hsep : Separate (link L) mem root) (hv : v < 2 ^ 64)
    (hp : tableAt (link L) mem root (directoryPath v) = some t) :
    (∀ w < 2 ^ 64, translation L (write mem t (pdIndex v) (remappedEntry flags
        (mem t (pdIndex v)))) root w = translation L mem root w) ↔ LargeClear L mem root v := by
  rw [← framesBelow_iff hflag hset hp, ← translateBelow_iff hv]
  have hafter : tableAt (link L) (write mem t (pdIndex v) (remappedEntry flags
      (mem t (pdIndex v)))) root (directoryPath v) = some t := by
    rw [tableAt_write_off hsep hp (not_suffix_of_length (by simp))]
    exact hp
  have hinside : ∀ w, tablePath w = tablePath v →
      translation L (write mem t (pdIndex v) (remappedEntry flags (mem t (pdIndex v)))) root w =
        translateBelow L (write mem t (pdIndex v) (remappedEntry flags (mem t (pdIndex v))))
          (remappedEntry flags (mem t (pdIndex v))) w ∧
      translation L mem root w = translateBelow L mem (mem t (pdIndex v)) w := by
    intro w hw
    obtain ⟨hpd, hdir⟩ := List.cons.inj hw
    have hdir : directoryPath w = directoryPath v := hdir
    rw [translation_of_directory (hdir ▸ hafter), translation_of_directory (hdir ▸ hp), hpd,
      write_self]
    exact ⟨rfl, rfl⟩
  constructor
  · intro h w hw hpath
    rw [← (hinside w hpath).1, ← (hinside w hpath).2]
    exact h w hw
  · intro h w hw
    by_cases hpath : tablePath w = tablePath v
    · rw [(hinside w hpath).1, (hinside w hpath).2]
      exact h w hw hpath
    · apply translation_write_elsewhere hsep hp
      · exact not_suffix_of_length (by simp [directoryPath])
      · exact fun hd => hpath (List.cons_eq_cons.mpr ⟨hd.2, hd.1⟩)
      · simp [directoryPath, tablePath]

end Directory

/-- A change of flags keeps the translation of every address exactly if the page is mapped,
or is reached by no table; for a 2 MiB page, if its entry points to a table, or might as
well do so. -/
theorem remapping_keeps_translation_iff (hsep : m.Separate L root) (hv : v < 2 ^ 64) (mode : Bool)
    (perms : PagePermissions) :
    (SameTranslation L root m (remapPageNoflush L root v (decodePageFlags mode perms) m) ↔
      PageClear L m.memory root v) ∧
    (SameTranslation L root m (remapLargePageNoflush L root v (decodePageFlags mode perms) m) ↔
      LargeClear L m.memory root v) := by
  have hflag := decodePageFlags_small mode perms
  have hset := decodePageFlags_present mode perms
  rw [sameTranslation_iff, sameTranslation_iff]
  constructor
  · obtain ⟨u, hu, ⟨hnone, hm⟩ | ⟨t, ht, hm⟩⟩ := remapPageNoflush_rebuilt (L := L) hflag m v
    · rw [hm]
      refine ⟨fun _ t ht => ?_, fun _ w _ => hu.translation⟩
      rw [hnone] at ht
      cases ht
    · have hiff := rebuilt_leaf_iff (hu.separate hsep) hv hflag hset (hu.tableAt.trans ht)
      have hclear : PageClear L m.memory root v ↔
          presentBit (u.memory t (ptIndex v)) = true := by
        rw [← hu.pageClear, PageClear, hu.tableAt, ht]
        simp
      rw [hclear, ← hiff, hm]
      simp only [hu.translation]
      rfl
  · obtain ⟨u, hu, ⟨hnone, hm⟩ | ⟨t, ht, hm⟩⟩ := remapLargePageNoflush_rebuilt (L := L) hflag m v
    · rw [hm]
      refine ⟨fun _ t ht => ?_, fun _ w _ => hu.translation⟩
      rw [hnone] at ht
      cases ht
    · rw [← hu.largeClear, ← rebuilt_directory_iff hflag hset (hu.separate hsep) hv
        (hu.tableAt.trans ht), hm]
      simp only [hu.translation]
      rfl

def onePage : Machine (List ℕ) := mapPageNoflush sampleLayout listSource sampleRoot 0x5000 0x400000
    (decodePageFlags true .readWrite) sampleMachine

def oneLargePage : Machine (List ℕ) :=
  mapLargePageNoflush sampleLayout listSource sampleRoot 0x600000 0x400000
    (decodePageFlags true .readWrite) sampleMachine

theorem remapping_keeps_translation_mapped :
    translation sampleLayout onePage.memory sampleRoot 0x400000 = some 0x5000 ∧
    SameTranslation sampleLayout sampleRoot onePage
      (remapPageNoflush sampleLayout sampleRoot 0x400000 (decodePageFlags true .read) onePage) := by
  have hsep : onePage.Separate sampleLayout sampleRoot :=
    mapPageNoflush_separate (empty_separate fun _ => rfl) (decodePageFlags_small true .readWrite)
      sample_ready 0x5000
  have htable : tableAt (link sampleLayout) onePage.memory sampleRoot (tablePath 0x400000) =
      some 0xFFFF800000003000 := by decide +kernel
  refine ⟨by decide +kernel, ?_⟩
  refine (remapping_keeps_translation_iff hsep (by decide) true .read).1.mpr fun t ht => ?_
  cases ht.symm.trans htable
  decide +kernel

/-- A page that is not mapped is mapped to the null frame, next to a page that is; a 2 MiB
page turns into a table. -/
theorem remapping_changes_translation :
    (translation sampleLayout onePage.memory sampleRoot 0x401008 = none ∧
      translation sampleLayout (remapPageNoflush sampleLayout sampleRoot 0x401008
        (decodePageFlags true .read) onePage).memory sampleRoot 0x401008 = some 8) ∧
    translation sampleLayout oneLargePage.memory sampleRoot 0x400000 = some 0x600000 ∧
      translation sampleLayout (remapLargePageNoflush sampleLayout sampleRoot 0x400000
        (decodePageFlags true .read) oneLargePage).memory sampleRoot 0x400000 = none := by
  decide +kernel

end PageTables
