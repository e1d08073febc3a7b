import Mathlib.Data.Finset.Card
import FrostyOS.FrameRuns
import FrostyOS.Remapping

/-! # Page tables that are given back

A table without present entries goes back to the frame allocator, by the address at which the
kernel sees it. -/
namespace TableReturn

open MachineWord RadixTable PageTables PhysicalPageFrameAllocator List Option

variable {A : Type*} {L : Layout} {m m' : Machine A} {root table : ℕ} {flags : BitVec 32} {v : ℕ}
  {p : List Index} {i : Index} {e : Entry} {a a' : PhysicalPageFrameAllocator}
  {F : List ℕ} {n : ℕ}

/-- The frame allocator of the kernel; `none` after the panic on an exhausted bitmap. -/
def frameSource : FrameSource (Option PhysicalPageFrameAllocator) where
  allocatePage a :=
    match a.bind allocatePage with
    | none => (0, none)
    | some (a, page) => (page, some a)
  freePage a page := a.map (·.freePage page)

/-- The frames that `n` calls of `AllocatePage` return. -/
def draw : ℕ → PhysicalPageFrameAllocator → Option (List ℕ × PhysicalPageFrameAllocator)
  | 0, a => some ([], a)
  | n + 1, a => do
    let (frames, a) ← draw n a
    let (a, page) ← a.allocatePage
    some (frames ++ [frame page], a)

structure Page where
  physaddr : ℕ
  virtualaddr : ℕ
  mode : Bool
  perms : PagePermissions

def mapPages (L : Layout) (root : ℕ) (pages : List Page)
    (m : Machine (Option PhysicalPageFrameAllocator)) :
    Machine (Option PhysicalPageFrameAllocator) :=
  pages.foldl (fun m q => mapPageNoflush L frameSource root q.physaddr q.virtualaddr
    (decodePageFlags q.mode q.perms) m) m

def unmapPages (L : Layout) (root : ℕ) (order : List ℕ)
    (m : Machine (Option PhysicalPageFrameAllocator)) :
    Machine (Option PhysicalPageFrameAllocator) :=
  order.foldl (fun m v => unmapPageNoflush L frameSource root v m) m

/-- Memory is laid out so that tables do not overlap: the free frames are seen at different
addresses, none of them at the root's. Frame 0 is never free, and entries have room for the
frame numbers. -/
structure Placed (L : Layout) (root : ℕ) (a : PhysicalPageFrameAllocator) : Prop where
  word : L.hhdmStart < 2 ^ 64
  hint : a.HintOk
  null : ¬ a.Free 0
  wide : a.bits ≤ 2 ^ 40
  distinct : ∀ f g, a.Free f → a.Free g → toHHDM L (f * pageSize) = toHHDM L (g * pageSize) → f = g
  root : ∀ f, a.Free f → toHHDM L (f * pageSize) ≠ root

/-- The frame that `FreePage` is told when the table in frame `f` goes back. -/
def returned (L : Layout) (f : ℕ) : ℕ := frame (toHHDM L (f * pageSize))

theorem draw_succ (h : draw n a = some (F, a')) :
    draw (n + 1) a = a'.allocatePage.map fun r => (F ++ [frame r.2], r.1) := by
  simp only [draw, h, bind_eq_bind, bind_some]
  cases a'.allocatePage <;> rfl

theorem draw_isSome_of_succ (h : (draw (n + 1) a).isSome) : (draw n a).isSome := by
  cases hd : draw n a with
  | none => simp [draw, hd] at h
  | some r => rfl

theorem draw_isSome_mono {k : ℕ} (hle : n ≤ k) (h : (draw k a).isSome) : (draw n a).isSome := by
  induction k with
  | zero =>
    obtain rfl : n = 0 := by omega
    exact h
  | succ k ih =>
    by_cases heq : n = k + 1
    · rw [heq]
      exact h
    · exact ih (by omega) (draw_isSome_of_succ h)

/-- What the allocator looks like after the frames `F` were drawn. -/
structure Drawn (a a' : PhysicalPageFrameAllocator) (F : List ℕ) : Prop where
  hint : a'.HintOk
  bits : a'.bits = a.bits
  free : ∀ f ∈ F, a.Free f
  rest : ∀ f, a'.Free f ↔ a.Free f ∧ f ∉ F

theorem draw_drawn (hint : a.HintOk) (h : draw n a = some (F, a')) : Drawn a a' F := by
  induction n generalizing F a' with
  | zero =>
    cases h
    exact ⟨hint, rfl, by simp, by simp⟩
  | succ n ih =>
    obtain ⟨⟨G, b⟩, hb⟩ := isSome_iff_exists.mp
      (draw_isSome_of_succ (isSome_of_eq_some h))
    have hD := ih hb
    rw [draw_succ hb] at h
    rcases allocatePage_spec hD.hint with ⟨hnone, -⟩ | ⟨c, page, hsome, hfree, hm, hhint⟩
    · simp [hnone] at h
    simp only [hsome, map_some, some.injEq, Prod.mk.injEq] at h
    obtain ⟨rfl, rfl⟩ := h
    refine ⟨hhint, hm.bits.trans hD.bits, fun f hf => ?_, fun f => ?_⟩
    · rcases mem_append.mp hf with hf | hf
      · exact hD.free f hf
      · rw [mem_singleton.mp hf]
        exact ((hD.rest _).mp hfree).1
    · rw [hm.free_iff, hD.rest, mem_append]
      tauto

/-- The frames that present upper entries point to. -/
def upperFrames (view : View Index Entry) : Set ℕ :=
  {f | ∃ p i e, p.length < 3 ∧ view p i = some e ∧ presentBit e = true ∧ (address e).toNat = f}

section UpperFrames

variable {view : View Index Entry} {e' : Entry}

theorem mem_upperFrames (hd : p.length < 3) (he : view p i = some e)
    (hpresent : presentBit e) : (address e).toNat ∈ upperFrames view :=
  ⟨p, i, e, hd, he, hpresent, rfl⟩

theorem upperFrames_set_leaf (hd : p.length = 3) :
    upperFrames (view.set p i e) = upperFrames view := by
  ext f
  refine exists_congr fun q => exists_congr fun j => exists_congr fun x => ?_
  refine and_congr_right fun hq => ?_
  rw [View.set_of_length_ne (by omega)]

theorem upperFrames_set (hd : p.length < 3) (hnew : presentBit e')
    (hold : view p i = some e) (hkeep : presentBit e → address e' = address e) :
    upperFrames (view.set p i e') = insert (address e').toNat (upperFrames view) := by
  ext f
  rw [Set.mem_insert_iff]
  constructor
  · rintro ⟨q, j, x, hq, hx, hpresent, rfl⟩
    rcases View.set_eq_some.mp hx with ⟨-, rfl⟩ | ⟨-, hx⟩
    · exact .inl rfl
    · exact .inr ⟨q, j, x, hq, hx, hpresent, rfl⟩
  · rintro (rfl | ⟨q, j, x, hq, hx, hpresent, rfl⟩)
    · exact ⟨p, i, e', hd, if_pos ⟨rfl, rfl⟩, hnew, rfl⟩
    · by_cases h : q = p ∧ j = i
      · obtain ⟨rfl, rfl⟩ := h
        cases hold.symm.trans hx
        exact ⟨q, j, e', hd, if_pos ⟨rfl, rfl⟩, hnew, by rw [hkeep hpresent]⟩
      · exact ⟨q, j, x, hq, (if_neg h).trans hx, hpresent, rfl⟩

theorem upperFrames_grow (hd : p.length < 3) (hnew : presentBit e')
    (hold : view p i = some e) (habsent : presentBit e = false)
    (hbelow : ∀ j, view (i :: p) j = none) :
    upperFrames (view.grow p i e' 0) = insert (address e').toNat (upperFrames view) := by
  rw [← upperFrames_set hd hnew hold (by simp [habsent])]
  ext f
  constructor
  · rintro ⟨q, j, x, hq, hx, hpresent, rfl⟩
    rcases View.grow_eq_some.mp hx with ⟨-, rfl⟩ | ⟨-, hx⟩
    · cases presentBit_zero.symm.trans hpresent
    · exact ⟨q, j, x, hq, hx, hpresent, rfl⟩
  · rintro ⟨q, j, x, hq, hx, hpresent, rfl⟩
    have h : q ≠ i :: p := by
      rintro rfl
      simp [View.set, hbelow] at hx
    exact ⟨q, j, x, hq, (if_neg h).trans hx, hpresent, rfl⟩

theorem upperFrames_cut (hd : p.length < 3) (hold : view p i = some e)
    (hpresent : presentBit e) (hdead : presentBit e' = false)
    (hbelow : ∀ q j, i :: p <:+ q → j :: q ∉ occupied presentBit view) :
    insert (address e).toNat (upperFrames (view.cut p i e')) = upperFrames view := by
  ext f
  rw [Set.mem_insert_iff]
  constructor
  · rintro (rfl | ⟨q, j, x, hq, hx, hx', rfl⟩)
    · exact mem_upperFrames hd hold hpresent
    · rcases View.set_eq_some.mp (View.cut_eq_some.mp hx).2 with ⟨-, rfl⟩ | ⟨-, hx⟩
      · cases hdead.symm.trans hx'
      · exact ⟨q, j, x, hq, hx, hx', rfl⟩
  · rintro ⟨q, j, x, hq, hx, hx', rfl⟩
    by_cases h : q = p ∧ j = i
    · obtain ⟨rfl, rfl⟩ := h
      exact .inl (by rw [some.inj (hold.symm.trans hx)])
    · have hs : ¬ i :: p <:+ q := fun hs => hbelow q j hs (cons_mem_occupied.mpr ⟨x, hx, hx'⟩)
      refine .inr ⟨q, j, x, hq, ?_, hx', rfl⟩
      exact View.cut_eq_some.mpr ⟨hs, View.set_eq_some.mpr (.inr ⟨h, hx⟩)⟩

end UpperFrames

/-- The paths in use and the frames of the tables; no entry is a 2 MiB page. -/
structure Tree (L : Layout) (root : ℕ) (m : Machine A) (X : Set (List Index)) (G : Set ℕ) :
    Prop where
  separate : m.Separate L root
  occupied : occupied presentBit (m.view L root) = X
  small : ∀ p i e, p.length < 3 → m.view L root p i = some e → pageSizeBit e = false
  frames : upperFrames (m.view L root) = G

section Tree

variable {X : Set (List Index)} {G : Set ℕ}

theorem tableOf_eq (e : Entry) : tableOf L e = toHHDM L ((address e).toNat * pageSize) := by
  rw [tableOf, Nat.shiftLeft_eq]
  rfl

section

variable (h : Tree L root m X G)

include h

theorem Tree.table_frame {t : ℕ} (ht : t ∈ m.tables L root) :
    t = root ∨ ∃ f ∈ G, t = toHHDM L (f * pageSize) := by
  obtain ⟨p, hp⟩ := ht
  cases p with
  | nil => exact .inl (some.inj hp).symm
  | cons i p =>
    rw [tableAt_eq_bind_view] at hp
    obtain ⟨e, he, hlink⟩ := bind_eq_some_iff.mp hp
    obtain ⟨hpresent, -, rfl⟩ := link_some hlink
    have hd : p.length < 3 := by
      by_contra hd
      simp [link, hd] at hlink
    refine .inr ⟨(address e).toNat, ?_, tableOf_eq e⟩
    rw [← h.frames]
    exact mem_upperFrames hd he hpresent

theorem Tree.occupied_iff (hp : m.tableAt L root p = some table) :
    i :: p ∈ X ↔ presentBit (m.memory table i) := by
  have hview : m.view L root p i = some (m.memory table i) := view_of_tableAt hp
  rw [← h.occupied, cons_mem_occupied, hview]
  simp

theorem Tree.enter (hE : Entered L root flags m m' p i e)
    (hd : p.length < 3) (hflag : flags.getLsbD 7 = false) :
    Tree L root m' (insert (i :: p) X) (insert (address e).toNat G) ∧ pageSizeBit e = false := by
  rcases hE.view with ⟨hview, hpresent, hset⟩ | ⟨old, b, hview, habsent, rfl, hgrow⟩
  · have halike := alike_or_upperFlags hpresent hflag
    have hsmall := h.small p i e hd hview
    refine ⟨⟨hE.separate, ?_, ?_, ?_⟩, hsmall⟩
    · rw [hset, occupied_set (halike.present.trans hpresent), h.occupied]
    · intro q j x hq hx
      rw [hset] at hx
      rcases View.set_eq_some.mp hx with ⟨-, rfl⟩ | ⟨-, hx⟩
      · rw [halike.pageSize, hsmall]
      · exact h.small q j x hq hx
    · rw [hset, upperFrames_set hd (halike.present.trans hpresent) hview fun _ => halike.address,
        halike.address, h.frames]
  · have hnew : presentBit (tableEntry flags b) := presentBit_tableEntry b
    have hbelow := view_below_none_of_absent hview habsent
    refine ⟨⟨hE.separate, ?_, ?_, ?_⟩, pageSizeBit_tableEntry b hflag⟩
    · rw [hgrow, occupied_grow hnew presentBit_zero hbelow, h.occupied]
    · intro q j x hq hx
      rw [hgrow] at hx
      rcases View.grow_eq_some.mp hx with ⟨-, rfl⟩ | ⟨-, hx⟩
      · decide
      · rcases View.set_eq_some.mp hx with ⟨-, rfl⟩ | ⟨-, hx⟩
        · exact pageSizeBit_tableEntry b hflag
        · exact h.small q j x hq hx
    · rw [hgrow, upperFrames_grow hd hnew hview habsent hbelow, h.frames]

theorem Tree.leaf (hp : m.tableAt L root p = some table) (hd : p.length = 3) :
    (presentBit e → Tree L root (m.store table i e) (insert (i :: p) X) G) ∧
      (presentBit e = false → Tree L root (m.store table i e) (X \ {i :: p}) G) := by
  obtain ⟨hsep, hview, -⟩ := store_view (i := i) (e := e) h.separate hp hd
  have hsmall : ∀ q j x, q.length < 3 → (m.store table i e).view L root q j = some x →
      pageSizeBit x = false := by
    intro q j x hq hx
    rw [hview, View.set_of_length_ne (by omega)] at hx
    exact h.small q j x hq hx
  have hframes : upperFrames ((m.store table i e).view L root) = G := by
    rw [hview, upperFrames_set_leaf hd, h.frames]
  refine ⟨fun hlive => ⟨hsep, ?_, hsmall, hframes⟩, fun hdead => ⟨hsep, ?_, hsmall, hframes⟩⟩
  · rw [hview, occupied_set hlive, h.occupied]
  · rw [hview, occupied_set_dead hdead, h.occupied]

end

end Tree

/-- The table paths `T` in use, each with a frame of its own drawn from `a`. -/
structure Growing (L : Layout) (root : ℕ) (a : PhysicalPageFrameAllocator)
    (m : Machine (Option PhysicalPageFrameAllocator)) (F : List ℕ) (T : Finset (List Index))
    (X : Set (List Index)) : Prop where
  tree : Tree L root m X {f | f ∈ F}
  tables : ∀ x, x ∈ T ↔ x ∈ X ∧ x.length ≤ 3
  supply : ∃ b, m.ppfa = some b ∧ draw T.card a = some (F, b)

section Growing

variable {m : Machine (Option PhysicalPageFrameAllocator)} {T : Finset (List Index)}
  {X : Set (List Index)}

theorem insert_tables (h : Growing L root a m F T X) {x} (hx : x.length ≤ 3) (y : List Index) :
    y ∈ insert x T ↔ y ∈ insert x X ∧ y.length ≤ 3 := by
  rw [Finset.mem_insert, Set.mem_insert_iff, h.tables]
  constructor
  · rintro (rfl | hy)
    · exact ⟨.inl rfl, hx⟩
    · exact ⟨.inr hy.1, hy.2⟩
  · rintro ⟨rfl | hy, hl⟩
    · exact .inl rfl
    · exact .inr ⟨hy, hl⟩

variable (L root table flags p i a m T X) in
/-- The tree has grown by the table to which the entry leads. -/
def EnterGrows : Prop :=
  ∃ m' e F', enter L frameSource flags m table i = (m', e) ∧
    Growing L root a m' F' (insert (i :: p) T) (insert (i :: p) X) ∧
    m'.tableAt L root (i :: p) = some (tableOf L e) ∧ pageSizeBit e = false

section Enter

variable (h : Growing L root a m F T X) (hp : m.tableAt L root p = some table)
  (hd : p.length < 3) (hflag : flags.getLsbD 7 = false)

include h hp hd hflag

theorem enter_present_growing (hpresent : presentBit (m.memory table i)) :
    EnterGrows L root table flags p i a m T X := by
  obtain ⟨b, hb, hdraw⟩ := h.supply
  obtain ⟨hE, -⟩ := store_flags_spec h.tree.separate hp hd hflag hpresent
  obtain ⟨htree, hsmall⟩ := h.tree.enter hE hd hflag
  have hlen : (i :: p).length ≤ 3 := hd
  have hmem := (h.tree.occupied_iff hp).mpr hpresent
  have hT : insert (i :: p) T = T := Finset.insert_eq_of_mem ((h.tables _).mpr ⟨hmem, hlen⟩)
  have hG : insert (address (m.memory table i)).toNat {f | f ∈ F} = {f | f ∈ F} := by
    apply Set.insert_eq_of_mem
    rw [← h.tree.frames]
    exact mem_upperFrames hd (view_of_tableAt hp) hpresent
  rw [hG] at htree
  refine ⟨_, _, F, ?_, ⟨htree, insert_tables h hlen, b, hb, by rwa [hT]⟩,
    hE.table (by simp [hsmall]), hsmall⟩
  simp only [enter, hpresent, Bool.true_eq_false, if_false]

omit hp hd hflag in
theorem free_notMem_tables (ha : Placed L root a) {b} (hD : Drawn a b F) {f : ℕ} (hf : b.Free f) :
    toHHDM L (f * pageSize) ∉ m.tables L root := by
  obtain ⟨hfree, hfresh⟩ := (hD.rest f).mp hf
  intro ht
  rcases h.tree.table_frame ht with hroot | ⟨g, hg, heq⟩
  · exact ha.root f hfree hroot
  · exact hfresh (ha.distinct f g hfree (hD.free g hg) heq ▸ hg)

theorem enter_absent_growing (ha : Placed L root a)
    (habsent : presentBit (m.memory table i) = false)
    (hsome : (draw (insert (i :: p) T).card a).isSome) :
    EnterGrows L root table flags p i a m T X := by
  obtain ⟨b, hb, hdraw⟩ := h.supply
  have hD := draw_drawn ha.hint hdraw
  have hnot : i :: p ∉ T := fun hmem => by
    have hpresent := (h.tree.occupied_iff hp).mp ((h.tables _).mp hmem).1
    rw [habsent] at hpresent
    cases hpresent
  rw [Finset.card_insert_of_notMem hnot, draw_succ hdraw, isSome_map] at hsome
  obtain ⟨⟨c, page⟩, hc⟩ := isSome_iff_exists.mp hsome
  have hfree : b.Free (frame page) := by
    rcases allocatePage_spec hD.hint with ⟨hnone, -⟩ | ⟨c', page', hc', hfree, -⟩
    · rw [hnone] at hc
      cases hc
    · cases hc'.symm.trans hc
      exact hfree
  have halign := allocatePage_aligned hc
  have hframe : frame page < 2 ^ 40 := by
    have hlt := hfree.1
    have hw := ha.wide
    have hbits := hD.bits
    omega
  have halloc : frameSource.allocatePage m.ppfa = (page, some c) := by simp [frameSource, hb, hc]
  have hfresh := free_notMem_tables h ha hD hfree
  rw [← halign] at hfresh
  obtain ⟨hE, -⟩ := enter_absent (S := frameSource) (i := i) h.tree.separate hp hd hflag habsent
    (by rw [halloc]; exact ⟨frame page, by rw [mul_comm]; exact halign⟩)
    (by rw [halloc]; unfold pageSize at halign; omega) (by rw [halloc]; exact hfresh)
  obtain ⟨htree, hsmall⟩ := h.tree.enter hE hd hflag
  have haddress : (address (enter L frameSource flags m table i).2).toNat = frame page := by
    simp only [enter, if_pos habsent, halloc, tableEntry, address_setAddress, BitVec.toNat_ofNat,
      Nat.shiftRight_eq_div_pow]
    exact Nat.mod_eq_of_lt hframe
  have hG : insert (frame page) {f | f ∈ F} = {f | f ∈ F ++ [frame page]} := by
    ext f
    simp [or_comm]
  rw [haddress, hG] at htree
  have hppfa : (enter L frameSource flags m table i).1.ppfa = some c := by
    rw [enter_absent_ppfa habsent, halloc]
  refine ⟨_, _, F ++ [frame page], rfl, ⟨htree, insert_tables h hd, c, hppfa, ?_⟩,
    hE.table (by simp [hsmall]), hsmall⟩
  rw [Finset.card_insert_of_notMem hnot, draw_succ hdraw, hc]
  rfl

theorem enter_growing (ha : Placed L root a) (hsome : (draw (insert (i :: p) T).card a).isSome) :
    EnterGrows L root table flags p i a m T X := by
  cases hpresent : presentBit (m.memory table i) with
  | true => exact enter_present_growing h hp hd hflag hpresent
  | false => exact enter_absent_growing h hp hd hflag ha hpresent hsome

end Enter

/-- The path of a page from its entry up to the root. -/
def pagePath (v : ℕ) : List Index := ptIndex v :: tablePath v

/-- The tables that a page needs, in addition to `T`. -/
def addTables (T : Finset (List Index)) (v : ℕ) : Finset (List Index) :=
  insert (tablePath v) (insert (directoryPath v) (insert [pml4Index v] T))

theorem mapPageNoflush_growing (ha : Placed L root a) {P} (h : Growing L root a m F T (suffixes P))
    (hflag : flags.getLsbD 7 = false) (hset : flags.getLsbD 0)
    (hsome : (draw (addTables T v).card a).isSome) (physaddr : ℕ) :
    ∃ F', Growing L root a (mapPageNoflush L frameSource root physaddr v flags m) F' (addTables T v)
      (suffixes (insert (pagePath v) P)) := by
  have hsub₂ : insert (directoryPath v) (insert [pml4Index v] T) ⊆ addTables T v :=
    Finset.subset_insert _ _
  have hsub₁ : insert [pml4Index v] T ⊆ addTables T v := (Finset.subset_insert _ _).trans hsub₂
  obtain ⟨m₁, e₄, F₁, hm₁, h₁, ht₁, -⟩ := enter_growing (p := []) (i := pml4Index v) h rfl
    (by simp) hflag ha (draw_isSome_mono (Finset.card_le_card hsub₁) hsome)
  obtain ⟨m₂, e₃, F₂, hm₂, h₂, ht₂, -⟩ := enter_growing (i := pdpIndex v) h₁ ht₁ (by simp) hflag ha
    (draw_isSome_mono (Finset.card_le_card hsub₂) hsome)
  obtain ⟨m₃, e₂, F₃, hm₃, h₃, ht₃, hsmall⟩ := enter_growing (i := pdIndex v) h₂ ht₂ (by simp)
    hflag ha hsome
  simp only [mapPageNoflush, pml4Index_clearLow, pdpIndex_clearLow, pdIndex_clearLow,
    ptIndex_clearLow, Nat.reduceLeDiff, hm₁, hm₂, hm₃, hsmall, Bool.false_eq_true, if_false]
  have hleaf : presentBit (leafEntry flags
      (BitVec.ofNat 40 (clearLow 12 physaddr >>> 12))) = true := by
    rw [presentBit, getLsbD_leafEntry _ (by decide), hset]
  have hX : suffixes (insert (pagePath v) P) = insert (pagePath v) (insert (tablePath v)
      (insert (directoryPath v) (insert [pml4Index v] (suffixes P)))) := by
    simp only [pagePath, tablePath, directoryPath, suffixes_insert_cons, suffixes_insert_nil]
  have htree := (h₃.tree.leaf (i := ptIndex v) ht₃ rfl).1 hleaf
  refine ⟨F₃, ⟨?_, fun x => ?_, h₃.supply⟩⟩
  · rw [hX]
    exact htree
  · refine (h₃.tables x).trans ?_
    rw [hX]
    constructor
    · exact fun hx => ⟨.inr hx.1, hx.2⟩
    · rintro ⟨rfl | hx, hl⟩
      · simp [pagePath, tablePath] at hl
      · exact ⟨hx, hl⟩

def tablesFor (pages : List Page) : Finset (List Index) :=
  pages.foldl (fun T q => addTables T q.virtualaddr) ∅

theorem subset_foldl_addTables (pages : List Page) (T : Finset (List Index)) :
    T ⊆ pages.foldl (fun T q => addTables T q.virtualaddr) T := by
  induction pages generalizing T with
  | nil => exact Finset.Subset.refl T
  | cons q pages ih =>
    have hstep : T ⊆ addTables T q.virtualaddr :=
      (Finset.subset_insert _ _).trans ((Finset.subset_insert _ _).trans (Finset.subset_insert _ _))
    exact hstep.trans (ih _)

theorem mapPages_growing (ha : Placed L root a) (pages : List Page) {P}
    (h : Growing L root a m F T (suffixes P))
    (hsome : (draw (pages.foldl (fun T q => addTables T q.virtualaddr) T).card a).isSome) :
    ∃ F', Growing L root a (mapPages L root pages m) F'
      (pages.foldl (fun T q => addTables T q.virtualaddr) T)
      (suffixes (P ∪ {x | ∃ q ∈ pages, x = pagePath q.virtualaddr})) := by
  induction pages generalizing m F T P with
  | nil =>
    refine ⟨F, ?_⟩
    simpa [mapPages] using h
  | cons q pages ih =>
    have hstep := draw_isSome_mono (Finset.card_le_card (subset_foldl_addTables pages _)) hsome
    obtain ⟨F₁, h₁⟩ := mapPageNoflush_growing ha h (decodePageFlags_small q.mode q.perms)
      (decodePageFlags_present q.mode q.perms) hstep q.physaddr
    obtain ⟨F', h'⟩ := ih h₁ hsome
    refine ⟨F', ?_⟩
    have hP : P ∪ {x | ∃ r ∈ q :: pages, x = pagePath r.virtualaddr} =
        insert (pagePath q.virtualaddr) P ∪ {x | ∃ r ∈ pages, x = pagePath r.virtualaddr} := by
      ext x
      simp only [mem_cons, exists_eq_or_imp, Set.mem_union, Set.mem_insert_iff, Set.mem_ofPred_eq]
      tauto
    rw [hP]
    exact h'

end Growing

structure Shrinking (L : Layout) (root : ℕ) (a : PhysicalPageFrameAllocator)
    (m : Machine (Option PhysicalPageFrameAllocator)) (F R : List ℕ) (X : Set (List Index)) :
    Prop where
  tree : Tree L root m X (upperFrames (m.view L root))
  frames : upperFrames (m.view L root) ∪ {f | f ∈ R} = {f | f ∈ F}
  supply : ∃ b, m.ppfa = some b ∧ Clears a b (R.map (returned L))

section Shrinking

variable {m : Machine (Option PhysicalPageFrameAllocator)} {R : List ℕ} {X : Set (List Index)}
  {P : Set (List Index)}

theorem union_append (G : Set ℕ) (R : List ℕ) (f : ℕ) :
    G ∪ {g | g ∈ R ++ [f]} = insert f G ∪ {g | g ∈ R} := by
  ext g
  simp only [Set.mem_union, Set.mem_insert_iff, Set.mem_ofPred_eq, mem_append, mem_singleton]
  tauto

section Release

variable (h : Shrinking L root a m F R X) (hp : m.tableAt L root p = some table)
  (hd : p.length < 3) (hmem : i :: p ∈ X)

include h hp hd hmem

theorem tableAt_occupied : presentBit (m.memory table i) ∧
    m.tableAt L root (i :: p) = some (tableOf L (m.memory table i)) := by
  have hpresent := (h.tree.occupied_iff hp).mp hmem
  have hsmall := h.tree.small p i _ hd (view_of_tableAt hp)
  exact ⟨hpresent, (tableAt_cons hp).trans (link_eq_some hd hpresent (by simp [hsmall]))⟩

theorem inUse_iff_continued :
    inUse m.memory (tableOf L (m.memory table i)) ↔ ∃ j, j :: i :: p ∈ X := by
  have ht := (tableAt_occupied h hp hd hmem).2
  simp only [h.tree.occupied_iff ht, inUse, List.any_eq_true, List.mem_finRange, true_and]

theorem releaseUnused_unused (hno : ¬ ∃ j, j :: i :: p ∈ X) :
    Shrinking L root a (releaseUnused L frameSource m table i) F
      (R ++ [(address (m.memory table i)).toNat]) (X \ {i :: p}) := by
  obtain ⟨hpresent, ht⟩ := tableAt_occupied h hp hd hmem
  have hview : m.view L root p i = some (m.memory table i) := view_of_tableAt hp
  have hdead : presentBit (clearPresent (m.memory table i)) = false := presentBit_clearPresent
  have hlink : link L p.length (clearPresent (m.memory table i)) = none := link_absent hdead
  have hcut := view_unlink h.tree.separate hp (i := i) hlink
  have hbelow : ∀ q j, i :: p <:+ q → j :: q ∉ occupied presentBit (m.view L root) := by
    intro q j hq
    rw [h.tree.occupied]
    by_cases heq : q = i :: p
    · rw [heq]
      exact fun hj => hno ⟨j, hj⟩
    have hnone : RadixTable.tableAt (link L) m.memory root q = none := by
      refine view_below_none (fun k x hx => ?_) hq heq
      have hk : presentBit (m.memory (tableOf L (m.memory table i)) k) ≠ true :=
        fun hk => hno ⟨k, (h.tree.occupied_iff ht).mpr hk⟩
      cases (view_of_tableAt ht).symm.trans hx
      exact link_absent (by simpa using hk)
    rw [← h.tree.occupied, cons_mem_occupied]
    rintro ⟨x, hx, -⟩
    cases (view_of_none hnone).symm.trans hx
  have hfalse : inUse m.memory (tableOf L (m.memory table i)) = false := by
    rw [← Bool.not_eq_true, inUse_iff_continued h hp hd hmem]
    exact hno
  obtain ⟨b, hb, hclears⟩ := h.supply
  simp only [releaseUnused, hfalse, Bool.false_eq_true, if_false]
  generalize hm' : Machine.store ⟨m.memory, frameSource.freePage m.ppfa (tableOf L
    (m.memory table i))⟩ table i _ = m'
  have hview' : m'.view L root = (m.view L root).cut p i (clearPresent (m.memory table i)) := by
    rw [← hm']
    exact hcut
  have hupper := upperFrames_cut hd hview hpresent hdead hbelow
  refine ⟨⟨?_, ?_, fun q j x hq hx => ?_, rfl⟩, ?_, b.freePage (tableOf L (m.memory table i)),
    ?_, ?_⟩
  · rw [← hm']
    exact separate_unlink h.tree.separate hp hlink
  · rw [hview', occupied_cut hdead hbelow, h.tree.occupied]
  · rw [hview'] at hx
    rcases View.set_eq_some.mp (View.cut_eq_some.mp hx).2 with ⟨-, rfl⟩ | ⟨-, hx⟩
    · have hsmall := h.tree.small p i _ hd hview
      simpa [pageSizeBit, clearPresent] using hsmall
    · exact h.tree.small q j x hq hx
  · rw [← h.frames, ← hupper, hview', union_append]
  · have hfree : m'.ppfa = frameSource.freePage m.ppfa (tableOf L (m.memory table i)) := by
      rw [← hm']
      rfl
    rw [hfree, hb]
    rfl
  · have hone := freePage_clears b (tableOf L (m.memory table i))
    have hframe : frame (tableOf L (m.memory table i)) =
        returned L (address (m.memory table i)).toNat := by
      rw [tableOf_eq]
      rfl
    rw [hframe] at hone
    have hall := hclears.trans hone
    rwa [← map_singleton, ← map_append] at hall

end Release

theorem releaseUnused_suffixes (hP : ∀ u ∈ P, u.length = 4)
    (h : Shrinking L root a m F R (suffixes (insert (i :: p) P)))
    (hp : m.tableAt L root p = some table) (hd : p.length < 3) :
    ∃ R', Shrinking L root a (releaseUnused L frameSource m table i) F R'
      (suffixes (insert p P)) := by
  have hmem : i :: p ∈ suffixes (insert (i :: p) P) :=
    ⟨by simp, i :: p, Set.mem_insert _ _, suffix_rfl⟩
  obtain ⟨hcont, hgone⟩ := suffixes_release (i := i) (x := p) hP (by simp; omega)
  by_cases hj : ∃ j, j :: i :: p ∈ suffixes (insert (i :: p) P)
  · have huse := (inUse_iff_continued h hp hd hmem).mpr hj
    have hsame : releaseUnused L frameSource m table i = m := by
      simp only [releaseUnused, huse, if_true]
    rw [hsame, ← hcont hj]
    exact ⟨R, h⟩
  · rw [← hgone hj]
    exact ⟨_, releaseUnused_unused h hp hd hmem hj⟩

theorem suffixes_without (hP : ∀ u ∈ P, u.length = 4) (hmem : tablePath v ∈ suffixes P) :
    suffixes P \ {pagePath v} = suffixes (insert (tablePath v) (P \ {pagePath v})) := by
  ext x
  rw [Set.mem_sdiff, Set.mem_singleton_iff]
  constructor
  · rintro ⟨⟨hne, u, hu, hs⟩, hx⟩
    by_cases heq : u = pagePath v
    · subst heq
      rcases suffix_cons_iff.mp hs with rfl | hs
      · exact absurd rfl hx
      · exact ⟨hne, tablePath v, Set.mem_insert _ _, hs⟩
    · exact ⟨hne, u, Set.mem_insert_of_mem _ ⟨hu, heq⟩, hs⟩
  · rintro ⟨hne, u, rfl | ⟨hu, hnot⟩, hs⟩
    · obtain ⟨-, w, hw, hs'⟩ := hmem
      refine ⟨⟨hne, w, hw, hs.trans hs'⟩, ?_⟩
      rintro rfl
      exact absurd hs.length_le (by simp [pagePath])
    · refine ⟨⟨hne, u, hu, hs⟩, ?_⟩
      rintro rfl
      exact hnot (hs.eq_of_length (by rw [hP u hu]; rfl)).symm

theorem store_zero_shrinking (h : Shrinking L root a m F R X)
    (hp : m.tableAt L root p = some table) (hd : p.length = 3) :
    Shrinking L root a (m.store table i 0) F R (X \ {i :: p}) ∧
      ∀ q, (m.store table i 0).tableAt L root q = m.tableAt L root q := by
  have htree := (h.tree.leaf (i := i) hp hd).2 presentBit_zero
  obtain ⟨-, -, hkeep⟩ := store_view (i := i) (e := 0) h.tree.separate hp hd
  refine ⟨⟨⟨htree.separate, htree.occupied, htree.small, rfl⟩, ?_, h.supply⟩, hkeep⟩
  rw [htree.frames]
  exact h.frames

theorem unmapPageNoflush_shrinking (hP : ∀ u ∈ P, u.length = 4)
    (h : Shrinking L root a m F R (suffixes P)) (v : ℕ) :
    ∃ R', Shrinking L root a (unmapPageNoflush L frameSource root v m) F R'
      (suffixes (P \ {pagePath v})) := by
  have hP' : ∀ u ∈ P \ {pagePath v}, u.length = 4 := fun u hu => hP u hu.1
  rcases unmapPageNoflush_cases L frameSource root m v with
    ⟨hsame, hnone⟩ | ⟨t₃, t₂, t₁, ht₃, ht₂, ht₁, heq⟩
  · -- without a table for it the page is not mapped
    have hnot : pagePath v ∉ P := by
      intro hmem
      have hocc : pagePath v ∈ suffixes P := ⟨by simp [pagePath], _, hmem, suffix_rfl⟩
      rw [← h.tree.occupied, pagePath, cons_mem_occupied] at hocc
      obtain ⟨x, hx, -⟩ := hocc
      cases (view_of_none hnone).symm.trans hx
    rw [hsame, Set.sdiff_singleton_eq_self hnot]
    exact ⟨R, h⟩
  · have htable : tablePath v ∈ suffixes P := by
      have hpresent := (link_some ((tableAt_cons ht₂).symm.trans ht₁)).1
      exact (h.tree.occupied_iff ht₂).mpr hpresent
    obtain ⟨h₀, hkeep⟩ := store_zero_shrinking (i := ptIndex v) h ht₁ rfl
    rw [show ptIndex v :: tablePath v = pagePath v from rfl, suffixes_without hP htable] at h₀
    have ht₂₀ := (hkeep _).trans ht₂
    have hkeep₁ := (releaseUnused_spec (S := frameSource) (i := pdIndex v) h₀.tree.separate
      ht₂₀).tableAt
    obtain ⟨R₁, h₁⟩ := releaseUnused_suffixes (i := pdIndex v) hP' h₀ ht₂₀ (by simp)
    have ht₃₁ := (hkeep₁ _ (not_suffix_of_length (by simp))).trans ((hkeep _).trans ht₃)
    obtain ⟨R₂, h₂⟩ := releaseUnused_suffixes (i := pdpIndex v) hP' h₁ ht₃₁ (by simp)
    obtain ⟨R₃, h₃⟩ := releaseUnused_suffixes (i := pml4Index v) (p := []) hP' h₂ rfl (by simp)
    rw [suffixes_insert_nil] at h₃
    rw [heq]
    exact ⟨R₃, h₃⟩

theorem unmapPages_shrinking (order : List ℕ) (hP : ∀ u ∈ P, u.length = 4)
    (h : Shrinking L root a m F R (suffixes P)) :
    ∃ R', Shrinking L root a (unmapPages L root order m) F R'
      (suffixes (P \ {x | ∃ v ∈ order, x = pagePath v})) := by
  induction order generalizing m R P with
  | nil =>
    refine ⟨R, ?_⟩
    simpa [unmapPages] using h
  | cons v order ih =>
    obtain ⟨R₁, h₁⟩ := unmapPageNoflush_shrinking hP h v
    obtain ⟨R', h'⟩ := ih (fun u hu => hP u hu.1) h₁
    refine ⟨R', ?_⟩
    have hdiff : P \ {x | ∃ w ∈ v :: order, x = pagePath w} =
        (P \ {pagePath v}) \ {x | ∃ w ∈ order, x = pagePath w} := by
      ext x
      simp only [mem_cons, exists_eq_or_imp, Set.mem_sdiff, Set.mem_singleton_iff,
        Set.mem_ofPred_eq, not_or, and_assoc]
    rw [hdiff]
    exact h'

end Shrinking

theorem growing_empty {mem} (hempty : ∀ i, mem root i = 0) :
    Growing L root a ⟨mem, some a⟩ [] ∅ (suffixes ∅) := by
  have hview : ∀ p i e, Machine.view L root ⟨mem, some a⟩ p i = some e → presentBit e = false ∧
      pageSizeBit e = false := by
    intro p i e he
    rw [empty_view (m := ⟨mem, some a⟩) hempty he]
    decide
  refine ⟨⟨empty_separate hempty, ?_, fun p i e _ he => (hview p i e he).2, ?_⟩, ?_, a, rfl, rfl⟩
  · ext x
    simp only [suffixes, Set.mem_empty_iff_false, false_and, exists_false, and_false,
      Set.mem_ofPred_eq, iff_false]
    rintro ⟨p, i, e, -, he, hpresent⟩
    rw [(hview p i e he).1] at hpresent
    cases hpresent
  · ext f
    simp only [not_mem_nil, Set.mem_ofPred_eq, iff_false]
    rintro ⟨p, i, e, -, he, hpresent, -⟩
    rw [(hview p i e he).1] at hpresent
    cases hpresent
  · simp [suffixes]

theorem upperFrames_unoccupied {view} (h : occupied presentBit view = ∅) :
    upperFrames view = ∅ := by
  apply Set.eq_empty_of_forall_notMem
  rintro f ⟨p, i, e, -, he, hpresent, -⟩
  have hmem : i :: p ∈ occupied presentBit view := cons_mem_occupied.mpr ⟨e, he, hpresent⟩
  rw [h] at hmem
  exact hmem

/-- The allocator after all pages are unmapped again: every frame that was drawn for a table
was passed to `FreePage`, under the address at which the kernel sees it. -/
theorem tables_go_back (ha : Placed L root a) {mem} (hempty : ∀ i, mem root i = 0) {pages order}
    (horder : ∀ q ∈ pages, q.virtualaddr ∈ order)
    (hdraw : draw (tablesFor pages).card a = some (F, a')) :
    ∃ b, (unmapPages L root order (mapPages L root pages ⟨mem, some a⟩)).ppfa = some b ∧
      ∀ f, b.Free f ↔ f < a.bits ∧ (a.Free f ∧ f ∉ F ∨ ∃ g ∈ F, returned L g = f) := by
  have hD := draw_drawn ha.hint hdraw
  obtain ⟨F₁, hg⟩ := mapPages_growing ha pages (growing_empty hempty)
    (Option.isSome_of_eq_some hdraw)
  obtain ⟨c, hc, hdraw₁⟩ := hg.supply
  obtain ⟨rfl, rfl⟩ := Prod.mk.inj (some.inj (hdraw₁.symm.trans hdraw))
  have hstart : Shrinking L root c (mapPages L root pages ⟨mem, some a⟩) F₁ [] _ :=
    ⟨⟨hg.tree.separate, hg.tree.occupied, hg.tree.small, rfl⟩, by simp [hg.tree.frames], c, hc,
      Clears.refl c⟩
  have hlen : ∀ u ∈ ∅ ∪ {x | ∃ q ∈ pages, x = pagePath q.virtualaddr}, u.length = 4 := by
    rintro u (hu | ⟨q, -, rfl⟩)
    · exact hu.elim
    · rfl
  obtain ⟨R, hend⟩ := unmapPages_shrinking order hlen hstart
  have hnothing : (∅ ∪ {x | ∃ q ∈ pages, x = pagePath q.virtualaddr}) \
      {x | ∃ v ∈ order, x = pagePath v} = ∅ := by
    apply Set.eq_empty_of_forall_notMem
    rintro x ⟨hx | ⟨q, hq, rfl⟩, hout⟩
    · exact hx
    · exact hout ⟨_, horder q hq, rfl⟩
  have hoccupied := hend.tree.occupied
  rw [hnothing] at hoccupied
  have hempty' := upperFrames_unoccupied (hoccupied.trans (by simp [suffixes]))
  have hR := hend.frames
  rw [hempty', Set.empty_union] at hR
  obtain ⟨b, hb, hclears⟩ := hend.supply
  refine ⟨b, hb, fun f => ?_⟩
  rw [hclears.free_iff, hD.bits, hD.rest, List.mem_map]
  have hmem : ∀ g, g ∈ R ↔ g ∈ F₁ := fun g => Set.ext_iff.mp hR g
  simp only [hmem]

theorem returned_low {f : ℕ} (hpos : 0 < f) (hlow : f < 2 ^ 27) :
    returned L f = (f + L.hhdmStart / pageSize) % 2 ^ 52 := by
  unfold returned toHHDM gib frame u64 pageSize
  split
  · omega
  · split
    · omega
    · omega

theorem returned_high {f : ℕ} (hhigh : 2 ^ 27 ≤ f) : returned L f = f := by
  unfold returned toHHDM gib frame pageSize
  split
  · omega
  · split
    · omega
    · omega

theorem not_closed_under_shift {S : ℕ → Prop} {c : ℕ} (hc : 0 < c) (hlt : c < 2 ^ 52)
    (hlow : ∀ f, S f → f < 2 ^ 27) (hback : ∀ f, S f → ∃ g, S g ∧ (g + c) % 2 ^ 52 = f) (f : ℕ) :
    ¬ S f := by
  by_cases hsmall : c < 2 ^ 52 - 2 ^ 27
  · -- no frame wraps, so each comes from a smaller one
    induction f using Nat.strong_induction_on with
    | _ f ih =>
      intro hf
      obtain ⟨g, hg, heq⟩ := hback f hf
      have := hlow g hg
      exact ih g (by omega) hg
  · -- a frame that does not wrap lands far above 512 GiB, so each comes from a larger one
    induction hk : 2 ^ 27 - f using Nat.strong_induction_on generalizing f with
    | _ k ih =>
      intro hf
      obtain ⟨g, hg, heq⟩ := hback f hf
      have hfl := hlow f hf
      exact ih (2 ^ 27 - g) (by omega) g rfl hg

theorem returned_iff (ha : Placed L root a) (hF : ∀ f ∈ F, a.Free f) :
    (∀ f, f < a.bits ∧ (a.Free f ∧ f ∉ F ∨ ∃ g ∈ F, returned L g = f) ↔ a.Free f) ↔
      L.hhdmStart < pageSize ∨ ∀ f ∈ F, 2 ^ 27 ≤ f := by
  have hpos : ∀ f ∈ F, 0 < f := fun f hf => Nat.pos_of_ne_zero fun h0 => ha.null (h0 ▸ hF f hf)
  have hword := ha.word
  constructor
  · intro h
    by_contra hcon
    obtain ⟨hstart, hlow⟩ := not_or.mp hcon
    push Not at hlow
    obtain ⟨f, hf, hlt⟩ := hlow
    -- a frame below 512 GiB is free again only if another such frame was returned in its place
    have hback : ∀ f, f ∈ F ∧ f < 2 ^ 27 → ∃ g, (g ∈ F ∧ g < 2 ^ 27) ∧
        (g + L.hhdmStart / pageSize) % 2 ^ 52 = f := by
      rintro f ⟨hf, hlt⟩
      obtain ⟨-, ⟨-, hout⟩ | ⟨g, hg, heq⟩⟩ := (h f).mpr (hF f hf)
      · exact absurd hf hout
      have hgl : g < 2 ^ 27 := by
        by_contra hhigh
        rw [returned_high (by omega)] at heq
        omega
      exact ⟨g, ⟨hg, hgl⟩, (returned_low (hpos g hg) hgl).symm.trans heq⟩
    refine not_closed_under_shift ?_ ?_ (fun f hf => hf.2) hback f ⟨hf, hlt⟩
    · unfold pageSize at *
      omega
    · unfold pageSize at *
      omega
  · intro hclear f
    have hself : ∀ g ∈ F, returned L g = g := by
      intro g hg
      by_cases hhigh : 2 ^ 27 ≤ g
      · exact returned_high hhigh
      rw [returned_low (hpos g hg) (by omega)]
      rcases hclear with hstart | hall
      · unfold pageSize at *
        omega
      · exact absurd (hall g hg) hhigh
    constructor
    · rintro ⟨-, ⟨hf, -⟩ | ⟨g, hg, rfl⟩⟩
      · exact hf
      · rw [hself g hg]
        exact hF g hg
    · intro hf
      refine ⟨hf.1, ?_⟩
      by_cases hmem : f ∈ F
      · exact .inr ⟨f, hmem, hself f hmem⟩
      · exact .inl ⟨hf, hmem⟩

/-- Pages are mapped into an empty root and unmapped in any order: the same frames are free
as before exactly if the direct map starts in the first page, or all tables were in frames
that are not in the direct map. -/
theorem tables_given_back_iff (ha : Placed L root a) (mem : Memory)
    (hempty : ∀ i, mem root i = 0) (pages : List Page) (order : List ℕ)
    (horder : ∀ q ∈ pages, q.virtualaddr ∈ order)
    (hdraw : draw (tablesFor pages).card a = some (F, a')) :
    ∃ b, (unmapPages L root order (mapPages L root pages ⟨mem, some a⟩)).ppfa = some b ∧
      ((∀ f, b.Free f ↔ a.Free f) ↔ L.hhdmStart < pageSize ∨ ∀ f ∈ F, 2 ^ 27 ≤ f) := by
  obtain ⟨b, hb, hfree⟩ := tables_go_back ha hempty horder hdraw
  refine ⟨b, hb, ?_⟩
  rw [← returned_iff ha (draw_drawn ha.hint hdraw).free]
  simp only [hfree]

def sevenFrames : PhysicalPageFrameAllocator :=
  FrameRuns.smallAllocator 1 (by decide) 0b10000000#8 0#8

def onePageAt (v : ℕ) : List Page := [⟨0x5000, v, true, .readWrite⟩]

theorem sevenFrames_placed (hhdmStart : ℕ)
    (hstart : hhdmStart = 0 ∨ hhdmStart = 0xFFFF800000000000) :
    Placed { sampleLayout with hhdmStart } sampleRoot sevenFrames := by
  have hbits : sevenFrames.bits = 8 := by decide
  have hnull : ¬ sevenFrames.Free 0 := by
    rintro ⟨-, h⟩
    revert h
    decide
  have hpos : ∀ f, sevenFrames.Free f → 0 < f ∧ f < 8 := by
    intro f hf
    have hlt := hf.1
    rw [hbits] at hlt
    exact ⟨Nat.pos_of_ne_zero fun h => hnull (h ▸ hf), hlt⟩
  have haddress : ∀ f, sevenFrames.Free f →
      toHHDM { sampleLayout with hhdmStart } (f * pageSize) = f * pageSize + hhdmStart := by
    intro f hf
    have := hpos f hf
    unfold toHHDM gib u64 pageSize
    rw [if_neg (by omega), if_neg (by omega)]
    dsimp only
    omega
  refine ⟨?_, .inl rfl, hnull, ?_, fun f g hf hg h => ?_, fun f hf => ?_⟩
  · dsimp only
    omega
  · rw [hbits]
    decide
  · rw [haddress f hf, haddress g hg] at h
    unfold pageSize at h
    omega
  · have := hpos f hf
    rw [haddress f hf]
    unfold pageSize sampleRoot
    omega

theorem tables_given_back_identity :
    ∃ b, (unmapPages { sampleLayout with hhdmStart := 0 } sampleRoot [0x400000]
        (mapPages { sampleLayout with hhdmStart := 0 } sampleRoot (onePageAt 0x400000)
          ⟨fun _ _ => 0, some sevenFrames⟩)).ppfa = some b ∧
      ∀ f, b.Free f ↔ sevenFrames.Free f := by
  have hdraw : ((draw (tablesFor (onePageAt 0x400000)).card sevenFrames).map Prod.fst) =
      some [1, 2, 3] := by decide +kernel
  obtain ⟨⟨F, c⟩, hF, -⟩ := map_eq_some_iff.mp hdraw
  obtain ⟨b, hb, hiff⟩ := tables_given_back_iff (sevenFrames_placed 0 (.inl rfl))
    (fun _ _ => 0) (fun _ => rfl) _ [0x400000] (by simp [onePageAt]) hF
  exact ⟨b, hb, hiff.mpr (.inl (by decide))⟩

/-- With the direct map at its usual place, frame 1 is not free any more after a page was
mapped and unmapped. -/
theorem table_frames_leak :
    (sevenFrames.bitmap.get 1 = false) ∧ (unmapPages sampleLayout sampleRoot [0x400000]
        (mapPages sampleLayout sampleRoot (onePageAt 0x400000)
          ⟨fun _ _ => 0, some sevenFrames⟩)).ppfa.map (fun b => b.bitmap.get 1) = some true := by
  decide +kernel

end TableReturn
