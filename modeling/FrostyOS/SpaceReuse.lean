import FrostyOS.PageRuns

/-! # Virtual space after a release

Nothing joins a released block with its free neighbours; an allocation looks for one block
that is long enough. -/
namespace SpaceReuse

open MachineWord OrderedMap BlockPool VirtualPageManager PageRuns

variable {F U : Type} {TF : Ops F (List ℕ)} {TU : Ops U ℕ} {IF : F → Prop} {IU : U → Prop}
  {s s' : VirtualPageManager F U} {addr count : ℕ} {r : Option ℕ}

inductive Call where
  | allocatePages (count : ℕ)
  | allocatePagesAt (addr count : ℕ)
  | unallocatePages (addr count : ℕ)
  deriving DecidableEq, Repr

/-- Addresses are words, and a request for a place has a length that is one too. -/
inductive Step (TF : Ops F (List ℕ)) (TU : Ops U ℕ) (s : VirtualPageManager F U) :
    Call → VirtualPageManager F U → Prop where
  | allocatePages (count : ℕ) (s' : VirtualPageManager F U) (r : Option ℕ)
      (h : s.allocatePages TF TU count = some (s', r)) : Step TF TU s (.allocatePages count) s'
  | allocatePagesAt (addr count : ℕ) (s' : VirtualPageManager F U) (r : Option ℕ)
      (ha : addr < 2 ^ 64) (hc : count < 2 ^ 52)
      (h : s.allocatePagesAt TF TU addr count = some (s', r)) :
      Step TF TU s (.allocatePagesAt addr count) s'
  | unallocatePages (addr count : ℕ) :
      Step TF TU s (.unallocatePages addr count) (s.unallocatePages TF TU addr count)

/-- Runs over an interval of the address space behind the null address, whose calls all
meet a condition. -/
inductive Run (TF : Ops F (List ℕ)) (TU : Ops U ℕ) (C : VirtualPageManager F U → Call → Prop) :
    VirtualPageManager F U → Prop where
  | init (region : VirtualRegion) (hs : region.Straight) (h0 : 0 < region.start) :
      Run TF TU C (initVPageMgr TF TU region)
  | step {s s' : VirtualPageManager F U} {c : Call} (hr : Run TF TU C s) (hc : C s c)
      (h : Step TF TU s c s') : Run TF TU C s'

/-- The region contains `count` contiguous pages that are part of no live allocation. -/
def Room (TU : Ops U ℕ) (s : VirtualPageManager F U) (count : ℕ) : Prop :=
  ∃ a, Unused pageSize s.region.start s.region.endAddr (usedBlocks TU s.reservedANDUsedPages) a
    count

/-- `AllocatePages(count)` returns a pointer other than null. -/
def Serves (TF : Ops F (List ℕ)) (TU : Ops U ℕ) (s : VirtualPageManager F U) (count : ℕ) : Prop :=
  ∃ s' r, s.allocatePages TF TU count = some (s', r) ∧ pointer r ≠ 0

/-- Free blocks that adjoin one another have `count` pages together, and no free block has
as many. -/
def Fragmented (TF : Ops F (List ℕ)) (s : VirtualPageManager F U) (count : ℕ) : Prop :=
  (∀ b ∈ freeBlocks TF s.freePagesSizeTree, b.2 < count) ∧
    ∃ a n, Row pageSize (freeBlocks TF s.freePagesSizeTree) a n ∧ count ≤ n

/-- The free blocks next to the range, on either side. -/
def Neighbour (b : Block) (a n : ℕ) : Prop := stop pageSize b = a ∨ b.1 = a + n * pageSize

/-- Allocations are left to the manager, and no block is released next to a free one. -/
def Apart (TF : Ops F (List ℕ)) (TU : Ops U ℕ) (s : VirtualPageManager F U) : Call → Prop
  | .allocatePages _ => True
  | .allocatePagesAt _ _ => False
  | .unallocatePages addr count => ∀ a length,
      s.region.ensureIsInside addr (u64 (count * pageSize)) = some (a, length) →
      (a, length / pageSize) ∈ usedBlocks TU s.reservedANDUsedPages →
      ∀ b ∈ freeBlocks TF s.freePagesSizeTree, ¬ Neighbour b a (length / pageSize)

structure SpaceInvariant (TF : Ops F (List ℕ)) (TU : Ops U ℕ) (IF : F → Prop) (IU : U → Prop)
    (s : VirtualPageManager F U) : Prop where
  blocks : Invariant TF TU s
  freeIntact : IF s.freePagesSizeTree
  usedIntact : IU s.reservedANDUsedPages
  nonnull : 0 < s.region.start

section

variable (hTF : Ideal TF IF) (hTU : Ideal TU IU)

include hTF hTU

theorem step_preserves_invariant {c} (hI : SpaceInvariant TF TU IF IU s) (h : Step TF TU s c s') :
    SpaceInvariant TF TU IF IU s' := by
  cases h with
  | allocatePages count _ r h =>
    obtain ⟨t, r', ht, hF, hU⟩ := allocatePages_total hTF hTU hI.freeIntact hI.usedIntact count
    cases ht.symm.trans h
    rcases allocatePages_spec hTF.lawful hTU.lawful h hI.freeIntact hI.usedIntact hF hI.blocks with
      ⟨-, rfl⟩ | ⟨mem, -, ht⟩
    · exact hI
    · exact ⟨ht.invariant hI.blocks, hF, hU, ht.region ▸ hI.nonnull⟩
  | allocatePagesAt addr count _ r ha hc h =>
    obtain ⟨t, r', ht, hF, hU⟩ :=
      allocatePagesAt_total hTF hTU hI.blocks hI.freeIntact hI.usedIntact ha count
    cases ht.symm.trans h
    rcases allocatePagesAt_spec hTF.lawful hTU.lawful hc h hI.freeIntact hI.usedIntact hF
      hI.blocks with ⟨-, ht⟩ | ⟨-, ht⟩
    · exact ⟨ht.invariant hI.blocks, hF, hU, ht.region ▸ hI.nonnull⟩
    · exact ⟨ht.invariant hI.blocks, hF, hU, ht.region ▸ hI.nonnull⟩
  | unallocatePages addr count =>
    obtain ⟨hF, hU⟩ := unallocatePages_total hTF hTU hI.freeIntact hI.usedIntact addr count
    rcases unlockPages_spec hTF.lawful hTU.lawful hF hU hI.blocks with h | ⟨a, length, -, ht⟩
    · unfold unallocatePages
      rw [h]
      exact hI
    · exact ⟨ht.invariant hI.blocks, hF, hU, ht.region ▸ hI.nonnull⟩

theorem init_invariant {region} (hs : region.Straight) (h0 : 0 < region.start) :
    SpaceInvariant TF TU IF IU (initVPageMgr TF TU region) := by
  obtain ⟨hI, hF, hused, hregion⟩ := initVPageMgr_invariant hTF.lawful hTU.lawful hs
  refine ⟨hI, hF, hused ▸ hTU.lawful.empty_intact, ?_⟩
  rw [hregion]
  exact h0

theorem run_invariant {C} (h : Run TF TU C s) :
    SpaceInvariant TF TU IF IU s := by
  induction h with
  | init region hs h0 => exact init_invariant hTF hTU hs h0
  | step _ _ h ih => exact step_preserves_invariant hTF hTU ih h

theorem serves_iff (hI : SpaceInvariant TF TU IF IU s) : Serves TF TU s count ↔
    0 < count ∧ ∃ b ∈ freeBlocks TF s.freePagesSizeTree, count ≤ b.2 := by
  obtain ⟨s', r, h, hF, -⟩ := allocatePages_total hTF hTU hI.freeIntact hI.usedIntact count
  have hfront :=
    allocatePages_front hTF.lawful hTU.lawful h hI.freeIntact hI.usedIntact hF hI.blocks
  constructor
  · rintro ⟨t, r', ht, hp⟩
    cases h.symm.trans ht
    rcases hfront with ⟨rfl, -, -⟩ | ⟨mem, key, -, -, hpos, hle, hb, -⟩
    · exact absurd rfl hp
    · exact ⟨hpos, (mem, key), hb, hle⟩
  · rintro ⟨hpos, b, hb, hle⟩
    rcases hfront with ⟨-, -, h0 | hsmall⟩ | ⟨mem, key, -, rfl, -, -, hmem, -⟩
    · omega
    · have := hsmall b hb
      omega
    · have hin := (hI.blocks.pool.partition.inside (mem, key) (.inl hmem)).1
      have hnull := hI.nonnull
      dsimp only at hin
      exact ⟨s', some mem, h, show mem ≠ 0 by omega⟩

omit hTF hTU in
theorem unused_pages (hI : Invariant TF TU s) {a : ℕ}
    (h : Unused pageSize s.region.start s.region.endAddr
      (usedBlocks TU s.reservedANDUsedPages) a count) :
    Unused pageSize s.region.start (pagesEnd s.region)
      (usedBlocks TU s.reservedANDUsedPages) a count := by
  have hend := hI.straight.endAddr_eq
  have hin := h.inside
  obtain ⟨k, hk⟩ := h.aligned
  refine ⟨⟨hin.1, ?_⟩, h.aligned, h.clear⟩
  unfold pagesEnd
  unfold pageSize at *
  omega

omit hTF hTU in
theorem room_iff (hI : Invariant TF TU s) (hpos : 0 < count) : Room TU s count ↔
    ∃ a n, Row pageSize (freeBlocks TF s.freePagesSizeTree) a n ∧ count ≤ n := by
  constructor
  · rintro ⟨a, h⟩
    exact hI.pool.row_of_unused (by decide) hpos (unused_pages hI h)
  · rintro ⟨a, n, hrow, hle⟩
    have h := (hI.pool.unused_of_row hrow).mono hle
    exact ⟨a, ⟨h.inside.1, h.inside.2.trans (pagesEnd_le hI.straight).1⟩, h.aligned, h.clear⟩

/-- When the free pages of the region serve a request: they do unless they are spread over
adjoining blocks that are too short one by one. -/
theorem reusable_iff (hI : SpaceInvariant TF TU IF IU s) :
    (Room TU s count → Serves TF TU s count) ↔ 0 < count ∧ ¬ Fragmented TF s count := by
  rw [serves_iff hTF hTU hI]
  by_cases hpos : 0 < count
  · rw [room_iff hI.blocks hpos]
    constructor
    · intro h
      refine ⟨hpos, ?_⟩
      rintro ⟨hsmall, hrow⟩
      obtain ⟨-, b, hb, hle⟩ := h hrow
      have := hsmall b hb
      omega
    · rintro ⟨-, hfrag⟩ hrow
      refine ⟨hpos, ?_⟩
      by_contra hno
      refine hfrag ⟨fun b hb => ?_, hrow⟩
      by_contra hle
      exact hno ⟨b, hb, by omega⟩
  · have hroom : Room TU s count := by
      obtain rfl : count = 0 := by omega
      refine ⟨s.region.start, ⟨le_rfl, ?_⟩, by simp, fun x hl hr => by omega⟩
      rw [hI.blocks.straight.endAddr_eq]
      omega
    constructor
    · exact fun h => absurd (h hroom).1 hpos
    · exact fun h => absurd h.1 hpos

omit hTF hTU in
theorem not_fragmented_of_merged (hm : Merged pageSize (freeBlocks TF s.freePagesSizeTree)) :
    ¬ Fragmented TF s count := by
  rintro ⟨hsmall, a, n, hrow, hle⟩
  have := hsmall _ (hm.row hrow)
  dsimp only at this
  omega

theorem step_merged {c} (hI : SpaceInvariant TF TU IF IU s)
    (hm : Merged pageSize (freeBlocks TF s.freePagesSizeTree)) (hc : Apart TF TU s c)
    (h : Step TF TU s c s') : Merged pageSize (freeBlocks TF s'.freePagesSizeTree) := by
  cases h with
  | allocatePages count _ r h =>
    obtain ⟨t, r', ht, hF, -⟩ := allocatePages_total hTF hTU hI.freeIntact hI.usedIntact count
    cases ht.symm.trans h
    rcases allocatePages_front hTF.lawful hTU.lawful h hI.freeIntact hI.usedIntact hF hI.blocks with
      ⟨-, rfl, -⟩ | ⟨mem, key, u, -, hpos, -, hb, -, htake, ⟨-, rfl⟩ | ⟨hlt, hcut⟩⟩
    · exact hm
    · rw [htake.free]
      exact fun b hb c hc => hm b hb.1 c hc.1
    · rw [htake.free, hcut]
      exact hI.blocks.pool.merged_take (by decide) hm hb hpos hlt
  | allocatePagesAt => exact hc.elim
  | unallocatePages addr count =>
    obtain ⟨hF, hU⟩ := unallocatePages_total hTF hTU hI.freeIntact hI.usedIntact addr count
    rcases unlockPages_spec hTF.lawful hTU.lawful hF hU hI.blocks with h | ⟨a, length, hin, ht⟩
    · unfold unallocatePages
      rw [h]
      exact hm
    have hpos := (block_inside hI.blocks (.inr ht.live)).1
    show Merged pageSize (freeBlocks TF (s.unlockPages TF TU addr count).freePagesSizeTree)
    rw [ht.free]
    refine hm.insert (by decide) hpos fun b hb => ?_
    exact not_or.mp (hc a length hin ht.live b hb)

omit hTU in
theorem init_merged (region : VirtualRegion) :
    Merged pageSize (freeBlocks TF (initVPageMgr TF TU region).freePagesSizeTree) := by
  have hempty : freeBlocks TF TF.empty = ∅ := by
    ext b
    simp [freeBlocks, hTF.lawful.find_empty]
  have hnone : Merged pageSize (freeBlocks TF TF.empty) := by
    rw [hempty]
    exact fun b hb => hb.elim
  unfold initVPageMgr freePages
  dsimp only
  split
  · exact hnone
  rename_i a length _
  split
  · exact hnone
  · rename_i hpos
    dsimp only
    rw [freeBlocks_addBlock hTF.lawful hTF.lawful.empty_intact (Nat.pos_of_ne_zero hpos), hempty]
    exact (hempty ▸ hnone).insert (by decide) (Nat.pos_of_ne_zero hpos) fun b hb => hb.elim

theorem run_merged (h : Run TF TU (Apart TF TU) s) :
    Merged pageSize (freeBlocks TF s.freePagesSizeTree) := by
  induction h with
  | init region _ _ => exact init_merged hTF region
  | step hr hc h ih => exact step_merged hTF hTU (run_invariant hTF hTU hr) ih hc h

/-- Space that is free again can be allocated again as long as no block is released next to
a free one; in any other run, as long as the free pages lie in one block. -/
theorem released_space_reusable :
    (∀ s, Run TF TU (Apart TF TU) s → ∀ count, 0 < count → Room TU s count → Serves TF TU s count) ∧
    ∀ s, Run TF TU (fun _ _ => True) s → ∀ count,
      (Room TU s count → Serves TF TU s count) ↔ 0 < count ∧ ¬ Fragmented TF s count := by
  constructor
  · intro s hr count hpos
    have hI := run_invariant hTF hTU hr
    exact (reusable_iff hTF hTU hI).mpr
      ⟨hpos, not_fragmented_of_merged (run_merged hTF hTU hr)⟩
  · intro s hr count
    exact reusable_iff hTF hTU (run_invariant hTF hTU hr)

end

theorem released_space_reusable_behind :
    ∃ s, (sortedManager 4096 16384).allocatePages (sortedOps _) (sortedOps _) 2 =
        some (s, some 4096) ∧
      Room (sortedOps _) s 2 ∧ Serves (sortedOps _) (sortedOps _) s 2 := by
  have hs : (VirtualRegion.ofSize 4096 16384).Straight := by unfold VirtualRegion.Straight; decide
  obtain ⟨s, h, ht⟩ := allocatePages_of_pointer 4096 16384 2 4096 (by decide +kernel) hs
  obtain ⟨-, -, hused, hregion⟩ :=
    initVPageMgr_invariant (sortedOps_lawful (List ℕ)) (sortedOps_lawful ℕ) hs
  have hr : Run (sortedOps _) (sortedOps _) (Apart (sortedOps _) (sortedOps _)) s :=
    .step (.init _ hs (by decide)) (c := .allocatePages 2) trivial (.allocatePages 2 s _ h)
  have hroom : Room (sortedOps _) s 2 := by
    refine ⟨12288, ?_, ?_, ?_⟩
    · rw [ht.region]
      exact hregion ▸ by decide
    · rw [ht.region]
      exact hregion ▸ by decide
    · rintro x hl hr ⟨b, hb, hin⟩
      rw [ht.used] at hb
      rcases hb with rfl | hb
      · have hstop : x < 12288 := hin.2
        omega
      · rw [show (sortedManager 4096 16384).reservedANDUsedPages = _ from hused] at hb
        cases hb
  exact ⟨s, h, hroom, (released_space_reusable (sortedOps_ideal _) (sortedOps_ideal _)).1 s hr 2
    (by decide) hroom⟩

/-- One of two pages is allocated and released. The region is free again, and a request for
both pages returns null. -/
theorem released_neighbours_stay_apart :
    ∃ s, ((sortedManager 4096 8192).allocatePages (sortedOps _) (sortedOps _) 1).map
        (fun p => p.1.unallocatePages (sortedOps _) (sortedOps _) 4096 1) = some s ∧
      s.reservedANDUsedPages.1 = [] ∧ Room (sortedOps _) s 2 ∧
      (s.allocatePages (sortedOps _) (sortedOps _) 2).map Prod.snd = some none ∧
      ¬ Serves (sortedOps _) (sortedOps _) s 2 := by
  have hview : ((sortedManager 4096 8192).allocatePages (sortedOps _) (sortedOps _) 1).map
      (fun p =>
        let s := p.1.unallocatePages (sortedOps _) (sortedOps _) 4096 1
        (s.region.start, s.region.endAddr, s.reservedANDUsedPages.1,
          (s.allocatePages (sortedOps _) (sortedOps _) 2).map Prod.snd)) =
      some (4096, 12288, [], some none) := by decide +kernel
  obtain ⟨p, hp, hv⟩ := Option.map_eq_some_iff.mp hview
  simp only [Prod.mk.injEq] at hv
  obtain ⟨hstart, hend, hused, hnull⟩ := hv
  refine ⟨_, Option.map_eq_some_iff.mpr ⟨p, hp, rfl⟩, hused, ?_, hnull, ?_⟩
  · refine ⟨4096, ?_, ?_, ?_⟩
    · rw [hstart, hend]
      decide
    · rw [hstart]
      decide
    · rintro x - - ⟨b, hb, -⟩
      have hempty : (p.1.unallocatePages (sortedOps _) (sortedOps _) 4096 1).reservedANDUsedPages =
        (sortedOps ℕ).empty := Subtype.ext hused
      rw [hempty] at hb
      cases hb
  · rintro ⟨s', r, h, hp⟩
    rw [h] at hnull
    cases Option.some.inj hnull
    exact hp rfl

end SpaceReuse
