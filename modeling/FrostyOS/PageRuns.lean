import FrostyOS.PagePartition

/-! # Runs of the virtual page manager over an ideal map

Regions are page-aligned, start behind the null page and do not wrap, and requests are for
fewer pages than the address space has. -/
namespace PageRuns

open MachineWord OrderedMap BlockPool VirtualPageManager VirtualRegion

variable {F U : Type} {TF : Ops F (List ℕ)} {TU : Ops U ℕ} {IF : F → Prop} {IU : U → Prop}
  {s s' : VirtualPageManager F U} {addr count : ℕ} {r : Option ℕ}

inductive Step (TF : Ops F (List ℕ)) (TU : Ops U ℕ) (s : VirtualPageManager F U) :
    VirtualPageManager F U → Prop where
  | allocatePages (count : ℕ) (s' : VirtualPageManager F U) (r : Option ℕ)
      (hc : count < 2 ^ 52) (h : s.allocatePages TF TU count = some (s', r)) : Step TF TU s s'
  | allocatePagesAt (addr count : ℕ) (s' : VirtualPageManager F U) (r : Option ℕ)
      (ha : addr < 2 ^ 64) (hp : pageSize ∣ addr) (hc : count < 2 ^ 52)
      (h : s.allocatePagesAt TF TU addr count = some (s', r)) : Step TF TU s s'
  | unallocatePages (addr count : ℕ) (ha : addr < 2 ^ 64) (hc : count < 2 ^ 52) :
      Step TF TU s (s.unallocatePages TF TU addr count)
  | attemptToExpandRight (newSize : ℕ) (hp : pageSize ∣ newSize)
      (he : s.region.start + newSize < 2 ^ 64) :
      Step TF TU s (s.attemptToExpandRight TF newSize).1

inductive Reachable (TF : Ops F (List ℕ)) (TU : Ops U ℕ) : VirtualPageManager F U → Prop where
  | init (region : VirtualRegion) (hs : region.Straight) (h0 : 0 < region.start)
      (hstart : pageSize ∣ region.start) (hsize : pageSize ∣ region.size) :
      Reachable TF TU (initVPageMgr TF TU region)
  | step {s s' : VirtualPageManager F U} : Reachable TF TU s → Step TF TU s s' → Reachable TF TU s'

/-- An ideal map: lawful, and no deletion goes wrong. -/
structure Ideal {M V : Type} (T : Ops M V) (Intact : M → Prop) : Prop where
  lawful : Lawful T Intact
  delete_intact : ∀ m k, Intact m → Intact (T.delete m k)

structure RunInvariant (TF : Ops F (List ℕ)) (TU : Ops U ℕ) (IF : F → Prop) (IU : U → Prop)
    (s : VirtualPageManager F U) : Prop where
  blocks : Invariant TF TU s
  freeIntact : IF s.freePagesSizeTree
  usedIntact : IU s.reservedANDUsedPages
  pages : pageSize ∣ s.region.size
  nonnull : 0 < s.region.start

/-- What a request for pages does to the blocks. -/
def Answered (TF : Ops F (List ℕ)) (TU : Ops U ℕ) (s s' : VirtualPageManager F U) (count : ℕ)
    (r : Option ℕ) : Prop :=
  r = none ∧ Keeps TF s s' ∨ ∃ mem, r = some mem ∧ Takes TF TU s s' mem count

theorem Answered.region {r} (h : Answered TF TU s s' count r) :
    s'.region = s.region := by
  rcases h with ⟨-, hk⟩ | ⟨mem, -, ht⟩
  · exact hk.region
  · exact ht.region

section Operations

variable (hTF : Ideal TF IF) (hTU : Ideal TU IU)

include hTF hTU

theorem lockPages_returns (hF : IF s.freePagesSizeTree) (hU : IU s.reservedANDUsedPages)
    (addr count : ℕ) : ∃ s', s.lockPages TF TU addr count true false = some s' ∧
      IF s'.freePagesSizeTree ∧ IU s'.reservedANDUsedPages := by
  have hU' : IU (s.addUsed TU addr count).reservedANDUsedPages :=
    (hTU.lawful.insert_intact _ _).mpr hU
  simp only [lockPages, lockRange, Bool.false_eq_true, if_false, if_true, Bool.not_false]
  split
  · exact ⟨s, rfl, hF, hU⟩
  split
  · exact ⟨s, rfl, hF, hU⟩
  rcases unfreePages_exact_cases TF (s.addUsed TU addr count) addr count with he | ⟨a, n, he⟩
  · rw [he]
    exact ⟨_, rfl, hF, hU'⟩
  have hrem := removeExact_intact hTF.lawful hTF.delete_intact a n
    (s := s.addUsed TU addr count) hF
  have hused : ((s.addUsed TU addr count).removeExact TF a n).1.reservedANDUsedPages =
      (s.addUsed TU addr count).reservedANDUsedPages := by
    rcases removeExact_cases TF (s.addUsed TU addr count) a n with h | ⟨l, -, -, h⟩
    · rw [h]
    · rw [h]; rfl
  rw [he]
  exact ⟨_, rfl, hrem, hused ▸ hU'⟩

theorem allocatePages_total (hF : IF s.freePagesSizeTree) (hU : IU s.reservedANDUsedPages)
    (count : ℕ) :
    ∃ s' r, s.allocatePages TF TU count = some (s', r) ∧ IF s'.freePagesSizeTree ∧
      IU s'.reservedANDUsedPages := by
  unfold allocatePages
  split
  · exact ⟨s, none, rfl, hF, hU⟩
  split
  · exact ⟨s, none, rfl, hF, hU⟩
  · exact ⟨s, none, rfl, hF, hU⟩
  · next key mem rest _ =>
    have hF₁ : IF (if count < key then
        s.withFree (splitFreeBlock TF s.freePagesSizeTree mem key count)
        else s).freePagesSizeTree := by
      split
      · exact splitFreeBlock_intact hTF.lawful hTF.delete_intact hF
      · exact hF
    have hU₁ : IU (if count < key then
        s.withFree (splitFreeBlock TF s.freePagesSizeTree mem key count)
        else s).reservedANDUsedPages := by
      split <;> exact hU
    obtain ⟨s', hs', hF', hU'⟩ := lockPages_returns hTF hTU hF₁ hU₁ mem count
    refine ⟨s', some mem, ?_, hF', hU'⟩
    dsimp only
    rw [hs']
    rfl

theorem allocatePages_returns (hI : RunInvariant TF TU IF IU s) (count : ℕ) :
    ∃ s' r, s.allocatePages TF TU count = some (s', r) ∧ IF s'.freePagesSizeTree ∧
      IU s'.reservedANDUsedPages := allocatePages_total hTF hTU hI.freeIntact hI.usedIntact count

theorem allocatePagesAt_total (hI : Invariant TF TU s) (hF₀ : IF s.freePagesSizeTree)
    (hU₀ : IU s.reservedANDUsedPages) (ha : addr < 2 ^ 64) (count : ℕ) :
    ∃ s' r, s.allocatePagesAt TF TU addr count = some (s', r) ∧
      IF s'.freePagesSizeTree ∧ IU s'.reservedANDUsedPages := by
  unfold allocatePagesAt
  by_cases h0 : count = 0 ∨ s.region.isInside addr (u64 (count * pageSize)) = false
  · exact ⟨s, none, if_pos h0, hF₀, hU₀⟩
  rw [if_neg h0]
  obtain ⟨-, hin⟩ := not_or.mp h0
  have hin : s.region.isInside addr (u64 (count * pageSize)) := by simpa using hin
  have hhi := (pagesEnd_le hI.straight).2
  obtain ⟨t, ok, ht, hF⟩ := unfreePages_returns hTF.lawful hTF.delete_intact false hF₀
    hI.lists hI.pool hhi hin ha
  have hun := unfreePages_spec hTF.lawful ht hF hF₀ hin hI.lists hI.pool hhi
  have hU : IU t.reservedANDUsedPages := hun.used ▸ hU₀
  rw [ht]
  cases ok with
  | false => exact ⟨t, none, rfl, hF, hU⟩
  | true =>
    have hlock : ∃ t', t.lockPages TF TU addr count false false = some t' ∧
        IF t'.freePagesSizeTree ∧ IU t'.reservedANDUsedPages := by
      simp only [lockPages, lockRange, Bool.false_eq_true, if_false]
      split
      · exact ⟨t, rfl, hF, hU⟩
      · split
        · exact ⟨t, rfl, hF, hU⟩
        · exact ⟨_, rfl, hF, (hTU.lawful.insert_intact _ _).mpr hU⟩
    obtain ⟨t', ht', hF', hU'⟩ := hlock
    exact ⟨t', some addr, by simp [ht'], hF', hU'⟩

theorem allocatePagesAt_returns (hI : RunInvariant TF TU IF IU s) (ha : addr < 2 ^ 64)
    (count : ℕ) : ∃ s' r, s.allocatePagesAt TF TU addr count = some (s', r) ∧
      IF s'.freePagesSizeTree ∧ IU s'.reservedANDUsedPages :=
  allocatePagesAt_total hTF hTU hI.blocks hI.freeIntact hI.usedIntact ha count

theorem unallocatePages_total (hF₀ : IF s.freePagesSizeTree) (hU₀ : IU s.reservedANDUsedPages)
    (addr count : ℕ) :
    IF (s.unallocatePages TF TU addr count).freePagesSizeTree ∧
      IU (s.unallocatePages TF TU addr count).reservedANDUsedPages := by
  have hdel := fun a => hTU.delete_intact _ a hU₀
  have hfree : ∀ (t : VirtualPageManager F U) (a n : ℕ), IF t.freePagesSizeTree →
      IF (t.freePages TF a n).freePagesSizeTree ∧
        (t.freePages TF a n).reservedANDUsedPages = t.reservedANDUsedPages := by
    intro t a n hF
    unfold freePages
    split
    · exact ⟨hF, rfl⟩
    · dsimp only
      split
      · exact ⟨hF, rfl⟩
      · exact ⟨(addBlock_intact hTF.lawful).mpr hF, rfl⟩
  unfold unallocatePages unlockPages
  split
  · exact ⟨hF₀, hU₀⟩
  next a length _ =>
  dsimp only
  split
  · exact ⟨hF₀, hU₀⟩
  split
  · exact ⟨hF₀, hU₀⟩
  · obtain ⟨h₁, h₂⟩ := hfree (s.dropUsed TU a (length / pageSize)) a (length / pageSize)
      hF₀
    exact ⟨h₁, h₂ ▸ hdel a⟩

theorem unallocatePages_intact (hI : RunInvariant TF TU IF IU s) (addr count : ℕ) :
    IF (s.unallocatePages TF TU addr count).freePagesSizeTree ∧
      IU (s.unallocatePages TF TU addr count).reservedANDUsedPages :=
  unallocatePages_total hTF hTU hI.freeIntact hI.usedIntact addr count

omit hTF hTU in
theorem Answered.invariant (h : Answered TF TU s s' count r) (hI : RunInvariant TF TU IF IU s)
    (hF : IF s'.freePagesSizeTree) (hU : IU s'.reservedANDUsedPages) :
    RunInvariant TF TU IF IU s' := by
  rcases h with ⟨-, hk⟩ | ⟨mem, -, ht⟩
  · exact ⟨hk.invariant hI.blocks, hF, hU, hk.region ▸ hI.pages, hk.region ▸ hI.nonnull⟩
  · exact ⟨ht.invariant hI.blocks, hF, hU, ht.region ▸ hI.pages, ht.region ▸ hI.nonnull⟩

theorem allocatePages_invariant (hI : RunInvariant TF TU IF IU s)
    (h : s.allocatePages TF TU count = some (s', r)) :
    RunInvariant TF TU IF IU s' ∧ Answered TF TU s s' count r := by
  obtain ⟨t, r', ht, hF, hU⟩ := allocatePages_returns hTF hTU hI count
  obtain ⟨rfl, rfl⟩ := Prod.mk.inj (Option.some.inj (ht.symm.trans h))
  have hanswer : Answered TF TU s t count r' := by
    rcases allocatePages_spec hTF.lawful hTU.lawful h hI.freeIntact hI.usedIntact hF
      hI.blocks with ⟨hr, rfl⟩ | htakes
    · exact .inl ⟨hr, .refl hI.blocks.lists⟩
    · exact .inr htakes
  exact ⟨hanswer.invariant hI hF hU, hanswer⟩

theorem allocatePagesAt_invariant (hI : RunInvariant TF TU IF IU s) (ha : addr < 2 ^ 64)
    (hc : count < 2 ^ 52) (h : s.allocatePagesAt TF TU addr count = some (s', r)) :
    RunInvariant TF TU IF IU s' ∧ Answered TF TU s s' count r := by
  obtain ⟨t, r', ht, hF, hU⟩ := allocatePagesAt_returns hTF hTU hI ha count
  obtain ⟨rfl, rfl⟩ := Prod.mk.inj (Option.some.inj (ht.symm.trans h))
  have hanswer : Answered TF TU s t count r' := by
    rcases allocatePagesAt_spec hTF.lawful hTU.lawful hc h hI.freeIntact hI.usedIntact hF
      hI.blocks with hkeeps | ⟨hr, htakes⟩
    · exact .inl hkeeps
    · exact .inr ⟨addr, hr, htakes⟩
  exact ⟨hanswer.invariant hI hF hU, hanswer⟩

theorem unallocatePages_invariant (hI : RunInvariant TF TU IF IU s) (addr count : ℕ) :
    RunInvariant TF TU IF IU (s.unallocatePages TF TU addr count) := by
  obtain ⟨hF, hU⟩ := unallocatePages_intact hTF hTU hI addr count
  rcases unlockPages_spec hTF.lawful hTU.lawful hF hU hI.blocks with h | ⟨a, length, hc, ht⟩
  · have hsame : s.unallocatePages TF TU addr count = s := h
    exact hsame.symm ▸ hI
  · exact ⟨ht.invariant hI.blocks, hF, hU, ht.region ▸ hI.pages, ht.region ▸ hI.nonnull⟩

omit hTU in
theorem attemptToExpandRight_invariant (hI : RunInvariant TF TU IF IU s) {newSize : ℕ}
    (hp : pageSize ∣ newSize) (he : s.region.start + newSize < 2 ^ 64) :
    RunInvariant TF TU IF IU (s.attemptToExpandRight TF newSize).1 := by
  obtain ⟨hblocks, hF, hused, hstart, hpages⟩ :=
    attemptToExpandRight_spec hTF.lawful hI.blocks hI.freeIntact hI.pages hp he
  exact ⟨hblocks, hF, hused ▸ hI.usedIntact, hpages, hstart ▸ hI.nonnull⟩

theorem step_preserves_invariant (hI : RunInvariant TF TU IF IU s) (hs : Step TF TU s s') :
    RunInvariant TF TU IF IU s' := by
  cases hs with
  | allocatePages count _ r hc h => exact (allocatePages_invariant hTF hTU hI h).1
  | allocatePagesAt addr count _ r ha hp hc h =>
    exact (allocatePagesAt_invariant hTF hTU hI ha hc h).1
  | unallocatePages addr count ha hc => exact unallocatePages_invariant hTF hTU hI addr count
  | attemptToExpandRight newSize hp he =>
    exact attemptToExpandRight_invariant hTF hI hp he

theorem reachable_invariant (hr : Reachable TF TU s) : RunInvariant TF TU IF IU s := by
  induction hr with
  | init region hs h0 _ hsize =>
    obtain ⟨hI, hF, hused, hregion⟩ := initVPageMgr_invariant hTF.lawful hTU.lawful hs
    refine ⟨hI, hF, hused ▸ hTU.lawful.empty_intact, ?_, ?_⟩
    · rw [hregion]; exact hsize
    · rw [hregion]; exact h0
  | step _ hs ih => exact step_preserves_invariant hTF hTU ih hs

end Operations

/-- The pointer that a caller sees. -/
def pointer (r : Option ℕ) : ℕ := r.getD 0

/-- After every run the free and the used blocks cut the region into disjoint pieces, and
an allocation that returns null leaves the free pages as they were. -/
theorem blocks_partition_region (hTF : Ideal TF IF) (hTU : Ideal TU IU) (hr : Reachable TF TU s) :
    Pool pageSize s.region.start s.region.endAddr (freeBlocks TF s.freePagesSizeTree)
      (usedBlocks TU s.reservedANDUsedPages) ∧
    (∀ count < 2 ^ 52, ∃ s' r, s.allocatePages TF TU count = some (s', r) ∧
      (pointer r = 0 → ∀ x, Covered pageSize (freeBlocks TF s'.freePagesSizeTree) x ↔
        Covered pageSize (freeBlocks TF s.freePagesSizeTree) x)) ∧
    (∀ addr < 2 ^ 64, pageSize ∣ addr → ∀ count < 2 ^ 52,
      ∃ s' r, s.allocatePagesAt TF TU addr count = some (s', r) ∧
      (pointer r = 0 → ∀ x, Covered pageSize (freeBlocks TF s'.freePagesSizeTree) x ↔
        Covered pageSize (freeBlocks TF s.freePagesSizeTree) x)) := by
  have hI := reachable_invariant hTF hTU hr
  have nonnull : ∀ {s' addr count}, Takes TF TU s s' addr count → addr ≠ 0 := by
    intro s' addr count ht h0
    obtain ⟨T, href, hb, -⟩ := ht.free
    have hin := ((href.pool (by decide) hI.blocks.pool).partition.inside _ (.inl hb)).1
    have := hI.nonnull
    dsimp only at hin
    omega
  refine ⟨?_, ?_, ?_⟩
  · have hend : pagesEnd s.region = s.region.endAddr := by
      unfold pagesEnd
      rw [Nat.div_mul_cancel hI.pages, hI.blocks.straight.endAddr_eq]
    rw [← hend]
    exact hI.blocks.pool
  · intro count _
    obtain ⟨s', r, h, hF, -⟩ := allocatePages_returns hTF hTU hI count
    refine ⟨s', r, h, fun hnull x => ?_⟩
    rcases allocatePages_spec hTF.lawful hTU.lawful h hI.freeIntact hI.usedIntact hF hI.blocks with
      ⟨-, rfl⟩ | ⟨mem, rfl, ht⟩
    · exact Iff.rfl
    · exact absurd hnull (nonnull ht)
  · intro addr ha _ count hc
    obtain ⟨s', r, h, hF, -⟩ := allocatePagesAt_returns hTF hTU hI ha count
    refine ⟨s', r, h, fun hnull x => ?_⟩
    rcases allocatePagesAt_spec hTF.lawful hTU.lawful hc h hI.freeIntact hI.usedIntact hF
      hI.blocks with ⟨-, hk⟩ | ⟨rfl, ht⟩
    · exact hk.free.covered x
    · exact absurd hnull (nonnull ht)

theorem sortedOps_ideal (V : Type) : Ideal (sortedOps V) (fun _ => True) :=
  ⟨sortedOps_lawful V, fun _ _ _ => trivial⟩

def sortedManager (start size : ℕ) : VirtualPageManager (SortedMap (List ℕ)) (SortedMap ℕ) :=
  initVPageMgr (sortedOps _) (sortedOps _) (ofSize start size)

theorem allocatePages_of_pointer (start size count mem : ℕ)
    (h : ((sortedManager start size).allocatePages (sortedOps _) (sortedOps _) count).map Prod.snd =
      some (some mem)) (hs : (ofSize start size).Straight) :
    ∃ s', (sortedManager start size).allocatePages (sortedOps _) (sortedOps _) count =
        some (s', some mem) ∧
      Takes (sortedOps _) (sortedOps _) (sortedManager start size) s' mem count := by
  obtain ⟨⟨s', r⟩, hs', rfl⟩ := Option.map_eq_some_iff.mp h
  obtain ⟨hI, -⟩ := initVPageMgr_invariant (sortedOps_lawful (List ℕ)) (sortedOps_lawful ℕ) hs
  rcases allocatePages_spec (sortedOps_lawful (List ℕ)) (sortedOps_lawful ℕ) hs' trivial trivial
    trivial hI with ⟨hr, -⟩ | ⟨mem', hr, ht⟩
  · cases hr
  · cases hr
    exact ⟨s', hs', ht⟩

theorem blocks_partition_region_sample :
    ∃ s : VirtualPageManager (SortedMap (List ℕ)) (SortedMap ℕ),
      Reachable (sortedOps _) (sortedOps _) s ∧
      (4096, 2) ∈ usedBlocks (sortedOps _) s.reservedANDUsedPages ∧
      Pool pageSize 4096 20480 (freeBlocks (sortedOps _) s.freePagesSizeTree)
        (usedBlocks (sortedOps _) s.reservedANDUsedPages) := by
  have hs : (ofSize 4096 16384).Straight := by unfold Straight; decide
  obtain ⟨s', hs', ht⟩ := allocatePages_of_pointer 4096 16384 2 4096 (by decide +kernel) hs
  have hr : Reachable (sortedOps _) (sortedOps _) s' :=
    .step (.init (ofSize 4096 16384) hs (by decide) (by decide) (by decide))
      (.allocatePages 2 s' _ (by decide) hs')
  have hregion : s'.region = ofSize 4096 16384 :=
    ht.region.trans (initVPageMgr_invariant (sortedOps_lawful _) (sortedOps_lawful _) hs).2.2.2
  have hp := (blocks_partition_region (sortedOps_ideal _) (sortedOps_ideal _) hr).1
  rw [hregion] at hp
  refine ⟨s', hr, ?_, hp⟩
  rw [ht.used]
  exact Set.mem_insert _ _

/-- Over a region that starts at address zero the first allocation returns the null
pointer, and yet the page it names is no longer free. -/
theorem null_result_takes_page_zero :
    ∃ s', (sortedManager 0 16384).allocatePages (sortedOps _) (sortedOps _) 1 = some (s', some 0) ∧
      Covered pageSize (freeBlocks (sortedOps _) (sortedManager 0 16384).freePagesSizeTree) 0 ∧
      ¬ Covered pageSize (freeBlocks (sortedOps _) s'.freePagesSizeTree) 0 := by
  have hs : (ofSize 0 16384).Straight := by unfold Straight; decide
  obtain ⟨s', hs', ht⟩ := allocatePages_of_pointer 0 16384 1 0 (by decide +kernel) hs
  obtain ⟨hI, -, hused, -⟩ :=
    initVPageMgr_invariant (sortedOps_lawful (List ℕ)) (sortedOps_lawful ℕ) hs
  refine ⟨s', hs', ?_, ?_⟩
  · obtain ⟨b, hb | hb, hx⟩ := hI.pool.partition.cover 0 (by decide +kernel) (by decide +kernel)
    · exact ⟨b, hb, hx⟩
    · rw [hused] at hb
      cases hb
  · intro hcov
    refine (ht.invariant hI).pool.not_both hcov ⟨(0, 1), ?_, by decide, by decide⟩
    rw [ht.used]
    exact Set.mem_insert _ _

end PageRuns
