import FrostyOS.UserHeapRuns

/-! # What the user heap keeps

In runs of careful actions no live byte is unmapped, and the free list has exactly the free
blocks in order. -/
namespace UserHeap

open MachineWord HeapAllocator BlockTiling SortedBlocks

variable {s : State} {fs : List Block} {b : Block}

def okOr {α : Type} (d : α) (x : Except Fault α) : α := x.toOption.getD d

theorem eq_ok_okOr {α : Type} {d : α} {x : Except Fault α} (hx : x.toOption.isSome) :
    x = .ok (okOr d x) := by
  cases x with
  | error e => cases hx
  | ok r => rfl

def State.allocation (s : State) (p n : ℕ) : Allocation :=
  okOr ⟨s.heap, 0, none, none⟩ (allocate 8 (fun _ => p) s.heap n)

def State.release (s : State) (b : Block) : Release :=
  okOr ⟨s.heap, [], ⟨0, []⟩⟩ (UserHeap.free 8 s.heap (b.addr + headerSize))

structure RunsTo (Meets : State → Action → Prop) (s : State) (top : ℕ) : Prop where
  reach : Reachable Meets s
  below : ∀ x, s.owned x → x < top

section Runs

variable {Meets : State → Action → Prop} {p n : ℕ}

theorem runsTo_initial : RunsTo Meets (.initial fun _ => ⟨0, false, false, 0⟩) p :=
  ⟨.init _, fun _ hx => hx.elim⟩

theorem RunsTo.malloc (h : RunsTo Meets s p) (hm : Meets s (.malloc n))
    (hp : 0 < p ∧ pageSize ∣ p ∧ p + 4096 ≤ 2 ^ 47)
    (ho : (allocate 8 (fun _ => p) s.heap n).toOption.isSome)
    (hc : (s.allocation p n).chunk = none ∨ (s.allocation p n).chunk = some (p, 4096)) :
    RunsTo Meets (s.afterMalloc (s.allocation p n)) (p + 65536) := by
  have hin : ∀ c ∈ (s.allocation p n).chunk, c = (p, 4096) := by
    intro c hcm
    rcases hc with hc | hc <;> rw [hc] at hcm
    · cases hcm
    · exact (Option.some.inj hcm).symm
  refine ⟨h.reach.step hm (.malloc s 8 n (fun _ => p) _ (eq_ok_okOr ho) ?_), ?_⟩
  · intro c hcm
    cases hin c hcm
    refine ⟨hp.1, hp.2.1, hp.2.2, fun x hx howned => ?_⟩
    exact absurd (h.below x howned) (not_lt.2 hx.1)
  · rintro x (hx | ⟨c, hcm, hx⟩)
    · exact Nat.lt_of_lt_of_le (h.below x hx) (Nat.le_add_right _ _)
    · cases hin c hcm
      have hlt := hx.2
      omega

theorem RunsTo.free (h : RunsTo Meets s p) (hb : b ∈ s.live) (hm : Meets s (.free b))
    (ho : (UserHeap.free 8 s.heap (b.addr + headerSize)).toOption.isSome) :
    RunsTo Meets (s.afterFree b (s.release b)) p :=
  ⟨h.reach.step hm (.free s 8 b _ hb (eq_ok_okOr ho)), fun x hx => h.below x hx.1⟩

end Runs

variable {r : Release} {a : Block} {fuel : ℕ} {h : Heap} {q : Heap × List ℕ}

theorem Listed.eq_nil (hl : Listed h fs) (h0 : h.freeList = 0) : fs = [] :=
  hl.unique ⟨by simp, by simp, h0⟩

theorem careful_malloc_of_empty {n : ℕ} (h0 : s.heap.freeList = 0)
    (hfits : Fits (alignUp n minSize)) : s.Careful (.malloc n) := by
  refine ⟨hfits, fun fs hl b hb => ?_⟩
  rw [hl.eq_nil h0] at hb
  cases hb

theorem careful_free_of_empty (h0 : s.heap.freeList = 0) (hnext : s.heap.nextOf b.addr = 0) :
    s.Careful (.free b) := by
  refine ⟨fun _ => hnext, fun fs hl a ha => ?_⟩
  rw [hl.eq_nil h0] at ha
  cases ha

def wholeChunks : State :=
  let s := State.initial fun _ => ⟨0, false, false, 0⟩
  let s := s.afterMalloc (s.allocation 65536 4080)
  let s := s.afterMalloc (s.allocation 131072 4080)
  let s := s.afterMalloc (s.allocation 196608 4080)
  s.afterFree ⟨65536, 4080, false⟩ (s.release ⟨65536, 4080, false⟩)

theorem wholeChunks_runsTo : RunsTo State.Careful wholeChunks 262144 := by
  have hfits : Fits (alignUp 4080 minSize) := by unfold Fits; decide +kernel
  have h0 : RunsTo State.Careful (.initial fun _ => ⟨0, false, false, 0⟩) 65536 := runsTo_initial
  have h1 := h0.malloc (careful_malloc_of_empty rfl hfits) (by decide) (by decide +kernel)
    (by decide +kernel)
  have h2 := h1.malloc (careful_malloc_of_empty (by decide +kernel) hfits) (by decide)
    (by decide +kernel) (by decide +kernel)
  have h3 := h2.malloc (careful_malloc_of_empty (by decide +kernel) hfits) (by decide)
    (by decide +kernel) (by decide +kernel)
  exact h3.free (by decide +kernel) (careful_free_of_empty (by decide +kernel) (by decide +kernel))
    (by decide +kernel)

theorem wholeChunks_listed : Listed wholeChunks.heap [⟨65536, 4080, true⟩] where
  stored := by
    unfold Stored
    decide +kernel
  free := by simp
  linked := by
    have hnext : wholeChunks.heap.nextOf 65536 = 0 := by decide +kernel
    exact ⟨by decide +kernel, by decide, hnext⟩

theorem wholeChunks_careful : wholeChunks.Careful (.free ⟨131072, 4080, false⟩) := by
  refine ⟨fun h0 => absurd h0 (by decide +kernel), fun fs hl => ?_⟩
  rw [hl.unique wholeChunks_listed]
  unfold WholePages
  decide +kernel

/-- No range that the release of `b` unmaps has a byte of a block that stays in use. -/
def SparesLive (s : State) (b : Block) (r : Release) : Prop :=
  ∀ u ∈ r.unmapped, ∀ c ∈ s.live.erase b, ∀ x, Unmaps u x → ¬ Covers headerSize c x

theorem munmap_spares_live {fuel : ℕ} {r : Release} (h : Reachable State.Careful s)
    (hb : b ∈ s.live) (hc : s.Careful (.free b))
    (ho : free fuel s.heap (b.addr + headerSize) = .ok r) : SparesLive s b r := by
  obtain ⟨fs, hs⟩ := h.sound
  intro u hu c hcl x hux hcx
  exact hs.not_unmaps hb hc (hs.free hb hc.1 ho) hcl hcx ⟨u, hu, hux⟩

theorem munmap_spares_live_wholeChunks :
    SparesLive wholeChunks ⟨131072, 4080, false⟩ (wholeChunks.release ⟨131072, 4080, false⟩) ∧
      (wholeChunks.release ⟨131072, 4080, false⟩).unmapped = [(65536, 4096)] ∧
      ⟨196608, 4080, false⟩ ∈ wholeChunks.live := by
  refine ⟨?_, by decide +kernel, by decide +kernel⟩
  refine munmap_spares_live wholeChunks_runsTo.reach (by decide +kernel) wholeChunks_careful
    (eq_ok_okOr (by decide +kernel))

/-- Two blocks of the first chunk and one that fills the second; the first and the last
begin chunks. -/
def partChunk : State :=
  let s := State.initial fun _ => ⟨0, false, false, 0⟩
  let s := s.afterMalloc (s.allocation 65536 16)
  let s := s.afterMalloc (s.allocation 131072 4048)
  let s := s.afterMalloc (s.allocation 196608 4080)
  s.afterFree ⟨196608, 4080, false⟩ (s.release ⟨196608, 4080, false⟩)

theorem partChunk_runsTo : RunsTo (fun _ _ => True) partChunk 262144 := by
  have h0 : RunsTo (fun _ _ => True) (.initial fun _ => ⟨0, false, false, 0⟩) 65536 :=
    runsTo_initial
  have h1 := h0.malloc (n := 16) trivial (by decide) (by decide +kernel) (by decide +kernel)
  have h2 := h1.malloc (n := 4048) trivial (by decide) (by decide +kernel) (by decide +kernel)
  have h3 := h2.malloc (n := 4080) trivial (by decide) (by decide +kernel) (by decide +kernel)
  exact h3.free (by decide +kernel) trivial (by decide +kernel)

/-- The block at the begin of the first chunk is released while the rest of the chunk is in
use, and the chunk is unmapped. -/
theorem partChunk_unmapped :
    ∃ s b r, Reachable (fun _ _ => True) s ∧ b ∈ s.live ∧
      free 8 s.heap (b.addr + headerSize) = .ok r ∧ ¬ SparesLive s b r := by
  refine ⟨partChunk, ⟨65536, 16, false⟩, partChunk.release ⟨65536, 16, false⟩,
    partChunk_runsTo.reach, by decide +kernel, eq_ok_okOr (by decide +kernel), ?_⟩
  intro hspares
  refine hspares (65536, 4096) (by decide +kernel) ⟨65568, 4048, false⟩ (by decide +kernel) 65568
    ?_ ?_
  · exact ⟨by decide +kernel, by decide +kernel⟩
  · exact ⟨by decide, by decide⟩

/-- With a byte, all bytes of its page. -/
def WholePagesOwned (s : State) : Prop := ∀ x y, x / pageSize = y / pageSize → s.owned x → s.owned y

theorem range_of_same_page {a n x y : ℕ} (ha : pageSize ∣ a) (hn : pageSize ∣ n)
    (hxy : x / pageSize = y / pageSize) (hx : a ≤ x ∧ x < a + n) : a ≤ y ∧ y < a + n := by
  unfold pageSize at *
  omega

theorem pageSize_dvd_alignUp (n : ℕ) : pageSize ∣ alignUp n pageSize := by
  unfold alignUp u64 pageSize
  omega

theorem unmaps_of_same_page {x y : ℕ} (hxy : x / pageSize = y / pageSize)
    (hx : Unmaps (giveBack a) x) : Unmaps (giveBack a) y :=
  range_of_same_page (Nat.dvd_mul_left _ _) (pageSize_dvd_alignUp _) hxy hx

theorem WholePagesOwned.step {s' x} (hw : WholePagesOwned s) (hs : Sound s fs) (hc : s.Careful x)
    (hstep : Step s x s') : WholePagesOwned s' := by
  intro y z hyz
  cases hstep with
  | malloc fuel n mmap r ho hf =>
    have hchunk := allocate_chunk hs.listed
      (allocate_mono (Nat.le_add_right fuel (fs.length + 1)) ho) (by omega)
    rintro (hy | ⟨c, hcm, hy⟩)
    · exact .inl (hw y z hyz hy)
    · refine .inr ⟨c, hcm, range_of_same_page (hf c hcm).aligned ?_ hyz hy⟩
      rcases hchunk with ⟨-, hnone⟩ | ⟨-, hsome⟩
      · rw [hnone] at hcm
        cases hcm
      · cases hsome.symm.trans hcm
        exact (numBytes_spec hc.1).2
  | free fuel b r hb ho =>
    have hrel := hs.free hb hc.1 ho
    rintro ⟨hy, hnot⟩
    refine ⟨hw y z hyz hy, ?_⟩
    rintro ⟨u, hu, hz⟩
    refine hnot ⟨u, hu, ?_⟩
    rw [hrel.unmapped] at hu
    obtain ⟨a, -, rfl⟩ := List.mem_map.1 hu
    exact unmaps_of_same_page hyz.symm hz
  | store mem hm => exact hw y z hyz

theorem Reachable.wholePagesOwned (h : Reachable State.Careful s) : WholePagesOwned s := by
  induction h with
  | init mem => exact fun _ _ _ hx => hx
  | step h hm hs ih =>
    obtain ⟨fs, hsound⟩ := h.sound
    exact ih.step hsound hm hs

theorem Sound.live_of_touches (hs : Sound s fs) (hb : b ∈ s.live) {x : ℕ}
    (ha : a ∈ UserHeap.released b fs) (hx : s.owned x)
    (htouch : x + 1 = a.addr ∨ x = a.stop headerSize) :
    ∃ c ∈ s.live.erase b, Covers headerSize c x := by
  refine ((hs.owned_released hb x).1 hx).resolve_right ?_
  rintro ⟨f, hf, hle, hlt⟩
  have hstop := addr_lt_stop a
  have hne : f ≠ a := by
    rintro rfl
    omega
  have hdistance := (hs.released_spec hb).1.distance hf ha hne
  omega

/-- A block that is given back and is not made of whole pages takes bytes in use with it. -/
theorem Sound.exists_unmapped_live (hs : Sound s fs) (hw : WholePagesOwned s) (hb : b ∈ s.live)
    (ha : a ∈ UserHeap.released b fs)
    (hpart : ¬ (pageSize ∣ a.addr ∧ pageSize ∣ a.size + headerSize)) :
    ∃ x, Unmaps (giveBack a) x ∧ ∃ c ∈ s.live.erase b, Covers headerSize c x := by
  have hp := (hs.released_spec hb).2.1 a ha
  have howned : ∀ x, Covers headerSize a x → s.owned x :=
    fun x hx => (hs.owned_released hb x).2 (.inr ⟨a, ha, hx⟩)
  have hlt := hp.size_lt
  have hpos := hp.pos
  have hheader := headerSize_pos
  have hsmall : a.size + headerSize + (pageSize - 1) < 2 ^ 64 := by
    unfold headerSize pageSize
    omega
  have hgive : giveBack a = (a.addr, alignUp (a.size + headerSize) pageSize) := by
    rw [giveBack, u64_of_lt (by omega)]
  have hround := alignUp_spec (by decide) hsmall
  simp only [Unmaps, hgive]
  by_cases haddr : pageSize ∣ a.addr
  · -- the byte behind the block, in the page where the block ends
    have hover := (lt_alignUp_iff (by decide) hsmall).2 fun hsize => hpart ⟨haddr, hsize⟩
    have hdown : alignDown a.addr pageSize = a.addr := Nat.div_mul_cancel haddr
    have hpage : (a.stop headerSize - 1) / pageSize = a.stop headerSize / pageSize := by
      unfold Block.stop pageSize at *
      omega
    refine ⟨a.stop headerSize, ?_, hs.live_of_touches hb ha (hw _ _ hpage (howned _ ?_)) (.inr rfl)⟩
    · rw [hdown]
      unfold Block.stop
      omega
    · unfold Covers Block.stop
      omega
  · -- the byte before the block, in the page where the block begins
    have hpage : a.addr / pageSize = (a.addr - 1) / pageSize := by
      unfold pageSize at *
      omega
    refine ⟨a.addr - 1, ?_, hs.live_of_touches hb ha
      (hw _ _ hpage (howned _ (covers_addr headerSize_pos a))) (.inl (by omega))⟩
    unfold alignDown pageSize at *
    omega

/-- Whatever the blocks, a release spares what stays in use exactly if what it gives back is
made of whole pages. -/
theorem sparesLive_iff (h : Reachable State.Careful s) (hl : Listed s.heap fs) (hb : b ∈ s.live)
    (hnext : s.heap.freeList = 0 → s.heap.nextOf b.addr = 0)
    (ho : free fuel s.heap (b.addr + headerSize) = .ok r) :
    SparesLive s b r ↔
      WholePages (fun x => (s.heap.mem x).isStartOfChunk) (released b fs) := by
  obtain ⟨fs', hs⟩ := h.sound
  obtain rfl := hl.unique hs.listed
  have hrel := hs.free hb hnext ho
  constructor
  · intro hspares a ha
    by_contra hpart
    have hperm := sweep_perm (fun x => (s.heap.mem x).isStartOfChunk) (released b fs)
    obtain ⟨x, hx, c, hc, hcx⟩ := hs.exists_unmapped_live h.wholePagesOwned hb
      (hperm.mem_iff.2 (List.mem_append_right _ ha)) hpart
    refine hspares (giveBack a) ?_ c hc x hx hcx
    rw [hrel.unmapped]
    exact List.mem_map_of_mem ha
  · intro hpages u hu c hc x hux hcx
    have hcareful : s.Careful (.free b) := by
      refine ⟨hnext, fun fs'' hl' => ?_⟩
      rwa [hl'.unique hl]
    exact hs.not_unmaps hb hcareful hrel hc hcx ⟨u, hu, hux⟩

/-- The list has the free blocks in ascending order, so it has no cycle; with the blocks in
use they make up what the heap owns. -/
structure InOrder (s : State) (fs : List Block) : Prop where
  linked : Linked s.heap.nextOf s.heap.freeList (fs.map Block.addr)
  ascending : (fs.map Block.addr).Pairwise (· < ·)
  free : ∀ f ∈ fs, Stored s.heap f ∧ f.free = true
  used : ∀ b ∈ s.live, Stored s.heap b ∧ b.free = false
  apart : (s.live ++ fs).Pairwise (Apart headerSize)
  exact : ∀ x, s.owned x ↔ ∃ b ∈ s.live ++ fs, Covers headerSize b x

theorem Sound.inOrder (hs : Sound s fs) : InOrder s fs where
  linked := hs.listed.linked
  ascending := hs.spaced.ascending.addrs headerSize_pos
  free := fun f hf => ⟨hs.listed.stored f hf, hs.listed.free f hf⟩
  used := fun b hb => ⟨hs.stored b hb, hs.used b hb⟩
  apart := hs.apart
  exact := hs.owned

/-- The walk of a request, if it has one, comes by free headers that stay free. -/
def Allocation.ReadsFree (fs : List Block) (r : Allocation) : Prop :=
  ∀ w ∈ r.walk, ∀ x ∈ w.reads, x = w.inserted ∨ x ∈ fs.map Block.addr ∧ x ≠ r.block.addr

def Release.ReadsFree (fs : List Block) (b : Block) (r : Release) : Prop :=
  ∀ x ∈ r.walk.reads, x = b.addr ∨ x ∈ fs.map Block.addr

theorem freeList_exact (h : Reachable State.Careful s) : ∃ fs, InOrder s fs ∧
    (∀ n mmap, s.Careful (.malloc n) → ((∀ f ∈ fs, f.size < alignUp n minSize) →
        s.Fresh (mmap (numBytes (alignUp n minSize)), numBytes (alignUp n minSize))) →
      ∃ r, (∀ fuel, fs.length + 1 < fuel → allocate fuel mmap s.heap n = .ok r) ∧
        r.ReadsFree fs ∧ ∀ c ∈ s.live, Apart headerSize r.block c) ∧
    ∀ b ∈ s.live, s.Careful (.free b) → ∃ r, (∀ fuel, fs.length + 1 < fuel →
          free fuel s.heap (b.addr + headerSize) = .ok r) ∧ r.ReadsFree fs b := by
  obtain ⟨fs, hs⟩ := h.sound
  refine ⟨fs, hs.inOrder, ?_, ?_⟩
  · intro n mmap hc hnew
    obtain ⟨r, u, fs', hr, hh⟩ := hs.malloc_spec hc hnew (Nat.lt_succ_self _)
    have hfresh : ∀ c ∈ r.chunk, s.Fresh c := by
      intro c hcm
      rcases allocate_chunk hs.listed hr (by omega) with ⟨-, hnone⟩ | ⟨hall, hchunk⟩
      · rw [hnone] at hcm
        cases hcm
      · cases hchunk.symm.trans hcm
        exact hnew hall
    refine ⟨r, fun fuel hfuel => allocate_mono hfuel hr, ?_, fun c hcl => ?_⟩
    · rw [Allocation.ReadsFree, hh.block_eq]
      exact hh.reads
    · rw [hh.block_eq]
      exact (hs.apart_of_handed hh hfresh hcl).1
  · intro b hb hc
    obtain ⟨r, hr, hrel⟩ := hs.free_spec hb hc.1 (Nat.lt_succ_self _)
    refine ⟨r, fun fuel hfuel => free_mono hfuel hr, hrel.reads⟩

theorem freeList_exact_wholeChunks :
    Reachable State.Careful wholeChunks ∧ wholeChunks.heap.freeList = 65536 ∧
      ∃ fs, InOrder wholeChunks fs ∧ ∃ r, r.ReadsFree fs ⟨131072, 4080, false⟩ ∧
        free (fs.length + 2) wholeChunks.heap (131072 + headerSize) = .ok r := by
  refine ⟨wholeChunks_runsTo.reach, by decide +kernel, ?_⟩
  obtain ⟨fs, hfs, -, hfree⟩ := freeList_exact wholeChunks_runsTo.reach
  obtain ⟨r, hr, hreads⟩ := hfree ⟨131072, 4080, false⟩ (by decide +kernel) wholeChunks_careful
  exact ⟨fs, hfs, r, hreads, hr _ (Nat.lt_succ_self _)⟩

/-- The first and the last block of a chunk have been released and taken again, and the first
still has the last one for its `next`. -/
def staleNext : State :=
  let s := State.initial fun _ => ⟨0, false, false, 0⟩
  let s := s.afterMalloc (s.allocation 65536 16)
  let s := s.afterMalloc (s.allocation 131072 16)
  let s := s.afterMalloc (s.allocation 196608 4016)
  let s := s.afterFree ⟨65536, 16, false⟩ (s.release ⟨65536, 16, false⟩)
  let s := s.afterFree ⟨65600, 4016, false⟩ (s.release ⟨65600, 4016, false⟩)
  let s := s.afterMalloc (s.allocation 262144 16)
  s.afterMalloc (s.allocation 327680 4016)

theorem staleNext_runsTo : RunsTo (fun _ _ => True) staleNext 393216 := by
  have h0 : RunsTo (fun _ _ => True) (.initial fun _ => ⟨0, false, false, 0⟩) 65536 :=
    runsTo_initial
  have h1 := h0.malloc (n := 16) trivial (by decide) (by decide +kernel) (by decide +kernel)
  have h2 := h1.malloc (n := 16) trivial (by decide) (by decide +kernel) (by decide +kernel)
  have h3 := h2.malloc (n := 4016) trivial (by decide) (by decide +kernel) (by decide +kernel)
  have h4 := h3.free (b := ⟨65536, 16, false⟩) (by decide +kernel) trivial (by decide +kernel)
  have h5 := h4.free (b := ⟨65600, 4016, false⟩) (by decide +kernel) trivial (by decide +kernel)
  have h6 := h5.malloc (n := 16) trivial (by decide) (by decide +kernel) (by decide +kernel)
  exact h6.malloc trivial (by decide) (by decide +kernel) (by decide +kernel)

/-- The first block is released into the empty list, and the walk goes on to the header of
the last one, which is in use. -/
theorem staleNext_read :
    ∃ s b c r, Reachable (fun _ _ => True) s ∧ b ∈ s.live ∧ c ∈ s.live.erase b ∧
      free 8 s.heap (b.addr + headerSize) = .ok r ∧ c.addr ∈ r.walk.reads ∧
        c.addr ≠ r.walk.inserted ∧ (s.heap.mem c.addr).isFree = false := by
  refine ⟨staleNext, ⟨65536, 16, false⟩, ⟨65600, 4016, false⟩,
    staleNext.release ⟨65536, 16, false⟩, staleNext_runsTo.reach, by decide +kernel,
    by decide +kernel, eq_ok_okOr (by decide +kernel), by decide +kernel, by decide +kernel,
    by decide +kernel⟩

theorem mem_reads_of_ne_zero {prev curr header : ℕ} (h0 : curr ≠ 0)
    (ho : addToFreeListLoop fuel h prev curr header = .ok q) : curr ∈ q.2 := by
  cases fuel with
  | zero => cases ho
  | succ fuel =>
    rw [addToFreeListLoop, if_neg h0] at ho
    split at ho
    · cases ho
      exact List.mem_singleton_self _
    · obtain ⟨q', -, hq⟩ := bind_eq_ok.1 ho
      cases hq
      exact List.mem_cons_self

theorem addToFreeListLoop_self {prev a : ℕ} (h0 : a ≠ 0) (hself : h.nextOf a = a) :
    addToFreeListLoop fuel h prev a a ≠ .ok q := by
  induction fuel generalizing prev q with
  | zero => exact nofun
  | succ fuel ih =>
    intro ho
    rw [addToFreeListLoop, if_neg h0, if_neg fun hlt => lt_irrefl a hlt.2] at ho
    obtain ⟨q', hq', -⟩ := bind_eq_ok.1 ho
    have hnext : (h.mem a).next = a := hself
    rw [hnext] at hq'
    exact ih hq'

theorem addToFreeListLoop_stale {a : ℕ} (h0 : a ≠ 0) (hnext : h.nextOf a ≠ 0)
    (ho : addToFreeListLoop fuel h 0 a a = .ok q) : h.nextOf a ∈ q.2 ∧ h.nextOf a ≠ a := by
  refine ⟨?_, fun hself => addToFreeListLoop_self h0 hself ho⟩
  cases fuel with
  | zero => cases ho
  | succ fuel =>
    rw [addToFreeListLoop, if_neg h0, if_neg fun hlt => lt_irrefl a hlt.2] at ho
    obtain ⟨q', hq', hq⟩ := bind_eq_ok.1 ho
    cases hq
    exact List.mem_cons_of_mem a (mem_reads_of_ne_zero hnext hq')

/-- A release into the empty list of a block whose `next` field is not null comes by the
header that the field names, and no header is free then. -/
theorem stale_next_read (h : Reachable State.Careful s) (hb : b ∈ s.live)
    (hempty : s.heap.freeList = 0) (hnext : s.heap.nextOf b.addr ≠ 0)
    (ho : free fuel s.heap (b.addr + headerSize) = .ok r) :
    s.heap.nextOf b.addr ∈ r.walk.reads ∧ s.heap.nextOf b.addr ≠ b.addr := by
  obtain ⟨fs, hs⟩ := h.sound
  have hp := hs.placed b (List.mem_append_left _ hb)
  have hne : b.addr ≠ 0 := ne_of_gt hp.pos
  obtain ⟨h₁, hadd, -⟩ := (free_eq_ok_iff hp).1 ho
  obtain ⟨q, hloop, hq⟩ := bind_eq_ok.1 hadd
  have hreads : r.walk.reads = q.2 := congrArg (fun w => w.2.reads) (Except.ok.inj hq).symm
  have hlink : ({ markFree s.heap b.addr with freeList := b.addr } : Heap).nextOf b.addr =
      s.heap.nextOf b.addr := setIsFree_next _ _ _ _
  rw [if_pos (show (markFree s.heap b.addr).freeList = 0 from hempty)] at hloop
  have hstale := addToFreeListLoop_stale hne (hlink.trans_ne hnext) hloop
  rw [hreads, ← hlink]
  exact hstale

end UserHeap
