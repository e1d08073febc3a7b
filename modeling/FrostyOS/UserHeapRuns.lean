import FrostyOS.UserHeapRelease

/-! # Runs of the user heap

Chunks come from `mmap` at any addresses that the heap does not own. The blocks in use and
the bytes that the heap owns are ghost state. -/
namespace UserHeap

open MachineWord HeapAllocator BlockTiling SortedBlocks List

structure State where
  heap : Heap
  live : List Block
  owned : ℕ → Prop

inductive Action where
  | malloc (n : ℕ)
  | free (b : Block)
  | store

def State.initial (mem : ℕ → BlockHeader) : State := ⟨⟨mem, 0, 0, 0, 0⟩, [], fun _ => False⟩

structure State.Fresh (s : State) (c : ℕ × ℕ) : Prop where
  pos : 0 < c.1
  aligned : pageSize ∣ c.1
  stop_le : c.1 + c.2 ≤ 2 ^ 47
  unowned : ∀ x, InChunk c x → ¬ s.owned x

/-- The bytes that go with `munmap`, which begins at a page. -/
def Unmaps (u : ℕ × ℕ) (x : ℕ) : Prop :=
  alignDown u.1 pageSize ≤ x ∧ x < alignDown u.1 pageSize + u.2

/-- A program store changes only what overlaps a payload that it has. -/
def ProgramStore (live : List Block) (mem mem' : ℕ → BlockHeader) : Prop := ∀ a, mem' a ≠ mem a →
    ∃ b ∈ live, b.addr + headerSize < a + headerSize ∧ a < b.stop headerSize

def Allocation.block (r : Allocation) : Block :=
  ⟨r.ptr - headerSize, (r.heap.mem (r.ptr - headerSize)).size, false⟩

def State.afterMalloc (s : State) (r : Allocation) : State :=
  ⟨r.heap, r.block :: s.live, fun x => s.owned x ∨ ∃ c ∈ r.chunk, InChunk c x⟩

def State.afterFree (s : State) (b : Block) (r : Release) : State :=
  ⟨r.heap, s.live.erase b, fun x => s.owned x ∧ ¬ ∃ u ∈ r.unmapped, Unmaps u x⟩

inductive Step : State → Action → State → Prop where
  | malloc (s : State) (fuel n : ℕ) (mmap : ℕ → ℕ) (r : Allocation)
      (ho : allocate fuel mmap s.heap n = .ok r) (hf : ∀ c ∈ r.chunk, s.Fresh c) :
      Step s (.malloc n) (s.afterMalloc r)
  | free (s : State) (fuel : ℕ) (b : Block) (r : Release) (hb : b ∈ s.live)
      (ho : free fuel s.heap (b.addr + headerSize) = .ok r) :
      Step s (.free b) (s.afterFree b r)
  | store (s : State) (mem : ℕ → BlockHeader) (hm : ProgramStore s.live s.heap.mem mem) :
      Step s .store { s with heap := { s.heap with mem := mem } }

inductive Reachable (Meets : State → Action → Prop) : State → Prop where
  | init (mem : ℕ → BlockHeader) : Reachable Meets (.initial mem)
  | step {s s' : State} {x : Action} (h : Reachable Meets s) (hm : Meets s x)
      (hs : Step s x s') : Reachable Meets s'

/-- What would be given back consists of whole pages. -/
def WholePages (flag : ℕ → Bool) (l : List Block) : Prop :=
  ∀ a ∈ (sweep flag l).2, pageSize ∣ a.addr ∧ pageSize ∣ a.size + headerSize

/-- The actions that meet no defect. A request does not pass the end of the words; a block
that enters an empty list has a null `next` field; and where two list entries in a row
begin chunks, the first is made of whole pages. -/
def State.Careful (s : State) : Action → Prop
  | .malloc n => Fits (alignUp n minSize) ∧
      ∀ fs, Listed s.heap fs → CutsClean s.heap fs (alignUp n minSize)
  | .free b => (s.heap.freeList = 0 → s.heap.nextOf b.addr = 0) ∧
      ∀ fs, Listed s.heap fs → WholePages (fun x => (s.heap.mem x).isStartOfChunk) (released b fs)
  | .store => True

/-- The blocks in use and the free blocks fill exactly what the heap owns, and the list has
the free ones in order. -/
structure Sound (s : State) (fs : List Block) : Prop where
  listed : Listed s.heap fs
  spaced : Spaced headerSize fs
  stored : ∀ b ∈ s.live, Stored s.heap b
  used : ∀ b ∈ s.live, b.free = false
  apart : (s.live ++ fs).Pairwise (Apart headerSize)
  placed : ∀ b ∈ s.live ++ fs, Placed b
  owned : ∀ x, s.owned x ↔ ∃ b ∈ s.live ++ fs, Covers headerSize b x

variable {s s' : State} {fs : List Block} {b : Block}

theorem sound_initial (mem : ℕ → BlockHeader) : Sound (.initial mem) [] where
  listed := ⟨by simp, by simp, rfl⟩
  spaced := .nil
  stored := by simp [State.initial]
  used := by simp [State.initial]
  apart := .nil
  placed := by simp [State.initial]
  owned := by simp [State.initial]

variable {mem : ℕ → BlockHeader} {h : Heap} {fuel n x : ℕ} {fs' : List Block} {mmap : ℕ → ℕ}
  {r : Allocation} {c u : Block}

section

variable (hs : Sound s fs)

include hs

theorem Sound.apart_of_ne (hb : b ∈ s.live ++ fs) (hc : c ∈ s.live ++ fs)
    (hne : b ≠ c) : Apart headerSize b c := hs.apart.forall hb hc hne

theorem Sound.live_apart_free {f} (hb : b ∈ s.live) (hf : f ∈ fs) :
    Apart headerSize b f := (pairwise_append.1 hs.apart).2.2 b hb f hf

theorem Sound.placed_free : ∀ f ∈ fs, Placed f :=
  fun f hf => hs.placed f (mem_append_right _ hf)

theorem Sound.owned_of_live (hb : b ∈ s.live) (hx : Covers headerSize b x) :
    s.owned x := (hs.owned x).2 ⟨b, mem_append_left _ hb, hx⟩

theorem Sound.owned_of_free (hb : b ∈ fs) (hx : Covers headerSize b x) :
    s.owned x := (hs.owned x).2 ⟨b, mem_append_right _ hb, hx⟩

theorem Sound.store_mem (hm : ProgramStore s.live s.heap.mem mem)
    (hb : b ∈ s.live ++ fs) : mem b.addr = s.heap.mem b.addr := by
  by_contra hne
  obtain ⟨c, hc, hlt, hlt'⟩ := hm b.addr hne
  have hcb : c ≠ b := by
    rintro rfl
    omega
  -- no other block has its header in the payload of `c`
  refine hs.apart_of_ne (mem_append_left _ hc) hb hcb b.addr ⟨by omega, hlt'⟩ ?_
  exact covers_addr headerSize_pos b

theorem Sound.store (hm : ProgramStore s.live s.heap.mem mem) :
    Sound { s with heap := { s.heap with mem := mem } } fs where
  listed := hs.listed.congr (fun _ hf => hs.store_mem hm (mem_append_right _ hf)) rfl
  spaced := hs.spaced
  stored := fun b hb =>
    stored_of_ne (hs.stored b hb) (hs.store_mem hm (mem_append_left _ hb))
  used := hs.used
  apart := hs.apart
  placed := hs.placed
  owned := hs.owned

end

theorem takeChunk_chunk {size : ℕ} (ho : takeChunk fuel mmap h size = .ok r) :
    r.chunk = some (mmap (numBytes size), numBytes size) := by
  obtain ⟨q, -, hr⟩ := bind_eq_ok.1 ho
  cases hr
  rfl

theorem take_chunk {prev curr size : ℕ} (ho : take fuel h prev curr size = .ok r) :
    r.chunk = none := by
  obtain ⟨q, -, hr⟩ := bind_eq_ok.1 ho
  cases hr
  rfl

/-- A call that has returned asked for a chunk exactly when no free block was large
enough. -/
theorem allocate_chunk (hl : Listed h fs) (ho : allocate fuel mmap h n = .ok r)
    (hfuel : fs.length < fuel) :
    (∃ f ∈ fs, alignUp n minSize ≤ f.size) ∧ r.chunk = none ∨
      (∀ f ∈ fs, f.size < alignUp n minSize) ∧
        r.chunk = some (mmap (numBytes (alignUp n minSize)), numBytes (alignUp n minSize)) := by
  unfold allocate at ho
  rcases allocateLoop_cases fuel (alignUp n minSize) mmap fs [] hl.linked hl.stored hfuel with
    ⟨xs, b, ys, rfl, hsize, heq⟩ | ⟨hall, heq⟩
  · exact .inl ⟨⟨b, by simp, hsize⟩, take_chunk (heq.symm.trans ho)⟩
  · exact .inr ⟨hall, takeChunk_chunk (heq.symm.trans ho)⟩

theorem Sound.newChunk (hs : Sound s fs) {c} (hc : s.Fresh c) : NewChunk fs c where
  pos := hc.pos
  aligned := hc.aligned
  stop_le := hc.stop_le
  apart := fun _ hf x hx hin => hc.unowned x hin (hs.owned_of_free hf hx)

theorem Handed.block_eq (hh : Handed h fs r u fs') : r.block = u := by
  have haddr : r.ptr - headerSize = u.addr := by
    rw [hh.ptr]
    omega
  rw [Allocation.block, haddr, hh.stored.1, ← hh.used]

section

variable (hs : Sound s fs)

include hs

theorem Sound.apart_of_handed (hh : Handed s.heap fs r u fs')
    (hf : ∀ c ∈ r.chunk, s.Fresh c) (hb : b ∈ s.live) :
    Apart headerSize u b ∧ ∀ f ∈ fs', Apart headerSize b f := by
  have hkey : ∀ x, Covers headerSize b x →
      ¬ ((∃ f ∈ fs, Covers headerSize f x) ∨ ∃ c ∈ r.chunk, InChunk c x) := by
    rintro x hx (⟨f, hfs, hfx⟩ | ⟨c, hc, hcx⟩)
    · exact hs.live_apart_free hb hfs x hx hfx
    · exact (hf c hc).unowned x hcx (hs.owned_of_live hb hx)
  constructor
  · intro x hu hx
    exact hkey x hx ((hh.covers x).1 (.inr hu))
  · intro f hfs x hx hfx
    exact hkey x hx ((hh.covers x).1 (.inl ⟨f, hfs, hfx⟩))

theorem Sound.handed (hh : Handed s.heap fs r u fs')
    (hf : ∀ c ∈ r.chunk, s.Fresh c) : Sound (s.afterMalloc r) fs' := by
  have hblock := hh.block_eq
  have hlive : (s.afterMalloc r).live = u :: s.live := by
    rw [State.afterMalloc, hblock]
  have hold : ∀ c ∈ s.live, Stored r.heap c := by
    intro c hc
    have hpos := (hs.placed c (mem_append_left _ hc)).pos
    have hself := covers_addr headerSize_pos c
    refine stored_of_ne (hs.stored c hc) (hh.frame c.addr (by omega) ?_ ?_)
    · rintro ⟨f, hfs, hx⟩
      exact hs.live_apart_free hc hfs _ hself hx
    · rintro ⟨k, hk, hx⟩
      exact (hf k hk).unowned _ hx (hs.owned_of_live hc hself)
  refine ⟨hh.listed, hh.spaced, ?_, ?_, ?_, ?_, ?_⟩
  · rw [hlive]
    exact forall_mem_cons.2 ⟨hh.stored, hold⟩
  · rw [hlive]
    exact forall_mem_cons.2 ⟨hh.used, hs.used⟩
  · rw [hlive, cons_append, pairwise_cons, pairwise_append]
    refine ⟨?_, (pairwise_append.1 hs.apart).1, hh.spaced.apart headerSize_pos, ?_⟩
    · intro c hc
      rcases mem_append.1 hc with hc | hc
      · exact (hs.apart_of_handed hh hf hc).1
      · exact hh.apart c hc
    · intro c hc f hfs
      exact (hs.apart_of_handed hh hf hc).2 f hfs
  · rw [hlive]
    intro c hc
    rw [cons_append] at hc
    rcases mem_cons.1 hc with rfl | hc
    · exact hh.here
    · rcases mem_append.1 hc with hc | hc
      · exact hs.placed c (mem_append_left _ hc)
      · exact hh.placed c hc
  · intro x
    have hcov := hh.covers x
    rw [hlive]
    simp only [State.afterMalloc, hs.owned x, cons_append, mem_cons, mem_append,
      or_and_right, exists_or, exists_eq_left] at hcov ⊢
    rw [or_assoc, ← hcov, ← or_assoc, or_comm]

theorem Sound.malloc_spec (hc : s.Careful (.malloc n))
    (hnew : (∀ f ∈ fs, f.size < alignUp n minSize) →
      s.Fresh (mmap (numBytes (alignUp n minSize)), numBytes (alignUp n minSize)))
    (hfuel : fs.length + 1 < fuel) :
    ∃ r u fs', allocate fuel mmap s.heap n = .ok r ∧ Handed s.heap fs r u fs' :=
  allocate_spec hs.listed hs.spaced hs.placed_free hc.1 (hc.2 fs hs.listed)
    (fun hall => hs.newChunk (hnew hall)) hfuel

theorem Sound.malloc (hc : s.Careful (.malloc n))
    (ho : allocate fuel mmap s.heap n = .ok r) (hf : ∀ c ∈ r.chunk, s.Fresh c) :
    ∃ fs', Sound (s.afterMalloc r) fs' := by
  have ho' : allocate (fuel + (fs.length + 2)) mmap s.heap n = .ok r := allocate_mono (by omega) ho
  have hnew : (∀ f ∈ fs, f.size < alignUp n minSize) →
      s.Fresh (mmap (numBytes (alignUp n minSize)), numBytes (alignUp n minSize)) := by
    intro hall
    rcases allocate_chunk hs.listed ho' (by omega) with ⟨⟨f, hfs, hle⟩, -⟩ | ⟨-, hchunk⟩
    · exact absurd (hall f hfs) (not_lt.2 hle)
    · exact hf _ hchunk
  have hfuel : fs.length + 1 < fuel + (fs.length + 2) := by omega
  obtain ⟨r', u, fs', hr', hh⟩ := hs.malloc_spec hc hnew hfuel
  cases hr'.symm.trans ho'
  exact ⟨fs', hs.handed hh hf⟩

theorem Sound.free_spec (hb : b ∈ s.live)
    (hnext : s.heap.freeList = 0 → s.heap.nextOf b.addr = 0) (hfuel : fs.length + 1 < fuel) :
    ∃ r, free fuel s.heap (b.addr + headerSize) = .ok r ∧ Released s.heap fs b r := by
  refine UserHeap.free_spec hs.listed hs.spaced hs.placed_free (hs.stored b hb)
    (hs.placed b (mem_append_left _ hb)) (fun f hf => (hs.live_apart_free hb hf).symm) ?_ hfuel
  rintro rfl
  exact hnext hs.listed.linked

end

theorem unmaps_giveBack {a} (hp : Placed a) (haddr : pageSize ∣ a.addr)
    (hsize : pageSize ∣ a.size + headerSize) (x : ℕ) :
    Unmaps (giveBack a) x ↔ Covers headerSize a x := by
  have hlt := hp.size_lt
  have hdown : alignDown a.addr pageSize = a.addr := Nat.div_mul_cancel haddr
  have hup : alignUp (u64 (a.size + headerSize)) pageSize = a.size + headerSize := by
    have hsmall : a.size + headerSize + (pageSize - 1) < 2 ^ 64 := by
      unfold headerSize pageSize
      omega
    rw [u64_of_lt (by omega)]
    have hround := alignUp_spec (by decide) hsmall
    have hnot := mt (lt_alignUp_iff (by decide) hsmall).1 (not_not_intro hsize)
    omega
  simp only [Unmaps, giveBack, hdown, hup, Covers, Block.stop]
  omega

section

variable (hs : Sound s fs)

include hs

section

variable (hb : b ∈ s.live)

include hb

/-- The free blocks with `b` among them: apart from what stays in use, and with the bytes of
`b` and of the free blocks. -/
theorem Sound.released_spec : Spaced headerSize (released b fs) ∧ (∀ f ∈ released b fs, Placed f) ∧
      (∀ c ∈ s.live.erase b, ∀ f ∈ released b fs, Apart headerSize c f) ∧
      ∀ x, (∃ f ∈ released b fs, Covers headerSize f x) ↔
        Covers headerSize b x ∨ ∃ f ∈ fs, Covers headerSize f x := by
  have hp := hs.placed b (mem_append_left _ hb)
  refine ⟨?_, ?_, ?_, ?_⟩
  · exact spaced_insert headerSize_pos hs.spaced fun f hf => (hs.live_apart_free hb hf).symm
  · exact forall_mem_insert (fun _ _ ha hc he => ha.join hc he) hs.placed_free
      ⟨hp.pos, hp.stop_le, hp.addr_dvd, hp.size_dvd⟩
  · intro c hc
    have hlive := (pairwise_append.1 hs.apart).1
    have hperm := (perm_cons_erase hb).pairwise_iff (fun h => h.symm) |>.1 hlive
    have hcb : Apart headerSize b c := (pairwise_cons.1 hperm).1 c hc
    refine apart_insert (fun x hx hx' => hcb x hx' hx) ?_
    exact fun f hf => hs.live_apart_free (mem_of_mem_erase hc) hf
  · intro x
    exact exists_covers_insert (b := { b with free := true }) x

theorem Sound.owned_released (x : ℕ) : s.owned x ↔ (∃ c ∈ s.live.erase b, Covers headerSize c x) ∨
      ∃ f ∈ released b fs, Covers headerSize f x := by
  have hmem : ∀ c, c ∈ s.live ↔ c = b ∨ c ∈ s.live.erase b := by
    intro c
    rw [(perm_cons_erase hb).mem_iff, mem_cons]
  rw [hs.owned, (hs.released_spec hb).2.2.2]
  simp only [mem_append, hmem, or_and_right, exists_or, exists_eq_left]
  rw [or_assoc, or_left_comm]

theorem Sound.unmaps_iff {r} (hc : s.Careful (.free b)) (hr : Released s.heap fs b r) (x : ℕ) :
    (∃ u ∈ r.unmapped, Unmaps u x) ↔
      ∃ a ∈ (sweep (fun x => (s.heap.mem x).isStartOfChunk) (released b fs)).2,
        Covers headerSize a x := by
  have hpages := hc.2 fs hs.listed
  have hplaced := (hs.released_spec hb).2.1
  have hperm := sweep_perm (fun x => (s.heap.mem x).isStartOfChunk) (released b fs)
  rw [hr.unmapped]
  constructor
  · rintro ⟨u, hu, hx⟩
    obtain ⟨a, ha, rfl⟩ := mem_map.1 hu
    have hp := hplaced a (hperm.mem_iff.2 (mem_append_right _ ha))
    exact ⟨a, ha, (unmaps_giveBack hp (hpages a ha).1 (hpages a ha).2 x).1 hx⟩
  · rintro ⟨a, ha, hx⟩
    have hp := hplaced a (hperm.mem_iff.2 (mem_append_right _ ha))
    exact ⟨giveBack a, mem_map_of_mem ha,
      (unmaps_giveBack hp (hpages a ha).1 (hpages a ha).2 x).2 hx⟩

theorem Sound.not_unmaps {r} (hc : s.Careful (.free b)) (hr : Released s.heap fs b r)
    (hcl : c ∈ s.live.erase b) (hx : Covers headerSize c x) : ¬ ∃ u ∈ r.unmapped, Unmaps u x := by
  rw [hs.unmaps_iff hb hc hr]
  rintro ⟨a, ha, hax⟩
  have hperm := sweep_perm (fun x => (s.heap.mem x).isStartOfChunk) (released b fs)
  exact (hs.released_spec hb).2.2.1 c hcl a (hperm.mem_iff.2 (mem_append_right _ ha)) x hx hax

theorem Sound.released {r} (hc : s.Careful (.free b)) (hr : Released s.heap fs b r) :
    Sound (s.afterFree b r)
      (sweep (fun x => (s.heap.mem x).isStartOfChunk) (UserHeap.released b fs)).1 := by
  obtain ⟨hspaced, hplaced, hcross, hcov⟩ := hs.released_spec hb
  have hperm := sweep_perm (fun x => (s.heap.mem x).isStartOfChunk) (UserHeap.released b fs)
  have hsub := sweep_sublist (fun x => (s.heap.mem x).isStartOfChunk) (UserHeap.released b fs)
  have hunmaps := hs.unmaps_iff hb hc hr
  have hlisted := hr.listed
  have hapart := (hperm.pairwise_iff fun h => h.symm).1 (hspaced.apart headerSize_pos)
  generalize sweep (fun x => (s.heap.mem x).isStartOfChunk) (UserHeap.released b fs) = w at *
  have hold : ∀ c ∈ s.live.erase b, c ∈ s.live := fun _ => mem_of_mem_erase
  have hlive := ((perm_cons_erase hb).pairwise_iff fun h => h.symm).1
    (pairwise_append.1 hs.apart).1
  rw [pairwise_cons] at hlive
  refine ⟨hlisted, hspaced.sublist hsub, ?_, fun c hcl => hs.used c (hold c hcl), ?_, ?_, ?_⟩
  · intro c hcl
    have hpos := (hs.placed c (mem_append_left _ (hold c hcl))).pos
    refine stored_of_ne (hs.stored c (hold c hcl)) (hr.frame c.addr (by omega) ?_ ?_)
    · exact ((hlive.1 c hcl).addr_ne headerSize_pos).symm
    · intro hm
      obtain ⟨f, hf, he⟩ := mem_map.1 hm
      exact (hs.live_apart_free (hold c hcl) hf).addr_ne headerSize_pos he.symm
  · refine pairwise_append.2 ⟨hlive.2, (pairwise_append.1 hapart).1, ?_⟩
    intro c hcl f hf
    exact hcross c hcl f (hsub.subset hf)
  · intro c hcl
    rcases mem_append.1 hcl with hcl | hcl
    · exact hs.placed c (mem_append_left _ (hold c hcl))
    · exact hplaced c (hsub.subset hcl)
  · intro x
    change s.owned x ∧ _ ↔ _
    rw [hs.owned_released hb, hunmaps]
    constructor
    · rintro ⟨⟨c, hcl, hx⟩ | ⟨f, hf, hx⟩, hnot⟩
      · exact ⟨c, mem_append_left _ hcl, hx⟩
      · rcases mem_append.1 (hperm.mem_iff.1 hf) with hf | hf
        · exact ⟨f, mem_append_right _ hf, hx⟩
        · exact absurd ⟨f, hf, hx⟩ hnot
    · rintro ⟨c, hcl, hx⟩
      rcases mem_append.1 hcl with hcl | hcl
      · refine ⟨.inl ⟨c, hcl, hx⟩, ?_⟩
        rintro ⟨a, ha, hax⟩
        exact hcross c hcl a (hperm.mem_iff.2 (mem_append_right _ ha)) x hx hax
      · refine ⟨.inr ⟨c, hsub.subset hcl, hx⟩, ?_⟩
        rintro ⟨a, ha, hax⟩
        exact (pairwise_append.1 hapart).2.2 c hcl a ha x hx hax

theorem Sound.free {r} (hnext : s.heap.freeList = 0 → s.heap.nextOf b.addr = 0)
    (ho : free fuel s.heap (b.addr + headerSize) = .ok r) : Released s.heap fs b r := by
  have ho' := free_mono (Nat.le_add_right fuel (fs.length + 2)) ho
  have hfuel : fs.length + 1 < fuel + (fs.length + 2) := by omega
  obtain ⟨r', hr', hrel⟩ := hs.free_spec hb hnext hfuel
  cases hr'.symm.trans ho'
  exact hrel

end

theorem Sound.step {x} (hc : s.Careful x) (hstep : Step s x s') : ∃ fs', Sound s' fs' := by
  cases hstep with
  | malloc fuel n mmap r ho hf => exact hs.malloc hc ho hf
  | free fuel b r hb ho => exact ⟨_, hs.released hb hc (hs.free hb hc.1 ho)⟩
  | store mem hm => exact ⟨fs, hs.store hm⟩

end

theorem Reachable.sound (h : Reachable State.Careful s) : ∃ fs, Sound s fs := by
  induction h with
  | init mem => exact ⟨[], sound_initial mem⟩
  | step h hm hs ih =>
    obtain ⟨fs, hsound⟩ := ih
    exact hsound.step hm hs

end UserHeap
