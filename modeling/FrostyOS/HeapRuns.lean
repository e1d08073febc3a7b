import FrostyOS.HeapAllocator

/-! # Runs of the kernel heap

From the constructor on, clients allocate, free live pointers and write into the payloads
they own. The live pointers are ghost state. -/
namespace HeapRuns

open MachineWord BlockTiling HeapAllocator List

/-- What the heap relies on from `g_KPM->AllocatePages`: no pages for a request of none, and
otherwise page-aligned pages in the kernel half of the address space, below its last byte. -/
structure KernelPages where
  allocatePages : ℕ → ℕ
  none_of_zero : allocatePages 0 = 0
  aligned : ∀ n, pageSize ∣ allocatePages n
  kernelHalf : ∀ n, allocatePages n ≠ 0 → 2 ^ 64 - 2 ^ 47 ≤ allocatePages n
  below_top : ∀ n, allocatePages n ≠ 0 → allocatePages n + n * pageSize < 2 ^ 64

def numPages (size : ℕ) : ℕ := divRoundup (u64 (size + headerSize)) pageSize

def numBytes (size : ℕ) : ℕ := u64 (numPages size * pageSize)

/-- The constructor. A null page range is dereferenced, so nothing follows it; `mem` is
what the rest of the address space reads as. -/
def construct (K : KernelPages) (mem : ℕ → BlockHeader) (size : ℕ) : Option Heap :=
  let ptr := K.allocatePages (numPages size)
  if ptr = 0 then none
  else
    let header : BlockHeader :=
      { mem ptr with
        size := subWord (numBytes size) headerSize % 2 ^ 62
        isFree := true
        isStartOfChunk := true }
    some
      { mem := Function.update mem ptr header
        freeList := ptr
        freeMem := header.size
        usedMem := 0
        metadataMem := headerSize }

structure State where
  heap : Heap
  live : List (ℕ × ℕ)

/-- A client store changes only what overlaps a payload it was given: the header-sized
window at `a` meets the `n` bytes at `p`. -/
def ClientStore (live : List (ℕ × ℕ)) (mem mem' : ℕ → BlockHeader) : Prop :=
  ∀ a, mem' a ≠ mem a → ∃ p n, (p, n) ∈ live ∧ p < a + headerSize ∧ a < p + n

inductive Step : State → State → Prop where
  | allocate (s : State) (fuel n p : ℕ) (h' : Heap) (hn : n + 15 < 2 ^ 64)
      (ho : allocate fuel s.heap n = .ok (h', p)) :
      Step s ⟨h', (p, n) :: s.live⟩
  | free (s : State) (fuel p n : ℕ) (h' : Heap) (hp : (p, n) ∈ s.live)
      (ho : free fuel s.heap p = .ok h') :
      Step s ⟨h', s.live.filter (fun e => e.1 ≠ p)⟩
  | store (s : State) (mem' : ℕ → BlockHeader) (hm : ClientStore s.live s.heap.mem mem') :
      Step s ⟨{ s.heap with mem := mem' }, s.live⟩

inductive Reachable (K : KernelPages) (size : ℕ) : State → Prop where
  | start (mem : ℕ → BlockHeader) (h : Heap)
      (hz : (mem (K.allocatePages (numPages size))).next = 0)
      (hc : construct K mem size = some h) : Reachable K size ⟨h, []⟩
  | step {s t : State} : Reachable K size s → Step s t → Reachable K size t

/-- The used blocks are the live pointers, each with the room it was asked for. -/
structure Invariant (lo hi : ℕ) (s : State) (bs : List Block) : Prop where
  rep : Represents lo hi s.heap bs
  coalesced : Coalesced bs
  live_block : ∀ p n, (p, n) ∈ s.live →
    ∃ b ∈ bs, b.free = false ∧ p = b.addr + headerSize ∧ n ≤ b.size
  block_live : ∀ b ∈ bs, b.free = false → ∃ n, (b.addr + headerSize, n) ∈ s.live
  distinct : (s.live.map Prod.fst).Nodup

theorem numPages_bound (size : ℕ) : numPages size * pageSize < 2 ^ 64 := by
  have h := u64_lt (u64 (size + headerSize) + (pageSize - 1))
  unfold numPages divRoundup pageSize at *
  omega

theorem numBytes_eq (size : ℕ) : numBytes size = numPages size * pageSize :=
  u64_of_lt (numPages_bound size)

variable {h h' : Heap} {mem mem' : ℕ → BlockHeader} {K : KernelPages} {fuel size : ℕ}

theorem construct_cases (hc : construct K mem size = some h) :
    K.allocatePages (numPages size) ≠ 0 ∧ 0 < numPages size ∧
    h.freeList = K.allocatePages (numPages size) ∧ h.mem (K.allocatePages (numPages size)) =
      { mem (K.allocatePages (numPages size)) with
        size := subWord (numBytes size) headerSize % 2 ^ 62
        isFree := true
        isStartOfChunk := true } := by
  unfold construct at hc
  by_cases h0 : K.allocatePages (numPages size) = 0
  · simp [h0] at hc
  rw [if_neg h0] at hc
  cases hc
  refine ⟨h0, Nat.pos_of_ne_zero fun hz => ?_, rfl, by simp⟩
  rw [hz] at h0
  exact h0 K.none_of_zero

theorem arena_of_pages (K : KernelPages) (h0 : K.allocatePages (numPages size) ≠ 0) :
    Arena (K.allocatePages (numPages size))
      (K.allocatePages (numPages size) + numBytes size) := by
  have hk := K.kernelHalf _ h0
  have ht := K.below_top _ h0
  rw [numBytes_eq]
  exact ⟨by omega, ht, by omega⟩

theorem initial_invariant (hz : (mem (K.allocatePages (numPages size))).next = 0)
    (hc : construct K mem size = some h) :
    Invariant (K.allocatePages (numPages size))
      (K.allocatePages (numPages size) + numBytes size) ⟨h, []⟩
      [⟨K.allocatePages (numPages size), numBytes size - headerSize, true⟩] := by
  obtain ⟨h0, hpos, hlist, hmem⟩ := construct_cases hc
  have hA := arena_of_pages K h0
  have hbytes := numBytes_eq size
  have hspan := hA.span
  have hsize : subWord (numBytes size) headerSize % 2 ^ 62 = numBytes size - headerSize := by
    rw [subWord_of_le (by omega) (by unfold headerSize pageSize at *; omega)]
    exact Nat.mod_eq_of_lt (by omega)
  constructor
  · refine ⟨⟨rfl, ?_⟩, ?_, ?_⟩
    · unfold Tiles Block.stop headerSize pageSize at *
      dsimp only
      omega
    · intro b hb
      rw [mem_singleton] at hb
      subst hb
      exact ⟨by rw [hmem]; exact hsize, by rw [hmem]⟩
    · refine ⟨hlist, h0, ?_⟩
      show h.nextOf _ = 0
      rw [Heap.nextOf, hmem]
      exact hz
  · exact List.IsChain.singleton _
  · intro p n hm; cases hm
  · intro b hb hf
    rw [mem_singleton] at hb
    subst hb
    cases hf
  · exact nodup_nil

section Fuel

variable {h h' : Heap} {fuel fuel' : ℕ}

section

variable (hle : fuel ≤ fuel')

include hle

variable {curr prev : ℕ}

theorem addToFreeListLoop_mono {header : ℕ}
    (ho : addToFreeListLoop fuel h prev curr header = .ok h') :
    addToFreeListLoop fuel' h prev curr header = .ok h' := by
  induction fuel generalizing fuel' prev curr with
  | zero => cases ho
  | succ fuel ih =>
    obtain ⟨k, rfl⟩ : ∃ k, fuel' = k + 1 := ⟨fuel' - 1, by omega⟩
    unfold addToFreeListLoop at ho ⊢
    by_cases h0 : curr = 0
    · rwa [if_pos h0] at ho ⊢
    rw [if_neg h0] at ho ⊢
    by_cases hc : prev < header ∧ header < curr
    · rwa [if_pos hc] at ho ⊢
    · rw [if_neg hc] at ho ⊢
      exact ih (by omega) ho

theorem addToFreeList_mono {header : ℕ}
    (ho : addToFreeList fuel h header = .ok h') : addToFreeList fuel' h header = .ok h' := by
  unfold addToFreeList at ho ⊢
  by_cases h0 : h.freeList = 0
  · rwa [if_pos h0] at ho ⊢
  · rw [if_neg h0] at ho ⊢
    exact addToFreeListLoop_mono hle ho

variable {size : ℕ}

theorem splitTail_mono
    (ho : splitTail fuel h curr size = .ok h') : splitTail fuel' h curr size = .ok h' := by
  unfold splitTail at ho ⊢
  by_cases hc : u64 (size + headerSize) < (h.mem curr).size
  · rw [if_pos hc] at ho ⊢
    obtain ⟨g, hg, he⟩ := bind_eq_ok.mp ho
    exact bind_eq_ok.mpr ⟨g, addToFreeList_mono hle hg, he⟩
  · rwa [if_neg hc] at ho ⊢

theorem take_mono {r} (ho : take fuel h prev curr size = .ok r) :
    take fuel' h prev curr size = .ok r := by
  obtain ⟨g, hg, he⟩ := bind_eq_ok.mp ho
  exact bind_eq_ok.mpr ⟨g, splitTail_mono hle hg, he⟩

theorem allocateLoop_mono {turns turns' : ℕ} {r} (ht : turns ≤ turns')
    (ho : allocateLoop fuel turns h prev curr size = .ok r) :
    allocateLoop fuel' turns' h prev curr size = .ok r := by
  induction turns generalizing turns' prev curr with
  | zero => cases ho
  | succ turns ih =>
    obtain ⟨k, rfl⟩ : ∃ k, turns' = k + 1 := ⟨turns' - 1, by omega⟩
    unfold allocateLoop at ho ⊢
    by_cases h0 : curr = 0
    · rw [if_pos h0] at ho
      cases ho
    rw [if_neg h0] at ho ⊢
    by_cases hc : size ≤ (h.mem curr).size
    · rw [if_pos hc] at ho ⊢
      exact take_mono hle ho
    · rw [if_neg hc] at ho ⊢
      exact ih (by omega) ho

end

end Fuel

variable {lo hi : ℕ} {s t : State} {bs : List Block}

theorem freeAddrs_length_lt (hI : Invariant lo hi s bs) : (freeAddrs bs).length < hi - lo + 1 := by
  have hlen := hI.rep.tiles.length_le
  have hfree : (freeAddrs bs).length ≤ bs.length := freeAddrs_length_le
  unfold headerSize at hlen
  omega

variable {p n : ℕ}

theorem allocate_step (A : Arena lo hi) (hI : Invariant lo hi s bs)
    (ho : allocate fuel s.heap n = .ok (h', p)) :
    ∃ bs' u xs b ys, bs = xs ++ b :: ys ∧ p = b.addr + headerSize ∧
      FirstFit (alignUp n minSize) xs b ∧ Represents lo hi h' bs' ∧
      Carved (alignUp n minSize) xs b ys bs' u ∧
      Charged s.heap bs h' bs' (alignUp n minSize) u := by
  have hlen := freeAddrs_length_lt hI
  have ho' : allocate (fuel + (hi - lo + 1)) s.heap n = .ok (h', p) :=
    allocateLoop_mono (by omega) (by omega) ho
  rcases allocate_spec (n := n) A hI.rep (Nat.lt_add_left fuel hlen) with
    ⟨g, bs', u, xs, b, ys, hg, hbs, hfit, hrep, hC, hcharge⟩ | ⟨hg, -⟩
  · cases ho'.symm.trans hg
    exact ⟨bs', u, xs, b, ys, hbs, rfl, hfit, hrep, hC, hcharge⟩
  · rw [ho'] at hg; cases hg

theorem Carved.invariant (hI : Invariant lo hi s bs) {bs' xs ys u b} (hn : n + 15 < 2 ^ 64)
    (hbs : bs = xs ++ b :: ys) (hb : b.free) (hrep : Represents lo hi h' bs')
    (hC : Carved (alignUp n minSize) xs b ys bs' u) :
    Invariant lo hi ⟨h', (b.addr + headerSize, n) :: s.live⟩ bs' := by
  subst hbs
  have hroom : n ≤ u.size := (alignUp_spec (by decide) hn).1.trans hC.room
  refine ⟨hrep, hC.coalesced hI.coalesced, ?_, ?_, ?_⟩
  · intro q m hm
    rcases mem_cons.mp hm with he | hm
    · cases he
      exact ⟨u, hC.here, hC.used, by rw [hC.start], hroom⟩
    obtain ⟨c, hc, hf, hq, hsz⟩ := hI.live_block q m hm
    refine ⟨c, (hC.others c hf).mpr (.inr ?_), hf, hq, hsz⟩
    rcases mem_append.mp hc with hc | hc
    · exact .inl hc
    · rcases mem_cons.mp hc with rfl | hc
      · rw [hb] at hf; cases hf
      · exact .inr hc
  · intro c hc hf
    rcases (hC.others c hf).mp hc with rfl | hc
    · exact ⟨n, by rw [hC.start]; exact mem_cons_self⟩
    · obtain ⟨m, hm⟩ := hI.block_live c (by simp only [mem_append, mem_cons]; tauto) hf
      exact ⟨m, mem_cons_of_mem _ hm⟩
  · refine nodup_cons.mpr ⟨fun hm => ?_, hI.distinct⟩
    obtain ⟨⟨q, m⟩, hm, hq'⟩ := mem_map.mp hm
    obtain ⟨c, hc, hf, hq, -⟩ := hI.live_block q m hm
    have he := hI.rep.tiles.addr_inj headerSize_pos hc (c := b) (by simp)
      (Nat.add_right_cancel (hq.symm.trans hq'))
    rw [he, hb] at hf
    cases hf

theorem free_step (A : Arena lo hi) (hI : Invariant lo hi s bs) (hp : (p, n) ∈ s.live)
    (ho : free fuel s.heap p = .ok h') :
    ∃ xs b ys, bs = xs ++ b :: ys ∧ b.free = false ∧ p = b.addr + headerSize ∧
      Keeps { s.heap with usedMem := subWord s.heap.usedMem b.size } bs h'
        (settle headerSize xs { b with free := true } ys) ∧
      Invariant lo hi ⟨h', s.live.filter (fun e => e.1 ≠ p)⟩
        (settle headerSize xs { b with free := true } ys) := by
  obtain ⟨b, hb, hf, rfl, -⟩ := hI.live_block p n hp
  obtain ⟨xs, ys, rfl⟩ := append_of_mem hb
  have ho' : free (fuel + (hi - lo + 1)) s.heap (b.addr + headerSize) = .ok h' :=
    addToFreeList_mono (by omega) ho
  obtain ⟨g, hg, hrep, hkeep⟩ :=
    free_spec A hI.rep hf (Nat.lt_add_left fuel (freeAddrs_length_lt hI))
  cases ho'.symm.trans hg
  obtain ⟨hx, hy⟩ := (coalesced_middle_used hf).mp hI.coalesced
  refine ⟨xs, b, ys, rfl, hf, rfl, hkeep, hrep, coalesced_settle hx hy, ?_, ?_, ?_⟩
  · intro q m hm
    obtain ⟨hm, hne⟩ := mem_filter.mp hm
    obtain ⟨c, hc, hcf, rfl, hsz⟩ := hI.live_block q m hm
    refine ⟨c, (mem_settle_used hcf rfl).mpr ?_, hcf, rfl, hsz⟩
    rcases mem_append.mp hc with hc | hc
    · exact .inl hc
    · rcases mem_cons.mp hc with rfl | hc
      · simp at hne
      · exact .inr hc
  · intro c hc hcf
    have hside := (mem_settle_used hcf rfl).mp hc
    obtain ⟨m, hm⟩ := hI.block_live c (by simp only [mem_append, mem_cons]; tauto) hcf
    have hne := addr_ne hI.rep.tiles.sorted hside
    exact ⟨m, mem_filter.mpr ⟨hm, by simpa using hne⟩⟩
  · exact hI.distinct.sublist (filter_sublist.map _)

theorem header_unwritten (hI : Invariant lo hi s bs) (hm : ClientStore s.live s.heap.mem mem') {b}
    (hb : b ∈ bs) : mem' b.addr = s.heap.mem b.addr := by
  by_contra hne
  obtain ⟨p, n, hp, hlt, hlt'⟩ := hm b.addr hne
  obtain ⟨c, hc, -, rfl, hsz⟩ := hI.live_block p n hp
  obtain ⟨xs, ys, rfl⟩ := append_of_mem hc
  obtain ⟨hl, hr⟩ := tiles_middle.mp hI.rep.tiles
  rcases mem_append.mp hb with hb | hb
  · have := (hl.bounds hb).2
    unfold Block.stop at this
    omega
  rcases mem_cons.mp hb with rfl | hb
  · omega
  · have := (hr.bounds hb).1
    unfold Block.stop at this
    omega

theorem store_preserves_invariant (hI : Invariant lo hi s bs)
    (hm : ClientStore s.live s.heap.mem mem') :
    Invariant lo hi ⟨{ s.heap with mem := mem' }, s.live⟩ bs := by
  have hsame := fun b hb => header_unwritten hI hm (b := b) hb
  refine ⟨⟨hI.rep.tiles, ?_, ?_⟩, hI.coalesced, hI.live_block, hI.block_live, hI.distinct⟩
  · intro b hb
    have he := hsame b hb
    exact (hI.rep.stored b hb).congr (by rw [← he]) (by rw [← he])
  · refine Segment.congr hI.rep.linked fun a ha => ?_
    obtain ⟨b, hb, -, rfl⟩ := mem_freeAddrs.mp ha
    show (mem' b.addr).next = (s.heap.mem b.addr).next
    rw [hsame b hb]

theorem step_preserves_invariant (A : Arena lo hi) (hI : Invariant lo hi s bs)
    (hs : Step s t) : ∃ bs', Invariant lo hi t bs' := by
  cases hs with
  | allocate _ n p h' hn ho =>
    obtain ⟨bs', u, xs, b, ys, hbs, rfl, hfit, hrep, hC, -⟩ := allocate_step A hI ho
    exact ⟨bs', Carved.invariant hI hn hbs hfit.free hrep hC⟩
  | free _ p n h' hp ho =>
    obtain ⟨_, _, _, -, -, -, -, hI'⟩ := free_step A hI hp ho
    exact ⟨_, hI'⟩
  | store mem' hm => exact ⟨bs, store_preserves_invariant hI hm⟩

theorem reachable_invariant (hr : Reachable K size s) :
    let lo := K.allocatePages (numPages size)
    Arena lo (lo + numBytes size) ∧ ∃ bs, Invariant lo (lo + numBytes size) s bs := by
  induction hr with
  | start mem h hz hc =>
    exact ⟨arena_of_pages K (construct_cases hc).1, _, initial_invariant hz hc⟩
  | step _ hs ih =>
    obtain ⟨A, bs, hI⟩ := ih
    exact ⟨A, step_preserves_invariant A hI hs⟩

theorem operations_return (A : Arena lo hi) (hI : Invariant lo hi s bs) (hfuel : hi - lo < fuel) :
    (∀ n, allocate fuel s.heap n ≠ .error .unbounded) ∧
    (∀ p n, (p, n) ∈ s.live → ∃ h', free fuel s.heap p = .ok h') := by
  have hlen : (freeAddrs bs).length < fuel := by
    have := freeAddrs_length_lt hI
    omega
  constructor
  · intro n
    rcases allocate_spec (n := n) A hI.rep hlen with
      ⟨_, _, _, _, _, _, hg, -⟩ | ⟨hg, -⟩
    · rw [hg]; simp
    · rw [hg]; simp
  · intro p n hp
    obtain ⟨b, hb, hf, rfl, -⟩ := hI.live_block p n hp
    obtain ⟨xs, ys, rfl⟩ := append_of_mem hb
    obtain ⟨g, hg, -⟩ := free_spec A hI.rep hf hlen
    exact ⟨g, hg⟩

/-- After every run the headers and payloads tile the heap range, the free list ascends
through exactly the free blocks, no two of which touch, and the used blocks are the live
pointers, each inside the range with the room it was asked for. -/
theorem heap_stays_tiled (K : KernelPages) (size : ℕ) {s : State} (hr : Reachable K size s) :
    let lo := K.allocatePages (numPages size)
    let hi := lo + numBytes size
    ∃ bs, Tiles headerSize lo bs hi ∧ (∀ b ∈ bs, Stored s.heap b) ∧ Coalesced bs ∧
      (∃ l, Linked s.heap.nextOf s.heap.freeList l ∧ l.Pairwise (· < ·) ∧
        ∀ a, a ∈ l ↔ ∃ b ∈ bs, b.free = true ∧ b.addr = a) ∧
      (∀ p n, (p, n) ∈ s.live → lo ≤ p ∧ p + n ≤ hi ∧
        ∃ b ∈ bs, b.free = false ∧ p = b.addr + headerSize ∧ n ≤ b.size) ∧
      (∀ b ∈ bs, b.free = false → ∃ n, (b.addr + headerSize, n) ∈ s.live) ∧
      (s.live.map Prod.fst).Nodup ∧ ∀ fuel, numBytes size < fuel →
        (∀ n, allocate fuel s.heap n ≠ .error .unbounded) ∧
        (∀ p n, (p, n) ∈ s.live → ∃ h', free fuel s.heap p = .ok h') := by
  obtain ⟨A, bs, hI⟩ := reachable_invariant hr
  have ht := hI.rep.tiles
  refine ⟨bs, ht, hI.rep.stored, hI.coalesced,
    ⟨freeAddrs bs, hI.rep.linked, ht.freeAddrs_sorted headerSize_pos, fun a => mem_freeAddrs⟩,
    ?_, hI.block_live, hI.distinct, fun fuel hf => operations_return A hI (by omega)⟩
  intro p n hp
  obtain ⟨b, hb, hf, rfl, hsz⟩ := hI.live_block p n hp
  have hbnd := ht.bounds hb
  unfold Block.stop at hbnd
  exact ⟨by omega, by omega, b, hb, hf, rfl, hsz⟩

def onePage : KernelPages where
  allocatePages n := if n = 1 then 2 ^ 64 - 2 ^ 47 else 0
  none_of_zero := rfl
  aligned n := by split <;> decide
  kernelHalf n h := by split at h <;> simp_all
  below_top n h := by
    by_cases hn : n = 1
    · subst hn; decide
    · simp [hn] at h

def zeroMem : ℕ → BlockHeader := fun _ => ⟨0, false, false, 0⟩

def firstHeap : Heap := (construct onePage zeroMem 100).getD ⟨zeroMem, 0, 0, 0, 0⟩

def resultHeap (h : Heap) (x : Except Fault (Heap × ℕ)) : Heap := (x.toOption.map Prod.fst).getD h

theorem eq_ok_resultHeap {x : Except Fault (Heap × ℕ)}
    (hx : x.toOption.map Prod.snd = some p) : x = .ok (resultHeap h x, p) := by
  cases x with
  | error e => cases hx
  | ok r =>
    cases hx
    rfl

theorem onePage_two : ∃ s, Reachable onePage 100 s ∧
    s.live = [(2 ^ 64 - 2 ^ 47 + 64, 8), (2 ^ 64 - 2 ^ 47 + 16, 20)] := by
  have h0 : Reachable onePage 100 ⟨firstHeap, []⟩ := .start zeroMem _ rfl (by
    have hs : (construct onePage zeroMem 100).isSome := by decide +kernel
    exact (Option.getD_of_ne_none (Option.isSome_iff_ne_none.mp hs) _).symm)
  have h1 := h0.step (.allocate _ 4 20 (2 ^ 64 - 2 ^ 47 + 16) _ (by decide)
    (eq_ok_resultHeap (h := firstHeap) (by decide +kernel)))
  exact ⟨_, h1.step (.allocate _ 4 8 (2 ^ 64 - 2 ^ 47 + 64) _ (by decide)
    (eq_ok_resultHeap (h := firstHeap) (by decide +kernel))), rfl⟩

theorem onePage_run : ∃ s, Reachable onePage 100 s ∧ s.live = [(2 ^ 64 - 2 ^ 47 + 64, 8)] := by
  obtain ⟨s, hr, hl⟩ := onePage_two
  obtain ⟨A, bs, hI⟩ := reachable_invariant hr
  have hp : (2 ^ 64 - 2 ^ 47 + 16, 20) ∈ s.live := by rw [hl]; decide
  obtain ⟨h', hf⟩ := (operations_return A hI (Nat.lt_succ_self _)).2 _ _ hp
  exact ⟨_, hr.step (.free _ _ _ 20 h' hp hf), by simp [hl]⟩

theorem heap_stays_tiled_onePage :
    ∃ s, Reachable onePage 100 s ∧ s.live = [(2 ^ 64 - 2 ^ 47 + 64, 8)] ∧
      ∃ bs, Tiles headerSize (2 ^ 64 - 2 ^ 47) bs (2 ^ 64 - 2 ^ 47 + 4096) ∧ Coalesced bs := by
  obtain ⟨s, hr, hl⟩ := onePage_run
  obtain ⟨bs, ht, -, hc, -⟩ := heap_stays_tiled onePage 100 hr
  exact ⟨s, hr, hl, bs, ht, hc⟩

end HeapRuns
