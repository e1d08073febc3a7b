import FrostyOS.UserHeap

/-! # The free list of the user heap

Entering a block puts it in its place among the free blocks, joined with those that it
touches. An empty list needs one thing of the block: that its `next` field is null. -/
namespace UserHeap

open MachineWord HeapAllocator BlockTiling SortedBlocks Block Heap List

structure Listed (h : Heap) (fs : List Block) : Prop where
  stored : ∀ f ∈ fs, Stored h f
  free : ∀ f ∈ fs, f.free = true
  linked : Linked h.nextOf h.freeList (fs.map addr)

structure Placed (b : Block) : Prop where
  pos : 0 < b.addr
  stop_le : b.stop headerSize ≤ 2 ^ 47
  addr_dvd : 16 ∣ b.addr
  size_dvd : 16 ∣ b.size

variable {h : Heap} {a b c : Block} {fs pre post : List Block} {curr x : ℕ}

theorem Listed.eq_map (hl : Listed h fs) :
    fs = (fs.map addr).map fun a => ⟨a, (h.mem a).size, true⟩ := by
  rw [map_map]
  refine (map_congr_left ?_).trans (map_id' fs) |>.symm
  intro f hf
  rw [Function.comp_apply, (hl.stored f hf).1, ← hl.free f hf]

theorem Listed.unique {fs'} (hl : Listed h fs) (hl' : Listed h fs') : fs = fs' := by
  rw [hl.eq_map, hl'.eq_map, hl.linked.unique hl'.linked]

theorem Placed.size_lt (hb : Placed b) : b.size < 2 ^ 62 := by
  have hstop := hb.stop_le
  unfold stop at hstop
  omega

theorem Placed.join (ha : Placed a) (hb : Placed b) (h : a.stop headerSize = b.addr) :
    Placed (a.join headerSize b) where
  pos := ha.pos
  stop_le := by
    rw [Block.join_stop h]
    exact hb.stop_le
  addr_dvd := ha.addr_dvd
  size_dvd := by
    have h₁ := ha.size_dvd
    have h₂ := hb.size_dvd
    simp only [Block.join, headerSize]
    omega

section Stores

variable (h : Heap) (a x v : ℕ) (f : Bool)

@[simp] theorem setSize_isStartOfChunk :
    ((h.setSize a v).mem x).isStartOfChunk = (h.mem x).isStartOfChunk := by
  by_cases hx : x = a <;> simp [setSize, hx]

@[simp] theorem setIsFree_isStartOfChunk :
    ((h.setIsFree a f).mem x).isStartOfChunk = (h.mem x).isStartOfChunk := by
  by_cases hx : x = a <;> simp [setIsFree, hx]

@[simp] theorem setNext_isStartOfChunk :
    ((h.setNext a v).mem x).isStartOfChunk = (h.mem x).isStartOfChunk := by
  by_cases hx : x = a <;> simp [setNext, hx]

end Stores

variable {xs : List Block} {fuel header prev : ℕ}

theorem mergeNext_isStartOfChunk :
    ((mergeNext h header curr).mem x).isStartOfChunk = (h.mem x).isStartOfChunk := by
  unfold mergeNext
  split <;> simp [swallow]

theorem insertBefore_isStartOfChunk :
    ((insertBefore h prev curr header).mem x).isStartOfChunk = (h.mem x).isStartOfChunk := by
  unfold insertBefore
  split
  · rw [mergeNext_isStartOfChunk]
  · dsimp only
    rw [mergeNext_isStartOfChunk, mergePrev]
    split <;> simp [swallow]

theorem insertAtEnd_isStartOfChunk :
    ((insertAtEnd h prev header).mem x).isStartOfChunk = (h.mem x).isStartOfChunk := by
  unfold insertAtEnd
  dsimp only
  split <;> simp [swallow]

theorem insertAt_isStartOfChunk (r : List ℕ) :
    ((insertAt h prev header r).mem x).isStartOfChunk = (h.mem x).isStartOfChunk := by
  cases r with
  | nil => exact insertAtEnd_isStartOfChunk
  | cons c r => exact insertBefore_isStartOfChunk

theorem mergeable_placed : Mergeable Placed where
  pos hb := hb.pos
  top hb := Nat.lt_of_le_of_lt hb.stop_le (by decide)
  size_lt hb := hb.size_lt
  join ha hb he := ha.join hb he

theorem listed_of_freeList {P} (hl : FreeList P h fs) : Listed h fs :=
  ⟨hl.stored, hl.free, hl.linked⟩

/-- The walk stops at the first entry above the header, or behind the last one; it reads
the entries up to there. -/
theorem addToFreeListLoop_eq (r₁ r₂ : List ℕ) (h₁ : ∀ a ∈ r₁, a < header)
    (h₂ : ∀ a ∈ r₂, header < a) (hp : prev < header) (hl : Linked h.nextOf curr (r₁ ++ r₂))
    (hfuel : r₁.length < fuel) :
    addToFreeListLoop fuel h prev curr header =
      .ok (insertAt h (r₁.getLastD prev) header r₂, r₁ ++ r₂.take 1) := by
  induction r₁ generalizing prev curr fuel with
  | nil =>
    obtain ⟨fuel, rfl⟩ := Nat.exists_eq_succ_of_ne_zero (ne_of_gt hfuel)
    cases r₂ with
    | nil =>
      have hcurr : curr = 0 := hl
      simp [addToFreeListLoop, insertAt, hcurr]
    | cons c r₂ =>
      obtain ⟨rfl, h0, -⟩ := hl
      have hc := h₂ curr (by simp)
      simp [addToFreeListLoop, insertAt, h0, hp, hc]
  | cons a r₁ ih =>
    obtain ⟨fuel, rfl⟩ := Nat.exists_eq_succ_of_ne_zero (ne_of_gt (Nat.zero_lt_of_lt hfuel))
    obtain ⟨rfl, h0, hrest⟩ := hl
    have ha := h₁ curr (by simp)
    have hnot : ¬ (prev < header ∧ header < curr) := fun hc => by omega
    have hloop := ih (fun x hx => h₁ x (mem_cons_of_mem _ hx)) ha hrest (by simpa using hfuel)
    rw [addToFreeListLoop, if_neg h0, if_neg hnot]
    refine bind_eq_ok.2 ⟨_, hloop, ?_⟩
    rw [getLastD_cons, cons_append]

structure Entered (h h' : Heap) (walk : Walk) (b : Block) (fs : List Block) : Prop where
  listed : Listed h' (insert headerSize b fs)
  frame : ∀ x, x ≠ 0 → x ≠ b.addr → x ∉ fs.map addr → h'.mem x = h.mem x
  flags : ∀ x, (h'.mem x).isStartOfChunk = (h.mem x).isStartOfChunk
  inserted : walk.inserted = b.addr
  reads : ∀ x ∈ walk.reads, x = b.addr ∨ x ∈ fs.map addr

/-- An empty list: the walk reads the block's own `next` field, which has to be null. -/
theorem addToFreeList_nil (hl : Listed h []) (hs : Stored h b) (hf : b.free) (hp : Placed b)
    (hnext : h.nextOf b.addr = 0) (hfuel : 1 < fuel) :
    ∃ h' walk, addToFreeList fuel h b.addr = .ok (h', walk) ∧ Entered h h' walk b [] := by
  obtain ⟨k, rfl⟩ : ∃ k, fuel = k + 2 := ⟨fuel - 2, by omega⟩
  have hempty : h.freeList = 0 := hl.linked
  have hpos := hp.pos
  have hloop : addToFreeListLoop (k + 2) { h with freeList := b.addr } 0 b.addr b.addr =
      .ok (insertAtEnd { h with freeList := b.addr } b.addr b.addr, [b.addr]) := by
    have hcurr : (h.mem b.addr).next = 0 := hnext
    have hne : b.addr ≠ 0 := by omega
    simp [addToFreeListLoop, hcurr, hne, bind_eq_ok]
  have hmeet : ¬ ((({ h with freeList := b.addr } : Heap).setNext b.addr b.addr).setNext
      b.addr 0).meets b.addr b.addr = true := by
    have hs' : Stored ((({ h with freeList := b.addr } : Heap).setNext b.addr b.addr).setNext
        b.addr 0) b := Stored.congr (h := h) hs (by simp) (by simp)
    rw [meets_iff mergeable_placed hp hs']
    have hlt := addr_lt_stop b
    omega
  have hend : insertAtEnd { h with freeList := b.addr } b.addr b.addr =
      (({ h with freeList := b.addr } : Heap).setNext b.addr b.addr).setNext b.addr 0 := by
    unfold insertAtEnd
    dsimp only
    rw [if_neg]
    rw [Bool.and_eq_true]
    exact fun hc => hmeet hc.1
  refine ⟨insertAtEnd { h with freeList := b.addr } b.addr b.addr, ⟨b.addr, [b.addr]⟩, ?_,
    ?_, ?_, ?_, rfl, by simp⟩
  · unfold addToFreeList
    rw [if_pos hempty]
    exact bind_eq_ok.2 ⟨_, hloop, rfl⟩
  · rw [hend]
    have hr : Ready Placed h [b] := ⟨by simpa using hs, by simpa using hf, by simpa using hp,
      pairwise_singleton _ _⟩
    have hlist : FreeList Placed ((({ h with freeList := b.addr } : Heap).setNext b.addr
        b.addr).setNext b.addr 0) ([] ++ [b]) :=
      Ready.link mergeable_placed (hr.congr (by simp) (by simp)) rfl rfl
    exact listed_of_freeList hlist
  · intro x _ hx _
    exact insertAtEnd_mem hx hx
  · intro x
    exact insertAtEnd_isStartOfChunk

theorem Listed.freeList_ne (hl : Listed h fs) (hfs : fs ≠ []) : h.freeList ≠ 0 := by
  obtain ⟨f, rest, rfl⟩ := exists_cons_of_ne_nil hfs
  obtain ⟨he, h0, -⟩ := hl.linked
  rwa [he]

/-- In a list that is not empty, the walk ends between the blocks below `b` and those above
it. -/
theorem addToFreeList_eq (hl : Listed h fs) (ha : Ascending headerSize fs) (hp : Placed b)
    (hb : ∀ f ∈ fs, Apart headerSize f b) (hfs : fs ≠ []) (hfuel : fs.length < fuel) :
    addToFreeList fuel h b.addr = .ok (insertAt h (lastAddr ((below b fs).map addr)) b.addr
          ((above b fs).map addr),
        ⟨b.addr, (below b fs).map addr ++ ((above b fs).map addr).take 1⟩) := by
  have hsplit := below_append_above b fs
  have hlink : Linked h.nextOf h.freeList
      ((below b fs).map addr ++ (above b fs).map addr) := by
    rw [← map_append, hsplit]
    exact hl.linked
  have hbelow : ∀ x ∈ (below b fs).map addr, x < b.addr := by
    intro x hx
    obtain ⟨p, hpm, rfl⟩ := mem_map.1 hx
    exact addr_lt_of_mem_below hpm
  have habove : ∀ x ∈ (above b fs).map addr, b.addr < x := by
    intro x hx
    obtain ⟨q, hqm, rfl⟩ := mem_map.1 hx
    have hle := (ascending_middle.1 (ascending_insert headerSize_pos ha hb)).2.2 q hqm
    have hlt := addr_lt_stop b
    omega
  have hlen : ((below b fs).map addr).length < fuel := by
    have hsum := congrArg List.length hsplit
    rw [length_append] at hsum
    rw [length_map]
    omega
  have hloop := addToFreeListLoop_eq _ _ hbelow habove hp.pos hlink hlen
  unfold addToFreeList
  rw [if_neg (hl.freeList_ne hfs)]
  exact bind_eq_ok.2 ⟨_, hloop, rfl⟩

theorem addToFreeList_spec (hl : Listed h fs) (ha : Ascending headerSize fs)
    (hps : ∀ f ∈ fs, Placed f) (hs : Stored h b) (hf : b.free) (hp : Placed b)
    (hb : ∀ f ∈ fs, Apart headerSize f b) (hnext : fs = [] → h.nextOf b.addr = 0)
    (hfuel : fs.length + 1 < fuel) :
    ∃ h' walk, addToFreeList fuel h b.addr = .ok (h', walk) ∧ Entered h h' walk b fs := by
  by_cases hfs : fs = []
  · subst hfs
    exact addToFreeList_nil hl hs hf hp (hnext rfl) hfuel
  have hsplit := below_append_above b fs
  have hadd := addToFreeList_eq hl ha hp hb hfs (Nat.lt_of_succ_lt hfuel)
  refine ⟨_, _, hadd, ?_, ?_, fun x => insertAt_isStartOfChunk _, rfl, ?_⟩
  · have hr : Ready Placed h (below b fs ++ b :: above b fs) :=
      ⟨forall_mem_middle hl.stored hs, forall_mem_middle hl.free hf, forall_mem_middle hps hp,
        ascending_insert headerSize_pos ha hb⟩
    refine listed_of_freeList (insertAt_spec mergeable_placed hr (hl.freeList_ne hfs) ?_).1
    rw [← map_append, hsplit]
    exact hl.linked
  · intro x h0 hx hxs
    refine insertAt_mem ?_ hx _
    rw [← hsplit, map_append, mem_append, not_or] at hxs
    rintro rfl
    rcases lastAddr_mem ((below b fs).map addr) with hz | hm
    · exact h0 hz
    · exact hxs.1 hm
  · intro x hx
    refine .inr ?_
    rw [← hsplit, map_append]
    rcases mem_append.1 hx with hx | hx
    · exact mem_append_left _ hx
    · exact mem_append_right _ (mem_of_mem_take hx)

theorem Listed.congr {h'} (hl : Listed h fs) (hmem : ∀ f ∈ fs, h'.mem f.addr = h.mem f.addr)
    (hlist : h'.freeList = h.freeList) :
    Listed h' fs := by
  refine ⟨fun f hf => stored_of_ne (hl.stored f hf) (hmem f hf), hl.free, ?_⟩
  rw [hlist]
  refine Segment.congr hl.linked fun x hx => ?_
  obtain ⟨f, hf, rfl⟩ := mem_map.1 hx
  rw [nextOf, nextOf, hmem f hf]

theorem unlink_mem (hx : x ≠ prev) : (unlink h prev curr).mem x = h.mem x := by
  unfold unlink
  split
  · rfl
  · exact setNext_mem _ _ hx

theorem unlink_isStartOfChunk :
    ((unlink h prev curr).mem x).isStartOfChunk = (h.mem x).isStartOfChunk := by
  unfold unlink
  split <;> simp

theorem unlink_listed (hl : Listed h (pre ++ b :: post))
    (ha : Ascending headerSize (pre ++ b :: post)) :
    Listed (unlink h (lastAddr (pre.map addr)) b.addr) (pre ++ post) := by
  have hlist : FreeList (fun _ => True) h (pre ++ b :: post) :=
    ⟨⟨hl.stored, hl.free, fun _ _ => trivial, ha⟩, hl.linked⟩
  exact listed_of_freeList hlist.unlink

end UserHeap
