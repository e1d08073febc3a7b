import FrostyOS.HeapRuns

/-! # Giving heap memory back

With all free neighbours merged, the blocks in use determine the free list. -/
namespace HeapRuns

open MachineWord BlockTiling HeapAllocator List

def freeAll (fuel : ℕ) : Heap → List ℕ → Except Fault Heap
  | h, [] => .ok h
  | h, p :: ps => do
    let h ← free fuel h p
    freeAll fuel h ps

/-- The free list has these addresses and sizes, in this order. -/
def FreeListIs (h : Heap) (l : List (ℕ × ℕ)) : Prop :=
  Linked h.nextOf h.freeList (l.map Prod.fst) ∧ ∀ e ∈ l, (h.mem e.1).size = e.2

def freeEntries (bs : List Block) : List (ℕ × ℕ) :=
  (bs.filter (fun b => b.free)).map fun b => (b.addr, b.size)

variable {lo hi fuel : ℕ} {s : State} {bs : List Block}

theorem freeListIs_of_represents {h} (hr : Represents lo hi h bs) :
    FreeListIs h (freeEntries bs) := by
  constructor
  · have haddrs : (freeEntries bs).map Prod.fst = freeAddrs bs := by
      rw [freeEntries, map_map]
      rfl
    rw [haddrs]
    exact hr.linked
  · intro e he
    obtain ⟨b, hb, rfl⟩ := mem_map.mp he
    exact (hr.stored b (mem_filter.mp hb).1).1

theorem freeAll_used (A : Arena lo hi) (hI : Invariant lo hi s bs) (hfuel : hi - lo < fuel) {ps}
    (hnd : ps.Nodup) (hlive : ∀ p ∈ ps, p ∈ s.live.map Prod.fst) :
    ∃ h' live' bs', freeAll fuel s.heap ps = .ok h' ∧ Invariant lo hi ⟨h', live'⟩ bs' ∧
      ∀ c, c.free = false → (c ∈ bs' ↔ c ∈ bs ∧ c.addr + headerSize ∉ ps) := by
  induction ps generalizing s bs with
  | nil => exact ⟨s.heap, s.live, bs, rfl, hI, fun c _ => by simp⟩
  | cons p ps ih =>
    obtain ⟨hp, htail⟩ := nodup_cons.mp hnd
    obtain ⟨⟨q, n⟩, hm, rfl⟩ := mem_map.mp (hlive p mem_cons_self)
    obtain ⟨h₁, hfree⟩ := (operations_return A hI hfuel).2 q n hm
    obtain ⟨xs, b, ys, rfl, -, rfl, -, hI₁⟩ := free_step A hI hm hfree
    have hlive₁ : ∀ r ∈ ps, r ∈ (s.live.filter fun e => e.1 ≠ b.addr + headerSize).map
        Prod.fst := by
      intro r hr
      obtain ⟨e, he, rfl⟩ := mem_map.mp (hlive r (mem_cons_of_mem _ hr))
      refine mem_map_of_mem (mem_filter.mpr ⟨he, ?_⟩)
      simpa using fun heq : e.1 = b.addr + headerSize => hp (heq ▸ hr)
    obtain ⟨h', live', bs', hall, hI', hmem⟩ := ih hI₁ htail hlive₁
    refine ⟨h', live', bs', bind_eq_ok.mpr ⟨h₁, hfree, hall⟩, hI', fun c hc => ?_⟩
    rw [hmem c hc, mem_settle_used hc rfl, mem_cons, not_or]
    constructor
    · rintro ⟨hside, hps⟩
      have hne := addr_ne hI.rep.tiles.sorted hside
      exact ⟨by simp only [mem_append, mem_cons]; tauto, by omega, hps⟩
    · rintro ⟨hin, hne, hps⟩
      refine ⟨?_, hps⟩
      rcases mem_append.mp hin with hin | hin
      · exact .inl hin
      · rcases mem_cons.mp hin with rfl | hin
        · exact absurd rfl hne
        · exact .inr hin

theorem reachable_pages {K} {size : ℕ} (hr : Reachable K size s) :
    0 < numPages size := by
  induction hr with
  | start mem h hz hc => exact (construct_cases hc).2.1
  | step _ _ ih => exact ih

/-- Freeing live pointers in any two orders gives the same free list, and freeing all of them
gives the single block that the heap began with. -/
theorem frees_in_any_order (K : KernelPages) (size : ℕ) {s : State} (hr : Reachable K size s)
    {fuel : ℕ} (hfuel : numBytes size < fuel) {ps qs : List ℕ} (hperm : ps.Perm qs)
    (hnd : ps.Nodup) (hlive : ∀ p ∈ ps, p ∈ s.live.map Prod.fst) :
    ∃ h₁ h₂ l, freeAll fuel s.heap ps = .ok h₁ ∧ freeAll fuel s.heap qs = .ok h₂ ∧
      FreeListIs h₁ l ∧ FreeListIs h₂ l ∧ ((∀ p ∈ s.live.map Prod.fst, p ∈ ps) →
        l = [(K.allocatePages (numPages size), numBytes size - headerSize)]) := by
  obtain ⟨A, bs, hI⟩ := reachable_invariant hr
  have hspan : K.allocatePages (numPages size) + numBytes size -
      K.allocatePages (numPages size) < fuel := by omega
  obtain ⟨h₁, live₁, bs₁, hrun₁, hI₁, hmem₁⟩ := freeAll_used A hI hspan hnd hlive
  obtain ⟨h₂, live₂, bs₂, hrun₂, hI₂, hmem₂⟩ := freeAll_used A hI hspan (hperm.nodup hnd)
    fun p hp => hlive p (hperm.mem_iff.mpr hp)
  have hsame : bs₁ = bs₂ := by
    refine hI₁.rep.tiles.eq_of_used headerSize_pos hI₂.rep.tiles hI₁.coalesced hI₂.coalesced ?_
    intro c hc
    rw [hmem₁ c hc, hmem₂ c hc, hperm.mem_iff]
  subst hsame
  refine ⟨h₁, h₂, freeEntries bs₁, hrun₁, hrun₂, freeListIs_of_represents hI₁.rep,
    freeListIs_of_represents hI₂.rep, fun hall => ?_⟩
  have hbytes : headerSize ≤ numBytes size := by
    rw [numBytes_eq]
    exact Nat.le_trans (by decide) (Nat.le_mul_of_pos_left _ (reachable_pages hr))
  have hwhole : Tiles headerSize (K.allocatePages (numPages size))
      [⟨K.allocatePages (numPages size), numBytes size - headerSize, true⟩]
      (K.allocatePages (numPages size) + numBytes size) := by
    refine ⟨rfl, ?_⟩
    unfold Tiles Block.stop
    dsimp only
    omega
  have hone : bs₁ = [⟨K.allocatePages (numPages size), numBytes size - headerSize, true⟩] := by
    refine hI₁.rep.tiles.eq_of_used headerSize_pos hwhole hI₁.coalesced (.singleton _) ?_
    intro c hc
    refine iff_of_false (fun hin => ?_) fun hin => ?_
    · obtain ⟨hin, hps⟩ := (hmem₁ c hc).mp hin
      obtain ⟨n, hm⟩ := hI.block_live c hin hc
      exact hps (hall _ (mem_map_of_mem hm))
    · rw [mem_singleton.mp hin] at hc
      cases hc
  rw [hone]
  rfl

theorem frees_in_any_order_two : ∃ s h₁ h₂, Reachable onePage 100 s ∧
    freeAll 5000 s.heap [2 ^ 64 - 2 ^ 47 + 64, 2 ^ 64 - 2 ^ 47 + 16] = .ok h₁ ∧
    freeAll 5000 s.heap [2 ^ 64 - 2 ^ 47 + 16, 2 ^ 64 - 2 ^ 47 + 64] = .ok h₂ ∧
    FreeListIs h₁ [(2 ^ 64 - 2 ^ 47, 4080)] ∧ FreeListIs h₂ [(2 ^ 64 - 2 ^ 47, 4080)] := by
  obtain ⟨s, hr, hl⟩ := onePage_two
  have hnd : [2 ^ 64 - 2 ^ 47 + 64, 2 ^ 64 - 2 ^ 47 + 16].Nodup := by decide
  have hlive : s.live.map Prod.fst = [2 ^ 64 - 2 ^ 47 + 64, 2 ^ 64 - 2 ^ 47 + 16] := by
    rw [hl]
    rfl
  have hinitial : [(onePage.allocatePages (numPages 100), numBytes 100 - headerSize)] =
      [(2 ^ 64 - 2 ^ 47, 4080)] := by decide +kernel
  obtain ⟨h₁, h₂, l, hrun₁, hrun₂, hl₁, hl₂, hall⟩ := frees_in_any_order onePage 100 hr
    (show numBytes 100 < 5000 by decide) (List.Perm.swap _ _ []) hnd fun p hp => hlive ▸ hp
  obtain rfl := (hall fun p hp => hlive ▸ hp).trans hinitial
  exact ⟨s, h₁, h₂, hr, hrun₁, hrun₂, hl₁, hl₂⟩

theorem freeEntries_lt {size : ℕ} (h : ∀ b ∈ bs, b.free → b.size < size) :
    ∀ e ∈ freeEntries bs, e.2 < size := by
  intro e he
  obtain ⟨b, hb, rfl⟩ := mem_map.mp he
  obtain ⟨hb, hf⟩ := mem_filter.mp hb
  exact h b hb hf

/-- **First fit, and back.** `allocate` takes the first free block that is large enough, or
panics if there is none. Freeing what it returned gives the free list back. -/
theorem allocate_first_fit {K size n} (hr : Reachable K size s) (hfuel : numBytes size < fuel)
    (hn : n + 15 < 2 ^ 64) : ∃ l, FreeListIs s.heap l ∧
      (l.find? (alignUp n minSize ≤ ·.2) = none ∧
        allocate fuel s.heap n = .error (.panic "kmalloc: out of memory") ∨
      ∃ e h₁ h₂, l.find? (alignUp n minSize ≤ ·.2) = some e ∧
        allocate fuel s.heap n = .ok (h₁, e.1 + headerSize) ∧
        free fuel h₁ (e.1 + headerSize) = .ok h₂ ∧ FreeListIs h₂ l) := by
  obtain ⟨A, bs, hI⟩ := reachable_invariant hr
  have hlen := freeAddrs_length_lt hI
  refine ⟨freeEntries bs, freeListIs_of_represents hI.rep, ?_⟩
  rcases allocate_spec (n := n) A hI.rep (show _ < fuel by omega) with
    ⟨h₁, bs₁, u, xs, b, ys, hok, rfl, hfit, hrep, hC, -⟩ | ⟨hpanic, hsmall⟩
  · have hI₁ := Carved.invariant hI hn rfl hfit.free hrep hC
    obtain ⟨h₂, _, bs₂, hall, hI₂, hmem⟩ := freeAll_used A hI₁ (show _ < fuel by omega)
      (show [b.addr + headerSize].Nodup by simp) (by simp)
    obtain ⟨_, hfree, hnil⟩ := bind_eq_ok.mp hall
    cases hnil
    have hsame : bs₂ = xs ++ b :: ys := by
      refine hI₂.rep.tiles.eq_of_used headerSize_pos hI.rep.tiles hI₂.coalesced hI.coalesced ?_
      intro c hc
      rw [hmem c hc, hC.others c hc]
      have hne := addr_ne hI.rep.tiles.sorted (c := c)
      have hstart := hC.start
      have hb := hfit.free
      grind
    refine .inr ⟨(b.addr, b.size), h₁, h₂, find?_eq_some_iff_append.mpr ⟨by simp [hfit.room],
      freeEntries xs, freeEntries ys, by simp [freeEntries, hfit.free], ?_⟩, hok, hfree,
      hsame ▸ freeListIs_of_represents hI₂.rep⟩
    simpa using freeEntries_lt hfit.before
  · exact .inl ⟨find?_eq_none.mpr (by simpa using freeEntries_lt hsmall), hpanic⟩

theorem allocate_first_fit_two : ∃ s l, Reachable onePage 100 s ∧ FreeListIs s.heap l := by
  obtain ⟨s, hr, -⟩ := onePage_two
  obtain ⟨l, hl, -⟩ := allocate_first_fit (n := 24) hr (show _ < 5000 by decide) (by decide)
  exact ⟨s, l, hr, hl⟩

end HeapRuns
