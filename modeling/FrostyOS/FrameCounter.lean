import FrostyOS.FrameRuns
import Mathlib.Data.Finset.Card

/-! # The counter of free memory

`m_FreeMem` follows the bitmap by steps of one page, also for an address past its end, which
cannot be marked. -/
namespace FrameCounter

open MachineWord PhysicalPageFrameAllocator FrameRuns

variable {s t : PhysicalPageFrameAllocator} {page f n fuel count : ℕ} {pages : List ℕ}

def clearFrames (s : PhysicalPageFrameAllocator) : Finset ℕ :=
  {f ∈ Finset.range s.bits | s.bitmap.get f = false}

/-- `m_FreeMem` is 4096 times the number of clear bits; both are 64-bit words. -/
def Counted (s : PhysicalPageFrameAllocator) : Prop :=
  s.freeMem = u64 (pageSize * (clearFrames s).card)

instance (s : PhysicalPageFrameAllocator) : Decidable (Counted s) :=
  inferInstanceAs (Decidable (_ = _))

/-- How many of the addresses lie past the end of a bitmap of `bits` bits. -/
def pastEnd (bits : ℕ) (pages : List ℕ) : ℕ := pages.countP fun page => decide (bits ≤ frame page)

/-- The counter is `n` pages short of the bitmap. -/
structure Short (s : PhysicalPageFrameAllocator) (n : ℕ) : Prop where
  word : s.freeMem < 2 ^ 64
  sum : u64 (s.freeMem + n * pageSize) = u64 (pageSize * (clearFrames s).card)

theorem mem_clearFrames : f ∈ clearFrames s ↔ s.Free f := by
  simp [clearFrames, Free]

theorem short_of_counted (h : Counted s) : Short s 0 := by
  have hword : s.freeMem < 2 ^ 64 := by
    rw [h]
    exact u64_lt _
  refine ⟨hword, ?_⟩
  rw [zero_mul, add_zero, u64_of_lt hword]
  exact h

theorem Short.counted_iff (h : Short s n) : Counted s ↔ 2 ^ 52 ∣ n := by
  have hword := h.word
  have hsum := h.sum
  unfold Counted
  unfold u64 pageSize at *
  omega

theorem Short.of_eq (h : Short s n) (hb : t.bitmap = s.bitmap) (hm : t.freeMem = s.freeMem) :
    Short t n := by
  have hclear : clearFrames t = clearFrames s := by
    unfold clearFrames bits
    rw [hb]
  exact ⟨hm ▸ h.word, by rw [hm, hclear]; exact h.sum⟩

theorem clearFrames_marks (h : Marks s t [f]) : clearFrames t = (clearFrames s).erase f := by
  ext g
  rw [Finset.mem_erase, mem_clearFrames, mem_clearFrames, h.free_iff, List.mem_singleton, and_comm]

theorem clearFrames_clears (h : Clears s t [f]) (hf : f < s.bits) :
    clearFrames t = insert f (clearFrames s) := by
  ext g
  rw [Finset.mem_insert, mem_clearFrames, mem_clearFrames, h.free_iff, List.mem_singleton]
  constructor
  · rintro ⟨-, hg⟩
    exact hg.symm
  · rintro (rfl | hg)
    · exact ⟨hf, .inr rfl⟩
    · exact ⟨hg.1, .inl hg⟩

/-- Marking a clear bit takes one page off the counter; past the end the bitmap has no bit
to lose. -/
theorem Short.mark (h : Short s n) (hclear : s.bitmap.get (frame page) = false)
    (hm : Marks s t [frame page]) (hfree : t.freeMem = subWord s.freeMem pageSize) :
    Short t (n + pastEnd s.bits [page]) := by
  have hsum := h.sum
  refine ⟨by rw [hfree]; exact Nat.mod_lt _ (by decide), ?_⟩
  rw [hfree, clearFrames_marks hm]
  by_cases hin : frame page < s.bits
  · have hmem : frame page ∈ clearFrames s := mem_clearFrames.mpr ⟨hin, hclear⟩
    have hpos := Finset.card_pos.mpr ⟨_, hmem⟩
    have hout : pastEnd s.bits [page] = 0 := by simp [pastEnd, hin]
    rw [Finset.card_erase_of_mem hmem, hout]
    unfold u64 subWord pageSize at *
    omega
  · have hmem : frame page ∉ clearFrames s := fun hmem => hin (mem_clearFrames.mp hmem).1
    have hout : pastEnd s.bits [page] = 1 := by simp [pastEnd, not_lt.mp hin]
    rw [Finset.erase_eq_of_notMem hmem, hout]
    unfold u64 subWord pageSize at *
    omega

theorem Short.set (h : Short s n) (hset : s.bitmap.get (frame page)) :
    Short s (n + pastEnd s.bits [page]) := by
  have hin : frame page < s.bits := Bitmap.lt_bits_of_get hset
  have hout : pastEnd s.bits [page] = 0 := by simp [pastEnd, hin]
  rwa [hout, add_zero]

theorem Short.clear (h : Short s n) (hset : s.bitmap.get f) (hc : Clears s t [f])
    (hfree : t.freeMem = u64 (s.freeMem + pageSize)) : Short t n := by
  have hsum := h.sum
  have hmem : f ∉ clearFrames s := by
    intro hmem
    rw [(mem_clearFrames.mp hmem).2] at hset
    cases hset
  refine ⟨by rw [hfree]; exact u64_lt _, ?_⟩
  rw [hfree, clearFrames_clears hc (Bitmap.lt_bits_of_get hset), Finset.card_insert_of_notMem hmem]
  unfold u64 pageSize at *
  omega

theorem reservePage_short (page : ℕ) (h : Short s n) :
    Short (s.reservePage page) (n + pastEnd s.bits [page]) := by
  cases hg : s.bitmap.get (frame page) with
  | true => simpa [reservePage, hg] using h.set hg
  | false =>
    apply h.mark hg (reservePage_marks s page)
    simp [reservePage, hg]

theorem lockPage_short (page : ℕ) (h : Short s n) :
    Short (s.lockPage page) (n + pastEnd s.bits [page]) := by
  cases hg : s.bitmap.get (frame page) with
  | true => simpa [lockPage, hg] using h.set hg
  | false =>
    apply h.mark hg (lockPage_marks s page)
    simp [lockPage, hg]

theorem freePage_short (page : ℕ) (h : Short s n) : Short (s.freePage page) n := by
  cases hg : s.bitmap.get (frame page) with
  | false => simpa [freePage, hg] using h
  | true =>
    apply h.clear hg (freePage_clears s page)
    simp [freePage, hg]

theorem unreservePage_short (page : ℕ) (h : Short s n) : Short (s.unreservePage page) n := by
  cases hg : s.bitmap.get (frame page) with
  | false => simpa [unreservePage, hg] using h
  | true =>
    apply h.clear hg (unreservePage_clears s page)
    simp [unreservePage, hg]

section Loops

variable {op : PhysicalPageFrameAllocator → ℕ → PhysicalPageFrameAllocator}

theorem foldl_short_mark (hm : ∀ s page, Marks s (op s page) [frame page])
    (hop : ∀ s page n, Short s n → Short (op s page) (n + pastEnd s.bits [page]))
    (pages : List ℕ) : ∀ s n, Short s n → Short (pages.foldl op s) (n + pastEnd s.bits pages) := by
  induction pages with
  | nil => exact fun s n h => h
  | cons page pages ih =>
    intro s n h
    have hrest := ih (op s page) _ (hop s page n h)
    have hcount : pastEnd s.bits (page :: pages) =
        pastEnd s.bits [page] + pastEnd s.bits pages := by
      unfold pastEnd
      rw [← List.countP_append, List.singleton_append]
    rwa [(hm s page).bits, add_assoc, ← hcount] at hrest

theorem foldl_short_clear (hop : ∀ s page, Short s n → Short (op s page) n) (pages : List ℕ) :
    ∀ s, Short s n → Short (pages.foldl op s) n := by
  induction pages with
  | nil => exact fun s h => h
  | cons page pages ih => exact fun s h => ih (op s page) (hop s page h)

theorem lockPages_short {start : ℕ} (h : Short s n) (hb : t.bitmap = s.bitmap)
    (hm : t.freeMem = s.freeMem) :
    Short (t.lockPages start count) (n + pastEnd s.bits (pageSpan start count)) := by
  have hbits : t.bits = s.bits := congrArg Bitmap.bits hb
  have hshort := foldl_short_mark lockPage_marks (fun _ page _ => lockPage_short page)
    (pageSpan start count) t n (h.of_eq hb hm)
  rwa [hbits] at hshort

end Loops

/-- The addresses that a call marks, for the first run of `count` frames that is accepted. -/
def RunInside (s : PhysicalPageFrameAllocator) (count : ℕ) : Prop :=
  ∀ i, s.Accepts count i → (∀ j < i, ¬ s.Accepts count j) →
    2 ^ 52 ∣ pastEnd s.bits (pageSpan (u64 (i * pageSize)) count)

/-- When a call leaves the counter right: the addresses it marks lie within the bitmap. Of a
whole span it is enough that those past the end number a multiple of `2 ^ 52`, for which
the counter comes round. -/
def CounterClear (s : PhysicalPageFrameAllocator) : Op → Prop
  | .allocatePage => s.nextFree = uint64Max ∨ frame (u64 (s.nextFree * pageSize)) < s.bits
  | .allocatePages count => RunInside s count
  | .reservePage page => frame page < s.bits
  | .reservePages start count => 2 ^ 52 ∣ pastEnd s.bits (pageSpan start count)
  | .freePage _ | .freePages _ _ | .unreservePage _ | .unreservePages _ _ => True

/-- Requests for several pages ask for two at least. -/
def Several : Op → Prop
  | .allocatePages count => 2 ≤ count
  | _ => True

theorem pastEnd_singleton : 2 ^ 52 ∣ pastEnd s.bits [page] ↔ frame page < s.bits := by
  by_cases hin : frame page < s.bits
  · simp [pastEnd, hin]
  · simp [pastEnd, hin, not_lt.mp hin]

theorem findFreePage_index (s : PhysicalPageFrameAllocator) (h : s.findFreePage.2 ≠ uint64Max) :
    frame (u64 (s.findFreePage.2 * pageSize)) < s.bits ↔
      s.nextFree = uint64Max ∨ frame (u64 (s.nextFree * pageSize)) < s.bits := by
  rcases findFreePage_cases s with ⟨hn, ⟨he, -⟩ | ⟨i, he, hf, -⟩⟩ | ⟨hn, he⟩
  · exact absurd (by rw [he]) h
  · rw [he, frame_of_index hf.1]
    exact ⟨fun _ => .inl hn, fun _ => hf.1⟩
  · rw [he]
    exact ⟨.inr, fun h => h.resolve_left hn⟩

theorem allocatePage_counted (h : Counted s) (ho : s.allocatePage = some (t, page)) :
    Counted t ↔ CounterClear s .allocatePage := by
  unfold allocatePage at ho
  dsimp only at ho
  split at ho
  · cases ho
  next hmax =>
  cases ho
  obtain ⟨hb, hm⟩ := findFreePage_keeps s
  have hbits : s.findFreePage.1.bits = s.bits := congrArg Bitmap.bits hb
  have hshort := lockPage_short (u64 (s.findFreePage.2 * pageSize))
    ((short_of_counted h).of_eq hb hm)
  rw [hshort.counted_iff, zero_add, pastEnd_singleton, hbits]
  exact findFreePage_index s hmax

theorem allocatePages_counted {r} (h : Counted s) (hc : 2 ≤ count)
    (ho : s.allocatePages fuel count = some (t, r)) : Counted t ↔ RunInside s count := by
  obtain ⟨u, index, hf, hmax, hfound⟩ := allocatePages_cases (by omega) ho
  rcases findFreePagesLoop_spec hc (by simp) hf with ⟨rfl, rfl, hnone⟩ | ⟨hacc, hfirst, hu⟩
  · rw [(hmax rfl).1]
    exact ⟨fun _ i hi => absurd hi (hnone i), fun _ => h⟩
  have hb : u.bitmap = s.bitmap := by rw [hu]
  have hm : u.freeMem = s.freeMem := by rw [hu]
  rw [(hfound (ne_uint64Max hacc.1.1)).1,
    (lockPages_short (short_of_counted h) hb hm).counted_iff, zero_add]
  constructor
  · intro hdvd i hi hmin
    -- the first accepted index is the only one
    rw [first_unique hi hmin hacc hfirst]
    exact hdvd
  · intro hrun
    exact hrun index hacc hfirst

/-- A call that returns leaves the counter equal to the clear bits exactly if it marks no
address past the end of the bitmap. -/
theorem freeMem_counted_iff {op : Op} {handed : List ℕ} (h : Counted s) (hop : Several op)
    (ho : perform fuel s op = some (t, handed)) : Counted t ↔ CounterClear s op := by
  have hs := short_of_counted h
  cases op with
  | allocatePage =>
    obtain ⟨⟨u, page⟩, hsome, he⟩ := Option.map_eq_some_iff.mp ho
    cases he
    exact allocatePage_counted h hsome
  | allocatePages count =>
    obtain ⟨⟨u, r⟩, hsome, he⟩ := Option.map_eq_some_iff.mp ho
    cases he
    exact allocatePages_counted h hop hsome
  | reservePage page =>
    cases ho
    have hshort := reservePage_short page hs
    rw [hshort.counted_iff, zero_add]
    exact pastEnd_singleton
  | reservePages start count =>
    cases ho
    have hshort := foldl_short_mark reservePage_marks (fun _ page _ => reservePage_short page)
      (pageSpan start count) s 0 hs
    rw [zero_add] at hshort
    exact hshort.counted_iff
  | freePage page =>
    cases ho
    have hshort := freePage_short page hs
    simp [hshort.counted_iff, CounterClear]
  | freePages start count =>
    cases ho
    have hshort : Short (s.freePages start count) 0 :=
      foldl_short_clear (fun _ page => freePage_short page) _ s hs
    simp [hshort.counted_iff, CounterClear]
  | unreservePage page =>
    cases ho
    have hshort := unreservePage_short page hs
    simp [hshort.counted_iff, CounterClear]
  | unreservePages start count =>
    cases ho
    have hshort : Short (s.unreservePages start count) 0 :=
      foldl_short_clear (fun _ page => unreservePage_short page) _ s hs
    simp [hshort.counted_iff, CounterClear]

def sixFree : PhysicalPageFrameAllocator where
  bitmap := ⟨1, fun _ => 0b11000000#8⟩
  freeMem := 6 * pageSize
  reservedMem := 0
  usedMem := 2 * pageSize
  nextFree := uint64Max
  sized := by decide

theorem freeMem_counted_last_frame : Counted sixFree ∧ Counted (sixFree.reservePage 0x7000) := by
  have hs : Counted sixFree := by decide +kernel
  refine ⟨hs, ?_⟩
  have ho : perform 0 sixFree (.reservePage 0x7000) = some (sixFree.reservePage 0x7000, []) := rfl
  have hop : Several (.reservePage 0x7000) := trivial
  apply (freeMem_counted_iff hs hop ho).mpr
  show frame 0x7000 < sixFree.bits
  decide

/-- Reserving a ninth page takes it off the counter, with the bitmap as it was. -/
theorem reservePage_past_end_uncounted :
    Counted sixFree ∧ (sixFree.reservePage 0x8000).freeMem = 5 * pageSize ∧
      (clearFrames (sixFree.reservePage 0x8000)).card = 6 ∧
      ¬ Counted (sixFree.reservePage 0x8000) := by
  refine ⟨?_, ?_, ?_, ?_⟩ <;> decide +kernel

end FrameCounter
