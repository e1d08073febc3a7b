import FrostyOS.FrameRuns

/-! # The searches of the frame allocator

`AllocatePage` trusts the hint that the other calls leave; `FindFreePages` tests one bit
more than it was asked for. -/
namespace FrameRuns

open MachineWord PhysicalPageFrameAllocator

variable {s s' : PhysicalPageFrameAllocator} {fuel count i : ℕ} {r : Option ℕ}

/-- The run that the search accepts first has 64-bit addresses from its first page to its
last. -/
def Addressable (s : PhysicalPageFrameAllocator) (count : ℕ) : Prop :=
  ∀ i, s.Accepts count i → (∀ j < i, ¬ s.Accepts count j) → i + count ≤ 2 ^ 52

/-- Requests for several pages ask for two at least; every other call is free. -/
def Covered (s : PhysicalPageFrameAllocator) : Op → Prop
  | .allocatePages count => 2 ≤ count ∧ Addressable s count
  | _ => True

/-- Runs from any bitmap without a hint. -/
inductive HintRun : PhysicalPageFrameAllocator → Prop where
  | start (s : PhysicalPageFrameAllocator) (hn : s.nextFree = uint64Max) : HintRun s
  | step {s s' : PhysicalPageFrameAllocator} {op : Op} {fuel : ℕ} {handed : List ℕ}
      (hr : HintRun s) (hc : Covered s op) (ho : perform fuel s op = some (s', handed)) :
      HintRun s'

theorem allocatePages_hintOk (h : s.HintOk) (hcount : 2 ≤ count) (ha : Addressable s count)
    (ho : s.allocatePages fuel count = some (s', r)) : s'.HintOk := by
  obtain ⟨t, index, hf, hmax, hfound⟩ := allocatePages_cases (by omega) ho
  rcases findFreePagesLoop_spec hcount (by simp) hf with ⟨rfl, rfl, -⟩ | ⟨hacc, hfirst, rfl⟩
  · rw [(hmax rfl).1]
    exact h
  · rw [(hfound (ne_uint64Max hacc.1.1)).1]
    exact lockedRun_hintOk h (ha index hacc hfirst)

theorem perform_hintOk {op handed} (h : s.HintOk) (hc : Covered s op)
    (ho : perform fuel s op = some (s', handed)) : s'.HintOk := by
  cases op with
  | allocatePages count =>
    simp only [perform, Option.map_eq_some_iff] at ho
    obtain ⟨⟨t, r⟩, hsome, he⟩ := ho
    cases he
    exact allocatePages_hintOk h hc.1 hc.2 hsome
  | allocatePage =>
    rcases allocatePage_spec h with ⟨hnone, -⟩ | ⟨t, page, hsome, -, -, hhint⟩
    · simp [perform, hnone] at ho
    · simp only [perform, hsome, Option.map_some, Option.some.injEq, Prod.mk.injEq] at ho
      rw [← ho.1]
      exact hhint
  | freePage page =>
    cases ho
    exact freePage_hintOk h
  | freePages start count =>
    cases ho
    exact foldl_hintOk (fun _ _ => freePage_hintOk) _ s h
  | reservePage page =>
    cases ho
    exact reservePage_hintOk h
  | reservePages start count =>
    cases ho
    exact foldl_hintOk (fun _ _ => reservePage_hintOk) _ s h
  | unreservePage page =>
    cases ho
    exact unreservePage_hintOk h
  | unreservePages start count =>
    cases ho
    exact foldl_hintOk (fun _ _ => unreservePage_hintOk) _ s h

theorem hintRun_hintOk (hr : HintRun s) : s.HintOk := by
  induction hr with
  | start s hn => exact .inl hn
  | step _ hc ho ih => exact perform_hintOk ih hc ho

/-- Along every run the hint names a free frame of the bitmap or none, and `AllocatePage`
returns a page that was free and panics only when there is none. -/
theorem hint_names_free_frame (hr : HintRun s) :
    s.HintOk ∧ (s.allocatePage = none → ∀ f, ¬ s.Free f) ∧
      ∀ s' page, s.allocatePage = some (s', page) → s.Free (frame page) := by
  have hhint := hintRun_hintOk hr
  refine ⟨hhint, ?_, ?_⟩
  · intro hnone
    rcases allocatePage_spec hhint with ⟨-, hfull⟩ | ⟨t, page, hsome, -⟩
    · exact hfull
    · rw [hnone] at hsome
      cases hsome
  · intro t page hsome
    rcases allocatePage_spec hhint with ⟨hnone, -⟩ | ⟨t', page', hsome', hfree, -⟩
    · rw [hsome] at hnone
      cases hnone
    · rw [hsome] at hsome'
      cases hsome'
      exact hfree

theorem hint_names_free_frame_small :
    let s := (smallAllocator 1 (by decide) 0b11100000#8 0#8).freePage 4096
    s.HintOk ∧ (s.allocatePage = none → ∀ f, ¬ s.Free f) ∧
      ∀ s' page, s.allocatePage = some (s', page) → s.Free (frame page) :=
  hint_names_free_frame
    (@HintRun.step _ _ (.freePage 4096) 0 [] (.start _ rfl) trivial rfl)

theorem findFreePagesLoop_total (hcount : 2 ≤ count) (hsmall : s.bits + count < 2 ^ 64)
    (hfuel : s.bits ≤ i + fuel) :
    ∃ t index, s.findFreePagesLoop count (fuel + 1) i = some (t, index) := by
  induction fuel generalizing i with
  | zero => exact ⟨s, uint64Max, if_pos hfuel⟩
  | succ fuel ih =>
    unfold findFreePagesLoop
    by_cases hend : s.bitmap.bits ≤ i
    · rw [if_pos hend]
      exact ⟨s, uint64Max, rfl⟩
    have hi : i < s.bits := not_le.mp hend
    rw [if_neg hend]
    cases hg : s.bitmap.get i with
    | true =>
      rw [if_pos rfl, u64_of_lt_bits hi]
      exact ih (by omega)
    | false =>
      rw [if_neg (by decide), if_neg (by omega)]
      rcases hscan : scanRun s.bitmap i count count 1 with ⟨found, m⟩
      have hspec := scanRun_spec rfl (by intro k hk hlt; omega) hscan
      cases found with
      | true => exact ⟨_, _, rfl⟩
      | false =>
        obtain ⟨h₁, h₂, -⟩ := hspec.2 rfl
        dsimp only
        rw [if_neg (by decide), u64_of_lt (by omega)]
        exact ih (by omega)

theorem findFreePages_total (hcount : 2 ≤ count) (hsmall : s.bits + count < 2 ^ 64) :
    ∃ t index, s.findFreePages (s.bits + 1) count = some (t, index) ∧
      (index = uint64Max ∧ (∀ j, ¬ s.Accepts count j) ∨
        s.Accepts count index ∧ (∀ j < index, ¬ s.Accepts count j) ∧
          t = { s with nextFree :=
            if index ≤ s.nextFree ∧ s.nextFree < u64 (index + count) then uint64Max
            else s.nextFree }) := by
  have hfuel : s.bits ≤ 0 + s.bits := by omega
  obtain ⟨t, index, hloop⟩ := findFreePagesLoop_total hcount hsmall hfuel
  refine ⟨t, index, ?_, ?_⟩
  · rw [findFreePages, if_neg (by omega)]
    exact hloop
  · rcases findFreePagesLoop_spec hcount (by simp) hloop with ⟨hmax, -, hno⟩ | h
    · exact .inl ⟨hmax, hno⟩
    · exact .inr h

theorem perform_allocatePages {t} {index : ℕ} (hfind : s.findFreePages fuel count = some (t, index))
    (hindex : index ≠ uint64Max) :
    perform fuel s (.allocatePages count) =
      some (t.lockPages (u64 (index * pageSize)) count, frames (u64 (index * pageSize)) count) := by
  simp [perform, allocatePages, hfind, hindex]

/-- The first three of eight frames are taken; frame one is given back and becomes the hint.
A request for `2 ^ 52` pages starts at frame three, its addresses wrap, and frame one is
marked while it is still the hint. -/
theorem hint_names_taken_frame :
    let a := (smallAllocator 1 (by decide) 0b11100000#8 0#8).freePage 4096
    ∃ s handed, perform 9 a (.allocatePages (2 ^ 52)) = some (s, handed) ∧
      s.nextFree = 1 ∧ ¬ s.Free 1 := by
  intro a
  have hbits : a.bits = 8 := by decide +kernel
  have hacc : a.Accepts (2 ^ 52) 3 := by
    refine ⟨⟨by decide +kernel, by decide +kernel⟩, fun k hk hle => ?_⟩
    rw [u64_of_lt (by omega)]
    by_cases hin : 8 ≤ 3 + k
    · exact Bitmap.get_past_end (by unfold bits at hbits; omega)
    · obtain rfl | rfl | rfl | rfl : k = 1 ∨ k = 2 ∨ k = 3 ∨ k = 4 := by omega
      all_goals decide +kernel
  have hno : ∀ j < 3, ¬ a.Accepts (2 ^ 52) j := by
    intro j hj hjacc
    obtain rfl | rfl | rfl : j = 0 ∨ j = 1 ∨ j = 2 := by omega
    · exact absurd hjacc.1.2 (by decide +kernel)
    · exact absurd (hjacc.2 1 (by omega) (by omega)) (by decide +kernel)
    · exact absurd hjacc.1.2 (by decide +kernel)
  have hsmall : a.bits + 2 ^ 52 < 2 ^ 64 := by omega
  obtain ⟨t, index, hfind, hcase⟩ := findFreePages_total (by omega) hsmall
  rw [hbits] at hfind
  rcases hcase with ⟨-, hnone⟩ | ⟨hindex, hfirst, ht⟩
  · exact absurd hacc (hnone 3)
  obtain rfl : index = 3 := by
    exact first_unique hindex hfirst hacc hno
  have hbitmap : t.bitmap = a.bitmap := by rw [ht]
  have hnext : t.nextFree = 1 := by
    rw [ht]
    decide +kernel
  refine ⟨_, _, perform_allocatePages hfind (by decide), ?_, ?_⟩
  · rw [lockPages_nextFree]
    exact hnext
  · intro hfree
    refine ((lockPages_marks hbitmap).free_iff.mp hfree).2 ?_
    simp only [frames, pageSpan, List.map_map, List.mem_map, List.mem_range]
    exact ⟨2 ^ 52 - 2, by omega, by decide +kernel⟩

def FreeRun (s : PhysicalPageFrameAllocator) (count i : ℕ) : Prop :=
  ∀ k < count, s.Free (i + k)

def FirstFreeRun (s : PhysicalPageFrameAllocator) (count i : ℕ) : Prop :=
  FreeRun s count i ∧ ∀ j < i, ¬ FreeRun s count j

/-- The search ends with an index, and none of the free runs starts before it. -/
def FindsFirst (s : PhysicalPageFrameAllocator) (count : ℕ) : Prop :=
  ∀ i, FirstFreeRun s count i → ∃ fuel t index,
    s.findFreePages fuel count = some (t, index) ∧ index ≠ uint64Max ∧ index ≤ i

theorem FreeRun.end_le (h : FreeRun s count i) (hcount : 1 ≤ count) : i + count ≤ s.bits := by
  have := (h (count - 1) (by omega)).1
  omega

theorem accepts_of_freeRun (h : FreeRun s count i) (hcount : 1 ≤ count)
    (hnext : s.bitmap.get (i + count) = false) : s.Accepts count i := by
  have hend := h.end_le hcount
  have hbits := s.bits_le
  refine ⟨h 0 (by omega), fun k hk hle => ?_⟩
  rw [u64_of_lt (by omega)]
  rcases Nat.lt_or_eq_of_le hle with hlt | rfl
  · exact (h k hlt).2
  · exact hnext

/-- The search misses no free run exactly when the frame behind the first one is not in
use. -/
theorem findFreePages_finds_first_iff (s : PhysicalPageFrameAllocator) (hcount : 2 ≤ count) :
    FindsFirst s count ↔
      ∀ i, FirstFreeRun s count i → s.bitmap.get (i + count) = false := by
  have hbits := s.bits_le
  constructor
  · intro hfinds i hi
    obtain ⟨fuel, t, index, hfind, hne, hle⟩ := hfinds i hi
    rw [findFreePages, if_neg (by omega)] at hfind
    have hend := hi.1.end_le (by omega)
    rcases findFreePagesLoop_spec hcount (by simp) hfind with ⟨hmax, -⟩ | ⟨hacc, -, -⟩
    · exact absurd hmax hne
    -- an accepted index before `i` would start a free run before the first one
    have hrun := free_of_accepts hacc (by omega)
    obtain rfl : index = i := by
      rcases Nat.lt_or_eq_of_le hle with hlt | heq
      · exact absurd hrun (hi.2 index hlt)
      · exact heq
    have hget := hacc.2 count (by omega) le_rfl
    rwa [u64_of_lt (by omega)] at hget
  · intro hnext i hi
    have hend := hi.1.end_le (by omega)
    have hacc := accepts_of_freeRun hi.1 (by omega) (hnext i hi)
    obtain ⟨t, index, hfind, hcase⟩ := findFreePages_total (s := s) hcount (by omega)
    rcases hcase with ⟨-, hnone⟩ | ⟨hindex, hfirst, -⟩
    · exact absurd hacc (hnone i)
    · refine ⟨_, t, index, hfind, ne_uint64Max hindex.1.1, ?_⟩
      exact not_lt.mp fun hlt => hfirst i hlt hacc

theorem findFreePages_finds_first_small :
    FindsFirst (smallAllocator 1 (by decide) 0b11000111#8 0#8) 2 := by
  apply (findFreePages_finds_first_iff _ (by decide)).mpr
  intro i hi
  have hrun : FreeRun (smallAllocator 1 (by decide) 0b11000111#8 0#8) 2 2 := by
    intro k hk
    obtain rfl | rfl : k = 0 ∨ k = 1 := by omega
    · exact ⟨by decide +kernel, by decide +kernel⟩
    · exact ⟨by decide +kernel, by decide +kernel⟩
  have hle : i ≤ 2 := not_lt.mp fun hlt => hi.2 2 hlt hrun
  obtain rfl | rfl | rfl : i = 0 ∨ i = 1 ∨ i = 2 := by omega
  · exact absurd (hi.1 0 (by decide)).2 (by decide +kernel)
  · exact absurd (hi.1 0 (by decide)).2 (by decide +kernel)
  · decide +kernel

/-- Frames two and three alone are free; the search for two frames does not find them. -/
theorem findFreePages_misses_exact_fit :
    let s := smallAllocator 1 (by decide) 0b11001111#8 0#8
    FreeRun s 2 2 ∧ (s.findFreePages 9 2).map Prod.snd = some uint64Max := by
  intro s
  constructor
  · intro k hk
    obtain rfl | rfl : k = 0 ∨ k = 1 := by omega
    · exact ⟨by decide +kernel, by decide +kernel⟩
    · exact ⟨by decide +kernel, by decide +kernel⟩
  · decide +kernel

end FrameRuns
