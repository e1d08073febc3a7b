import FrostyOS.MachineWord
import FrostyOS.Bitmap

/-! # The physical page frame allocator

A set bit stands for a frame that is in use or reserved. `nextFree` is a hint for
`AllocatePage`; `uint64Max` means that there is none. The locks are left out: each call
is one step. -/

open MachineWord

structure PhysicalPageFrameAllocator where
  bitmap : Bitmap
  freeMem : ℕ
  reservedMem : ℕ
  usedMem : ℕ
  nextFree : ℕ
  /-- The bitmap covers at most the 64-bit physical address space. -/
  sized : bitmap.size ≤ 2 ^ 49

namespace PhysicalPageFrameAllocator

/-- The addresses that the loops of `ReservePages`, `LockPages` and the like visit. -/
def pageSpan (start count : ℕ) : List ℕ :=
  (List.range count).map fun i => u64 (i * pageSize + start)

def frame (page : ℕ) : ℕ := page / pageSize

variable (s : PhysicalPageFrameAllocator)

def reservePage (page : ℕ) : PhysicalPageFrameAllocator :=
  if s.bitmap.get (frame page) then s
  else
    { s with
      bitmap := s.bitmap.set (frame page) true
      freeMem := subWord s.freeMem pageSize
      reservedMem := u64 (s.reservedMem + pageSize)
      nextFree := if s.nextFree = frame page then uint64Max else s.nextFree
      sized := s.sized }

def reservePages (start count : ℕ) : PhysicalPageFrameAllocator :=
  (pageSpan start count).foldl reservePage s

def unreservePage (page : ℕ) : PhysicalPageFrameAllocator :=
  if !s.bitmap.get (frame page) then s
  else
    { s with
      bitmap := s.bitmap.set (frame page) false
      freeMem := u64 (s.freeMem + pageSize)
      reservedMem := subWord s.reservedMem pageSize
      nextFree := frame page
      sized := s.sized }

def unreservePages (start count : ℕ) : PhysicalPageFrameAllocator :=
  (pageSpan start count).foldl unreservePage s

def freePage (page : ℕ) : PhysicalPageFrameAllocator :=
  if !s.bitmap.get (frame page) then s
  else
    { s with
      bitmap := s.bitmap.set (frame page) false
      freeMem := u64 (s.freeMem + pageSize)
      usedMem := subWord s.usedMem pageSize
      nextFree := frame page
      sized := s.sized }

def freePages (start count : ℕ) : PhysicalPageFrameAllocator :=
  (pageSpan start count).foldl freePage s

def lockPage (page : ℕ) : PhysicalPageFrameAllocator :=
  if s.bitmap.get (frame page) then s
  else
    { s with
      bitmap := s.bitmap.set (frame page) true
      freeMem := subWord s.freeMem pageSize
      usedMem := u64 (s.usedMem + pageSize)
      sized := s.sized }

def lockPages (start count : ℕ) : PhysicalPageFrameAllocator :=
  (pageSpan start count).foldl lockPage s

/-- The next index becomes the hint when it has a clear bit; otherwise `other` does. -/
def hintAfter (i other : ℕ) : ℕ :=
  if u64 (i + 1) < s.bitmap.bits ∧ s.bitmap.get (u64 (i + 1)) = false then u64 (i + 1) else other

/-- The loop of `FindFreePage` over the last `n` indices of the bitmap. -/
def firstClear (b : Bitmap) : ℕ → ℕ → Option ℕ
  | 0, _ => none
  | n + 1, i => if b.get i = false then some i else firstClear b n (i + 1)

def findFreePage : PhysicalPageFrameAllocator × ℕ :=
  if s.nextFree ≠ uint64Max then
    ({ s with nextFree := s.hintAfter s.nextFree uint64Max }, s.nextFree)
  else
    match firstClear s.bitmap s.bitmap.bits 0 with
    | some i => ({ s with nextFree := s.hintAfter i s.nextFree }, i)
    | none => (s, uint64Max)

/-- The inner loop of `FindFreePages` at `i`: whether the bits behind `i` are clear up to
and including `i + count`, and where `next` stopped. -/
def scanRun (b : Bitmap) (i count : ℕ) : ℕ → ℕ → Bool × ℕ
  | 0, next => (true, next)
  | fuel + 1, next =>
    if b.get (u64 (i + next)) then (false, next)
    else if count ≤ next then (true, next)
    else scanRun b i count fuel (next + 1)

/-- The outer loop. An index can wrap and the search start over, so the turns are bounded
and `none` stands for a search that goes on. -/
def findFreePagesLoop (count : ℕ) : ℕ → ℕ → Option (PhysicalPageFrameAllocator × ℕ)
  | 0, _ => none
  | fuel + 1, i =>
    if s.bitmap.bits ≤ i then some (s, uint64Max)
    else if s.bitmap.get i then findFreePagesLoop count fuel (u64 (i + 1))
    else if count = 1 then
      some ({ s with nextFree := if s.nextFree = i then uint64Max else s.nextFree }, u64 (i * 8))
    else
      let (found, next) := scanRun s.bitmap i count count 1
      if found then
        some ({ s with
          nextFree := if i ≤ s.nextFree ∧ s.nextFree < u64 (i + count) then uint64Max
            else s.nextFree }, i)
      else findFreePagesLoop count fuel (u64 (i + next))

def findFreePages (fuel count : ℕ) : Option (PhysicalPageFrameAllocator × ℕ) :=
  if count = 0 then some (s, uint64Max) else s.findFreePagesLoop count fuel 0

def allocatePage : Option (PhysicalPageFrameAllocator × ℕ) :=
  let (s, index) := s.findFreePage
  if index = uint64Max then none
  else some (s.lockPage (u64 (index * pageSize)), u64 (index * pageSize))

def allocatePages (fuel count : ℕ) : Option (PhysicalPageFrameAllocator × Option ℕ) := do
  let (s, index) ← s.findFreePages fuel count
  if index = uint64Max then some (s, none)
  else some (s.lockPages (u64 (index * pageSize)) count, some (u64 (index * pageSize)))

def bits : ℕ := s.bitmap.bits

def Free (f : ℕ) : Prop := f < s.bits ∧ s.bitmap.get f = false

def HintOk : Prop := s.nextFree = uint64Max ∨ s.Free s.nextFree

variable {s} {s' : PhysicalPageFrameAllocator} {page f i count fuel : ℕ} {pages : List ℕ}

theorem bits_le (s : PhysicalPageFrameAllocator) : s.bits ≤ 2 ^ 52 := by
  have := s.sized
  unfold bits Bitmap.bits
  omega

/-- What a call that sets one bit does to the bitmap. -/
structure Marks (s s' : PhysicalPageFrameAllocator) (fs : List ℕ) : Prop where
  bits : s'.bits = s.bits
  get : ∀ f, s'.bitmap.get f = true ↔ s.bitmap.get f = true ∨ f < s.bits ∧ f ∈ fs

structure Clears (s s' : PhysicalPageFrameAllocator) (fs : List ℕ) : Prop where
  bits : s'.bits = s.bits
  get : ∀ f, s'.bitmap.get f = true ↔ s.bitmap.get f = true ∧ f ∉ fs

theorem Marks.refl (s : PhysicalPageFrameAllocator) : Marks s s [] := ⟨rfl, by simp⟩

variable {index : ℕ} {b : Bitmap} {fs gs : List ℕ} {t : PhysicalPageFrameAllocator}
  {op : PhysicalPageFrameAllocator → ℕ → PhysicalPageFrameAllocator}

theorem Marks.trans (h : Marks s s' fs) (h' : Marks s' t gs) : Marks s t (fs ++ gs) := by
  refine ⟨h'.bits.trans h.bits, fun f => ?_⟩
  rw [h'.get, h.get, h.bits, List.mem_append]
  tauto

theorem Clears.refl (s : PhysicalPageFrameAllocator) : Clears s s [] := ⟨rfl, by simp⟩

theorem Clears.trans (h : Clears s s' fs) (h' : Clears s' t gs) : Clears s t (fs ++ gs) := by
  refine ⟨h'.bits.trans h.bits, fun f => ?_⟩
  rw [h'.get, h.get, List.mem_append]
  tauto

theorem Marks.foldl (h : ∀ s page, Marks s (op s page) [frame page]) (pages : List ℕ) :
    ∀ s, Marks s (pages.foldl op s) (pages.map frame) := by
  induction pages with
  | nil => exact Marks.refl
  | cons page pages ih => exact fun s => (h s page).trans (ih (op s page))

theorem Clears.foldl (h : ∀ s page, Clears s (op s page) [frame page]) (pages : List ℕ) :
    ∀ s, Clears s (pages.foldl op s) (pages.map frame) := by
  induction pages with
  | nil => exact Clears.refl
  | cons page pages ih => exact fun s => (h s page).trans (ih (op s page))

theorem marks_of_get (h : s.bitmap.get f) : Marks s s [f] := by
  refine ⟨rfl, fun g => ⟨.inl, ?_⟩⟩
  rintro (hg | ⟨-, hg⟩)
  · exact hg
  · rw [List.mem_singleton.mp hg]
    exact h

theorem marks_of_set (h : s'.bitmap = s.bitmap.set f true) : Marks s s' [f] := by
  have hbits : s'.bits = s.bits := by simp [bits, h]
  refine ⟨hbits, fun g => ?_⟩
  rw [h, List.mem_singleton]
  by_cases hf : f < s.bits
  · rw [Bitmap.get_set hf]
    by_cases hg : g = f <;> simp [hg, hf]
  rw [Bitmap.set_past_end (by unfold bits at hf; omega)]
  constructor
  · exact .inl
  · rintro (hg | ⟨hlt, rfl⟩)
    · exact hg
    · exact absurd hlt hf

theorem clears_of_get (h : s.bitmap.get f = false) : Clears s s [f] := by
  refine ⟨rfl, fun g => ⟨fun hg => ⟨hg, ?_⟩, And.left⟩⟩
  intro hm
  rw [List.mem_singleton.mp hm, h] at hg
  cases hg

theorem clears_of_set (hf : s.bitmap.get f) (h : s'.bitmap = s.bitmap.set f false) :
    Clears s s' [f] := by
  refine ⟨by simp [bits, h], fun g => ?_⟩
  rw [h, List.mem_singleton, Bitmap.get_set (Bitmap.lt_bits_of_get hf)]
  by_cases hg : g = f <;> simp [hg]

theorem reservePage_marks (s : PhysicalPageFrameAllocator) (page : ℕ) :
    Marks s (s.reservePage page) [frame page] := by
  unfold reservePage
  split
  · next h => exact marks_of_get h
  · exact marks_of_set rfl

theorem lockPage_marks (s : PhysicalPageFrameAllocator) (page : ℕ) :
    Marks s (s.lockPage page) [frame page] := by
  unfold lockPage
  split
  · next h => exact marks_of_get h
  · exact marks_of_set rfl

theorem unreservePage_clears (s : PhysicalPageFrameAllocator) (page : ℕ) :
    Clears s (s.unreservePage page) [frame page] := by
  unfold unreservePage
  split
  · next h => exact clears_of_get (by simpa using h)
  · next h => exact clears_of_set (by simpa using h) rfl

theorem freePage_clears (s : PhysicalPageFrameAllocator) (page : ℕ) :
    Clears s (s.freePage page) [frame page] := by
  unfold freePage
  split
  · next h => exact clears_of_get (by simpa using h)
  · next h => exact clears_of_set (by simpa using h) rfl

theorem Marks.free_iff (h : Marks s s' fs) : s'.Free f ↔ s.Free f ∧ f ∉ fs := by
  have hg := h.get f
  unfold Free
  rw [h.bits]
  cases hs : s.bitmap.get f <;> cases hs' : s'.bitmap.get f <;> simp_all

theorem Clears.free_iff (h : Clears s s' fs) : s'.Free f ↔ f < s.bits ∧ (s.Free f ∨ f ∈ fs) := by
  have hg := h.get f
  unfold Free
  rw [h.bits]
  cases hs : s.bitmap.get f <;> cases hs' : s'.bitmap.get f <;> simp_all

theorem lockPage_nextFree (s : PhysicalPageFrameAllocator) (page : ℕ) :
    (s.lockPage page).nextFree = s.nextFree := by
  unfold lockPage
  split <;> rfl

theorem lockPages_nextFree (s : PhysicalPageFrameAllocator) (start count : ℕ) :
    (s.lockPages start count).nextFree = s.nextFree := by
  unfold lockPages
  induction pageSpan start count generalizing s with
  | nil => rfl
  | cons page pages ih => exact (ih (s.lockPage page)).trans (lockPage_nextFree s page)

theorem reservePage_hintOk (h : s.HintOk) : (s.reservePage page).HintOk := by
  by_cases hset : s.bitmap.get (frame page) = true
  · simpa [reservePage, hset] using h
  have hnext : (s.reservePage page).nextFree =
      if s.nextFree = frame page then uint64Max else s.nextFree := by
    simp [reservePage, hset]
  by_cases he : s.nextFree = frame page
  · exact .inl (by rw [hnext, if_pos he])
  rw [if_neg he] at hnext
  rcases h with h | h
  · exact Or.inl (hnext.trans h)
  · apply Or.inr
    rw [hnext, (reservePage_marks s page).free_iff]
    exact ⟨h, by simpa using he⟩

theorem unreservePage_hintOk (h : s.HintOk) : (s.unreservePage page).HintOk := by
  cases hset : s.bitmap.get (frame page) with
  | false => simpa [unreservePage, hset] using h
  | true =>
    have hnext : (s.unreservePage page).nextFree = frame page := by simp [unreservePage, hset]
    apply Or.inr
    rw [hnext, (unreservePage_clears s page).free_iff]
    exact ⟨Bitmap.lt_bits_of_get hset, Or.inr (List.mem_singleton_self _)⟩

theorem freePage_hintOk (h : s.HintOk) : (s.freePage page).HintOk := by
  cases hset : s.bitmap.get (frame page) with
  | false => simpa [freePage, hset] using h
  | true =>
    have hnext : (s.freePage page).nextFree = frame page := by simp [freePage, hset]
    apply Or.inr
    rw [hnext, (freePage_clears s page).free_iff]
    exact ⟨Bitmap.lt_bits_of_get hset, Or.inr (List.mem_singleton_self _)⟩

theorem foldl_hintOk (hop : ∀ s page, s.HintOk → (op s page).HintOk) (pages : List ℕ) :
    ∀ s, s.HintOk → (pages.foldl op s).HintOk := by
  induction pages with
  | nil => exact fun s h => h
  | cons page pages ih => exact fun s h => ih (op s page) (hop s page h)

theorem firstClear_some {n j : ℕ} (h : firstClear b n i = some j) :
    j < i + n ∧ b.get j = false ∧ ∀ k, i ≤ k → k < j → b.get k := by
  induction n generalizing i with
  | zero => cases h
  | succ n ih =>
    unfold firstClear at h
    split at h
    · next hg =>
      cases h
      exact ⟨by omega, hg, fun k hl hr => by omega⟩
    next hg =>
    obtain ⟨hr, hj, hset⟩ := ih h
    refine ⟨by omega, hj, fun k hl hk => ?_⟩
    by_cases he : k = i
    · rw [he]
      simpa using hg
    · exact hset k (by omega) hk

theorem firstClear_none {n j : ℕ} (h : firstClear b n i = none) (hl : i ≤ j) (hr : j < i + n) :
    b.get j := by
  induction n generalizing i with
  | zero => omega
  | succ n ih =>
    unfold firstClear at h
    split at h
    · cases h
    next hg =>
    by_cases he : j = i
    · rw [he]
      simpa using hg
    · exact ih h (by omega) (by omega)

theorem first_unique {P : ℕ → Prop} {i j : ℕ} (hi : P i) (hfi : ∀ k < i, ¬ P k) (hj : P j)
    (hfj : ∀ k < j, ¬ P k) : i = j := by
  rcases Nat.lt_trichotomy i j with h | h | h
  · exact absurd hi (hfj i h)
  · exact h
  · exact absurd hj (hfi j h)

theorem u64_of_lt_bits (hi : i < s.bits) : u64 (i + 1) = i + 1 := by
  have := s.bits_le
  exact u64_of_lt (by omega)

theorem hintAfter_spec (hi : i < s.bits) (other : ℕ) :
    s.hintAfter i other = other ∨ s.Free (s.hintAfter i other) ∧ s.hintAfter i other ≠ i := by
  unfold hintAfter
  rw [u64_of_lt_bits hi]
  split
  · next h => exact .inr ⟨h, by omega⟩
  · exact .inl rfl

theorem ne_uint64Max (hi : i < s.bits) : i ≠ uint64Max := by
  have := s.bits_le
  unfold uint64Max
  omega

theorem frame_of_index (hi : i < s.bits) : frame (u64 (i * pageSize)) = i := by
  have := s.bits_le
  unfold frame u64 pageSize
  omega

theorem findFreePage_keeps (s : PhysicalPageFrameAllocator) :
    s.findFreePage.1.bitmap = s.bitmap ∧ s.findFreePage.1.freeMem = s.freeMem := by
  unfold findFreePage
  split
  · exact ⟨rfl, rfl⟩
  · split <;> exact ⟨rfl, rfl⟩

/-- The search takes the hint if there is one, and the first free frame otherwise. -/
theorem findFreePage_cases (s : PhysicalPageFrameAllocator) :
    s.nextFree = uint64Max ∧ (s.findFreePage = (s, uint64Max) ∧ (∀ f, ¬ s.Free f) ∨
      ∃ i, s.findFreePage = ({ s with nextFree := s.hintAfter i uint64Max }, i) ∧ s.Free i ∧
        ∀ j < i, ¬ s.Free j) ∨
    s.nextFree ≠ uint64Max ∧ s.findFreePage =
      ({ s with nextFree := s.hintAfter s.nextFree uint64Max }, s.nextFree) := by
  have hset : ∀ f, s.Free f → s.bitmap.get f → False := by
    intro f hf hg
    rw [hf.2] at hg
    cases hg
  by_cases hn : s.nextFree = uint64Max
  · refine .inl ⟨hn, ?_⟩
    cases hc : firstClear s.bitmap s.bitmap.bits 0 with
    | none =>
      refine .inl ⟨by simp [findFreePage, hn, hc], fun f hf => hset f hf ?_⟩
      exact firstClear_none hc (Nat.zero_le f) (by have := hf.1; unfold bits at this; omega)
    | some i =>
      obtain ⟨hlt, hg, hfirst⟩ := firstClear_some hc
      refine .inr ⟨i, by simp [findFreePage, hn, hc], ⟨by unfold bits; omega, hg⟩, ?_⟩
      exact fun j hj hf => hset j hf (hfirst j (Nat.zero_le j) hj)
  · exact .inr ⟨hn, by simp [findFreePage, hn]⟩

theorem findFreePage_spec (h : s.HintOk) : s.findFreePage.1.bitmap = s.bitmap ∧
    (s.findFreePage.2 = uint64Max ∧ (∀ f, ¬ s.Free f) ∨
      s.Free s.findFreePage.2 ∧ (s.findFreePage.1.nextFree = uint64Max ∨
        s.Free s.findFreePage.1.nextFree ∧ s.findFreePage.1.nextFree ≠ s.findFreePage.2)) := by
  rcases findFreePage_cases s with ⟨-, ⟨he, hno⟩ | ⟨i, he, hf, -⟩⟩ | ⟨hn, he⟩
  · rw [he]
    exact ⟨rfl, .inl ⟨rfl, hno⟩⟩
  · rw [he]
    exact ⟨rfl, .inr ⟨hf, hintAfter_spec hf.1 uint64Max⟩⟩
  · have hf : s.Free s.nextFree := h.resolve_left hn
    rw [he]
    exact ⟨rfl, .inr ⟨hf, hintAfter_spec hf.1 uint64Max⟩⟩

theorem free_congr (hb : t.bitmap = s.bitmap) : t.Free f ↔ s.Free f := by
  unfold Free bits
  rw [hb]

theorem Marks.congr (h : Marks t s' fs) (hb : t.bitmap = s.bitmap) : Marks s s' fs := by
  have hbits : t.bits = s.bits := congrArg Bitmap.bits hb
  refine ⟨h.bits.trans hbits, fun f => ?_⟩
  rw [h.get, hb, hbits]

theorem hintOk_of_marks (hm : Marks s s' fs)
    (hn : s'.nextFree = uint64Max ∨ s.Free s'.nextFree ∧ s'.nextFree ∉ fs) : s'.HintOk :=
  hn.imp_right hm.free_iff.mpr

theorem allocatePage_aligned (h : s.allocatePage = some (s', page)) :
    page = frame page * pageSize := by
  simp only [allocatePage] at h
  split at h
  · cases h
  · cases h
    unfold frame u64 pageSize
    omega

theorem allocatePage_spec (h : s.HintOk) : s.allocatePage = none ∧ (∀ f, ¬ s.Free f) ∨
    ∃ s' page, s.allocatePage = some (s', page) ∧ s.Free (frame page) ∧
      Marks s s' [frame page] ∧ s'.HintOk := by
  obtain ⟨hb, ⟨hi, hnone⟩ | ⟨hf, hhint⟩⟩ := findFreePage_spec h
  · exact .inl ⟨by simp [allocatePage, hi], hnone⟩
  have hfr := frame_of_index hf.1
  have hm := (lockPage_marks s.findFreePage.1 (u64 (s.findFreePage.2 * pageSize))).congr hb
  refine .inr ⟨_, _, ?_, by rwa [hfr], hm, ?_⟩
  · simp [allocatePage, ne_uint64Max hf.1]
  · apply hintOk_of_marks hm
    rw [lockPage_nextFree, hfr, List.mem_singleton]
    exact hhint

/-- The search takes `i` for a run of `count` frames: `i` has a clear bit and the `count`
indices behind it read as clear, past the end of the bitmap too. -/
def Accepts (s : PhysicalPageFrameAllocator) (count i : ℕ) : Prop :=
  s.Free i ∧ ∀ k, 1 ≤ k → k ≤ count → s.bitmap.get (u64 (i + k)) = false

theorem scanRun_spec {next m : ℕ} {found} (hf : fuel + next = count + 1)
    (hclear : ∀ k, 1 ≤ k → k < next → b.get (u64 (i + k)) = false)
    (h : scanRun b i count fuel next = (found, m)) :
    (found → ∀ k, 1 ≤ k → k ≤ count → b.get (u64 (i + k)) = false) ∧
    (found = false → next ≤ m ∧ m ≤ count ∧ b.get (u64 (i + m))) := by
  induction fuel generalizing next with
  | zero =>
    cases h
    exact ⟨fun _ k hk hkc => hclear k hk (by omega), fun h => by cases h⟩
  | succ fuel ih =>
    have step : b.get (u64 (i + next)) = false →
        ∀ k, 1 ≤ k → k < next + 1 → b.get (u64 (i + k)) = false := by
      intro hg k hk hlt
      by_cases he : k = next
      · rwa [he]
      · exact hclear k hk (by omega)
    unfold scanRun at h
    cases hg : b.get (u64 (i + next)) with
    | true =>
      rw [if_pos hg] at h
      cases h
      exact ⟨fun h => (by cases h), fun _ => ⟨le_rfl, by omega, hg⟩⟩
    | false =>
      rw [if_neg (by simp [hg])] at h
      by_cases hc : count ≤ next
      · rw [if_pos hc] at h
        cases h
        exact ⟨fun _ k hk hkc => step hg k hk (by omega), fun h => by cases h⟩
      rw [if_neg hc] at h
      obtain ⟨ht, hfalse⟩ := ih (by omega) (step hg) h
      refine ⟨ht, fun h => ?_⟩
      obtain ⟨hl, hr⟩ := hfalse h
      exact ⟨by omega, hr⟩

theorem none_below_succ {P : ℕ → Prop} (hi : i < s.bits) (hg : s.bitmap.get i)
    (hfree : ∀ j, P j → s.Free j) (hno : ∀ j < i, ¬ P j) : ∀ j < u64 (i + 1), ¬ P j := by
  intro j hj hP
  rw [u64_of_lt_bits hi] at hj
  by_cases he : j = i
  · rw [he] at hP
    rw [(hfree i hP).2] at hg
    cases hg
  · exact hno j (by omega) hP

theorem not_accepts_of_skip {m : ℕ} (hmc : m ≤ count)
    (hset : s.bitmap.get (u64 (i + m))) (hno : ∀ j < i, ¬ s.Accepts count j) :
    ∀ j < u64 (i + m), ¬ s.Accepts count j := by
  intro j hj hacc
  by_cases hlt : j < i
  · exact hno j hlt hacc
  · have hle : u64 (i + m) ≤ i + m := Nat.mod_le _ _
    have hclear := hacc.2 (i + m - j) (by omega) (by omega)
    rw [show j + (i + m - j) = i + m by omega, hset] at hclear
    cases hclear

theorem findFreePagesLoop_spec (hc : 2 ≤ count) (hno : ∀ j < i, ¬ s.Accepts count j)
    (h : s.findFreePagesLoop count fuel i = some (s', index)) :
    index = uint64Max ∧ s' = s ∧ (∀ j, ¬ s.Accepts count j) ∨
    s.Accepts count index ∧ (∀ j < index, ¬ s.Accepts count j) ∧
      s' = { s with nextFree :=
        if index ≤ s.nextFree ∧ s.nextFree < u64 (index + count) then uint64Max
        else s.nextFree } := by
  induction fuel generalizing i with
  | zero => cases h
  | succ fuel ih =>
    unfold findFreePagesLoop at h
    by_cases hend : s.bitmap.bits ≤ i
    · rw [if_pos hend] at h
      cases h
      refine .inl ⟨rfl, rfl, fun j hj => hno j ?_ hj⟩
      exact Nat.lt_of_lt_of_le hj.1.1 hend
    have hi : i < s.bits := by unfold bits; omega
    rw [if_neg hend] at h
    cases hg : s.bitmap.get i with
    | true =>
      rw [if_pos hg] at h
      exact ih (none_below_succ hi hg (fun j hj => hj.1) hno) h
    | false =>
      rw [if_neg (by simp [hg]), if_neg (by omega)] at h
      rcases hscan : scanRun s.bitmap i count count 1 with ⟨found, m⟩
      have hspec := scanRun_spec rfl (by intro k hk hlt; omega) hscan
      simp only [hscan] at h
      cases found with
      | true =>
        rw [if_pos rfl] at h
        cases h
        exact .inr ⟨⟨⟨hi, hg⟩, hspec.1 rfl⟩, hno, rfl⟩
      | false =>
        rw [if_neg (by simp)] at h
        obtain ⟨-, hmc, hset⟩ := hspec.2 rfl
        exact ih (not_accepts_of_skip hmc hset hno) h

theorem findFreePagesLoop_one (hno : ∀ j < i, ¬ s.Free j)
    (h : s.findFreePagesLoop 1 fuel i = some (s', index)) :
    index = uint64Max ∧ s' = s ∧ (∀ j, ¬ s.Free j) ∨
    ∃ j, s.Free j ∧ (∀ k < j, ¬ s.Free k) ∧ index = u64 (j * 8) ∧
      s' = { s with nextFree := if s.nextFree = j then uint64Max else s.nextFree } := by
  induction fuel generalizing i with
  | zero => cases h
  | succ fuel ih =>
    unfold findFreePagesLoop at h
    by_cases hend : s.bitmap.bits ≤ i
    · rw [if_pos hend] at h
      cases h
      refine .inl ⟨rfl, rfl, fun j hj => hno j ?_ hj⟩
      exact Nat.lt_of_lt_of_le hj.1 hend
    have hi : i < s.bits := by unfold bits; omega
    rw [if_neg hend] at h
    cases hg : s.bitmap.get i with
    | true =>
      rw [if_pos hg] at h
      exact ih (none_below_succ hi hg (fun j hj => hj) hno) h
    | false =>
      rw [if_neg (by simp [hg]), if_pos rfl] at h
      cases h
      exact .inr ⟨i, ⟨hi, hg⟩, hno, rfl, rfl⟩

end PhysicalPageFrameAllocator
