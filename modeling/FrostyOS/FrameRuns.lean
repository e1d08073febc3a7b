import FrostyOS.PhysicalPageFrameAllocator

/-! # Runs of the physical page frame allocator

The frames that callers hold are ghost state. `AllocatePages` has two slips: one page is
taken at eight times its index, and a longer run may reach past the end of the bitmap. -/
namespace FrameRuns

open MachineWord PhysicalPageFrameAllocator

inductive Op where
  | allocatePage
  | allocatePages (count : ℕ)
  | freePage (page : ℕ)
  | freePages (start count : ℕ)
  | reservePage (page : ℕ)
  | reservePages (start count : ℕ)
  | unreservePage (page : ℕ)
  | unreservePages (start count : ℕ)
  deriving DecidableEq, Repr

def frames (start count : ℕ) : List ℕ := (pageSpan start count).map frame

def perform (fuel : ℕ) (s : PhysicalPageFrameAllocator) :
    Op → Option (PhysicalPageFrameAllocator × List ℕ)
  | .allocatePage => s.allocatePage.map fun (s, page) => (s, [frame page])
  | .allocatePages count =>
    (s.allocatePages fuel count).map fun (s, page) =>
      (s, page.elim [] fun page => frames page count)
  | .freePage page => some (s.freePage page, [])
  | .freePages start count => some (s.freePages start count, [])
  | .reservePage page => some (s.reservePage page, [])
  | .reservePages start count => some (s.reservePages start count, [])
  | .unreservePage page => some (s.unreservePage page, [])
  | .unreservePages start count => some (s.unreservePages start count, [])

def released : Op → List ℕ
  | .freePage page => [frame page]
  | .freePages start count => frames start count
  | _ => []

def unreserved : Op → List ℕ
  | .unreservePage page => [frame page]
  | .unreservePages start count => frames start count
  | _ => []

def Allowed (held : List ℕ) : Op → Prop
  | .allocatePages count => 1 ≤ count ∧ count < 2 ^ 64
  | op => ∀ f ∈ released op, f ∈ held

/-- The first free index is zero, or the index eight times as large is free and not the hint. -/
def SingleClear (s : PhysicalPageFrameAllocator) : Prop := ∀ i, s.Free i → (∀ j < i, ¬ s.Free j) →
    i = 0 ∨ s.Free (i * 8 % 2 ^ 52) ∧ s.nextFree ≠ i * 8 % 2 ^ 52

/-- The first acceptable run ends within the bitmap. -/
def RunClear (s : PhysicalPageFrameAllocator) (count : ℕ) : Prop :=
  ∀ i, s.Accepts count i → (∀ j < i, ¬ s.Accepts count j) → i + count ≤ s.bits

def Clear (s : PhysicalPageFrameAllocator) : Op → Prop
  | .allocatePages count => if count = 1 then SingleClear s else RunClear s count
  | _ => True

/-- `revoked` records that some held frame was declared unreserved. -/
structure State where
  allocator : PhysicalPageFrameAllocator
  held : List ℕ
  revoked : Bool

inductive Step (s : State) (op : Op) : State → List ℕ → Prop where
  | call (fuel : ℕ) (a : PhysicalPageFrameAllocator) (handed : List ℕ)
      (ha : Allowed s.held op) (ho : perform fuel s.allocator op = some (a, handed)) :
      Step s op
        ⟨a, handed ++ s.held.filter (· ∉ released op),
          s.revoked || (unreserved op).any (· ∈ s.held)⟩ handed

/-- Runs from any bitmap without a hint, whose steps all stay clear of the two slips. -/
inductive ClearRun : State → Prop where
  | start (a : PhysicalPageFrameAllocator) (held : List ℕ) (hn : a.nextFree = uint64Max)
      (hh : ∀ f ∈ held, a.bitmap.get f = true) : ClearRun ⟨a, held, false⟩
  | step {s t : State} {op : Op} {handed : List ℕ} (hr : ClearRun s)
      (hc : Clear s.allocator op) (hs : Step s op t handed) : ClearRun t

structure Invariant (s : State) : Prop where
  hint : s.allocator.HintOk
  marked : s.revoked = false → ∀ f ∈ s.held, s.allocator.bitmap.get f = true

variable {index f : ℕ}

theorem mem_frames_iff {count : ℕ} :
    f ∈ frames (u64 (index * pageSize)) count ↔ ∃ k < count, (index + k) % 2 ^ 52 = f := by
  have hframe : ∀ k, frame (u64 (k * pageSize + u64 (index * pageSize))) =
      (index + k) % 2 ^ 52 := by
    intro k
    unfold frame u64 pageSize
    omega
  simp only [frames, pageSpan, List.map_map, List.mem_map, List.mem_range, Function.comp_apply,
    hframe]

theorem mem_frames {count : ℕ} (h : index + count ≤ 2 ^ 52) :
    f ∈ frames (u64 (index * pageSize)) count ↔ index ≤ f ∧ f < index + count := by
  rw [mem_frames_iff]
  constructor
  · rintro ⟨k, hk, rfl⟩
    omega
  · rintro ⟨hl, hr⟩
    exact ⟨f - index, by omega, by omega⟩

theorem frames_one (page : ℕ) (h : page < 2 ^ 64) : frames page 1 = [frame page] := by
  simp [frames, pageSpan, u64_of_lt h]

variable {i : ℕ}

theorem frame_of_eightfold : frame (u64 (u64 (i * 8) * pageSize)) = i * 8 % 2 ^ 52 := by
  unfold frame u64 pageSize
  omega

theorem eightfold_ne_uint64Max : u64 (i * 8) ≠ uint64Max := by
  unfold u64 uint64Max
  omega

variable {s s' : PhysicalPageFrameAllocator} {fuel count : ℕ} {r : Option ℕ}

/-- What an allocation that meets neither slip does. -/
structure Hands (s s' : PhysicalPageFrameAllocator) (handed : List ℕ) : Prop where
  free : ∀ f ∈ handed, s.Free f
  marks : Marks s s' handed
  hint : s'.HintOk

theorem Hands.nothing (h : s.HintOk) : Hands s s [] := ⟨by simp, Marks.refl s, h⟩

theorem allocatePages_cases (hc : count ≠ 0) (h : s.allocatePages fuel count = some (s', r)) :
    ∃ t index, s.findFreePagesLoop count fuel 0 = some (t, index) ∧
      (index = uint64Max → s' = t ∧ r = none) ∧
      (index ≠ uint64Max → s' = t.lockPages (u64 (index * pageSize)) count ∧
        r = some (u64 (index * pageSize))) := by
  unfold allocatePages at h
  obtain ⟨⟨t, index⟩, hf, he⟩ := Option.bind_eq_some_iff.mp h
  rw [findFreePages, if_neg hc] at hf
  refine ⟨t, index, hf, fun hm => ?_, fun hm => ?_⟩
  all_goals
    simp only [hm, if_true, if_false, Option.some.injEq, Prod.mk.injEq] at he
    exact ⟨he.1.symm, he.2.symm⟩

section LockPages

variable {t : PhysicalPageFrameAllocator} {start : ℕ}

theorem lockPages_marks (hb : t.bitmap = s.bitmap) :
    Marks s (t.lockPages start count) (frames start count) :=
  (Marks.foldl lockPage_marks (pageSpan start count) t).congr hb

theorem lockPages_hintOk (hb : t.bitmap = s.bitmap)
    (hn : t.nextFree = uint64Max ∨ s.Free t.nextFree ∧ t.nextFree ∉ frames start count) :
    (t.lockPages start count).HintOk :=
  hintOk_of_marks (lockPages_marks hb) (by rwa [lockPages_nextFree])

/-- The hint of `FindFreePages` stays valid once the run it found is locked. -/
theorem lockedRun_hintOk (h : s.HintOk) (hend : index + count ≤ 2 ^ 52) :
    (lockPages { s with nextFree :=
        if index ≤ s.nextFree ∧ s.nextFree < u64 (index + count) then uint64Max
        else s.nextFree } (u64 (index * pageSize)) count).HintOk := by
  apply lockPages_hintOk rfl
  rw [mem_frames hend, u64_of_lt (by omega)]
  dsimp only
  split
  case isTrue => exact .inl rfl
  case isFalse hn => exact h.imp_right fun hfree => ⟨hfree, hn⟩

end LockPages

theorem free_of_accepts (h : s.Accepts count i) (hend : i + count ≤ s.bits) :
    ∀ k < count, s.Free (i + k) := by
  have hbits := s.bits_le
  intro k hk
  refine ⟨by omega, ?_⟩
  cases k with
  | zero => exact h.1.2
  | succ k =>
    have hget := h.2 (k + 1) (by omega) (by omega)
    rwa [u64_of_lt (by omega)] at hget

theorem allocatePages_single (h : s.HintOk) (hc : SingleClear s)
    (ho : s.allocatePages fuel 1 = some (s', r)) :
    Hands s s' (r.elim [] fun page => frames page 1) := by
  obtain ⟨t, index, hf, hmax, hfound⟩ := allocatePages_cases (by decide) ho
  rcases findFreePagesLoop_one (by simp) hf with ⟨rfl, rfl, -⟩ | ⟨i, hi, hfirst, rfl, rfl⟩
  · obtain ⟨rfl, rfl⟩ := hmax rfl
    exact Hands.nothing h
  obtain ⟨rfl, rfl⟩ := hfound eightfold_ne_uint64Max
  have hfr : frames (u64 (u64 (i * 8) * pageSize)) 1 = [i * 8 % 2 ^ 52] := by
    rw [frames_one _ (u64_lt _), frame_of_eightfold]
  refine ⟨?_, lockPages_marks rfl, lockPages_hintOk rfl ?_⟩
  · dsimp only [Option.elim]
    rw [hfr]
    intro f hf
    rw [List.mem_singleton.mp hf]
    rcases hc i hi hfirst with rfl | ⟨hfree, -⟩
    · exact hi
    · exact hfree
  · rw [hfr, List.mem_singleton]
    dsimp only
    by_cases hn : s.nextFree = i
    · exact .inl (if_pos hn)
    rw [if_neg hn]
    refine h.imp_right fun hfree => ⟨hfree, ?_⟩
    rcases hc i hi hfirst with rfl | ⟨-, hne⟩
    · simpa using hn
    · exact hne

theorem allocatePages_run (h : s.HintOk) (hcount : 2 ≤ count)
    (hc : RunClear s count) (ho : s.allocatePages fuel count = some (s', r)) :
    Hands s s' (r.elim [] fun page => frames page count) := by
  obtain ⟨t, index, hf, hmax, hfound⟩ := allocatePages_cases (by omega) ho
  rcases findFreePagesLoop_spec hcount (by simp) hf with ⟨rfl, rfl, -⟩ | ⟨hacc, hfirst, rfl⟩
  · obtain ⟨rfl, rfl⟩ := hmax rfl
    exact Hands.nothing h
  obtain ⟨rfl, rfl⟩ := hfound (ne_uint64Max hacc.1.1)
  have hend := hc index hacc hfirst
  have hle := s.bits_le
  refine ⟨?_, lockPages_marks rfl, lockedRun_hintOk h (by omega)⟩
  intro f hf
  obtain ⟨hl, hr⟩ := (mem_frames (by omega)).mp hf
  rw [← Nat.add_sub_of_le hl]
  exact free_of_accepts hacc hend _ (by omega)

variable {handed : List ℕ} {op : Op}

/-- Every call keeps the hint valid and marks exactly what it hands out; only the
frames it is told to give up become free. -/
theorem perform_spec {held} (h : s.HintOk) (ha : Allowed held op) (hc : Clear s op)
    (ho : perform fuel s op = some (s', handed)) :
    s'.HintOk ∧ (∀ f ∈ handed, s.Free f) ∧
      ∀ f, s.bitmap.get f ∨ f ∈ handed → f ∉ released op → f ∉ unreserved op →
        s'.bitmap.get f := by
  have clears : ∀ {t : PhysicalPageFrameAllocator} {fs : List ℕ}, Clears s t fs →
      ∀ f, s.bitmap.get f = true ∨ f ∈ ([] : List ℕ) → f ∉ fs → t.bitmap.get f = true :=
    fun hcl f hf hn => (hcl.get f).mpr ⟨hf.resolve_right (by simp), hn⟩
  have marks : ∀ {t : PhysicalPageFrameAllocator} {fs : List ℕ}, Marks s t fs →
      ∀ f, s.bitmap.get f = true ∨ f ∈ ([] : List ℕ) → t.bitmap.get f = true :=
    fun hm f hf => (hm.get f).mpr (.inl (hf.resolve_right (by simp)))
  have hands : Hands s s' handed → s'.HintOk ∧ (∀ f ∈ handed, s.Free f) ∧
      ∀ f, s.bitmap.get f = true ∨ f ∈ handed → s'.bitmap.get f = true := by
    intro hh
    refine ⟨hh.hint, hh.free, fun f hf => (hh.marks.get f).mpr ?_⟩
    exact hf.imp_right fun hm => ⟨(hh.free f hm).1, hm⟩
  cases op with
  | allocatePage =>
    rcases allocatePage_spec h with ⟨hnone, -⟩ | ⟨t, page, hsome, hfree, hm, hhint⟩
    · simp [perform, hnone] at ho
    · simp only [perform, hsome, Option.map_some, Option.some.injEq, Prod.mk.injEq] at ho
      obtain ⟨rfl, rfl⟩ := ho
      obtain ⟨h₁, h₂, h₃⟩ := hands ⟨by simpa using hfree, hm, hhint⟩
      exact ⟨h₁, h₂, fun f hf _ _ => h₃ f hf⟩
  | allocatePages count =>
    simp only [perform, Option.map_eq_some_iff] at ho
    obtain ⟨⟨t, r⟩, hsome, he⟩ := ho
    cases he
    have hh : Hands s t (r.elim [] fun page => frames page count) := by
      by_cases h1 : count = 1
      · subst h1
        exact allocatePages_single h (by simpa [Clear] using hc) hsome
      · have hcount : 2 ≤ count := by
          have := ha.1
          omega
        exact allocatePages_run h hcount (by simpa [Clear, h1] using hc) hsome
    obtain ⟨h₁, h₂, h₃⟩ := hands hh
    exact ⟨h₁, h₂, fun f hf _ _ => h₃ f hf⟩
  | freePage page =>
    cases ho
    exact ⟨freePage_hintOk h, by simp, fun f hf hr _ => clears (freePage_clears s page) f hf hr⟩
  | freePages start count =>
    cases ho
    exact ⟨foldl_hintOk (fun _ _ => freePage_hintOk) _ s h, by simp,
      fun f hf hr _ => clears (Clears.foldl freePage_clears _ s) f hf hr⟩
  | reservePage page =>
    cases ho
    exact ⟨reservePage_hintOk h, by simp, fun f hf _ _ => marks (reservePage_marks s page) f hf⟩
  | reservePages start count =>
    cases ho
    exact ⟨foldl_hintOk (fun _ _ => reservePage_hintOk) _ s h, by simp,
      fun f hf _ _ => marks (Marks.foldl reservePage_marks _ s) f hf⟩
  | unreservePage page =>
    cases ho
    exact ⟨unreservePage_hintOk h, by simp,
      fun f hf _ hu => clears (unreservePage_clears s page) f hf hu⟩
  | unreservePages start count =>
    cases ho
    exact ⟨foldl_hintOk (fun _ _ => unreservePage_hintOk) _ s h, by simp,
      fun f hf _ hu => clears (Clears.foldl unreservePage_clears _ s) f hf hu⟩

theorem released_nil_of_handed (ho : perform fuel s op = some (s', handed)) (hf : f ∈ handed) :
    released op = [] ∧ unreserved op = [] := by
  cases op <;> simp_all [perform, released, unreserved]

theorem step_preserves_invariant {s t} (hI : Invariant s) (hc : Clear s.allocator op)
    (hs : Step s op t handed) : Invariant t := by
  obtain ⟨fuel, a, _, ha, ho⟩ := hs
  obtain ⟨hhint, -, hkeep⟩ := perform_spec hI.hint ha hc ho
  refine ⟨hhint, fun hrev f hf => ?_⟩
  obtain ⟨hrev, hun⟩ := Bool.or_eq_false_iff.mp hrev
  rcases List.mem_append.mp hf with hf | hf
  · obtain ⟨hr, hu⟩ := released_nil_of_handed ho hf
    exact hkeep f (.inr hf) (by simp [hr]) (by simp [hu])
  · obtain ⟨hf, hr⟩ := List.mem_filter.mp hf
    refine hkeep f (.inl (hI.marked hrev f hf)) (by simpa using hr) fun hm => ?_
    have := List.any_eq_false.mp hun f hm
    simp [hf] at this

theorem clearRun_invariant {s} (hr : ClearRun s) : Invariant s := by
  induction hr with
  | start a held hn hh => exact ⟨.inl hn, fun _ => hh⟩
  | step _ hc hs ih => exact step_preserves_invariant ih hc hs

/-- In a run that stays clear of the two slips, every frame handed out exists, was marked
free just before, and is held by nobody else. -/
theorem handed_out_frames_are_free {s t : State} {op : Op} {handed : List ℕ} (hr : ClearRun s)
    (hc : Clear s.allocator op) (hs : Step s op t handed) :
    ∀ f ∈ handed, f < s.allocator.bits ∧ s.allocator.bitmap.get f = false ∧
      (s.revoked = false → f ∉ s.held) := by
  have hI := clearRun_invariant hr
  obtain ⟨fuel, a, _, ha, ho⟩ := hs
  obtain ⟨-, hfree, -⟩ := perform_spec hI.hint ha hc ho
  intro f hf
  obtain ⟨hlt, hclear⟩ := hfree f hf
  refine ⟨hlt, hclear, fun hrev hm => ?_⟩
  have := hI.marked hrev f hm
  rw [hclear] at this
  cases this

def smallAllocator (size : ℕ) (hs : size ≤ 2) (first second : BitVec 8) :
    PhysicalPageFrameAllocator where
  bitmap := ⟨size, fun k => if k = 0 then first else second⟩
  freeMem := 0
  reservedMem := 0
  usedMem := 0
  nextFree := uint64Max
  sized := Nat.le_trans hs (by decide)

theorem step_of_perform (s : State) (op : Op) (fuel : ℕ) (handed : List ℕ) (ha : Allowed s.held op)
    (ho : (perform fuel s.allocator op).map Prod.snd = some handed) : ∃ t, Step s op t handed := by
  obtain ⟨⟨a, _⟩, he, rfl⟩ := Option.map_eq_some_iff.mp ho
  exact ⟨_, .call fuel a _ ha he⟩

theorem handed_out_frames_are_free_small :
    let a := smallAllocator 1 (by decide) 0b11000000#8 0#8
    ∃ t, Step ⟨a, [0, 1], false⟩ (.allocatePages 2) t [2, 3] ∧
      ∀ f ∈ [2, 3], f < a.bits ∧ a.bitmap.get f = false ∧ f ∉ [0, 1] := by
  intro a
  obtain ⟨t, ht⟩ := step_of_perform ⟨a, [0, 1], false⟩ (.allocatePages 2) 9 [2, 3]
    ⟨by decide, by decide⟩ (by decide +kernel)
  have hrun : ClearRun ⟨a, [0, 1], false⟩ := .start a [0, 1] rfl (by decide)
  have hclear : Clear a (.allocatePages 2) := by
    intro i _ hfirst
    by_contra hend
    have hbits : a.bits = 8 := by decide
    refine hfirst 2 (by omega) ⟨⟨by decide, by decide⟩, fun k hk hk2 => ?_⟩
    obtain rfl | rfl : k = 1 ∨ k = 2 := by omega
    · decide
    · decide
  refine ⟨t, ht, fun f hf => ?_⟩
  obtain ⟨hlt, hget, hheld⟩ := handed_out_frames_are_free hrun hclear ht f hf
  exact ⟨hlt, hget, hheld rfl⟩

/-- With frames one to seven free and frame eight held, a request for one page hands out
frame eight again; with only the last of eight frames free, a request for two pages hands
out a ninth frame that does not exist. -/
theorem allocatePages_hands_out_taken_frames :
    (let a := smallAllocator 2 (by decide) 0b10000000#8 0b10000000#8
      ∃ t, Step ⟨a, [8], false⟩ (.allocatePages 1) t [8] ∧ a.bitmap.get 8 = true) ∧
    (let a := smallAllocator 1 (by decide) 0b11111110#8 0#8
      ∃ t, Step ⟨a, [], false⟩ (.allocatePages 2) t [7, 8] ∧ a.bits = 8) := by
  constructor
  · obtain ⟨t, ht⟩ := step_of_perform
      ⟨smallAllocator 2 (by decide) 0b10000000#8 0b10000000#8, [8], false⟩ (.allocatePages 1) 9 [8]
      ⟨by decide, by decide⟩ (by decide +kernel)
    exact ⟨t, ht, by decide⟩
  · obtain ⟨t, ht⟩ := step_of_perform
      ⟨smallAllocator 1 (by decide) 0b11111110#8 0#8, [], false⟩ (.allocatePages 2) 9 [7, 8]
      ⟨by decide, by decide⟩ (by decide +kernel)
    exact ⟨t, ht, by decide⟩

end FrameRuns
