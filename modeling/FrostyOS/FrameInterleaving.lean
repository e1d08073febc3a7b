import FrostyOS.FrameRuns
import Mathlib.Data.List.Nodup

/-! # Frame allocation on several processors

Each section under the locks is one step. A frame is found in one section and marked in a
later one. -/

namespace PhysicalPageFrameAllocator

open MachineWord

variable (s : PhysicalPageFrameAllocator)

def lockBitmap (page : ℕ) : PhysicalPageFrameAllocator :=
  { s with bitmap := s.bitmap.set (frame page) true, sized := s.sized }

def lockCounters : PhysicalPageFrameAllocator :=
  { s with freeMem := subWord s.freeMem pageSize, usedMem := u64 (s.usedMem + pageSize) }

def freeBitmap (page : ℕ) : PhysicalPageFrameAllocator :=
  { s with bitmap := s.bitmap.set (frame page) false, sized := s.sized }

def freeCounters (f : ℕ) : PhysicalPageFrameAllocator :=
  { s with
    freeMem := u64 (s.freeMem + pageSize)
    usedMem := subWord s.usedMem pageSize
    nextFree := f }

theorem lockCounters_keeps :
    s.lockCounters.bitmap = s.bitmap ∧ s.lockCounters.nextFree = s.nextFree := by
  unfold lockCounters
  exact ⟨rfl, rfl⟩

theorem freeCounters_hints (f : ℕ) :
    (s.freeCounters f).bitmap = s.bitmap ∧ (s.freeCounters f).nextFree = f := by
  unfold freeCounters
  exact ⟨rfl, rfl⟩

theorem lockPage_sections (page : ℕ) : s.lockPage page =
    if s.bitmap.get (frame page) then s else (s.lockBitmap page).lockCounters := rfl

theorem freePage_sections (page : ℕ) : s.freePage page =
    if !s.bitmap.get (frame page) then s else (s.freeBitmap page).freeCounters (frame page) := rfl

theorem lockBitmap_marks (page : ℕ) : Marks s (s.lockBitmap page) [frame page] := marks_of_set rfl

variable {s} in
theorem freeBitmap_clears {page : ℕ} (h : s.bitmap.get (frame page)) :
    Clears s (s.freeBitmap page) [frame page] := clears_of_set h rfl

theorem findFreePage_exhausted {s : PhysicalPageFrameAllocator}
    (h : s.findFreePage.2 = uint64Max) : s.findFreePage.1.nextFree = uint64Max := by
  rcases findFreePage_cases s with ⟨hn, ⟨he, -⟩ | ⟨i, he, hf, -⟩⟩ | ⟨hn, he⟩
  · rw [he, hn]
  · rw [he] at h
    exact absurd h (ne_uint64Max hf.1)
  · rw [he] at h
    exact absurd h hn

end PhysicalPageFrameAllocator

namespace FrameInterleaving

open MachineWord PhysicalPageFrameAllocator List Function

inductive Phase where
  | idle
  | found (index : ℕ)
  | marked (index : ℕ)
  | freeing (f : ℕ)
  | panicked
  deriving DecidableEq, Repr

/-- `AllocatePage` panics when no page was found. -/
def Phase.ofIndex (index : ℕ) : Phase := if index = uint64Max then .panicked else .found index

/-- `held` lists the pages that were returned and not freed since. -/
structure State (ι : Type*) where
  allocator : PhysicalPageFrameAllocator
  phase : ι → Phase
  held : List ℕ

inductive Event (ι : Type*) where
  | find (p : ι)
  | lockBitmap (p : ι) (index : ℕ)
  | lockCounters (p : ι) (index : ℕ)
  | freeBitmap (p : ι) (page : ℕ)
  | freeCounters (p : ι) (f : ℕ)

variable {ι : Type*}

def Enabled (s : State ι) : Event ι → Prop
  | .find p => s.phase p = .idle
  | .lockBitmap p index => s.phase p = .found index
  | .lockCounters p index => s.phase p = .marked index
  | .freeBitmap p page => s.phase p = .idle ∧ page ∈ s.held
  | .freeCounters p f => s.phase p = .freeing f

def address (index : ℕ) : ℕ := u64 (index * pageSize)

variable [DecidableEq ι]

def next (s : State ι) : Event ι → State ι
  | .find p =>
    let (a, index) := s.allocator.findFreePage
    { s with
      allocator := a
      phase := update s.phase p (Phase.ofIndex index) }
  | .lockBitmap p index =>
    if s.allocator.bitmap.get (frame (address index)) then
      { s with
        phase := update s.phase p .idle
        held := address index :: s.held }
    else
      { s with
        allocator := s.allocator.lockBitmap (address index)
        phase := update s.phase p (.marked index) }
  | .lockCounters p index =>
    { allocator := s.allocator.lockCounters
      phase := update s.phase p .idle
      held := address index :: s.held }
  | .freeBitmap p page =>
    if !s.allocator.bitmap.get (frame page) then { s with held := s.held.erase page }
    else
      { allocator := s.allocator.freeBitmap page
        phase := update s.phase p (.freeing (frame page))
        held := s.held.erase page }
  | .freeCounters p f =>
    { s with
      allocator := s.allocator.freeCounters f
      phase := update s.phase p .idle }

def initial (a : PhysicalPageFrameAllocator) : State ι := ⟨a, fun _ => .idle, []⟩

inductive Execution (C : State ι → Event ι → Prop) : State ι → State ι → Prop where
  | refl (s) : Execution C s s
  | tail {s t e} : Execution C s t → Enabled t e → C t e → Execution C s (next t e)

/-- Nobody has found the index without having marked it. -/
def Alone (s : State ι) (index : ℕ) : Prop := ∀ q, s.phase q ≠ .found index

/-- A hint names a clear bit, and nobody is about to mark the frame that the search takes:
the hint if there is one, the first free frame otherwise. -/
structure FindClear (s : State ι) : Prop where
  hint : s.allocator.nextFree ≠ uint64Max →
    s.allocator.bitmap.get s.allocator.nextFree = false ∧ Alone s s.allocator.nextFree
  first : s.allocator.nextFree = uint64Max →
    ∀ i, s.allocator.Free i → (∀ j < i, ¬ s.allocator.Free j) → Alone s i

def Clear (s : State ι) : Event ι → Prop
  | .find _ => FindClear s
  | _ => True

/-- Runs from any bitmap with a valid hint, in which every search starts clear. -/
def ClearRun (s : State ι) : Prop :=
  ∃ a : PhysicalPageFrameAllocator, a.HintOk ∧ Execution Clear (initial a) s

def Finishing (_ : State ι) : Event ι → Prop
  | .find _ => False
  | _ => True

def Owned (s : State ι) (f : ℕ) : Prop := f ∈ s.held.map frame ∨ ∃ p, s.phase p = .marked f

/-- A frame of the bitmap that is clear, or set by a processor that will return it. -/
def Settled (s : State ι) (f : ℕ) : Prop :=
  f < s.allocator.bits ∧ (s.allocator.bitmap.get f = false ∨ Owned s f)

/-- The index that a processor has found or marked. -/
def Phase.claim : Phase → Option ℕ
  | .found i | .marked i => some i
  | _ => none

def PhaseOk (s : State ι) : Phase → Prop
  | .found i => s.allocator.Free i
  | .marked i => s.allocator.bitmap.get i = true ∧ i ∉ s.held.map frame
  | .freeing f => Settled s f
  | _ => True

def HintSettled (s : State ι) : Prop :=
  s.allocator.nextFree = uint64Max ∨ Settled s s.allocator.nextFree

/-- Returned pages are page addresses with a set bit, no two of them of one frame. -/
structure HeldOk (s : State ι) : Prop where
  set : ∀ page ∈ s.held, s.allocator.bitmap.get (frame page) = true
  aligned : ∀ page ∈ s.held, page = address (frame page)
  once : (s.held.map frame).Nodup

structure Invariant (s : State ι) : Prop where
  hint : HintSettled s
  phases : ∀ q, PhaseOk s (s.phase q)
  apart : ∀ q r i, (s.phase q).claim = some i → (s.phase r).claim = some i → q = r
  held : HeldOk s

variable {s t : State ι} {p : ι} {x y : Phase} {index f page : ℕ}

section

omit [DecidableEq ι]

theorem initial_invariant {a} (h : a.HintOk) :
    Invariant (initial a : State ι) := by
  refine ⟨?_, fun _ => trivial, ?_, ?_⟩
  · exact h.imp_right fun hf => ⟨hf.1, .inl hf.2⟩
  · intro q r i hq
    cases hq
  · constructor <;> simp [initial]

section

variable (hI : Invariant s)

include hI

theorem Invariant.free_of_found (hp : s.phase p = .found index) : s.allocator.Free index := by
  have := hI.phases p
  rwa [hp] at this

theorem Invariant.of_marked (hp : s.phase p = .marked index) :
    s.allocator.bitmap.get index ∧ index ∉ s.held.map frame := by
  have := hI.phases p
  rwa [hp] at this

theorem Invariant.settled_of_freeing (hp : s.phase p = .freeing f) : Settled s f := by
  have := hI.phases p
  rwa [hp] at this

theorem Invariant.others (hp : (s.phase p).claim = some index) {q}
    (hq : q ≠ p) : (s.phase q).claim ≠ some index := by
  intro hc
  exact hq (hI.apart q p index hc hp)

theorem FindClear.hintOk (hc : FindClear s) : s.allocator.HintOk := by
  by_cases hn : s.allocator.nextFree = uint64Max
  · exact .inl hn
  · exact .inr ⟨(hI.hint.resolve_left hn).1, (hc.hint hn).1⟩

end

theorem FindClear.alone (hc : FindClear s) (h : s.allocator.findFreePage.2 ≠ uint64Max) :
    Alone s s.allocator.findFreePage.2 := by
  rcases findFreePage_cases s.allocator with ⟨hn, ⟨he, -⟩ | ⟨i, he, hf, hfirst⟩⟩ | ⟨hn, he⟩
  · exact absurd (by rw [he]) h
  · rw [he]
    exact hc.first hn i hf hfirst
  · rw [he]
    exact (hc.hint hn).2

theorem frame_address (h : index < s.allocator.bits) : frame (address index) = index :=
  frame_of_index h

end

section

omit [DecidableEq ι]

theorem PhaseOk.mono (hfree : ∀ i, x = .found i → s.allocator.Free i → t.allocator.Free i)
    (hmarked : ∀ i, x = .marked i → PhaseOk s (.marked i) → PhaseOk t (.marked i))
    (hsettled : ∀ f, Settled s f → Settled t f) (h : PhaseOk s x) : PhaseOk t x := by
  cases x with
  | found i => exact hfree i rfl h
  | marked i => exact hmarked i rfl h
  | freeing f => exact hsettled f h
  | idle => trivial
  | panicked => trivial

structure Quiet (s t : State ι) : Prop where
  bitmap : t.allocator.bitmap = s.allocator.bitmap
  held : t.held = s.held

theorem Quiet.heldOk (h : Quiet s t) (hs : HeldOk s) : HeldOk t := by
  refine ⟨?_, ?_, ?_⟩
  · rw [h.held, h.bitmap]
    exact hs.set
  · rw [h.held]
    exact hs.aligned
  · rw [h.held]
    exact hs.once

end

section Move

variable (ht : t.phase = update s.phase p x)

include ht

theorem marked_of_move {q} (hp : s.phase p ≠ .marked f) (hq : s.phase q = .marked f) :
    t.phase q = .marked f := by
  have hne : q ≠ p := fun he => hp (he ▸ hq)
  rw [ht, update_of_ne hne]
  exact hq

theorem Quiet.settled (h : Quiet s t) (hp : ∀ f, s.phase p ≠ .marked f) (hf : Settled s f) :
    Settled t f := by
  refine ⟨lt_of_lt_of_eq hf.1 (congrArg Bitmap.bits h.bitmap).symm, ?_⟩
  rw [h.bitmap]
  apply hf.2.imp_right
  rintro (hm | ⟨q, hq⟩)
  · exact .inl (h.held ▸ hm)
  · exact .inr ⟨q, marked_of_move ht (hp f) hq⟩

theorem Quiet.phaseOk (h : Quiet s t) (hp : ∀ f, s.phase p ≠ .marked f) (hy : PhaseOk s y) :
    PhaseOk t y := by
  refine hy.mono (fun i _ => (free_congr h.bitmap).mpr) (fun i _ hi => ?_) fun f => h.settled ht hp
  show t.allocator.bitmap.get i = true ∧ i ∉ t.held.map frame
  rw [h.bitmap, h.held]
  exact hi

/-- A step moves one processor to a phase that fits, keeps the other phases fitting, and
takes no claim of another processor. -/
theorem Invariant.move (hI : Invariant s)
    (hx : PhaseOk t x) (hothers : ∀ q ≠ p, PhaseOk t (s.phase q))
    (hclaim : ∀ i, x.claim = some i → ∀ q ≠ p, (s.phase q).claim ≠ some i)
    (hhint : HintSettled t) (hheld : HeldOk t) : Invariant t := by
  have hself : t.phase p = x := by rw [ht, update_self]
  have hother : ∀ q ≠ p, t.phase q = s.phase q := by
    intro q hq
    rw [ht, update_of_ne hq]
  refine ⟨hhint, ?_, ?_, hheld⟩
  · intro q
    by_cases hq : q = p
    · rw [hq, hself]
      exact hx
    · rw [hother q hq]
      exact hothers q hq
  · intro q r i hcq hcr
    by_cases hq : q = p <;> by_cases hr : r = p
    · rw [hq, hr]
    · rw [hq, hself] at hcq
      rw [hother r hr] at hcr
      exact absurd hcr (hclaim i hcq r hr)
    · rw [hr, hself] at hcr
      rw [hother q hq] at hcq
      exact absurd hcq (hclaim i hcr q hq)
    · rw [hother q hq] at hcq
      rw [hother r hr] at hcr
      exact hI.apart q r i hcq hcr

end Move

theorem Phase.claim_ofIndex {i : ℕ} :
    (Phase.ofIndex index).claim = some i ↔ index ≠ uint64Max ∧ index = i := by
  unfold Phase.ofIndex
  split
  · next h => simp [Phase.claim, h]
  · next h => simp [Phase.claim, h]

theorem find_invariant (hI : Invariant s) (hp : s.phase p = .idle) (hc : FindClear s) :
    Invariant (next s (.find p)) := by
  obtain ⟨hb, hspec⟩ := findFreePage_spec (hc.hintOk hI)
  have hquiet : Quiet s (next s (.find p)) := ⟨hb, rfl⟩
  have hmarked : ∀ f, s.phase p ≠ .marked f := by simp [hp]
  have hfree : s.allocator.findFreePage.2 ≠ uint64Max →
      s.allocator.Free s.allocator.findFreePage.2 :=
    fun hmax => (hspec.resolve_left fun h => hmax h.1).1
  refine hI.move (x := Phase.ofIndex s.allocator.findFreePage.2) rfl ?_ ?_ ?_ ?_
    (hquiet.heldOk hI.held)
  · by_cases hmax : s.allocator.findFreePage.2 = uint64Max
    · simp [Phase.ofIndex, hmax, PhaseOk]
    · rw [Phase.ofIndex, if_neg hmax]
      exact (free_congr hb).mpr (hfree hmax)
  · exact fun q _ => hquiet.phaseOk rfl hmarked (hI.phases q)
  · intro i hi q _ hq
    obtain ⟨hmax, rfl⟩ := Phase.claim_ofIndex.mp hi
    cases hph : s.phase q with
    | found j =>
      rw [hph] at hq
      cases hq
      exact hc.alone hmax q hph
    | marked j =>
      rw [hph] at hq
      cases hq
      have hset := (hI.of_marked hph).1
      rw [(hfree hmax).2] at hset
      cases hset
    | _ => rw [hph] at hq; cases hq
  · show s.allocator.findFreePage.1.nextFree = uint64Max ∨
      Settled (next s (.find p)) s.allocator.findFreePage.1.nextFree
    rcases hspec with ⟨hmax, -⟩ | ⟨-, hn | ⟨hn, -⟩⟩
    · exact .inl (findFreePage_exhausted hmax)
    · exact .inl hn
    · exact .inr (hquiet.settled rfl hmarked ⟨hn.1, .inl hn.2⟩)

theorem lockBitmap_invariant (hI : Invariant s) (hp : s.phase p = .found index) :
    Invariant (next s (.lockBitmap p index)) := by
  have hfree := hI.free_of_found hp
  have hclaim : (s.phase p).claim = some index := by rw [hp]; rfl
  have hframe : frame (address index) = index := frame_address hfree.1
  have hnext : next s (.lockBitmap p index) =
      ⟨s.allocator.lockBitmap (address index), update s.phase p (.marked index),
        s.held⟩ := by
    simp [next, hframe, hfree.2]
  have hm := lockBitmap_marks s.allocator (address index)
  rw [hframe] at hm
  rw [hnext]
  have hset : ∀ f, s.allocator.bitmap.get f →
      (s.allocator.lockBitmap (address index)).bitmap.get f = true :=
    fun f hf => (hm.get f).mpr (.inl hf)
  have hself : (s.allocator.lockBitmap (address index)).bitmap.get index :=
    (hm.get index).mpr (.inr ⟨hfree.1, mem_singleton_self _⟩)
  have hout : index ∉ s.held.map frame := by
    intro hmem
    obtain ⟨page, hpage, rfl⟩ := mem_map.mp hmem
    have := hI.held.set page hpage
    rw [hfree.2] at this
    cases this
  have hsettled : ∀ f, Settled s f → Settled ⟨s.allocator.lockBitmap (address index),
      update s.phase p (.marked index), s.held⟩ f := by
    rintro f ⟨hlt, hf⟩
    refine ⟨hm.bits ▸ hlt, ?_⟩
    by_cases he : f = index
    · subst he
      exact .inr (.inr ⟨p, update_self ..⟩)
    · rcases hf with hf | hf | ⟨q, hq⟩
      · exact .inl ((hm.free_iff.mpr ⟨⟨hlt, hf⟩, by simpa using he⟩).2)
      · exact .inr (.inl hf)
      · exact .inr (.inr ⟨q, marked_of_move rfl (by simp [hp]) hq⟩)
  refine hI.move rfl ⟨hself, hout⟩ ?_ ?_ ?_ ⟨?_, hI.held.aligned, hI.held.once⟩
  · intro q hq
    apply (hI.phases q).mono
    · intro i hi hfi
      refine hm.free_iff.mpr ⟨hfi, ?_⟩
      intro hmem
      apply hI.others hclaim hq
      rw [hi, mem_singleton.mp hmem]
      rfl
    · exact fun i _ hi => ⟨hset i hi.1, hi.2⟩
    · exact hsettled
  · intro i hi q hq
    cases hi
    exact hI.others hclaim hq
  · exact hI.hint.imp_right (hsettled _)
  · exact fun page hpage => hset _ (hI.held.set page hpage)

theorem lockCounters_invariant (hI : Invariant s) (hp : s.phase p = .marked index) :
    Invariant (next s (.lockCounters p index)) := by
  obtain ⟨hset, hout⟩ := hI.of_marked hp
  have hclaim : (s.phase p).claim = some index := by rw [hp]; rfl
  have hframe : frame (address index) = index := frame_address (Bitmap.lt_bits_of_get hset)
  have halign : address index = address (frame (address index)) := by rw [hframe]
  have hb : (next s (.lockCounters p index)).allocator.bitmap = s.allocator.bitmap :=
    (lockCounters_keeps s.allocator).1
  have hn : (next s (.lockCounters p index)).allocator.nextFree = s.allocator.nextFree :=
    (lockCounters_keeps s.allocator).2
  have hheld : (next s (.lockCounters p index)).held = address index :: s.held := rfl
  have ht : (next s (.lockCounters p index)).phase = update s.phase p .idle := rfl
  generalize next s (.lockCounters p index) = t at *
  have hmem : ∀ f, f ∈ t.held.map frame ↔ f = index ∨ f ∈ s.held.map frame := by
    intro f
    rw [hheld, map_cons, mem_cons, hframe]
  have hfree : ∀ f, s.allocator.Free f → t.allocator.Free f := fun f => (free_congr hb).mpr
  have hsettled : ∀ f, Settled s f → Settled t f := by
    rintro f ⟨hlt, hf⟩
    refine ⟨lt_of_lt_of_eq hlt (congrArg Bitmap.bits hb).symm, ?_⟩
    rw [hb]
    by_cases he : f = index
    · exact .inr (.inl ((hmem f).mpr (.inl he)))
    rcases hf with hf | hf | ⟨q, hq⟩
    · exact .inl hf
    · exact .inr (.inl ((hmem f).mpr (.inr hf)))
    · refine .inr (.inr ⟨q, marked_of_move ht ?_ hq⟩)
      simpa [hp] using Ne.symm he
  refine hI.move ht trivial ?_ ?_ ?_ ⟨?_, ?_, ?_⟩
  · intro q hq
    apply (hI.phases q).mono
    · exact fun i _ => hfree i
    · intro i hi hmark
      refine ⟨hb ▸ hmark.1, fun hm => ?_⟩
      rcases (hmem i).mp hm with he | hm
      · apply hI.others hclaim hq
        rw [hi, he]
        rfl
      · exact hmark.2 hm
    · exact hsettled
  · intro i hi
    cases hi
  · unfold HintSettled
    rw [hn]
    exact hI.hint.imp_right (hsettled _)
  · rw [hheld, hb]
    intro other hother
    rcases mem_cons.mp hother with rfl | hother
    · rw [hframe]
      exact hset
    · exact hI.held.set other hother
  · rw [hheld]
    intro other hother
    rcases mem_cons.mp hother with rfl | hother
    · exact halign
    · exact hI.held.aligned other hother
  · rw [hheld, map_cons, hframe]
    exact nodup_cons.mpr ⟨hout, hI.held.once⟩

omit [DecidableEq ι] in
theorem HeldOk.rest (h : HeldOk s) (hpage : page ∈ s.held) :
    ∀ other, other ∈ s.held.erase page ↔ other ∈ s.held ∧ frame other ≠ frame page := by
  intro other
  have hnd : s.held.Nodup := h.once.of_map frame
  rw [hnd.mem_erase_iff]
  constructor
  · rintro ⟨hne, hmem⟩
    exact ⟨hmem, fun he => hne (inj_on_of_nodup_map h.once hmem hpage he)⟩
  · rintro ⟨hmem, hne⟩
    exact ⟨fun he => hne (congrArg frame he), hmem⟩

theorem freeBitmap_invariant (hI : Invariant s) (hp : s.phase p = .idle) (hpage : page ∈ s.held) :
    Invariant (next s (.freeBitmap p page)) := by
  have hset := hI.held.set page hpage
  have hnext : next s (.freeBitmap p page) =
      ⟨s.allocator.freeBitmap page, update s.phase p (.freeing (frame page)),
        s.held.erase page⟩ := by
    simp [next, hset]
  have hc := freeBitmap_clears hset
  have hrest := hI.held.rest hpage
  rw [hnext]
  have hkeep : ∀ f, s.allocator.bitmap.get f → f ≠ frame page →
      (s.allocator.freeBitmap page).bitmap.get f = true :=
    fun f hf hne => (hc.get f).mpr ⟨hf, by simpa using hne⟩
  have hfree : ∀ f, s.allocator.Free f → (s.allocator.freeBitmap page).Free f :=
    fun f hf => hc.free_iff.mpr ⟨hf.1, .inl hf⟩
  have hself : (s.allocator.freeBitmap page).Free (frame page) :=
    hc.free_iff.mpr ⟨Bitmap.lt_bits_of_get hset, .inr (mem_singleton_self _)⟩
  have hmem : ∀ f ∈ s.held.map frame, f ≠ frame page → f ∈ (s.held.erase page).map frame := by
    intro f hf hne
    obtain ⟨other, hother, rfl⟩ := mem_map.mp hf
    exact mem_map.mpr ⟨other, (hrest other).mpr ⟨hother, hne⟩, rfl⟩
  have hsettled : ∀ f, Settled s f → Settled ⟨s.allocator.freeBitmap page,
      update s.phase p (.freeing (frame page)), s.held.erase page⟩ f := by
    rintro f ⟨hlt, hf⟩
    refine ⟨hc.bits ▸ hlt, ?_⟩
    by_cases he : f = frame page
    · rw [he]
      exact .inl hself.2
    · rcases hf with hf | hf | ⟨q, hq⟩
      · exact .inl (hfree f ⟨hlt, hf⟩).2
      · exact .inr (.inl (hmem f hf he))
      · exact .inr (.inr ⟨q, marked_of_move rfl (by simp [hp]) hq⟩)
  refine hI.move rfl ⟨hself.1, .inl hself.2⟩ ?_ ?_ ?_ ⟨?_, ?_, ?_⟩
  · intro q _
    apply (hI.phases q).mono
    · exact fun i _ => hfree i
    · intro i _ hmark
      refine ⟨hkeep i hmark.1 ?_, fun hm => hmark.2 ?_⟩
      · intro he
        exact hmark.2 (mem_map.mpr ⟨page, hpage, he.symm⟩)
      · obtain ⟨other, hother, he⟩ := mem_map.mp hm
        exact mem_map.mpr ⟨other, ((hrest other).mp hother).1, he⟩
    · exact hsettled
  · intro i hi
    cases hi
  · exact hI.hint.imp_right (hsettled _)
  · intro other hother
    obtain ⟨hold, hne⟩ := (hrest other).mp hother
    exact hkeep _ (hI.held.set other hold) hne
  · intro other hother
    exact hI.held.aligned other ((hrest other).mp hother).1
  · exact hI.held.once.sublist (erase_sublist.map frame)

theorem freeCounters_invariant (hI : Invariant s) (hp : s.phase p = .freeing f) :
    Invariant (next s (.freeCounters p f)) := by
  have hquiet : Quiet s (next s (.freeCounters p f)) :=
    ⟨(freeCounters_hints s.allocator f).1, by simp only [next]⟩
  have hnext : (next s (.freeCounters p f)).allocator.nextFree = f :=
    (freeCounters_hints s.allocator f).2
  have hmarked : ∀ f, s.phase p ≠ .marked f := by simp [hp]
  refine hI.move rfl trivial ?_ ?_ ?_ (hquiet.heldOk hI.held)
  · exact fun q _ => hquiet.phaseOk rfl hmarked (hI.phases q)
  · intro i hi
    cases hi
  · unfold HintSettled
    rw [hnext]
    exact .inr (hquiet.settled rfl hmarked (hI.settled_of_freeing hp))

variable {e : Event ι} {C : State ι → Event ι → Prop}

theorem step_preserves_invariant (hI : Invariant s) (he : Enabled s e) (hc : Clear s e) :
    Invariant (next s e) := by
  cases e with
  | find p => exact find_invariant hI he hc
  | lockBitmap p index => exact lockBitmap_invariant hI he
  | lockCounters p index => exact lockCounters_invariant hI he
  | freeBitmap p page => exact freeBitmap_invariant hI he.1 he.2
  | freeCounters p f => exact freeCounters_invariant hI he

theorem execution_invariant (hC : ∀ s e, C s e → Clear s e) (h : Execution C s t)
    (hI : Invariant s) : Invariant t := by
  induction h with
  | refl => exact hI
  | tail _ he hc ih => exact step_preserves_invariant ih he (hC _ _ hc)

theorem clearRun_invariant (h : ClearRun s) : Invariant s := by
  obtain ⟨a, ha, hrun⟩ := h
  exact execution_invariant (fun _ _ hc => hc) hrun (initial_invariant ha)

omit [DecidableEq ι] in
theorem Invariant.held_nodup (hI : Invariant s) : s.held.Nodup := hI.held.once.of_map frame

theorem Execution.trans {u} (h : Execution C s t) (h' : Execution C t u) :
    Execution C s u := by
  induction h' with
  | refl => exact h
  | tail _ he hc ih => exact .tail ih he hc

theorem Execution.step (he : Enabled s e) (hc : C s e) :
    Execution C s (next s e) := .tail (.refl s) he hc

section Doubles

variable {q : ι}

theorem doubles_of_held (hp : s.phase p = .found index)
    (hset : s.allocator.bitmap.get index) (hheld : address index ∈ s.held) :
    ∃ t, Execution Finishing s t ∧ ¬ t.held.Nodup := by
  have hframe : frame (address index) = index := frame_address (Bitmap.lt_bits_of_get hset)
  refine ⟨_, .step (e := .lockBitmap p index) hp trivial, ?_⟩
  simp [next, hframe, hset, hheld]

theorem doubles_of_marked (hp : s.phase p = .found index) (hq : s.phase q = .marked index)
    (hset : s.allocator.bitmap.get index) : ∃ t, Execution Finishing s t ∧ ¬ t.held.Nodup := by
  have hne : p ≠ q := by
    rintro rfl
    rw [hp] at hq
    cases hq
  have hphase : (next s (.lockCounters q index)).phase p = .found index := by
    simpa [next, hne] using hp
  have hset' : (next s (.lockCounters q index)).allocator.bitmap.get index := by
    show s.allocator.lockCounters.bitmap.get index = true
    rw [(lockCounters_keeps s.allocator).1]
    exact hset
  obtain ⟨t, hrun, ht⟩ := doubles_of_held hphase hset' mem_cons_self
  exact ⟨t, (Execution.step (e := .lockCounters q index) hq trivial).trans hrun, ht⟩

theorem doubles_of_found (hne : p ≠ q) (hp : s.phase p = .found index)
    (hq : s.phase q = .found index) (hfree : s.allocator.Free index) :
    ∃ t, Execution Finishing s t ∧ ¬ t.held.Nodup := by
  have hframe : frame (address index) = index := frame_address hfree.1
  have hnext : next s (.lockBitmap q index) = ⟨s.allocator.lockBitmap (address index),
      update s.phase q (.marked index), s.held⟩ := by
    simp [next, hframe, hfree.2]
  have hm := lockBitmap_marks s.allocator (address index)
  rw [hframe] at hm
  have hphase : (next s (.lockBitmap q index)).phase p = .found index := by
    rw [hnext]
    simpa [hne] using hp
  have hmarked : (next s (.lockBitmap q index)).phase q = .marked index := by
    rw [hnext]
    exact update_self ..
  have hset : (next s (.lockBitmap q index)).allocator.bitmap.get index := by
    rw [hnext]
    exact (hm.get index).mpr (.inr ⟨hfree.1, mem_singleton_self _⟩)
  obtain ⟨t, hrun, ht⟩ := doubles_of_marked hphase hmarked hset
  exact ⟨t, (Execution.step (e := .lockBitmap q index) hq trivial).trans hrun, ht⟩

end Doubles

omit [DecidableEq ι] in
theorem findFreePage_disturbed (hI : Invariant s) (hc : ¬ FindClear s) :
    s.allocator.findFreePage.2 ≠ uint64Max ∧
      (s.allocator.bitmap.get s.allocator.findFreePage.2 ∧
          Owned s s.allocator.findFreePage.2 ∨
        ∃ q, s.phase q = .found s.allocator.findFreePage.2) := by
  rcases findFreePage_cases s.allocator with ⟨hn, hcase⟩ | ⟨hn, he⟩
  · have hfirst : ¬ ∀ i, s.allocator.Free i → (∀ j < i, ¬ s.allocator.Free j) → Alone s i :=
      fun h => hc ⟨fun h' => absurd hn h', fun _ => h⟩
    simp only [not_forall, Alone, not_not] at hfirst
    obtain ⟨i, hfree, hmin, q, hq⟩ := hfirst
    rcases hcase with ⟨-, hno⟩ | ⟨j, he, hf, hmin'⟩
    · exact absurd hfree (hno i)
    · obtain rfl := first_unique hfree hmin hf hmin'
      rw [he]
      exact ⟨ne_uint64Max hf.1, .inr ⟨q, hq⟩⟩
  · rw [he]
    refine ⟨hn, ?_⟩
    cases hg : s.allocator.bitmap.get _ with
    | true =>
      have hsettled := (hI.hint.resolve_left hn).2
      rw [hg] at hsettled
      exact .inl ⟨rfl, hsettled.resolve_left (by simp)⟩
    | false =>
      have halone : ¬ Alone s s.allocator.nextFree :=
        fun h => hc ⟨fun _ => ⟨hg, h⟩, fun h' => absurd h' hn⟩
      simp only [Alone, not_forall, not_not] at halone
      exact .inr halone

/-- After a search that did not start clear, the processors can finish so that a page is
held twice. -/
theorem doubles_of_disturbed (hI : Invariant s) (hp : s.phase p = .idle) (hc : ¬ FindClear s) :
    ∃ t, Execution Finishing (next s (.find p)) t ∧ ¬ t.held.Nodup := by
  obtain ⟨hmax, hcase⟩ := findFreePage_disturbed hI hc
  have hb : (next s (.find p)).allocator.bitmap = s.allocator.bitmap :=
    (findFreePage_keeps s.allocator).1
  have hphase : (next s (.find p)).phase p = .found s.allocator.findFreePage.2 := by
    simp [next, Phase.ofIndex, hmax]
  have hother : ∀ q x, s.phase q = x → x ≠ .idle → (next s (.find p)).phase q = x ∧ p ≠ q := by
    intro q x hq hx
    have hne : q ≠ p := by
      rintro rfl
      exact hx (hq.symm.trans hp)
    exact ⟨by simpa [next, hne] using hq, hne.symm⟩
  rcases hcase with ⟨hset, hmem | ⟨q, hq⟩⟩ | ⟨q, hq⟩
  · obtain ⟨page, hpage, he⟩ := mem_map.mp hmem
    apply doubles_of_held hphase (by rw [hb]; exact hset)
    rw [← he, ← hI.held.aligned page hpage]
    exact hpage
  · exact doubles_of_marked hphase (hother q _ hq (by simp)).1 (by rw [hb]; exact hset)
  · obtain ⟨hq', hne⟩ := hother q _ hq (by simp)
    exact doubles_of_found hne hphase hq' ((free_congr hb).mpr (hI.free_of_found hq))

/-- In a run whose searches all start clear, no page is held twice. A search in such a run
starts clear exactly if the processors cannot finish after it with a page held twice. -/
theorem pages_returned_once : (∀ s : State ι, ClearRun s → s.held.Nodup) ∧
    ∀ (s : State ι) (p : ι), ClearRun s → s.phase p = .idle →
      (FindClear s ↔ ∀ t, Execution Finishing (next s (.find p)) t → t.held.Nodup) := by
  refine ⟨fun s h => (clearRun_invariant h).held_nodup, ?_⟩
  intro s p h hp
  have hI := clearRun_invariant h
  constructor
  · intro hc t ht
    refine (execution_invariant ?_ ht (find_invariant hI hp hc)).held_nodup
    rintro s (_ | _) he
    · cases he
    all_goals trivial
  · intro hall
    by_contra hc
    obtain ⟨t, ht, hdouble⟩ := doubles_of_disturbed hI hp hc
    exact hdouble (hall t ht)

instance (s : State ι) (e : Event ι) : Decidable (Enabled s e) :=
  match e with
  | .find p => inferInstanceAs (Decidable (s.phase p = .idle))
  | .lockBitmap p index => inferInstanceAs (Decidable (s.phase p = .found index))
  | .lockCounters p index => inferInstanceAs (Decidable (s.phase p = .marked index))
  | .freeBitmap p page => inferInstanceAs (Decidable (s.phase p = .idle ∧ page ∈ s.held))
  | .freeCounters p f => inferInstanceAs (Decidable (s.phase p = .freeing f))

/-- The events can happen one after the other. -/
def Legal (s : State ι) : List (Event ι) → Prop
  | [] => True
  | e :: es => Enabled s e ∧ Legal (next s e) es

instance decidableLegal (s : State ι) (es : List (Event ι)) : Decidable (Legal s es) :=
  match es with
  | [] => inferInstanceAs (Decidable True)
  | e :: es => @instDecidableAnd _ _ _ (decidableLegal (next s e) es)

theorem Legal.execution {es} (h : Legal s es) :
    Execution (fun _ _ => True) s (es.foldl next s) := by
  induction es generalizing s with
  | nil => exact .refl s
  | cons e es ih => exact (Execution.step h.1 trivial).trans (ih h.2)

theorem pages_returned_once_third_frame :
    ∃ t : State (Fin 2), ClearRun t ∧ t.held = [0x2000] ∧ t.held.Nodup ∧
      (FindClear t ↔ ∀ u, Execution Finishing (next t (.find 1)) u → u.held.Nodup) := by
  let a := FrameRuns.smallAllocator 1 (by decide) 0b11000000#8 0#8
  let s : State (Fin 2) := initial a
  have hclear : FindClear s := ⟨fun h => absurd rfl h, fun _ i _ _ q => by simp [s, initial]⟩
  have hrun : ClearRun (next (next (next s (.find 0)) (.lockBitmap 0 2)) (.lockCounters 0 2)) :=
    ⟨a, .inl rfl, .tail (.tail (.tail (.refl s) (by decide +kernel) hclear)
      (by decide +kernel) trivial) (by decide +kernel) trivial⟩
  exact ⟨_, hrun, by decide +kernel, pages_returned_once.1 _ hrun,
    pages_returned_once.2 _ 1 hrun (by decide +kernel)⟩

/-- The third of eight frames is the only free one. Two processors that both search before
either marks are given it; and one that frees it can make it the hint after another was
given it. -/
theorem processors_share_a_page :
    let a := FrameRuns.smallAllocator 1 (by decide) 0b11011111#8 0#8
    let s : State (Fin 2) := initial a
    let race : List (Event (Fin 2)) :=
      [.find 0, .find 1, .lockBitmap 0 2, .lockCounters 0 2, .lockBitmap 1 2]
    let lateHint : List (Event (Fin 2)) :=
      [.find 0, .lockBitmap 0 2, .lockCounters 0 2, .freeBitmap 0 0x2000, .find 1,
        .lockBitmap 1 2, .lockCounters 1 2, .freeCounters 0 2, .find 0, .lockBitmap 0 2]
    a.HintOk ∧ (Execution (fun _ _ => True) s (race.foldl next s) ∧
        (race.foldl next s).held = [0x2000, 0x2000]) ∧
      Execution (fun _ _ => True) s (lateHint.foldl next s) ∧
        (lateHint.foldl next s).held = [0x2000, 0x2000] := by
  intro a s race lateHint
  have hrace : Legal s race := by decide +kernel
  have hlate : Legal s lateHint := by decide +kernel
  exact ⟨.inl rfl, ⟨hrace.execution, by decide +kernel⟩, hlate.execution, by decide +kernel⟩

end FrameInterleaving
