import FrostyOS.ELFBounds
import FrostyOS.WordCopy

/-! # What a loaded program finds in its memory

The trace of the loader is played on the memory of the new address space. -/

open MachineWord

namespace ELF

open Trace ELF.Action ProgramHeader

variable {image : Image} {source : PageSource} {left : ℕ → UInt8}

structure UserMemory where
  bytes : ℕ → UInt8
  pages : List Pages

instance (p : Pages) (x : ℕ) : Decidable (p.Contains x) := inferInstanceAs (Decidable (_ ∧ _))

namespace UserMemory

def Mapped (m : UserMemory) (x : ℕ) : Prop := ∃ p ∈ m.pages, p.Contains x

instance (m : UserMemory) (x : ℕ) : Decidable (m.Mapped x) :=
  inferInstanceAs (Decidable (∃ p ∈ m.pages, p.Contains x))

def map (m : UserMemory) (p : Pages) : UserMemory := { m with pages := p :: m.pages }

def fastMemset (m : UserMemory) (dst count : ℕ) : Option UserMemory :=
  if ∀ i < 8 * count, m.Mapped (dst + i) then
    some { m with bytes := WordCopy.fillWords 8 (fun _ => 0) dst count m.bytes }
  else none

def fastMemcpy (m : UserMemory) (kernel : ℕ → UInt8) (dst src length : ℕ) : Option UserMemory :=
  if ∀ i < 8 * (length / 8), m.Mapped (dst + i) then
    some { m with bytes := WordCopy.copyWords 8 (fun _ => kernel) dst src (length / 8) m.bytes }
  else none

end UserMemory

/-- The effect of an action. Permissions of finished segments do not matter to the others. -/
def Action.perform (image : Image) (m : UserMemory) : Action → Option UserMemory
  | .read _ _ => some m
  | .allocate pages => some (m.map pages)
  | .fastMemset _ dst count => m.fastMemset dst count
  | .fastMemcpy _ dst src length => m.fastMemcpy image.memory dst src length
  | .remap _ _ => some m

section Memory

variable {m m' : UserMemory} {dst src count length x : ℕ} {p : Pages} {kernel : ℕ → UInt8}

theorem mapped_map : (m.map p).Mapped x ↔ m.Mapped x ∨ p.Contains x := by
  simp only [UserMemory.Mapped, UserMemory.map, List.mem_cons, exists_eq_or_imp]
  exact or_comm

theorem fastMemset_some (h : m.fastMemset dst count = some m') :
    (∀ i < 8 * count, m.Mapped (dst + i)) ∧ (∀ x, m'.Mapped x ↔ m.Mapped x) ∧
      ∀ x, m'.bytes x = if dst ≤ x ∧ x < dst + 8 * count then 0 else m.bytes x := by
  unfold UserMemory.fastMemset at h
  split at h
  · next hmapped =>
    cases h
    exact ⟨hmapped, fun _ => Iff.rfl, fun x => WordCopy.fillWords_apply 8 0 dst count m.bytes x⟩
  · cases h

theorem fastMemcpy_some (h : m.fastMemcpy kernel dst src length = some m') :
    (∀ i < 8 * (length / 8), m.Mapped (dst + i)) ∧ (∀ x, m'.Mapped x ↔ m.Mapped x) ∧
      ∀ x, m'.bytes x = if dst ≤ x ∧ x < dst + 8 * (length / 8) then kernel (src + (x - dst))
        else m.bytes x := by
  unfold UserMemory.fastMemcpy at h
  split at h
  · next hmapped =>
    cases h
    exact ⟨hmapped, fun _ => Iff.rfl, fun x => WordCopy.copyWords_apply 8 (fun _ => kernel) dst src
      (length / 8) (WordCopy.apart_const kernel dst src _) m.bytes x⟩
  · cases h

end Memory

namespace ProgramHeader

variable (h : ProgramHeader) (l : UInt8) (x : ℕ)

def InPages : Prop := h.pageStart l ≤ x ∧ x < h.pageStart l + h.pageCount l * pageSize

def InZeroed : Prop := h.pageStart l ≤ x ∧ x < h.pageStart l + h.memSize l / 8 * 8

def InCopied : Prop := h.start ≤ x ∧ x < h.start + h.copySize

/-- A segment with no word to zero is not in the null page. -/
def Nonnull : Prop := 0 < h.memSize l → h.memSize l < 8 → 0x1000 ≤ h.virtualAddress

end ProgramHeader

/-- A page source and a memory agree on what is mapped, and the null page is not. -/
structure Agrees (source : PageSource) (s : source.State) (m : UserMemory) : Prop where
  sound : source.Sound s
  mapped : ∀ x, m.Mapped x ↔ source.Taken s x
  low : ∀ x, m.Mapped x → 0x1000 ≤ x

structure Loads (image : Image) (h : ProgramHeader) (l : UInt8) (m m' : UserMemory) : Prop where
  mapped : ∀ x, m'.Mapped x ↔ m.Mapped x ∨ h.InPages l x
  fresh : ∀ x, h.InPages l x → ¬ m.Mapped x
  zeroedPages : ∀ x, h.InZeroed l x → h.InPages l x
  copiedMapped : ∀ x, h.InCopied x → m'.Mapped x
  copied : ∀ x, h.InCopied x → m'.bytes x = image.memory (image.source h + (x - h.start))
  zeroed : ∀ x, ¬ h.InCopied x → h.InZeroed l x → m'.bytes x = 0
  kept : ∀ x, ¬ h.InCopied x → ¬ h.InZeroed l x → m'.bytes x = m.bytes x

theorem after_get_bind {β : Type} {m : UserMemory} {p offset length : ℕ} {f : ℕ → Trace Action β} :
    after (perform image) (image.get p offset length >>= f) m =
      after (perform image) (f (image.field p offset length)) m := by
  rw [Image.get, after_act_bind, perform, Option.bind_some]

theorem copySize_words (h : ProgramHeader) : 8 * (h.copySize / 8) = h.copySize := by
  unfold copySize alignUp divRoundup u64
  omega

section Segment

variable {i : ℕ} {s s' : source.State} {m m' : UserMemory}

theorem pageStart_ne_zero {h : ProgramHeader} {l before after} {data : ℕ} {m₂}
    (hnonnull : h.Nonnull l) (hlow : ∀ x, m.Mapped x → 0x1000 ≤ x)
    (hg : Grant before after (h.pageCount l) (h.pageStart l) data)
    (hset : (m.map ⟨data, h.pageCount l⟩).fastMemset (h.pageStart l) (h.memSize l >>> 3) =
      some m₂) : h.pageStart l ≠ 0 := by
  intro hnull
  have hpos := memSize_pos hg.pos
  have hwords : 8 ≤ h.memSize l := by
    by_contra hsmall
    have haddr := hnonnull hpos (by omega)
    have hstart := start_lt_of_null hnull hpos (by omega)
    unfold start alignDown at hstart
    omega
  have hzero := (fastMemset_some hset).1 0 (by omega)
  rw [hnull, mapped_map] at hzero
  rcases hzero with hzero | hzero
  · exact absurd (hlow _ hzero) (by decide)
  · have := hzero.1
    have := hg.low
    dsimp only at *
    omega

/-- A loadable segment with a word to zero, or not in the null page, goes to the pages it
asks for. -/
theorem loadSegment_loads (hnonnull : (image.programHeader i).Nonnull (left i))
    (ha : Agrees source s m)
    (hrun : after (perform image) (loadSegment image source left i s) m = some (s', m')) :
    Agrees source s' m' ∧ Loads image (image.programHeader i) (left i) m m' := by
  rw [loadSegment] at hrun
  dsimp only at hrun
  rw [after_get_bind, after_get_bind, after_get_bind, after_get_bind, after_get_bind] at hrun
  split at hrun
  · cases hrun
  next s₁ data hgrant =>
  rw [after_emit_bind, perform, Option.bind_some, after_emit_bind, perform] at hrun
  obtain ⟨m₂, hset, hrun⟩ := Option.bind_eq_some_iff.mp hrun
  rw [after_get_bind, after_emit_bind, perform] at hrun
  obtain ⟨m₃, hcpy, hrun⟩ := Option.bind_eq_some_iff.mp hrun
  obtain ⟨rfl, rfl⟩ := Prod.mk.inj (Option.some.inj hrun)
  obtain ⟨hsound, hg⟩ := source.grants ha.sound pageCount_lt (pageStart_lt i (left i)) hgrant
  have hne := pageStart_ne_zero hnonnull ha.low hg hset
  generalize image.programHeader i = h at *
  generalize left i = l at *
  obtain rfl : data = h.pageStart l := hg.requested hne
  obtain ⟨-, hmapped₂, hbytes₂⟩ := fastMemset_some hset
  obtain ⟨hcopied, hmapped₃, hbytes₃⟩ := fastMemcpy_some hcpy
  have hmem := memSize_le hg.pos
  have hmapped : ∀ x, m₃.Mapped x ↔ m.Mapped x ∨ h.InPages l x := fun x =>
    ((hmapped₃ x).trans (hmapped₂ x)).trans mapped_map
  rw [copySize_words] at hcopied
  simp only [copySize_words] at hbytes₃
  have hshift : h.memSize l >>> 3 = h.memSize l / 8 := Nat.shiftRight_eq_div_pow _ 3
  simp only [hshift, mul_comm 8] at hbytes₂
  refine ⟨⟨hsound, fun x => ?_, fun x hx => ?_⟩, ⟨hmapped, ?_, ?_, ?_, ?_, ?_, ?_⟩⟩
  · exact (hmapped x).trans ((or_congr_left (ha.mapped x)).trans (hg.taken x).symm)
  · rcases (hmapped x).mp hx with hx | hx
    · exact ha.low x hx
    · exact Nat.le_trans hg.low hx.1
  · intro x hx hm
    exact hg.free x hx.1 hx.2 ((ha.mapped x).mp hm)
  · intro x hx
    refine ⟨hx.1, hx.2.trans_le ?_⟩
    omega
  · intro x hx
    have hoffset := hcopied (x - h.start) (by have := hx.1; have := hx.2; omega)
    rw [Nat.add_sub_cancel' hx.1] at hoffset
    exact (hmapped₃ x).mpr hoffset
  · intro x hx
    exact (hbytes₃ x).trans (if_pos hx)
  · intro x hx hzero
    exact ((hbytes₃ x).trans (if_neg hx)).trans ((hbytes₂ x).trans (if_pos hzero))
  · intro x hx hzero
    exact ((hbytes₃ x).trans (if_neg hx)).trans ((hbytes₂ x).trans (if_neg hzero))

end Segment

def Image.IsLoad (image : Image) (i : ℕ) : Prop := image.segmentType i = 1

structure LoadsAll (image : Image) (left : ℕ → UInt8) (is : List ℕ) (m m' : UserMemory) :
    Prop where
  mapped : ∀ x, m'.Mapped x ↔ m.Mapped x ∨ ∃ j ∈ is, (image.programHeader j).InPages (left j) x
  fresh : ∀ j ∈ is, ∀ x, (image.programHeader j).InPages (left j) x → ¬ m.Mapped x
  zeroedPages : ∀ j ∈ is, ∀ x, (image.programHeader j).InZeroed (left j) x →
    (image.programHeader j).InPages (left j) x
  copied : ∀ j ∈ is, ∀ x, (image.programHeader j).InCopied x →
    (∀ k ∈ is, k ≠ j → ¬ (image.programHeader k).InCopied x) → m'.bytes x =
      image.memory (image.source (image.programHeader j) + (x - (image.programHeader j).start))
  zeroed : ∀ x, (∀ j ∈ is, ¬ (image.programHeader j).InCopied x) →
    (∃ j ∈ is, (image.programHeader j).InZeroed (left j) x) → m'.bytes x = 0
  kept : ∀ x, (∀ j ∈ is, ¬ (image.programHeader j).InCopied x) →
    (∀ j ∈ is, ¬ (image.programHeader j).InZeroed (left j) x) → m'.bytes x = m.bytes x

def Image.loads (image : Image) (is : List ℕ) : List ℕ := is.filter (image.segmentType · = 1)

section Sweep

variable {i : ℕ} {is : List ℕ} {s s' : source.State} {m m₁ m' : UserMemory}

theorem LoadsAll.nil : LoadsAll image left [] m m where
  mapped x := by simp
  fresh j hj := absurd hj List.not_mem_nil
  zeroedPages j hj := absurd hj List.not_mem_nil
  copied j hj := absurd hj List.not_mem_nil
  zeroed x _ h := by simp at h
  kept x _ _ := rfl

/-- One more segment in front. What it copied is mapped before the others are loaded, so
none of their pages can hold it. -/
theorem LoadsAll.cons (hnew : i ∉ is) (hone : Loads image (image.programHeader i) (left i) m m₁)
    (hrest : LoadsAll image left is m₁ m') : LoadsAll image left (i :: is) m m' := by
  have cons : ∀ {j}, j ∈ is → j ∈ i :: is := fun hj => List.mem_cons_of_mem i hj
  have later : ∀ x, m₁.Mapped x → ∀ j ∈ is, ¬ (image.programHeader j).InZeroed (left j) x :=
    fun x hx j hj hz => hrest.fresh j hj x (hrest.zeroedPages j hj x hz) hx
  refine ⟨fun x => ?_, ?_, ?_, ?_, ?_, ?_⟩
  · rw [hrest.mapped, hone.mapped, or_assoc]
    refine or_congr_right ⟨?_, ?_⟩
    · rintro (hx | ⟨j, hj, hx⟩)
      · exact ⟨i, List.mem_cons_self, hx⟩
      · exact ⟨j, cons hj, hx⟩
    · rintro ⟨j, hj, hx⟩
      rcases List.mem_cons.mp hj with rfl | hj
      · exact .inl hx
      · exact .inr ⟨j, hj, hx⟩
  · intro j hj x hx hm
    rcases List.mem_cons.mp hj with rfl | hj
    · exact hone.fresh x hx hm
    · exact hrest.fresh j hj x hx ((hone.mapped x).mpr (.inl hm))
  · intro j hj x hx
    rcases List.mem_cons.mp hj with rfl | hj
    · exact hone.zeroedPages x hx
    · exact hrest.zeroedPages j hj x hx
  · intro j hj x hx hothers
    rcases List.mem_cons.mp hj with rfl | hj
    · have hne : ∀ k ∈ is, ¬ (image.programHeader k).InCopied x :=
        fun k hk => hothers k (cons hk) fun he => hnew (he ▸ hk)
      rw [hrest.kept x hne (later x (hone.copiedMapped x hx)), hone.copied x hx]
    · exact hrest.copied j hj x hx fun k hk => hothers k (cons hk)
  · rintro x hcopied ⟨j, hj, hx⟩
    have htail : ∀ k ∈ is, ¬ (image.programHeader k).InCopied x := fun k hk => hcopied k (cons hk)
    by_cases hlater : ∃ k ∈ is, (image.programHeader k).InZeroed (left k) x
    · exact hrest.zeroed x htail hlater
    · rcases List.mem_cons.mp hj with rfl | hj
      · rw [hrest.kept x htail fun k hk hz => hlater ⟨k, hk, hz⟩]
        exact hone.zeroed x (hcopied j List.mem_cons_self) hx
      · exact absurd ⟨j, hj, hx⟩ hlater
  · intro x hcopied hzeroed
    rw [hrest.kept x (fun k hk => hcopied k (cons hk)) fun k hk => hzeroed k (cons hk)]
    exact hone.kept x (hcopied i List.mem_cons_self) (hzeroed i List.mem_cons_self)

theorem sweep_loads (hnodup : is.Nodup)
    (hnonnull : ∀ j ∈ image.loads is, (image.programHeader j).Nonnull (left j))
    (ha : Agrees source s m)
    (hrun : after (perform image) (sweep (loadHeader image source left) is s) m = some (s', m')) :
    LoadsAll image left (image.loads is) m m' := by
  induction is generalizing s m with
  | nil =>
    cases hrun
    exact .nil
  | cons i is ih =>
    obtain ⟨hnew, hnodup⟩ := List.nodup_cons.mp hnodup
    have htype : image.field (image.headerAt i) 0 4 = image.segmentType i := rfl
    rw [sweep, after_bind, loadHeader, after_get_bind, after_get_bind, htype] at hrun
    obtain ⟨⟨s₁, m₁⟩, hone, hrest⟩ := Option.bind_eq_some_iff.mp hrun
    split_ifs at hone with hskip hload
    · cases hone
      have hloads : image.loads (i :: is) = image.loads is := List.filter_cons_of_neg <| by
        rw [decide_eq_true_eq]
        omega
      rw [hloads] at hnonnull ⊢
      exact ih hnodup hnonnull ha hrest
    · have hloads : image.loads (i :: is) = i :: image.loads is :=
        List.filter_cons_of_pos (decide_eq_true hload)
      rw [hloads] at hnonnull ⊢
      obtain ⟨ha₁, hseg⟩ := loadSegment_loads (hnonnull i List.mem_cons_self) ha hone
      have ih := ih hnodup (fun j hj => hnonnull j (List.mem_cons_of_mem i hj)) ha₁ hrest
      exact .cons (fun hi => hnew (List.mem_of_mem_filter hi)) hseg ih
    · cases hone

end Sweep

def Action.IsRead : Action → Prop
  | .read _ _ => True
  | _ => False

theorem after_of_reads {α : Type} {t : Trace Action α} (h : Every IsRead t) (m : UserMemory) :
    after (perform image) t m = t.result.map fun v => (v, m) := by
  have hreads : ∀ actions : List Action, (∀ a ∈ actions, a.IsRead) →
      actions.foldlM (perform image) m = some m := by
    intro actions hall
    induction actions with
    | nil => rfl
    | cons a actions ih =>
      have hread := hall a List.mem_cons_self
      cases a with
      | read a n => exact ih fun b hb => hall b (List.mem_cons_of_mem _ hb)
      | _ => cases hread
  rw [after, hreads t.actions h, Option.bind_some]

theorem sameMagic_reads (cs : List ℕ) (i : ℕ) : Every IsRead (sameMagic image cs i) := by
  induction cs generalizing i with
  | nil => exact every_pure true
  | cons c cs ih =>
    rw [sameMagic, every_get_bind]
    refine ⟨trivial, ?_⟩
    split_ifs
    · exact ih (i + 1)
    · exact every_pure false

theorem checkHeader_reads : Every IsRead (checkHeader image) := by
  rw [checkHeader, every_bind]
  refine ⟨sameMagic_reads magic 0, fun same _ => ?_⟩
  simp only [every_ite_stop, every_get_bind, every_pure, implies_true, and_true]
  simp only [IsRead, true_and, implies_true]

theorem scan_reads : Every IsRead (loop (moreHeaders image) (scanHeader image) (2 ^ 16) 0 ()) := by
  have hcount := entryCount_lt image
  have htest : ∀ i, Every IsRead (moreHeaders image i) := fun i =>
    every_get_bind.mpr ⟨trivial, every_pure _⟩
  rw [every_loop (n := image.programHeaderEntryCount) (fun _ => rfl) htest (by omega),
    every_sweep_range]
  intro j _ _
  rw [scanHeader, every_get_bind, every_get_bind]
  refine ⟨trivial, trivial, ?_⟩
  split_ifs
  · exact every_pure ()
  · simp only [every_get_bind, every_pure, and_true]
    exact ⟨trivial, trivial, trivial⟩
  · exact every_stop

theorem fresh_agrees (stale : ℕ → UInt8) : Agrees source source.fresh ⟨stale, []⟩ := by
  have hnone : ∀ x, ¬ UserMemory.Mapped ⟨stale, []⟩ x := by
    rintro x ⟨p, hp, -⟩
    cases hp
  exact ⟨source.sound_fresh, fun x => iff_of_false (hnone x) (source.fresh_free x),
    fun x hx => absurd hx (hnone x)⟩

theorem load_loads {stale : ℕ → UInt8} {final : UserMemory} {entry : ℕ}
    (hnonnull : ∀ i ∈ image.loads (List.range image.programHeaderEntryCount),
      (image.programHeader i).Nonnull (left i))
    (hrun : after (perform image) (load image source left) ⟨stale, []⟩ = some (entry, final)) :
    LoadsAll image left (image.loads (List.range image.programHeaderEntryCount))
      ⟨stale, []⟩ final := by
  have hcount := entryCount_lt image
  rw [load, after_bind, after_of_reads checkHeader_reads] at hrun
  obtain ⟨⟨_, m₀⟩, hcheck, hrun⟩ := Option.bind_eq_some_iff.mp hrun
  obtain ⟨_, -, hm₀⟩ := Option.map_eq_some_iff.mp hcheck
  obtain rfl := (Prod.mk.inj hm₀).2
  rw [after_get_bind, after_bind, after_of_reads scan_reads] at hrun
  obtain ⟨⟨_, m₁⟩, hscan, hrun⟩ := Option.bind_eq_some_iff.mp hrun
  obtain ⟨_, -, hm₁⟩ := Option.map_eq_some_iff.mp hscan
  obtain rfl := (Prod.mk.inj hm₁).2
  rw [after_bind] at hrun
  obtain ⟨⟨s', m₂⟩, hload, hrun⟩ := Option.bind_eq_some_iff.mp hrun
  have hentry : Every IsRead (image.get image.addr 24 8) := every_get.mpr trivial
  rw [after_of_reads hentry] at hrun
  obtain ⟨_, -, hm₂⟩ := Option.map_eq_some_iff.mp hrun
  obtain rfl := (Prod.mk.inj hm₂).2
  have htest : ∀ i m, after (perform image) (moreHeaders image i) m =
      some (decide (i < image.programHeaderEntryCount), m) := fun i m => by
    rw [moreHeaders, after_get_bind]
    rfl
  rw [after_loop htest (by omega), Nat.sub_zero, ← List.range_eq_range'] at hload
  exact sweep_loads List.nodup_range hnonnull (fresh_agrees stale) hload

def ProgramHeader.Spans (h : ProgramHeader) (x : ℕ) : Prop :=
  h.virtualAddress ≤ x ∧ x < h.virtualAddress + h.sizeInMemory

namespace Image

variable (image : Image)

def Loadable (i : ℕ) : Prop := i < image.programHeaderEntryCount ∧ image.IsLoad i

/-- A valid executable for the region of a program, as far as its loadable segments go. An
empty segment is not in the null page, and no two segments have bytes in one page. -/
structure Valid : Prop where
  sizes : ∀ i, image.Loadable i →
    (image.programHeader i).sizeInFile ≤ (image.programHeader i).sizeInMemory
  inFile : ∀ i, image.Loadable i →
    (image.programHeader i).offsetWithinFile + (image.programHeader i).sizeInFile ≤ image.fileSize
  alignment : ∀ i, image.Loadable i → ∃ e < 64, (image.programHeader i).requiredAlignment = 2 ^ e
  user : ∀ i, image.Loadable i →
    (image.programHeader i).virtualAddress + (image.programHeader i).sizeInMemory ≤ userEnd
  nonnull : ∀ i, image.Loadable i → (image.programHeader i).sizeInMemory = 0 →
    0x1000 ≤ (image.programHeader i).virtualAddress
  apart : ∀ i j, image.Loadable i → image.Loadable j → i ≠ j → ∀ x y,
    (image.programHeader i).Spans x → (image.programHeader j).Spans y → x / pageSize ≠ y / pageSize

def segmentByte (i k : ℕ) : UInt8 :=
  if k < (image.programHeader i).sizeInFile then
    image.memory (image.addr + (image.programHeader i).offsetWithinFile + k)
  else 0

variable (left : ℕ → UInt8) (stale : ℕ → UInt8)

/-- The byte is what an address holds that nothing is copied to: zero in a zeroed word of
some segment, and otherwise what the frame held before. -/
def Background (x : ℕ) (b : UInt8) : Prop :=
  ((∃ j, image.Loadable j ∧ (image.programHeader j).InZeroed (left j) x) → b = 0) ∧
    ((∀ j, image.Loadable j → ¬ (image.programHeader j).InZeroed (left j) x) → b = stale x)

/-- Where the roundings of the loader do no harm to a segment. The pages that are counted
from the memory size reach its end although they start before it; the words that are copied
start before the segment in memory and before its bytes in the file, by the same distance or
where the bytes do not differ; and what the copy leaves out or adds is as it should be. -/
structure Undamaged (i : ℕ) : Prop where
  room : ∀ k < (image.programHeader i).sizeInMemory, ∃ j, image.Loadable j ∧
    (image.programHeader j).InPages (left j) ((image.programHeader i).virtualAddress + k)
  copied : ∀ k < (image.programHeader i).sizeInMemory,
    (image.programHeader i).virtualAddress % 8 + k < (image.programHeader i).copySize →
    image.memory (image.source (image.programHeader i) +
      ((image.programHeader i).virtualAddress % 8 + k)) = image.segmentByte i k
  missed : ∀ k < (image.programHeader i).sizeInMemory,
    (image.programHeader i).copySize ≤ (image.programHeader i).virtualAddress % 8 + k →
    image.Background left stale ((image.programHeader i).virtualAddress + k)
      (image.segmentByte i k)

end Image

section Complete

variable {stale : ℕ → UInt8} {i : ℕ}

variable {e x : ℕ} {final : UserMemory} {h : ProgramHeader} (k virtualAddress : ℕ)

theorem log2_of_pow {l} (he : h.requiredAlignment = 2 ^ e) : h.alignment l = e := by
  have hpos := Nat.two_pow_pos e
  rw [alignment, log2, he, if_neg (ne_of_gt hpos), Nat.log2_two_pow]

theorem memSize_ge {l} (helt : e < 64) (he : h.requiredAlignment = 2 ^ e)
    (huser : h.sizeInMemory ≤ userEnd) (hsize : 0 < h.sizeInMemory) (hpos : 0 < h.memSize l) :
    8 ≤ h.memSize l := by
  have hshift : h.alignment l % 64 = e := by rw [log2_of_pow he, Nat.mod_eq_of_lt helt]
  by_cases h3 : 3 ≤ e
  · have hle : 2 ^ (h.alignment l % 64) ≤ h.memSize l := le_of_shiftClear_pos hpos
    rw [hshift] at hle
    have hpow : 2 ^ 3 ≤ 2 ^ e := Nat.pow_le_pow_right (by decide) h3
    omega
  -- the bias of seven that is added for a small alignment makes up a word
  have hsmall : e = 0 ∨ e = 1 ∨ e = 2 := by omega
  have hword : alignUp h.requiredAlignment 8 = 8 := by
    rw [he]
    rcases hsmall with rfl | rfl | rfl <;> decide
  have hsum : u64 (h.sizeInMemory + subWord (alignUp h.requiredAlignment 8) 1) =
      h.sizeInMemory + 7 := by
    rw [hword]
    unfold userEnd at huser
    unfold subWord u64
    omega
  unfold memSize
  rw [hsum, shiftClear_eq, hshift]
  rcases hsmall with rfl | rfl | rfl <;> omega

theorem copySize_eq (hfile : h.sizeInFile + 8 ≤ 2 ^ 64) :
    h.copySize = (h.sizeInFile + 7) / 8 * 8 := by
  unfold copySize alignUp divRoundup u64
  omega

theorem InCopied.page (hfile : h.sizeInFile + 8 ≤ 2 ^ 64) (hsizes : h.sizeInFile ≤ h.sizeInMemory)
    (hx : h.InCopied x) : ∃ y, h.Spans y ∧ y / pageSize = x / pageSize := by
  obtain ⟨hlow, hhigh⟩ := hx
  rw [copySize_eq hfile] at hhigh
  unfold start alignDown at hlow hhigh
  unfold Spans pageSize
  by_cases hbefore : x / 4096 * 4096 ≤ h.virtualAddress
  · exact ⟨h.virtualAddress, by omega, by omega⟩
  · exact ⟨x / 4096 * 4096, by omega, by omega⟩

theorem inCopied_iff :
    h.InCopied (h.virtualAddress + k) ↔ h.virtualAddress % 8 + k < h.copySize := by
  unfold InCopied start alignDown
  omega

theorem sub_start : h.virtualAddress + k - h.start = h.virtualAddress % 8 + k := by
  unfold start alignDown
  omega

theorem Image.Valid.file_lt (hv : image.Valid) (hi : image.Loadable i) :
    (image.programHeader i).sizeInFile + 8 ≤ 2 ^ 64 := by
  have := hv.inFile i hi
  have := image.fits
  omega

theorem Image.Valid.not_copied (hv : image.Valid) (hi : image.Loadable i) {k : ℕ}
    (hk : k < (image.programHeader i).sizeInMemory) {j : ℕ} (hj : image.Loadable j) (hne : j ≠ i) :
    ¬ (image.programHeader j).InCopied ((image.programHeader i).virtualAddress + k) := by
  intro hcopied
  obtain ⟨y, hy, hpage⟩ := InCopied.page (hv.file_lt hj) (hv.sizes j hj) hcopied
  exact hv.apart j i hj hi hne y _ hy ⟨Nat.le_add_right _ _, Nat.add_lt_add_left hk _⟩ hpage

theorem Image.Background.unique {b b'} (h : image.Background left stale x b)
    (h' : image.Background left stale x b') : b = b' := by
  by_cases hz : ∃ j, image.Loadable j ∧ (image.programHeader j).InZeroed (left j) x
  · rw [h.1 hz, h'.1 hz]
  · have hnone : ∀ j, image.Loadable j → ¬ (image.programHeader j).InZeroed (left j) x :=
      fun j hj hx => hz ⟨j, hj, hx⟩
    rw [h.2 hnone, h'.2 hnone]

theorem mem_loads :
    i ∈ image.loads (List.range image.programHeaderEntryCount) ↔ image.Loadable i := by
  rw [Image.loads, List.mem_filter, List.mem_range, decide_eq_true_eq]
  rfl

section Loaded

variable (ha : LoadsAll image left (image.loads (List.range image.programHeaderEntryCount))
  ⟨stale, []⟩ final)

include ha

theorem LoadsAll.background
    (hcopied : ∀ j, image.Loadable j → ¬ (image.programHeader j).InCopied x) :
    image.Background left stale x (final.bytes x) := by
  have hnone := fun j hj => hcopied j (mem_loads.mp hj)
  constructor
  · rintro ⟨j, hj, hx⟩
    exact ha.zeroed x hnone ⟨j, mem_loads.mpr hj, hx⟩
  · intro hzeroed
    exact ha.kept x hnone fun j hj => hzeroed j (mem_loads.mp hj)

theorem LoadsAll.byte (hv : image.Valid) (hi : image.Loadable i) {k : ℕ}
    (hk : k < (image.programHeader i).sizeInMemory) (b : UInt8) :
    final.bytes ((image.programHeader i).virtualAddress + k) = b ↔
      ((image.programHeader i).virtualAddress % 8 + k < (image.programHeader i).copySize →
        image.memory (image.source (image.programHeader i) +
          ((image.programHeader i).virtualAddress % 8 + k)) = b) ∧
      ((image.programHeader i).copySize ≤ (image.programHeader i).virtualAddress % 8 + k →
        image.Background left stale ((image.programHeader i).virtualAddress + k) b) := by
  by_cases hc : (image.programHeader i).virtualAddress % 8 + k < (image.programHeader i).copySize
  · have hvalue := ha.copied i (mem_loads.mpr hi) _ ((inCopied_iff k).mpr hc)
      fun j hj hne => hv.not_copied hi hk (mem_loads.mp hj) hne
    rw [sub_start] at hvalue
    rw [hvalue]
    exact ⟨fun hb => ⟨fun _ => hb, fun hle => absurd hc (by omega)⟩, fun hb => hb.1 hc⟩
  · have hnone : ∀ j, image.Loadable j →
        ¬ (image.programHeader j).InCopied ((image.programHeader i).virtualAddress + k) := by
      intro j hj
      by_cases hne : j = i
      · rw [hne, inCopied_iff]
        exact hc
      · exact hv.not_copied hi hk hj hne
    have hback := ha.background hnone
    constructor
    · rintro rfl
      exact ⟨fun hlt => absurd hlt hc, fun _ => hback⟩
    · intro hb
      exact hback.unique (hb.2 (by omega))

end Loaded

/-- An executable with a segment of sixteen bytes at `virtualAddress`, of which the file has
the first eight. -/
def sixteenBytes (virtualAddress : ℕ) : List UInt8 :=
  oneSegment virtualAddress 120 8 16 8 ++ [1, 2, 3, 4, 5, 6, 7, 8]

theorem length_sixteenBytes : (sixteenBytes virtualAddress).length = 128 := by
  rw [sixteenBytes, List.length_append, length_oneSegment]
  rfl

theorem sixteenBytes_short : (sixteenBytes virtualAddress).length < 2 ^ 16 := by
  have := length_sixteenBytes virtualAddress
  omega

def sixteenBytesImage (virtualAddress : ℕ) : Image :=
  .ofBytes (sixteenBytes virtualAddress) (sixteenBytes_short virtualAddress)

theorem sixteenBytes_valid {virtualAddress : ℕ} (h : virtualAddress + 16 ≤ userEnd)
    (hcount : (sixteenBytesImage virtualAddress).programHeaderEntryCount = 1)
    (hheader : (sixteenBytesImage virtualAddress).programHeader 0 =
      ⟨5, 120, virtualAddress, 8, 16, 8⟩) :
    (sixteenBytesImage virtualAddress).Valid := by
  have hfile : (sixteenBytesImage virtualAddress).fileSize = 128 := length_sixteenBytes _
  have hzero : ∀ {i}, (sixteenBytesImage virtualAddress).Loadable i → i = 0 := by
    rintro i ⟨hi, -⟩
    omega
  refine ⟨?_, ?_, ?_, ?_, ?_, ?_⟩
  · intro i hi
    rw [hzero hi, hheader]
    change 8 ≤ 16
    decide
  · intro i hi
    rw [hzero hi, hheader, hfile]
    change 120 + 8 ≤ 128
    decide
  · intro i hi
    rw [hzero hi, hheader]
    exact ⟨3, by decide, rfl⟩
  · intro i hi
    rw [hzero hi, hheader]
    exact h
  · intro i hi hsize
    rw [hzero hi, hheader] at hsize
    cases hsize
  · intro i j hi hj hne
    exact absurd ((hzero hi).trans (hzero hj).symm) hne

theorem crossing_header : (sixteenBytesImage 0x400FF8).programHeader 0 =
    ⟨5, 120, 0x400FF8, 8, 16, 8⟩ := by
  decide +kernel

def plainHeader : ProgramHeader := ⟨5, 120, 0x400000, 8, 16, 8⟩

theorem plain_header : (sixteenBytesImage 0x400000).programHeader 0 = plainHeader := by
  decide +kernel

theorem plain_undamaged (h : (sixteenBytesImage 0x400000).Loadable 0) :
    (sixteenBytesImage 0x400000).Undamaged (fun _ => 0) (fun _ => 0xCC) 0 := by
  have hsource : (sixteenBytesImage 0x400000).source plainHeader =
      (sixteenBytesImage 0x400000).addr + 120 := by
    decide +kernel
  have hpages : plainHeader.pageStart 0 = 0x400000 ∧ plainHeader.pageCount 0 = 1 ∧
      plainHeader.memSize 0 = 16 ∧ plainHeader.copySize = 8 := by
    decide +kernel
  obtain ⟨hstart, hcount, hmem, hcopy⟩ := hpages
  refine ⟨?_, ?_, ?_⟩
  · intro k hk
    refine ⟨0, h, ?_⟩
    rw [plain_header] at hk ⊢
    unfold InPages
    rw [hstart, hcount]
    unfold pageSize
    dsimp only [plainHeader] at hk ⊢
    omega
  · intro k _ hlt
    rw [plain_header, hcopy] at hlt
    have hword : plainHeader.virtualAddress % 8 + k = k := by
      dsimp only [plainHeader]
      omega
    rw [hword] at hlt
    rw [Image.segmentByte, plain_header, hsource, hword]
    exact (if_pos hlt).symm
  · intro k hk hle
    rw [plain_header, hcopy] at hle
    rw [plain_header] at hk
    dsimp only [plainHeader] at hk hle
    have hbyte : (sixteenBytesImage 0x400000).segmentByte 0 k = 0 := by
      rw [Image.segmentByte, plain_header]
      exact if_neg (show ¬ k < 8 by omega)
    rw [hbyte]
    refine ⟨fun _ => rfl, fun hnone => absurd ?_ (hnone 0 h)⟩
    rw [plain_header]
    unfold InZeroed
    rw [hstart, hmem]
    dsimp only [plainHeader]
    omega

end Complete

end ELF
