import FrostyOS.ELF

/-! # What the loader reads and writes

The loader never compares a position with the size of the file; whether it stays inside is
up to the numbers in the headers. -/

open MachineWord

namespace ELF

open Trace ELF.Action ProgramHeader List

variable {image : Image} {source : PageSource} {left : ℕ → UInt8}

def Image.InFile (image : Image) (a length : ℕ) : Prop :=
  ∀ i < length, image.addr ≤ a + i ∧ a + i < image.addr + image.fileSize

def Pages.Holds (p : Pages) (a length : ℕ) : Prop := ∀ i < length, p.Contains (a + i)

/-- The action reads bytes of the file and writes to the pages of its segment. -/
def Action.Inside (image : Image) : Action → Prop
  | .read a length => image.InFile a length
  | .allocate _ => True
  | .fastMemset pages dst count => pages.Holds dst (8 * count)
  | .fastMemcpy pages dst src length => image.InFile src length ∧ pages.Holds dst length
  | .remap _ _ => True

variable {P : Action → Prop} {a length offset p : ℕ} (cs : List ℕ) (virtualAddress i : ℕ)

theorem inFile_iff (h : 0 < length) : image.InFile a length ↔
    image.addr ≤ a ∧ a + length ≤ image.addr + image.fileSize := by
  constructor
  · intro hin
    have hfirst := hin 0 h
    have hlast := hin (length - 1) (by omega)
    omega
  · intro hin i hi
    omega

theorem pages_hold_iff {p : Pages} (h : 0 < length) : p.Holds a length ↔
    p.start ≤ a ∧ a + length ≤ p.start + p.count * pageSize := by
  unfold Pages.Holds Pages.Contains
  constructor
  · intro hin
    have hfirst := hin 0 h
    have hlast := hin (length - 1) (by omega)
    omega
  · intro hin i hi
    omega

namespace Image

variable (image : Image)

def bytesFrom (i n : ℕ) : List ℕ := (List.range' i n).map fun j => image.field image.addr j 1

def HasMagic : Prop := magic = image.bytesFrom 0 4

instance : Decidable image.HasMagic := inferInstanceAs (Decidable (_ = _))

/-- As far as the first bytes are the magic number, the next one is in the file. -/
def MagicInFile : Prop := ∀ i < 4, magic.take i = image.bytesFrom 0 i → i < image.fileSize

structure Accepted : Prop where
  magic : image.HasMagic
  fileType : image.fileType = 2
  bitArch : image.bitArch = 2
  endianess : image.endianess = 1
  instructionSet : image.instructionSet = 0x3e

def headerOffset (i : ℕ) : ℕ :=
  u64 (image.programHeaderTablePosition + i * image.programHeaderEntrySize)

def Known (i : ℕ) : Prop :=
  image.segmentType i = 0 ∨ image.segmentType i = 4 ∨ image.segmentType i = 1

/-- The entries of the program header table are in the file, up to the first that is of an
unknown type. Only loadable ones are read to their end. -/
def TableInFile : Prop := ∀ i < image.programHeaderEntryCount, (∀ j < i, image.Known j) →
  image.headerOffset i + 4 ≤ image.fileSize ∧
    (image.segmentType i = 1 → image.headerOffset i + 56 ≤ image.fileSize)

end Image

/-- The words of the segment are in the file, and they end before the pages that are counted
for it do. Nothing may go to the null page. -/
structure ProgramHeader.Fits (h : ProgramHeader) (image : Image) (left : UInt8) : Prop where
  null : h.pageStart left = 0 → h.memSize left < 8 ∧ h.copySize = 0
  source : h.copySize ≠ 0 → image.addr ≤ image.source h ∧
    image.source h + h.copySize ≤ image.addr + image.fileSize
  pages : h.copySize ≠ 0 → h.start + h.copySize ≤ h.pageStart left + h.pageCount left * pageSize

/-- The loadable segments fit, up to the first that gets no pages. -/
def SegmentsFit (image : Image) (source : PageSource) (left : ℕ → UInt8) :
    List ℕ → source.State → Prop
  | [], _ => True
  | i :: is, s =>
    if image.segmentType i = 1 then
      ∀ s' data, source.allocatePages s ((image.programHeader i).pageCount (left i))
          ((image.programHeader i).pageStart (left i)) = some (s', data) →
        (image.programHeader i).Fits image (left i) ∧ SegmentsFit image source left is s'
    else SegmentsFit image source left is s

/-- The headers agree with the size of the file and with one another. -/
structure Image.Consistent (image : Image) (source : PageSource) (left : ℕ → UInt8) : Prop where
  magic : image.MagicInFile
  fileType : image.HasMagic → 18 ≤ image.fileSize
  instructionSet : image.HasMagic → image.fileType = 2 → image.bitArch = 2 →
    image.endianess = 1 → 20 ≤ image.fileSize
  header : image.Accepted → 58 ≤ image.fileSize
  table : image.Accepted → image.TableInFile
  segments : image.Accepted → (∀ i < image.programHeaderEntryCount, image.Known i) →
    SegmentsFit image source left (List.range image.programHeaderEntryCount) source.fresh

theorem inFile_header (hl : 0 < length) (h : offset < 64) :
    image.InFile (u64 (image.addr + offset)) length ↔ offset + length ≤ image.fileSize := by
  have hfits := image.fits
  have hkernel := image.kernel
  rw [inFile_iff hl]
  unfold u64
  unfold userEnd at hkernel
  omega

theorem inside_header (offset length : ℕ) (hl : 0 < length) (h : offset < 64) :
    Inside image (.read (u64 (image.addr + offset)) length) ↔ offset + length ≤ image.fileSize :=
  inFile_header hl h

theorem headerAt_eq : image.headerAt i = u64 (image.addr + image.headerOffset i) := by
  unfold Image.headerAt Image.headerOffset u64
  omega

theorem inFile_type :
    image.InFile (u64 (image.headerAt i + 0)) 4 ↔ image.headerOffset i + 4 ≤ image.fileSize := by
  have hfits := image.fits
  have hkernel := image.kernel
  have hlt : image.headerOffset i < 2 ^ 64 := u64_lt _
  rw [inFile_iff (by decide), headerAt_eq]
  unfold u64
  unfold userEnd at hkernel
  omega

theorem inFile_field {i : ℕ} (hin : image.headerOffset i + 4 ≤ image.fileSize) (hl : 0 < length)
    (h : offset < 64) :
    image.InFile (u64 (image.headerAt i + offset)) length ↔
      image.headerOffset i + offset + length ≤ image.fileSize := by
  have hfits := image.fits
  have hkernel := image.kernel
  rw [inFile_iff hl, headerAt_eq]
  unfold u64
  unfold userEnd at hkernel
  omega

@[simp] theorem every_get_bind {β : Type} {f : ℕ → Trace Action β} :
    Every P (image.get p offset length >>= f) ↔
      P (.read (u64 (p + offset)) length) ∧ Every P (f (image.field p offset length)) :=
  every_act_bind

@[simp] theorem every_get :
    Every P (image.get p offset length) ↔ P (.read (u64 (p + offset)) length) := every_act

@[simp] theorem result_get_bind {β : Type} {f : ℕ → Trace Action β} :
    (image.get p offset length >>= f).result = (f (image.field p offset length)).result := rfl

theorem bytesFrom_succ (n : ℕ) :
    image.bytesFrom i (n + 1) = image.field image.addr i 1 :: image.bytesFrom (i + 1) n := by
  rw [Image.bytesFrom, List.range'_succ, map_cons, Image.bytesFrom]

theorem sameMagic_result : (sameMagic image cs i).result =
    some (decide (cs = image.bytesFrom i cs.length)) := by
  induction cs generalizing i with
  | nil => rfl
  | cons c cs ih =>
    rw [sameMagic, result_get_bind, length_cons, bytesFrom_succ]
    by_cases hc : c = image.field image.addr i 1
    · rw [if_pos hc, ih]
      simp only [hc, cons.injEq, true_and]
    · rw [if_neg hc]
      simp only [cons.injEq, hc, false_and, decide_false, result_pure]

theorem every_sameMagic (hi : i + cs.length ≤ 64) :
    Every (Inside image) (sameMagic image cs i) ↔
      ∀ j < cs.length, cs.take j = image.bytesFrom i j → i + j < image.fileSize := by
  induction cs generalizing i with
  | nil => exact ⟨fun _ j hj => absurd hj (Nat.not_lt_zero j), fun _ => every_pure true⟩
  | cons c cs ih =>
    rw [length_cons] at hi
    have hread : Inside image (.read (u64 (image.addr + i)) 1) ↔ i + 1 ≤ image.fileSize :=
      inFile_header (by decide) (by omega)
    rw [sameMagic, every_get_bind, hread, length_cons]
    constructor
    · rintro ⟨hfirst, hrest⟩ j hj heq
      cases j with
      | zero => exact hfirst
      | succ j =>
        rw [take_succ_cons, bytesFrom_succ, cons.injEq] at heq
        rw [if_pos heq.1, ih (i + 1) (by omega)] at hrest
        have := hrest j (by omega) heq.2
        omega
    · intro h
      refine ⟨h 0 (Nat.succ_pos _) rfl, ?_⟩
      split_ifs with hc
      · refine (ih (i + 1) (by omega)).mpr fun j hj heq => ?_
        have := h (j + 1) (by omega) (by rw [take_succ_cons, bytesFrom_succ, heq, hc])
        omega
      · exact every_pure false

theorem magic_result : (sameMagic image magic 0).result = some (decide image.HasMagic) :=
  sameMagic_result magic 0

theorem checkHeader_result : (checkHeader image).result = some () ↔ image.Accepted := by
  rw [checkHeader, result_bind, magic_result, Option.bind_some]
  simp only [result_ite_stop, result_get_bind, decide_eq_false_iff_not, not_not,
    result_pure, and_true]
  constructor
  · rintro ⟨h₁, h₂, h₃, h₄, h₅⟩
    exact ⟨h₁, h₂, h₃, h₄, h₅⟩
  · rintro ⟨h₁, h₂, h₃, h₄, h₅⟩
    exact ⟨h₁, h₂, h₃, h₄, h₅⟩

theorem every_checkHeader : Every (Inside image) (checkHeader image) ↔
    image.MagicInFile ∧ (image.HasMagic → 18 ≤ image.fileSize) ∧
      (image.HasMagic → image.fileType = 2 → image.bitArch = 2 → image.endianess = 1 →
        20 ≤ image.fileSize) := by
  have hmagic : Every (Inside image) (sameMagic image magic 0) ↔ _ :=
    every_sameMagic magic 0 (by decide)
  simp only [zero_add] at hmagic
  rw [checkHeader, every_bind, hmagic, magic_result]
  simp only [Option.some.injEq, forall_eq', every_ite_stop, decide_eq_false_iff_not, not_not,
    every_get_bind, every_pure, implies_true, and_true]
  rw [inside_header 16 2 (by decide) (by decide), inside_header 4 1 (by decide) (by decide),
    inside_header 5 1 (by decide) (by decide), inside_header 18 2 (by decide) (by decide)]
  refine and_congr_right fun _ => ?_
  constructor
  · intro h
    exact ⟨fun hm => (h hm).1, fun hm h₂ h₃ h₄ => (((h hm).2 h₂).2 h₃).2 h₄⟩
  · rintro ⟨h₁, h₂⟩ hm
    have h18 := h₁ hm
    exact ⟨h18, fun hf => ⟨by omega, fun hb => ⟨by omega, fun he => h₂ hm hf hb he⟩⟩⟩

theorem word_lt (a length : ℕ) : image.word a length < 256 ^ length := by
  have h := ByteMemory.ofBytes_lt ((List.range length).map fun i => image.memory (u64 (a + i)))
  rwa [length_map, length_range] at h

theorem entryCount_lt (image : Image) : image.programHeaderEntryCount < 2 ^ 16 := word_lt _ 2

theorem every_moreHeaders : Every (Inside image) (moreHeaders image i) ↔ 58 ≤ image.fileSize := by
  rw [moreHeaders, every_get_bind]
  exact (and_iff_left (every_pure _)).trans (inFile_header (by decide) (by decide))

theorem scanHeader_result : (scanHeader image i ()).result = some () ↔ image.Known i := by
  have htype : image.field (image.headerAt i) 0 4 = image.segmentType i := rfl
  simp only [scanHeader, result_get_bind, htype]
  unfold Image.Known
  split_ifs with h₁ h₂
  · exact iff_of_true rfl (by tauto)
  · exact iff_of_true rfl (by tauto)
  · exact iff_of_false nofun (by tauto)

theorem every_scanHeader (hsize : 58 ≤ image.fileSize) (i : ℕ) :
    Every (Inside image) (scanHeader image i ()) ↔ image.headerOffset i + 4 ≤ image.fileSize ∧
        (image.segmentType i = 1 → image.headerOffset i + 56 ≤ image.fileSize) := by
  have hentry : Inside image (.read (u64 (image.addr + 54)) 2) :=
    (inFile_header (by decide) (by decide)).mpr (by omega)
  have htype : Inside image (.read (u64 (image.headerAt i + 0)) 4) ↔
      image.headerOffset i + 4 ≤ image.fileSize := inFile_type i
  have hvalue : image.field (image.headerAt i) 0 4 = image.segmentType i := rfl
  rw [scanHeader, every_get_bind, and_iff_right hentry, every_get_bind, htype, hvalue]
  refine and_congr_right fun hin => ?_
  have hread : ∀ offset length, 0 < length → offset < 64 →
      (Inside image (.read (u64 (image.headerAt i + offset)) length) ↔
        image.headerOffset i + offset + length ≤ image.fileSize) :=
    fun _ _ hl h => inFile_field hin hl h
  split_ifs with h₁ h₂
  · exact iff_of_true (every_pure ()) (by omega)
  · simp only [every_get_bind, hread _ 8 (by decide) (by decide : (48 : ℕ) < 64),
      hread _ 8 (by decide) (by decide : (16 : ℕ) < 64),
      hread _ 8 (by decide) (by decide : (40 : ℕ) < 64), every_pure, and_true]
    omega
  · exact iff_of_true every_stop (by omega)

theorem every_scan (hsize : 58 ≤ image.fileSize) :
    Every (Inside image)
      (loop (moreHeaders image) (scanHeader image) (2 ^ 16) 0 ()) ↔ image.TableInFile := by
  have hcount := entryCount_lt image
  rw [every_loop (n := image.programHeaderEntryCount) (fun _ => rfl)
    (fun i => (every_moreHeaders i).mpr hsize) (by omega), Nat.sub_zero, every_sweep_range]
  simp only [zero_add, scanHeader_result, every_scanHeader hsize]
  exact Iff.rfl

theorem scan_result :
    (loop (moreHeaders image) (scanHeader image) (2 ^ 16) 0 ()).result = some () ↔
      ∀ i < image.programHeaderEntryCount, image.Known i := by
  have hcount := entryCount_lt image
  rw [result_loop (n := image.programHeaderEntryCount) (fun _ => rfl) (by omega),
    Nat.sub_zero, result_sweep_range]
  simp only [zero_add, scanHeader_result]

theorem shiftClear_eq (n shift : ℕ) :
    shiftClear n shift = n / 2 ^ (shift % 64) * 2 ^ (shift % 64) := by
  rw [shiftClear, Nat.shiftRight_eq_div_pow, Nat.shiftLeft_eq]

theorem shiftClear_le (n shift : ℕ) : shiftClear n shift ≤ n := by
  rw [shiftClear_eq]
  exact Nat.div_mul_le_self n _

namespace ProgramHeader

variable {h : ProgramHeader} {l : UInt8}

theorem memSize_lt : h.memSize l < 2 ^ 64 := Nat.lt_of_le_of_lt (shiftClear_le _ _) (u64_lt _)

theorem pageCount_lt : h.pageCount l < 2 ^ 52 := by
  have h64 := u64_lt (h.memSize l + (pageSize - 1))
  unfold pageCount divRoundup pageSize at *
  omega

theorem memSize_le (hpos : 0 < h.pageCount l) : h.memSize l ≤ h.pageCount l * pageSize := by
  have hlt := memSize_lt (h := h) (l := l)
  unfold pageCount divRoundup u64 pageSize at *
  omega

theorem memSize_pos (hpos : 0 < h.pageCount l) : 0 < h.memSize l := by
  unfold pageCount divRoundup u64 pageSize at hpos
  omega

theorem pageStart_le : h.pageStart l ≤ h.start := shiftClear_le _ _

theorem lt_of_shiftClear_zero {n shift : ℕ} (h0 : shiftClear n shift = 0) :
    n < 2 ^ (shift % 64) := by
  have hpos := Nat.two_pow_pos (shift % 64)
  rw [shiftClear_eq, Nat.mul_eq_zero] at h0
  exact (Nat.div_eq_zero_iff_lt hpos).mp (h0.resolve_right (ne_of_gt hpos))

theorem le_of_shiftClear_pos {n shift : ℕ} (h0 : 0 < shiftClear n shift) :
    2 ^ (shift % 64) ≤ shiftClear n shift := by
  rw [shiftClear_eq] at h0 ⊢
  exact Nat.le_mul_of_pos_left _ (Nat.pos_of_mul_pos_right h0)

theorem start_lt_of_null (hnull : h.pageStart l = 0) (hpos : 0 < h.memSize l)
    (hsmall : h.memSize l < 8) : h.start < 4096 := by
  have hshift : 2 ^ (h.alignment l % 64) < 8 :=
    Nat.lt_of_le_of_lt (le_of_shiftClear_pos hpos) hsmall
  have hstart := lt_of_shiftClear_zero hnull
  split_ifs at hstart with halign
  · exact hstart
  · omega

/-- Within the pages that were granted, only the copy can go astray. -/
theorem inside_iff_fits {before after : ℕ → Prop} {data : ℕ}
    (hg : Grant before after (h.pageCount l) (h.pageStart l) data) :
    (Pages.Holds ⟨data, h.pageCount l⟩ (h.pageStart l) (8 * (h.memSize l >>> 3)) ∧
      image.InFile (image.source h) h.copySize ∧
      Pages.Holds ⟨data, h.pageCount l⟩ h.start h.copySize) ↔ h.Fits image l := by
  have hmem := memSize_le hg.pos
  have hlow := hg.low
  have hshift : h.memSize l >>> 3 = h.memSize l / 8 := Nat.shiftRight_eq_div_pow _ 3
  have hle := pageStart_le (h := h) (l := l)
  rw [hshift]
  by_cases hnull : h.pageStart l = 0
  · -- the pages are elsewhere, so every byte written goes astray
    constructor
    · rintro ⟨hzero, -, hcopy⟩
      have hsmall : h.memSize l < 8 := by
        by_contra hbig
        have := ((pages_hold_iff (by omega)).mp hzero).1
        dsimp only at this
        omega
      have hnone : h.copySize = 0 := by
        by_contra hsome
        have hpos := memSize_pos hg.pos
        have := ((pages_hold_iff (Nat.pos_of_ne_zero hsome)).mp hcopy).1
        have := start_lt_of_null hnull hpos hsmall
        dsimp only at *
        omega
      exact ⟨fun _ => ⟨hsmall, hnone⟩, fun hne => absurd hnone hne, fun hne => absurd hnone hne⟩
    · intro hfits
      obtain ⟨hsmall, hnone⟩ := hfits.null hnull
      have hwords : 8 * (h.memSize l / 8) = 0 := by omega
      rw [hwords, hnone]
      exact ⟨fun i hi => absurd hi (Nat.not_lt_zero i), fun i hi => absurd hi (Nat.not_lt_zero i),
        fun i hi => absurd hi (Nat.not_lt_zero i)⟩
  · obtain rfl : data = h.pageStart l := hg.requested hnull
    have hzero : Pages.Holds ⟨h.pageStart l, h.pageCount l⟩ (h.pageStart l)
        (8 * (h.memSize l / 8)) := by
      intro i hi
      unfold Pages.Contains
      dsimp only
      omega
    rw [and_iff_right hzero]
    by_cases hnone : h.copySize = 0
    · rw [hnone]
      refine iff_of_true ⟨fun i hi => absurd hi (Nat.not_lt_zero i),
        fun i hi => absurd hi (Nat.not_lt_zero i)⟩ ?_
      exact ⟨fun h0 => absurd h0 hnull, fun hne => absurd hnone hne, fun hne => absurd hnone hne⟩
    rw [inFile_iff (Nat.pos_of_ne_zero hnone), pages_hold_iff (Nat.pos_of_ne_zero hnone)]
    constructor
    · rintro ⟨hsource, hcopy⟩
      exact ⟨fun h0 => absurd h0 hnull, fun _ => hsource, fun _ => hcopy.2⟩
    · intro hfits
      exact ⟨hfits.source hnone, hle, hfits.pages hnone⟩

end ProgramHeader

theorem pageStart_lt (l : UInt8) : (image.programHeader i).pageStart l < 2 ^ 64 := by
  have hword : (image.programHeader i).virtualAddress < 2 ^ 64 := word_lt _ 8
  have hle := pageStart_le (h := image.programHeader i) (l := l)
  unfold start alignDown at hle
  omega

section Segments

variable {s : source.State} {i : ℕ}

theorem every_loadSegment (hs : source.Sound s) (hin : image.headerOffset i + 56 ≤ image.fileSize) :
    Every (Inside image) (loadSegment image source left i s) ↔
      ∀ s' data, source.allocatePages s ((image.programHeader i).pageCount (left i))
          ((image.programHeader i).pageStart (left i)) = some (s', data) →
        (image.programHeader i).Fits image (left i) := by
  have hread : ∀ offset length, 0 < length → offset + length ≤ 56 →
      Inside image (.read (u64 (image.headerAt i + offset)) length) :=
    fun _ _ hl h => (inFile_field (by omega) hl (by omega)).mpr (by omega)
  simp only [loadSegment, every_get_bind, hread 4 4 (by decide) (by decide),
    hread 48 8 (by decide) (by decide), hread 16 8 (by decide) (by decide),
    hread 40 8 (by decide) (by decide), hread 32 8 (by decide) (by decide), true_and]
  cases hgrant : source.allocatePages s _ _ with
  | none => exact iff_of_true every_stop fun _ _ h => by cases h
  | some r =>
    obtain ⟨s₁, data⟩ := r
    have hg := (source.grants hs pageCount_lt (pageStart_lt i (left i)) hgrant).2
    simp only [every_emit_bind, every_get_bind, hread 8 8 (by decide) (by decide),
      true_and, every_pure, and_true]
    constructor
    · rintro ⟨-, hzero, hcopy, -⟩ _ _ _
      exact (inside_iff_fits hg).mp ⟨hzero, hcopy.1, hcopy.2⟩
    · intro h
      obtain ⟨hzero, hsource, hcopy⟩ := (inside_iff_fits hg).mpr (h s₁ data rfl)
      exact ⟨trivial, hzero, ⟨hsource, hcopy⟩, trivial⟩

theorem loadSegment_result : (loadSegment image source left i s).result =
    (source.allocatePages s ((image.programHeader i).pageCount (left i))
      ((image.programHeader i).pageStart (left i))).map Prod.fst := by
  simp only [loadSegment, result_get_bind]
  cases source.allocatePages s _ _ with
  | none => rfl
  | some r => rfl

theorem loadHeader_known (s : source.State) (hknown : image.Known i) :
    (loadHeader image source left i s).result =
      if image.segmentType i = 1 then (loadSegment image source left i s).result else some s := by
  have htype : image.field (image.headerAt i) 0 4 = image.segmentType i := rfl
  rw [loadHeader, result_get_bind, result_get_bind, htype]
  rcases hknown with h | h | h <;> simp [h]

theorem every_loadHeader (hs : source.Sound s) (hsize : 58 ≤ image.fileSize)
    (hin : image.headerOffset i + 4 ≤ image.fileSize ∧
      (image.segmentType i = 1 → image.headerOffset i + 56 ≤ image.fileSize)) :
    Every (Inside image) (loadHeader image source left i s) ↔ (image.segmentType i = 1 →
        ∀ s' data, source.allocatePages s ((image.programHeader i).pageCount (left i))
            ((image.programHeader i).pageStart (left i)) = some (s', data) →
          (image.programHeader i).Fits image (left i)) := by
  have hentry : Inside image (.read (u64 (image.addr + 54)) 2) :=
    (inFile_header (by decide) (by decide)).mpr (by omega)
  have htype : Inside image (.read (u64 (image.headerAt i + 0)) 4) := (inFile_type i).mpr hin.1
  have hvalue : image.field (image.headerAt i) 0 4 = image.segmentType i := rfl
  rw [loadHeader, every_get_bind, and_iff_right hentry, every_get_bind, and_iff_right htype, hvalue]
  split_ifs with h₁ h₂
  · exact iff_of_true (every_pure s) (by omega)
  · rw [every_loadSegment hs (hin.2 h₂)]
    exact ⟨fun h _ => h, fun h => h h₂⟩
  · exact iff_of_true every_stop fun h => absurd h h₂

theorem every_segments (hsize : 58 ≤ image.fileSize) (is : List ℕ)
    (hknown : ∀ i ∈ is, image.Known i)
    (hin : ∀ i ∈ is, image.headerOffset i + 4 ≤ image.fileSize ∧
      (image.segmentType i = 1 → image.headerOffset i + 56 ≤ image.fileSize))
    (hs : source.Sound s) :
    Every (Inside image) (sweep (loadHeader image source left) is s) ↔
      SegmentsFit image source left is s := by
  induction is generalizing s with
  | nil => exact iff_of_true (every_pure s) trivial
  | cons i is ih =>
    have ih := fun {t : source.State} (ht : source.Sound t) =>
      ih (fun j hj => hknown j (mem_cons_of_mem i hj))
        (fun j hj => hin j (mem_cons_of_mem i hj)) ht
    rw [sweep, every_bind, every_loadHeader hs hsize (hin i mem_cons_self),
      loadHeader_known s (hknown i mem_cons_self), SegmentsFit]
    split_ifs with htype
    · simp only [loadSegment_result, Option.map_eq_some_iff]
      constructor
      · rintro ⟨hfits, hrest⟩ s' data hgrant
        have hs' := (source.grants hs pageCount_lt (pageStart_lt i _) hgrant).1
        exact ⟨hfits htype s' data hgrant, (ih hs').mp (hrest s' ⟨(s', data), hgrant, rfl⟩)⟩
      · intro h
        refine ⟨fun _ s' data hgrant => (h s' data hgrant).1, ?_⟩
        rintro s' ⟨⟨t, data⟩, hgrant, rfl⟩
        have hs' := (source.grants hs pageCount_lt (pageStart_lt i _) hgrant).1
        exact (ih hs').mpr (h t data hgrant).2
    · simp only [Option.some.injEq, forall_eq', htype, false_implies, true_and]
      exact ih hs

end Segments

theorem every_load_segments (hsize : 58 ≤ image.fileSize) (htable : image.TableInFile)
    (hknown : ∀ i < image.programHeaderEntryCount, image.Known i) :
    Every (Inside image)
      (loop (moreHeaders image) (loadHeader image source left) (2 ^ 16) 0 source.fresh) ↔
      SegmentsFit image source left (List.range image.programHeaderEntryCount) source.fresh := by
  have hcount := entryCount_lt image
  rw [every_loop (n := image.programHeaderEntryCount) (fun _ => rfl)
    (fun i => (every_moreHeaders i).mpr hsize) (by omega), Nat.sub_zero, ← range_eq_range']
  have hlt : ∀ i ∈ List.range image.programHeaderEntryCount, i < image.programHeaderEntryCount :=
    fun i hi => mem_range.mp hi
  apply every_segments hsize _ (fun i hi => hknown i (hlt i hi)) _ source.sound_fresh
  intro i hi
  exact htable i (hlt i hi) fun j hj => hknown j (hj.trans (hlt i hi))

theorem every_loops : Every (Inside image)
      (do
        let _ ← image.get image.addr 32 8
        loop (moreHeaders image) (scanHeader image) (2 ^ 16) 0 ()
        let _ ←
          loop (moreHeaders image) (loadHeader image source left) (2 ^ 16) 0 source.fresh
        image.get image.addr 24 8) ↔ 58 ≤ image.fileSize ∧ image.TableInFile ∧
        ((∀ i < image.programHeaderEntryCount, image.Known i) →
          SegmentsFit image source left (List.range image.programHeaderEntryCount)
            source.fresh) := by
  rw [every_get_bind, inside_header 32 8 (by decide) (by decide), every_bind]
  constructor
  · rintro ⟨-, hscan, hrest⟩
    have hsize := (every_moreHeaders 0).mp (every_test (by decide) hscan)
    have htable := (every_scan hsize).mp hscan
    refine ⟨hsize, htable, fun hknown => ?_⟩
    have hload := hrest () (scan_result.mpr hknown)
    exact (every_load_segments hsize htable hknown).mp (every_bind.mp hload).1
  · rintro ⟨hsize, htable, hsegments⟩
    refine ⟨by omega, (every_scan hsize).mpr htable, fun _ hgo => ?_⟩
    have hknown := scan_result.mp hgo
    refine every_bind.mpr
      ⟨(every_load_segments hsize htable hknown).mpr (hsegments hknown), fun _ _ => ?_⟩
    exact every_get.mpr ((inside_header 24 8 (by decide) (by decide)).mpr (by omega))

/-- **The loader stays inside the file and the segments' pages exactly for files whose
headers are consistent with their size.** -/
theorem load_inside_iff (image : Image) (source : PageSource) (left : ℕ → UInt8) :
    (∀ a ∈ (load image source left).actions, a.Inside image) ↔
      image.Consistent source left := by
  change Every (Inside image) (load image source left) ↔ _
  rw [load, every_bind, every_checkHeader]
  constructor
  · rintro ⟨⟨hmagic, htype, hset⟩, hrest⟩
    have hloops := fun h : image.Accepted => every_loops.mp (hrest () (checkHeader_result.mpr h))
    exact ⟨hmagic, htype, hset, fun h => (hloops h).1, fun h => (hloops h).2.1,
      fun h => (hloops h).2.2⟩
  · intro h
    refine ⟨⟨h.magic, h.fileType, h.instructionSet⟩, fun _ hgo => ?_⟩
    have hacc := checkHeader_result.mp hgo
    exact every_loops.mpr ⟨h.header hacc, h.table hacc, h.segments hacc⟩

theorem kernel_base : userEnd ≤ 0xFFFF800000000000 := by decide

theorem short_fits {n : ℕ} (h : n < 2 ^ 16) : 0xFFFF800000000000 + n + 8 ≤ 2 ^ 64 := by omega

def Image.ofBytes (bytes : List UInt8) (h : bytes.length < 2 ^ 16) : Image where
  memory a := bytes.getD (a - 0xFFFF800000000000) 0
  addr := 0xFFFF800000000000
  fileSize := bytes.length
  kernel := kernel_base
  fits := short_fits h

def record (fields : List (ℕ × ℕ)) : List UInt8 :=
  fields.flatMap fun f => ByteMemory.toBytes f.1 f.2

theorem length_record (fields : List (ℕ × ℕ)) :
    (record fields).length = (fields.map Prod.fst).sum := by
  induction fields with
  | nil => rfl
  | cons f fields ih =>
    rw [map_cons, sum_cons, ← ih]
    exact (length_append).trans (congrArg (· + _) (ByteMemory.length_toBytes f.1 f.2))

def oneSegment (virtualAddress offset sizeInFile sizeInMemory requiredAlignment : ℕ) : List UInt8 :=
  record [(4, 0x464C457F), (1, 2), (1, 1), (1, 1), (1, 0), (8, 0), (2, 2), (2, 0x3e), (4, 1),
    (8, virtualAddress), (8, 64), (8, 0), (4, 0), (2, 64), (2, 56), (2, 1), (6, 0),
    (4, 1), (4, 5), (8, offset), (8, virtualAddress), (8, 0), (8, sizeInFile),
    (8, sizeInMemory), (8, requiredAlignment)]

theorem length_oneSegment (offset sizeInFile sizeInMemory requiredAlignment : ℕ) :
    (oneSegment virtualAddress offset sizeInFile sizeInMemory requiredAlignment).length = 120 := by
  simp only [oneSegment, length_record, map_cons, map_nil, sum_cons, sum_nil, Nat.reduceAdd]

theorem oneSegment_short (offset sizeInFile sizeInMemory requiredAlignment : ℕ) :
    (oneSegment virtualAddress offset sizeInFile sizeInMemory requiredAlignment).length <
      2 ^ 16 := by
  have := length_oneSegment virtualAddress offset sizeInFile sizeInMemory requiredAlignment
  omega

def freshPages : PageSource :=
  .manager (PageRuns.sortedOps_ideal (List ℕ)) (PageRuns.sortedOps_ideal ℕ) 16

/-- A segment whose eight bytes are said to be 4096 bytes into a file of 120: the kernel's
memory behind the file is copied to the program and the loader succeeds. -/
def farSegment : Image := .ofBytes (oneSegment 0x400000 4096 8 8 4096) (oneSegment_short ..)

theorem copies_behind_file :
    (load farSegment freshPages fun _ => 0).result = some 0x400000 ∧
      ¬ ∀ a ∈ (load farSegment freshPages fun _ => 0).actions, a.Inside farSegment := by
  have hrun : (load farSegment freshPages fun _ => 0).result = some 0x400000 ∧
      fastMemcpy ⟨0x400000, 1⟩ 0x400000 (0xFFFF800000000000 + 4096) 8 ∈
        (load farSegment freshPages fun _ => 0).actions := by
    decide +kernel
  refine ⟨hrun.1, fun h => ?_⟩
  have hbyte := (h _ hrun.2).1 0 (by decide)
  have hsize : farSegment.addr + farSegment.fileSize = 0xFFFF800000000000 + 120 := by
    decide +kernel
  omega

end ELF
