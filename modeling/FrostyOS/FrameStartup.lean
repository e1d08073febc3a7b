import Mathlib.Data.List.Pairwise
import FrostyOS.FrameSearch

/-! # The two phases of start-up

`EarlyInit` covers the first four GiB in a built-in bitmap; `FullInit` takes frames for a
bitmap of the whole memory, copies the early one into it and fills in the rest of the map. -/
namespace FrameStartup

open MachineWord PhysicalPageFrameAllocator FrameRuns List

inductive MemoryType where
  | free
  | reserved
  | acpiReclaimable
  | acpiNVS
  | badMemory
  | bootloaderReclaimable
  | kernelAndModules
  | framebuffer
  | kernelData
  | applications
  | applicationData
  | userOther
  deriving DecidableEq, Repr

structure MemoryMapEntry where
  address : ℕ
  length : ℕ
  type : MemoryType
  deriving DecidableEq, Repr

def fourGiB : ℕ := 4294967296

def earlyBitmapSize : ℕ := 131072

def offsets (length : ℕ) : List ℕ :=
  (List.range ((length + (pageSize - 1)) / pageSize)).map (· * pageSize)

/-- The length that the loops use; free entries are taken as they are. -/
def MemoryMapEntry.loopLength (e : MemoryMapEntry) : ℕ :=
  if e.type = .free then e.length else alignUp e.length pageSize

/-- The pages that `EarlyInit` sets or clears for an entry. -/
def earlyPages (e : MemoryMapEntry) : List ℕ :=
  if pageSize < e.loopLength then
    (offsets e.loopLength).map fun j => u64 (e.address + j) / pageSize
  else [e.address / pageSize]

/-- The pages that `FullInit` sets or clears for an entry, all at four GiB or above. -/
def fullPages (e : MemoryMapEntry) : List ℕ :=
  let address := if e.type = .free then e.address else alignDown e.address pageSize
  let starts := if pageSize < e.loopLength then offsets e.loopLength else [0]
  if u64 (e.address + e.length) ≤ fourGiB then []
  else (starts.filter fun j => fourGiB ≤ u64 (address + j)).map fun j =>
    u64 (address + j) / pageSize

/-- Free entries clear the bits of their pages, all others set them. -/
def fillEntry (pages : MemoryMapEntry → List ℕ) (b : Bitmap) (e : MemoryMapEntry) : Bitmap :=
  (pages e).foldl (fun b p => b.set p (decide (e.type ≠ .free))) b

def fill (pages : MemoryMapEntry → List ℕ) (map : List MemoryMapEntry) (b : Bitmap) : Bitmap :=
  map.foldl (fillEntry pages) b

def reserveFirst (b : Bitmap) : Bitmap :=
  if b.get 0 = false then b.set 0 true else b

def addLengths (free : Bool) (map : List MemoryMapEntry) (n : ℕ) : ℕ :=
  map.foldl (fun n e => if decide (e.type = .free) = free then u64 (n + e.length) else n) n

theorem divRoundup_le (value : ℕ) : divRoundup value (pageSize * 8) ≤ 2 ^ 49 := by
  have := u64_lt (value + (pageSize * 8 - 1))
  unfold divRoundup pageSize at *
  omega

variable {size : ℕ} {s : PhysicalPageFrameAllocator} (pages : MemoryMapEntry → List ℕ) (b : Bitmap)

theorem fillEntry_size (e : MemoryMapEntry) : (fillEntry pages b e).size = b.size := by
  unfold fillEntry
  induction pages e generalizing b with
  | nil => rfl
  | cons p ps ih => exact ih (b.set p _)

theorem fill_size (map : List MemoryMapEntry) (b : Bitmap) : (fill pages map b).size = b.size := by
  unfold fill
  induction map generalizing b with
  | nil => rfl
  | cons e map ih => exact (ih _).trans (fillEntry_size pages b e)

theorem reserveFirst_size : (reserveFirst b).size = b.size := by
  unfold reserveFirst
  split <;> rfl

/-- The bitmap that the entries leave, on top of what the buffer holds. -/
def startBitmap (pages : MemoryMapEntry → List ℕ) (map : List MemoryMapEntry) (memSize : ℕ)
    (buffer : ℕ → BitVec 8) : Bitmap := fill pages map ⟨divRoundup memSize (pageSize * 8), buffer⟩

theorem startBitmap_sized (map : List MemoryMapEntry) (memSize : ℕ) (buffer : ℕ → BitVec 8) :
    (reserveFirst (startBitmap pages map memSize buffer)).size ≤ 2 ^ 49 := by
  rw [reserveFirst_size, startBitmap, fill_size]
  exact divRoundup_le memSize

/-- The page that `reserveFirst` takes is counted as reserved. -/
def firstReserved (b : Bitmap) (n : ℕ) : ℕ :=
  if b.get 0 = false then u64 (n + pageSize) else n

def earlyInit (map : List MemoryMapEntry) (memorySize : ℕ) : PhysicalPageFrameAllocator :=
  let memSize := min memorySize fourGiB
  let b := startBitmap earlyPages map memSize fun _ => 0xFF#8
  { bitmap := reserveFirst b
    freeMem := addLengths true map 0
    reservedMem := firstReserved b (addLengths false map 0)
    usedMem := 0
    nextFree := uint64Max
    sized := startBitmap_sized _ _ _ _ }

/-- All ones, with the early bitmap copied over the front. -/
def copiedBuffer (s : PhysicalPageFrameAllocator) (i : ℕ) : BitVec 8 :=
  if i < earlyBitmapSize then s.bitmap.buffer i else 0xFF#8

/-- What `FullInit` makes of the allocator once it has the frames for the new bitmap. -/
def extend (s : PhysicalPageFrameAllocator) (map : List MemoryMapEntry) (memorySize : ℕ) :
    PhysicalPageFrameAllocator :=
  let above := map.filter fun e => fourGiB < u64 (e.address + e.length)
  let b := startBitmap fullPages map memorySize (copiedBuffer s)
  { bitmap := reserveFirst b
    freeMem := addLengths true above s.freeMem
    reservedMem := firstReserved b (addLengths false above s.reservedMem)
    usedMem := s.usedMem
    nextFree := uint64Max
    sized := startBitmap_sized _ _ _ _ }

def bitmapFrames (memorySize : ℕ) : ℕ := divRoundup (divRoundup memorySize (pageSize * 8)) pageSize

/-- The allocator and the frames of the new bitmap. No result is the failed assertion on its
address. -/
def fullInit (fuel : ℕ) (s : PhysicalPageFrameAllocator) (map : List MemoryMapEntry)
    (memorySize : ℕ) : Option (PhysicalPageFrameAllocator × List ℕ) :=
  if memorySize ≤ fourGiB then some (s, [])
  else
    match s.allocatePages fuel (bitmapFrames memorySize) with
    | none => none
    | some (_, none) => none
    | some (s, some bitmapAddress) =>
      if bitmapAddress = 0 then none
      else some (extend s map memorySize, frames bitmapAddress (bitmapFrames memorySize))

variable {map : List MemoryMapEntry} {memorySize p : ℕ} {e e' : MemoryMapEntry}

def Apart (a b : MemoryMapEntry) : Prop :=
  a.address + a.length ≤ b.address ∨ b.address + b.length ≤ a.address

instance : Std.Symm Apart := ⟨fun _ _ => Or.symm⟩

/-- What the boot loader promises of its map and of the memory size. -/
structure WellFormed (map : List MemoryMapEntry) (memorySize : ℕ) : Prop where
  size_lt : memorySize < 2 ^ 64
  addressable : ∀ e ∈ map, e.address + e.length ≤ 2 ^ 64
  nonempty : ∀ e ∈ map, 0 < e.length
  apart : map.Pairwise Apart
  aligned : ∀ e ∈ map, e.type = .free → pageSize ∣ e.address ∧ pageSize ∣ e.length
  covered : ∀ e ∈ map, e.type = .free → e.address + e.length ≤ memorySize

def Contains (e : MemoryMapEntry) (p : ℕ) : Prop :=
  e.address ≤ p * pageSize ∧ p * pageSize < e.address + e.length

def InFree (map : List MemoryMapEntry) (p : ℕ) : Prop := ∃ e ∈ map, e.type = .free ∧ Contains e p

theorem apart_of_ne (h : WellFormed map memorySize) (he : e ∈ map) (he' : e' ∈ map)
    (hne : e ≠ e') : Apart e e' := by
  exact h.apart.forall he he' hne

variable {j : ℕ}

theorem mem_offsets {length : ℕ} : j ∈ offsets length ↔ pageSize ∣ j ∧ j < length := by
  simp only [offsets, mem_map, mem_range, pageSize]
  constructor
  · rintro ⟨k, hk, rfl⟩
    exact ⟨Nat.dvd_mul_left _ _, by omega⟩
  · rintro ⟨⟨k, rfl⟩, hk⟩
    exact ⟨k, by omega, mul_comm _ _⟩

theorem lt_length_of_loopLength (hl : e.address + e.length ≤ 2 ^ 64)
    (hd : pageSize ∣ j) (hj : j < e.loopLength) : j < e.length := by
  unfold MemoryMapEntry.loopLength at hj
  split at hj
  · exact hj
  · unfold alignUp divRoundup u64 pageSize at *
    omega

/-- Where the loops over an entry look at its pages. -/
def starts (e : MemoryMapEntry) : List ℕ :=
  if pageSize < e.loopLength then offsets e.loopLength else [0]

theorem mem_starts (hl : e.address + e.length ≤ 2 ^ 64) (h0 : 0 < e.length)
    (hj : j ∈ starts e) : pageSize ∣ j ∧ j < e.length := by
  unfold starts at hj
  split at hj
  · obtain ⟨hd, hlt⟩ := mem_offsets.mp hj
    exact ⟨hd, lt_length_of_loopLength hl hd hlt⟩
  · rw [mem_singleton.mp hj]
    exact ⟨Nat.dvd_zero _, h0⟩

/-- The bits of an entry's pages from `k` on are visited; all those of a free entry are. -/
structure Visits (map : List MemoryMapEntry) (k : ℕ) (pages : MemoryMapEntry → List ℕ) : Prop where
  page : ∀ e ∈ map, ∀ p ∈ pages e,
    k ≤ p ∧ ∃ j, pageSize ∣ j ∧ j < e.length ∧ p = (e.address + j) / pageSize
  all : ∀ e ∈ map, e.type = .free → ∀ p, k ≤ p → Contains e p → p ∈ pages e

section

variable (h : WellFormed map memorySize)

include h

theorem start_of_contains (he : e ∈ map) (hf : e.type = .free)
    (hc : Contains e p) : p * pageSize - e.address ∈ starts e ∧
      u64 (e.address + (p * pageSize - e.address)) = p * pageSize := by
  have hl := h.addressable e he
  obtain ⟨⟨a, ha⟩, -⟩ := h.aligned e he hf
  obtain ⟨hlo, hhi⟩ := hc
  refine ⟨?_, ?_⟩
  · unfold starts MemoryMapEntry.loopLength
    rw [if_pos hf]
    split
    · refine mem_offsets.mpr ⟨?_, by omega⟩
      rw [ha]
      exact Nat.dvd_sub (Nat.dvd_mul_left _ _) (Nat.dvd_mul_right _ _)
    · unfold pageSize at *
      rw [mem_singleton]
      omega
  · rw [u64_of_lt (by omega)]
    omega

theorem visits_early : Visits map 0 earlyPages := by
  have hpages : ∀ e ∈ map, earlyPages e =
      (starts e).map fun j => u64 (e.address + j) / pageSize := by
    intro e he
    have hl := h.addressable e he
    have h0 := h.nonempty e he
    unfold earlyPages starts
    split
    · rfl
    · rw [map_singleton, add_zero, u64_of_lt (by omega)]
  constructor
  · intro e he p hp
    rw [hpages e he] at hp
    obtain ⟨j, hj, rfl⟩ := mem_map.mp hp
    have hl := h.addressable e he
    obtain ⟨hd, hlt⟩ := mem_starts hl (h.nonempty e he) hj
    exact ⟨Nat.zero_le _, j, hd, hlt, by rw [u64_of_lt (by omega)]⟩
  · intro e he hf p _ hc
    obtain ⟨hj, hpage⟩ := start_of_contains h he hf hc
    rw [hpages e he]
    refine mem_map.mpr ⟨_, hj, ?_⟩
    rw [hpage]
    exact Nat.mul_div_cancel _ (by decide)

theorem visits_full : Visits map (fourGiB / pageSize) fullPages := by
  constructor
  · intro e he p hp
    unfold fullPages at hp
    dsimp only at hp
    split at hp
    · cases hp
    obtain ⟨j, hj, rfl⟩ := mem_map.mp hp
    obtain ⟨hstart, hfour⟩ := mem_filter.mp hj
    obtain ⟨hd, hlt⟩ := mem_starts (h.addressable e he) (h.nonempty e he) hstart
    refine ⟨Nat.div_le_div_right (of_decide_eq_true hfour), j, hd, hlt, ?_⟩
    have hl := h.addressable e he
    unfold alignDown u64 pageSize at *
    split <;> omega
  · intro e he hf p hfour hc
    obtain ⟨hj, hpage⟩ := start_of_contains h he hf hc
    have hend : u64 (e.address + e.length) = e.address + e.length := by
      have := h.covered e he hf
      have := h.size_lt
      exact u64_of_lt (by omega)
    have hge : fourGiB ≤ p * pageSize := by
      unfold fourGiB pageSize at *
      omega
    obtain ⟨hlo, hhi⟩ := hc
    unfold fullPages
    simp only [hf, if_true]
    rw [hend, if_neg (by omega)]
    refine mem_map.mpr ⟨_, mem_filter.mpr ⟨hj, ?_⟩, ?_⟩
    · rw [hpage]
      exact decide_eq_true hge
    · rw [hpage]
      exact Nat.mul_div_cancel _ (by decide)

theorem Visits.mem_free {k : ℕ} {pages} (hv : Visits map k pages) (he : e ∈ map)
    (hf : e.type = .free) : p ∈ pages e ↔ k ≤ p ∧ Contains e p := by
  constructor
  · intro hp
    obtain ⟨⟨a, ha⟩, ⟨n, hn⟩⟩ := h.aligned e he hf
    obtain ⟨hk, j, ⟨i, rfl⟩, hj, rfl⟩ := hv.page e he p hp
    refine ⟨hk, ?_⟩
    unfold Contains pageSize at *
    omega
  · rintro ⟨hk, hc⟩
    exact hv.all e he hf p hk hc

theorem not_visited_twice (he : e ∈ map) (he' : e' ∈ map)
    (hf : e.type = .free) (hf' : e'.type ≠ .free) (hp : Contains e p) :
    ¬ ∃ j, pageSize ∣ j ∧ j < e'.length ∧ p = (e'.address + j) / pageSize := by
  rintro ⟨j, -, hj, rfl⟩
  obtain ⟨⟨a, ha⟩, ⟨n, hn⟩⟩ := h.aligned e he hf
  have hne : e ≠ e' := fun heq => hf' (heq ▸ hf)
  have hap := apart_of_ne h he he' hne
  unfold Contains Apart pageSize at *
  omega

end

theorem fillEntry_get {pages b} (hp : p < b.bits) :
    (fillEntry pages b e).get p =
      if p ∈ pages e then decide (e.type ≠ .free) else b.get p := by
  unfold fillEntry
  induction pages e generalizing b with
  | nil => simp
  | cons q qs ih =>
    rw [foldl_cons, ih (b := b.set q _) hp]
    by_cases hqs : p ∈ qs
    · simp [hqs]
    by_cases hq : q < b.bits
    · rw [Bitmap.get_set hq]
      simp [hqs]
    · have hne : p ≠ q := by omega
      rw [Bitmap.set_past_end (by omega)]
      simp [hqs, hne]

theorem fill_get {pages b} (hp : p < b.bits)
    (hone : ∀ e ∈ map, ∀ e' ∈ map, e.type = .free → e'.type ≠ .free → p ∈ pages e → p ∉ pages e') :
    (fill pages map b).get p = false ↔ (∃ e ∈ map, e.type = .free ∧ p ∈ pages e) ∨
        b.get p = false ∧ ∀ e ∈ map, p ∉ pages e := by
  unfold fill
  induction map generalizing b with
  | nil => simp
  | cons e map ih =>
    have hbits : (fillEntry pages b e).bits = b.bits := by
      unfold Bitmap.bits
      rw [fillEntry_size]
    have htail := ih (b := fillEntry pages b e) (by omega) fun a ha a' ha' =>
      hone a (mem_cons_of_mem _ ha) a' (mem_cons_of_mem _ ha')
    rw [foldl_cons, htail, fillEntry_get hp]
    have hkind : ∀ a ∈ map, p ∈ pages e → p ∈ pages a → (a.type = .free ↔ e.type = .free) := by
      intro a ha hpe hpa
      have ha := mem_cons_of_mem e ha
      constructor
      · intro hta
        by_contra hte
        exact hone a ha e mem_cons_self hta hte hpa hpe
      · intro hte
        by_contra hta
        exact hone e mem_cons_self a ha hte hta hpe hpa
    simp only [mem_cons, exists_eq_or_imp, forall_eq_or_imp]
    by_cases hpe : p ∈ pages e
    · by_cases hte : e.type = .free
      · simp only [hpe, hte, if_true, and_self, true_or, iff_true]
        by_cases hrest : ∀ a ∈ map, p ∉ pages a
        · exact .inr ⟨rfl, hrest⟩
        · push Not at hrest
          obtain ⟨a, ha, hpa⟩ := hrest
          exact .inl ⟨a, ha, (hkind a ha hpe hpa).mpr hte, hpa⟩
      · simp [hpe, hte]
    · simp [hpe]

theorem reserveFirst_get {b} (hp : p < b.bits) :
    (reserveFirst b).get p = false ↔ p ≠ 0 ∧ b.get p = false := by
  unfold reserveFirst
  split
  · rw [Bitmap.get_set (by omega)]
    by_cases h0 : p = 0 <;> simp [h0]
  next hne =>
  constructor
  · intro h
    exact ⟨by rintro rfl; exact hne h, h⟩
  · exact And.right

theorem filled_get {buffer} (hp : p < size * 8) (hfull : buffer (p / 8) = 0xFF#8) :
    (Bitmap.mk size buffer).get p := by
  have hall : ∀ k < 8, (0xFF#8).getLsbD (7 - k) := by decide
  rw [Bitmap.get_in_range hp]
  dsimp only
  rw [hfull]
  exact hall _ (Nat.mod_lt _ (by decide))

theorem startBitmap_bits (map : List MemoryMapEntry) (memSize : ℕ) (buffer : ℕ → BitVec 8) :
    (startBitmap pages map memSize buffer).bits = divRoundup memSize (pageSize * 8) * 8 := by
  unfold Bitmap.bits startBitmap
  rw [fill_size]

theorem reserveFirst_bits : (reserveFirst b).bits = b.bits := by
  unfold Bitmap.bits
  rw [reserveFirst_size]

theorem earlyInit_bits :
    (earlyInit map memorySize).bits = divRoundup (min memorySize fourGiB) (pageSize * 8) * 8 :=
  (reserveFirst_bits _).trans (startBitmap_bits _ _ _ _)

theorem extend_bits : (extend s map memorySize).bits = divRoundup memorySize (pageSize * 8) * 8 :=
  (reserveFirst_bits _).trans (startBitmap_bits _ _ _ _)

theorem lt_divRoundup (hsize : size + (pageSize * 8 - 1) < 2 ^ 64) (hp : p * pageSize < size) :
    p < divRoundup size (pageSize * 8) * 8 := by
  unfold divRoundup
  rw [u64_of_lt hsize]
  unfold pageSize at *
  omega

def EarlyCorrect (map : List MemoryMapEntry) (memorySize : ℕ) : Prop :=
  ∀ p, p * pageSize < min memorySize fourGiB →
    ((earlyInit map memorySize).Free p ↔ p ≠ 0 ∧ InFree map p)

def FullCorrect (map : List MemoryMapEntry) (memorySize : ℕ) (s : PhysicalPageFrameAllocator)
    (handed : List ℕ) : Prop :=
  ∀ p, p * pageSize < memorySize → (s.Free p ↔ p ≠ 0 ∧ InFree map p ∧ p ∉ handed)

/-- From page `k` on the free pages of the map are clear; below, the buffer counts. -/
theorem startBitmap_get {k memSize : ℕ} {pages} (h : WellFormed map memorySize)
    (hv : Visits map k pages) (buffer : ℕ → BitVec 8)
    (hlt : p < divRoundup memSize (pageSize * 8) * 8) :
    (reserveFirst (startBitmap pages map memSize buffer)).get p = false ↔
      p ≠ 0 ∧ (k ≤ p ∧ InFree map p ∨
        (Bitmap.mk (divRoundup memSize (pageSize * 8)) buffer).get p = false ∧
          ∀ e ∈ map, p ∉ pages e) := by
  have hone : ∀ e ∈ map, ∀ e' ∈ map, e.type = .free → e'.type ≠ .free →
      p ∈ pages e → p ∉ pages e' := by
    intro e he e' he' hf hf' hpe hpe'
    exact not_visited_twice h he he' hf hf' ((hv.mem_free h he hf).mp hpe).2
      (hv.page e' he' p hpe').2
  have hfree : (∃ e ∈ map, e.type = .free ∧ p ∈ pages e) ↔ k ≤ p ∧ InFree map p := by
    constructor
    · rintro ⟨e, he, hf, hpe⟩
      obtain ⟨hk, hpe⟩ := (hv.mem_free h he hf).mp hpe
      exact ⟨hk, e, he, hf, hpe⟩
    · rintro ⟨hk, e, he, hf, hpe⟩
      exact ⟨e, he, hf, (hv.mem_free h he hf).mpr ⟨hk, hpe⟩⟩
  rw [reserveFirst_get (by rwa [startBitmap_bits]), startBitmap, fill_get hlt hone, hfree]

theorem earlyInit_free (h : WellFormed map memorySize) : EarlyCorrect map memorySize := by
  intro p hp
  have hlt : p < divRoundup (min memorySize fourGiB) (pageSize * 8) * 8 := by
    refine lt_divRoundup ?_ hp
    unfold fourGiB pageSize
    omega
  have hset : (Bitmap.mk (divRoundup (min memorySize fourGiB) (pageSize * 8))
      fun _ => 0xFF#8).get p = true := filled_get hlt rfl
  have hget := startBitmap_get h (visits_early h) (fun _ => 0xFF#8) hlt
  simp only [hset, Nat.zero_le, true_and, Bool.true_eq_false, false_and, or_false] at hget
  rw [← hget]
  exact and_iff_right (by rwa [earlyInit_bits])

/-- Below four GiB the early bits are kept; above, the map alone counts. -/
theorem extend_free (h : WellFormed map memorySize) (hs : s.bits = fourGiB / pageSize)
    (hnowrap : memorySize + (pageSize * 8 - 1) < 2 ^ 64) (hp : p * pageSize < memorySize) :
    (extend s map memorySize).Free p ↔
      p ≠ 0 ∧ if p < fourGiB / pageSize then s.Free p else InFree map p := by
  have hlt := lt_divRoundup hnowrap hp
  have hunfold : (extend s map memorySize).Free p ↔ p ≠ 0 ∧ (fourGiB / pageSize ≤ p ∧ InFree map p ∨
        (Bitmap.mk (divRoundup memorySize (pageSize * 8)) (copiedBuffer s)).get p = false ∧
        ∀ e ∈ map, p ∉ fullPages e) := by
    rw [← startBitmap_get h (visits_full h) _ hlt]
    exact and_iff_right (by rwa [extend_bits])
  rw [hunfold]
  refine and_congr_right fun _ => ?_
  have hbyte : p < fourGiB / pageSize ↔ p / 8 < earlyBitmapSize := by
    unfold fourGiB pageSize earlyBitmapSize
    omega
  by_cases hlow : p < fourGiB / pageSize
  · have hnone : ∀ e ∈ map, p ∉ fullPages e := fun e he hpe =>
      absurd ((visits_full h).page e he p hpe).1 (by omega)
    have hcopy : (Bitmap.mk (divRoundup memorySize (pageSize * 8)) (copiedBuffer s)).get p =
        s.bitmap.get p := by
      have hin : p < s.bitmap.bits := by
        unfold bits at hs
        omega
      rw [Bitmap.get_in_range hlt, Bitmap.get_in_range hin]
      dsimp only [copiedBuffer]
      rw [if_pos (hbyte.mp hlow)]
    rw [if_pos hlow, hcopy]
    constructor
    · rintro (⟨hge, -⟩ | ⟨hget, -⟩)
      · omega
      · exact ⟨by omega, hget⟩
    · rintro ⟨-, hget⟩
      exact .inr ⟨hget, hnone⟩
  · have hset : (Bitmap.mk (divRoundup memorySize (pageSize * 8)) (copiedBuffer s)).get p :=
      filled_get hlt (if_neg (by omega))
    rw [if_neg hlow, hset]
    constructor
    · rintro (⟨-, hin⟩ | ⟨hfalse, -⟩)
      · exact hin
      · cases hfalse
    · intro hin
      exact .inl ⟨by omega, hin⟩

section Runs

variable {s s' a : PhysicalPageFrameAllocator} {fuel count f : ℕ} {r : Option ℕ}
  {hs handed : List ℕ} {calls : List (PhysicalPageFrameAllocator × ℕ)}

/-- The frames that a request for `count` pages takes, read off the bitmap before it: those of
the run accepted first, or for one page the frame at eight times the first free index. -/
def Takes (s : PhysicalPageFrameAllocator) (count f : ℕ) : Prop :=
  if count = 1 then ∃ i, s.Free i ∧ (∀ j < i, ¬ s.Free j) ∧ f = i * 8 % 2 ^ 52
  else ∃ i, s.Accepts count i ∧ (∀ j < i, ¬ s.Accepts count j) ∧ i ≤ f ∧ f < i + count

/-- The allocations between the two phases, with the frames handed out and the requests for
several pages with the state that they met. -/
inductive EarlyRun (a : PhysicalPageFrameAllocator) : PhysicalPageFrameAllocator → List ℕ →
    List (PhysicalPageFrameAllocator × ℕ) → Prop where
  | start : EarlyRun a a [] []
  | page {s s' : PhysicalPageFrameAllocator} {hs handed : List ℕ}
      {calls : List (PhysicalPageFrameAllocator × ℕ)} {fuel : ℕ} (hr : EarlyRun a s hs calls)
      (ho : perform fuel s .allocatePage = some (s', handed)) :
      EarlyRun a s' (hs ++ handed) calls
  | pages {s s' : PhysicalPageFrameAllocator} {hs handed : List ℕ}
      {calls : List (PhysicalPageFrameAllocator × ℕ)} {fuel count : ℕ}
      (hr : EarlyRun a s hs calls)
      (ho : perform fuel s (.allocatePages count) = some (s', handed)) :
      EarlyRun a s' (hs ++ handed) ((s, count) :: calls)

/-- The hint is an index of the bitmap; that its frame is free is not needed here. -/
def HintIn (s : PhysicalPageFrameAllocator) : Prop := s.nextFree = uint64Max ∨ s.nextFree < s.bits

theorem mem_frames_past {index : ℕ} (hi : index < s.bits) (hf : s.bits ≤ f) (hlt : f < 2 ^ 52) :
    f ∈ frames (u64 (index * pageSize)) count ↔ f < index + count := by
  rw [mem_frames_iff]
  constructor
  · rintro ⟨k, hk, rfl⟩
    omega
  · intro hend
    refine ⟨f - index, by omega, ?_⟩
    rw [Nat.add_sub_of_le (by omega)]
    exact Nat.mod_eq_of_lt hlt

structure TakesAll (s s' : PhysicalPageFrameAllocator) (count : ℕ) (handed : List ℕ) : Prop where
  marks : Marks s s' handed
  hint : s'.nextFree = uint64Max ∨ s'.nextFree = s.nextFree
  past : ∀ f, s.bits ≤ f → f < 2 ^ 52 → (f ∈ handed ↔ Takes s count f)

theorem takesAll_none (hno : ∀ f, ¬ Takes s count f) : TakesAll s s count [] :=
  ⟨Marks.refl s, .inr rfl, fun f _ _ => by simp [hno f]⟩

theorem allocatePages_takesAll_one (ho : s.allocatePages fuel 1 = some (s', r)) :
    TakesAll s s' 1 (r.elim [] fun page => frames page 1) := by
  obtain ⟨t, index, hf, hmax, hfound⟩ := allocatePages_cases (by decide) ho
  rcases findFreePagesLoop_one (by simp) hf with ⟨rfl, rfl, hno⟩ | ⟨i, hi, hfirst, rfl, rfl⟩
  · obtain ⟨rfl, rfl⟩ := hmax rfl
    apply takesAll_none
    rintro f ⟨j, hj, -⟩
    exact hno j hj
  obtain ⟨rfl, rfl⟩ := hfound eightfold_ne_uint64Max
  refine ⟨lockPages_marks rfl, ?_, ?_⟩
  · rw [lockPages_nextFree]
    exact ite_eq_or_eq ..
  · intro f _ _
    dsimp only [Option.elim]
    rw [frames_one _ (u64_lt _), frame_of_eightfold, mem_singleton]
    constructor
    · intro hf
      exact ⟨i, hi, hfirst, hf⟩
    · rintro ⟨j, hj, hjfirst, rfl⟩
      rw [first_unique hj hjfirst hi hfirst]

theorem allocatePages_takesAll_several (hcount : 2 ≤ count)
    (ho : s.allocatePages fuel count = some (s', r)) :
    TakesAll s s' count (r.elim [] fun page => frames page count) := by
  have htakes : ∀ f, Takes s count f ↔
      ∃ i, s.Accepts count i ∧ (∀ j < i, ¬ s.Accepts count j) ∧ i ≤ f ∧ f < i + count := by
    intro f
    unfold Takes
    rw [if_neg (by omega)]
  obtain ⟨t, index, hf, hmax, hfound⟩ := allocatePages_cases (by omega) ho
  rcases findFreePagesLoop_spec hcount (by simp) hf with ⟨rfl, rfl, hno⟩ | ⟨hacc, hfirst, rfl⟩
  · obtain ⟨rfl, rfl⟩ := hmax rfl
    apply takesAll_none
    intro f hf
    obtain ⟨i, hi, -⟩ := (htakes f).mp hf
    exact hno i hi
  · obtain ⟨rfl, rfl⟩ := hfound (ne_uint64Max hacc.1.1)
    refine ⟨lockPages_marks rfl, ?_, ?_⟩
    · rw [lockPages_nextFree]
      exact ite_eq_or_eq ..
    · intro f hge hlt
      have hin := hacc.1.1
      rw [htakes]
      apply (mem_frames_past hin hge hlt).trans
      constructor
      · intro hend
        exact ⟨index, hacc, hfirst, by omega, hend⟩
      · rintro ⟨i, hi, hifirst, -, hend⟩
        rwa [first_unique hi hifirst hacc hfirst] at hend

theorem allocatePages_takesAll (ho : s.allocatePages fuel count = some (s', r)) :
    TakesAll s s' count (r.elim [] fun page => frames page count) := by
  rcases Nat.lt_trichotomy count 1 with h | rfl | h
  · obtain rfl : count = 0 := by omega
    cases ho
    apply takesAll_none
    rintro f ⟨i, -, -, hle, hlt⟩
    omega
  · exact allocatePages_takesAll_one ho
  · exact allocatePages_takesAll_several h ho

theorem findFreePage_hintIn (h : HintIn s) :
    s.findFreePage.1.bitmap = s.bitmap ∧ HintIn s.findFreePage.1 ∧
      (s.findFreePage.2 = uint64Max ∨ s.findFreePage.2 < s.bits) := by
  have hafter : ∀ i, i < s.bits →
      HintIn { s with nextFree := s.hintAfter i uint64Max } := fun i hi =>
    (hintAfter_spec hi uint64Max).imp_right fun h => h.1.1
  rcases findFreePage_cases s with ⟨-, ⟨he, -⟩ | ⟨i, he, hf, -⟩⟩ | ⟨hn, he⟩
  · rw [he]
    exact ⟨rfl, h, .inl rfl⟩
  · rw [he]
    exact ⟨rfl, hafter i hf.1, .inr hf.1⟩
  · have hi := h.resolve_left hn
    rw [he]
    exact ⟨rfl, hafter _ hi, .inr hi⟩

theorem hintIn_of_bits (h : HintIn s) (hn : s'.nextFree = uint64Max ∨ s'.nextFree = s.nextFree)
    (hb : s'.bits = s.bits) : HintIn s' := by
  rcases hn with hn | hn
  · exact .inl hn
  · unfold HintIn
    rw [hn, hb]
    exact h

theorem allocatePage_in_range (h : HintIn s)
    (ho : perform fuel s .allocatePage = some (s', handed)) :
    Marks s s' handed ∧ HintIn s' ∧ ∀ f ∈ handed, f < s.bits := by
  obtain ⟨hb, hhint, hindex⟩ := findFreePage_hintIn h
  simp only [perform, allocatePage, Option.map_eq_some_iff] at ho
  obtain ⟨⟨t, page⟩, hsome, he⟩ := ho
  cases he
  split at hsome
  · cases hsome
  next hne =>
  cases hsome
  have hi := hindex.resolve_left hne
  have hm := (lockPage_marks s.findFreePage.1 (u64 (s.findFreePage.2 * pageSize))).congr hb
  have hbits : s.findFreePage.1.bits = s.bits := congrArg Bitmap.bits hb
  refine ⟨hm, ?_, ?_⟩
  · exact hintIn_of_bits hhint (.inr (lockPage_nextFree _ _)) (hm.bits.trans hbits.symm)
  · intro f hf
    rw [mem_singleton.mp hf, frame_of_index hi]
    exact hi

structure RunInvariant (a s : PhysicalPageFrameAllocator) (hs : List ℕ)
    (calls : List (PhysicalPageFrameAllocator × ℕ)) : Prop where
  marks : Marks a s hs
  hint : HintIn s
  past : ∀ f, a.bits ≤ f → f < 2 ^ 52 → (f ∈ hs ↔ ∃ c ∈ calls, Takes c.1 c.2 f)

theorem earlyRun_invariant (ha : HintIn a) (hr : EarlyRun a s hs calls) :
    RunInvariant a s hs calls := by
  induction hr with
  | start => exact ⟨Marks.refl a, ha, by simp⟩
  | page _ ho ih =>
    obtain ⟨hm, hhint, hrange⟩ := allocatePage_in_range ih.hint ho
    refine ⟨ih.marks.trans hm, hhint, fun f hge hlt => ?_⟩
    have hnot := fun hf => hrange f hf
    rw [ih.marks.bits] at hnot
    rw [mem_append, ← ih.past f hge hlt]
    exact or_iff_left fun hf => absurd (hnot hf) (by omega)
  | pages _ ho ih =>
    simp only [perform, Option.map_eq_some_iff] at ho
    obtain ⟨⟨t, r⟩, hsome, he⟩ := ho
    cases he
    have hall := allocatePages_takesAll hsome
    refine ⟨ih.marks.trans hall.marks, ?_, fun f hge hlt => ?_⟩
    · exact hintIn_of_bits ih.hint hall.hint hall.marks.bits
    · rw [mem_append, ih.past f hge hlt,
        hall.past f (by rw [ih.marks.bits]; exact hge) hlt, or_comm]
      simp

theorem inFree_lt (h : WellFormed map memorySize) (hin : InFree map p) :
    p * pageSize < memorySize := by
  obtain ⟨e, he, hf, hc⟩ := hin
  exact Nat.lt_of_lt_of_le hc.2 (h.covered e he hf)

theorem fullInit_small (hsize : memorySize ≤ fourGiB) :
    fullInit fuel s map memorySize = some (s, []) := if_pos hsize

theorem fullInit_cases (hsize : fourGiB < memorySize)
    (ho : fullInit fuel s map memorySize = some (s', handed)) :
    ∃ t page, s.allocatePages fuel (bitmapFrames memorySize) = some (t, some page) ∧
      s' = extend t map memorySize ∧ handed = frames page (bitmapFrames memorySize) := by
  unfold fullInit at ho
  rw [if_neg (by omega)] at ho
  split at ho
  · cases ho
  · cases ho
  · next t page hsome =>
    split at ho
    · cases ho
    · cases ho
      exact ⟨t, page, hsome, rfl, rfl⟩

theorem nowrap_of_bitmapFrames (hsize : memorySize < 2 ^ 64) (hn : bitmapFrames memorySize ≠ 0) :
    memorySize + (pageSize * 8 - 1) < 2 ^ 64 := by
  by_contra hwrap
  refine hn ?_
  unfold bitmapFrames divRoundup u64 pageSize at *
  omega

theorem bitmapFrames_of_nowrap (hsize : fourGiB < memorySize)
    (hnowrap : memorySize + (pageSize * 8 - 1) < 2 ^ 64) :
    2 ≤ bitmapFrames memorySize ∧ bitmapFrames memorySize < 2 ^ 38 := by
  unfold bitmapFrames divRoundup u64 fourGiB pageSize at *
  omega

theorem earlyInit_bits_large (map : List MemoryMapEntry) (hsize : fourGiB < memorySize) :
    (earlyInit map memorySize).bits = fourGiB / pageSize := by
  rw [earlyInit_bits, Nat.min_eq_right (Nat.le_of_lt hsize)]
  decide

/-- The new bitmap agrees with the map exactly if no frame of a free entry at four GiB or
above was handed out. -/
theorem fullCorrect_iff (h : WellFormed map memorySize) (hsize : fourGiB < memorySize)
    (hnowrap : memorySize + (pageSize * 8 - 1) < 2 ^ 64)
    (hm : Marks (earlyInit map memorySize) s hs) :
    FullCorrect map memorySize (extend s map memorySize) hs ↔
      ∀ f, fourGiB / pageSize ≤ f → InFree map f → f ∉ hs := by
  have hfree := fun p => extend_free (p := p) h
    (hm.bits.trans (earlyInit_bits_large map hsize)) hnowrap
  constructor
  · intro hc f hge hin
    have hlt := inFree_lt h hin
    have hne : f ≠ 0 := by
      unfold fourGiB pageSize at hge
      omega
    have hf := (hfree f hlt).mpr ⟨hne, by rwa [if_neg (by omega)]⟩
    exact ((hc f hlt).mp hf).2.2
  · intro hclear p hp
    rw [hfree p hp]
    by_cases hlow : p < fourGiB / pageSize
    · have hearly := earlyInit_free h p (by
        rw [Nat.min_eq_right (Nat.le_of_lt hsize)]
        unfold fourGiB pageSize at *
        omega)
      rw [if_pos hlow, hm.free_iff, hearly]
      tauto
    · rw [if_neg hlow]
      have := hclear p (by omega)
      tauto

theorem not_free_zero (hsize : fourGiB < memorySize) (h : WellFormed map memorySize)
    (hm : Marks (earlyInit map memorySize) s hs) : ¬ s.Free 0 := by
  intro h0
  have hearly := earlyInit_free h 0 (by
    rw [Nat.min_eq_right (Nat.le_of_lt hsize)]
    decide)
  exact (hearly.mp (hm.free_iff.mp h0).1).1 rfl

theorem fullInit_total (h : WellFormed map memorySize) (hsize : fourGiB < memorySize)
    (hm : Marks (earlyInit map memorySize) s hs)
    (hnowrap : memorySize + (pageSize * 8 - 1) < 2 ^ 64)
    {i : ℕ} (hi : s.Accepts (bitmapFrames memorySize) i) :
    ∃ fuel s' handed, fullInit fuel s map memorySize = some (s', handed) := by
  obtain ⟨hn, hn'⟩ := bitmapFrames_of_nowrap hsize hnowrap
  have hbits := s.bits_le
  obtain ⟨t, index, hfind, hcase⟩ := findFreePages_total (s := s) hn (by omega)
  rcases hcase with ⟨-, hno⟩ | ⟨hacc, -, -⟩
  · exact absurd hi (hno i)
  have hpos : index ≠ 0 := by
    rintro rfl
    exact not_free_zero hsize h hm hacc.1
  have hlt := hacc.1.1
  have hpage : u64 (index * pageSize) ≠ 0 := by
    unfold u64 pageSize
    omega
  refine ⟨s.bits + 1, extend (t.lockPages (u64 (index * pageSize)) (bitmapFrames memorySize)) map
    memorySize, frames (u64 (index * pageSize)) (bitmapFrames memorySize), ?_⟩
  rw [fullInit, if_neg (by omega), allocatePages, hfind]
  simp only [Option.bind_eq_bind, Option.bind_some, if_neg (ne_uint64Max hlt)]
  rw [if_neg hpage]

/-- After `EarlyInit` the free pages are those of the map's free entries other than page zero.
`FullInit` returns if it needs no bitmap or the search accepts a place for it, and then the
free pages are the ones that were not handed out either, exactly if no request for several
pages took a free page at four GiB or above. -/
theorem startup_free_pages_iff (h : WellFormed map memorySize) :
    EarlyCorrect map memorySize ∧ ∀ s hs calls, EarlyRun (earlyInit map memorySize) s hs calls →
      (memorySize ≤ fourGiB ∨ memorySize + (pageSize * 8 - 1) < 2 ^ 64 ∧
          (∃ i, s.Accepts (bitmapFrames memorySize) i) →
        ∃ fuel s' handed, fullInit fuel s map memorySize = some (s', handed)) ∧
      ∀ fuel s' handed, fullInit fuel s map memorySize = some (s', handed) →
        (FullCorrect map memorySize s' (hs ++ handed) ↔
          (fourGiB < memorySize → ∀ c ∈ (s, bitmapFrames memorySize) :: calls,
            ∀ f, fourGiB / pageSize ≤ f → InFree map f → ¬ Takes c.1 c.2 f)) := by
  refine ⟨earlyInit_free h, fun s hs calls hr => ?_⟩
  have hinv := earlyRun_invariant (.inl rfl) hr
  constructor
  · rintro (hsmall | ⟨hnowrap, i, hi⟩)
    · exact ⟨0, s, [], fullInit_small hsmall⟩
    · by_cases hsize : fourGiB < memorySize
      · exact fullInit_total h hsize hinv.marks hnowrap hi
      · exact ⟨0, s, [], fullInit_small (by omega)⟩
  · intro fuel s' handed ho
    by_cases hsize : fourGiB < memorySize
    · obtain ⟨t, page, hsome, rfl, rfl⟩ := fullInit_cases hsize ho
      have hall : TakesAll s t _ (frames page _) := allocatePages_takesAll hsome
      have hn : bitmapFrames memorySize ≠ 0 := by
        intro h0
        rw [h0] at hsome
        cases hsome
      have hnowrap := nowrap_of_bitmapFrames h.size_lt hn
      rw [fullCorrect_iff h hsize hnowrap (hinv.marks.trans hall.marks)]
      -- both sides ask, of each such frame, that no call has taken it
      have hmem : ∀ f, fourGiB / pageSize ≤ f → InFree map f →
          (f ∈ hs ++ frames page (bitmapFrames memorySize) ↔
            ∃ c ∈ (s, bitmapFrames memorySize) :: calls, Takes c.1 c.2 f) := by
        intro f hge hin
        have hlt : f < 2 ^ 52 := by
          have := inFree_lt h hin
          unfold pageSize at *
          omega
        have ha := earlyInit_bits_large map hsize
        rw [mem_append, hinv.past f (by omega) hlt, or_comm]
        rw [hall.past f (by rw [hinv.marks.bits]; omega) hlt]
        simp
      constructor
      · intro hclear _ c hc f hge hin ht
        exact hclear f hge hin ((hmem f hge hin).mpr ⟨c, hc, ht⟩)
      · intro hclear f hge hin hf
        obtain ⟨c, hc, ht⟩ := (hmem f hge hin).mp hf
        exact hclear hsize c hc f hge hin ht
    · have hsmall : memorySize ≤ fourGiB := by omega
      rw [fullInit_small hsmall] at ho
      cases ho
      refine iff_of_true (fun p hp => ?_) fun hbig => absurd hbig hsize
      rw [hinv.marks.free_iff, earlyInit_free h p (by rwa [Nat.min_eq_left hsmall]),
        append_nil, and_assoc]

def splitMap : List MemoryMapEntry := [⟨4096, 262144, .free⟩, ⟨4294967296, 32768, .free⟩]

theorem splitMap_wellFormed : WellFormed splitMap 4295000064 where
  size_lt := by decide
  addressable := by decide
  nonempty := by decide
  apart := by simp [splitMap, Apart]
  aligned := by decide
  covered := by decide

theorem startup_free_pages_split :
    EarlyCorrect splitMap 4295000064 ∧ ∃ fuel s' handed,
      fullInit fuel (earlyInit splitMap 4295000064) splitMap 4295000064 = some (s', handed) ∧
      FullCorrect splitMap 4295000064 s' handed := by
  obtain ⟨hearly, hrun⟩ := startup_free_pages_iff splitMap_wellFormed
  obtain ⟨hreturns, hcorrect⟩ := hrun _ [] [] .start
  have hframes : bitmapFrames 4295000064 = 33 := by decide
  have hfree : ∀ p, 1 ≤ p → p ≤ 64 → (earlyInit splitMap 4295000064).Free p := by
    intro p h1 h64
    refine (hearly p ?_).mpr ⟨by omega, ?_⟩
    · unfold pageSize fourGiB
      omega
    · refine ⟨⟨4096, 262144, .free⟩, mem_cons_self, rfl, ?_⟩
      unfold Contains pageSize
      dsimp only
      omega
  have hacc : (earlyInit splitMap 4295000064).Accepts (bitmapFrames 4295000064) 1 := by
    rw [hframes]
    refine ⟨hfree 1 (by decide) (by decide), fun k hk hle => ?_⟩
    rw [u64_of_lt (by omega)]
    exact (hfree (1 + k) (by omega) (by omega)).2
  obtain ⟨fuel, s', handed, ho⟩ := hreturns (.inr ⟨by decide, 1, hacc⟩)
  refine ⟨hearly, fuel, s', handed, ho, ?_⟩
  refine (hcorrect fuel s' handed ho).mpr fun _ c hc f hge _ ht => ?_
  obtain rfl := mem_singleton.mp hc
  rw [Takes, if_neg (by decide)] at ht
  obtain ⟨i, -, hfirst, -, hlt⟩ := ht
  have hi : i ≤ 1 := not_lt.mp fun h => hfirst 1 h hacc
  rw [hframes] at hlt
  unfold fourGiB pageSize at hge
  omega

def crossingMap : List MemoryMapEntry := [⟨4294963200, 262144, .free⟩]

theorem crossingMap_wellFormed : WellFormed crossingMap 4295225344 where
  size_lt := by decide
  addressable := by decide
  nonempty := by decide
  apart := by simp [crossingMap]
  aligned := by decide
  covered := by decide

/-- Only the last page of the early bitmap is free, and the bits behind it read as clear:
`FullInit` puts its bitmap across four GiB and then marks the pages above as free. -/
theorem fullInit_frees_its_bitmap :
    WellFormed crossingMap 4295225344 ∧ ∃ fuel s' handed,
      fullInit fuel (earlyInit crossingMap 4295225344) crossingMap 4295225344 = some (s', handed) ∧
      1048576 ∈ handed ∧ s'.Free 1048576 := by
  have hw := crossingMap_wellFormed
  have hsize : fourGiB < 4295225344 := by decide
  have hframes : bitmapFrames 4295225344 = 33 := by decide
  have hbits := earlyInit_bits_large crossingMap hsize
  have hbits' : (earlyInit crossingMap 4295225344).bits = 1048576 := hbits
  have hin : ∀ p, InFree crossingMap p ↔ 1048575 ≤ p ∧ p < 1048639 := by
    intro p
    simp only [InFree, crossingMap, mem_singleton, exists_eq_left, true_and, Contains, pageSize]
    omega
  have hfree : ∀ p < 1048576, ((earlyInit crossingMap 4295225344).Free p ↔ p = 1048575) := by
    intro p hp
    rw [earlyInit_free hw p (by unfold fourGiB pageSize; omega), hin]
    omega
  have hacc : (earlyInit crossingMap 4295225344).Accepts (bitmapFrames 4295225344) 1048575 := by
    rw [hframes]
    refine ⟨(hfree _ (by decide)).mpr rfl, fun k hk hle => ?_⟩
    rw [u64_of_lt (by omega)]
    exact Bitmap.get_past_end (by unfold bits at hbits'; omega)
  obtain ⟨fuel, s', handed, ho⟩ := fullInit_total hw hsize (Marks.refl _) (by decide) hacc
  refine ⟨hw, fuel, s', handed, ho, ?_⟩
  obtain ⟨t, page, hsome, rfl, rfl⟩ := fullInit_cases hsize ho
  have hall : TakesAll _ t _ (frames page _) := allocatePages_takesAll hsome
  constructor
  · refine (hall.past _ (by omega) (by decide)).mpr ?_
    rw [Takes, if_neg (by decide)]
    refine ⟨1048575, hacc, fun j hj hjacc => ?_, by decide, by rw [hframes]; decide⟩
    have := (hfree j (by omega)).mp hjacc.1
    omega
  · refine (extend_free hw (hall.marks.bits.trans hbits) (by decide) (by decide)).mpr ?_
    refine ⟨by decide, ?_⟩
    rw [if_neg (by decide), hin]
    decide

end Runs

end FrameStartup
