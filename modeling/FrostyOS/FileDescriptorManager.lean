import FrostyOS.Bitmap
import FrostyOS.MachineWord
import Mathlib.Data.List.Nodup

/-! # File descriptor tables

A list of descriptors and a bitmap of the used identifiers, sized in bytes, that grows on
demand. What `krealloc` hands out is a parameter of every call. -/
namespace FileDescriptors

open MachineWord Bitmap List

inductive FileDescriptorType where
  | unknown
  | fileStream
  | directoryStream
  | tty
  | debug
  deriving DecidableEq, Repr

inductive FileDescriptorMode where
  | read
  | write
  | append
  | readWrite
  deriving DecidableEq, Repr

/-- Which descriptors the constructor accepts. -/
def wasInitSuccessful : FileDescriptorType → FileDescriptorMode → Bool
  | .fileStream, _ => true
  | .directoryStream, mode => mode = .read
  | .tty, _ => true
  | .debug, mode => mode = .write || mode = .append
  | .unknown, _ => false

structure FileDescriptor where
  object : ℕ
  type : FileDescriptorType
  data : ℕ
  mode : FileDescriptorMode
  id : ℕ
  deriving DecidableEq, Repr

open FileDescriptor

structure FileDescriptorManager where
  autoExpand : Bool
  descriptors : List FileDescriptor
  bitmap : Bitmap

open FileDescriptorManager

/-- The bytes of the memory that a request for some size is given. -/
abbrev Krealloc := ℕ → Option (ℕ → BitVec 8)

variable (m : FileDescriptorManager)

/-- The first `n` quadwords behind `old` bytes are cleared. -/
def fastMemset (data : ℕ → BitVec 8) (old n : ℕ) : ℕ → BitVec 8 :=
  fun k => if old ≤ k ∧ k < old + n * 8 then 0 else data k

namespace FileDescriptorManager

def expandBitmap (newSize : ℕ) (krealloc : Krealloc) : Bool × FileDescriptorManager :=
  if newSize ≤ m.bitmap.size then (true, m)
  else if m.autoExpand = false then (false, m)
  else
    match krealloc newSize with
    | none => (false, m)
    | some memory =>
      let data := fun k => if k < m.bitmap.size then m.bitmap.buffer k else memory k
      let cleared := fastMemset data m.bitmap.size ((newSize - m.bitmap.size) >>> 3)
      (true, { m with bitmap := ⟨newSize, cleared⟩ })

def getFileDescriptor (ID : ℤ) : Option FileDescriptor :=
  if (m.bitmap.bits : ℤ) ≤ ID then none
  else m.descriptors.find? fun d => (d.id : ℤ) = ID

/-- The descriptor enters the list and its bit is set. -/
def insert (d : FileDescriptor) : FileDescriptorManager :=
  { m with descriptors := m.descriptors ++ [d], bitmap := m.bitmap.set d.id true }

def insertNew (object : ℕ) (type : FileDescriptorType) (data : ℕ)
    (mode : FileDescriptorMode) (ID : ℕ) : Bool × FileDescriptorManager :=
  if wasInitSuccessful type mode then (true, m.insert ⟨object, type, data, mode, ID⟩)
  else (false, m)

def reserveFileDescriptor (object : ℕ) (type : FileDescriptorType)
    (data : ℕ) (mode : FileDescriptorMode) (ID : ℕ) (krealloc : Krealloc) :
    Bool × FileDescriptorManager :=
  if m.bitmap.bits > ID ∧ m.bitmap.get ID = true then (false, m)
  else
    match m.expandBitmap (alignUp (ID + 1) 8) krealloc with
    | (false, m) => (false, m)
    | (true, m) => m.insertNew object type data mode ID

def reserveDescriptor (d : FileDescriptor) (krealloc : Krealloc) : Bool × FileDescriptorManager :=
  if m.bitmap.bits > d.id ∧ m.bitmap.get d.id = true then (false, m)
  else
    match m.expandBitmap (alignUp (d.id + 1) 8) krealloc with
    | (false, m) => (false, m)
    | (true, m) => (true, m.insert d)

def firstClear : Option ℕ :=
  (List.range m.bitmap.bits).find? fun i => m.bitmap.get i = false

/-- The identifier, or -1. Behind a full bitmap the identifier is its size in bytes. -/
def allocateFileDescriptor (object : ℕ) (type : FileDescriptorType)
    (data : ℕ) (mode : FileDescriptorMode) (krealloc : Krealloc) : ℤ × FileDescriptorManager :=
  match m.firstClear with
  | some ID =>
    match m.insertNew object type data mode ID with
    | (false, m) => (-1, m)
    | (true, m) => (ID, m)
  | none =>
    match m.expandBitmap (alignUp (m.bitmap.size + 1) 8) krealloc with
    | (false, m) => (-1, m)
    | (true, m') =>
      match m'.insertNew object type data mode m.bitmap.size with
      | (false, m') => (-1, m')
      | (true, m') => (m.bitmap.size, m')

def remove (d : FileDescriptor) (ID : ℤ) : FileDescriptorManager :=
  { m with
    descriptors := m.descriptors.eraseP fun e => e.object = d.object
    bitmap := m.bitmap.set ID.toNat false }

def release (ID : ℤ) : Bool × FileDescriptorManager :=
  match m.getFileDescriptor ID with
  | none => (false, m)
  | some d => (true, m.remove d ID)

def unreserveFileDescriptor (ID : ℤ) : Bool × FileDescriptorManager :=
  m.release ID

def freeFileDescriptor (ID : ℤ) : Bool × FileDescriptorManager := m.release ID

/-- A table that expands itself, as every thread has one. -/
def init : FileDescriptorManager := ⟨true, [], ⟨0, fun _ => 0⟩⟩

end FileDescriptorManager

inductive Call where
  | allocate (object : ℕ) (type : FileDescriptorType) (data : ℕ) (mode : FileDescriptorMode)
      (krealloc : Krealloc)
  | reserve (object : ℕ) (type : FileDescriptorType) (data : ℕ) (mode : FileDescriptorMode)
      (ID : ℕ) (krealloc : Krealloc)
  | reserveDescriptor (d : FileDescriptor) (krealloc : Krealloc)
  | unreserve (ID : ℤ)
  | free (ID : ℤ)

def FileDescriptorManager.call : Call → FileDescriptorManager
  | .allocate object type data mode krealloc =>
    (m.allocateFileDescriptor object type data mode krealloc).2
  | .reserve object type data mode ID krealloc =>
    (m.reserveFileDescriptor object type data mode ID krealloc).2
  | .reserveDescriptor d krealloc => (m.reserveDescriptor d krealloc).2
  | .unreserve ID => (m.unreserveFileDescriptor ID).2
  | .free ID => (m.freeFileDescriptor ID).2

/-- No request goes beyond the address space. -/
def Bounded (krealloc : Krealloc) : Prop := ∀ n, 2 ^ 48 ≤ n → krealloc n = none

namespace FileDescriptorManager

/-- `new` gives an object that no descriptor in the table is, and identifiers are not
negative numbers of type `long`. -/
def Possible : Call → Prop
  | .allocate object _ _ _ krealloc =>
    (∀ d ∈ m.descriptors, d.object ≠ object) ∧ Bounded krealloc
  | .reserve object _ _ _ ID krealloc =>
    (∀ d ∈ m.descriptors, d.object ≠ object) ∧ ID < 2 ^ 63 ∧ Bounded krealloc
  | .reserveDescriptor d krealloc =>
    (∀ e ∈ m.descriptors, e.object = d.object → e = d) ∧ d.id < 2 ^ 63 ∧ Bounded krealloc
  | .unreserve _ => True
  | .free _ => True

def HasRoom : Prop :=
  m.bitmap.size = 0 ∨ ∃ i < m.bitmap.bits, m.bitmap.get i = false

def Roomy : Call → Prop
  | .allocate .. => m.HasRoom
  | _ => True

end FileDescriptorManager

inductive Reachable (Meets : FileDescriptorManager → Call → Prop) :
    FileDescriptorManager → Prop where
  | init : Reachable Meets .init
  | step {m : FileDescriptorManager} (h : Reachable Meets m) (c : Call) (hp : m.Possible c)
      (hm : Meets m c) : Reachable Meets (m.call c)

/-- A bit is set exactly when one live descriptor has its index as identifier. -/
def FileDescriptorManager.Exact : Prop :=
  ∀ i, m.bitmap.get i = true ↔ (m.descriptors.filter fun d => d.id = i).length = 1

variable {m}

/-- Identifiers and objects are used once, and the bitmap marks the identifiers. -/
structure FileDescriptorManager.Tidy (m : FileDescriptorManager) : Prop where
  aligned : 8 ∣ m.bitmap.size
  size_lt : m.bitmap.size < 2 ^ 48
  ids : (m.descriptors.map FileDescriptor.id).Nodup
  objects : (m.descriptors.map object).Nodup
  bits : ∀ i, m.bitmap.get i = true ↔ i ∈ m.descriptors.map FileDescriptor.id

theorem FileDescriptorManager.tidy_init : init.Tidy where
  aligned := ⟨0, rfl⟩
  size_lt := by decide
  ids := nodup_nil
  objects := nodup_nil
  bits := by
    intro i
    rw [get_past_end (Nat.zero_le i)]
    exact iff_of_false (by decide) not_mem_nil

theorem get_of_byte_zero {b : Bitmap} {i : ℕ} (h : b.buffer (i / 8) = 0) : b.get i = false := by
  by_cases hi : i < b.bits
  · rw [get_in_range hi, h]
    simp
  · exact get_past_end (by omega)

variable {ID data object : ℕ} {ok : Bool} {d e : FileDescriptor} {krealloc : Krealloc}
  {mode : FileDescriptorMode} {type : FileDescriptorType} {m' : FileDescriptorManager}

section

variable (h : m.Tidy)

include h

namespace FileDescriptorManager

/-- Expanding keeps the list and every bit; on success the size is enough. -/
theorem expandBitmap_spec {newSize : ℕ} (hn : 8 ∣ newSize)
    (hb : Bounded krealloc) (he : m.expandBitmap newSize krealloc = (ok, m')) :
    m'.Tidy ∧ m'.descriptors = m.descriptors ∧ m.bitmap.size ≤ m'.bitmap.size ∧
      (ok → newSize ≤ m'.bitmap.size) := by
  revert he
  fun_cases expandBitmap m newSize krealloc <;> intro he
  case case1 hle =>
    cases he
    exact ⟨h, rfl, le_rfl, fun _ => hle⟩
  case case2 =>
    cases he
    exact ⟨h, rfl, le_rfl, by simp⟩
  case case3 =>
    cases he
    exact ⟨h, rfl, le_rfl, by simp⟩
  case case4 hle _ memory hmem data cleared =>
    have hlt : newSize < 2 ^ 48 := by
      by_contra hge
      rw [hb newSize (by omega)] at hmem
      cases hmem
    have hcleared : m.bitmap.size + (newSize - m.bitmap.size) >>> 3 * 8 = newSize := by
      have := h.aligned
      rw [Nat.shiftRight_eq_div_pow]
      omega
    have hget : ∀ i, (Bitmap.mk newSize cleared).get i = m.bitmap.get i := by
      intro i
      by_cases hold : i / 8 < m.bitmap.size
      · -- an old byte, which the new buffer has copied
        have hbyte : cleared (i / 8) = m.bitmap.buffer (i / 8) := by
          simp only [cleared, fastMemset, data, hold, if_true]
          rw [if_neg (by omega)]
        simp only [Bitmap.get, hbyte]
        rw [if_neg (by omega), if_neg (by omega)]
      · rw [get_past_end (b := m.bitmap) (by unfold bits; omega)]
        by_cases hnew : i / 8 < newSize
        · apply get_of_byte_zero
          simp only [cleared, fastMemset]
          rw [if_pos (by omega)]
        · exact Bitmap.get_past_end (by unfold Bitmap.bits; simp only; omega)
    cases he
    refine ⟨⟨hn, hlt, h.ids, h.objects, ?_⟩, rfl, by simp; omega, by simp⟩
    intro i
    rw [hget i]
    exact h.bits i

theorem tidy_insert (hid : m.bitmap.get d.id = false)
    (hlt : d.id < m.bitmap.bits) (hobject : ∀ e ∈ m.descriptors, e.object ≠ d.object) :
    (m.insert d).Tidy where
  aligned := h.aligned
  size_lt := h.size_lt
  ids := by
    have hnew : d.id ∉ m.descriptors.map FileDescriptor.id := by
      rw [← h.bits, hid]
      decide
    simp only [insert, map_append, map_cons, map_nil]
    exact nodup_append_comm.1 (nodup_cons.2 ⟨hnew, h.ids⟩)
  objects := by
    have hnew : d.object ∉ m.descriptors.map object := by
      rw [mem_map]
      rintro ⟨e, he, heq⟩
      exact hobject e he heq
    simp only [insert, map_append, map_cons, map_nil]
    exact nodup_append_comm.1 (nodup_cons.2 ⟨hnew, h.objects⟩)
  bits := by
    intro i
    simp only [insert, get_set hlt, map_append, map_cons, map_nil, mem_append, mem_singleton]
    by_cases hi : i = d.id
    · simp [hi]
    · simp only [hi, if_false, or_false]
      exact h.bits i

theorem Tidy.remove_split (hd : d ∈ m.descriptors) :
    ∃ l₁ l₂, m.descriptors = l₁ ++ d :: l₂ ∧
      m.descriptors.eraseP (fun e => e.object = d.object) = l₁ ++ l₂ := by
  obtain ⟨l₁, l₂, hsplit⟩ := append_of_mem hd
  refine ⟨l₁, l₂, hsplit, ?_⟩
  have hobjects := h.objects
  rw [hsplit, map_append, map_cons, nodup_middle, nodup_cons] at hobjects
  rw [hsplit, eraseP_append_right, eraseP_cons_of_pos (by simp)]
  intro e he
  have hne : e.object ≠ d.object := by
    intro heq
    apply hobjects.1
    rw [← heq]
    exact mem_append_left _ (mem_map_of_mem he)
  simpa using hne

theorem tidy_remove (hd : d ∈ m.descriptors) : (m.remove d d.id).Tidy := by
  obtain ⟨l₁, l₂, hsplit, herase⟩ := h.remove_split hd
  have hlt : d.id < m.bitmap.bits := lt_bits_of_get ((h.bits d.id).2 (mem_map_of_mem hd))
  have hids := h.ids
  have hobjects := h.objects
  rw [hsplit, map_append, map_cons, nodup_middle, nodup_cons] at hids hobjects
  have hlist : (m.remove d d.id).descriptors = l₁ ++ l₂ := herase
  refine ⟨h.aligned, h.size_lt, ?_, ?_, ?_⟩
  · rw [hlist, map_append]
    exact hids.2
  · rw [hlist, map_append]
    exact hobjects.2
  · intro i
    have hset : (m.remove d d.id).bitmap = m.bitmap.set d.id false := rfl
    rw [hlist, hset, get_set hlt, map_append]
    by_cases hi : i = d.id
    · rw [if_pos hi, hi]
      exact iff_of_false (by decide) hids.1
    · rw [if_neg hi, h.bits, hsplit]
      simp [hi]

theorem insertNew_spec (hid : m.bitmap.get ID = false)
    (hlt : ID < m.bitmap.bits) (hobject : ∀ e ∈ m.descriptors, e.object ≠ object)
    (he : m.insertNew object type data mode ID = (ok, m')) : m'.Tidy ∧ (ok →
      m'.descriptors = m.descriptors ++ [⟨object, type, data, mode, ID⟩]) := by
  unfold insertNew at he
  split at he
  case isTrue =>
    cases he
    exact ⟨tidy_insert h hid hlt hobject, fun _ => rfl⟩
  case isFalse =>
    cases he
    exact ⟨h, by simp⟩

theorem Tidy.same_get (h' : m'.Tidy)
    (hlist : m'.descriptors = m.descriptors) (i : ℕ) : m'.bitmap.get i = m.bitmap.get i := by
  rw [Bool.eq_iff_iff, h'.bits, h.bits, hlist]

theorem allocate_spec (hroom : m.HasRoom) (hobject : ∀ d ∈ m.descriptors, d.object ≠ object)
    (hb : Bounded krealloc) {r}
    (he : m.allocateFileDescriptor object type data mode krealloc = (r, m')) :
    m'.Tidy ∧ (r = -1 ∨ ∃ ID : ℕ, r = ID ∧ m.bitmap.get ID = false ∧
      m'.descriptors = m.descriptors ++ [⟨object, type, data, mode, ID⟩]) := by
  unfold allocateFileDescriptor at he
  cases hfirst : m.firstClear with
  | some ID =>
    have hlt : ID < m.bitmap.bits := mem_range.1 (mem_of_find?_eq_some hfirst)
    have hclear : m.bitmap.get ID = false := by simpa using find?_some hfirst
    rw [hfirst] at he
    dsimp only at he
    rcases hnew : m.insertNew object type data mode ID with ⟨_ | _, m₁⟩
    · rw [hnew] at he
      cases he
      exact ⟨(insertNew_spec h hclear hlt hobject hnew).1, .inl rfl⟩
    · have hspec := insertNew_spec h hclear hlt hobject hnew
      rw [hnew] at he
      cases he
      exact ⟨hspec.1, .inr ⟨ID, rfl, hclear, hspec.2 rfl⟩⟩
  | none =>
    -- no clear bit, so there is no bit at all
    have hempty : m.bitmap.size = 0 := by
      rcases hroom with hroom | ⟨i, hi, hclear⟩
      · exact hroom
      · have hnone := find?_eq_none.1 hfirst i (mem_range.2 hi)
        simp [hclear] at hnone
    rw [hfirst] at he
    dsimp only at he
    rw [hempty] at he
    have hsize : alignUp (0 + 1) 8 = 8 := by decide
    rw [hsize] at he
    rcases hexp : m.expandBitmap 8 krealloc with ⟨_ | _, m₁⟩
    · have hspec := expandBitmap_spec h ⟨1, rfl⟩ hb hexp
      rw [hexp] at he
      cases he
      exact ⟨hspec.1, .inl rfl⟩
    obtain ⟨htidy, hlist, -, hle⟩ := expandBitmap_spec h ⟨1, rfl⟩ hb hexp
    have hclear : m.bitmap.get 0 = false := get_past_end (by simp [bits, hempty])
    have hlt : 0 < m₁.bitmap.bits := by
      have := hle rfl
      unfold bits
      omega
    rw [hexp] at he
    dsimp only at he
    rcases hnew : m₁.insertNew object type data mode 0 with ⟨_ | _, m₂⟩
    · have hspec := insertNew_spec htidy
        ((h.same_get htidy hlist 0).trans hclear) hlt (hlist ▸ hobject) hnew
      rw [hnew] at he
      cases he
      exact ⟨hspec.1, .inl rfl⟩
    · have hspec := insertNew_spec htidy
        ((h.same_get htidy hlist 0).trans hclear) hlt (hlist ▸ hobject) hnew
      rw [hnew] at he
      cases he
      exact ⟨hspec.1, .inr ⟨0, rfl, hclear, hlist ▸ hspec.2 rfl⟩⟩

theorem reserve_room (hID : ID < 2 ^ 63)
    (hfree : ¬ (m.bitmap.bits > ID ∧ m.bitmap.get ID)) (hb : Bounded krealloc)
    (he : m.expandBitmap (alignUp (ID + 1) 8) krealloc = (ok, m')) :
    m'.Tidy ∧ m'.descriptors = m.descriptors ∧
      (ok → m'.bitmap.get ID = false ∧ ID < m'.bitmap.bits) := by
  obtain ⟨hle, -, hdvd⟩ := alignUp_spec (v := ID + 1) (a := 8) (by decide) (by omega)
  obtain ⟨htidy, hlist, -, hsize⟩ := expandBitmap_spec h hdvd hb he
  refine ⟨htidy, hlist, fun hok => ⟨?_, ?_⟩⟩
  · rw [h.same_get htidy hlist]
    by_contra hset
    rw [Bool.not_eq_false] at hset
    exact hfree ⟨lt_bits_of_get hset, hset⟩
  · have := hsize hok
    unfold bits
    omega

theorem tidy_release (ID : ℤ) : (m.release ID).2.Tidy := by
  unfold release
  cases hget : m.getFileDescriptor ID with
  | none => exact h
  | some d =>
    have hfind : m.descriptors.find? (fun d => (d.id : ℤ) = ID) = some d := by
      unfold getFileDescriptor at hget
      split at hget
      · cases hget
      · exact hget
    have hid : (d.id : ℤ) = ID := by simpa using find?_some hfind
    subst hid
    exact tidy_remove h (mem_of_find?_eq_some hfind)

theorem tidy_call {c} (hp : m.Possible c) (hroom : m.Roomy c) : (m.call c).Tidy := by
  cases c with
  | allocate object type data mode krealloc =>
    exact (allocate_spec h hroom hp.1 hp.2 rfl).1
  | reserve object type data mode ID krealloc =>
    simp only [call, reserveFileDescriptor]
    split
    case isTrue => exact h
    case isFalse hfree =>
      rcases hexp : m.expandBitmap (alignUp (ID + 1) 8) krealloc with ⟨_ | _, m₁⟩
      · exact (reserve_room h hp.2.1 hfree hp.2.2 hexp).1
      · obtain ⟨htidy, hlist, hok⟩ := reserve_room h hp.2.1 hfree hp.2.2 hexp
        exact (insertNew_spec htidy (hok rfl).1 (hok rfl).2
          (hlist ▸ hp.1) rfl).1
  | reserveDescriptor d krealloc =>
    simp only [call, reserveDescriptor]
    split
    case isTrue => exact h
    case isFalse hfree =>
      rcases hexp : m.expandBitmap (alignUp (d.id + 1) 8) krealloc with ⟨_ | _, m₁⟩
      · exact (reserve_room h hp.2.1 hfree hp.2.2 hexp).1
      obtain ⟨htidy, hlist, hok⟩ := reserve_room h hp.2.1 hfree hp.2.2 hexp
      refine tidy_insert htidy (hok rfl).1 (hok rfl).2 ?_
      intro e he heq
      -- the object is in the table only as this descriptor, whose bit would be set
      have hed : e = d := hp.1 e (hlist ▸ he) heq
      have hset : m₁.bitmap.get d.id :=
        (htidy.bits d.id).2 (mem_map_of_mem (hed ▸ he))
      rw [(hok rfl).1] at hset
      cases hset
  | unreserve ID => exact tidy_release h ID
  | free ID => exact tidy_release h ID

end FileDescriptorManager

end

theorem tidy_of_reachable (h : Reachable Roomy m) : m.Tidy := by
  induction h with
  | init => exact tidy_init
  | step _ c hp hm ih => exact tidy_call ih hp hm

theorem FileDescriptorManager.Tidy.exact (h : m.Tidy) : m.Exact := by
  intro i
  have hcount : (m.descriptors.filter fun d => d.id = i).length =
      (m.descriptors.map FileDescriptor.id).count i := by
    rw [List.count, countP_map, countP_eq_length_filter]
    congr 1
  have hle := nodup_iff_count_le_one.1 h.ids i
  rw [h.bits, hcount, ← count_pos_iff]
  omega

theorem FileDescriptorManager.getFileDescriptor_new (h : m.Tidy) (h' : m'.Tidy)
    (hclear : m.bitmap.get d.id = false) (hlist : m'.descriptors = m.descriptors ++ [d]) :
    m'.getFileDescriptor d.id = some d := by
  have hset : m'.bitmap.get d.id := by
    rw [h'.bits, hlist]
    simp
  have hlt := lt_bits_of_get hset
  have hnone : m.descriptors.find? (fun e => (e.id : ℤ) = d.id) = none := by
    rw [find?_eq_none]
    intro e he heq
    rw [decide_eq_true_iff, Int.natCast_inj] at heq
    rw [(h.bits d.id).2 (heq ▸ mem_map_of_mem he)] at hclear
    cases hclear
  rw [getFileDescriptor, if_neg (by omega), hlist, find?_append, hnone]
  simp

/-- As long as every allocation has room, the bitmap marks the live descriptors, and an
allocation returns an identifier that none of them has and that finds the new one. -/
theorem descriptors_exact (h : Reachable Roomy m) :
    m.Exact ∧ ∀ object type data mode krealloc,
      m.Possible (.allocate object type data mode krealloc) → m.HasRoom →
      ∀ r m', m.allocateFileDescriptor object type data mode krealloc = (r, m') → r ≠ -1 →
        (∀ d ∈ m.descriptors, (d.id : ℤ) ≠ r) ∧
          m'.getFileDescriptor r = some ⟨object, type, data, mode, r.toNat⟩ := by
  have htidy := tidy_of_reachable h
  refine ⟨htidy.exact, ?_⟩
  intro object type data mode krealloc hp hroom r m' he hr
  obtain ⟨htidy', hresult⟩ := allocate_spec htidy hroom hp.1 hp.2 he
  obtain ⟨ID, rfl, hclear, hlist⟩ := hresult.resolve_left hr
  refine ⟨?_, getFileDescriptor_new htidy htidy' hclear hlist⟩
  intro d hd heq
  rw [Int.natCast_inj] at heq
  rw [(htidy.bits ID).2 (heq ▸ mem_map_of_mem hd)] at hclear
  cases hclear

def clearedHeap : Krealloc :=
  fun n => if n < 2 ^ 48 then some fun _ => 0 else none

theorem clearedHeap_bounded : Bounded clearedHeap := by
  intro n hn
  exact if_neg (by omega)

def filled : ℕ → FileDescriptorManager
  | 0 => .init
  | n + 1 => (filled n).call (.allocate n .fileStream 0 .read clearedHeap)

theorem descriptors_exact_filled : (filled 1).Exact :=
  (descriptors_exact (.step .init (.allocate 0 .fileStream 0 .read clearedHeap)
    ⟨fun _ hd => absurd hd not_mem_nil, clearedHeap_bounded⟩ (.inl rfl))).1

namespace FileDescriptorManager

theorem expandBitmap_descriptors (newSize : ℕ) (krealloc : Krealloc) :
    (m.expandBitmap newSize krealloc).2.descriptors = m.descriptors := by
  fun_cases expandBitmap m newSize krealloc <;> rfl

theorem insertNew_object (he : e ∈ (m.insertNew object type data mode ID).2.descriptors) :
    e ∈ m.descriptors ∨ e.object = object := by
  unfold insertNew at he
  split at he
  · rcases mem_append.1 he with he | he
    · exact .inl he
    · rw [mem_singleton] at he
      exact .inr (by rw [he])
  · exact .inl he

theorem allocate_object
    (he : e ∈ (m.allocateFileDescriptor object type data mode krealloc).2.descriptors) :
    e ∈ m.descriptors ∨ e.object = object := by
  unfold allocateFileDescriptor at he
  cases hfirst : m.firstClear with
  | some ID =>
    rw [hfirst] at he
    have hmem : e ∈ (m.insertNew object type data mode ID).2.descriptors := by
      rcases hnew : m.insertNew object type data mode ID with ⟨_ | _, m₁⟩ <;>
        simpa [hnew] using he
    exact insertNew_object hmem
  | none =>
    rw [hfirst] at he
    have hlist := expandBitmap_descriptors (m := m)
      (alignUp (m.bitmap.size + 1) 8) krealloc
    rcases hexp : m.expandBitmap (alignUp (m.bitmap.size + 1) 8) krealloc with ⟨_ | _, m₁⟩
    · rw [hexp] at hlist
      simp only [hexp] at he
      exact .inl (hlist ▸ he)
    rw [hexp] at hlist
    simp only [hexp] at he
    rw [← show m₁.descriptors = m.descriptors from hlist]
    apply insertNew_object
    rcases hnew : m₁.insertNew object type data mode m.bitmap.size with ⟨_ | _, m₂⟩ <;>
      simpa [hnew] using he

end FileDescriptorManager

theorem filled_objects (n : ℕ) : ∀ d ∈ (filled n).descriptors, d.object < n := by
  induction n with
  | zero => simp [filled, init]
  | succ n ih =>
    intro d hd
    rcases allocate_object hd with hd | hd
    · have := ih d hd
      omega
    · omega

theorem filled_reachable (n : ℕ) : Reachable (fun _ _ => True) (filled n) := by
  induction n with
  | zero => exact .init
  | succ n ih =>
    refine .step ih _ ⟨?_, clearedHeap_bounded⟩ trivial
    intro d hd
    have := filled_objects n d hd
    omega

/-- The descriptor after the 64th is given the identifier eight a second time. -/
theorem filled_not_exact : Reachable (fun _ _ => True) (filled 65) ∧ ¬ (filled 65).Exact := by
  refine ⟨filled_reachable 65, ?_⟩
  intro h
  have htwo : (filled 65).bitmap.get 8 = true ∧
      ((filled 65).descriptors.filter fun d => d.id = 8).length = 2 := by
    decide +kernel
  have hone := (h 8).1 htwo.1
  omega

end FileDescriptors
