import Mathlib.Data.Finset.Card
import FrostyOS.Bitmap
import FrostyOS.PageTables

/-! # Where page objects come from

Page objects are slots of a static array, or come from `new`. A slot comes back as its last
user left it, an object from `new` is zeroed. -/

open MachineWord PageTables

inductive ObjectPointer where
  /-- `&g_PageObjectPool[i]`. -/
  | pool (i : ℕ)
  | heap (addr : ℕ)
  deriving DecidableEq, Repr

/-- `struct PageObject`, with the pointer by which the objects of a manager are linked. -/
structure ObjectNode where
  virtualAddress : ℕ
  pageCount : ℕ
  flags : BitVec 64
  perms : PagePermissions
  next : Option ObjectPointer
  deriving DecidableEq

namespace ObjectNode

def zeroed : ObjectNode := ⟨0, 0, 0, .read, none⟩

def poUser : BitVec 64 := 0b00001

def poAllocated : BitVec 64 := 0b00100

def poInuse : BitVec 64 := 0b01000

def poStandby : BitVec 64 := 0b10000

def setFlag (o : ObjectNode) (flag : BitVec 64) : ObjectNode := { o with flags := o.flags ||| flag }

def unsetFlag (o : ObjectNode) (flag : BitVec 64) : ObjectNode :=
  { o with flags := o.flags &&& ~~~flag }

def hasFlag (o : ObjectNode) (flag : BitVec 64) : Bool := decide (o.flags &&& flag ≠ 0)

end ObjectNode

/-- `new` and `delete` as the page managers use them. An allocation that finds the heap
exhausted panics. -/
structure NewDelete (H : Type) where
  initialised : H → Bool
  new : H → Option (H × Option ℕ)
  delete : H → ℕ → H

structure ObjectMemory (H : Type) where
  node : ObjectPointer → ObjectNode
  bitmap : Bitmap
  usedCount : ℕ
  hasBeenInitialised : Bool
  heap : H

namespace ObjectMemory

open List

def poolSize : ℕ := 64

variable {H : Type} (N : NewDelete H) (m : ObjectMemory H)

/-- `PageObjectPool_Init`; its `memset` is over eight bytes. -/
def poolInit : ObjectMemory H :=
  { m with
    node := Function.update m.node (.pool 0) { m.node (.pool 0) with virtualAddress := 0 }
    bitmap := { m.bitmap with size := poolSize / 8 }
    usedCount := 0
    hasBeenInitialised := true }

/-- The first slot whose bit is clear; the loop looks at one bit more than there are. -/
def clearSlot : Option ℕ := (range (poolSize + 1)).find? fun i => m.bitmap.get i = false

def takeSlot (i : ℕ) : ObjectMemory H :=
  { m with bitmap := m.bitmap.set i true, usedCount := u64 (m.usedCount + 1) }

def poolAllocate : ObjectMemory H × Option ObjectPointer :=
  if m.hasBeenInitialised = false then (m, none)
  else if m.usedCount = poolSize then (m, none)
  else
    match m.clearSlot with
    | some i => (m.takeSlot i, some (.pool i))
    | none => (m, none)

def poolFree (i : ℕ) : ObjectMemory H :=
  if m.hasBeenInitialised = false then m
  else if m.usedCount = 0 then m
  else { m with bitmap := m.bitmap.set i false, usedCount := subWord m.usedCount 1 }

def isInPool : ObjectPointer → Bool
  | .pool i => decide (i < poolSize)
  | .heap _ => false

def newObject : Option (ObjectMemory H × Option ObjectPointer) :=
  match N.new m.heap with
  | none => none
  | some (heap, none) => some ({ m with heap }, none)
  | some (heap, some addr) =>
    some ({ m with heap, node := Function.update m.node (.heap addr) .zeroed }, some (.heap addr))

def create : Option (ObjectMemory H × Option ObjectPointer) :=
  if N.initialised m.heap then m.newObject N else some m.poolAllocate

def operatorDelete : ObjectPointer → ObjectMemory H
  | .pool _ => m
  | .heap addr => if N.initialised m.heap then { m with heap := N.delete m.heap addr } else m

def destroy (p : ObjectPointer) : ObjectMemory H :=
  match p with
  | .pool i => if isInPool (.pool i) then m.poolFree i else m.operatorDelete N (.pool i)
  | .heap addr => m.operatorDelete N (.heap addr)

def write (p : ObjectPointer) (o : ObjectNode) : ObjectMemory H :=
  { m with node := Function.update m.node p o }

section Ownership

/-- What is expected of `new` and `delete`: an address is handed out once until it comes
back, and blocks lie 16 bytes apart. -/
structure HeapLaws (N : NewDelete H) (Live : H → ℕ → Prop) : Prop where
  new_none : ∀ h h', N.new h = some (h', none) → ∀ a, Live h' a ↔ Live h a
  new_some : ∀ h h' a, N.new h = some (h', some a) → ¬ Live h a ∧ ∀ b, Live h' b ↔ b = a ∨ Live h b
  delete_live : ∀ h a b, Live (N.delete h a) b ↔ Live h b ∧ b ≠ a
  aligned : ∀ h a, Live h a → 16 ∣ a ∧ a < 2 ^ 64
  new_initialised : ∀ h h' a, N.new h = some (h', a) → N.initialised h' = N.initialised h
  delete_initialised : ∀ h a, N.initialised (N.delete h a) = N.initialised h

def Owned (Live : H → ℕ → Prop) (m : ObjectMemory H) : ObjectPointer → Prop
  | .pool i => m.bitmap.get i = true
  | .heap addr => Live m.heap addr

def takenSlots (m : ObjectMemory H) : Finset ℕ :=
  (Finset.range poolSize).filter fun i => m.bitmap.get i = true

/-- The bitmap has a bit for each slot, and as many are set as are counted. -/
structure PoolIntact (m : ObjectMemory H) : Prop where
  initialised : m.hasBeenInitialised = true
  bits : m.bitmap.size = poolSize / 8
  counted : m.usedCount = (takenSlots m).card

variable {N m} {m' : ObjectMemory H} {Live : H → ℕ → Prop} {i : ℕ} {p q : ObjectPointer}

theorem mem_takenSlots : i ∈ m.takenSlots ↔ i < poolSize ∧ m.bitmap.get i := by
  rw [takenSlots, Finset.mem_filter, Finset.mem_range]

namespace PoolIntact

variable (hI : m.PoolIntact)

include hI

theorem bits_eq : m.bitmap.bits = poolSize := by
  rw [Bitmap.bits, hI.bits]
  rfl

theorem get_set (hi : i < poolSize) (v : Bool) (j : ℕ) :
    (m.bitmap.set i v).get j = if j = i then v else m.bitmap.get j :=
  Bitmap.get_set (by rwa [hI.bits_eq])

theorem slot_lt (h : m.bitmap.get i) : i < poolSize := by
  rw [← hI.bits_eq]
  exact Bitmap.lt_bits_of_get h

theorem usedCount_le : m.usedCount ≤ poolSize := by
  have hle := Finset.card_filter_le (Finset.range poolSize) fun i => m.bitmap.get i = true
  rw [hI.counted]
  rwa [Finset.card_range] at hle

theorem exists_clear (hfull : m.usedCount ≠ poolSize) : ∃ i < poolSize, m.bitmap.get i = false := by
  by_contra hnone
  push Not at hnone
  apply hfull
  rw [hI.counted, takenSlots, Finset.filter_true_of_mem, Finset.card_range]
  intro i hi
  simpa using hnone i (Finset.mem_range.mp hi)

theorem takenSlots_takeSlot (hi : i < poolSize) :
    (m.takeSlot i).takenSlots = insert i m.takenSlots := by
  ext j
  rw [Finset.mem_insert, mem_takenSlots, mem_takenSlots, ObjectMemory.takeSlot,
    hI.get_set hi true j]
  by_cases hj : j = i
  · simp [hj, hi]
  · simp [hj]

theorem takeSlot (hi : i < poolSize) (hclear : m.bitmap.get i = false) :
    (m.takeSlot i).PoolIntact := by
  have hmem : i ∉ m.takenSlots := by simp [mem_takenSlots, hclear]
  have hle := hI.usedCount_le
  refine ⟨hI.initialised, hI.bits, ?_⟩
  rw [hI.takenSlots_takeSlot hi, Finset.card_insert_of_notMem hmem, ← hI.counted]
  apply u64_of_lt
  unfold poolSize at hle
  omega

theorem poolFree (hget : m.bitmap.get i) : (m.poolFree i).PoolIntact ∧
    (∀ j, (m.poolFree i).bitmap.get j = if j = i then false else m.bitmap.get j) ∧
      (m.poolFree i).node = m.node ∧ (m.poolFree i).heap = m.heap := by
  have hi := hI.slot_lt hget
  have hmem : i ∈ m.takenSlots := mem_takenSlots.mpr ⟨hi, hget⟩
  have hpos : 0 < m.usedCount := by
    rw [hI.counted]
    exact Finset.card_pos.mpr ⟨i, hmem⟩
  have hle := hI.usedCount_le
  have heq : m.poolFree i =
      { m with bitmap := m.bitmap.set i false, usedCount := subWord m.usedCount 1 } := by
    rw [ObjectMemory.poolFree, if_neg (by simp [hI.initialised]), if_neg (ne_of_gt hpos)]
  have hslots : (m.poolFree i).takenSlots = m.takenSlots.erase i := by
    ext j
    rw [Finset.mem_erase, mem_takenSlots, mem_takenSlots, heq, hI.get_set hi false j]
    by_cases hj : j = i
    · simp [hj]
    · simp [hj]
  refine ⟨⟨?_, ?_, ?_⟩, ?_, ?_, ?_⟩
  · rw [heq]
    exact hI.initialised
  · rw [heq]
    exact hI.bits
  · rw [hslots, Finset.card_erase_of_mem hmem, ← hI.counted, heq]
    apply subWord_of_le _ hpos
    unfold poolSize at hle
    omega
  · intro j
    rw [heq]
    exact hI.get_set hi false j
  · rw [heq]
  · rw [heq]

theorem poolAllocate_cases : m.usedCount = poolSize ∧ m.poolAllocate = (m, none) ∨
    m.usedCount ≠ poolSize ∧ ∃ i < poolSize, m.bitmap.get i = false ∧ m.clearSlot = some i ∧
      m.poolAllocate = (m.takeSlot i, some (.pool i)) := by
  by_cases hfull : m.usedCount = poolSize
  · refine .inl ⟨hfull, ?_⟩
    rw [poolAllocate, if_neg (by simp [hI.initialised]), if_pos hfull]
  obtain ⟨j, hj, hclear⟩ := hI.exists_clear hfull
  have hsome : ((range poolSize).find? fun i => m.bitmap.get i = false).isSome := by
    rw [find?_isSome]
    exact ⟨j, mem_range.mpr hj, by simpa using hclear⟩
  obtain ⟨i, hfind⟩ := Option.isSome_iff_exists.mp hsome
  have hslot : m.clearSlot = some i := by
    rw [clearSlot, range_succ, find?_append, hfind, Option.some_or]
  refine .inr ⟨hfull, i, mem_range.mp (mem_of_find?_eq_some hfind), ?_, hslot, ?_⟩
  · simpa using find?_some hfind
  · rw [poolAllocate, if_neg (by simp [hI.initialised]), if_neg hfull, hslot]

end PoolIntact

/-- Runs of the pool alone, with the slots that are handed out. -/
inductive PoolRun : ObjectMemory H → Finset ℕ → Prop where
  | init (m : ObjectMemory H) (hzero : ∀ i, m.bitmap.buffer i = 0) : PoolRun m.poolInit ∅
  | allocate {m m' : ObjectMemory H} {live i} (hr : PoolRun m live)
      (h : m.poolAllocate = (m', some (.pool i))) : PoolRun m' (insert i live)
  | refuse {m m' : ObjectMemory H} {live} (hr : PoolRun m live)
      (h : m.poolAllocate = (m', none)) : PoolRun m' live
  | free {m : ObjectMemory H} {live i} (hr : PoolRun m live) (hi : i ∈ live) :
      PoolRun (m.poolFree i) (live.erase i)

theorem PoolRun.intact {live} (hr : PoolRun m live) :
    m.PoolIntact ∧ live = m.takenSlots := by
  induction hr with
  | init m hzero =>
    have hnone : ∅ = m.poolInit.takenSlots := by
      simp [takenSlots, poolInit, Bitmap.get, hzero]
    exact ⟨⟨rfl, rfl, by rw [← hnone]; rfl⟩, hnone⟩
  | allocate _ h ih =>
    obtain ⟨hI, rfl⟩ := ih
    rcases hI.poolAllocate_cases with ⟨-, hno⟩ | ⟨-, i, hi, hclear, -, hyes⟩
    · cases hno.symm.trans h
    · cases hyes.symm.trans h
      exact ⟨hI.takeSlot hi hclear, (hI.takenSlots_takeSlot hi).symm⟩
  | refuse _ h ih =>
    rcases ih.1.poolAllocate_cases with ⟨-, hno⟩ | ⟨-, i, -, -, -, hyes⟩
    · cases hno.symm.trans h
      exact ih
    · cases hyes.symm.trans h
  | free _ hi ih =>
    obtain ⟨hI, rfl⟩ := ih
    obtain ⟨hI', hget, -⟩ := hI.poolFree (mem_takenSlots.mp hi).2
    refine ⟨hI', ?_⟩
    ext j
    rw [Finset.mem_erase, mem_takenSlots, mem_takenSlots, hget]
    split <;> simp_all

structure Unchanged (Live : H → ℕ → Prop) (m m' : ObjectMemory H) : Prop where
  node : m'.node = m.node
  owned : ∀ q, m'.Owned Live q ↔ m.Owned Live q
  intact : m'.PoolIntact

structure Created (Live : H → ℕ → Prop) (m m' : ObjectMemory H) (p : ObjectPointer) : Prop where
  fresh : ¬ m.Owned Live p
  owned : ∀ q, m'.Owned Live q ↔ q = p ∨ m.Owned Live q
  node : ∀ q, q ≠ p → m'.node q = m.node q
  intact : m'.PoolIntact

theorem takeSlot_created (Live : H → ℕ → Prop) (hI : m.PoolIntact) (hi : i < poolSize)
    (hclear : m.bitmap.get i = false) : Created Live m (m.takeSlot i) (.pool i) := by
  refine ⟨by simp [Owned, hclear], ?_, fun _ _ => rfl, hI.takeSlot hi hclear⟩
  intro q
  cases q with
  | pool j =>
    have hget := hI.get_set hi true j
    simp only [Owned, takeSlot, hget, ObjectPointer.pool.injEq]
    by_cases hj : j = i
    · simp [hj]
    · simp [hj]
  | heap a => simp [Owned, takeSlot]

variable {r : Option ObjectPointer}

theorem newObject_cases (hN : HeapLaws N Live) (hI : m.PoolIntact)
    (h : m.newObject N = some (m', r)) :
    r = none ∧ Unchanged Live m m' ∨
      ∃ a, r = some (.heap a) ∧ Created Live m m' (.heap a) ∧ m'.node (.heap a) = .zeroed := by
  unfold newObject at h
  cases hnew : N.new m.heap with
  | none => simp [hnew] at h
  | some pair =>
    obtain ⟨heap, addr⟩ := pair
    rw [hnew] at h
    cases addr with
    | none =>
      cases h
      refine .inl ⟨rfl, rfl, fun q => ?_, ⟨hI.initialised, hI.bits, hI.counted⟩⟩
      cases q with
      | pool i => rfl
      | heap a => exact hN.new_none _ _ hnew a
    | some a =>
      cases h
      obtain ⟨hfresh, hlive⟩ := hN.new_some _ _ _ hnew
      refine .inr ⟨a, rfl, ⟨hfresh, fun q => ?_, fun q hq => ?_, ?_⟩, ?_⟩
      · cases q with
        | pool i => simp [Owned]
        | heap b => simp [Owned, hlive]
      · exact Function.update_of_ne hq _ _
      · exact ⟨hI.initialised, hI.bits, hI.counted⟩
      · exact Function.update_self _ _ _

theorem create_pool (hI : m.PoolIntact) (hinit : N.initialised m.heap = false)
    (h : m.create N = some (m', some p)) :
    ∃ i, m.clearSlot = some i ∧ p = .pool i ∧ m' = m.takeSlot i := by
  rw [create, if_neg (by simp [hinit])] at h
  rcases hI.poolAllocate_cases with ⟨-, hfull⟩ | ⟨-, i, -, -, hslot, heq⟩
  · cases hfull.symm.trans (Option.some.inj h)
  · obtain ⟨rfl, hp⟩ := Prod.mk.inj (heq.symm.trans (Option.some.inj h))
    exact ⟨i, hslot, (Option.some.inj hp).symm, rfl⟩

theorem create_cases (hN : HeapLaws N Live) (hI : m.PoolIntact) (h : m.create N = some (m', r)) :
    r = none ∧ Unchanged Live m m' ∨ ∃ p, r = some p ∧ Created Live m m' p := by
  unfold create at h
  split at h
  · rcases newObject_cases hN hI h with hnone | ⟨a, rfl, hc, -⟩
    · exact .inl hnone
    · exact .inr ⟨_, rfl, hc⟩
  obtain hp := Option.some.inj h
  rcases hI.poolAllocate_cases with ⟨-, hfull⟩ | ⟨-, i, hi, hclear, -, hslot⟩
  · cases hfull.symm.trans hp
    exact .inl ⟨rfl, rfl, fun _ => Iff.rfl, hI⟩
  · cases hslot.symm.trans hp
    exact .inr ⟨_, rfl, takeSlot_created Live hI hi hclear⟩

theorem destroy_spec (hN : HeapLaws N Live) (hI : m.PoolIntact) (hp : m.Owned Live p) :
    (m.destroy N p).PoolIntact ∧ (m.destroy N p).node = m.node ∧
      ∀ q, q ≠ p → ((m.destroy N p).Owned Live q ↔ m.Owned Live q) := by
  cases p with
  | pool i =>
    have hget : m.bitmap.get i := hp
    obtain ⟨hI', hbits, hnode, hheap⟩ := hI.poolFree hget
    have heq : m.destroy N (.pool i) = m.poolFree i := if_pos (decide_eq_true (hI.slot_lt hget))
    rw [heq]
    refine ⟨hI', hnode, fun q hq => ?_⟩
    cases q with
    | pool j =>
      have hj : j ≠ i := fun hji => hq (by rw [hji])
      simp [Owned, hbits, hj]
    | heap a => simp [Owned, hheap]
  | heap a =>
    simp only [destroy, operatorDelete]
    split
    · refine ⟨⟨hI.initialised, hI.bits, hI.counted⟩, rfl, fun q hq => ?_⟩
      cases q with
      | pool j => rfl
      | heap b =>
        have hb : b ≠ a := fun hba => hq (by rw [hba])
        simp [Owned, hN.delete_live, hb]
    · exact ⟨hI, rfl, fun _ _ => Iff.rfl⟩

theorem poolAllocate_heap : m.poolAllocate.1.heap = m.heap := by
  unfold poolAllocate
  split
  · rfl
  · split
    · rfl
    · split <;> rfl

theorem create_initialised (hN : HeapLaws N Live) (h : m.create N = some (m', r)) :
    N.initialised m'.heap = N.initialised m.heap := by
  unfold create at h
  split at h
  · unfold newObject at h
    split at h
    · cases h
    · rename_i hnew
      cases h
      exact hN.new_initialised _ _ _ hnew
    · rename_i hnew
      cases h
      exact hN.new_initialised _ _ _ hnew
  · have hm : m.poolAllocate.1 = m' := congrArg Prod.fst (Option.some.inj h)
    rw [← hm, poolAllocate_heap]

/-- Numbers the objects: the slots, and behind them the blocks of the heap. -/
def ordinal : ObjectPointer → ℕ
  | .pool i => i
  | .heap a => poolSize + a / 16

theorem owned_length (hN : HeapLaws N Live) (hI : m.PoolIntact) {l : List ObjectPointer}
    (hnd : l.Nodup) (hl : ∀ p ∈ l, m.Owned Live p) : l.length ≤ poolSize + 2 ^ 60 := by
  have hlt : ∀ p ∈ l, ordinal p < poolSize + 2 ^ 60 := by
    intro p hp
    have howned := hl p hp
    cases p with
    | pool i =>
      have := hI.slot_lt howned
      exact Nat.lt_add_right _ this
    | heap a =>
      have := (hN.aligned _ a howned).2
      simp only [ordinal]
      omega
  have hinj : ∀ p ∈ l, ∀ q ∈ l, ordinal p = ordinal q → p = q := by
    intro p hp q hq heq
    have hop := hl p hp
    have hoq := hl q hq
    cases p with
    | pool i =>
      have hi := hI.slot_lt hop
      cases q with
      | pool j => exact congrArg _ heq
      | heap b =>
        simp only [ordinal] at heq
        omega
    | heap a =>
      have ha := (hN.aligned _ a hop).1
      cases q with
      | pool j =>
        have hj := hI.slot_lt hoq
        simp only [ordinal] at heq
        omega
      | heap b =>
        have hb := (hN.aligned _ b hoq).1
        simp only [ordinal] at heq
        congr 1
        omega
  have hmap : (l.map ordinal).Nodup := by
    rw [nodup_map_iff_inj_on hnd]
    exact hinj
  have hsub : (l.map ordinal).toFinset ⊆ Finset.range (poolSize + 2 ^ 60) := by
    intro n hn
    obtain ⟨p, hp, rfl⟩ := mem_map.mp (mem_toFinset.mp hn)
    exact Finset.mem_range.mpr (hlt p hp)
  have hcard := Finset.card_le_card hsub
  rw [toFinset_card_of_nodup hmap, length_map, Finset.card_range] at hcard
  exact hcard

end Ownership

end ObjectMemory
