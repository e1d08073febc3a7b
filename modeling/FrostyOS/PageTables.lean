import FrostyOS.MachineWord
import FrostyOS.RadixTable

/-! # Four-level page tables

The functions of `PageMapIndexer.cpp` on entries as 64-bit words. Memory holds pages of 512
entries by their address; the frame allocator is a parameter. -/
namespace PageTables

open MachineWord RadixTable

abbrev Entry := BitVec 64

abbrev Index := Fin 512

abbrev Memory := Store ℕ Index Entry

inductive PagePermissions where
  | read
  | write
  | execute
  | readWrite
  | readExecute
  deriving DecidableEq, Repr

def decodePageFlags (mode : Bool) (perms : PagePermissions) : BitVec 32 :=
  let pagePerms : BitVec 32 := if mode then 1 ||| 4 else 1
  match perms with
  | .read => pagePerms ||| 0x8000000
  | .write | .readWrite => pagePerms ||| 0x8000002
  | .execute | .readExecute => pagePerms

section Entries

def presentBit (e : Entry) : Bool := e.getLsbD 0

def readWriteBit (e : Entry) : Bool := e.getLsbD 1

def userSuperBit (e : Entry) : Bool := e.getLsbD 2

def pageSizeBit (e : Entry) : Bool := e.getLsbD 7

def executeDisableBit (e : Entry) : Bool := e.getLsbD 63

def address (e : Entry) : BitVec 40 := e.extractLsb' 12 40

def setAddress (e : Entry) (a : BitVec 40) : Entry :=
  (e &&& ~~~0x000FFFFFFFFFF000#64) ||| (a.setWidth 64 <<< 12)

def setPresent (e : Entry) : Entry := e ||| 1#64

def clearPresent (e : Entry) : Entry := e &&& ~~~1#64

def largeAddress (e : Entry) : BitVec 31 := e.extractLsb' 21 31

def setLargeAddress (e : Entry) (a : BitVec 31) : Entry :=
  (e &&& ~~~0x000FFFFFFFE00000#64) ||| (a.setWidth 64 <<< 21)

def setPageSize (e : Entry) : Entry := e ||| 0x80#64

def spreadFlags (low high flags : BitVec 32) : Entry :=
  (flags &&& low).setWidth 64 ||| ((flags &&& high).setWidth 64 <<< 36)

def upperFlags (flags : BitVec 32) : Entry := spreadFlags 0x0FFF 0x07FF0000 flags

def leafFlags (flags : BitVec 32) : Entry := spreadFlags 0x0FFF 0x0FFF0000 flags

def largeFlags (flags : BitVec 32) : Entry := spreadFlags 0x1FFF 0x0FFF0000 flags

def tableEntry (flags : BitVec 32) (a : BitVec 40) : Entry :=
  setAddress (setPresent (upperFlags flags)) a

def leafEntry (flags : BitVec 32) (a : BitVec 40) : Entry := setAddress (leafFlags flags) a

def remappedEntry (flags : BitVec 32) (e : Entry) : Entry :=
  leafFlags flags ||| ((address e).setWidth 64 <<< 12 &&& 0x000FFFFFFFFFF000#64)

end Entries

section Addresses

theorem masked_index_lt (shift v : ℕ) : (v &&& (0x1FF <<< shift)) >>> shift < 512 := by
  rw [Nat.shiftRight_and_distrib, Nat.shiftLeft_shiftRight]
  exact lt_of_le_of_lt Nat.and_le_right (by decide)

def tableIndex (shift v : ℕ) : Index :=
  ⟨(v &&& (0x1FF <<< shift)) >>> shift, masked_index_lt shift v⟩

def ptIndex (v : ℕ) : Index := tableIndex 12 v

def pdIndex (v : ℕ) : Index := tableIndex 21 v

def pdpIndex (v : ℕ) : Index := tableIndex 30 v

def pml4Index (v : ℕ) : Index := tableIndex 39 v

def clearLow (bits v : ℕ) : ℕ := v >>> bits <<< bits

def gib (n : ℕ) : ℕ := n * 2 ^ 30

/-- Where the kernel image and the direct map of physical memory lie. -/
structure Layout where
  kernelPhysical : ℕ
  kernelVirtual : ℕ
  kernelLength : ℕ
  hhdmStart : ℕ

variable (L : Layout)

def toHHDM (physaddr : ℕ) : ℕ :=
  if physaddr < 0x1000 then 0
  else if gib 512 - 1 < physaddr then physaddr
  else u64 (physaddr + L.hhdmStart)

def tableOf (e : Entry) : ℕ := toHHDM L ((address e).toNat <<< 12)

def inKernel (v : ℕ) : Prop := L.kernelVirtual ≤ v ∧ v < u64 (L.kernelVirtual + L.kernelLength)

def inHHDM (v : ℕ) : Prop := L.hhdmStart ≤ v ∧ v < u64 (L.hhdmStart + gib 4)

instance (v : ℕ) : Decidable (inKernel L v) := inferInstanceAs (Decidable (_ ∧ _))

instance (v : ℕ) : Decidable (inHHDM L v) := inferInstanceAs (Decidable (_ ∧ _))

def getPhysaddr (m : Memory) (root v : ℕ) : ℕ :=
  if inKernel L v then u64 (subWord v L.kernelVirtual + L.kernelPhysical)
  else if inHHDM L v then subWord v L.hhdmStart
  else
    let pml4 := m root (pml4Index v)
    if presentBit pml4 = false then 0
    else
      let pml3 := m (tableOf L pml4) (pdpIndex v)
      if presentBit pml3 = false then 0
      else
        let pml2 := m (tableOf L pml3) (pdIndex v)
        if presentBit pml2 = false then 0
        else if pageSizeBit pml2 then
          (largeAddress pml2).toNat <<< 21 ||| (ptIndex v).val <<< 12 ||| (v &&& 0xFFF)
        else
          let pml1 := m (tableOf L pml2) (ptIndex v)
          if presentBit pml1 = false then 0
          else (address pml1).toNat <<< 12 ||| (v &&& 0xFFF)

end Addresses

/-- The frame allocator as the page tables see it. -/
structure FrameSource (A : Type*) where
  allocatePage : A → ℕ × A
  freePage : A → ℕ → A

structure Machine (A : Type*) where
  memory : Memory
  ppfa : A

variable {A : Type*} (L : Layout) (S : FrameSource A)

def Machine.store (m : Machine A) (table : ℕ) (i : Index) (e : Entry) : Machine A :=
  { m with memory := write m.memory table i e }

/-- One level of a mapping: the entry gets a zeroed table if it has none, and the flags if
it has one. The entry comes back as it was read or created. -/
def enter (flags : BitVec 32) (m : Machine A) (table : ℕ) (i : Index) : Machine A × Entry :=
  let e := m.memory table i
  if presentBit e = false then
    let (frame, ppfa) := S.allocatePage m.ppfa
    let e := tableEntry flags (BitVec.ofNat 40 (frame >>> 12))
    (Machine.store ⟨fill m.memory (tableOf L e) 0, ppfa⟩ table i e, e)
  else (m.store table i (e ||| upperFlags flags), e)

def mapPageNoflush (root physaddr virtualaddr : ℕ) (flags : BitVec 32) (m : Machine A) :
    Machine A :=
  let physical := clearLow 12 physaddr
  let v := clearLow 12 virtualaddr
  let (m, pml4) := enter L S flags m root (pml4Index v)
  let (m, pml3) := enter L S flags m (tableOf L pml4) (pdpIndex v)
  let (m, pml2) := enter L S flags m (tableOf L pml3) (pdIndex v)
  if pageSizeBit pml2 then m
  else m.store (tableOf L pml2) (ptIndex v) (leafEntry flags (BitVec.ofNat 40 (physical >>> 12)))

/-- The scan of the 512 entries of a table. -/
def inUse (m : Memory) (group : ℕ) : Bool := (List.finRange 512).any fun i => presentBit (m group i)

/-- If the table behind an entry has no present entry, it goes back and the entry loses
its Present bit. -/
def releaseUnused (m : Machine A) (table : ℕ) (i : Index) : Machine A :=
  let group := tableOf L (m.memory table i)
  if inUse m.memory group then m
  else Machine.store ⟨m.memory, S.freePage m.ppfa group⟩ table i (clearPresent (m.memory table i))

def unmapPageNoflush (root virtualaddr : ℕ) (m : Machine A) : Machine A :=
  let v := clearLow 12 virtualaddr
  let pml4 := m.memory root (pml4Index v)
  if presentBit pml4 = false then m
  else
    let pml3 := m.memory (tableOf L pml4) (pdpIndex v)
    if presentBit pml3 = false then m
    else
      let pml2 := m.memory (tableOf L pml3) (pdIndex v)
      if presentBit pml2 = false ∨ pageSizeBit pml2 then m
      else
        let m := m.store (tableOf L pml2) (ptIndex v) 0
        let m := releaseUnused L S m (tableOf L pml3) (pdIndex v)
        let m := releaseUnused L S m (tableOf L pml4) (pdpIndex v)
        releaseUnused L S m root (pml4Index v)

def remapPageNoflush (root virtualaddr : ℕ) (flags : BitVec 32) (m : Machine A) : Machine A :=
  let v := clearLow 12 virtualaddr
  let pml4 := m.memory root (pml4Index v)
  if presentBit pml4 = false then m
  else
    let m := m.store root (pml4Index v) (pml4 ||| upperFlags flags)
    let pml3 := m.memory (tableOf L pml4) (pdpIndex v)
    if presentBit pml3 = false then m
    else
      let m := m.store (tableOf L pml4) (pdpIndex v) (pml3 ||| upperFlags flags)
      let pml2 := m.memory (tableOf L pml3) (pdIndex v)
      if presentBit pml2 = false then m
      else
        let m := m.store (tableOf L pml3) (pdIndex v) (pml2 ||| upperFlags flags)
        if pageSizeBit pml2 then m
        else
          let pml1 := m.memory (tableOf L pml2) (ptIndex v)
          m.store (tableOf L pml2) (ptIndex v) (remappedEntry flags pml1)

def mapLargePageNoflush (root physaddr virtualaddr : ℕ) (flags : BitVec 32) (m : Machine A) :
    Machine A :=
  let physical := clearLow 21 physaddr
  let v := clearLow 21 virtualaddr
  let (m, pml4) := enter L S flags m root (pml4Index v)
  let (m, pml3) := enter L S flags m (tableOf L pml4) (pdpIndex v)
  m.store (tableOf L pml3) (pdIndex v)
    (setPageSize (setLargeAddress (largeFlags flags) (BitVec.ofNat 31 (physical >>> 21))))

def unmapLargePageNoflush (root virtualaddr : ℕ) (m : Machine A) : Machine A :=
  let v := clearLow 21 virtualaddr
  let pml4 := m.memory root (pml4Index v)
  if presentBit pml4 = false then m
  else
    let t := tableOf L pml4
    let pml3 := m.memory t (pdpIndex v)
    if presentBit pml3 = false then m
    else
      let m := m.store (tableOf L pml3) (pdIndex v) 0
      let m := releaseUnused L S m t (pdpIndex v)
      -- the source clears the Present bit of the same entry again, not the one above
      let group := tableOf L (m.memory root (pml4Index v))
      if inUse m.memory group then m
      else Machine.store ⟨m.memory, S.freePage m.ppfa group⟩ t (pdpIndex v)
        (clearPresent (m.memory t (pdpIndex v)))

/-- The entry of the page is rebuilt like one of the last level, whatever it was. -/
def remapLargePageNoflush (root virtualaddr : ℕ) (flags : BitVec 32) (m : Machine A) : Machine A :=
  let v := clearLow 21 virtualaddr
  let pml4 := m.memory root (pml4Index v)
  if presentBit pml4 = false then m
  else
    let m := m.store root (pml4Index v) (pml4 ||| upperFlags flags)
    let pml3 := m.memory (tableOf L pml4) (pdpIndex v)
    if presentBit pml3 = false then m
    else
      let m := m.store (tableOf L pml4) (pdpIndex v) (pml3 ||| upperFlags flags)
      let pml2 := m.memory (tableOf L pml3) (pdIndex v)
      m.store (tableOf L pml3) (pdIndex v) (remappedEntry flags pml2)

section Bits

variable {e : Entry} {flags : BitVec 32} {k : ℕ}

theorem getLsbD_spreadFlags (low high : BitVec 32) :
    (spreadFlags low high flags).getLsbD k = (k < 32 && (flags.getLsbD k && low.getLsbD k) ||
        (36 ≤ k && k < 64 && (flags.getLsbD (k - 36) && high.getLsbD (k - 36)))) := by
  simp only [spreadFlags, BitVec.getLsbD_or, BitVec.getLsbD_setWidth, BitVec.getLsbD_and,
    BitVec.getLsbD_shiftLeft]
  grind

theorem getLsbD_addressMask : (0x000FFFFFFFFFF000#64).getLsbD k = decide (12 ≤ k ∧ k < 52) := by
  have hmask : 0x000FFFFFFFFFF000#64 = (BitVec.allOnes 40).setWidth 64 <<< 12 := by decide
  simp only [hmask, BitVec.getLsbD_shiftLeft, BitVec.getLsbD_setWidth, BitVec.getLsbD_allOnes]
  grind

variable (a : BitVec 40)

theorem getLsbD_setAddress : (setAddress e a).getLsbD k =
    if 12 ≤ k ∧ k < 52 then a.getLsbD (k - 12) else e.getLsbD k := by
  simp only [setAddress, BitVec.getLsbD_or, BitVec.getLsbD_and, BitVec.getLsbD_not,
    getLsbD_addressMask, BitVec.getLsbD_shiftLeft, BitVec.getLsbD_setWidth]
  grind

theorem getLsbD_or_address :
    (e ||| (a.setWidth 64 <<< 12 &&& 0x000FFFFFFFFFF000#64)).getLsbD k =
      (e.getLsbD k || (decide (12 ≤ k ∧ k < 52) && a.getLsbD (k - 12))) := by
  simp only [BitVec.getLsbD_or, BitVec.getLsbD_and, getLsbD_addressMask,
    BitVec.getLsbD_shiftLeft, BitVec.getLsbD_setWidth]
  grind

theorem getLsbD_flags_low (high : BitVec 32) (hk : k < 12) :
    (spreadFlags 0x0FFF high flags).getLsbD k = flags.getLsbD k := by
  have hlow : ∀ j : Fin 12, (0x0FFF : BitVec 32).getLsbD j := by decide
  have hbit := hlow ⟨k, hk⟩
  rw [getLsbD_spreadFlags]
  grind

theorem getLsbD_flags_address (flags : BitVec 32) (hk : 12 ≤ k ∧ k < 52) :
    (upperFlags flags).getLsbD k = false ∧ (leafFlags flags).getLsbD k = false := by
  have hmasks : ∀ j : Fin 52, 12 ≤ j.val → (0x0FFF : BitVec 32).getLsbD j = false ∧
      (0x07FF0000 : BitVec 32).getLsbD (j - 36) = false ∧
      (0x0FFF0000 : BitVec 32).getLsbD (j - 36) = false := by decide
  obtain ⟨hlow, hupper, hleaf⟩ := hmasks ⟨k, hk.2⟩ hk.1
  simp only at hlow hupper hleaf
  simp only [upperFlags, leafFlags, getLsbD_spreadFlags, hlow, hupper, hleaf, Bool.and_false,
    Bool.or_false, and_self]

theorem getLsbD_upperFlags_top : (upperFlags flags).getLsbD 63 = false := by
  rw [upperFlags, getLsbD_spreadFlags]
  simp

theorem getLsbD_leafFlags_top : (leafFlags flags).getLsbD 63 = flags.getLsbD 27 := by
  rw [leafFlags, getLsbD_spreadFlags]
  simp

theorem address_setAddress : address (setAddress e a) = a := by
  ext i hi
  simp only [address, BitVec.getElem_extractLsb', getLsbD_setAddress]
  grind

theorem address_or_upperFlags : address (e ||| upperFlags flags) = address e := by
  ext i hi
  have hflag := (getLsbD_flags_address flags (k := 12 + i) (by omega)).1
  simp [address, hflag]

theorem getLsbD_or_upperFlags (hk : k < 12) :
    (e ||| upperFlags flags).getLsbD k = (e.getLsbD k || flags.getLsbD k) := by
  rw [BitVec.getLsbD_or, upperFlags, getLsbD_flags_low _ hk]

theorem getLsbD_tableEntry (hk : k < 12) :
    (tableEntry flags a).getLsbD k = (decide (k = 0) || flags.getLsbD k) := by
  have hone : ∀ j : Fin 12, (1#64).getLsbD j = decide (j.val = 0) := by decide
  have hbit := hone ⟨k, hk⟩
  rw [tableEntry, getLsbD_setAddress, if_neg (by omega), setPresent, BitVec.getLsbD_or, upperFlags,
    getLsbD_flags_low _ hk, hbit, Bool.or_comm]

theorem getLsbD_leafEntry (hk : k < 12) : (leafEntry flags a).getLsbD k = flags.getLsbD k := by
  rw [leafEntry, getLsbD_setAddress, if_neg (by omega), leafFlags, getLsbD_flags_low _ hk]

theorem getLsbD_remappedEntry (hk : k < 12) :
    (remappedEntry flags e).getLsbD k = flags.getLsbD k := by
  have hout : ¬ (12 ≤ k ∧ k < 52) := by omega
  rw [remappedEntry, getLsbD_or_address, leafFlags, getLsbD_flags_low _ hk]
  simp [hout]

theorem address_remappedEntry : address (remappedEntry flags e) = address e := by
  ext i hi
  have hflag := (getLsbD_flags_address flags (k := 12 + i) (by omega)).2
  simp only [address, BitVec.getElem_extractLsb', remappedEntry, getLsbD_or_address, hflag]
  grind

theorem largeAddress_eq : largeAddress e = (address e).extractLsb' 9 31 := by
  ext i hi
  have hlt : 9 + i < 40 := by omega
  simp only [largeAddress, address, BitVec.getElem_extractLsb', BitVec.getLsbD_extractLsb', hlt]
  grind

theorem presentBit_clearPresent : presentBit (clearPresent e) = false := by
  simp [presentBit, clearPresent]

end Bits

end PageTables
