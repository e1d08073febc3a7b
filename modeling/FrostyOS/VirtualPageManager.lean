import FrostyOS.VirtualRegion
import FrostyOS.OrderedMap

/-! # The virtual page manager

Free blocks are indexed by size, each size with a list of addresses; used and reserved blocks
by address. The code is kept over any search tree, to be read with the tree of `AVLTree.cpp`
or with an ideal map. `none` stands for a null pointer that the code follows. -/

open MachineWord OrderedMap

structure VirtualPageManager (F U : Type) where
  region : VirtualRegion
  freePagesSizeTree : F
  reservedANDUsedPages : U
  freePagesCount : ℕ
  reservedPagesCount : ℕ
  usedPagesCount : ℕ

namespace VirtualPageManager

section SizeTree

variable {F : Type} (TF : Ops F (List ℕ))

def addBlock (m : F) (count addr : ℕ) : F :=
  let m := if (TF.find m count).isNone then TF.insert m count [] else m
  TF.setValue m count ((TF.find m count).getD [] ++ [addr])

/-- Take `addr` out of `list`, the blocks of `count` pages; an emptied size goes away. -/
def dropBlock (m : F) (count addr : ℕ) (list : List ℕ) : F :=
  if list.erase addr = [] then TF.delete m count else TF.setValue m count (list.erase addr)

def splitFreeBlock (m : F) (addr originalCount newCount : ℕ) : F :=
  if originalCount ≤ newCount then m
  else
    match TF.find m originalCount with
    | none => m
    | some list =>
      if list = [] then m
      else if addr ∉ list then m
      else
        let m := dropBlock TF m originalCount addr list
        let m := addBlock TF m newCount addr
        addBlock TF m (originalCount - newCount) (u64 (addr + newCount * pageSize))

inductive Hit where
  | address (key : ℕ) (list : List ℕ)
  | within (key data : ℕ)
  deriving DecidableEq, Repr

/-- The search of `UnfreePages` through the sizes from `count` on. The sizes it visits
ascend, so it takes fewer turns than there are words. -/
def findBlock (m : F) (addr length : ℕ) : ℕ → ℕ → Option Hit
  | 0, _ => none
  | turns + 1, count =>
    match TF.findOrHigher m count with
    | none => none
    | some (key, list) =>
      if addr ∈ list then some (.address key list)
      else
        match list.find? fun data =>
          (VirtualRegion.ofSize data (key * pageSize)).isInside addr length with
        | some data => some (.within key data)
        | none => findBlock m addr length turns (u64 (key + 1))

/-- Cut the block of `key` pages at `data` so that one of `count` pages starts at `addr`. -/
def carve (m : F) (addr length count key data : ℕ) : Option F :=
  let region := VirtualRegion.ofSize data (key * pageSize)
  if region.start < addr then
    let m := splitFreeBlock TF m region.start key (subWord addr data / pageSize)
    let region := region.setStart addr
    if length < region.size then
      (TF.findOrHigher m (region.size / pageSize)).map fun (newKey, _) =>
        splitFreeBlock TF m region.start newKey count
    else some m
  else if length < region.size then some (splitFreeBlock TF m region.start key count)
  else some m

end SizeTree

variable {F U : Type} (TF : Ops F (List ℕ)) (TU : Ops U ℕ) (s : VirtualPageManager F U)

def freePages (addr count : ℕ) : VirtualPageManager F U :=
  match s.region.ensureIsInside addr (u64 (count * pageSize)) with
  | none => s
  | some (addr, length) =>
    let count := length / pageSize
    if count = 0 then s
    else
      { s with
        freePagesSizeTree := addBlock TF s.freePagesSizeTree count addr
        freePagesCount := u64 (s.freePagesCount + count) }

def withFree (m : F) : VirtualPageManager F U := { s with freePagesSizeTree := m }

def uncount (count : ℕ) : VirtualPageManager F U :=
  { s with freePagesCount := subWord s.freePagesCount count }

def removeExact (addr count : ℕ) : VirtualPageManager F U × Bool :=
  match TF.find s.freePagesSizeTree count with
  | none => (s, false)
  | some list =>
    if list = [] then (s, false)
    else if addr ∉ list then (s, false)
    else ((s.withFree (dropBlock TF s.freePagesSizeTree count addr list)).uncount count, true)

def unfreePages (addr count : ℕ) (exact : Bool) : Option (VirtualPageManager F U × Bool) :=
  match s.region.ensureIsInside addr (u64 (count * pageSize)) with
  | none => some (s, false)
  | some (addr, length) =>
    let count := length / pageSize
    if count = 0 then some (s, false)
    else if exact then some (s.removeExact TF addr count)
    else
      match findBlock TF s.freePagesSizeTree addr length (2 ^ 64) count with
      | none => some (s, false)
      | some (.address key list) =>
        if count < key then
          let s := s.withFree (splitFreeBlock TF s.freePagesSizeTree addr key count)
          some (s.removeExact TF addr count)
        else
          some ((s.withFree (dropBlock TF s.freePagesSizeTree key addr list)).uncount count, true)
      | some (.within key data) =>
        (carve TF s.freePagesSizeTree addr length count key data).map fun m =>
          (s.withFree m).removeExact TF addr count

def addUsed (addr count : ℕ) : VirtualPageManager F U :=
  { s with
    reservedANDUsedPages := TU.insert s.reservedANDUsedPages addr (count % 2 ^ 63)
    usedPagesCount := u64 (s.usedPagesCount + count) }

def lockRange (addr count : ℕ) (unfree check : Bool) : Option (VirtualPageManager F U) :=
  if count = 0 then some s
  else
    match TU.find s.reservedANDUsedPages addr with
    | some _ => some s
    | none =>
      let s := s.addUsed TU addr count
      if unfree then (s.unfreePages TF addr count (!check)).map Prod.fst else some s

def lockPages (addr count : ℕ) (unfree check : Bool) : Option (VirtualPageManager F U) :=
  if check then
    match s.region.ensureIsInside addr (u64 (count * pageSize)) with
    | none => some s
    | some (addr, length) => s.lockRange TF TU addr (length / pageSize) unfree check
  else s.lockRange TF TU addr count unfree check

/-- `AllocatePages(uint64_t count)`; the second component is `none` for `nullptr`. -/
def allocatePages (count : ℕ) : Option (VirtualPageManager F U × Option ℕ) :=
  if count = 0 then some (s, none)
  else
    match TF.findOrHigher s.freePagesSizeTree count with
    | none => some (s, none)
    | some (_, []) => some (s, none)
    | some (key, mem :: _) =>
      let s := if count < key then s.withFree (splitFreeBlock TF s.freePagesSizeTree mem key count)
        else s
      (s.lockPages TF TU mem count true false).map fun s => (s, some mem)

def allocatePagesAt (addr count : ℕ) : Option (VirtualPageManager F U × Option ℕ) :=
  if count = 0 ∨ s.region.isInside addr (u64 (count * pageSize)) = false then some (s, none)
  else do
    let (s, unfreed) ← s.unfreePages TF addr count false
    if unfreed then
      let s ← s.lockPages TF TU addr count false false
      some (s, some addr)
    else some (s, none)

def dropUsed (addr count : ℕ) : VirtualPageManager F U :=
  { s with
    reservedANDUsedPages := TU.delete s.reservedANDUsedPages addr
    freePagesCount := subWord s.freePagesCount count }

def unlockPages (addr count : ℕ) : VirtualPageManager F U :=
  match s.region.ensureIsInside addr (u64 (count * pageSize)) with
  | none => s
  | some (addr, length) =>
    let count := length / pageSize
    if count = 0 then s
    else if TU.find s.reservedANDUsedPages addr ≠ some (count % 2 ^ 63) then s
    else (s.dropUsed TU addr count).freePages TF addr count

def unallocatePages (addr count : ℕ) : VirtualPageManager F U := s.unlockPages TF TU addr count

/-- The highest bit of an entry says that its block is reserved. -/
def reservedBit : ℕ := 2 ^ 63

def addReserved (addr count : ℕ) : VirtualPageManager F U :=
  { s with
    reservedANDUsedPages := TU.insert s.reservedANDUsedPages addr (count ||| reservedBit)
    reservedPagesCount := u64 (s.reservedPagesCount + count) }

/-- The result of `UnfreePages` is ignored. -/
def reservePages (addr count : ℕ) : Option (VirtualPageManager F U) :=
  match s.region.ensureIsInside addr (u64 (count * pageSize)) with
  | none => some s
  | some (addr, length) =>
    let count := length / pageSize
    if count = 0 then some s
    else
      match TU.find s.reservedANDUsedPages addr with
      | some _ => some s
      | none => ((s.addReserved TU addr count).unfreePages TF addr count false).map Prod.fst

def dropReserved (addr count : ℕ) : VirtualPageManager F U :=
  { s with
    reservedANDUsedPages := TU.delete s.reservedANDUsedPages addr
    reservedPagesCount := subWord s.reservedPagesCount count }

/-- The test for zero pages is made before the range is clipped. -/
def unreservePages (addr count : ℕ) : VirtualPageManager F U :=
  match s.region.ensureIsInside addr (u64 (count * pageSize)) with
  | none => s
  | some (addr, length) =>
    if count = 0 then s
    else
      let count := length / pageSize
      if TU.find s.reservedANDUsedPages addr ≠ some (count ||| reservedBit) then s
      else (s.dropReserved TU addr count).freePages TF addr count

def attemptToExpandRight (newSize : ℕ) : VirtualPageManager F U × Bool :=
  if newSize < s.region.size then (s, false)
  else
    ({ s with region := s.region.expandRight newSize }.freePages TF s.region.endAddr
      (subWord newSize s.region.size / pageSize), true)

def initVPageMgr (region : VirtualRegion) : VirtualPageManager F U := freePages TF
    { region
      freePagesSizeTree := TF.empty
      reservedANDUsedPages := TU.empty
      freePagesCount := 0
      reservedPagesCount := 0
      usedPagesCount := 0 }
    region.start (region.size / pageSize)

end VirtualPageManager
