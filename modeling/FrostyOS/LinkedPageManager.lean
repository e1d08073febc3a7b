import FrostyOS.Calls
import FrostyOS.PageManager
import FrostyOS.PageObjectPool
import FrostyOS.PageRuns
import FrostyOS.SinglyLinked

/-! # The page manager over linked page objects

`PageManager.cpp` with its objects in the pool or on the heap, linked by pointers, under a
lock that is not recursive. -/

open MachineWord OrderedMap PageTables PageRuns SinglyLinked Calls

/-- A lock together with what its holder did wrong. -/
structure SpinLock where
  held : Bool
  acquiredHeld : Bool
  releasedFree : Bool
  deriving DecidableEq, Repr

def SpinLock.free : SpinLock := ⟨false, false, false⟩

def SpinLock.taken : SpinLock := ⟨true, false, false⟩

namespace ObjectNode

def length (o : ObjectNode) : ℕ := u64 (o.pageCount * pageSize)

def region (o : ObjectNode) : VirtualRegion := VirtualRegion.ofSize o.virtualAddress o.length

def standsBy (count : ℕ) (perms : PagePermissions) (addr : ℕ) (o : ObjectNode) : Bool :=
  o.region.isInside addr (u64 (count * pageSize)) && o.hasFlag poStandby && !o.hasFlag poInuse &&
    decide (o.perms = perms)

/-- A new object gets its flags and its pages. -/
def claim (o : ObjectNode) (mode : Bool) (usage : BitVec 64) (virtAddr count : ℕ) : ObjectNode :=
  let o := o.setFlag poAllocated
  let o := if mode then o.setFlag poUser else o
  { o.setFlag usage with virtualAddress := virtAddr, pageCount := count }

def isAt (addr : ℕ) (o : ObjectNode) : Bool :=
  decide (o.virtualAddress ≤ addr ∧ addr ≤ u64 (o.virtualAddress + o.length))

def isWritable (o : ObjectNode) : Bool := o.perms = .write || o.perms = .readWrite

def hexWord (n : ℕ) : String :=
  "0x" ++ String.ofList (((Nat.toDigits 16 n).map Char.toUpper).leftpad 16 '0')

def permsText : PagePermissions → String
  | .read => "Read "
  | .write => "Write "
  | .execute => "Execute "
  | .readWrite => "Read/Write "
  | .readExecute => "Read/Execute "

def print (o : ObjectNode) : String :=
  if o.hasFlag poAllocated then
    (if o.hasFlag poUser then "User " else "Supervisor ") ++
      (if o.hasFlag poInuse then "In use " else if o.hasFlag poStandby then "Standby " else "") ++
      permsText o.perms ++ hexWord o.virtualAddress ++ " - " ++
      hexWord (u64 (o.virtualAddress + o.length)) ++ "\n"
  else ""

end ObjectNode

structure Services (F U A H : Type) where
  layout : Layout
  frames : FrameSource A
  sizes : Ops F (List ℕ)
  blocks : Ops U ℕ
  newDelete : NewDelete H
  /-- `K_PML4_Array`. -/
  kernelTable : ℕ

structure LinkedPageManager (F U A H : Type) where
  objects : ObjectMemory H
  allocatedObjects : Option ObjectPointer
  allocatedObjectCount : ℕ
  region : VirtualRegion
  vpm : VirtualPageManager F U
  tables : Machine A
  root : ℕ
  mode : Bool
  pageObjectPoolUsed : Bool
  autoExpand : Bool
  lock : SpinLock

namespace LinkedPageManager

variable {F U A H : Type} (E : Services F U A H) (s : LinkedPageManager F U A H)

section Lock

def acquire : LinkedPageManager F U A H × Option Unit :=
  if s.lock.held then ({ s with lock := { s.lock with acquiredHeld := true } }, none)
  else ({ s with lock := { s.lock with held := true } }, some ())

def release : LinkedPageManager F U A H :=
  { s with
    lock := { s.lock with
      held := false
      releasedFree := s.lock.releasedFree || !s.lock.held } }

def locked : LinkedPageManager F U A H := { s with lock := .taken }

def unlocked : LinkedPageManager F U A H := { s with lock := .free }

variable {s}

theorem acquire_of_free (h : s.lock = .free) : s.acquire = (s.locked, some ()) := by
  simp [acquire, locked, h, SpinLock.free, SpinLock.taken]

theorem release_of_taken (h : s.lock = .taken) : s.release = s.unlocked := by
  simp [release, unlocked, h, SpinLock.free, SpinLock.taken]

end Lock

section Objects

def node (p : ObjectPointer) : ObjectNode := s.objects.node p

def next (p : ObjectPointer) : Option ObjectPointer := (s.node p).next

def writeNode (p : ObjectPointer) (o : ObjectNode) : LinkedPageManager F U A H :=
  { s with objects := s.objects.write p o }

/-- A loop behind the null pointer ends within as many turns as there are addresses, or
never. -/
def findObject (test : ObjectNode → Bool) : Option (Option ObjectPointer) :=
  find s.next (fun p => test (s.node p)) (2 ^ 64) s.allocatedObjects

def scanObjects (test : ObjectNode → Bool) : Scan ObjectPointer :=
  scan s.next (fun p => test (s.node p)) s.allocatedObjectCount s.allocatedObjects

def getPrevious (p : ObjectPointer) : Option (Option ObjectPointer) :=
  previous s.next p (2 ^ 64) s.allocatedObjects

def createObject : LinkedPageManager F U A H × Option (Option ObjectPointer) :=
  match s.objects.create E.newDelete with
  | none => (s, none)
  | some (objects, p) =>
    ({ s with
      objects
      pageObjectPoolUsed := s.pageObjectPoolUsed || !E.newDelete.initialised s.objects.heap },
     some p)

def deleteObject (p : ObjectPointer) : LinkedPageManager F U A H :=
  { s with objects := s.objects.destroy E.newDelete p }

def countUp : LinkedPageManager F U A H :=
  { s with allocatedObjectCount := u64 (s.allocatedObjectCount + 1) }

def insertObject (p : ObjectPointer) : LinkedPageManager F U A H × Option Bool :=
  if 0 < s.allocatedObjectCount then
    match s.getPrevious p with
    | none => (s, none)
    | some none => (s, some false)
    | some (some q) => ((s.writeNode q { s.node q with next := some p }).countUp, some true)
  else ({ s with allocatedObjects := some p }.countUp, some true)

def removeObject (p : ObjectPointer) : LinkedPageManager F U A H × Option Unit :=
  match s.getPrevious p with
  | none => (s, none)
  | some q =>
    let s := match q with
      | some q => s.writeNode q { s.node q with next := s.next p }
      | none => { s with allocatedObjects := s.next p }
    let s := s.deleteObject E p
    ({ s with allocatedObjectCount := subWord s.allocatedObjectCount 1 }, some ())

end Objects

section Mapping

def mapFreshPage (perms : PagePermissions) (mode : Bool) (root : ℕ) (tables : Machine A)
    (addr : ℕ) : Machine A :=
  let (frame, ppfa) := E.frames.allocatePage tables.ppfa
  mapPageNoflush E.layout E.frames root frame addr (decodePageFlags mode perms)
    { tables with ppfa }

def pagesFrom (addr count : ℕ) : List ℕ := (List.range count).map fun i => u64 (addr + i * 0x1000)

def mapFresh (perms : PagePermissions) (addr count : ℕ) : LinkedPageManager F U A H :=
  { s with
    tables := (pagesFrom addr count).foldl (mapFreshPage E perms s.mode s.root) s.tables }

/-- The frame of each page goes back, and the page is unmapped. -/
def releasePages (addr count : ℕ) : LinkedPageManager F U A H :=
  { s with
    tables := (pagesFrom addr count).foldl
      (fun tables page => PageManager.releasePage E.layout E.frames tables s.root page) s.tables }

def unallocate (addr count : ℕ) : LinkedPageManager F U A H :=
  { s with vpm := s.vpm.unallocatePages E.sizes E.blocks addr count }

end Mapping

section Expansion

def expandVRegionToRight (newSize : ℕ) : LinkedPageManager F U A H × Option Bool :=
  andThen s.acquire fun s _ =>
    if newSize ≤ s.region.size then (s.release, some false)
    else
      let (vpm, ok) := s.vpm.attemptToExpandRight E.sizes newSize
      let s := { s with vpm }
      if ok = false then (s.release, some false)
      else ({ s with region := s.region.expandRight newSize }.release, some true)

/-- The virtual page manager is asked for pages, at `addr` unless that is null. -/
def askSpace (vpm : VirtualPageManager F U) (count addr : ℕ) :
    Option (VirtualPageManager F U × Option ℕ) :=
  if addr = 0 then vpm.allocatePages E.sizes E.blocks count
  else vpm.allocatePagesAt E.sizes E.blocks addr count

def requestSpace (count addr : ℕ) : LinkedPageManager F U A H × Option ℕ :=
  match askSpace E s.vpm count addr with
  | none => (s, none)
  | some (vpm, r) => ({ s with vpm }, some (pointer r))

def obtainSpace (count addr : ℕ) : LinkedPageManager F U A H × Option ℕ :=
  andThen (s.requestSpace E count addr) fun s virtAddr =>
    if virtAddr ≠ 0 then (s, some virtAddr)
    else if s.autoExpand then
      andThen (s.expandVRegionToRight E (u64 (pageSize * count + s.region.size))) fun s ok =>
        if ok then s.requestSpace E count addr else (s, some 0)
    else (s, some 0)

end Expansion

section Allocation

/-- A new object for pages that the virtual page manager has handed out; null if there is
none. -/
def addObject (count : ℕ) (perms : PagePermissions) (usage : BitVec 64) (virtAddr : ℕ) :
    LinkedPageManager F U A H × Option ℕ :=
  -- the loop to the end of the list has no effect
  match s.findObject fun _ => false with
  | none => (s, none)
  | some _ =>
    andThen (s.createObject E) fun s p =>
      match p with
      | none => (s.unallocate E virtAddr count, some 0)
      | some p =>
        let s := s.writeNode p ((s.node p).claim s.mode usage virtAddr count)
        andThen (s.insertObject p) fun s inserted =>
          if inserted then (s.writeNode p { s.node p with perms }, some virtAddr)
          else ((s.deleteObject E p).unallocate E virtAddr count, some 0)

/-- New pages are found and get their object. `taken` says which objects are in the way of a
request with an address. -/
def place (taken : ObjectNode → Bool) (count : ℕ) (perms : PagePermissions) (addr : ℕ)
    (usage : BitVec 64) : LinkedPageManager F U A H × Option ℕ :=
  if addr ≠ 0 ∧ s.scanObjects taken ≠ .done then (s, some 0)
  else
    andThen (s.obtainSpace E count addr) fun s virtAddr =>
      if virtAddr = 0 then (s, some 0) else s.addObject E count perms usage virtAddr

def startsAt (addr : ℕ) (o : ObjectNode) : Bool := decide (o.virtualAddress = addr)

def covers (addr count : ℕ) (o : ObjectNode) : Bool :=
  o.region.isInside addr (u64 (count * pageSize))

/-- A part of a reserved range gets an object of its own. -/
def splitOff (o : ObjectNode) : LinkedPageManager F U A H × Option Bool :=
  andThen (s.createObject E) fun s p =>
    match p with
    | none => (s, some false)
    | some p =>
      let s := s.writeNode p { o with next := s.next p }
      andThen (s.insertObject p) fun s inserted =>
        if inserted then (s, some true) else (s.deleteObject E p, some false)

def cutFront (perms : PagePermissions) (addr : ℕ) (p : ObjectPointer) :
    LinkedPageManager F U A H × Option Bool :=
  let o := s.node p
  if o.virtualAddress < addr then
    let front := subWord addr o.virtualAddress >>> 12
    andThen (s.splitOff E { o with perms, pageCount := front }) fun s ok =>
      if ok = false then (s, some false)
      else
        let o := s.node p
        (s.writeNode p { o with pageCount := subWord o.pageCount front, virtualAddress := addr },
          some true)
  else (s, some true)

def cutRear (count : ℕ) (perms : PagePermissions) (p : ObjectPointer) :
    LinkedPageManager F U A H × Option Bool :=
  let o := s.node p
  if count < o.pageCount then
    let rear := { o with
      perms
      virtualAddress := u64 (o.virtualAddress + count * pageSize)
      pageCount := o.pageCount - count }
    andThen (s.splitOff E rear) fun s ok =>
      if ok = false then (s, some false)
      else (s.writeNode p { s.node p with pageCount := count }, some true)
  else (s, some true)

def commit (count : ℕ) (perms : PagePermissions) (addr : ℕ) (p : ObjectPointer) :
    LinkedPageManager F U A H × Option ℕ :=
  andThen (s.cutFront E perms addr p) fun s ok =>
    if ok = false then (s, some 0)
    else
      andThen (s.cutRear E count perms p) fun s ok =>
        if ok = false then (s, some 0)
        else
          let s := s.writeNode p
            (((s.node p).unsetFlag ObjectNode.poStandby).setFlag ObjectNode.poInuse)
          (s.mapFresh E perms addr count, some addr)

/-- Either a reserved range is committed or new pages are mapped. -/
def commitOrPlace (taken : ObjectNode → Bool) (fits : Bool) (count : ℕ) (perms : PagePermissions)
    (addr : ℕ) : LinkedPageManager F U A H × Option ℕ :=
  match (if addr = 0 then .done else s.scanObjects (ObjectNode.standsBy count perms addr)) with
  | .missing => (s, some 0)
  | .hit p => s.commit E count perms addr p
  | .done =>
    if fits = false then (s, some 0)
    else
      andThen (s.place E taken count perms addr ObjectNode.poInuse) fun s virtAddr =>
        if virtAddr = 0 then (s, some 0)
        else (s.mapFresh E perms virtAddr count, some virtAddr)

def allocatePage (perms : PagePermissions) (addr : ℕ) : LinkedPageManager F U A H × Option ℕ :=
  andThen s.acquire fun s _ =>
    andThen (s.commitOrPlace E (startsAt addr) true 1 perms addr) fun s virtAddr =>
      (s.release, some virtAddr)

/-- A request for an address has to lie in the region. -/
def inRegion (count addr : ℕ) : Bool :=
  decide (addr = 0) || s.region.isInside addr (u64 (count * pageSize))

def allocatePages (count : ℕ) (perms : PagePermissions) (addr : ℕ) :
    LinkedPageManager F U A H × Option ℕ :=
  if count = 1 then s.allocatePage E perms addr
  else
    andThen s.acquire fun s _ =>
      andThen (s.commitOrPlace E (covers addr count) (s.inRegion count addr) count perms addr)
        fun s virtAddr => (s.release, some virtAddr)

/-- The lock is released on the way out if no page was reserved. -/
def reservePage (perms : PagePermissions) (addr : ℕ) : LinkedPageManager F U A H × Option ℕ :=
  andThen s.acquire fun s _ =>
    andThen (s.place E (startsAt addr) 1 perms addr ObjectNode.poStandby) fun s virtAddr =>
      if virtAddr = 0 then (s.release, some 0) else (s, some virtAddr)

/-- The lock is released and was not acquired. -/
def reservePages (count : ℕ) (perms : PagePermissions) (addr : ℕ) :
    LinkedPageManager F U A H × Option ℕ :=
  if count = 1 then s.reservePage E perms addr
  else if s.inRegion count addr = false then (s.release, some 0)
  else
    andThen (s.place E (covers addr count) count perms addr ObjectNode.poStandby) fun s virtAddr =>
      (s.release, some virtAddr)

end Allocation

section Freeing

/-- Frees the object that passes the test, in the order of `FreePages`. -/
def freeObject (test : ObjectNode → Bool) (addr : ℕ) : LinkedPageManager F U A H × Option Unit :=
  andThen s.acquire fun s _ =>
    match s.findObject test with
    | none => (s, none)
    | some none => (s.release, some ())
    | some (some p) =>
      let count := (s.node p).pageCount
      let s := (s.unallocate E addr count).releasePages E addr count
      andThen (s.removeObject E p) fun s _ => (s.release, some ())

def freePage (addr : ℕ) : LinkedPageManager F U A H × Option Unit :=
  s.freeObject E (fun o => o.virtualAddress = addr && o.pageCount = 1) addr

def freePages (addr : ℕ) : LinkedPageManager F U A H × Option Unit :=
  s.freeObject E (fun o => o.virtualAddress = addr && decide (1 < o.pageCount)) addr

end Freeing

section Lookup

def remap (addr : ℕ) (perms : PagePermissions) : LinkedPageManager F U A H × Option Unit :=
  andThen s.acquire fun s _ =>
    match s.findObject (startsAt addr) with
    | none => (s, none)
    | some none => (s.release, some ())
    | some (some p) =>
      let count := (s.node p).pageCount
      let s := s.writeNode p { s.node p with perms }
      let tables := (pagesFrom addr count).foldl
        (fun tables page =>
          remapPageNoflush E.layout s.root page (decodePageFlags s.mode perms) tables) s.tables
      ({ s with tables }.release, some ())

/-- The check calls itself for the rest of the range; a turn that leaves no smaller rest is
repeated for ever. -/
def isWritableFrom : ℕ → LinkedPageManager F U A H → ℕ → ℕ → LinkedPageManager F U A H × Option Bool
  | 0, s, _, _ => (s, none)
  | fuel + 1, s, addr, size =>
    andThen s.acquire fun s _ =>
      match s.findObject (ObjectNode.isAt addr) with
      | none => (s, none)
      | some none => (s.release, some false)
      | some (some p) =>
        if (s.node p).isWritable = false then (s.release, some false)
        else if (s.node p).length < size then
          isWritableFrom fuel s.release (u64 (addr + (s.node p).length))
            (size - (s.node p).length)
        else (s.release, some true)

def isWritable (addr size : ℕ) : LinkedPageManager F U A H × Option Bool :=
  isWritableFrom (size + 1) s addr size

def isValidAllocation (addr size : ℕ) : LinkedPageManager F U A H × Option Bool :=
  andThen s.acquire fun s _ =>
    match s.findObject fun o => decide (o.virtualAddress ≤ addr) && decide (size = o.length) with
    | none => (s, none)
    | some p => (s.release, some p.isSome)

def getPermissions (addr : ℕ) : LinkedPageManager F U A H × Option PagePermissions :=
  andThen s.acquire fun s _ =>
    match s.findObject (ObjectNode.isAt addr) with
    | none => (s, none)
    | some none => (s.release, some .read)
    | some (some p) => (s.release, some (s.node p).perms)

def printRegions : LinkedPageManager F U A H × Option String :=
  andThen s.acquire fun s _ =>
    match nodes s.next (2 ^ 64) s.allocatedObjects with
    | none => (s, none)
    | some l => (s.release, some (String.join (l.map fun p => (s.node p).print)))

end Lookup

section Lifetime

/-- `x86_64_InitUserTable`; its `memset` clears an eighth of the table. -/
def initUserTable (memory : Memory) (root : ℕ) : Memory :=
  let kernel := memory E.kernelTable
  fun table i =>
    if table = root then
      if i = pml4Index E.layout.hhdmStart ∨ i.val = 511 then kernel i
      else if i.val < 64 then 0 else memory table i
    else memory table i

/-- `PageTable(bool mode, PageManager* pm)`. -/
def pageTable (mode : Bool) (tables : Machine A) : Machine A × ℕ :=
  if mode then
    let (frame, ppfa) := E.frames.allocatePage tables.ppfa
    let root := toHHDM E.layout frame
    (⟨initUserTable E tables.memory root, ppfa⟩, root)
  else (tables, E.kernelTable)

/-- The page table is assigned from a temporary one, which frees its root when it goes. -/
def initPageManager (region : VirtualRegion) (vpm : VirtualPageManager F U)
    (mode autoExpand : Bool) : LinkedPageManager F U A H × Option Unit :=
  andThen s.acquire fun s _ =>
    let (tables, root) := pageTable E mode s.tables
    let s := { s with
      allocatedObjects := none, allocatedObjectCount := 0, region, vpm, tables, root }
    andThen (if mode then s.freePage E root else (s, some ())) fun s _ =>
      let s :=
        { s with mode, pageObjectPoolUsed := false, autoExpand := mode && autoExpand }.release
      (if s.objects.hasBeenInitialised then s else { s with objects := s.objects.poolInit },
        some ())

/-- The loop of the destructor; it follows a null pointer if the list is shorter than its
count. -/
def deleteObjects : ℕ → LinkedPageManager F U A H → LinkedPageManager F U A H × Option Unit
  | 0, s => (s, some ())
  | count + 1, s =>
    match s.allocatedObjects with
    | none => (s, none)
    | some p => deleteObjects count { s with
      allocatedObjects := s.next p, objects := s.objects.operatorDelete E.newDelete p }

def destroy : LinkedPageManager F U A H × Option Unit :=
  if s.pageObjectPoolUsed then (s, none)
  else
    andThen s.acquire fun s _ =>
      andThen (deleteObjects E s.allocatedObjectCount s) fun s _ =>
        if s.mode then s.release.freePage E s.root else (s.release, some ())

end Lifetime

end LinkedPageManager
