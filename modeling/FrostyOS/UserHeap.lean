import FrostyOS.HeapAllocator

/-! # The user heap of `malloc.cpp`

Headers and merges are those of the kernel heap; what differs is how a block enters an empty
free list, and that chunks come from `mmap` and go back. All headers are at multiples of
sixteen. The walks take a bound on their turns: a `next` field may lead anywhere. -/
namespace UserHeap

open MachineWord HeapAllocator

/-- What `AddToFreeList` did: the block that it entered and the headers it came by. -/
structure Walk where
  inserted : ℕ
  reads : List ℕ
  deriving DecidableEq, Repr

def addToFreeListLoop : ℕ → Heap → ℕ → ℕ → ℕ → Except Fault (Heap × List ℕ)
  | 0, _, _, _, _ => .error .unbounded
  | fuel + 1, h, prev, curr, header =>
    if curr = 0 then .ok (insertAtEnd h prev header, [])
    else if prev < header ∧ header < curr then .ok (insertBefore h prev curr header, [curr])
    else do
      let (h, reads) ← addToFreeListLoop fuel h curr (h.mem curr).next header
      .ok (h, curr :: reads)

def addToFreeList (fuel : ℕ) (h : Heap) (header : ℕ) : Except Fault (Heap × Walk) := do
  let h := if h.freeList = 0 then { h with freeList := header } else h
  let (h, reads) ← addToFreeListLoop fuel h 0 h.freeList header
  .ok (h, ⟨header, reads⟩)

def split (fuel : ℕ) (account : Heap → ℕ → Heap) (h : Heap) (curr size : ℕ) :
    Except Fault (Heap × Option Walk) :=
  if size < (h.mem curr).size then do
    let next := u64 (curr + headerSize + size)
    let h := (h.setSize next (subWord (subWord (h.mem curr).size size) headerSize)).setIsFree
      next true
    let h := account (h.setSize curr size) next
    let (h, walk) ← addToFreeList fuel h next
    .ok ({ h with metadataMem := u64 (h.metadataMem + headerSize) }, some walk)
  else .ok (h, none)

/-- What a call of `allocate` did: the chunk is what it got from `mmap`, if it asked. -/
structure Allocation where
  heap : Heap
  ptr : ℕ
  chunk : Option (ℕ × ℕ)
  walk : Option Walk

def take (fuel : ℕ) (h : Heap) (prev curr size : ℕ) : Except Fault Allocation := do
  let (h, walk) ← split fuel (fun h _ => { h with freeMem := subWord h.freeMem headerSize })
    ((unlink h prev curr).setIsFree curr false) curr size
  .ok ⟨{ h with usedMem := u64 (h.usedMem + size), freeMem := subWord h.freeMem size },
    u64 (curr + headerSize), none, walk⟩

def Heap.setIsStartOfChunk (h : Heap) (a : ℕ) (f : Bool) : Heap :=
  { h with mem := Function.update h.mem a { h.mem a with isStartOfChunk := f } }

def Heap.zeroFill (h : Heap) (a n : ℕ) : Heap :=
  { h with mem := fun x => if a ≤ x ∧ x < a + n then ⟨0, false, false, 0⟩ else h.mem x }

def numBytes (size : ℕ) : ℕ := alignUp (u64 (size + headerSize)) pageSize

def openChunk (h : Heap) (header n : ℕ) : Heap :=
  let h := Heap.zeroFill h header n
  let h := { h with metadataMem := u64 (h.metadataMem + headerSize) }
  Heap.setIsStartOfChunk ((h.setSize header (subWord n headerSize)).setIsFree header false)
    header true

def takeChunk (fuel : ℕ) (mmap : ℕ → ℕ) (h : Heap) (size : ℕ) : Except Fault Allocation := do
  let n := numBytes size
  let header := mmap n
  let (h, walk) ← split fuel
    (fun h next => { h with freeMem := u64 (h.freeMem + (h.mem next).size) })
    (openChunk h header n) header size
  .ok ⟨{ h with usedMem := u64 (h.usedMem + size) }, u64 (header + headerSize),
    some (header, n), walk⟩

def allocateLoop (fuel : ℕ) (mmap : ℕ → ℕ) : ℕ → Heap → ℕ → ℕ → ℕ → Except Fault Allocation
  | 0, _, _, _, _ => .error .unbounded
  | turns + 1, h, prev, curr, size =>
    if curr = 0 then takeChunk fuel mmap h size
    else if size ≤ (h.mem curr).size then take fuel h prev curr size
    else allocateLoop fuel mmap turns h curr (h.mem curr).next size

def allocate (fuel : ℕ) (mmap : ℕ → ℕ) (h : Heap) (size : ℕ) : Except Fault Allocation :=
  allocateLoop fuel mmap fuel h 0 h.freeList (alignUp size minSize)

def dropChunk (h : Heap) (prev curr next : ℕ) : Heap :=
  let h := { h with
    metadataMem := subWord h.metadataMem headerSize
    freeMem := subWord h.freeMem (h.mem curr).size }
  if prev = 0 then { h with freeList := next } else h.setNext prev next

/-- The loop of `CheckForDeletion`, with the ranges that it unmaps. After a block has been
given back, the one behind it is passed over. -/
def checkLoop : ℕ → Heap → ℕ → ℕ → Except Fault (Heap × List (ℕ × ℕ))
  | 0, _, _, _ => .error .unbounded
  | fuel + 1, h, prev, curr =>
    if curr = 0 then .ok (h, [])
    else
      let next := (h.mem curr).next
      if next ≠ 0 ∧ (h.mem curr).isStartOfChunk ∧ (h.mem next).isStartOfChunk then do
        let length := alignUp (u64 ((h.mem curr).size + headerSize)) pageSize
        let h := dropChunk h prev curr next
        let (h, unmapped) ← checkLoop fuel h next (h.mem next).next
        .ok (h, (curr, length) :: unmapped)
      else checkLoop fuel h curr next

def checkForDeletion (fuel : ℕ) (h : Heap) : Except Fault (Heap × List (ℕ × ℕ)) :=
  if h.freeList = 0 then .ok (h, []) else checkLoop fuel h 0 h.freeList

structure Release where
  heap : Heap
  unmapped : List (ℕ × ℕ)
  walk : Walk

def free (fuel : ℕ) (h : Heap) (ptr : ℕ) : Except Fault Release := do
  let header := subWord ptr headerSize
  let h := h.setIsFree header true
  let h := { h with
    usedMem := subWord h.usedMem (h.mem header).size
    freeMem := u64 (h.freeMem + (h.mem header).size) }
  let (h, walk) ← addToFreeList fuel h header
  let (h, unmapped) ← checkForDeletion fuel h
  .ok ⟨h, unmapped, walk⟩

section Fuel

variable {fuel fuel' : ℕ} {h : Heap}

variable {curr header prev size : ℕ} {mmap : ℕ → ℕ} {r : Allocation}

section

variable (hle : fuel ≤ fuel')

include hle

theorem addToFreeListLoop_mono {r} (ho : addToFreeListLoop fuel h prev curr header = .ok r) :
    addToFreeListLoop fuel' h prev curr header = .ok r := by
  induction fuel generalizing fuel' prev curr r with
  | zero => cases ho
  | succ fuel ih =>
    obtain ⟨k, rfl⟩ : ∃ k, fuel' = k + 1 := ⟨fuel' - 1, by omega⟩
    unfold addToFreeListLoop at ho ⊢
    split at ho
    case isTrue h0 => rwa [if_pos h0]
    case isFalse h0 =>
      rw [if_neg h0]
      split at ho
      case isTrue hc => rwa [if_pos hc]
      case isFalse hc =>
        obtain ⟨q, hq, hr⟩ := bind_eq_ok.1 ho
        rw [if_neg hc]
        exact bind_eq_ok.2 ⟨q, ih (by omega) hq, hr⟩

theorem addToFreeList_mono {r} (ho : addToFreeList fuel h header = .ok r) :
    addToFreeList fuel' h header = .ok r := by
  obtain ⟨q, hq, hr⟩ := bind_eq_ok.1 ho
  exact bind_eq_ok.2 ⟨q, addToFreeListLoop_mono hle hq, hr⟩

theorem split_mono {account r} (ho : split fuel account h curr size = .ok r) :
    split fuel' account h curr size = .ok r := by
  unfold split at ho ⊢
  split at ho
  case isTrue hc =>
    obtain ⟨q, hq, hr⟩ := bind_eq_ok.1 ho
    rw [if_pos hc]
    exact bind_eq_ok.2 ⟨q, addToFreeList_mono hle hq, hr⟩
  case isFalse hc => rwa [if_neg hc]

theorem take_mono (ho : take fuel h prev curr size = .ok r) :
    take fuel' h prev curr size = .ok r := by
  obtain ⟨q, hq, hr⟩ := bind_eq_ok.1 ho
  exact bind_eq_ok.2 ⟨q, split_mono hle hq, hr⟩

theorem takeChunk_mono (ho : takeChunk fuel mmap h size = .ok r) :
    takeChunk fuel' mmap h size = .ok r := by
  obtain ⟨q, hq, hr⟩ := bind_eq_ok.1 ho
  exact bind_eq_ok.2 ⟨q, split_mono hle hq, hr⟩

theorem allocateLoop_mono {turns turns' : ℕ} (ht : turns ≤ turns')
    (ho : allocateLoop fuel mmap turns h prev curr size = .ok r) :
    allocateLoop fuel' mmap turns' h prev curr size = .ok r := by
  induction turns generalizing turns' prev curr with
  | zero => cases ho
  | succ turns ih =>
    obtain ⟨k, rfl⟩ : ∃ k, turns' = k + 1 := ⟨turns' - 1, by omega⟩
    unfold allocateLoop at ho ⊢
    split at ho
    case isTrue h0 =>
      rw [if_pos h0]
      exact takeChunk_mono hle ho
    case isFalse h0 =>
      rw [if_neg h0]
      split at ho
      case isTrue hc =>
        rw [if_pos hc]
        exact take_mono hle ho
      case isFalse hc =>
        rw [if_neg hc]
        exact ih (by omega) ho

theorem allocate_mono (ho : allocate fuel mmap h size = .ok r) :
    allocate fuel' mmap h size = .ok r := allocateLoop_mono hle hle ho

theorem checkLoop_mono {r} (ho : checkLoop fuel h prev curr = .ok r) :
    checkLoop fuel' h prev curr = .ok r := by
  induction fuel generalizing fuel' h prev curr r with
  | zero => cases ho
  | succ fuel ih =>
    obtain ⟨k, rfl⟩ : ∃ k, fuel' = k + 1 := ⟨fuel' - 1, by omega⟩
    unfold checkLoop at ho ⊢
    split at ho
    case isTrue h0 => rwa [if_pos h0]
    case isFalse h0 =>
      rw [if_neg h0]
      dsimp only at ho ⊢
      split at ho
      case isTrue hc =>
        obtain ⟨q, hq, hr⟩ := bind_eq_ok.1 ho
        rw [if_pos hc]
        exact bind_eq_ok.2 ⟨q, ih (by omega) hq, hr⟩
      case isFalse hc =>
        rw [if_neg hc]
        exact ih (by omega) ho

theorem free_mono {ptr : ℕ} {r} (ho : free fuel h ptr = .ok r) : free fuel' h ptr = .ok r := by
  obtain ⟨q, hq, ho⟩ := bind_eq_ok.1 ho
  obtain ⟨c, hc, hr⟩ := bind_eq_ok.1 ho
  refine bind_eq_ok.2 ⟨q, addToFreeList_mono hle hq, bind_eq_ok.2 ⟨c, ?_, hr⟩⟩
  unfold checkForDeletion at hc ⊢
  split at hc
  case isTrue h0 => rwa [if_pos h0]
  case isFalse h0 =>
    rw [if_neg h0]
    exact checkLoop_mono hle hc

end

end Fuel

end UserHeap
