import FrostyOS.MachineWord
import FrostyOS.SortedBlocks

/-! # The kernel heap of `kmalloc.cpp`

Headers live in memory, one at the start of each block; a null `next` is address zero. The
walks over the free list take a bound on their turns, which the invariant shows is never
reached. -/
namespace HeapAllocator

open MachineWord List

structure BlockHeader where
  size : ℕ
  isFree : Bool
  isStartOfChunk : Bool
  next : ℕ
  deriving DecidableEq, Repr

structure Heap where
  mem : ℕ → BlockHeader
  freeList : ℕ
  freeMem : ℕ
  usedMem : ℕ
  metadataMem : ℕ

open Heap

inductive Fault where
  | panic (msg : String)
  | unbounded
  deriving DecidableEq, Repr

def headerSize : ℕ := 16

def minSize : ℕ := 16

def Heap.setSize (h : Heap) (a s : ℕ) : Heap :=
  { h with mem := Function.update h.mem a { h.mem a with size := s % 2 ^ 62 } }

def Heap.setIsFree (h : Heap) (a : ℕ) (f : Bool) : Heap :=
  { h with mem := Function.update h.mem a { h.mem a with isFree := f } }

def Heap.setNext (h : Heap) (a n : ℕ) : Heap :=
  { h with mem := Function.update h.mem a { h.mem a with next := n } }

/-- The header swallowed by a merge becomes payload. -/
def Heap.dropHeader (h : Heap) : Heap :=
  { h with
    freeMem := u64 (h.freeMem + headerSize)
    metadataMem := subWord h.metadataMem headerSize }

def Heap.meets (h : Heap) (a b : ℕ) : Bool := u64 (a + headerSize + (h.mem a).size) == b

/-- Grow the block at `a` over the one at `b`, as each merge of `AddToFreeList` does. -/
def Heap.swallow (h : Heap) (a b : ℕ) : Heap :=
  h.setSize a ((h.mem a).size + (headerSize + (h.mem b).size))

/-- Merge `header` with the following list entry, or link to it. -/
def mergeNext (h : Heap) (header curr : ℕ) : Heap :=
  if h.meets header curr && (h.mem curr).isFree then
    ((h.swallow header curr).setNext header (h.mem curr).next).dropHeader
  else h.setNext header curr

/-- Merge `header` into the preceding list entry, or link from it; the second
component is the block that now stands in the list. -/
def mergePrev (h : Heap) (prev header curr : ℕ) : Heap × ℕ :=
  if h.meets prev header && (h.mem prev).isFree then
    (((h.swallow prev header).setNext prev curr).dropHeader, prev)
  else (h.setNext prev header, header)

def insertBefore (h : Heap) (prev curr header : ℕ) : Heap :=
  if prev = 0 then mergeNext { h with freeList := header } header curr
  else
    let (h, header) := mergePrev h prev header curr
    mergeNext h header curr

def insertAtEnd (h : Heap) (prev header : ℕ) : Heap :=
  let h := (h.setNext prev header).setNext header 0
  if h.meets prev header && (h.mem prev).isFree then
    ((h.swallow prev header).setNext prev 0).dropHeader
  else h

def addToFreeListLoop : ℕ → Heap → ℕ → ℕ → ℕ → Except Fault Heap
  | 0, _, _, _, _ => .error .unbounded
  | fuel + 1, h, prev, curr, header =>
    if curr = 0 then .ok (insertAtEnd h prev header)
    else if prev < header ∧ header < curr then .ok (insertBefore h prev curr header)
    else addToFreeListLoop fuel h curr (h.mem curr).next header

def addToFreeList (fuel : ℕ) (h : Heap) (header : ℕ) : Except Fault Heap :=
  if h.freeList = 0 then .ok ({ h with freeList := header }.setNext header 0)
  else addToFreeListLoop fuel h 0 h.freeList header

def unlink (h : Heap) (prev curr : ℕ) : Heap :=
  if prev = 0 then { h with freeList := (h.mem curr).next }
  else h.setNext prev (h.mem curr).next

/-- Cut the tail off the chosen block when more than a header is left over. -/
def splitTail (fuel : ℕ) (h : Heap) (curr size : ℕ) : Except Fault Heap :=
  if u64 (size + headerSize) < (h.mem curr).size then do
    let next := u64 (curr + headerSize + size)
    let h := (h.setSize next ((h.mem curr).size - size - headerSize)).setIsFree next true
    let h := h.setSize curr size
    let h := { h with freeMem := subWord h.freeMem headerSize }
    let h ← addToFreeList fuel h next
    .ok { h with metadataMem := u64 (h.metadataMem + headerSize) }
  else .ok h

def take (fuel : ℕ) (h : Heap) (prev curr size : ℕ) : Except Fault (Heap × ℕ) := do
  let h ← splitTail fuel ((unlink h prev curr).setIsFree curr false) curr size
  .ok ({ h with usedMem := u64 (h.usedMem + size), freeMem := subWord h.freeMem size },
    u64 (curr + headerSize))

def allocateLoop (fuel : ℕ) : ℕ → Heap → ℕ → ℕ → ℕ → Except Fault (Heap × ℕ)
  | 0, _, _, _, _ => .error .unbounded
  | turns + 1, h, prev, curr, size =>
    if curr = 0 then .error (.panic "kmalloc: out of memory")
    else if size ≤ (h.mem curr).size then take fuel h prev curr size
    else allocateLoop fuel turns h curr (h.mem curr).next size

def allocate (fuel : ℕ) (h : Heap) (size : ℕ) : Except Fault (Heap × ℕ) :=
  allocateLoop fuel fuel h 0 h.freeList (alignUp size minSize)

def free (fuel : ℕ) (h : Heap) (ptr : ℕ) : Except Fault Heap :=
  let header := subWord ptr headerSize
  let h := h.setIsFree header true
  addToFreeList fuel { h with
    usedMem := subWord h.usedMem (h.mem header).size
    freeMem := u64 (h.freeMem + (h.mem header).size) } header

open BlockTiling SortedBlocks Block

theorem bind_eq_ok {α β : Type} {x : Except Fault α} {f : α → Except Fault β} {b} :
    (x >>= f) = .ok b ↔ ∃ a, x = .ok a ∧ f a = .ok b := by
  cases x with
  | error e =>
    constructor
    · intro h; cases h
    · rintro ⟨_, h, _⟩; cases h
  | ok a =>
    constructor
    · intro h; exact ⟨a, rfl, h⟩
    · rintro ⟨_, h, hf⟩; cases h; exact hf

section Fields

variable (h : Heap) (a x v : ℕ) (f : Bool)

@[simp] theorem setSize_size : ((h.setSize a v).mem x).size =
    if x = a then v % 2 ^ 62 else (h.mem x).size := by
  by_cases hx : x = a <;> simp [setSize, hx]

@[simp] theorem setSize_isFree : ((h.setSize a v).mem x).isFree = (h.mem x).isFree := by
  by_cases hx : x = a <;> simp [setSize, hx]

@[simp] theorem setSize_next : ((h.setSize a v).mem x).next = (h.mem x).next := by
  by_cases hx : x = a <;> simp [setSize, hx]

@[simp] theorem setIsFree_size : ((h.setIsFree a f).mem x).size = (h.mem x).size := by
  by_cases hx : x = a <;> simp [setIsFree, hx]

@[simp] theorem setIsFree_isFree : ((h.setIsFree a f).mem x).isFree =
    if x = a then f else (h.mem x).isFree := by
  by_cases hx : x = a <;> simp [setIsFree, hx]

@[simp] theorem setIsFree_next : ((h.setIsFree a f).mem x).next = (h.mem x).next := by
  by_cases hx : x = a <;> simp [setIsFree, hx]

@[simp] theorem setNext_size : ((h.setNext a v).mem x).size = (h.mem x).size := by
  by_cases hx : x = a <;> simp [setNext, hx]

@[simp] theorem setNext_isFree : ((h.setNext a v).mem x).isFree = (h.mem x).isFree := by
  by_cases hx : x = a <;> simp [setNext, hx]

@[simp] theorem setNext_next : ((h.setNext a v).mem x).next =
    if x = a then v else (h.mem x).next := by
  by_cases hx : x = a <;> simp [setNext, hx]

@[simp] theorem dropHeader_mem : h.dropHeader.mem = h.mem := rfl
variable {a x}

theorem setSize_mem (hx : x ≠ a) : (h.setSize a v).mem x = h.mem x := Function.update_of_ne hx _ _

theorem setIsFree_mem (hx : x ≠ a) : (h.setIsFree a f).mem x = h.mem x :=
  Function.update_of_ne hx _ _

theorem setNext_mem (hx : x ≠ a) : (h.setNext a v).mem x = h.mem x := Function.update_of_ne hx _ _

end Fields

def Stored (h : Heap) (b : Block) : Prop :=
  (h.mem b.addr).size = b.size ∧ (h.mem b.addr).isFree = b.free

def Heap.nextOf (h : Heap) (a : ℕ) : ℕ := (h.mem a).next

/-- The addresses the heap occupies: away from null, below the top of the address
space, and short enough for the 62-bit size field. -/
structure Arena (lo hi : ℕ) : Prop where
  pos : 0 < lo
  top : hi < 2 ^ 64
  span : hi - lo < 2 ^ 62

/-- The blocks `bs` are what memory holds between `lo` and `hi`, and the free list
runs through exactly the free ones. -/
structure Represents (lo hi : ℕ) (h : Heap) (bs : List Block) : Prop where
  tiles : Tiles headerSize lo bs hi
  stored : ∀ b ∈ bs, Stored h b
  linked : Linked h.nextOf h.freeList (freeAddrs bs)

variable {lo hi : ℕ} {h : Heap} {b p : Block} {bs pre post : List Block} {curr prev fuel : ℕ}

variable {l : List ℕ} {a c : Block} {h' : Heap} {size : ℕ}

theorem Stored.congr (hs : Stored h b) (hz : (h'.mem b.addr).size = (h.mem b.addr).size)
    (hf : (h'.mem b.addr).isFree = (h.mem b.addr).isFree) : Stored h' b :=
  ⟨hz.trans hs.1, hf.trans hs.2⟩

theorem stored_of_ne (hs : Stored h c) (hc : h'.mem c.addr = h.mem c.addr) : Stored h' c :=
  hs.congr (by rw [hc]) (by rw [hc])

theorem headerSize_pos : 0 < headerSize := by decide

theorem size_lt (A : Arena lo hi) (ht : Tiles headerSize lo bs hi) (hb : b ∈ bs) :
    b.size < 2 ^ 62 := by
  have hbnd := ht.bounds hb
  have hspan := A.span
  unfold Block.stop at hbnd
  omega

theorem addr_lt_stop (b : Block) : b.addr < b.stop headerSize := by
  unfold Block.stop headerSize
  omega

@[simp] theorem nextOf_swallow (h : Heap) (a c : ℕ) : (h.swallow a c).nextOf = h.nextOf := by
  funext x
  simp [nextOf, swallow]

theorem segment_setNext {p q a v : ℕ} (hl : Segment h.nextOf p l q) (ha : a ∉ l) :
    Segment (h.setNext a v).nextOf p l q := by
  refine Segment.congr hl fun x hx => ?_
  have : x ≠ a := fun e => ha (e ▸ hx)
  simp [nextOf, this]

@[simp] theorem nextOf_setNext_self (h : Heap) (a v : ℕ) : (h.setNext a v).nextOf a = v := by
  simp [nextOf]

/-- The counters went along with the blocks. -/
structure Keeps (h : Heap) (bs : List Block) (h' : Heap) (bs' : List Block) : Prop where
  used : h'.usedMem = h.usedMem
  free : (h'.freeMem + total true bs) % 2 ^ 64 = (h.freeMem + total true bs') % 2 ^ 64
  metadata : (h'.metadataMem + headerSize * bs.length) % 2 ^ 64 =
    (h.metadataMem + headerSize * bs'.length) % 2 ^ 64
  free_lt : h.freeMem < 2 ^ 64 → h'.freeMem < 2 ^ 64
  metadata_lt : h.metadataMem < 2 ^ 64 → h'.metadataMem < 2 ^ 64

theorem Keeps.trans {h₁ h₂ h₃ bs₁ bs₂ bs₃} (h : Keeps h₁ bs₁ h₂ bs₂) (h' : Keeps h₂ bs₂ h₃ bs₃) :
    Keeps h₁ bs₁ h₃ bs₃ := by
  have hf := h.free
  have hf' := h'.free
  have hm := h.metadata
  have hm' := h'.metadata
  exact ⟨h'.used.trans h.used, by omega, by omega, h'.free_lt ∘ h.free_lt,
    h'.metadata_lt ∘ h.metadata_lt⟩

theorem keeps_join (ha : a.free) (hc : c.free) (hused : h'.usedMem = h.usedMem)
    (hfree : h'.freeMem = h.freeMem) (hmeta : h'.metadataMem = h.metadataMem) :
    Keeps h (pre ++ a :: c :: post) h'.dropHeader (pre ++ a.join headerSize c :: post) := by
  refine ⟨hused, ?_, ?_, fun _ => u64_lt _, fun _ => Nat.mod_lt _ (by decide)⟩
  · simp only [dropHeader, hfree, total_append, total_cons, ha, hc, Block.join, u64, if_true]
    omega
  · simp only [dropHeader, hmeta, length_append, length_cons, headerSize, subWord]
    omega

/-- What the walk does once it stands before the entries `rest`. -/
def insertAt (h : Heap) (prev header : ℕ) : List ℕ → Heap
  | [] => insertAtEnd h prev header
  | c :: _ => insertBefore h prev c header

section Frame

variable {header x : ℕ}

theorem mergeNext_mem (hx : x ≠ header) : (mergeNext h header curr).mem x = h.mem x := by
  unfold mergeNext
  split
  · rw [dropHeader_mem, setNext_mem _ _ hx, swallow, setSize_mem _ _ hx]
  · rw [setNext_mem _ _ hx]

theorem mergePrev_mem (hx : x ≠ prev) : (mergePrev h prev header curr).1.mem x = h.mem x := by
  unfold mergePrev
  split
  · rw [dropHeader_mem, setNext_mem _ _ hx, swallow, setSize_mem _ _ hx]
  · rw [setNext_mem _ _ hx]

theorem mergePrev_snd (h : Heap) (prev header curr : ℕ) :
    (mergePrev h prev header curr).2 = prev ∨ (mergePrev h prev header curr).2 = header := by
  unfold mergePrev
  split
  · exact .inl rfl
  · exact .inr rfl

theorem insertBefore_mem (hx : x ≠ prev) (hx' : x ≠ header) :
    (insertBefore h prev curr header).mem x = h.mem x := by
  unfold insertBefore
  split
  · rw [mergeNext_mem hx']
  have hne : x ≠ (mergePrev h prev header curr).2 := by
    rcases mergePrev_snd h prev header curr with he | he <;> rw [he]
    · exact hx
    · exact hx'
  dsimp only
  rw [mergeNext_mem hne, mergePrev_mem hx]

theorem insertAtEnd_mem (hx : x ≠ prev) (hx' : x ≠ header) :
    (insertAtEnd h prev header).mem x = h.mem x := by
  unfold insertAtEnd
  dsimp only
  split
  · rw [dropHeader_mem, setNext_mem _ _ hx, swallow, setSize_mem _ _ hx,
      setNext_mem _ _ hx', setNext_mem _ _ hx]
  · rw [setNext_mem _ _ hx', setNext_mem _ _ hx]

theorem insertAt_mem (hx : x ≠ prev) (hx' : x ≠ header) (r : List ℕ) :
    (insertAt h prev header r).mem x = h.mem x := by
  cases r with
  | nil => exact insertAtEnd_mem hx hx'
  | cons c r => exact insertBefore_mem hx hx'

theorem lastAddr_mem (l : List ℕ) : lastAddr l = 0 ∨ lastAddr l ∈ l := by
  rcases eq_nil_or_concat l with rfl | ⟨xs, a, rfl⟩
  · exact .inl rfl
  · refine .inr ?_
    rw [concat_eq_append, lastAddr_concat]
    simp

end Frame

/-- Blocks whose addresses and sizes fit into their fields, also after a merge. -/
structure Mergeable (P : Block → Prop) : Prop where
  pos : ∀ {b}, P b → 0 < b.addr
  top : ∀ {b}, P b → b.stop headerSize < 2 ^ 64
  size_lt : ∀ {b}, P b → b.size < 2 ^ 62
  join : ∀ {a b}, P a → P b → a.stop headerSize = b.addr → P (a.join headerSize b)

/-- Free blocks in ascending order, which may stand on the list. -/
structure Ready (P : Block → Prop) (h : Heap) (fs : List Block) : Prop where
  stored : ∀ f ∈ fs, Stored h f
  free : ∀ f ∈ fs, f.free = true
  admitted : ∀ f ∈ fs, P f
  ascending : Ascending headerSize fs

structure FreeList (P : Block → Prop) (h : Heap) (fs : List Block) : Prop
    extends Ready P h fs where
  linked : Linked h.nextOf h.freeList (fs.map addr)

theorem addr_notMem (ha : Ascending headerSize (pre ++ b :: post)) :
    b.addr ∉ pre.map addr ∧ b.addr ∉ post.map addr := by
  have hsorted := ha.addrs headerSize_pos
  rw [map_append, map_cons, pairwise_append, pairwise_cons] at hsorted
  constructor
  · intro hm
    exact lt_irrefl _ (hsorted.2.2 b.addr hm b.addr mem_cons_self)
  · intro hm
    exact lt_irrefl _ (hsorted.2.1.1 b.addr hm)

theorem addr_ne (ha : Ascending headerSize (pre ++ b :: post)) (hc : c ∈ pre ∨ c ∈ post) :
    c.addr ≠ b.addr := by
  obtain ⟨hpre, hpost⟩ := addr_notMem ha
  rintro he
  rcases hc with hc | hc
  · exact hpre (he ▸ mem_map_of_mem hc)
  · exact hpost (he ▸ mem_map_of_mem hc)

section Merging

variable {P : Block → Prop} {fs xs : List Block}

theorem Ready.congr (hr : Ready P h fs) (hz : ∀ x, (h'.mem x).size = (h.mem x).size)
    (hf : ∀ x, (h'.mem x).isFree = (h.mem x).isFree) : Ready P h' fs :=
  ⟨fun f hm => (hr.stored f hm).congr (hz f.addr) (hf f.addr), hr.free, hr.admitted, hr.ascending⟩

theorem Ready.setNext (hr : Ready P h fs) (x v : ℕ) : Ready P (h.setNext x v) fs :=
  hr.congr (by simp) (by simp)

variable (hP : Mergeable P)

include hP

theorem meets_iff (hb : P b) (hs : Stored h b) (x : ℕ) :
    h.meets b.addr x ↔ b.stop headerSize = x := by
  have htop := hP.top hb
  unfold meets
  rw [hs.1, u64_of_lt (by unfold stop at htop; omega)]
  exact beq_iff_eq

theorem Ready.swallow (hr : Ready P h (pre ++ a :: c :: post)) (he : a.stop headerSize = c.addr) :
    Ready P (h.swallow a.addr c.addr) (pre ++ a.join headerSize c :: post) := by
  have hother : ∀ x, x ∈ pre ∨ x ∈ c :: post → Stored (h.swallow a.addr c.addr) x := by
    intro x hx
    refine stored_of_ne (hr.stored x ?_) (setSize_mem _ _ (addr_ne hr.ascending hx))
    simp only [mem_append, mem_cons] at hx ⊢
    tauto
  obtain ⟨hs, hf, hp, ha⟩ := hr
  simp only [forall_mem_append, forall_mem_cons] at hs hf hp
  have hjoin : P (a.join headerSize c) := hP.join hp.2.1 hp.2.2.1 he
  have hstored : Stored (h.swallow a.addr c.addr) (a.join headerSize c) := by
    refine ⟨?_, ?_⟩
    · simp only [Heap.swallow, join, setSize_size, ite_true, hs.2.1.1, hs.2.2.1.1]
      exact Nat.mod_eq_of_lt (hP.size_lt hjoin)
    · simp only [Heap.swallow, join, setSize_isFree, hs.2.1.2, hf.2.1]
  refine ⟨?_, ?_, ?_, ascending_join he ha⟩ <;> simp only [forall_mem_append, forall_mem_cons]
  · exact ⟨fun x hx => hother x (.inl hx), hstored, fun x hx => hother x (.inr (by simp [hx]))⟩
  · exact ⟨hf.1, rfl, hf.2.2.2⟩
  · exact ⟨hp.1, hjoin, hp.2.2.2⟩

theorem Ready.link (hr : Ready P h (pre ++ b :: post))
    (hl : Segment h.nextOf h.freeList (pre.map addr) b.addr)
    (hn : Linked h.nextOf curr (post.map addr)) :
    FreeList P (h.setNext b.addr curr) (pre ++ b :: post) := by
  obtain ⟨hpre, hpost⟩ := addr_notMem hr.ascending
  have hpos := hP.pos (hr.admitted b (by simp))
  refine ⟨hr.setNext _ _, ?_⟩
  rw [map_append, map_cons]
  refine segment_append.2 ⟨b.addr, segment_setNext hl hpre, rfl, by omega, ?_⟩
  rw [nextOf_setNext_self]
  exact segment_setNext hn hpost

omit hP in
theorem FreeList.dropHeader (hl : FreeList P h fs) : FreeList P h.dropHeader fs :=
  ⟨⟨hl.stored, hl.free, hl.admitted, hl.ascending⟩, hl.linked⟩

theorem mergeNext_spec (hr : Ready P h (pre ++ b :: post))
    (hl : Segment h.nextOf h.freeList (pre.map addr) b.addr)
    (hn : Linked h.nextOf curr (post.map addr)) :
    let fs := pre ++ (joinRight headerSize b post).1 :: (joinRight headerSize b post).2
    FreeList P (mergeNext h b.addr curr) fs ∧
      Keeps h (pre ++ b :: post) (mergeNext h b.addr curr) fs := by
  have hmem : b ∈ pre ++ b :: post := by simp
  have hmeet := meets_iff hP (hr.admitted b hmem) (hr.stored b hmem) curr
  unfold mergeNext
  rcases joinRight_cases headerSize b post with ⟨q, qs, rfl, hq, he⟩ | ⟨hq, he⟩
  · -- the block that it touches is the next entry of the list
    have hqm : q ∈ pre ++ b :: q :: qs := by simp
    obtain ⟨rfl, -, hrest⟩ := hn
    have hcond : (h.meets b.addr q.addr && (h.mem q.addr).isFree) := by
      rw [hmeet.2 hq, (hr.stored q hqm).2, hr.free q hqm]
      rfl
    rw [he, if_pos hcond]
    refine ⟨((hr.swallow hP hq).link (b := b.join headerSize q) hP ?_ ?_).dropHeader,
      keeps_join (hr.free b hmem) (hr.free q hqm) rfl rfl rfl⟩
    · rw [nextOf_swallow]
      exact hl
    · rw [nextOf_swallow]
      exact hrest
  · have hcond : ¬ (h.meets b.addr curr && (h.mem curr).isFree) := by
      rw [Bool.and_eq_true, hmeet]
      rintro ⟨hstop, -⟩
      cases post with
      | nil =>
        have hcurr : curr = 0 := hn
        have hlt := addr_lt_stop b
        omega
      | cons q qs =>
        obtain ⟨rfl, -, -⟩ := hn
        exact hq q rfl hstop
    rw [he, if_neg hcond]
    exact ⟨hr.link hP hl hn, rfl, rfl, rfl, id, id⟩

theorem meets_last (hr : Ready P h (xs ++ p :: post)) (x : ℕ) :
    (h.meets p.addr x && (h.mem p.addr).isFree) ↔ p.stop headerSize = x := by
  have hpm : p ∈ xs ++ p :: post := by simp
  rw [Bool.and_eq_true, meets_iff hP (hr.admitted p hpm) (hr.stored p hpm), (hr.stored p hpm).2]
  exact and_iff_left (hr.free p hpm)

omit hP in
theorem joinLeft_concat (xs : List Block) (p b : Block) : joinLeft headerSize (xs ++ [p]) b =
    if p.stop headerSize = b.addr then (xs, p.join headerSize b) else (xs ++ [p], b) := by
  simp [joinLeft]

theorem mergePrev_spec (hr : Ready P h (xs ++ p :: b :: post))
    (hl : Segment h.nextOf h.freeList (xs.map addr) p.addr)
    (hn : Linked h.nextOf curr (post.map addr)) :
    ∃ h' ys d, mergePrev h p.addr b.addr curr = (h', d.addr) ∧
      joinLeft headerSize (xs ++ [p]) b = (ys, d) ∧ Ready P h' (ys ++ d :: post) ∧
      Segment h'.nextOf h'.freeList (ys.map addr) d.addr ∧
      Linked h'.nextOf curr (post.map addr) ∧
      Keeps h (xs ++ p :: b :: post) h' (ys ++ d :: post) := by
  have hmeet := meets_last hP hr b.addr
  have hpos := hP.pos (hr.admitted p (by simp))
  obtain ⟨hxs, hrest⟩ := addr_notMem hr.ascending
  have hpost : p.addr ∉ post.map addr := fun hm => hrest (mem_cons_of_mem _ hm)
  rw [joinLeft_concat]
  unfold mergePrev
  by_cases hstop : p.stop headerSize = b.addr
  · rw [if_pos (hmeet.2 hstop), if_pos hstop]
    refine ⟨_, xs, p.join headerSize b, rfl, rfl, ((hr.swallow hP hstop).setNext _ _).congr
      (fun _ => rfl) fun _ => rfl, segment_setNext ?_ hxs, segment_setNext ?_ hpost,
      keeps_join (hr.free p (by simp)) (hr.free b (by simp)) rfl rfl rfl⟩
    · rw [nextOf_swallow]
      exact hl
    · rw [nextOf_swallow]
      exact hn
  · rw [if_neg (mt hmeet.1 hstop), if_neg hstop]
    refine ⟨_, _, _, rfl, rfl, ?_, ?_, segment_setNext hn hpost, ?_⟩
    · rw [append_assoc]
      exact hr.setNext _ _
    · rw [map_append, map_singleton]
      exact segment_concat.2 ⟨segment_setNext hl hxs, by omega, nextOf_setNext_self _ _ _⟩
    · rw [append_assoc]
      exact ⟨rfl, rfl, rfl, id, id⟩

/-- The block between `pre` and `post` was put in its place on the list. -/
def Inserted (P : Block → Prop) (h : Heap) (pre : List Block) (b : Block) (post : List Block)
    (h' : Heap) : Prop :=
  FreeList P h' (place headerSize pre b post) ∧
    Keeps h (pre ++ b :: post) h' (place headerSize pre b post)

theorem insertBefore_spec (hr : Ready P h (pre ++ b :: post))
    (hl : Segment h.nextOf h.freeList (pre.map addr) curr)
    (hn : Linked h.nextOf curr (post.map addr)) :
    Inserted P h pre b post (insertBefore h (lastAddr (pre.map addr)) curr b.addr) := by
  unfold Inserted place insertBefore
  rcases eq_nil_or_concat pre with rfl | ⟨xs, p, hpre⟩
  · obtain ⟨hlist, hkeep⟩ := mergeNext_spec (h := { h with freeList := b.addr }) hP
      (hr.congr (fun _ => rfl) fun _ => rfl) rfl hn
    exact ⟨hlist, hkeep.used, hkeep.free, hkeep.metadata, hkeep.free_lt, hkeep.metadata_lt⟩
  rw [concat_eq_append] at hpre
  subst hpre
  rw [map_append, map_singleton] at hl ⊢
  obtain ⟨hseg, hne, -⟩ := segment_concat.1 hl
  rw [append_assoc, singleton_append] at hr ⊢
  obtain ⟨h', ys, d, hprev, hj, hr', hseg', hn', hkeep⟩ := mergePrev_spec hP hr hseg hn
  rw [lastAddr_concat, if_neg hne, hprev, hj]
  obtain ⟨hlist, hkeep'⟩ := mergeNext_spec hP hr' hseg' hn'
  exact ⟨hlist, hkeep.trans hkeep'⟩

theorem insertAtEnd_spec (hr : Ready P h (xs ++ [p, b]))
    (hl : Segment h.nextOf h.freeList (xs.map addr) p.addr) :
    Inserted P h (xs ++ [p]) b [] (insertAtEnd h p.addr b.addr) := by
  have hpos := hP.pos (hr.admitted p (by simp))
  obtain ⟨hxs, -⟩ := addr_notMem hr.ascending
  have hall : Ready P h ((xs ++ [p]) ++ [b]) := by
    rw [append_assoc]
    exact hr
  obtain ⟨hbs, -⟩ := addr_notMem hall.ascending
  have hr' := (hr.setNext p.addr b.addr).setNext b.addr 0
  have hmeet := meets_last hP hr' b.addr
  unfold Inserted place insertAtEnd
  rw [joinLeft_concat]
  dsimp only
  by_cases hstop : p.stop headerSize = b.addr
  · rw [if_pos (hmeet.2 hstop), if_pos hstop, append_assoc]
    refine ⟨((hr'.swallow hP hstop).link (b := p.join headerSize b) hP ?_ rfl).dropHeader,
      keeps_join (hr.free p (by simp)) (hr.free b (by simp)) rfl rfl rfl⟩
    rw [nextOf_swallow]
    refine segment_setNext (segment_setNext hl hxs) fun hm => hbs ?_
    rw [map_append]
    exact mem_append_left _ hm
  · rw [if_neg (mt hmeet.1 hstop), if_neg hstop]
    refine ⟨(hall.setNext p.addr b.addr).link hP ?_ rfl, rfl, rfl, rfl, id, id⟩
    rw [map_append, map_singleton]
    exact segment_concat.2 ⟨segment_setNext hl hxs, by omega, nextOf_setNext_self _ _ _⟩

theorem insertAt_spec (hr : Ready P h (pre ++ b :: post)) (hne : h.freeList ≠ 0)
    (hl : Linked h.nextOf h.freeList (pre.map addr ++ post.map addr)) :
    Inserted P h pre b post (insertAt h (lastAddr (pre.map addr)) b.addr (post.map addr)) := by
  obtain ⟨m, hseg, hrest⟩ := segment_append.1 hl
  cases post with
  | nil =>
    obtain rfl : m = 0 := hrest
    rcases eq_nil_or_concat pre with rfl | ⟨xs, p, hpre⟩
    · exact absurd hseg hne
    rw [concat_eq_append] at hpre
    subst hpre
    rw [map_append, map_singleton] at hseg ⊢
    rw [append_assoc] at hr
    rw [lastAddr_concat]
    exact insertAtEnd_spec hP hr (segment_concat.1 hseg).1
  | cons q qs =>
    obtain rfl : m = q.addr := hrest.1
    exact insertBefore_spec hP hr hseg hrest

omit hP in
theorem FreeList.unlink (hl : FreeList P h (pre ++ b :: post)) :
    FreeList P (unlink h (lastAddr (pre.map addr)) b.addr) (pre ++ post) := by
  have hsub : pre ++ post <+ pre ++ b :: post := by simp
  have hsmall : Ready P h (pre ++ post) :=
    ⟨fun c hc => hl.stored c (hsub.subset hc), fun c hc => hl.free c (hsub.subset hc),
      fun c hc => hl.admitted c (hsub.subset hc), hl.ascending.sublist hsub⟩
  have hlink := hl.linked
  rw [map_append, map_cons] at hlink
  obtain ⟨m, hseg, rfl, -, hrest⟩ := segment_append.1 hlink
  unfold HeapAllocator.unlink
  rcases eq_nil_or_concat pre with rfl | ⟨xs, p, hpre⟩
  · exact ⟨hsmall.congr (fun _ => rfl) fun _ => rfl, hrest⟩
  rw [concat_eq_append] at hpre
  subst hpre
  have ha := hl.ascending
  rw [append_assoc, singleton_append] at ha
  obtain ⟨hxs, hpost⟩ := addr_notMem ha
  rw [map_append, map_singleton] at hseg
  obtain ⟨hl', hprev0, -⟩ := segment_concat.1 hseg
  rw [map_append, map_singleton, lastAddr_concat, if_neg hprev0]
  refine ⟨hsmall.setNext _ _, ?_⟩
  rw [map_append, map_append, map_singleton]
  refine segment_append.2 ⟨_, segment_concat.2 ⟨segment_setNext hl' hxs, hprev0, rfl⟩, ?_⟩
  rw [nextOf_setNext_self]
  exact segment_setNext hrest fun hm => hpost (mem_cons_of_mem _ hm)

end Merging

theorem addToFreeListLoop_eq {header : ℕ} (r₁ r₂ : List ℕ) (h₁ : ∀ a ∈ r₁, a < header)
    (h₂ : ∀ a ∈ r₂, header < a) (hp : prev < header) (hl : Linked h.nextOf curr (r₁ ++ r₂))
    (hfuel : r₁.length < fuel) :
    addToFreeListLoop fuel h prev curr header =
      .ok (insertAt h (r₁.getLastD prev) header r₂) := by
  induction r₁ generalizing prev curr fuel with
  | nil =>
    obtain ⟨fuel, rfl⟩ := Nat.exists_eq_succ_of_ne_zero (ne_of_gt hfuel)
    cases r₂ with
    | nil =>
      have : curr = 0 := hl
      simp [addToFreeListLoop, insertAt, this]
    | cons c r₂ =>
      obtain ⟨rfl, h0, -⟩ := hl
      have hc := h₂ curr (by simp)
      simp [addToFreeListLoop, insertAt, h0, hp, hc]
  | cons a r₁ ih =>
    obtain ⟨fuel, rfl⟩ := Nat.exists_eq_succ_of_ne_zero (ne_of_gt (Nat.zero_lt_of_lt hfuel))
    obtain ⟨rfl, h0, hrest⟩ := hl
    have ha := h₁ curr (by simp)
    have hstep : addToFreeListLoop (fuel + 1) h prev curr header =
        addToFreeListLoop fuel h curr (h.nextOf curr) header := by
      have : ¬ (prev < header ∧ header < curr) := fun hc => by omega
      simp [addToFreeListLoop, h0, this, nextOf]
    rw [hstep, ih (fun x hx => h₁ x (mem_cons_of_mem _ hx)) ha hrest
      (by simpa using hfuel), getLastD_cons]

def Within (lo hi : ℕ) (b : Block) : Prop := lo ≤ b.addr ∧ b.stop headerSize ≤ hi

theorem Arena.mergeable (A : Arena lo hi) : Mergeable (Within lo hi) where
  pos hb := Nat.lt_of_lt_of_le A.pos hb.1
  top hb := Nat.lt_of_le_of_lt hb.2 A.top
  size_lt {b} hb := by
    have hspan := A.span
    obtain ⟨hlo, hhi⟩ := hb
    unfold stop at hhi
    omega
  join ha hb he := ⟨ha.1, by rw [join_stop he]; exact hb.2⟩

/-- The block between `pre` and `post` was entered into the list and merged. -/
def Enters (lo hi : ℕ) (h : Heap) (pre : List Block) (b : Block) (post : List Block)
    (h' : Heap) : Prop := Represents lo hi h' (settle headerSize pre b post) ∧
    Keeps h (pre ++ b :: post) h' (settle headerSize pre b post)

theorem filter_free_middle (hf : b.free) : (pre ++ b :: post).filter (·.free) =
    pre.filter (·.free) ++ b :: post.filter (·.free) := by
  rw [filter_append, filter_cons_of_pos hf]

theorem ready_filter (ht : Tiles headerSize lo bs hi) (hs : ∀ c ∈ bs, Stored h c) :
    Ready (Within lo hi) h (bs.filter (·.free)) where
  stored f hf := hs f (mem_filter.1 hf).1
  free _ hf := (mem_filter.1 hf).2
  admitted _ hf := ht.bounds (mem_filter.1 hf).1
  ascending := ht.sorted.filter _

theorem Keeps.of_filter (hf : b.free) (ht : Tiles headerSize lo (pre ++ b :: post) hi)
    (hk : Keeps h (pre.filter (·.free) ++ b :: post.filter (·.free)) h'
      (place headerSize (pre.filter (·.free)) b (post.filter (·.free)))) :
    Keeps h (pre ++ b :: post) h' (settle headerSize pre b post) := by
  have htotal : ∀ l : List Block, total true (l.filter (·.free)) = total true l := by
    intro l
    simpa using total_filter true
  rw [← settle_free headerSize_pos hf ht, ← filter_free_middle hf] at hk
  have hused : ((settle headerSize pre b post).filter (!·.free)).length =
      ((pre ++ post).filter (!·.free)).length := by rw [settle_used hf]
  have hlen := (settle headerSize pre b post).length_eq_length_filter_add (·.free)
  have hlen' := (pre ++ b :: post).length_eq_length_filter_add (·.free)
  have hsame : (pre ++ b :: post).filter (!·.free) = (pre ++ post).filter (!·.free) := by
    simp [hf]
  rw [hsame, ← hused] at hlen'
  obtain ⟨hu, hfree, hmeta, hlt, hlt'⟩ := hk
  rw [htotal, htotal] at hfree
  refine ⟨hu, hfree, ?_, hlt, hlt'⟩
  simp only [headerSize] at hmeta hlen hlen' ⊢
  omega

section Tiling

variable (A : Arena lo hi) (ht : Tiles headerSize lo (pre ++ b :: post) hi)
  (hs : ∀ c ∈ pre ++ b :: post, Stored h c) (hf : b.free)

include A ht hs hf

omit A in
theorem enters_of_inserted
    (hi' : Inserted (Within lo hi) h (pre.filter (·.free)) b (post.filter (·.free)) h')
    (hframe : ∀ c, c.free = false → c ∈ pre ∨ c ∈ post → h'.mem c.addr = h.mem c.addr) :
    Enters lo hi h pre b post h' := by
  obtain ⟨hlist, hkeep⟩ := hi'
  refine ⟨⟨tiles_settle ht, ?_, ?_⟩, Keeps.of_filter hf ht hkeep⟩
  · intro c hc
    cases hcf : c.free with
    | true =>
      apply hlist.stored
      rw [← settle_free headerSize_pos hf ht]
      exact mem_filter.2 ⟨hc, hcf⟩
    | false =>
      have hmem := (mem_settle_used hcf hf).1 hc
      refine stored_of_ne (hs c ?_) (hframe c hcf hmem)
      rcases hmem with hm | hm <;> simp [hm]
  · rw [freeAddrs, settle_free headerSize_pos hf ht]
    exact hlist.linked

/-- Freeing the block between `pre` and `post` merges it with its free neighbours. -/
theorem addToFreeList_spec (hl : Linked h.nextOf h.freeList (freeAddrs pre ++ freeAddrs post))
    (hfuel : (freeAddrs pre).length < fuel) :
    ∃ h', addToFreeList fuel h b.addr = .ok h' ∧ Enters lo hi h pre b post h' := by
  have hr := ready_filter ht hs
  rw [filter_free_middle hf] at hr
  have hlo := (ht.bounds (b := b) (by simp)).1
  have hpos := A.pos
  unfold addToFreeList
  by_cases h0 : h.freeList = 0
  · have hnil : freeAddrs pre = [] ∧ freeAddrs post = [] := by
      cases hall : freeAddrs pre ++ freeAddrs post with
      | nil => exact append_eq_nil_iff.mp hall
      | cons a l =>
        rw [hall, h0] at hl
        exact absurd hl.1.symm hl.2.1
    have hp := map_eq_nil_iff.1 hnil.1
    have hq := map_eq_nil_iff.1 hnil.2
    refine ⟨_, if_pos h0, enters_of_inserted ht hs hf ?_ ?_⟩
    · rw [hp, hq] at hr ⊢
      exact ⟨Ready.link (h := { h with freeList := b.addr }) A.mergeable
        (hr.congr (fun _ => rfl) fun _ => rfl) rfl rfl, rfl, rfl, rfl, id, id⟩
    · intro c _ hc
      exact setNext_mem _ _ (addr_ne ht.sorted hc)
  · have hnull : 0 < b.addr := by omega
    have hloop := addToFreeListLoop_eq (freeAddrs pre) _
      (fun a ha => freeAddrs_lt_middle headerSize_pos ht ha)
      (fun a ha => Nat.lt_of_lt_of_le (addr_lt_stop b)
        (stop_le_freeAddrs_middle headerSize_pos ht ha)) hnull hl hfuel
    rw [if_neg h0, hloop]
    refine ⟨_, rfl, enters_of_inserted ht hs hf (insertAt_spec A.mergeable hr h0 hl) ?_⟩
    intro c hcf hc
    refine insertAt_mem ?_ (addr_ne ht.sorted hc) _
    -- the entry before is a free block, or there is none
    have hmem : c ∈ pre ++ b :: post := by rcases hc with hc | hc <;> simp [hc]
    have hclo := (ht.bounds hmem).1
    intro he
    rcases lastAddr_mem (freeAddrs pre) with hz | hm
    · have hzero : c.addr = 0 := he.trans hz
      omega
    obtain ⟨d, hd, hdf, hda⟩ := mem_freeAddrs.1 hm
    have hcd : c = d :=
      ht.addr_inj headerSize_pos hmem (mem_append_left _ hd) (he.trans hda.symm)
    rw [hcd, hdf] at hcf
    cases hcf

end Tiling

theorem Represents.of_same_memory (hr : Represents lo hi h bs) (hm : h'.mem = h.mem)
    (hl : h'.freeList = h.freeList) : Represents lo hi h' bs := by
  have hn : h'.nextOf = h.nextOf := by
    funext a
    rw [nextOf, nextOf, hm]
  refine ⟨hr.tiles, fun b hb => ?_, ?_⟩
  · rw [Stored, hm]; exact hr.stored b hb
  · rw [hn, hl]; exact hr.linked

theorem unlink_spec (hr : Represents lo hi h (pre ++ b :: post)) (hf : b.free) :
    (∀ c ∈ pre ++ { b with free := false } :: post,
      Stored ((unlink h (lastAddr (freeAddrs pre)) b.addr).setIsFree b.addr false) c) ∧
    Linked ((unlink h (lastAddr (freeAddrs pre)) b.addr).setIsFree b.addr false).nextOf
      ((unlink h (lastAddr (freeAddrs pre)) b.addr).setIsFree b.addr false).freeList
      (freeAddrs pre ++ freeAddrs post) := by
  obtain ⟨ht, hs, hl⟩ := hr
  have hready := ready_filter ht hs
  rw [freeAddrs, filter_free_middle hf] at hl
  rw [filter_free_middle hf] at hready
  have hlist := FreeList.unlink (FreeList.mk hready hl)
  change FreeList _ (unlink h (lastAddr (freeAddrs pre)) b.addr) _ at hlist
  have hsize : ∀ x, ((unlink h (lastAddr (freeAddrs pre)) b.addr).mem x).size = (h.mem x).size := by
    intro x; unfold unlink; split_ifs <;> simp
  have hfree : ∀ x, ((unlink h (lastAddr (freeAddrs pre)) b.addr).mem x).isFree =
      (h.mem x).isFree := by
    intro x; unfold unlink; split_ifs <;> simp
  have hother : ∀ c, c ∈ pre ∨ c ∈ post →
      Stored ((unlink h (lastAddr (freeAddrs pre)) b.addr).setIsFree b.addr false) c := by
    intro c hc
    have hne := addr_ne ht.sorted hc
    have hmem : c ∈ pre ++ b :: post := by rcases hc with hc | hc <;> simp [hc]
    exact (hs c hmem).congr (by simp [hsize]) (by simp [hfree, hne])
  constructor
  · simp only [forall_mem_append, forall_mem_cons]
    refine ⟨fun c hc => hother c (.inl hc), ⟨?_, ?_⟩, fun c hc => hother c (.inr hc)⟩
    · rw [setIsFree_size, hsize, (hs b (by simp)).1]
    · simp
  · have hlink := hlist.linked
    rw [map_append] at hlink
    exact Segment.congr hlink fun x _ => by simp [nextOf]

/-- How the blocks change when `b` is handed out for `size` bytes. -/
structure Carved (size : ℕ) (pre : List Block) (b : Block) (post bs : List Block) (u : Block) :
    Prop where
  here : u ∈ bs
  used : u.free = false
  start : u.addr = b.addr
  room : size ≤ u.size
  exact : u.size = if size + headerSize < b.size then size else b.size
  used_total : total false bs = total false pre + u.size + total false post
  coalesced : Coalesced (pre ++ b :: post) → Coalesced bs
  others : ∀ c, c.free = false → (c ∈ bs ↔ c = u ∨ c ∈ pre ∨ c ∈ post)

theorem coalesced_parts (hc : c.free = false) (h : Coalesced (pre ++ b :: post)) :
    Coalesced (pre ++ [c]) ∧ Coalesced post := by
  obtain ⟨hp, hq, -⟩ := isChain_append.mp h
  refine ⟨(coalesced_middle_used hc).mpr ⟨hp, List.IsChain.nil⟩, ?_⟩
  exact (isChain_cons.mp hq).2

def front (b : Block) (size : ℕ) : Block := ⟨b.addr, size, false⟩

def remainder (b : Block) (size : ℕ) : Block :=
  ⟨b.addr + headerSize + size, b.size - size - headerSize, true⟩

def writeCut (h : Heap) (b : Block) (size : ℕ) : Heap :=
  ((h.setSize (remainder b size).addr (remainder b size).size).setIsFree (remainder b size).addr
    true).setSize b.addr size

theorem addr_ne_remainder (b : Block) (size : ℕ) : b.addr ≠ (remainder b size).addr := by
  simp only [remainder, headerSize]
  omega

theorem writeCut_mem {x : ℕ} (hx : x ≠ b.addr) (hx' : x ≠ (remainder b size).addr) :
    (writeCut h b size).mem x = h.mem x := by
  rw [writeCut, setSize_mem _ _ hx, setIsFree_mem _ _ hx', setSize_mem _ _ hx']

theorem writeCut_stored (hb : (h.mem b.addr).isFree = false) (hlt : b.size < 2 ^ 62)
    (hle : size + headerSize ≤ b.size) :
    Stored (writeCut h b size) (front b size) ∧ Stored (writeCut h b size) (remainder b size) := by
  have hne := addr_ne_remainder b size
  refine ⟨⟨?_, ?_⟩, ⟨?_, ?_⟩⟩
  · simp only [writeCut, front, setSize_size, ite_true]
    exact Nat.mod_eq_of_lt (by omega)
  · simp only [writeCut, front, setSize_isFree, setIsFree_isFree, if_neg hne, hb]
  · simp only [writeCut, setSize_size, setIsFree_size, ite_true, if_neg hne.symm]
    exact Nat.mod_eq_of_lt (by simp only [remainder]; omega)
  · simp only [writeCut, setSize_isFree, setIsFree_isFree, ite_true, remainder]

theorem tiles_cut (ht : Tiles headerSize lo (pre ++ { b with free := false } :: post) hi)
    (hlt : size + headerSize < b.size) :
    Tiles headerSize lo ((pre ++ [front b size]) ++ remainder b size :: post) hi := by
  obtain ⟨hp, hq⟩ := tiles_middle.mp ht
  have hstop : (remainder b size).stop headerSize =
      Block.stop headerSize { b with free := false } := by
    simp only [remainder, Block.stop]
    omega
  rw [append_assoc, singleton_append]
  exact tiles_middle.mpr ⟨hp, rfl, hstop ▸ hq⟩

theorem stored_cut (A : Arena lo hi)
    (ht : Tiles headerSize lo (pre ++ { b with free := false } :: post) hi)
    (hs : ∀ c ∈ pre ++ { b with free := false } :: post, Stored h c)
    (hlt : size + headerSize < b.size) :
    ∀ c ∈ (pre ++ [front b size]) ++ remainder b size :: post, Stored (writeCut h b size) c := by
  have hfit := size_lt A ht (b := { b with free := false }) (by simp)
  obtain ⟨hfront, hrest⟩ := writeCut_stored (hs { b with free := false } (by simp)).2 hfit
    (Nat.le_of_lt hlt)
  intro c hc
  have hcases : (c ∈ pre ∨ c ∈ post) ∨ c = front b size ∨ c = remainder b size := by
    simp only [mem_append, mem_cons] at hc
    tauto
  rcases hcases with hc | rfl | rfl
  · have hm : c ∈ pre ++ { b with free := false } :: post := by
      rcases hc with hc | hc <;> simp [hc]
    have hne := addr_ne ht.sorted hc
    exact stored_of_ne (hs c hm) (writeCut_mem hne
      (addr_ne (tiles_cut ht hlt).sorted (hc.imp_left (mem_append_left _))))
  · exact hfront
  · exact hrest

theorem keeps_cut (hlt : size + headerSize < b.size)
    (hk : Keeps { writeCut h b size with freeMem := subWord h.freeMem headerSize }
      ((pre ++ [front b size]) ++ remainder b size :: post) h' bs) :
    Keeps { h with freeMem := h.freeMem + size } (pre ++ { b with free := true } :: post)
      { h' with metadataMem := u64 (h'.metadataMem + headerSize) } bs := by
  have hf := hk.free
  have hm := hk.metadata
  simp only [writeCut, setSize, setIsFree, front, remainder, total_append, total_cons,
    total_nil, length_append, length_cons, length_nil, subWord, headerSize,
    if_true, Bool.false_eq_true, if_false] at hf hm hlt
  refine ⟨hk.used, ?_, ?_, fun _ => hk.free_lt (Nat.mod_lt _ (by decide)), fun _ => u64_lt _⟩
  · simp only [total_append, total_cons, if_true]
    omega
  · simp only [length_append, length_cons, u64, headerSize]
    omega

theorem splitTail_spec (A : Arena lo hi)
    (ht : Tiles headerSize lo (pre ++ { b with free := false } :: post) hi)
    (hs : ∀ c ∈ pre ++ { b with free := false } :: post, Stored h c)
    (hl : Linked h.nextOf h.freeList (freeAddrs pre ++ freeAddrs post)) (hsize : size ≤ b.size)
    (hfuel : (freeAddrs pre).length < fuel) :
    ∃ h' bs u, splitTail fuel h b.addr size = .ok h' ∧ Represents lo hi h' bs ∧
      Carved size pre b post bs u ∧
      Keeps { h with freeMem := h.freeMem + u.size } (pre ++ { b with free := true } :: post)
        h' bs := by
  have hbs := hs { b with free := false } (by simp)
  have hbnd := ht.bounds (b := { b with free := false }) (by simp)
  have htop := A.top
  simp only [Block.stop, headerSize] at hbnd
  unfold splitTail
  rw [hbs.1, u64_of_lt (by simp only [headerSize]; omega)]
  by_cases hlt : size + headerSize < b.size
  · -- the block is cut into the part handed out and a free tail
    rw [if_pos hlt, u64_of_lt (by simp only [headerSize] at hlt ⊢; omega)]
    have hpre : freeAddrs (pre ++ [front b size]) = freeAddrs pre := by
      rw [freeAddrs_append, freeAddrs_cons_used rfl, freeAddrs_nil, append_nil]
    have hn : Heap.nextOf { writeCut h b size with freeMem := subWord h.freeMem headerSize } =
        h.nextOf := by
      funext x
      simp [writeCut, nextOf]
    obtain ⟨h', hadd, hrep, hkeep⟩ := addToFreeList_spec
      (h := { writeCut h b size with freeMem := subWord h.freeMem headerSize }) A
      (tiles_cut ht hlt) (fun c hc => stored_of_ne (stored_cut A ht hs hlt c hc) rfl) rfl
      (by rw [hpre, hn]; exact hl) (by rw [hpre]; exact hfuel)
    refine ⟨{ h' with metadataMem := u64 _ }, _, front b size,
      bind_eq_ok.mpr ⟨h', hadd, rfl⟩, hrep.of_same_memory rfl rfl,
      ⟨?_, rfl, rfl, le_rfl, (if_pos hlt).symm, ?_, ?_, ?_⟩, keeps_cut hlt hkeep⟩
    · exact (mem_settle_used rfl rfl).mpr (.inl (by simp))
    · rw [total_settle_used rfl]
      simp [front]
    · intro hco
      obtain ⟨hp, hq⟩ := coalesced_parts (c := front b size) rfl hco
      exact coalesced_settle hp hq
    · intro c hc
      rw [mem_settle_used hc rfl, mem_append, mem_singleton]
      tauto
  · rw [if_neg hlt]
    refine ⟨h, _, { b with free := false }, rfl, ⟨ht, hs, ?_⟩,
      ⟨by simp, rfl, rfl, hsize, (if_neg hlt).symm, ?_, ?_, ?_⟩, rfl, ?_, ?_,
      fun hw => Nat.lt_of_le_of_lt (Nat.le_add_right _ _) hw, id⟩
    · rw [freeAddrs_append, freeAddrs_cons_used rfl]
      exact hl
    · simp [add_assoc]
    · intro hco
      obtain ⟨hp, hq⟩ := coalesced_parts (c := { b with free := false }) rfl hco
      exact (coalesced_middle_used rfl).mpr ⟨((coalesced_middle_used rfl).mp hp).1, hq⟩
    · intro c _
      simp only [mem_append, mem_cons]
      tauto
    · simp only [total_append, total_cons, if_true, Bool.false_eq_true, if_false]
      congr 1
      omega
    · simp only [length_append, length_cons]

/-- What taking the block `u` for `size` bytes does to the counters: a block that is larger
than `size` is not counted in full. -/
def Charged (h : Heap) (bs : List Block) (h' : Heap) (bs' : List Block) (size : ℕ) (u : Block) :
    Prop :=
  Keeps { h with usedMem := u64 (h.usedMem + size), freeMem := h.freeMem + (u.size - size) } bs
    h' bs'

theorem unlink_counters (h : Heap) (prev curr : ℕ) :
    (unlink h prev curr).usedMem = h.usedMem ∧ (unlink h prev curr).freeMem = h.freeMem ∧
      (unlink h prev curr).metadataMem = h.metadataMem := by
  unfold unlink
  split <;> exact ⟨rfl, rfl, rfl⟩

theorem take_spec (A : Arena lo hi) (hr : Represents lo hi h (pre ++ b :: post))
    (hf : b.free) (hsize : size ≤ b.size) (hfuel : (freeAddrs pre).length < fuel) :
    ∃ h' bs u, take fuel h (lastAddr (freeAddrs pre)) b.addr size = .ok (h', b.addr + headerSize) ∧
      Represents lo hi h' bs ∧ Carved size pre b post bs u ∧
      Charged h (pre ++ b :: post) h' bs size u := by
  obtain ⟨hst, hlk⟩ := unlink_spec hr hf
  obtain ⟨h', bs, u, hsplit, hrep, hcar, hkeep⟩ :=
    splitTail_spec A (tiles_setFree hr.tiles) hst hlk hsize hfuel
  have hbnd := (hr.tiles.bounds (b := b) (by simp)).2
  have htop := A.top
  simp only [Block.stop] at hbnd
  refine ⟨{ h' with usedMem := u64 (h'.usedMem + size), freeMem := subWord h'.freeMem size },
    bs, u, ?_, hrep.of_same_memory rfl rfl, hcar, ?_⟩
  · unfold take
    rw [hsplit, u64_of_lt (n := b.addr + headerSize) (by omega)]
    rfl
  · have hself : { b with free := true } = b := by rw [← hf]
    have hroom := hcar.room
    obtain ⟨hu, hfm, hm⟩ := unlink_counters h (lastAddr (freeAddrs pre)) b.addr
    obtain ⟨hused, hfree, hmeta, -, hlt⟩ := hkeep
    simp only [setIsFree, hself, hu, hfm, hm] at hused hfree hmeta hlt
    refine ⟨by rw [hused], ?_, hmeta, fun _ => Nat.mod_lt _ (by decide), hlt⟩
    simp only [subWord]
    omega

/-- The first free block that is large enough, behind the blocks `xs`. -/
structure FirstFit (size : ℕ) (xs : List Block) (b : Block) : Prop where
  free : b.free = true
  room : size ≤ b.size
  before : ∀ c ∈ xs, c.free = true → c.size < size

/-- First fit: the walk takes the first free block that is large enough, and panics
only when there is none. -/
theorem allocateLoop_spec (A : Arena lo hi) {turns : ℕ} (hr : Represents lo hi h (pre ++ post))
    (hprev : prev = lastAddr (freeAddrs pre)) (hbefore : ∀ c ∈ pre, c.free → c.size < size)
    (hl : Linked h.nextOf curr (freeAddrs post)) (hfuel : (freeAddrs (pre ++ post)).length < fuel)
    (hturns : (freeAddrs post).length < turns) :
    (∃ h' bs u xs b ys, allocateLoop fuel turns h prev curr size =
        .ok (h', b.addr + headerSize) ∧ pre ++ post = xs ++ b :: ys ∧ FirstFit size xs b ∧
        Represents lo hi h' bs ∧ Carved size xs b ys bs u ∧ Charged h (pre ++ post) h' bs size u) ∨
    (allocateLoop fuel turns h prev curr size = .error (.panic "kmalloc: out of memory") ∧
      ∀ b ∈ post, b.free → b.size < size) := by
  obtain ⟨turns, rfl⟩ := Nat.exists_eq_succ_of_ne_zero (ne_of_gt (Nat.zero_lt_of_lt hturns))
  generalize hn : freeAddrs post = l at hl hturns
  induction l generalizing pre post prev curr turns with
  | nil =>
    have hc : curr = 0 := hl
    refine .inr ⟨by simp [allocateLoop, hc], fun b hb hbf => ?_⟩
    exact absurd hbf (not_free_of_freeAddrs_nil hn hb)
  | cons a l ih =>
    obtain ⟨xs, b, ys, rfl, hbf, rfl, hx, hy⟩ := freeAddrs_cons hn
    obtain ⟨rfl, h0, hrest⟩ := hl
    have hsplit : pre ++ (xs ++ b :: ys) = (pre ++ xs) ++ b :: ys := by simp
    rw [hsplit] at hr hfuel ⊢
    have hprevs : freeAddrs (pre ++ xs) = freeAddrs pre := by
      rw [freeAddrs_append, hx, append_nil]
    have hbs := hr.stored b (by simp)
    have hbefore' : ∀ c ∈ pre ++ xs, c.free → c.size < size := by
      intro c hc hcf
      rcases mem_append.mp hc with hc | hc
      · exact hbefore c hc hcf
      · exact absurd hcf (not_free_of_freeAddrs_nil hx hc)
    by_cases hsz : size ≤ b.size
    · have hlen : (freeAddrs (pre ++ xs)).length < fuel := by
        rw [freeAddrs_append, length_append] at hfuel
        omega
      obtain ⟨h', bs, u, htake, hrep, hcar⟩ := take_spec A hr hbf hsz hlen
      refine .inl ⟨h', bs, u, pre ++ xs, b, ys, ?_, rfl, ⟨hbf, hsz, hbefore'⟩, hrep, hcar⟩
      rw [allocateLoop, if_neg h0, hbs.1, if_pos hsz, hprev, ← hprevs]
      exact htake
    · have hsplit' : (pre ++ xs) ++ b :: ys = ((pre ++ xs) ++ [b]) ++ ys := by simp
      have hlast : b.addr = lastAddr (freeAddrs ((pre ++ xs) ++ [b])) := by
        rw [freeAddrs_append, freeAddrs_cons_free hbf, freeAddrs_nil, lastAddr_concat]
      have hstep : allocateLoop fuel (turns + 1) h prev b.addr size =
          allocateLoop fuel turns h b.addr (h.nextOf b.addr) size := by
        rw [allocateLoop, if_neg h0, hbs.1, if_neg hsz]
        rfl
      cases turns with
      | zero => simp at hturns
      | succ turns =>
        rw [hsplit'] at hr hfuel
        rw [hstep, hsplit']
        have hall : ∀ c ∈ (pre ++ xs) ++ [b], c.free → c.size < size := by
          intro c hc hcf
          rcases mem_append.mp hc with hc | hc
          · exact hbefore' c hc hcf
          · rw [mem_singleton.mp hc]
            omega
        rcases ih hr hlast hall hfuel turns hy hrest (by simpa using hturns) with
          hok | ⟨hpanic, hrest⟩
        · exact .inl hok
        refine .inr ⟨hpanic, fun c hc hcf => ?_⟩
        rcases mem_append.mp hc with hc | hc
        · exact hbefore' c (mem_append_right _ hc) hcf
        · rcases mem_cons.mp hc with rfl | hc
          · omega
          · exact hrest c hc hcf

theorem allocate_spec (A : Arena lo hi) {n : ℕ} (hr : Represents lo hi h bs)
    (hfuel : (freeAddrs bs).length < fuel) :
    (∃ h' bs' u xs b ys, allocate fuel h n = .ok (h', b.addr + headerSize) ∧
        bs = xs ++ b :: ys ∧ FirstFit (alignUp n minSize) xs b ∧ Represents lo hi h' bs' ∧
        Carved (alignUp n minSize) xs b ys bs' u ∧ Charged h bs h' bs' (alignUp n minSize) u) ∨
    (allocate fuel h n = .error (.panic "kmalloc: out of memory") ∧
      ∀ b ∈ bs, b.free → b.size < alignUp n minSize) := by
  have hr' : Represents lo hi h ([] ++ bs) := hr
  exact allocateLoop_spec A hr' rfl (fun c hc => by cases hc) hr.linked hfuel hfuel

theorem free_spec (A : Arena lo hi) (hr : Represents lo hi h (pre ++ b :: post))
    (hb : b.free = false) (hfuel : (freeAddrs (pre ++ b :: post)).length < fuel) :
    ∃ h', free fuel h (b.addr + headerSize) = .ok h' ∧
      Represents lo hi h' (settle headerSize pre { b with free := true } post) ∧
      Keeps { h with usedMem := subWord h.usedMem b.size } (pre ++ b :: post) h'
        (settle headerSize pre { b with free := true } post) := by
  obtain ⟨ht, hs, hl⟩ := hr
  have hbnd := (ht.bounds (b := b) (by simp)).2
  have htop := A.top
  simp only [Block.stop] at hbnd
  have hheader : subWord (b.addr + headerSize) headerSize = b.addr := by
    rw [subWord_of_le (by omega) (by omega)]
    omega
  rw [freeAddrs_append, freeAddrs_cons_used hb] at hl hfuel
  have hsize : ((h.setIsFree b.addr true).mem b.addr).size = b.size := by
    rw [setIsFree_size, (hs b (by simp)).1]
  have hst : ∀ c ∈ pre ++ { b with free := true } :: post, Stored (h.setIsFree b.addr true) c := by
    intro c hc
    rcases mem_append.mp hc with hc | hc
    · have hne := addr_ne ht.sorted (.inl hc)
      exact (hs c (by simp [hc])).congr (by simp) (by simp [hne])
    · rcases mem_cons.mp hc with rfl | hc
      · exact ⟨hsize, by simp⟩
      · have hne := addr_ne ht.sorted (.inr hc)
        exact (hs c (by simp [hc])).congr (by simp) (by simp [hne])
  have hlk : Linked (h.setIsFree b.addr true).nextOf h.freeList
      (freeAddrs pre ++ freeAddrs post) := Segment.congr hl fun a _ => by simp [nextOf]
  have hlen : (freeAddrs pre).length < fuel := by
    rw [length_append] at hfuel
    omega
  obtain ⟨h', hadd, hrep, hused, hfree, hmeta, hlt, hlt'⟩ := addToFreeList_spec
    (h := { h.setIsFree b.addr true with
      usedMem := subWord h.usedMem b.size
      freeMem := u64 (h.freeMem + b.size) })
    (b := { b with free := true }) A (tiles_setFree ht) hst rfl hlk hlen
  unfold free
  dsimp only
  rw [hheader, hsize]
  refine ⟨h', hadd, hrep, hused, ?_, ?_, fun _ => hlt (u64_lt _), hlt'⟩
  · simp only [total_append, total_cons, hb, u64, if_true, Bool.false_eq_true, if_false]
      at hfree ⊢
    omega
  · simpa [setIsFree] using hmeta

end HeapAllocator
