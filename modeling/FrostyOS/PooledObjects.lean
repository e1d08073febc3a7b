import FrostyOS.ObjectLists

/-! # Page objects before there is a heap

A slot of the pool keeps the pointer it had when it was freed, and the list that it is hung
behind goes on from there. -/
namespace PooledObjects

open List

open MachineWord OrderedMap PageTables PageRuns SinglyLinked Calls ObjectMemory
  LinkedPageManager ObjectNode

def noHeap : NewDelete Unit where
  initialised _ := false
  new h := some (h, none)
  delete h _ := h

def noBlock : Unit → ℕ → Prop := fun _ _ => False

theorem noHeap_laws : HeapLaws noHeap noBlock := by
  refine ⟨fun _ _ _ _ => Iff.rfl, ?_, ?_, ?_, fun _ _ _ _ => rfl, fun _ _ => rfl⟩
  · intro h h' a hnew
    cases hnew
  · intro h a b
    simp [noBlock]
  · intro h a hlive
    exact False.elim hlive

/-- The pool as the first page manager finds and initialises it. -/
def statics : ObjectMemory Unit := poolInit ⟨fun _ => .zeroed, ⟨0, fun _ => 0⟩, 0, false, ()⟩

section Runs

variable {F U A : Type}

inductive Request where
  | allocatePage (perms : PagePermissions) (addr : ℕ)
  | allocatePages (count : ℕ) (perms : PagePermissions) (addr : ℕ)
  | freePage (addr : ℕ)
  | freePages (addr : ℕ)

def Request.pages : Request → Option ℕ
  | .allocatePage _ _ => some 1
  | .allocatePages count _ _ => some count
  | .freePage _ | .freePages _ => none

def perform (E : Services F U A Unit) (s : LinkedPageManager F U A Unit) :
    Request → LinkedPageManager F U A Unit × Option ℕ
  | .allocatePage perms addr => s.allocatePage E perms addr
  | .allocatePages count perms addr => s.allocatePages E count perms addr
  | .freePage addr => andThen (s.freePage E addr) fun s _ => (s, some 0)
  | .freePages addr => andThen (s.freePages E addr) fun s _ => (s, some 0)

/-- The live allocations by the calls and their results: addresses with their page counts. -/
def record (live : List (ℕ × ℕ)) : Request → ℕ → List (ℕ × ℕ)
  | .allocatePage _ _, r => if r = 0 then live else live ++ [(r, 1)]
  | .allocatePages count _ _, r => if r = 0 then live else live ++ [(r, count)]
  | .freePage addr, _ => live.eraseP fun x => x.1 = addr && x.2 = 1
  | .freePages addr, _ => live.eraseP fun x => x.1 = addr && decide (1 < x.2)

/-- A page manager that has not allocated anything, over any address space. -/
structure Fresh (s : LinkedPageManager F U A Unit) : Prop where
  objects : s.objects = statics
  empty : s.allocatedObjects = none
  counted : s.allocatedObjectCount = 0
  lock : s.lock = .free

inductive Run (E : Services F U A Unit)
    (Allowed : LinkedPageManager F U A Unit → Request → Prop) :
    LinkedPageManager F U A Unit → List (ℕ × ℕ) → Prop where
  | start (s : LinkedPageManager F U A Unit) (hs : Fresh s) : Run E Allowed s []
  | step {s : LinkedPageManager F U A Unit} {live : List (ℕ × ℕ)} (req : Request)
      (t : LinkedPageManager F U A Unit) (r : ℕ) (hr : Run E Allowed s live)
      (ht : perform E s req = (t, some r)) (ha : Allowed s req) :
      Run E Allowed t (record live req r)

def pagesOf (o : ObjectNode) : ℕ × ℕ := (o.virtualAddress, o.pageCount)

/-- The list is without a cycle, has as many objects as are counted and one for each live
allocation, and the loops through it come to an end. -/
def OneObjectEach (s : LinkedPageManager F U A Unit) (live : List (ℕ × ℕ)) : Prop :=
  ∃ ids, Chain s.next s.allocatedObjects ids ∧ ids.Nodup ∧
    ids.length = s.allocatedObjectCount ∧ (ids.map fun p => pagesOf (s.node p)) = live ∧
    (∀ test, s.findObject test ≠ none) ∧ ∀ p, s.getPrevious p ≠ none

def SlotUnlinked (s : LinkedPageManager F U A Unit) : Prop :=
  ∀ i, s.objects.clearSlot = some i → s.next (.pool i) = none

/-- A request for pages finds a slot with a null pointer. -/
def Unlinked (s : LinkedPageManager F U A Unit) (req : Request) : Prop :=
  req.pages.isSome → SlotUnlinked s

end Runs

section Invariant

variable {F U A : Type} {E : Services F U A Unit} {s t : LinkedPageManager F U A Unit}
  {live : List (ℕ × ℕ)} {ids : List ObjectPointer} {count addr r : ℕ} {perms : PagePermissions}
  {req : Request}

/-- The objects are the live allocations in order, and no range stands by. -/
structure Inv (s : LinkedPageManager F U A Unit) (live : List (ℕ × ℕ))
    (ids : List ObjectPointer) : Prop where
  listed : Listed noBlock s ids
  idle : ∀ p, (s.node p).hasFlag poStandby = false
  pages : (ids.map fun p => pagesOf (s.node p)) = live
  lock : s.lock = .free

theorem Inv.of_fresh (hs : Fresh s) : Inv s [] [] := by
  have hobjects := hs.objects
  refine ⟨⟨hs.empty, hs.counted, fun _ hp => absurd hp not_mem_nil, ?_⟩, ?_, rfl, hs.lock⟩
  · rw [hobjects]
    refine ⟨rfl, rfl, ?_⟩
    decide +kernel
  · intro p
    simp only [LinkedPageManager.node, hobjects, statics, poolInit]
    by_cases hp : p = .pool 0
    · subst hp
      rw [Function.update_self]
      decide
    · rw [Function.update_of_ne hp]
      decide

theorem Inv.of_same (hI : Inv s live ids) (hs : SameObjects E noBlock s t)
    (hlock : t.lock = .free) : Inv t live ids := by
  refine ⟨hs.listed hI.listed, ?_, ?_, hlock⟩
  · rw [hs.node]
    exact hI.idle
  · rw [hs.node]
    exact hI.pages

theorem standby_claim (o : ObjectNode) (mode : Bool) (virtAddr count : ℕ) :
    (o.claim mode poInuse virtAddr count).hasFlag poStandby =
      o.hasFlag poStandby := by
  have hor : ∀ f g : BitVec 64, g &&& poStandby = 0 →
      (f ||| g) &&& poStandby = f &&& poStandby := by
    intro f g hg
    have hzero : ∀ x : BitVec 64, x ||| 0 = x := fun x => BitVec.or_zero
    rw [BitVec.and_comm, BitVec.and_or_distrib_left, BitVec.and_comm _ g, hg, hzero,
      BitVec.and_comm]
  cases mode with
  | false =>
    simp only [claim, hasFlag, setFlag, Bool.false_eq_true, if_false]
    rw [hor _ poInuse (by decide), hor _ poAllocated (by decide)]
  | true =>
    simp only [claim, hasFlag, setFlag, if_true]
    rw [hor _ poInuse (by decide), hor _ poUser (by decide), hor _ poAllocated (by decide)]

/-- The list behind a new object is as long as its slot's old pointer makes it. -/
def Appended (s t : LinkedPageManager F U A Unit) (live : List (ℕ × ℕ))
    (ids : List ObjectPointer) (count r : ℕ) : Prop := ∃ i, s.objects.clearSlot = some i ∧
    Segment t.next t.allocatedObjects (ids ++ [.pool i]) (s.next (.pool i)) ∧
    t.allocatedObjectCount = ids.length + 1 ∧
    (s.next (.pool i) = none → Inv t (live ++ [(r, count)]) (ids ++ [.pool i]))

section

variable (hE : E.newDelete = noHeap)

include hE

section

variable (hI : Inv s live ids)

include hI

theorem Appended.of_grown (s₁ : LinkedPageManager F U A Unit) {objects p}
    (hobjects : s₁.objects = s.objects)
    (hcreate : s.objects.create E.newDelete = some (objects, some p))
    (hg : Grown E noBlock s₁ t ids p { (objects.node p).claim s₁.mode poInuse r count with perms })
    {u} (hu : SameObjects E noBlock t u) (hlock : u.lock = .free) :
    Appended s u live ids count r := by
  obtain ⟨i, hslot, rfl, rfl⟩ := create_pool hI.listed.intact (by rw [hE]; rfl) hcreate
  have hnode : ∀ q, s₁.node q = s.node q := by
    intro q
    simp only [LinkedPageManager.node, hobjects]
  have hnew : u.node (.pool i) =
      { (s.node (.pool i)).claim s₁.mode poInuse r count with perms } := by
    rw [hu.node]
    exact hg.new
  have hstale : ({ (s.node (.pool i)).claim s₁.mode poInuse r count with
      perms } : ObjectNode).next = s.next (.pool i) := by
    simp only [claim]
    split <;> rfl
  have hnext : u.next = t.next := by
    funext q
    simp only [LinkedPageManager.next, hu.node]
  have hold : ∀ q, q ≠ .pool i → u.node q = { s.node q with next := t.next q } := by
    intro q hq
    rw [hu.node, hg.old q hq, hnode]
  have hids : ∀ q ∈ ids, q ≠ .pool i := by
    intro q hq hqi
    apply hg.fresh
    rw [hobjects, ← hqi]
    exact hI.listed.owned q hq
  have hseg : Segment u.next u.allocatedObjects (ids ++ [.pool i]) (s.next (.pool i)) := by
    rw [hnext, hu.head, ← hstale]
    exact hg.segment
  refine ⟨i, hslot, hseg, hu.count.trans hg.counted, fun hnull => ⟨?_, ?_, ?_, hlock⟩⟩
  · refine ⟨?_, ?_, ?_, hu.intact⟩
    · rw [hnull] at hseg
      exact hseg
    · rw [hu.count, hg.counted, length_append, length_singleton]
    · intro q hq
      rw [hu.owned, hg.owned, hobjects]
      rcases mem_append.mp hq with hq | hq
      · exact .inr (hI.listed.owned q hq)
      · exact .inl (mem_singleton.mp hq)
  · intro q
    by_cases hq : q = .pool i
    · rw [hq, hnew]
      exact (standby_claim (s.node (.pool i)) s₁.mode r count).trans (hI.idle _)
    · rw [hold q hq]
      exact hI.idle q
  · have hfront : (ids.map fun p => pagesOf (u.node p)) = live := by
      rw [← hI.pages]
      apply map_congr_left
      intro q hq
      rw [hold q (hids q hq)]
      rfl
    rw [map_append, hfront]
    simp only [map_cons, map_nil, hnew]
    rfl

theorem allocate_ensures : Ensures (fun _ => True)
      (fun t r => r = 0 ∧ Inv t live ids ∨ r ≠ 0 ∧ Appended s t live ids count r)
      (s.allocatePages E count perms addr) := by
  have hN : HeapLaws E.newDelete noBlock := hE ▸ noHeap_laws
  have hl : Listed noBlock s.locked ids := hI.listed.of_same rfl rfl rfl
  have hunlock : ∀ t : LinkedPageManager F U A Unit, SameObjects E noBlock s.locked t →
      t.lock = .taken → Inv t.release live ids := by
    intro t hsame hlock
    rw [release_of_taken hlock]
    have hsame' : SameObjects E noBlock s t.unlocked :=
      ⟨hsame.node, hsame.head, hsame.count, hsame.owned, hsame.intact, hsame.heap⟩
    exact hI.of_same hsame' rfl
  rw [allocatePages_eq hI.lock, commitOrPlace_fresh hl fun p _ => hI.idle p]
  split
  · exact .inl ⟨rfl, hunlock _ (.of_eq rfl rfl rfl hI.listed.intact) rfl⟩
  have hplace := place_ensures hN hl (fun _ => rfl) (inTheWay addr count) count perms addr
    poInuse
  generalize s.locked.place E (inTheWay addr count) count perms addr poInuse = c
    at hplace
  obtain ⟨t, _ | r⟩ := c
  · trivial
  rcases hplace with ⟨rfl, hsame, hspace, -⟩ | ⟨hr, vpm, res, objects, p, -, -, hcreate, hg⟩
  · exact .inl ⟨rfl, hunlock t hsame hspace.lock⟩
  have hlock : (t.mapFresh E perms r count).lock = .taken := hg.space.lock
  simp only [andThen_some, if_neg hr, ensures_some]
  rw [release_of_taken hlock]
  refine .inr ⟨hr, ?_⟩
  apply Appended.of_grown hE hI { s.locked with vpm } rfl hcreate hg
  · exact .of_eq rfl rfl rfl hg.intact
  · rfl

theorem allocate_cases (hpages : req.pages = some count) (ht : perform E s req = (t, some r)) :
    r = 0 ∧ Inv t live ids ∨ r ≠ 0 ∧ Appended s t live ids count r := by
  cases req with
  | allocatePage perms addr =>
    cases hpages
    have hone : s.allocatePages E 1 perms addr = (t, some r) := ht
    exact (allocate_ensures hE hI).post_of_eq hone
  | allocatePages count perms addr =>
    cases hpages
    have hmany : s.allocatePages E count perms addr = (t, some r) := ht
    exact (allocate_ensures hE hI).post_of_eq hmany
  | freePage addr => cases hpages
  | freePages addr => cases hpages

theorem free_step (addr : ℕ)
    (test : ObjectNode → Bool) (gone : ℕ × ℕ → Bool) (htest : ∀ o, test o = gone (pagesOf o)) :
    ∃ t ids', s.freeObject E test addr = (t, some ()) ∧ Inv t (live.eraseP gone) ids' := by
  have hN : HeapLaws E.newDelete noBlock := hE ▸ noHeap_laws
  rcases freeObject_listed hN hI.listed hI.lock test addr with
    ⟨hnone, heq⟩ | ⟨a, p, b, t, hids, hp, hbefore, heq, hl, hf⟩
  · refine ⟨s, ids, heq, ?_⟩
    rw [eraseP_of_forall_not]
    · exact hI
    · intro x hx
      rw [← hI.pages] at hx
      obtain ⟨q, hq, rfl⟩ := mem_map.mp hx
      rw [← htest, hnone q hq]
      exact Bool.false_ne_true
  · have hpages : ∀ q, pagesOf (t.node q) = pagesOf (s.node q) := by
      intro q
      rw [hf.data q]
      rfl
    refine ⟨t, a ++ b, heq, hl, ?_, ?_, hf.space.lock.trans hI.lock⟩
    · intro q
      rw [hf.data q]
      exact hI.idle q
    · simp only [← hI.pages, hids, hpages, map_append, map_cons]
      rw [eraseP_append_right, eraseP_cons_of_pos (by rw [← htest]; exact hp)]
      · intro x hx
        obtain ⟨q, hq, rfl⟩ := mem_map.mp hx
        rw [← htest, hbefore q hq]
        exact Bool.false_ne_true

theorem Inv.oneObjectEach : OneObjectEach s live := by
  have hN : HeapLaws E.newDelete noBlock := hE ▸ noHeap_laws
  have hl := hI.listed
  refine ⟨ids, hl.chain, hl.chain.nodup, hl.counted.symm, hI.pages, ?_, hl.getPrevious_returns hN⟩
  intro test
  rw [hl.findObject hN]
  exact Option.some_ne_none _

end

theorem Appended.oneObjectEach_iff (ha : Appended s t live ids count r) :
    OneObjectEach t (live ++ [(r, count)]) ↔ SlotUnlinked s := by
  obtain ⟨i, hslot, hseg, hcount, hinv⟩ := ha
  constructor
  · rintro ⟨ids', hchain, -, hlen, -⟩ j hj
    cases hslot.symm.trans hj
    cases hnext : s.next (.pool i) with
    | none => rfl
    | some k =>
      rw [hnext] at hseg
      have hlt := hseg.length_lt hchain
      rw [hlen, hcount, length_append, length_singleton] at hlt
      exact absurd hlt (lt_irrefl _)
  · intro hunlinked
    exact (hinv (hunlinked i hslot)).oneObjectEach hE

/-- A step that hands out no pages keeps the invariant; one that does hangs an object behind
the others. -/
theorem step_cases (hI : Inv s live ids) (ht : perform E s req = (t, some r)) :
    r = 0 ∧ (∃ ids', Inv t (record live req r) ids') ∨
      ∃ count, req.pages = some count ∧ r ≠ 0 ∧ record live req r = live ++ [(r, count)] ∧
        Appended s t live ids count r := by
  have hallocate : ∀ {count}, req.pages = some count →
      record live req r = (if r = 0 then live else live ++ [(r, count)]) →
      r = 0 ∧ (∃ ids', Inv t (record live req r) ids') ∨
        ∃ count, req.pages = some count ∧ r ≠ 0 ∧ record live req r = live ++ [(r, count)] ∧
          Appended s t live ids count r := by
    intro count hpages hrecord
    rcases allocate_cases hE hI hpages ht with ⟨hr, hI'⟩ | ⟨hr, ha⟩
    · rw [if_pos hr] at hrecord
      refine .inl ⟨hr, ids, ?_⟩
      rw [hrecord]
      exact hI'
    · rw [if_neg hr] at hrecord
      exact .inr ⟨count, hpages, hr, hrecord, ha⟩
  have hfree : ∀ {test : ObjectNode → Bool} (gone : ℕ × ℕ → Bool) {addr : ℕ},
      (∀ o, test o = gone (pagesOf o)) →
      andThen (s.freeObject E test addr) (fun s _ => (s, some 0)) = (t, some r) →
      r = 0 ∧ ∃ ids', Inv t (live.eraseP gone) ids' := by
    intro test gone addr htest heq
    obtain ⟨t', ids', hfree, hI'⟩ := free_step hE hI addr test gone htest
    rw [hfree] at heq
    obtain ⟨rfl, hr⟩ := Prod.mk.inj heq
    exact ⟨(Option.some.inj hr).symm, ids', hI'⟩
  cases req with
  | allocatePage perms addr => exact hallocate rfl rfl
  | allocatePages count perms addr => exact hallocate rfl rfl
  | freePage addr => exact .inl (hfree _ (fun _ => rfl) ht)
  | freePages addr => exact .inl (hfree _ (fun _ => rfl) ht)

theorem step_iff (hI : Inv s live ids) (ht : perform E s req = (t, some r)) :
    OneObjectEach t (record live req r) ↔ r = 0 ∨ SlotUnlinked s := by
  rcases step_cases hE hI ht with ⟨hr, ids', hI'⟩ | ⟨count, -, hr, hrecord, ha⟩
  · exact ⟨fun _ => .inl hr, fun _ => hI'.oneObjectEach hE⟩
  · rw [hrecord, ha.oneObjectEach_iff hE, or_iff_right hr]

theorem run_invariant (hr : Run E Unlinked s live) : ∃ ids, Inv s live ids := by
  induction hr with
  | start s hs => exact ⟨[], .of_fresh hs⟩
  | step req t r _ ht ha ih =>
    obtain ⟨ids, hI⟩ := ih
    rcases step_cases hE hI ht with ⟨-, hI'⟩ | ⟨count, hpages, hr, hrecord, happended⟩
    · exact hI'
    obtain ⟨i, hslot, -, -, hinv⟩ := happended
    rw [hrecord]
    refine ⟨_, hinv (ha ?_ i hslot)⟩
    rw [hpages]
    rfl

end

/-- In every run in which each request for pages finds a slot with a null pointer, the list
is the live allocations and all loops end. From such a state any further step keeps this
just if it hands out no pages or finds such a slot. -/
theorem one_object_each_iff (hE : E.newDelete = noHeap) (hr : Run E Unlinked s live) :
    OneObjectEach s live ∧ ∀ req t r, perform E s req = (t, some r) →
      (OneObjectEach t (record live req r) ↔ r = 0 ∨ SlotUnlinked s) := by
  obtain ⟨ids, hI⟩ := run_invariant hE hr
  exact ⟨hI.oneObjectEach hE, fun req t r ht => step_iff hE hI ht⟩

end Invariant

section Sample

/-- Four pages from `0x1000` on, and frames for them. -/
def sampleServices : Services (SortedMap (List ℕ)) (SortedMap ℕ) (List ℕ) Unit where
  layout := sampleLayout
  frames := listSource
  sizes := sortedOps _
  blocks := sortedOps _
  newDelete := noHeap
  kernelTable := sampleRoot

def sampleManager : LinkedPageManager (SortedMap (List ℕ)) (SortedMap ℕ) (List ℕ) Unit where
  objects := statics
  allocatedObjects := none
  allocatedObjectCount := 0
  region := VirtualRegion.ofSize 0x1000 0x4000
  vpm := sortedManager 0x1000 0x4000
  tables := ⟨fun _ _ => 0, (List.range 16).map fun i => (i + 1) * 0x1000⟩
  root := sampleRoot
  mode := false
  pageObjectPoolUsed := false
  autoExpand := false
  lock := .free

def onePage : Request := .allocatePage .readWrite 0

def after (requests : List Request) :
    LinkedPageManager (SortedMap (List ℕ)) (SortedMap ℕ) (List ℕ) Unit :=
  requests.foldl (fun s req => (perform sampleServices s req).1) sampleManager

theorem run_after {Allowed} {requests live} (hr : Run sampleServices Allowed (after requests) live)
    (req : Request) (r : ℕ) (hres : (perform sampleServices (after requests) req).2 = some r)
    (ha : Allowed (after requests) req) :
    Run sampleServices Allowed (after (requests ++ [req])) (record live req r) := by
  have hstep : after (requests ++ [req]) = (perform sampleServices (after requests) req).1 := by
    simp [after]
  rw [hstep]
  exact .step req _ r hr (Prod.ext rfl hres) ha

theorem sample_fresh : Fresh sampleManager := ⟨rfl, rfl, rfl, rfl⟩

theorem unlinked_of_slot {F U A : Type} {s : LinkedPageManager F U A Unit} {req} {i : ℕ}
    (hslot : s.objects.clearSlot = some i) (hnext : s.next (.pool i) = none) :
    Unlinked s req := by
  intro _ j hj
  cases hslot.symm.trans hj
  exact hnext

theorem one_object_each_sample :
    Run sampleServices Unlinked (after [onePage, onePage, .freePage 0x2000]) [(0x1000, 1)] ∧
      OneObjectEach (after [onePage, onePage, .freePage 0x2000]) [(0x1000, 1)] := by
  have hstart : Run sampleServices Unlinked (after []) [] := .start _ sample_fresh
  have h₁ := run_after hstart onePage 0x1000 (by decide +kernel)
    (unlinked_of_slot (i := 0) (by decide +kernel) (by decide +kernel))
  have h₂ := run_after h₁ onePage 0x2000 (by decide +kernel)
    (unlinked_of_slot (i := 1) (by decide +kernel) (by decide +kernel))
  have h₃ := run_after h₂ (.freePage 0x2000) 0 (by decide +kernel)
    fun hpages => absurd hpages Bool.false_ne_true
  exact ⟨h₃, (one_object_each_iff rfl h₃).1⟩

/-- Three pages are allocated, the second is freed and one more is allocated: its object gets
the slot of the second, which still points to the third. -/
theorem reused_slot_makes_cycle :
    Run sampleServices (fun _ _ => True)
        (after [onePage, onePage, onePage, .freePage 0x2000, onePage])
        [(0x1000, 1), (0x3000, 1), (0x4000, 1)] ∧
      (after [onePage, onePage, onePage, .freePage 0x2000, onePage]).findObject (fun _ => false) =
        none ∧ ¬ OneObjectEach (after [onePage, onePage, onePage, .freePage 0x2000, onePage])
        [(0x1000, 1), (0x3000, 1), (0x4000, 1)] := by
  have hstart : Run sampleServices (fun _ _ => True) (after []) [] := .start _ sample_fresh
  have h₁ := run_after hstart onePage 0x1000 (by decide +kernel) trivial
  have h₂ := run_after h₁ onePage 0x2000 (by decide +kernel) trivial
  have h₃ := run_after h₂ onePage 0x3000 (by decide +kernel) trivial
  have h₄ := run_after h₃ (.freePage 0x2000) 0 (by decide +kernel) trivial
  have h₅ := run_after h₄ onePage 0x4000 (by decide +kernel) trivial
  refine ⟨h₅, ?_⟩
  generalize hs : after [onePage, onePage, onePage, .freePage 0x2000, onePage] = s
  have hhead : s.allocatedObjects = some (.pool 0) := by rw [← hs]; decide +kernel
  have hfirst : s.next (.pool 0) = some (.pool 2) := by rw [← hs]; decide +kernel
  have hthird : s.next (.pool 2) = some (.pool 1) := by rw [← hs]; decide +kernel
  have hsecond : s.next (.pool 1) = some (.pool 2) := by rw [← hs]; decide +kernel
  have hcycle : Segment s.next (some (.pool 2)) [.pool 2, .pool 1] (some (.pool 2)) :=
    ⟨rfl, hthird, hsecond⟩
  have hendless : ∀ l, ¬ Chain s.next s.allocatedObjects l := by
    intro l hl
    have hlead : Segment s.next s.allocatedObjects [.pool 0] (some (.pool 2)) := ⟨hhead, hfirst⟩
    obtain ⟨rest, -, hrest⟩ := hlead.rest_of_chain hl
    exact no_chain_of_cycle hcycle (by simp) rest hrest
  refine ⟨find_endless hendless _, ?_⟩
  rintro ⟨ids, hchain, -⟩
  exact hendless ids hchain

end Sample

end PooledObjects
