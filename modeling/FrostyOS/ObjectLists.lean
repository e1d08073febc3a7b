import FrostyOS.LinkedPageManager

/-! # What the operations do to the object list

Each operation is described by the list of pointers it leaves. -/
namespace LinkedPageManager

open MachineWord OrderedMap PageTables PageRuns SinglyLinked Calls ObjectMemory List

variable {F U A H : Type} {E : Services F U A H} {s t u : LinkedPageManager F U A H}
  {Live : H → ℕ → Prop} {ids a b : List ObjectPointer} {p q : ObjectPointer}
  {test : ObjectNode → Bool} {count addr virtAddr : ℕ} {perms : PagePermissions}
  {usage : BitVec 64}

structure SameSpace (s t : LinkedPageManager F U A H) : Prop where
  region : t.region = s.region
  vpm : t.vpm = s.vpm
  tables : t.tables = s.tables
  root : t.root = s.root
  mode : t.mode = s.mode
  autoExpand : t.autoExpand = s.autoExpand
  lock : t.lock = s.lock

theorem SameSpace.refl (s : LinkedPageManager F U A H) : SameSpace s s :=
  ⟨rfl, rfl, rfl, rfl, rfl, rfl, rfl⟩

theorem SameSpace.trans (h : SameSpace s t) (h' : SameSpace t u) : SameSpace s u :=
  ⟨h'.region.trans h.region, h'.vpm.trans h.vpm, h'.tables.trans h.tables, h'.root.trans h.root,
    h'.mode.trans h.mode, h'.autoExpand.trans h.autoExpand, h'.lock.trans h.lock⟩

/-- The object list ends, its objects are handed out, and they are as many as counted. -/
structure Listed (Live : H → ℕ → Prop) (s : LinkedPageManager F U A H)
    (ids : List ObjectPointer) : Prop where
  chain : Chain s.next s.allocatedObjects ids
  counted : s.allocatedObjectCount = ids.length
  owned : ∀ p ∈ ids, s.objects.Owned Live p
  intact : s.objects.PoolIntact

section Nodes

@[simp] theorem node_writeNode (o : ObjectNode) :
    (s.writeNode p o).node q = if q = p then o else s.node q := by
  by_cases hq : q = p
  · subst hq
    rw [if_pos rfl]
    exact Function.update_self _ _ _
  · rw [if_neg hq]
    exact Function.update_of_ne hq _ _

theorem sameSpace_writeNode (s : LinkedPageManager F U A H) (p : ObjectPointer) (o : ObjectNode) :
    SameSpace s (s.writeNode p o) := ⟨rfl, rfl, rfl, rfl, rfl, rfl, rfl⟩

theorem Listed.writeNode (h : Listed Live s ids) {o} (ho : o.next = s.next p) :
    Listed Live (s.writeNode p o) ids := by
  refine ⟨h.chain.congr fun q _ => ?_, h.counted, h.owned, ?_⟩
  · simp only [next, node_writeNode]
    split
    · rename_i hq
      rw [ho, hq]
      rfl
    · rfl
  · exact ⟨h.intact.initialised, h.intact.bits, h.intact.counted⟩

theorem Listed.of_same (h : Listed Live s ids) (hobjects : t.objects = s.objects)
    (hhead : t.allocatedObjects = s.allocatedObjects)
    (hcount : t.allocatedObjectCount = s.allocatedObjectCount) : Listed Live t ids := by
  have hnext : t.next = s.next := by
    funext q
    simp only [next, node, hobjects]
  refine ⟨?_, hcount.trans h.counted, ?_, hobjects ▸ h.intact⟩
  · rw [hnext, hhead]
    exact h.chain
  · rw [hobjects]
    exact h.owned

end Nodes

section Walks

variable (hN : HeapLaws E.newDelete Live) (h : Listed Live s ids)

include hN h

theorem Listed.length_lt : ids.length + 1 < 2 ^ 64 := by
  have hle := owned_length hN h.intact h.chain.nodup h.owned
  unfold poolSize at hle
  omega

theorem Listed.findObject (test : ObjectNode → Bool) :
    s.findObject test = some (ids.find? fun p => test (s.node p)) := by
  have hlt := h.length_lt hN
  exact find_chain h.chain (by omega)

omit hN in
theorem Listed.scanObjects (test : ObjectNode → Bool) :
    s.scanObjects test = .ofFind (ids.find? fun p => test (s.node p)) := by
  rw [LinkedPageManager.scanObjects, h.counted]
  exact scan_chain h.chain

theorem Listed.getPrevious_absent (hp : p ∉ ids) : s.getPrevious p = some ids.getLast? := by
  have hlt := h.length_lt hN
  exact previous_segment h.chain hp (.inl rfl) (by omega)

theorem Listed.getPrevious_mem (hids : ids = a ++ p :: b) : s.getPrevious p = some a.getLast? := by
  have hlt := h.length_lt hN
  have hchain := h.chain
  have hnd := h.chain.nodup
  rw [hids] at hchain hnd hlt
  rw [length_append, length_cons] at hlt
  refine previous_segment (Segment.middle_iff.mp hchain).1 (fun hmem => ?_)
    (.inr ⟨rfl, by omega⟩) (by omega)
  exact disjoint_of_nodup_append hnd hmem mem_cons_self

theorem Listed.getPrevious_returns (p : ObjectPointer) : s.getPrevious p ≠ none := by
  by_cases hp : p ∈ ids
  · obtain ⟨a, b, hids⟩ := append_of_mem hp
    simp [h.getPrevious_mem hN hids]
  · simp [h.getPrevious_absent hN hp]

end Walks

section Insertion

/-- The object at `p` was hung behind the others; what its own pointer leads to comes next. -/
structure Inserted (s t : LinkedPageManager F U A H) (ids : List ObjectPointer)
    (p : ObjectPointer) : Prop where
  segment : Segment t.next t.allocatedObjects (ids ++ [p]) (s.next p)
  counted : t.allocatedObjectCount = ids.length + 1
  data : ∀ q, t.node q = { s.node q with next := t.next q }
  rest : ∀ q, q ∉ ids → t.node q = s.node q
  memory : t.objects = { s.objects with node := t.objects.node }
  space : SameSpace s t

theorem insertObject_inserted (hN : HeapLaws E.newDelete Live) (h : Listed Live s ids)
    (hp : p ∉ ids) : ∃ t, s.insertObject p = (t, some true) ∧ Inserted s t ids p := by
  have hlt := h.length_lt hN
  rcases eq_nil_or_concat ids with rfl | ⟨front, q, hids⟩
  · have hzero : ¬ 0 < s.allocatedObjectCount := by
      rw [h.counted]
      exact lt_irrefl 0
    have hcount : s.allocatedObjectCount = 0 := h.counted
    refine ⟨_, if_neg hzero, ?_⟩
    refine ⟨⟨rfl, rfl⟩, ?_, fun _ => rfl, fun _ _ => rfl, rfl, ⟨rfl, rfl, rfl, rfl, rfl, rfl, rfl⟩⟩
    simp only [countUp, hcount, length_nil]
    rfl
  · rw [concat_eq_append] at hids
    have hpos : 0 < s.allocatedObjectCount := by
      rw [h.counted, hids]
      simp
    have hprev : s.getPrevious p = some (some q) := by
      rw [h.getPrevious_absent hN hp, hids]
      simp
    have hnd := h.chain.nodup
    rw [hids] at hnd
    have hq : q ∉ front := fun hmem =>
      disjoint_of_nodup_append hnd hmem mem_cons_self
    have hpq : p ≠ q := fun hpq => hp (by simp [hids, hpq])
    refine ⟨(s.writeNode q { s.node q with next := some p }).countUp, ?_, ?_⟩
    · rw [insertObject, if_pos hpos, hprev]
    · have hnode : ∀ k, ((s.writeNode q { s.node q with next := some p }).countUp).node k =
          if k = q then { s.node q with next := some p } else s.node k := fun k => node_writeNode _
      refine ⟨?_, ?_, ?_, ?_, rfl, ⟨rfl, rfl, rfl, rfl, rfl, rfl, rfl⟩⟩
      · have hchain := h.chain
        rw [hids] at hchain ⊢
        refine Segment.link hchain hq (fun hmem => hp (by simp [hids, hmem])) ?_ ?_ ?_
        · simp [next, hnode]
        · intro k hk _
          simp [next, hnode, hk]
        · simp [next, hnode, hpq]
      · simp only [countUp]
        rw [show (s.writeNode q { s.node q with next := some p }).allocatedObjectCount =
          ids.length from h.counted]
        exact u64_of_lt hlt
      · intro k
        simp only [next, hnode]
        split
        · rename_i hk
          rw [hk]
        · rfl
      · intro k hk
        have hkq : k ≠ q := fun hkq => hk (by simp [hids, hkq])
        rw [hnode, if_neg hkq]

end Insertion

section Space

variable {IF : F → Prop} {IU : U → Prop} (hTF : Ideal E.sizes IF) (hTU : Ideal E.blocks IU)
  {vpm vpm' : VirtualPageManager F U}

include hTF hTU

theorem askSpace_returns (hI : RunInvariant E.sizes E.blocks IF IU vpm) (haddr : addr < 2 ^ 64)
    (count : ℕ) : askSpace E vpm count addr ≠ none := by
  unfold askSpace
  split
  · obtain ⟨vpm', r, heq, -⟩ := allocatePages_returns hTF hTU hI count
    rw [heq]
    exact Option.some_ne_none _
  · obtain ⟨vpm', r, heq, -⟩ := allocatePagesAt_returns hTF hTU hI haddr count
    rw [heq]
    exact Option.some_ne_none _

theorem askSpace_invariant (hI : RunInvariant E.sizes E.blocks IF IU vpm) (haddr : addr < 2 ^ 64)
    (hcount : count < 2 ^ 52) {r} (h : askSpace E vpm count addr = some (vpm', r)) :
    RunInvariant E.sizes E.blocks IF IU vpm' ∧ Answered E.sizes E.blocks vpm vpm' count r := by
  unfold askSpace at h
  split at h
  · exact allocatePages_invariant hTF hTU hI h
  · exact allocatePagesAt_invariant hTF hTU hI haddr hcount h

end Space

section Creation

def Panics (E : Services F U A H) : Prop := ∃ h, E.newDelete.new h = none

structure SameObjects (E : Services F U A H) (Live : H → ℕ → Prop)
    (s t : LinkedPageManager F U A H) : Prop where
  node : t.node = s.node
  head : t.allocatedObjects = s.allocatedObjects
  count : t.allocatedObjectCount = s.allocatedObjectCount
  owned : ∀ q, t.objects.Owned Live q ↔ s.objects.Owned Live q
  intact : t.objects.PoolIntact
  heap : E.newDelete.initialised t.objects.heap = E.newDelete.initialised s.objects.heap

theorem SameObjects.listed (h : SameObjects E Live s t) (hl : Listed Live s ids) :
    Listed Live t ids := by
  have hnext : t.next = s.next := by
    funext q
    simp only [next, h.node]
  refine ⟨?_, h.count.trans hl.counted, fun p hp => (h.owned p).mpr (hl.owned p hp), h.intact⟩
  rw [hnext, h.head]
  exact hl.chain

theorem SameObjects.of_eq (hobjects : t.objects = s.objects)
    (hhead : t.allocatedObjects = s.allocatedObjects)
    (hcount : t.allocatedObjectCount = s.allocatedObjectCount) (hI : s.objects.PoolIntact) :
    SameObjects E Live s t := by
  refine ⟨?_, hhead, hcount, ?_, hobjects ▸ hI, ?_⟩
  · funext q
    simp only [LinkedPageManager.node, hobjects]
  · intro q
    rw [hobjects]
  · rw [hobjects]

theorem SameObjects.trans (h : SameObjects E Live s t) (h' : SameObjects E Live t u) :
    SameObjects E Live s u := ⟨h'.node.trans h.node, h'.head.trans h.head, h'.count.trans h.count,
    fun q => (h'.owned q).trans (h.owned q), h'.intact, h'.heap.trans h.heap⟩

theorem createObject_ensures : Ensures (fun _ => Panics E)
    (fun t r => s.objects.create E.newDelete = some (t.objects, r) ∧ SameSpace s t ∧
      t.allocatedObjects = s.allocatedObjects ∧
      t.allocatedObjectCount = s.allocatedObjectCount) (s.createObject E) := by
  unfold createObject
  cases hc : s.objects.create E.newDelete with
  | none =>
    unfold ObjectMemory.create at hc
    split at hc
    · unfold newObject at hc
      split at hc
      · rename_i hnew
        exact ⟨_, hnew⟩
      · cases hc
      · cases hc
    · cases hc
  | some pair =>
    exact ⟨rfl, ⟨rfl, rfl, rfl, rfl, rfl, rfl, rfl⟩, rfl, rfl⟩

/-- A new object with the contents `o` was hung behind the others. -/
structure Grown (E : Services F U A H) (Live : H → ℕ → Prop) (s t : LinkedPageManager F U A H)
    (ids : List ObjectPointer) (p : ObjectPointer) (o : ObjectNode) : Prop where
  fresh : ¬ s.objects.Owned Live p
  segment : Segment t.next t.allocatedObjects (ids ++ [p]) o.next
  counted : t.allocatedObjectCount = ids.length + 1
  new : t.node p = o
  old : ∀ q, q ≠ p → t.node q = { s.node q with next := t.next q }
  rest : ∀ q, q ∉ ids → q ≠ p → t.next q = s.next q
  owned : ∀ q, t.objects.Owned Live q ↔ q = p ∨ s.objects.Owned Live q
  intact : t.objects.PoolIntact
  space : SameSpace s t
  heap : E.newDelete.initialised t.objects.heap = E.newDelete.initialised s.objects.heap

variable {o : ObjectNode} {s₁ : LinkedPageManager F U A H}

theorem Grown.listed (h : Grown E Live s t ids p o) (hl : Listed Live s ids)
    (hnull : o.next = none) : Listed Live t (ids ++ [p]) := by
  refine ⟨?_, ?_, ?_, h.intact⟩
  · have hseg := h.segment
    rw [hnull] at hseg
    exact hseg
  · rw [h.counted, length_append, length_singleton]
  · intro q hq
    rw [h.owned]
    rcases mem_append.mp hq with hq | hq
    · exact .inr (hl.owned q hq)
    · exact .inl (mem_singleton.mp hq)

theorem Grown.writeNode (h : Grown E Live s t ids p o) (o' : ObjectNode)
    (hnext : o'.next = o.next) : Grown E Live s (t.writeNode p o') ids p o' := by
  have hkeep : ∀ q, (t.writeNode p o').next q = t.next q := by
    intro q
    simp only [next, node_writeNode]
    split
    · rename_i hq
      rw [hnext, ← h.new, hq]
    · rfl
  refine ⟨h.fresh, ?_, h.counted, by simp, ?_, ?_, h.owned, ?_, ?_, h.heap⟩
  · rw [hnext]
    exact h.segment.congr fun q _ => hkeep q
  · intro q hq
    rw [node_writeNode, if_neg hq, hkeep]
    exact h.old q hq
  · intro q hq hqp
    rw [hkeep]
    exact h.rest q hq hqp
  · exact ⟨h.intact.initialised, h.intact.bits, h.intact.counted⟩
  · exact h.space.trans (sameSpace_writeNode _ _ _)

variable (hN : HeapLaws E.newDelete Live) (h : Listed Live s ids)

include hN h

/-- An object that was created goes behind the others with any contents. -/
theorem insertObject_grown (hcreate : s.objects.create E.newDelete = some (s₁.objects, some p))
    (hspace : SameSpace s s₁) (hhead : s₁.allocatedObjects = s.allocatedObjects)
    (hcount : s₁.allocatedObjectCount = s.allocatedObjectCount) (ho : o.next = s₁.next p) :
    ∃ t, (s₁.writeNode p o).insertObject p = (t, some true) ∧ Grown E Live s t ids p o := by
  have hc : Created Live s.objects s₁.objects p := by
    rcases create_cases hN h.intact hcreate with ⟨hnone, -⟩ | ⟨p', hp', hc⟩
    · cases hnone
    · cases hp'
      exact hc
  have hne : ∀ q ∈ ids, q ≠ p := fun q hq hqp => hc.fresh (hqp ▸ h.owned q hq)
  have hp : p ∉ ids := fun hmem => hne p hmem rfl
  have hl₁ : Listed Live s₁ ids := by
    refine ⟨?_, hcount.trans h.counted, ?_, hc.intact⟩
    · rw [hhead]
      apply h.chain.congr
      intro q hq
      simp only [next, node, hc.node q (hne q hq)]
    · intro q hq
      exact (hc.owned q).mpr (.inr (h.owned q hq))
  obtain ⟨t, ht, hi⟩ := insertObject_inserted hN (hl₁.writeNode ho) hp
  have hmem : t.objects = { (s₁.writeNode p o).objects with node := t.objects.node } := hi.memory
  refine ⟨t, ht, hc.fresh, ?_, hi.counted, ?_, ?_, ?_, ?_, ?_, ?_, ?_⟩
  · have hseg := hi.segment
    simp only [next, node_writeNode, if_true] at hseg
    exact hseg
  · rw [hi.rest p hp, node_writeNode, if_pos rfl]
  · intro q hq
    rw [hi.data q, node_writeNode, if_neg hq]
    simp only [node, hc.node q hq]
  · intro q hq hqp
    simp only [next, hi.rest q hq, node_writeNode, if_neg hqp]
    simp only [node, hc.node q hqp]
  · intro q
    rw [hmem]
    exact hc.owned q
  · rw [hmem]
    exact ⟨hc.intact.initialised, hc.intact.bits, hc.intact.counted⟩
  · exact (hspace.trans (sameSpace_writeNode _ _ _)).trans hi.space
  · have hheap : t.objects.heap = s₁.objects.heap := by rw [hmem]; rfl
    rw [hheap]
    exact create_initialised hN hcreate

theorem sameObjects_of_create (hcreate : s.objects.create E.newDelete = some (s₁.objects, none))
    (hhead : s₁.allocatedObjects = s.allocatedObjects)
    (hcount : s₁.allocatedObjectCount = s.allocatedObjectCount) : SameObjects E Live s s₁ := by
  rcases create_cases hN h.intact hcreate with ⟨-, hu⟩ | ⟨p', hp', -⟩
  · exact ⟨hu.node, hhead, hcount, hu.owned, hu.intact, create_initialised hN hcreate⟩
  · cases hp'

end Creation

section Allocation

variable (hN : HeapLaws E.newDelete Live) (h : Listed Live s ids)

include hN h

theorem addObject_ensures : Ensures (fun _ => Panics E)
    (fun t r =>
      (∃ objects, s.objects.create E.newDelete = some (objects, none)) ∧ r = 0 ∧
          SameObjects E Live s t ∧ SameSpace (s.unallocate E virtAddr count) t ∨
        ∃ objects p, s.objects.create E.newDelete = some (objects, some p) ∧ r = virtAddr ∧
          Grown E Live s t ids p
            { (objects.node p).claim s.mode usage virtAddr count with perms })
    (s.addObject E count perms usage virtAddr) := by
  have hwalk : s.findObject (fun _ => false) = some none := by
    rw [h.findObject hN]
    simp
  simp only [addObject, hwalk]
  apply (createObject_ensures (E := E) (s := s)).andThen
  rintro s₁ r ⟨hcreate, hspace, hhead, hcount⟩
  cases r with
  | none =>
    refine .inl ⟨⟨_, hcreate⟩, rfl, ?_, ?_⟩
    · exact (sameObjects_of_create hN h hcreate hhead hcount).trans
        (.of_eq rfl rfl rfl (sameObjects_of_create hN h hcreate hhead hcount).intact)
    · refine ⟨hspace.region, ?_, hspace.tables, hspace.root, hspace.mode, hspace.autoExpand,
        hspace.lock⟩
      simp only [unallocate, hspace.vpm]
  | some p =>
    have hnext : ((s₁.node p).claim s₁.mode usage virtAddr count).next = s₁.next p := by
      unfold ObjectNode.claim
      dsimp only
      split <;> rfl
    obtain ⟨t, ht, hg⟩ := insertObject_grown hN h hcreate hspace hhead hcount hnext
    simp only [ht, andThen_some, if_true]
    refine .inr ⟨s₁.objects, p, hcreate, rfl, ?_⟩
    have hmode : s₁.mode = s.mode := hspace.mode
    have hw := hg.writeNode { (s₁.node p).claim s₁.mode usage virtAddr count with perms } rfl
    rw [hg.new, ← hmode]
    exact hw

theorem splitOff_ensures (o : ObjectNode) : Ensures (fun _ => Panics E)
    (fun t r => r = false ∧ SameObjects E Live s t ∧ SameSpace s t ∨
      ∃ objects p, s.objects.create E.newDelete = some (objects, some p) ∧ r ∧
        Grown E Live s t ids p { o with next := (objects.node p).next }) (s.splitOff E o) := by
  simp only [splitOff]
  apply (createObject_ensures (E := E) (s := s)).andThen
  rintro s₁ r ⟨hcreate, hspace, hhead, hcount⟩
  cases r with
  | none => exact .inl ⟨rfl, sameObjects_of_create hN h hcreate hhead hcount, hspace⟩
  | some p =>
    obtain ⟨t, ht, hg⟩ := insertObject_grown (o := { o with next := s₁.next p }) hN h hcreate hspace
      hhead hcount rfl
    simp only [ht, andThen_some, if_true]
    exact .inr ⟨s₁.objects, p, hcreate, rfl, hg⟩

omit hN h in
theorem obtainSpace_held (hheld : s.autoExpand → s.lock.held) : Ensures
    (fun t => askSpace E s.vpm count addr = none ∨ t.lock.acquiredHeld)
    (fun t r => ∃ vpm res, askSpace E s.vpm count addr = some (vpm, res) ∧ r = pointer res ∧
      t = { s with vpm }) (s.obtainSpace E count addr) := by
  cases hask : askSpace E s.vpm count addr with
  | none => simp [obtainSpace, requestSpace, hask]
  | some pair =>
    obtain ⟨vpm, res⟩ := pair
    simp only [obtainSpace, requestSpace, hask, andThen_some]
    split
    · exact ⟨vpm, res, rfl, rfl, rfl⟩
    rename_i hnull
    split
    · rename_i hauto
      simp only [expandVRegionToRight, acquire, hheld hauto, if_true, andThen_none]
      exact .inr rfl
    · exact ⟨vpm, res, rfl, (not_not.mp hnull).symm, rfl⟩

def RefusedSpace (E : Services F U A H) (count addr : ℕ) (vpm vpm' : VirtualPageManager F U) :
    Prop :=
  vpm' = vpm ∨ (∃ res, askSpace E vpm count addr = some (vpm', res) ∧ pointer res = 0) ∨
    ∃ vpm₁ res, askSpace E vpm count addr = some (vpm₁, res) ∧ pointer res ≠ 0 ∧
      vpm' = vpm₁.unallocatePages E.sizes E.blocks (pointer res) count

theorem place_ensures (hheld : s.autoExpand → s.lock.held)
    (taken : ObjectNode → Bool) (count : ℕ) (perms : PagePermissions) (addr : ℕ)
    (usage : BitVec 64) : Ensures
    (fun t => Panics E ∨ askSpace E s.vpm count addr = none ∨ t.lock.acquiredHeld)
    (fun t r =>
      r = 0 ∧ SameObjects E Live s t ∧ SameSpace { s with vpm := t.vpm } t ∧
          RefusedSpace E count addr s.vpm t.vpm ∨
        r ≠ 0 ∧ ∃ vpm res objects p, askSpace E s.vpm count addr = some (vpm, res) ∧
          r = pointer res ∧ s.objects.create E.newDelete = some (objects, some p) ∧
          Grown E Live { s with vpm } t ids p
            { (objects.node p).claim s.mode usage r count with perms })
    (s.place E taken count perms addr usage) := by
  unfold place
  split
  · exact .inl ⟨rfl, .of_eq rfl rfl rfl h.intact, .refl _, .inl rfl⟩
  apply ((obtainSpace_held hheld).mono (fun t ht => .inr ht) fun _ _ hp => hp).andThen
  rintro s₁ r ⟨vpm, res, hask, rfl, rfl⟩
  have h₁ : Listed Live { s with vpm } ids := h.of_same rfl rfl rfl
  split
  · rename_i hnull
    refine .inl ⟨rfl, .of_eq rfl rfl rfl h.intact, .refl _, .inr (.inl ⟨res, hask, hnull⟩)⟩
  rename_i hnull
  apply (addObject_ensures hN h₁).mono (fun _ hp => .inl hp)
  rintro t r (⟨-, rfl, hsame, hspace⟩ | ⟨objects, p, hcreate, rfl, hg⟩)
  · refine .inl ⟨rfl, ⟨hsame.node, hsame.head, hsame.count, hsame.owned, hsame.intact,
      hsame.heap⟩, ⟨hspace.region, rfl, hspace.tables, hspace.root, hspace.mode,
      hspace.autoExpand, hspace.lock⟩, .inr (.inr ⟨vpm, res, hask, hnull, hspace.vpm⟩)⟩
  · exact .inr ⟨hnull, vpm, res, objects, p, hask, rfl, hcreate, hg⟩

end Allocation

section Requests

/-- The objects that are in the way of a request with an address. -/
def inTheWay (addr count : ℕ) : ObjectNode → Bool :=
  if count = 1 then startsAt addr else covers addr count

def fitsRegion (s : LinkedPageManager F U A H) (count addr : ℕ) : Bool :=
  decide (count = 1) || s.inRegion count addr

theorem allocatePages_eq (hlock : s.lock = .free) : s.allocatePages E count perms addr =
    andThen (s.locked.commitOrPlace E (inTheWay addr count) (s.fitsRegion count addr) count perms
      addr) fun s virtAddr => (s.release, some virtAddr) := by
  unfold allocatePages allocatePage inTheWay fitsRegion
  by_cases hcount : count = 1
  · subst hcount
    simp only [if_true, acquire_of_free hlock, andThen_some, decide_true, Bool.true_or]
  · simp only [acquire_of_free hlock, andThen_some, hcount, if_false, decide_false, Bool.false_or]
    rfl

theorem commitOrPlace_fresh (h : Listed Live s ids)
    (hidle : ∀ p ∈ ids, (s.node p).hasFlag ObjectNode.poStandby = false)
    (taken : ObjectNode → Bool) (fits : Bool) :
    s.commitOrPlace E taken fits count perms addr =
      if fits = false then (s, some 0)
      else andThen (s.place E taken count perms addr ObjectNode.poInuse) fun s virtAddr =>
        if virtAddr = 0 then (s, some 0)
        else (s.mapFresh E perms virtAddr count, some virtAddr) := by
  have hscan : (if addr = 0 then Scan.done
      else s.scanObjects (ObjectNode.standsBy count perms addr)) = .done := by
    split
    · rfl
    · rw [h.scanObjects, find?_eq_none.mpr]
      · rfl
      · intro p hp
        simp [ObjectNode.standsBy, hidle p hp]
  rw [commitOrPlace, hscan]

end Requests

section Removal

/-- The pointer that led to `p` leads to its successor. -/
def bypass (s : LinkedPageManager F U A H) (p : ObjectPointer) :
    Option ObjectPointer → LinkedPageManager F U A H
  | some q => s.writeNode q { s.node q with next := s.next p }
  | none => { s with allocatedObjects := s.next p }

theorem next_bypass (q : Option ObjectPointer) (k : ObjectPointer) :
    (s.bypass p q).next k = if q = some k then s.next p else s.next k := by
  cases q with
  | none => simp [bypass, next, node]
  | some q =>
    by_cases hk : k = q
    · simp [bypass, next, hk]
    · have hqk : q ≠ k := fun hqk => hk hqk.symm
      simp [bypass, next, hk, hqk]

theorem node_bypass (q : Option ObjectPointer) (k : ObjectPointer) :
    (s.bypass p q).node k = { s.node k with next := (s.bypass p q).next k } := by
  cases q with
  | none => rfl
  | some q =>
    simp only [bypass, next, node_writeNode]
    split
    · rename_i hk
      rw [hk]
    · rfl

theorem removeObject_bypass {q} (hprev : s.getPrevious p = some q) :
    ∃ t, s.removeObject E p = (t, some ()) ∧
      t.objects = (s.bypass p q).objects.destroy E.newDelete p ∧
      t.allocatedObjects = (s.bypass p q).allocatedObjects ∧
      t.allocatedObjectCount = subWord s.allocatedObjectCount 1 ∧ SameSpace s t := by
  simp only [removeObject, hprev]
  cases q with
  | none => exact ⟨_, rfl, rfl, rfl, rfl, rfl, rfl, rfl, rfl, rfl, rfl, rfl⟩
  | some q => exact ⟨_, rfl, rfl, rfl, rfl, rfl, rfl, rfl, rfl, rfl, rfl, rfl⟩

theorem removeObject_listed (hN : HeapLaws E.newDelete Live) (h : Listed Live s ids)
    (hids : ids = a ++ p :: b) :
    ∃ t, s.removeObject E p = (t, some ()) ∧ Listed Live t (a ++ b) ∧
      (∀ q, t.node q = { s.node q with next := t.next q }) ∧ SameSpace s t := by
  obtain ⟨t, ht, hobj, hhead, hcount, hspace⟩ :=
    removeObject_bypass (E := E) (h.getPrevious_mem hN hids)
  have hp : p ∈ ids := by simp [hids]
  have hnd := h.chain.nodup
  have hchain := h.chain
  rw [hids] at hnd hchain
  generalize hs₁ : s.bypass p a.getLast? = s₁ at hobj hhead
  have hobjects : s₁.objects = { s.objects with node := s₁.objects.node } := by
    rw [← hs₁]
    cases a.getLast? <;> rfl
  have howned : ∀ q, s₁.objects.Owned Live q ↔ s.objects.Owned Live q := by
    intro q
    rw [hobjects]
    cases q <;> rfl
  have hintact : s₁.objects.PoolIntact := by
    rw [hobjects]
    exact ⟨h.intact.initialised, h.intact.bits, h.intact.counted⟩
  have hchain₁ : Chain s₁.next s₁.allocatedObjects (a ++ b) := by
    apply hchain.unlink
    · rintro rfl
      rw [← hs₁]
      rfl
    · intro ha
      rw [← hs₁, getLast?_eq_some_getLast ha]
      rfl
    · intro j hj
      rw [← hs₁, next_bypass, if_pos hj]
    · intro k hk
      rw [← hs₁, next_bypass, if_neg hk]
  obtain ⟨hintact', hnode', howned'⟩ := destroy_spec hN hintact ((howned p).mpr (h.owned p hp))
  rw [← hobj] at hintact' hnode' howned'
  have hnode : t.node = s₁.node := hnode'
  have hnext : t.next = s₁.next := by
    funext k
    simp only [next, hnode]
  refine ⟨t, ht, ⟨?_, ?_, ?_, hintact'⟩, ?_, hspace⟩
  · rw [hnext, hhead]
    exact hchain₁
  · have hlen : s.allocatedObjectCount = (a ++ b).length + 1 := by
      rw [h.counted, hids]
      simp only [length_append, length_cons]
      omega
    have hlt := h.length_lt hN
    rw [← h.counted] at hlt
    rw [hcount, subWord_of_le (by omega) (by omega)]
    omega
  · intro q hq
    have hne : q ≠ p := by
      rintro rfl
      exact (nodup_cons.mp (nodup_middle.mp hnd)).1 hq
    have hmem : q ∈ ids := by
      rw [hids]
      rcases mem_append.mp hq with hq | hq
      · exact mem_append_left _ hq
      · exact mem_append_right _ (mem_cons_of_mem p hq)
    exact (howned' q hne).mpr ((howned q).mpr (h.owned q hmem))
  · intro q
    rw [hnext, hnode, ← hs₁]
    exact node_bypass _ _

/-- The object at `p` was freed, with its pages. -/
structure Freed (E : Services F U A H) (s t : LinkedPageManager F U A H) (addr : ℕ)
    (p : ObjectPointer) : Prop where
  data : ∀ q, t.node q = { s.node q with next := t.next q }
  space : SameSpace (((s.unallocate E addr (s.node p).pageCount).releasePages E addr
    (s.node p).pageCount)) t

theorem freeObject_listed (hN : HeapLaws E.newDelete Live) (h : Listed Live s ids)
    (hlock : s.lock = .free) (test : ObjectNode → Bool) (addr : ℕ) :
    (∀ q ∈ ids, test (s.node q) = false) ∧ s.freeObject E test addr = (s, some ()) ∨
    ∃ a p b t, ids = a ++ p :: b ∧ test (s.node p) ∧ (∀ q ∈ a, test (s.node q) = false) ∧
      s.freeObject E test addr = (t, some ()) ∧ Listed Live t (a ++ b) ∧ Freed E s t addr p := by
  have hfind : s.locked.findObject test = some (ids.find? fun p => test (s.node p)) :=
    h.findObject hN test
  have hunlock : s.locked.release = s := by
    rw [release_of_taken rfl, unlocked, locked, ← hlock]
  simp only [freeObject, acquire_of_free hlock, andThen_some, hfind]
  cases hp : ids.find? fun p => test (s.node p) with
  | none =>
    refine .inl ⟨?_, ?_⟩
    · intro q hq
      simpa using find?_eq_none.mp hp q hq
    · simp only [hunlock]
  | some p =>
    obtain ⟨htest, a, b, hids, hbefore⟩ := find?_eq_some_iff_append.mp hp
    have h₁ : Listed Live ((s.locked.unallocate E addr (s.node p).pageCount).releasePages E addr
      (s.node p).pageCount) ids := h.of_same rfl rfl rfl
    obtain ⟨t, ht, hl, hdata, hspace⟩ := removeObject_listed hN h₁ hids
    have htaken : t.lock = .taken := hspace.lock
    refine .inr ⟨a, p, b, t.unlocked, hids, htest, ?_, ?_, hl.of_same rfl rfl rfl, hdata, ?_⟩
    · intro q hq
      simpa using hbefore q hq
    · show andThen (LinkedPageManager.removeObject E _ p) _ = _
      rw [show s.locked.node p = s.node p from rfl, ht, andThen_some, release_of_taken htaken]
    · exact ⟨hspace.region, hspace.vpm, hspace.tables, hspace.root, hspace.mode,
        hspace.autoExpand, hlock.symm⟩

end Removal

end LinkedPageManager
