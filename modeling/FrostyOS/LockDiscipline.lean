import FrostyOS.PooledObjects

/-! # The lock of a page manager

Which operations acquire the lock twice, release it unacquired or come back with it. -/
namespace LinkedPageManager

open MachineWord OrderedMap PageTables PageRuns SinglyLinked Calls ObjectMemory ObjectNode
  Ensures PooledObjects

section Statements

variable {F U A H α : Type}

inductive Operation (F U : Type) where
  | allocatePage (perms : PagePermissions) (addr : ℕ)
  | allocatePages (count : ℕ) (perms : PagePermissions) (addr : ℕ)
  | reservePage (perms : PagePermissions) (addr : ℕ)
  | reservePages (count : ℕ) (perms : PagePermissions) (addr : ℕ)
  | freePage (addr : ℕ)
  | freePages (addr : ℕ)
  | remap (addr : ℕ) (perms : PagePermissions)
  | expandVRegionToRight (newSize : ℕ)
  | isWritable (addr size : ℕ)
  | isValidAllocation (addr size : ℕ)
  | getPermissions (addr : ℕ)
  | getRegion
  | getPageTable
  | printRegions
  | initPageManager (region : VirtualRegion) (vpm : VirtualPageManager F U) (mode autoExpand : Bool)
  | destroy

def discard (r : LinkedPageManager F U A H × Option α) : LinkedPageManager F U A H × Option Unit :=
  andThen r fun s _ => (s, some ())

def perform (E : Services F U A H) (s : LinkedPageManager F U A H) :
    Operation F U → LinkedPageManager F U A H × Option Unit
  | .allocatePage perms addr => discard (s.allocatePage E perms addr)
  | .allocatePages count perms addr => discard (s.allocatePages E count perms addr)
  | .reservePage perms addr => discard (s.reservePage E perms addr)
  | .reservePages count perms addr => discard (s.reservePages E count perms addr)
  | .freePage addr => s.freePage E addr
  | .freePages addr => s.freePages E addr
  | .remap addr perms => s.remap E addr perms
  | .expandVRegionToRight newSize => discard (s.expandVRegionToRight E newSize)
  | .isWritable addr size => discard (s.isWritable addr size)
  | .isValidAllocation addr size => discard (s.isValidAllocation addr size)
  | .getPermissions addr => discard (s.getPermissions addr)
  | .getRegion | .getPageTable => (s, some ())
  | .printRegions => discard s.printRegions
  | .initPageManager region vpm mode autoExpand => s.initPageManager E region vpm mode autoExpand
  | .destroy => s.destroy E

/-- The lock was not acquired by its holder and not released while free, and the call
returns with it free, if it returns. -/
def LockKept (r : LinkedPageManager F U A H × Option α) : Prop :=
  Ensures (fun t => t.lock.acquiredHeld = false ∧ t.lock.releasedFree = false)
    (fun t _ => t.lock = .free) r

/-- The call returns or waits for the lock that it holds. -/
def Settles (r : LinkedPageManager F U A H × Option α) : Prop :=
  Ensures (fun t => t.lock.acquiredHeld = true) (fun _ _ => True) r

variable (E : Services F U A H) (s : LinkedPageManager F U A H)

/-- No object is in the way of a request. -/
def Unobstructed (taken : ObjectNode → Bool) (addr : ℕ) : Prop :=
  addr = 0 ∨ s.scanObjects taken = .done

def SpaceNull (count addr : ℕ) : Prop :=
  ∃ vpm res, askSpace E s.vpm count addr = some (vpm, res) ∧ pointer res = 0

/-- An allocation comes to ask for new pages. -/
def ReachesSpace (count : ℕ) (perms : PagePermissions) (addr : ℕ) : Prop :=
  (addr = 0 ∨ s.scanObjects (standsBy count perms addr) = .done) ∧
    s.fitsRegion count addr = true ∧ s.Unobstructed (inTheWay addr count) addr

/-- No object can be created, or none can be hung behind the others. -/
def NoRoom : Prop := ∀ objects p, s.objects.create E.newDelete = some (objects, some p) →
    0 < s.allocatedObjectCount ∧ (s.allocatedObjects = none ∨ s.allocatedObjects = some p)

/-- A request to reserve one page is refused without an attempt to expand the region. -/
def Refused (addr : ℕ) : Prop :=
  ¬ s.Unobstructed (startsAt addr) addr ∨ SpaceNull E s 1 addr ∧ s.autoExpand = false ∨
    ¬ SpaceNull E s 1 addr ∧ NoRoom E s

def LockClear : Operation F U → Prop
  | .allocatePage perms addr =>
    ¬ (s.autoExpand = true ∧ s.ReachesSpace 1 perms addr ∧ SpaceNull E s 1 addr)
  | .allocatePages count perms addr =>
    ¬ (s.autoExpand = true ∧ s.ReachesSpace count perms addr ∧ SpaceNull E s count addr)
  | .reservePage _ addr => Refused E s addr
  | .reservePages count _ addr => count = 1 ∧ Refused E s addr
  | .initPageManager _ _ mode _ => mode = false
  | _ => True

end Statements

section Keeping

variable {F U A H α β : Type} {E : Services F U A H} {s t : LinkedPageManager F U A H}
  {l : SpinLock} {p : ObjectPointer} {count addr virtAddr : ℕ} {perms : PagePermissions}
  {usage : BitVec 64} {taken : ObjectNode → Bool}

/-- The lock is as it was, whether the call comes back or not. -/
def KeepsLock (l : SpinLock) (r : LinkedPageManager F U A H × Option α) : Prop :=
  Ensures (fun t => t.lock = l) (fun t _ => t.lock = l) r

theorem KeepsLock.andThen {r : LinkedPageManager F U A H × Option α}
    {f : LinkedPageManager F U A H → α → LinkedPageManager F U A H × Option β}
    (hr : KeepsLock l r) (hf : ∀ t a, t.lock = l → KeepsLock l (f t a)) :
    KeepsLock l (andThen r f) := Ensures.andThen hr hf

section

variable (h : s.lock = l)

include h

theorem createObject_keepsLock : KeepsLock l (s.createObject E) := by
  unfold createObject
  split <;> exact h

theorem insertObject_keepsLock (p : ObjectPointer) : KeepsLock l (s.insertObject p) := by
  unfold insertObject
  split
  · split <;> exact h
  · exact h

theorem removeObject_keepsLock (p : ObjectPointer) : KeepsLock l (s.removeObject E p) := by
  unfold removeObject
  split
  · exact h
  · rename_i q _
    cases q <;> exact h

theorem addObject_keepsLock : KeepsLock l (s.addObject E count perms usage virtAddr) := by
  unfold addObject
  split
  · exact h
  apply (createObject_keepsLock h).andThen
  intro t p ht
  cases p with
  | none => exact ht
  | some p =>
    apply (insertObject_keepsLock (s := t.writeNode p _) ht p).andThen
    intro u inserted hu
    cases inserted <;> exact hu

theorem splitOff_keepsLock (o : ObjectNode) : KeepsLock l (s.splitOff E o) := by
  apply (createObject_keepsLock h).andThen
  intro t p ht
  cases p with
  | none => exact ht
  | some p =>
    apply (insertObject_keepsLock (s := t.writeNode p _) ht p).andThen
    intro u inserted hu
    cases inserted <;> exact hu

theorem cutFront_keepsLock : KeepsLock l (s.cutFront E perms addr p) := by
  simp only [cutFront]
  split
  · apply (splitOff_keepsLock h _).andThen
    intro t ok ht
    cases ok <;> exact ht
  · exact h

theorem cutRear_keepsLock : KeepsLock l (s.cutRear E count perms p) := by
  simp only [cutRear]
  split
  · apply (splitOff_keepsLock h _).andThen
    intro t ok ht
    cases ok <;> exact ht
  · exact h

theorem commit_keepsLock : KeepsLock l (s.commit E count perms addr p) := by
  apply (cutFront_keepsLock h).andThen
  intro t ok ht
  cases ok with
  | false => exact ht
  | true =>
    apply (cutRear_keepsLock ht).andThen
    intro u ok hu
    cases ok <;> exact hu

theorem requestSpace_keepsLock : KeepsLock l (s.requestSpace E count addr) := by
  unfold requestSpace
  split <;> exact h

end

theorem requestSpace_ensures : Ensures (fun t => t = s ∧ askSpace E s.vpm count addr = none)
    (fun t r => ∃ vpm res, askSpace E s.vpm count addr = some (vpm, res) ∧ r = pointer res ∧
      t = { s with vpm }) (s.requestSpace E count addr) := by
  unfold requestSpace
  cases hask : askSpace E s.vpm count addr with
  | none => exact ⟨rfl, rfl⟩
  | some pair => exact ⟨pair.1, pair.2, rfl, rfl, rfl⟩

theorem expandVRegionToRight_returns (h : s.lock = .free) (newSize : ℕ) :
    Ensures (fun _ => False)
      (fun t _ => t.lock = .free ∧ t.objects = s.objects ∧ t.allocatedObjects = s.allocatedObjects ∧
        t.allocatedObjectCount = s.allocatedObjectCount ∧
        (t.vpm = s.vpm ∨ t.vpm = (s.vpm.attemptToExpandRight E.sizes newSize).1))
      (s.expandVRegionToRight E newSize) := by
  simp only [expandVRegionToRight, acquire_of_free h, andThen_some]
  split
  · rw [release_of_taken rfl]
    exact ⟨rfl, rfl, rfl, rfl, .inl rfl⟩
  split
  · rw [release_of_taken rfl]
    exact ⟨rfl, rfl, rfl, rfl, .inr rfl⟩
  · rw [release_of_taken rfl]
    exact ⟨rfl, rfl, rfl, rfl, .inr rfl⟩

theorem obtainSpace_free (h : s.lock = .free) : KeepsLock .free (s.obtainSpace E count addr) := by
  apply (requestSpace_keepsLock h).andThen
  intro t r ht
  split
  · exact ht
  split
  · apply KeepsLock.andThen
      ((expandVRegionToRight_returns ht _).mono (fun _ hf => hf.elim) fun _ _ hu => hu.1)
    intro u ok hu
    cases ok with
    | false => exact hu
    | true => exact requestSpace_keepsLock hu
  · exact ht

theorem obtainSpace_eq (h : ¬ (s.autoExpand ∧ SpaceNull E s count addr)) :
    s.obtainSpace E count addr = s.requestSpace E count addr := by
  unfold obtainSpace requestSpace
  cases hask : askSpace E s.vpm count addr with
  | none => rfl
  | some pair =>
    obtain ⟨vpm, res⟩ := pair
    simp only [andThen_some]
    split
    · rfl
    · rename_i hnull
      have hnull : pointer res = 0 := not_not.mp hnull
      rw [if_neg fun hauto => h ⟨hauto, vpm, res, hask, hnull⟩, hnull]

theorem obtainSpace_waits (hlock : s.lock = .taken) (hauto : s.autoExpand)
    (hnull : SpaceNull E s count addr) :
    Ensures (fun t => t.lock.acquiredHeld) (fun _ _ => False)
      (s.obtainSpace E count addr) := by
  obtain ⟨vpm, res, hask, hres⟩ := hnull
  have hheld : s.lock.held := by rw [hlock]; rfl
  simp only [obtainSpace, requestSpace, hask, andThen_some, hres, hauto, expandVRegionToRight,
    acquire, hheld]
  exact rfl

theorem place_obstructed (h : ¬ s.Unobstructed taken addr) :
    s.place E taken count perms addr usage = (s, some 0) := if_pos (not_or.mp h)

theorem place_unobstructed (h : s.Unobstructed taken addr) :
    s.place E taken count perms addr usage =
      andThen (s.obtainSpace E count addr) fun s virtAddr =>
        if virtAddr = 0 then (s, some 0) else s.addObject E count perms usage virtAddr :=
  if_neg fun ⟨haddr, hscan⟩ => h.elim haddr hscan

theorem place_keepsLock (hlock : s.lock = l)
    (hspace : s.Unobstructed taken addr → KeepsLock l (s.obtainSpace E count addr)) :
    KeepsLock l (s.place E taken count perms addr usage) := by
  by_cases h : s.Unobstructed taken addr
  · rw [place_unobstructed h]
    apply (hspace h).andThen
    intro t r ht
    split
    · exact ht
    · exact addObject_keepsLock ht
  · rw [place_obstructed h]
    exact hlock

end Keeping

variable {s : LinkedPageManager F U A H}

section Operations

variable {F U A H α β : Type} {E : Services F U A H} {s t : LinkedPageManager F U A H}
  {l : SpinLock} {p : ObjectPointer} {count addr virtAddr : ℕ} {perms : PagePermissions}

theorem release_free (h : s.lock = .taken) : s.release.lock = .free := by
  rw [release_of_taken h]
  rfl

variable {usage : BitVec 64} {op : Operation F U} {r : LinkedPageManager F U A H × Option α}

theorem lockKept_of_body {f : LinkedPageManager F U A H → α → LinkedPageManager F U A H × Option β}
    (hr : KeepsLock .taken r) (hf : ∀ t a, t.lock = .taken → LockKept (f t a)) :
    LockKept (andThen r f) := by
  have hr' : Ensures (fun t => t.lock.acquiredHeld = false ∧ t.lock.releasedFree = false)
      (fun t _ => t.lock = .taken) r :=
    hr.mono (fun t ht => by rw [ht]; exact ⟨rfl, rfl⟩) fun _ _ ht => ht
  exact hr'.andThen hf

theorem lockKept_discard : LockKept (discard r) ↔ LockKept r := by
  obtain ⟨t, _ | a⟩ := r <;> exact Iff.rfl

theorem settles_discard : Settles (discard r) ↔ Settles r := by
  obtain ⟨t, _ | a⟩ := r <;> exact Iff.rfl

theorem not_lockKept_of_waits
    (h : Ensures (fun t => t.lock.acquiredHeld) (fun _ _ => False) r) : ¬ LockKept r := by
  obtain ⟨t, _ | a⟩ := r
  · intro hk
    exact Bool.false_ne_true (hk.1.symm.trans h)
  · exact h.elim

section Allocating

variable (hfree : s.lock = .free)

include hfree

theorem allocatePages_lock (count : ℕ) (perms : PagePermissions) (addr : ℕ) :
    LockKept (s.allocatePages E count perms addr) ↔
    ¬ (s.autoExpand ∧ s.ReachesSpace count perms addr ∧ SpaceNull E s count addr) := by
  rw [allocatePages_eq hfree]
  constructor
  · rintro hk ⟨hauto, ⟨hscan, hfits, hway⟩, hnull⟩
    have hidle : (if addr = 0 then Scan.done
        else s.locked.scanObjects (standsBy count perms addr)) = .done := by
      split
      · rfl
      · exact hscan.resolve_left ‹_›
    refine not_lockKept_of_waits ?_ hk
    rw [commitOrPlace, hidle, hfits]
    simp only [Bool.true_eq_false, if_false]
    rw [place_unobstructed (s := s.locked) hway]
    apply stop
    apply stop
    apply stop
    exact obtainSpace_waits rfl hauto hnull
  · intro h
    apply lockKept_of_body
    · unfold commitOrPlace
      split
      · rfl
      · exact commit_keepsLock rfl
      · rename_i hscan
        split
        · rfl
        rename_i hfits
        have hfits : s.fitsRegion count addr := by simpa using hfits
        apply (place_keepsLock (s := s.locked) rfl ?_).andThen
        · intro t r ht
          split <;> exact ht
        · intro hway
          rw [obtainSpace_eq]
          · exact requestSpace_keepsLock rfl
          · rintro ⟨hauto, hnull⟩
            refine h ⟨hauto, ⟨?_, hfits, hway⟩, hnull⟩
            by_cases haddr : addr = 0
            · exact .inl haddr
            · rw [if_neg haddr] at hscan
              exact .inr hscan
    · intro t r ht
      exact release_free ht

theorem reservePage_eq : s.reservePage E perms addr =
    andThen (s.locked.place E (startsAt addr) 1 perms addr poStandby) fun s virtAddr =>
      if virtAddr = 0 then (s.release, some 0) else (s, some virtAddr) := by
  rw [reservePage, acquire_of_free hfree, andThen_some]

end Allocating

theorem insertObject_first (hpos : 0 < s.allocatedObjectCount)
    (hhead : s.allocatedObjects = none ∨ s.allocatedObjects = some p) :
    s.insertObject p = (s, some false) := by
  have hprev : s.getPrevious p = some none := by
    rw [getPrevious]
    rcases hhead with hhead | hhead
    · rw [hhead, previous_nil]
    · rw [hhead, previous_self (by decide)]
  rw [insertObject, if_pos hpos, hprev]

theorem insertObject_room (hlock : s.lock = l)
    (h : ¬ (0 < s.allocatedObjectCount ∧
      (s.allocatedObjects = none ∨ s.allocatedObjects = some p))) :
    Ensures (fun t => t.lock = l) (fun t ok => ok = true ∧ t.lock = l) (s.insertObject p) := by
  unfold insertObject
  split
  · split
    · exact hlock
    · rename_i hpos _ hprev
      exact absurd ⟨hpos, head_of_previous_none hprev⟩ h
    · exact ⟨rfl, hlock⟩
  · exact ⟨rfl, hlock⟩

theorem addObject_noRoom (hlock : s.lock = l) (h : NoRoom E s) :
    Ensures (fun t => t.lock = l) (fun t r => r = 0 ∧ t.lock = l)
      (s.addObject E count perms usage virtAddr) := by
  unfold addObject
  split
  · exact hlock
  unfold createObject
  split
  · exact hlock
  rename_i objects p hcreate
  cases p with
  | none => exact ⟨rfl, hlock⟩
  | some p =>
    obtain ⟨hpos, hhead⟩ := h objects p hcreate
    dsimp only [andThen_some]
    rw [insertObject_first]
    · exact ⟨rfl, hlock⟩
    · exact hpos
    · exact hhead

theorem addObject_room (hlock : s.lock = l) (h : ¬ NoRoom E s) :
    Ensures (fun t => t.lock = l) (fun t r => r = virtAddr ∧ t.lock = l)
      (s.addObject E count perms usage virtAddr) := by
  simp only [NoRoom, not_forall] at h
  obtain ⟨objects, p, hcreate, hroom⟩ := h
  unfold addObject
  split
  · exact hlock
  simp only [createObject, hcreate, andThen_some]
  apply (insertObject_room (p := p) ?_ ?_).andThen
  · rintro t ok ⟨rfl, ht⟩
    exact ⟨rfl, ht⟩
  · exact hlock
  · exact hroom

section Reserving

variable (hfree : s.lock = .free)

include hfree

theorem lockKept_reservePage (h : Refused E s addr) : LockKept (s.reservePage E perms addr) := by
  have hkept : ∀ {r : LinkedPageManager F U A H × Option ℕ},
      Ensures (fun t => t.lock = .taken) (fun t v => v = 0 ∧ t.lock = .taken) r →
      LockKept (andThen r fun s virtAddr =>
        if virtAddr = 0 then (s.release, some 0) else (s, some virtAddr)) := by
    intro r hr
    have hr' : Ensures (fun t => t.lock.acquiredHeld = false ∧ t.lock.releasedFree = false)
        (fun t v => v = 0 ∧ t.lock = .taken) r :=
      hr.mono (fun t ht => by rw [ht]; exact ⟨rfl, rfl⟩) fun _ _ hv => hv
    apply hr'.andThen
    rintro t v ⟨rfl, ht⟩
    exact release_free ht
  rw [reservePage_eq hfree]
  apply hkept
  by_cases hway : s.Unobstructed (startsAt addr) addr
  · rw [place_unobstructed (s := s.locked) hway]
    rcases h with hno | ⟨hnull, hauto⟩ | ⟨hsome, hroom⟩
    · exact absurd hway hno
    · obtain ⟨vpm, res, hask, hres⟩ := hnull
      rw [obtainSpace_eq (s := s.locked) fun hexp => Bool.false_ne_true (hauto.symm.trans hexp.1)]
      rw [requestSpace, show askSpace E s.locked.vpm 1 addr = some (vpm, res) from hask]
      simp only [andThen_some, hres, if_true]
      exact ⟨rfl, rfl⟩
    · rw [obtainSpace_eq (s := s.locked) fun hexp => hsome hexp.2]
      apply (requestSpace_ensures.mono (fun t ht => by rw [ht.1]; rfl) fun _ _ hp => hp).andThen
      rintro t v ⟨vpm, res, hask, rfl, rfl⟩
      rw [if_neg fun hres => hsome ⟨vpm, res, hask, hres⟩]
      exact addObject_noRoom rfl hroom
  · rw [place_obstructed (s := s.locked) hway]
    exact ⟨rfl, rfl⟩

theorem refused_of_lockKept (hsettles : Settles (s.reservePage E perms addr))
    (hkept : LockKept (s.reservePage E perms addr)) : Refused E s addr := by
  rw [reservePage_eq hfree] at hsettles hkept
  by_contra hnot
  simp only [Refused, not_or, not_not, not_and] at hnot
  obtain ⟨hway, hexpand, hroom⟩ := hnot
  rw [place_unobstructed (s := s.locked) hway] at hsettles hkept
  by_cases hnull : SpaceNull E s 1 addr
  · have hauto : s.autoExpand := by simpa using hexpand hnull
    refine not_lockKept_of_waits ?_ hkept
    apply stop
    apply stop
    exact obtainSpace_waits rfl hauto hnull
  · have hheld : Ensures (fun t => t.lock = .taken) (fun t v => v ≠ 0 ∧ t.lock = .taken)
        (andThen (s.locked.obtainSpace E 1 addr) fun s virtAddr =>
          if virtAddr = 0 then (s, some 0)
          else s.addObject E 1 perms poStandby virtAddr) := by
      rw [obtainSpace_eq (s := s.locked) fun hexp => hnull hexp.2]
      apply (requestSpace_ensures.mono (fun t ht => by rw [ht.1]; rfl) fun _ _ hp => hp).andThen
      rintro t v ⟨vpm, res, hask, rfl, rfl⟩
      have hres : pointer res ≠ 0 := fun hres => hnull ⟨vpm, res, hask, hres⟩
      have hroom' : ¬ NoRoom E { s.locked with vpm } := hroom hnull
      rw [if_neg hres]
      apply (addObject_room (l := .taken) rfl hroom').mono (fun _ ht => ht)
      rintro t v ⟨rfl, ht⟩
      exact ⟨hres, ht⟩
    generalize (andThen (s.locked.obtainSpace E 1 addr) fun s virtAddr =>
      if virtAddr = 0 then (s, some 0)
      else s.addObject E 1 perms poStandby virtAddr) = r at hheld hsettles hkept
    obtain ⟨t, _ | v⟩ := r
    · have hlock : t.lock = .taken := hheld
      have hwaits : t.lock.acquiredHeld := hsettles
      rw [hlock] at hwaits
      cases hwaits
    obtain ⟨hv, hlock⟩ : v ≠ 0 ∧ t.lock = .taken := hheld
    simp only [andThen_some, if_neg hv] at hkept
    have hfree' : t.lock = .free := hkept
    rw [hlock] at hfree'
    cases hfree'

theorem not_lockKept_reservePages (hcount : count ≠ 1)
    (hsettles : Settles (s.reservePages E count perms addr)) :
    ¬ LockKept (s.reservePages E count perms addr) := by
  have hrelease : ∀ {t : LinkedPageManager F U A H} {v : ℕ}, t.lock = .free →
      ¬ LockKept (t.release, some v) := by
    intro t v ht hk
    have hlock : t.release.lock = .free := hk
    simp only [release, ht] at hlock
    cases hlock
  rw [reservePages, if_neg hcount] at hsettles ⊢
  split
  · exact hrelease hfree
  rename_i hregion
  rw [if_neg hregion] at hsettles
  have hplace : KeepsLock .free
      (s.place E (covers addr count) count perms addr poStandby) :=
    place_keepsLock hfree fun _ => obtainSpace_free hfree
  generalize s.place E (covers addr count) count perms addr poStandby = r
    at hplace hsettles
  obtain ⟨t, _ | v⟩ := r
  · have hlock : t.lock = .free := hplace
    have hwaits : t.lock.acquiredHeld := hsettles
    rw [hlock] at hwaits
    cases hwaits
  · exact hrelease hplace

end Reserving

section Others

variable (hfree : s.lock = .free)

include hfree

theorem lockKept_acquire
    {f : LinkedPageManager F U A H → Unit → LinkedPageManager F U A H × Option α}
    (hf : LockKept (f s.locked ())) : LockKept (andThen s.acquire f) := by
  rw [acquire_of_free hfree]
  exact hf

omit hfree in
theorem lockKept_stuck (h : s.lock = .taken) : LockKept (s, (none : Option α)) := by
  show s.lock.acquiredHeld = false ∧ s.lock.releasedFree = false
  rw [h]
  exact ⟨rfl, rfl⟩

theorem lockKept_freeObject (test : ObjectNode → Bool) : LockKept (s.freeObject E test addr) := by
  apply lockKept_acquire hfree
  split
  · exact lockKept_stuck rfl
  · exact release_free rfl
  · apply lockKept_of_body
    · exact removeObject_keepsLock rfl _
    · intro t _ ht
      exact release_free ht

theorem lockKept_remap : LockKept (s.remap E addr perms) := by
  apply lockKept_acquire hfree
  split
  · exact lockKept_stuck rfl
  · exact release_free rfl
  · exact release_free rfl

theorem lockKept_expandVRegionToRight (newSize : ℕ) : LockKept (s.expandVRegionToRight E newSize) :=
  (expandVRegionToRight_returns hfree newSize).mono (fun _ hf => hf.elim) fun _ _ ht => ht.1

omit hfree in
theorem lockKept_isWritableFrom (fuel addr size : ℕ)
    (hfree : s.lock = .free) : LockKept (isWritableFrom fuel s addr size) := by
  induction fuel generalizing s addr size with
  | zero =>
    show s.lock.acquiredHeld = false ∧ s.lock.releasedFree = false
    rw [hfree]
    exact ⟨rfl, rfl⟩
  | succ fuel ih =>
    apply lockKept_acquire hfree
    split
    · exact lockKept_stuck rfl
    · exact release_free rfl
    · split
      · exact release_free rfl
      · split
        · exact ih _ _ (release_free rfl)
        · exact release_free rfl

theorem lockKept_isValidAllocation (size : ℕ) : LockKept (s.isValidAllocation addr size) := by
  apply lockKept_acquire hfree
  split
  · exact lockKept_stuck rfl
  · exact release_free rfl

theorem lockKept_getPermissions : LockKept (s.getPermissions addr) := by
  apply lockKept_acquire hfree
  split
  · exact lockKept_stuck rfl
  · exact release_free rfl
  · exact release_free rfl

theorem lockKept_printRegions : LockKept s.printRegions := by
  apply lockKept_acquire hfree
  split
  · exact lockKept_stuck rfl
  · exact release_free rfl

omit hfree in
theorem deleteObjects_keepsLock (n : ℕ) (h : s.lock = l) : KeepsLock l (deleteObjects E n s) := by
  induction n generalizing s with
  | zero => exact h
  | succ n ih =>
    unfold deleteObjects
    split
    · exact h
    · exact ih h

theorem lockKept_destroy : LockKept (s.destroy E) := by
  unfold destroy
  split
  · show s.lock.acquiredHeld = false ∧ s.lock.releasedFree = false
    rw [hfree]
    exact ⟨rfl, rfl⟩
  apply lockKept_acquire hfree
  apply lockKept_of_body (deleteObjects_keepsLock _ rfl)
  intro t _ ht
  split
  · exact lockKept_freeObject (release_free ht) _
  · exact release_free ht

theorem initPageManager_lock (region : VirtualRegion) (vpm : VirtualPageManager F U)
    (mode autoExpand : Bool) :
    LockKept (s.initPageManager E region vpm mode autoExpand) ↔ mode = false := by
  rw [initPageManager, acquire_of_free hfree, andThen_some]
  cases mode with
  | true =>
    refine ⟨fun hk => absurd hk (not_lockKept_of_waits ?_),
      fun h => absurd h.symm Bool.false_ne_true⟩
    apply stop
    simp only [if_true, freePage, freeObject, acquire]
    exact rfl
  | false =>
    refine ⟨fun _ => rfl, fun _ => ?_⟩
    simp only [Bool.false_eq_true, if_false, andThen_some]
    split
    · exact release_free rfl
    · exact release_free rfl

end Others

theorem lockKept_of_clear (hfree : s.lock = .free) (h : LockClear E s op) :
    LockKept (perform E s op) := by
  cases op with
  | allocatePage perms addr =>
    exact lockKept_discard.mpr ((allocatePages_lock hfree 1 perms addr).mpr h)
  | allocatePages count perms addr =>
    exact lockKept_discard.mpr ((allocatePages_lock hfree count perms addr).mpr h)
  | reservePage perms addr => exact lockKept_discard.mpr (lockKept_reservePage hfree h)
  | reservePages count perms addr =>
    obtain ⟨rfl, hrefused⟩ := h
    exact lockKept_discard.mpr (lockKept_reservePage hfree hrefused)
  | freePage addr => exact lockKept_freeObject hfree _
  | freePages addr => exact lockKept_freeObject hfree _
  | remap addr perms => exact lockKept_remap hfree
  | expandVRegionToRight newSize =>
    exact lockKept_discard.mpr (lockKept_expandVRegionToRight hfree newSize)
  | isWritable addr size => exact lockKept_discard.mpr (lockKept_isWritableFrom _ addr size hfree)
  | isValidAllocation addr size =>
    exact lockKept_discard.mpr (lockKept_isValidAllocation hfree size)
  | getPermissions addr => exact lockKept_discard.mpr (lockKept_getPermissions hfree)
  | getRegion => exact hfree
  | getPageTable => exact hfree
  | printRegions => exact lockKept_discard.mpr (lockKept_printRegions hfree)
  | initPageManager region vpm mode autoExpand =>
    exact (initPageManager_lock hfree region vpm mode autoExpand).mpr h
  | destroy => exact lockKept_destroy hfree

theorem clear_of_lockKept (hfree : s.lock = .free) (hsettles : Settles (perform E s op))
    (hkept : LockKept (perform E s op)) : LockClear E s op := by
  cases op with
  | allocatePage perms addr =>
    exact (allocatePages_lock hfree 1 perms addr).mp (lockKept_discard.mp hkept)
  | allocatePages count perms addr =>
    exact (allocatePages_lock hfree count perms addr).mp (lockKept_discard.mp hkept)
  | reservePage perms addr =>
    exact refused_of_lockKept hfree (settles_discard.mp hsettles) (lockKept_discard.mp hkept)
  | reservePages count perms addr =>
    by_cases hcount : count = 1
    · subst hcount
      exact ⟨rfl, refused_of_lockKept hfree (settles_discard.mp hsettles)
        (lockKept_discard.mp hkept)⟩
    · exact absurd (lockKept_discard.mp hkept)
        (not_lockKept_reservePages hfree hcount (settles_discard.mp hsettles))
  | initPageManager region vpm mode autoExpand =>
    exact (initPageManager_lock hfree region vpm mode autoExpand).mp hkept
  | _ => trivial

end Operations

section Settling

variable {F U A H α : Type} {E : Services F U A H} {s t : LinkedPageManager F U A H}
  {Live : H → ℕ → Prop} {IF : F → Prop} {IU : U → Prop} {ids : List ObjectPointer}
  {p : ObjectPointer} {count addr : ℕ} {perms : PagePermissions} {usage : BitVec 64}

/-- A state as the operations expect it: the list ends, none of its objects is without
pages, a new object would come with a null pointer, and the blocks of the virtual page
manager are in order. -/
structure Proper (E : Services F U A H) (Live : H → ℕ → Prop) (IF : F → Prop) (IU : U → Prop)
    (s : LinkedPageManager F U A H) : Prop where
  list : ∃ ids, Listed Live s ids ∧ ∀ p ∈ ids, 0 < (s.node p).length
  fresh : ∀ objects p, s.objects.create E.newDelete = some (objects, some p) →
    (objects.node p).next = none
  blocks : RunInvariant E.sizes E.blocks IF IU s.vpm

/-- Addresses are words, a region that may grow has room for it, and a manager that is
destroyed has not used the pool. -/
def Sane (s : LinkedPageManager F U A H) : Operation F U → Prop
  | .allocatePage _ addr | .allocatePages _ _ addr | .reservePage _ addr => addr < 2 ^ 64
  | .reservePages count _ addr => addr < 2 ^ 64 ∧ (s.autoExpand = true →
      pageSize ∣ s.region.size ∧ s.vpm.region.start + (pageSize * count + s.region.size) < 2 ^ 64)
  | .destroy => s.pageObjectPoolUsed = false
  | _ => True

theorem settles_of_returns {r : LinkedPageManager F U A H × Option α} {post}
    (h : Ensures (fun _ => False) post r) :
    Settles r := h.mono (fun _ hf => hf.elim) fun _ _ _ => trivial

theorem settles_acquire (hfree : s.lock = .free)
    {f : LinkedPageManager F U A H → Unit → LinkedPageManager F U A H × Option α}
    (hf : Settles (f s.locked ())) : Settles (andThen s.acquire f) := by
  rw [acquire_of_free hfree]
  exact hf

section Lists

variable (hN : HeapLaws E.newDelete Live) (h : Listed Live s ids)

include hN h

theorem cutFront_listed (hpanic : ¬ Panics E)
    (hfresh : ∀ objects p, s.objects.create E.newDelete = some (objects, some p) →
      (objects.node p).next = none) :
    Ensures (fun _ => False) (fun t _ => ∃ ids', Listed Live t ids')
      (s.cutFront E perms addr p) := by
  simp only [cutFront]
  split
  · apply ((splitOff_ensures hN h _).mono (fun _ hp => absurd hp hpanic) fun _ _ hq => hq).andThen
    rintro t ok (⟨rfl, hsame, -⟩ | ⟨objects, q, hcreate, rfl, hg⟩)
    · exact ⟨ids, hsame.listed h⟩
    · simp only [Bool.true_eq_false, if_false]
      exact ⟨_, (hg.listed h (hfresh objects q hcreate)).writeNode rfl⟩
  · exact ⟨ids, h⟩

theorem cutRear_returns (hpanic : ¬ Panics E) :
    Ensures (fun _ => False) (fun _ _ => True) (s.cutRear E count perms p) := by
  simp only [cutRear]
  split
  · apply ((splitOff_ensures hN h _).mono (fun _ hp => absurd hp hpanic) fun _ _ hq => hq).andThen
    intro t ok _
    cases ok <;> trivial
  · trivial

theorem commit_returns (hpanic : ¬ Panics E)
    (hfresh : ∀ objects p, s.objects.create E.newDelete = some (objects, some p) →
      (objects.node p).next = none) :
    Ensures (fun _ => False) (fun _ _ => True) (s.commit E count perms addr p) := by
  apply (cutFront_listed hN h hpanic hfresh).andThen
  rintro t ok ⟨ids', ht⟩
  split
  · trivial
  · apply (cutRear_returns hN ht hpanic).andThen
    intro u ok _
    cases ok <;> trivial

end Lists

section Spaces

variable (hTF : Ideal E.sizes IF) (hTU : Ideal E.blocks IU)

include hTF hTU

theorem requestSpace_returns (hI : RunInvariant E.sizes E.blocks IF IU s.vpm)
    (haddr : addr < 2 ^ 64) (count : ℕ) :
    Ensures (fun _ => False) (fun t _ => t.objects = s.objects ∧
      t.allocatedObjects = s.allocatedObjects ∧ t.allocatedObjectCount = s.allocatedObjectCount)
      (s.requestSpace E count addr) := by
  apply requestSpace_ensures.mono
  · rintro t ⟨-, hnone⟩
    exact askSpace_returns hTF hTU hI haddr count hnone
  · rintro t r ⟨vpm, res, -, -, rfl⟩
    exact ⟨rfl, rfl, rfl⟩

/-- Without the lock an expansion comes back, and so does the request behind it. -/
theorem obtainSpace_returns (hfree : s.lock = .free)
    (hI : RunInvariant E.sizes E.blocks IF IU s.vpm) (haddr : addr < 2 ^ 64)
    (hroom : s.autoExpand → pageSize ∣ s.region.size ∧
      s.vpm.region.start + (pageSize * count + s.region.size) < 2 ^ 64) :
    Ensures (fun _ => False) (fun t _ => t.objects = s.objects ∧
      t.allocatedObjects = s.allocatedObjects ∧ t.allocatedObjectCount = s.allocatedObjectCount)
      (s.obtainSpace E count addr) := by
  apply (requestSpace_ensures.mono (fun t ht => askSpace_returns hTF hTU hI haddr count ht.2)
    fun _ _ hp => hp).andThen
  rintro t r ⟨vpm, res, hask, rfl, rfl⟩
  split
  · exact ⟨rfl, rfl, rfl⟩
  split
  · rename_i hauto
    obtain ⟨hpages, hlt⟩ := hroom hauto
    have hsum : u64 (pageSize * count + s.region.size) = pageSize * count + s.region.size :=
      u64_of_lt (by omega)
    have hcount : count < 2 ^ 52 := by
      unfold pageSize at hlt
      omega
    obtain ⟨hvpm, hanswer⟩ := askSpace_invariant hTF hTU hI haddr hcount hask
    apply (expandVRegionToRight_returns (s := { s with vpm }) hfree _).andThen
    rintro u ok ⟨-, hobjects, hhead, hcounted, hspace⟩
    cases ok with
    | false => exact ⟨hobjects, hhead, hcounted⟩
    | true =>
      have hI' : RunInvariant E.sizes E.blocks IF IU u.vpm := by
        rcases hspace with hsame | hgrown
        · rw [hsame]
          exact hvpm
        rw [hgrown, hsum]
        apply attemptToExpandRight_invariant hTF hvpm
        · exact Nat.dvd_add (Nat.dvd_mul_right _ _) hpages
        · rw [hanswer.region]
          exact hlt
      apply (requestSpace_returns hTF hTU hI' haddr count).mono (fun _ hf => hf)
      rintro w r ⟨hobjects', hhead', hcounted'⟩
      exact ⟨hobjects'.trans hobjects, hhead'.trans hhead, hcounted'.trans hcounted⟩
  · exact ⟨rfl, rfl, rfl⟩

end Spaces

section Lifetime

theorem deleteObjects_returns (h : Chain s.next s.allocatedObjects ids) :
    Ensures (fun _ => False) (fun t _ => t.allocatedObjects = none)
      (deleteObjects E ids.length s) := by
  induction ids generalizing s with
  | nil => exact h
  | cons p ids ih =>
    obtain ⟨hhead, htail⟩ := h
    rw [List.length_cons, deleteObjects, hhead]
    have hnode : ∀ q, (s.objects.operatorDelete E.newDelete p).node q = s.objects.node q := by
      intro q
      cases p with
      | pool i => rfl
      | heap a =>
        simp only [operatorDelete]
        split <;> rfl
    apply ih
    apply htail.congr
    intro q _
    exact congrArg ObjectNode.next (hnode q)

theorem freeObject_empty (hfree : s.lock = .free) (h : s.allocatedObjects = none)
    (test : ObjectNode → Bool) : Settles (s.freeObject E test addr) := by
  apply settles_acquire hfree
  have hfind : s.locked.findObject test = some none := by
    rw [findObject, show s.locked.allocatedObjects = none from h]
    exact find_chain (l := []) rfl (Nat.zero_le _)
  rw [hfind]
  trivial

end Lifetime

theorem isWritableFrom_returns (hN : HeapLaws E.newDelete Live) (fuel addr size : ℕ)
    (hfree : s.lock = .free) (h : Listed Live s ids)
    (hpos : ∀ p ∈ ids, 0 < (s.node p).length) (hlt : size < fuel) :
    Settles (isWritableFrom fuel s addr size) := by
  induction fuel generalizing s addr size with
  | zero => cases hlt
  | succ fuel ih =>
    apply settles_acquire hfree
    have hfind : s.locked.findObject (isAt addr) =
        some (ids.find? fun p => isAt addr (s.node p)) := h.findObject hN _
    rw [hfind]
    cases hp : ids.find? fun p => isAt addr (s.node p) with
    | none => trivial
    | some p =>
      dsimp only
      split
      · trivial
      split
      · rename_i hshort
        have hlen := hpos p (List.mem_of_find?_eq_some hp)
        have hlen' : 0 < (s.locked.node p).length := hlen
        apply ih
        · exact release_free rfl
        · exact h.of_same rfl rfl rfl
        · exact hpos
        · omega
      · trivial

section Proper

variable (hTF : Ideal E.sizes IF) (hTU : Ideal E.blocks IU) (hN : HeapLaws E.newDelete Live)
  (hpanic : ¬ Panics E) (hfree : s.lock = .free) (h : Proper E Live IF IU s)

include hTF hTU hN hpanic h

theorem place_settles (haddr : addr < 2 ^ 64) (taken : ObjectNode → Bool) :
    Settles (s.locked.place E taken count perms addr usage) := by
  obtain ⟨ids, hl, -⟩ := h.list
  have hl' : Listed Live s.locked ids := hl.of_same rfl rfl rfl
  apply (place_ensures hN hl' (fun _ => rfl) taken count perms addr usage).mono
  · rintro t (hp | hnone | hwaits)
    · exact absurd hp hpanic
    · exact absurd hnone (askSpace_returns hTF hTU h.blocks haddr count)
    · exact hwaits
  · exact fun _ _ _ => trivial

include hfree

theorem allocatePages_settles (haddr : addr < 2 ^ 64) (count : ℕ) :
    Settles (s.allocatePages E count perms addr) := by
  obtain ⟨ids, hl, -⟩ := h.list
  have hl' : Listed Live s.locked ids := hl.of_same rfl rfl rfl
  have hbody : Settles (s.locked.commitOrPlace E (inTheWay addr count) (s.fitsRegion count addr)
      count perms addr) := by
    unfold commitOrPlace
    split
    · trivial
    · exact settles_of_returns (commit_returns hN hl' hpanic h.fresh)
    · split
      · trivial
      · apply andThen (place_settles hTF hTU hN hpanic h haddr _)
        intro t r _
        split <;> trivial
  rw [allocatePages_eq hfree]
  exact andThen hbody fun _ _ _ => trivial

theorem reservePage_settles (haddr : addr < 2 ^ 64) : Settles (s.reservePage E perms addr) := by
  rw [reservePage_eq hfree]
  apply andThen (place_settles hTF hTU hN hpanic h haddr _)
  intro t r _
  split <;> trivial

theorem reservePages_settles (haddr : addr < 2 ^ 64)
    (hroom : s.autoExpand → pageSize ∣ s.region.size ∧
      s.vpm.region.start + (pageSize * count + s.region.size) < 2 ^ 64) :
    Settles (s.reservePages E count perms addr) := by
  obtain ⟨ids, hl, -⟩ := h.list
  unfold reservePages
  split
  · exact reservePage_settles hTF hTU hN hpanic hfree h haddr
  split
  · trivial
  have hplace : Ensures (fun _ => False) (fun _ _ => True)
      (s.place E (covers addr count) count perms addr poStandby) := by
    unfold place
    split
    · trivial
    apply (obtainSpace_returns hTF hTU hfree h.blocks haddr hroom).andThen
    rintro t r ⟨hobjects, hhead, hcount⟩
    split
    · trivial
    · exact (addObject_ensures hN (hl.of_same hobjects hhead hcount)).mono
        (fun _ hp => absurd hp hpanic) fun _ _ _ => trivial
  exact (settles_of_returns hplace).andThen fun _ _ _ => trivial

omit hTF hTU hN hpanic in
theorem destroy_settles (hpool : s.pageObjectPoolUsed = false) : Settles (s.destroy E) := by
  obtain ⟨ids, hl, -⟩ := h.list
  rw [destroy, if_neg (by simp [hpool])]
  apply settles_acquire hfree
  have hdelete : Ensures (fun _ => False) (fun t _ => t.allocatedObjects = none)
      (deleteObjects E s.allocatedObjectCount s.locked) := by
    rw [hl.counted]
    exact deleteObjects_returns (s := s.locked) hl.chain
  have hlock := deleteObjects_keepsLock (E := E) s.locked.allocatedObjectCount (s := s.locked) rfl
  obtain ⟨t, _, heq, hempty⟩ := hdelete.returns
  have htaken : t.lock = .taken := hlock.post_of_eq heq
  rw [show s.locked.allocatedObjectCount = s.allocatedObjectCount from rfl, heq, andThen_some]
  split
  · exact freeObject_empty (release_free htaken) hempty _
  · trivial

/-- In a proper state every operation returns, unless it waits for the lock it holds. -/
theorem settles_of_proper {op : Operation F U} (hsane : Sane s op) : Settles (perform E s op) := by
  obtain ⟨ids, hl, hpos⟩ := h.list
  have hfind : ∀ test, s.locked.findObject test = some (ids.find? fun p => test (s.node p)) :=
    fun test => hl.findObject hN test
  have hfreed : ∀ test addr, Settles (s.freeObject E test addr) := by
    intro test addr
    rcases freeObject_listed hN hl hfree test addr with ⟨-, heq⟩ | ⟨_, _, _, _, -, -, -, heq, -⟩
    · rw [heq]
      trivial
    · rw [heq]
      trivial
  cases op with
  | allocatePage perms addr =>
    exact settles_discard.mpr (allocatePages_settles hTF hTU hN hpanic hfree h hsane 1)
  | allocatePages count perms addr =>
    exact settles_discard.mpr (allocatePages_settles hTF hTU hN hpanic hfree h hsane count)
  | reservePage perms addr =>
    exact settles_discard.mpr (reservePage_settles hTF hTU hN hpanic hfree h hsane)
  | reservePages count perms addr =>
    exact settles_discard.mpr (reservePages_settles hTF hTU hN hpanic hfree h hsane.1 hsane.2)
  | freePage addr => exact hfreed _ _
  | freePages addr => exact hfreed _ _
  | remap addr perms =>
    apply settles_acquire hfree
    rw [hfind]
    split <;> trivial
  | expandVRegionToRight newSize =>
    exact settles_discard.mpr (settles_of_returns (expandVRegionToRight_returns hfree newSize))
  | isWritable addr size =>
    apply settles_discard.mpr
    exact isWritableFrom_returns hN _ addr size hfree hl hpos (Nat.lt_succ_self _)
  | isValidAllocation addr size =>
    apply settles_discard.mpr
    apply settles_acquire hfree
    rw [hfind]
    trivial
  | getPermissions addr =>
    apply settles_discard.mpr
    apply settles_acquire hfree
    rw [hfind]
    split <;> trivial
  | getRegion => trivial
  | getPageTable => trivial
  | printRegions =>
    have hlt := hl.length_lt hN
    have hnodes : nodes s.locked.next (2 ^ 64) s.locked.allocatedObjects = some ids :=
      nodes_chain hl.chain (by omega)
    apply settles_discard.mpr
    apply settles_acquire hfree
    rw [hnodes]
    trivial
  | initPageManager region vpm mode autoExpand =>
    apply settles_acquire hfree
    cases mode with
    | true =>
      apply stop
      simp only [if_true, freePage, freeObject, acquire]
      exact rfl
    | false => trivial
  | destroy => exact destroy_settles hfree h hsane

end Proper

end Settling

section LockDiscipline

variable {F U A H : Type} {E : Services F U A H} {s : LinkedPageManager F U A H}

/-- Called with the lock free in any state, an operation that is in order acquires and
releases the lock in turn and returns with it free; any other breaks the rule, unless it
hangs for another reason, which does not happen in a proper state. -/
theorem lock_kept_iff (hfree : s.lock = .free) (op : Operation F U) :
    (LockClear E s op → LockKept (perform E s op)) ∧
    (Settles (perform E s op) → LockKept (perform E s op) → LockClear E s op) ∧
    ∀ (Live : H → ℕ → Prop) (IF : F → Prop) (IU : U → Prop), Ideal E.sizes IF →
      Ideal E.blocks IU → HeapLaws E.newDelete Live → ¬ Panics E → Proper E Live IF IU s →
      Sane s op → Settles (perform E s op) :=
  ⟨lockKept_of_clear hfree, clear_of_lockKept hfree, fun _ _ _ hTF hTU hN hpanic h hsane =>
    settles_of_proper hTF hTU hN hpanic hfree h hsane⟩

theorem sample_proper : Proper sampleServices noBlock (fun _ => True)
    (fun _ => True) sampleManager where
  list := ⟨[], ⟨rfl, rfl, by simp, ⟨rfl, rfl, by decide +kernel⟩⟩, by simp⟩
  fresh := by
    intro objects p hcreate
    have hslot : (statics.create noHeap).map
        (fun r => r.2.map fun p => (r.1.node p).next) = some (some none) := by decide +kernel
    have hcreate' : statics.create noHeap = some (objects, some p) := hcreate
    rw [hcreate'] at hslot
    exact Option.some.inj (Option.some.inj hslot)
  blocks := by
    have hs : (VirtualRegion.ofSize 0x1000 0x4000).Straight := by
      unfold VirtualRegion.Straight
      decide
    have hr : Reachable (sortedOps _) (sortedOps _) (sortedManager 0x1000 0x4000) :=
      .init _ hs (by decide +kernel) ⟨1, rfl⟩ ⟨4, rfl⟩
    dsimp only [sampleManager]
    exact reachable_invariant (sortedOps_ideal _) (sortedOps_ideal _) hr

theorem lock_kept_sample :
    LockKept (perform sampleServices sampleManager
      (.allocatePage .readWrite 0)) ∧ Settles (perform sampleServices sampleManager
      (.allocatePage .readWrite 0)) := by
  obtain ⟨hkept, -, hsettles⟩ := lock_kept_iff (E := sampleServices)
    (s := sampleManager) rfl _
  refine ⟨hkept fun h => Bool.false_ne_true h.1, ?_⟩
  apply hsettles noBlock (fun _ => True) (fun _ => True)
  · exact sortedOps_ideal _
  · exact sortedOps_ideal _
  · exact noHeap_laws
  · rintro ⟨_, hnew⟩
    cases hnew
  · exact sample_proper
  · show 0 < 2 ^ 64
    decide

/-- Two pages are reserved without the lock, which is released all the same; one page is
reserved and the lock stays; a region that is too small is expanded under the lock; the
table of a user's page manager is assigned under it. -/
theorem lock_broken :
    ((perform sampleServices sampleManager
      (.reservePages 2 .readWrite 0)).1.lock = ⟨false, false, true⟩) ∧
    ((perform sampleServices sampleManager
      (.reservePage .readWrite 0)).2 = some () ∧ (perform sampleServices sampleManager
      (.reservePage .readWrite 0)).1.lock = .taken) ∧
    ((perform sampleServices { sampleManager with autoExpand := true }
      (.allocatePages 5 .readWrite 0)).1.lock = ⟨true, true, false⟩) ∧
    ((perform sampleServices sampleManager
      (.initPageManager (VirtualRegion.ofSize 0x1000 0x4000) (sortedManager 0x1000 0x4000) true
        false)).1.lock = ⟨true, true, false⟩) := by
  refine ⟨?_, ⟨?_, ?_⟩, ?_, ?_⟩
  all_goals decide +kernel

end LockDiscipline

end LinkedPageManager
