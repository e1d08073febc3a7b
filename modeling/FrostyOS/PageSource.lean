import FrostyOS.PageRuns

/-! # The pages of a process that is being loaded

A granted run of pages lies in the user's part of the address space, is where it was asked
for, and was not handed out before. -/

open MachineWord OrderedMap BlockPool VirtualPageManager PageRuns

def userEnd : ℕ := 0x800000000000

/-- What a granted request for `count` pages means for the addresses that are handed out.
A request without an address is one for address zero. -/
structure Grant (before after : ℕ → Prop) (count addr data : ℕ) : Prop where
  pos : 0 < count
  aligned : pageSize ∣ data
  low : 0x1000 ≤ data
  high : data + count * pageSize ≤ userEnd
  requested : addr ≠ 0 → data = addr
  free : ∀ x, data ≤ x → x < data + count * pageSize → ¬ before x
  taken : ∀ x, after x ↔ before x ∨ data ≤ x ∧ x < data + count * pageSize

structure PageSource where
  State : Type
  fresh : State
  /-- The pages' address, or `none` when the call does not come back with one. -/
  allocatePages : State → ℕ → ℕ → Option (State × ℕ)
  Sound : State → Prop
  Taken : State → ℕ → Prop
  sound_fresh : Sound fresh
  fresh_free : ∀ x, ¬ Taken fresh x
  grants : ∀ {s s' count addr data}, Sound s → count < 2 ^ 52 → addr < 2 ^ 64 →
    allocatePages s count addr = some (s', data) →
    Sound s' ∧ Grant (Taken s) (Taken s') count addr data

namespace PageSource

section Manager

variable {F U : Type} (TF : Ops F (List ℕ)) (TU : Ops U ℕ)

/-- `PageManager::AllocatePages` of an address space without standby objects; the number is
of the page objects that the kernel's heap still has room for. A null pointer of the virtual
page manager makes the call take its own lock again in `ExpandVRegionToRight`, so it does
not come back from there. -/
def managerAllocate (s : VirtualPageManager F U × ℕ) (count addr : ℕ) :
    Option ((VirtualPageManager F U × ℕ) × ℕ) := do
  let r ←
    (if addr = 0 then s.1.allocatePages TF TU count
    else if count ≠ 1 ∧ s.1.region.isInside addr (u64 (count * pageSize)) = false then none
    else s.1.allocatePagesAt TF TU addr count)
  let virtAddr ← r.2
  if s.2 = 0 then none else some ((r.1, s.2 - 1), virtAddr)

def userRegion : VirtualRegion := VirtualRegion.ofBounds 0x1000 userEnd

def freshManager (objects : ℕ) : VirtualPageManager F U × ℕ :=
  (initVPageMgr TF TU userRegion, objects)

theorem freshManager_fst (objects : ℕ) :
    (freshManager TF TU objects).1 = initVPageMgr TF TU userRegion := by
  rw [freshManager]

variable {TF TU} {IF : F → Prop} {IU : U → Prop}
  {s : VirtualPageManager F U × ℕ} {s' : VirtualPageManager F U} {count addr data : ℕ}

structure ManagerSound (TF : Ops F (List ℕ)) (TU : Ops U ℕ) (IF : F → Prop) (IU : U → Prop)
    (s : VirtualPageManager F U) : Prop where
  run : RunInvariant TF TU IF IU s
  region : s.region = userRegion

def usedAt (TU : Ops U ℕ) (s : VirtualPageManager F U) (x : ℕ) : Prop :=
  Covered pageSize (usedBlocks TU s.reservedANDUsedPages) x

theorem managerAllocate_some {t} (h : managerAllocate TF TU s count addr = some (t, data)) :
    (addr = 0 ∧ s.1.allocatePages TF TU count = some (t.1, some data)) ∨
      (addr ≠ 0 ∧ s.1.allocatePagesAt TF TU addr count = some (t.1, some data)) := by
  unfold managerAllocate at h
  obtain ⟨r, hr, h⟩ := Option.bind_eq_some_iff.mp h
  obtain ⟨virtAddr, hv, h⟩ := Option.bind_eq_some_iff.mp h
  split at h
  · cases h
  obtain ⟨rfl, rfl⟩ := Prod.mk.inj (Option.some.inj h)
  have hpair : r = (r.1, some virtAddr) := by rw [← hv]
  by_cases h0 : addr = 0
  · rw [if_pos h0, hpair] at hr
    exact .inl ⟨h0, hr⟩
  rw [if_neg h0] at hr
  split at hr
  · cases hr
  · rw [hpair] at hr
    exact .inr ⟨h0, hr⟩

theorem userRegion_pagesEnd : pagesEnd userRegion = userEnd := by decide +kernel

theorem Takes.grant {s} (hs : ManagerSound TF TU IF IU s) (ht : Takes TF TU s s' data count)
    (haddr : addr ≠ 0 → data = addr) :
    Grant (usedAt TU s) (usedAt TU s') count addr data := by
  obtain ⟨T, href, hb, -⟩ := ht.free
  have hpool := href.pool (by decide) hs.run.blocks.pool
  obtain ⟨hlow, hhigh⟩ := hpool.partition.inside _ (.inl hb)
  have haligned := hpool.partition.aligned _ (.inl hb)
  rw [hs.region] at hlow hhigh haligned
  rw [userRegion_pagesEnd] at hhigh
  have hdvd : pageSize ∣ data := (Nat.dvd_sub_iff_left hlow (by decide +kernel)).mp haligned
  refine ⟨hpool.partition.pos _ (.inl hb), hdvd, hlow, hhigh, haddr, ?_, ?_⟩
  · rintro x hx hlt ⟨c, hc, hcx⟩
    have hne : (data, count) ≠ c := fun he => hpool.disjoint _ hb (he ▸ hc)
    exact not_covers_of_apart (hpool.partition.apart _ (.inl hb) _ (.inr hc) hne) ⟨hx, hlt⟩ hcx
  · intro x
    unfold usedAt
    rw [ht.used]
    constructor
    · rintro ⟨c, hc, hcx⟩
      rcases Set.mem_insert_iff.mp hc with rfl | hc
      · exact .inr hcx
      · exact .inl ⟨c, hc, hcx⟩
    · rintro (⟨c, hc, hcx⟩ | hx)
      · exact ⟨c, Set.mem_insert_of_mem _ hc, hcx⟩
      · exact ⟨_, Set.mem_insert _ _, hx⟩

variable (hTF : Ideal TF IF) (hTU : Ideal TU IU)

include hTF hTU

theorem freshManager_sound (objects : ℕ) :
    ManagerSound TF TU IF IU (freshManager TF TU objects).1 := by
  have hs : userRegion.Straight := by unfold VirtualRegion.Straight; decide +kernel
  have hreach : Reachable TF TU (initVPageMgr TF TU userRegion) := by
    apply Reachable.init userRegion hs
    · decide +kernel
    · decide +kernel
    · decide +kernel
  rw [freshManager_fst]
  exact ⟨reachable_invariant hTF hTU hreach,
    (initVPageMgr_invariant hTF.lawful hTU.lawful hs).2.2.2⟩

theorem freshManager_unused (objects x : ℕ) : ¬ usedAt TU (freshManager TF TU objects).1 x := by
  have hs : userRegion.Straight := by unfold VirtualRegion.Straight; decide +kernel
  rintro ⟨b, hb, -⟩
  rw [freshManager_fst, (initVPageMgr_invariant hTF.lawful hTU.lawful hs).2.2.1] at hb
  have hnone : TU.find TU.empty b.1 = none := hTU.lawful.find_empty b.1
  exact absurd (hnone.symm.trans hb) (by simp)

theorem managerAllocate_grants {t} (hs : ManagerSound TF TU IF IU s.1) (hc : count < 2 ^ 52)
    (ha : addr < 2 ^ 64) (h : managerAllocate TF TU s count addr = some (t, data)) :
    ManagerSound TF TU IF IU t.1 ∧ Grant (usedAt TU s.1) (usedAt TU t.1) count addr data := by
  have sound : ∀ {mem}, Takes TF TU s.1 t.1 mem count → IF t.1.freePagesSizeTree →
      IU t.1.reservedANDUsedPages → ManagerSound TF TU IF IU t.1 := fun ht hF hU =>
    ⟨⟨ht.invariant hs.run.blocks, hF, hU, ht.region ▸ hs.run.pages, ht.region ▸ hs.run.nonnull⟩,
      ht.region.trans hs.region⟩
  rcases managerAllocate_some h with ⟨h0, h⟩ | ⟨h0, h⟩
  · obtain ⟨t', r, ht', hF, hU⟩ := allocatePages_returns hTF hTU hs.run count
    cases ht'.symm.trans h
    rcases allocatePages_spec hTF.lawful hTU.lawful h hs.run.freeIntact hs.run.usedIntact hF
      hs.run.blocks with ⟨hr, -⟩ | ⟨mem, hr, ht⟩
    · cases hr
    · cases hr
      exact ⟨sound ht hF hU, Takes.grant hs ht fun hne => absurd h0 hne⟩
  · obtain ⟨t', r, ht', hF, hU⟩ := allocatePagesAt_returns hTF hTU hs.run ha count
    cases ht'.symm.trans h
    rcases allocatePagesAt_spec hTF.lawful hTU.lawful hc h hs.run.freeIntact hs.run.usedIntact hF
      hs.run.blocks with ⟨hr, -⟩ | ⟨hr, ht⟩
    · cases hr
    · cases hr
      exact ⟨sound ht hF hU, Takes.grant hs ht fun _ => rfl⟩

end Manager

/-- The page manager of a new process, over ideal trees. -/
def manager {F U : Type} {TF : Ops F (List ℕ)} {TU : Ops U ℕ} {IF : F → Prop} {IU : U → Prop}
    (hTF : Ideal TF IF) (hTU : Ideal TU IU) (objects : ℕ) : PageSource where
  State := VirtualPageManager F U × ℕ
  fresh := freshManager TF TU objects
  allocatePages := managerAllocate TF TU
  Sound s := ManagerSound TF TU IF IU s.1
  Taken s := usedAt TU s.1
  sound_fresh := freshManager_sound hTF hTU objects
  fresh_free := freshManager_unused hTF hTU objects
  grants := managerAllocate_grants hTF hTU

end PageSource
