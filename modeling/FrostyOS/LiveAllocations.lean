import FrostyOS.AVLTree
import FrostyOS.PagePartition

/-! # Live allocations of the virtual page manager over its own tree

The allocations that callers hold are ghost state. `Sound` says when a step meets neither
slip of `deleteNode`. -/
namespace LiveAllocations

open MachineWord OrderedMap BlockPool VirtualPageManager AVLTree Option

abbrev sizeOps : Ops (AVL (List ℕ)) (List ℕ) := avlOps (List ℕ)

abbrev addressOps : Ops (AVL ℕ) ℕ := avlOps ℕ

abbrev Manager := VirtualPageManager (AVL (List ℕ)) (AVL ℕ)

structure State where
  vpm : Manager
  live : List (ℕ × ℕ)

inductive Op where
  | allocatePages (count : ℕ)
  | allocatePagesAt (addr count : ℕ)
  | unallocatePages (addr count : ℕ)
  deriving DecidableEq, Repr

def received (live : List (ℕ × ℕ)) (count : ℕ) (r : Option ℕ) : List (ℕ × ℕ) :=
  match r with
  | some mem => (mem, count) :: live
  | none => live

def perform (s : State) : Op → Option State
  | .allocatePages count =>
    (s.vpm.allocatePages sizeOps addressOps count).map fun e =>
      ⟨e.1, received s.live count e.2⟩
  | .allocatePagesAt addr count =>
    (s.vpm.allocatePagesAt sizeOps addressOps addr count).map fun e =>
      ⟨e.1, received s.live count e.2⟩
  | .unallocatePages addr count =>
    some ⟨s.vpm.unallocatePages sizeOps addressOps addr count, s.live.filter (· ≠ (addr, count))⟩

/-- Every deletion so far, on either tree, met neither slip. -/
def TreesClean (vpm : Manager) : Prop :=
  vpm.freePagesSizeTree.clean = true ∧ vpm.reservedANDUsedPages.clean = true

/-- The range of a call survives 64-bit lengths and clipping: no length is cut off, and a
clipped range does not name someone else's allocation. -/
def RangeSound (s : State) : Op → Prop
  | .allocatePages _ => True
  | .allocatePagesAt _ count => count < 2 ^ 52
  | .unallocatePages addr count =>
    match s.vpm.region.ensureIsInside addr (u64 (count * pageSize)) with
    | none => True
    | some (a, length) =>
      (a, length / pageSize) = (addr, count) ∨ (a, length / pageSize) ∉ s.live

def Sound (s : State) (op : Op) (t : State) : Prop := RangeSound s op ∧ TreesClean t.vpm

theorem rangeSound_unallocatePages (s : State) (addr count : ℕ) :
    RangeSound s (.unallocatePages addr count) ↔
      ∀ r ∈ s.vpm.region.ensureIsInside addr (u64 (count * pageSize)),
        (r.1, r.2 / pageSize) = (addr, count) ∨ ∀ x ∈ s.live, ¬ x = (r.1, r.2 / pageSize) := by
  simp only [List.forall_mem_ne']
  rw [RangeSound]
  cases s.vpm.region.ensureIsInside _ _ with
  | none => exact ⟨fun _ r hr => absurd hr (not_mem_none r), fun _ => trivial⟩
  | some r => exact ⟨fun h r' hr' => mem_some.mp hr' ▸ h, fun h => h r rfl⟩

instance (s : State) : (op : Op) → Decidable (RangeSound s op)
  | .allocatePages _ => inferInstanceAs (Decidable True)
  | .allocatePagesAt _ count => inferInstanceAs (Decidable (count < 2 ^ 52))
  | .unallocatePages addr count => decidable_of_iff' _ (rangeSound_unallocatePages s addr count)

instance (vpm : Manager) : Decidable (TreesClean vpm) := inferInstanceAs (Decidable (_ ∧ _))

instance (s : State) (op : Op) (t : State) : Decidable (Sound s op t) :=
  inferInstanceAs (Decidable (_ ∧ _))

def initial (region : VirtualRegion) : State := ⟨initVPageMgr sizeOps addressOps region, []⟩

/-- Runs from `InitVPageMgr(region)` whose steps satisfy `C`. -/
inductive Run (C : State → Op → State → Prop) (region : VirtualRegion) : State → Prop where
  | init : Run C region (initial region)
  | step {s t : State} {op : Op} (hr : Run C region s) (hs : perform s op = some t)
      (hc : C s op t) : Run C region t

structure Recorded (s : State) : Prop where
  blocks : Invariant sizeOps addressOps s.vpm
  clean : TreesClean s.vpm
  live : ∀ a n, (a, n) ∈ s.live ↔ (a, n) ∈ usedBlocks addressOps s.vpm.reservedANDUsedPages

variable {s t : State} {region : VirtualRegion}

section

variable (hR : Recorded s)

include hR

theorem received_recorded {vpm} {mem count : ℕ} (ht : Takes sizeOps addressOps s.vpm vpm mem count)
    (hclean : TreesClean vpm) :
    Recorded ⟨vpm, received s.live count (some mem)⟩ := by
  refine ⟨ht.invariant hR.blocks, hclean, fun a n => ?_⟩
  simp only [received, List.mem_cons, hR.live, ht.used, Set.mem_insert_iff]

theorem keeps_recorded {vpm} (hk : Keeps sizeOps s.vpm vpm) (hclean : TreesClean vpm) :
    Recorded ⟨vpm, s.live⟩ := by
  refine ⟨hk.invariant hR.blocks, hclean, fun a n => ?_⟩
  simp only [hk.used, hR.live]

theorem live_range {a n : ℕ} (hlive : (a, n) ∈ s.live) :
    s.vpm.region.ensureIsInside a (u64 (n * pageSize)) = some (a, n * pageSize) := by
  obtain ⟨_, _, hword, hin⟩ := block_inside hR.blocks (.inr ((hR.live a n).mp hlive))
  simp only at hword hin
  rw [hword]
  exact VirtualRegion.ensureIsInside_of_isInside hin

theorem live_releases {a n : ℕ} (hlive : (a, n) ∈ s.live)
    (hclean : TreesClean (s.vpm.unallocatePages sizeOps addressOps a n)) :
    Releases sizeOps addressOps s.vpm (s.vpm.unallocatePages sizeOps addressOps a n) a n := by
  have hdiv : n * pageSize / pageSize = n := Nat.mul_div_cancel n (by decide)
  have hused : (a, n * pageSize / pageSize) ∈
      usedBlocks addressOps s.vpm.reservedANDUsedPages := by
    rw [hdiv]
    exact (hR.live a n).mp hlive
  have hr := unlockPages_releases (avlOps_lawful (List ℕ)) (avlOps_lawful ℕ)
    (live_range hR hlive) hused hclean.1 hclean.2 hR.blocks
  rwa [hdiv] at hr

theorem unallocatePages_recorded {addr count : ℕ}
    (hrange : RangeSound s (.unallocatePages addr count))
    (hclean : TreesClean (s.vpm.unallocatePages sizeOps addressOps addr count)) :
    Recorded ⟨s.vpm.unallocatePages sizeOps addressOps addr count,
      s.live.filter (· ≠ (addr, count))⟩ := by
  by_cases hlive : (addr, count) ∈ s.live
  · have hr := live_releases hR hlive hclean
    refine ⟨hr.invariant hR.blocks, hclean, fun b m => ?_⟩
    simp only [hr.used, List.mem_filter, hR.live, Set.mem_sdiff, Set.mem_singleton_iff,
      decide_eq_true_eq, ne_eq]
  -- the call names no live allocation, and by `RangeSound` neither does its clipped range
  rw [List.filter_eq_self.mpr fun b hb => by grind]
  rcases unlockPages_spec (avlOps_lawful (List ℕ)) (avlOps_lawful ℕ) hclean.1 hclean.2
    hR.blocks with hsame | ⟨a, length, hclip, hr⟩
  · have hsame : s.vpm.unallocatePages sizeOps addressOps addr count = s.vpm := hsame
    rw [hsame]
    exact hR
  have hmem := (hR.live _ _).mpr hr.live
  simp only [RangeSound, hclip] at hrange
  rcases hrange with heq | hnot
  · exact absurd (heq ▸ hmem) hlive
  · exact absurd hmem hnot

theorem step_preserves_recorded {op} (hs : perform s op = some t) (hc : Sound s op t) :
    Recorded t := by
  obtain ⟨hrange, hclean⟩ := hc
  have LF := avlOps_lawful (List ℕ)
  have LU := avlOps_lawful ℕ
  cases op with
  | allocatePages count =>
    obtain ⟨⟨vpm, r⟩, h, rfl⟩ := map_eq_some_iff.mp hs
    rcases allocatePages_spec LF LU h hR.clean.1 hR.clean.2 hclean.1 hR.blocks with
      ⟨rfl, rfl⟩ | ⟨mem, rfl, ht⟩
    · exact hR
    · exact received_recorded hR ht hclean
  | allocatePagesAt addr count =>
    obtain ⟨⟨vpm, r⟩, h, rfl⟩ := map_eq_some_iff.mp hs
    rcases allocatePagesAt_spec LF LU hrange h hR.clean.1 hR.clean.2 hclean.1 hR.blocks with
      ⟨rfl, hk⟩ | ⟨rfl, ht⟩
    · exact keeps_recorded hR hk hclean
    · exact received_recorded hR ht hclean
  | unallocatePages addr count =>
    cases hs
    exact unallocatePages_recorded hR hrange hclean

end

theorem run_recorded (hregion : region.Straight) (hrun : Run Sound region s) : Recorded s := by
  induction hrun with
  | init =>
    have LF := avlOps_lawful (List ℕ)
    have LU := avlOps_lawful ℕ
    obtain ⟨hI, hclean, hempty, -⟩ := initVPageMgr_invariant LF LU hregion
    refine ⟨hI, ⟨hclean, ?_⟩, fun a n => ?_⟩
    · simp only [initial, hempty]
      exact LU.empty_intact
    · simp [initial, hempty, usedBlocks, LU.find_empty]
  | step _ hs hc ih => exact step_preserves_recorded ih hs hc

section Runs

variable {C : State → Op → State → Prop} [∀ s op t, Decidable (C s op t)]

/-- Performs an operation if it satisfies `C`. -/
def performIf (C : State → Op → State → Prop) [∀ s op t, Decidable (C s op t)] (s : State)
    (op : Op) : Option State := (perform s op).filter fun t => C s op t

theorem run_foldlM {ops : List Op} (hr : Run C region s)
    (h : ops.foldlM (performIf C) s = some t) : Run C region t := by
  induction ops generalizing s with
  | nil => exact some.inj h ▸ hr
  | cons op ops ih =>
    rw [List.foldlM_cons] at h
    obtain ⟨u, hu, hrest⟩ := bind_eq_some_iff.mp h
    obtain ⟨hp, hc⟩ := filter_eq_some_iff.mp hu
    exact ih (hr.step hp (of_decide_eq_true hc)) hrest

end Runs

def sample : VirtualRegion := .ofSize 0x1000 0x10000

theorem sample_straight : sample.Straight := show 0x1000 + 0x10000 < 2 ^ 64 by decide

end LiveAllocations
