import Mathlib.Data.List.Nodup
import FrostyOS.Errno
import FrostyOS.Process

/-! # Unmapping and protecting memory by system call

`sys_munmap` and `sys_mprotect` want some object at or below the address with the length;
freeing and remapping want one at the address itself. -/

open Errno MachineWord OrderedMap PageTables RadixTable

namespace PageManager

variable {F U A : Type} {L : Layout} {S : FrameSource A} {TF : Ops F (List ℕ)} {TU : Ops U ℕ}
  {pm : PageManager F U A} {m : Machine A} {root addr : ℕ} {o : PageObject}

def Unmapped (L : Layout) (root : ℕ) (m : Machine A) (v : ℕ) : Prop :=
  leaves final (m.view L root) (tablePath v) (ptIndex v) = none

theorem releasePage_spec (hsep : m.Separate L root) (a : ℕ) :
    (releasePage L S m root a).Separate L root ∧ Unmapped L root (releasePage L S m root a) a ∧
      ∀ v, Unmapped L root m v → Unmapped L root (releasePage L S m root a) v := by
  set m₀ : Machine A := { m with ppfa := S.freePage m.ppfa (getPhysaddr L m.memory root a) }
  have hsep₀ : m₀.Separate L root := hsep
  have hleaves := unmapPageNoflush_leaves (S := S) (v := a) hsep₀
  refine ⟨unmapPageNoflush_separate hsep₀, (hleaves _ _).trans (if_pos ⟨rfl, rfl⟩), ?_⟩
  intro v hv
  refine (hleaves _ _).trans ?_
  split
  · rfl
  · exact hv

theorem releasePages_spec (hsep : m.Separate L root) (pages : List ℕ) :
    (∀ a ∈ pages, Unmapped L root (pages.foldl (releasePage L S · root ·) m) a) ∧
      ∀ v, Unmapped L root m v → Unmapped L root (pages.foldl (releasePage L S · root ·) m) v := by
  induction pages generalizing m with
  | nil => exact ⟨fun a ha => absurd ha List.not_mem_nil, fun _ hv => hv⟩
  | cons a pages ih =>
    obtain ⟨hsep', hgone, hkeep⟩ := releasePage_spec (S := S) hsep a
    obtain ⟨hrest, hkeep'⟩ := ih hsep'
    refine ⟨fun b hb => ?_, fun v hv => hkeep' v (hkeep v hv)⟩
    rcases List.mem_cons.mp hb with rfl | hb
    · exact hkeep' b hgone
    · exact hrest b hb

variable {objects : List PageObject}

theorem objects_nodup (hd : objects.Pairwise PageObject.Disjoint) : objects.Nodup := by
  refine hd.imp fun {o o'} hdisjoint heq => ?_
  exact hdisjoint _ o.contains_start (heq ▸ o.contains_start)

theorem find_at (hd : objects.Pairwise PageObject.Disjoint) (ho : o ∈ objects) {test}
    (htest : test o) (haddr : ∀ o', test o' → o'.virtualAddress = o.virtualAddress) :
    objects.find? test = some o := by
  obtain ⟨o', ho'⟩ := Option.isSome_iff_exists.mp (List.find?_isSome.mpr ⟨o, ho, htest⟩)
  have hsame : o' = o := PageObject.eq_of_contains hd (List.mem_of_find?_eq_some ho') ho
    o'.contains_start (haddr o' (List.find?_some ho') ▸ o.contains_start)
  rw [ho', hsame]

/-- The object is gone, and no page of it is mapped. -/
structure Freed (L : Layout) (pm pm' : PageManager F U A) (o : PageObject) : Prop where
  objects : pm'.objects = pm.objects.erase o
  gone : o ∉ pm'.objects
  unmapped : ∀ i < o.pageCount, Unmapped L pm'.root pm'.tables (o.virtualAddress + i * 0x1000)

theorem freePage_spec (hd : pm.objects.Pairwise PageObject.Disjoint)
    (hsep : pm.tables.Separate L pm.root) (ho : o ∈ pm.objects) (hcount : o.pageCount = 1) :
    Freed L pm (pm.freePage L S TF TU o.virtualAddress) o := by
  have hfind : pm.objects.find? (fun o' => o'.virtualAddress = o.virtualAddress &&
      o'.pageCount = 1) = some o := find_at hd ho (by simp [hcount]) fun o' h => by simp_all
  simp only [freePage, hfind]
  refine ⟨rfl, (objects_nodup hd).not_mem_erase, fun i hi => ?_⟩
  obtain rfl : i = 0 := by omega
  simp only [zero_mul, add_zero]
  exact (releasePage_spec hsep o.virtualAddress).2.1

theorem freePages_spec (hd : pm.objects.Pairwise PageObject.Disjoint)
    (hsep : pm.tables.Separate L pm.root) (ho : o ∈ pm.objects) (hcount : 1 < o.pageCount) :
    Freed L pm (pm.freePages L S TF TU o.virtualAddress) o := by
  have hfind : pm.objects.find? (fun o' => o'.virtualAddress = o.virtualAddress &&
      1 < o'.pageCount) = some o := find_at hd ho (by simp [hcount]) fun o' h => by simp_all
  simp only [freePages, hfind]
  refine ⟨rfl, (objects_nodup hd).not_mem_erase, fun i hi => ?_⟩
  have hpages := (releasePages_spec (S := S) hsep
    ((List.range o.pageCount).map fun i => u64 (o.virtualAddress + i * 0x1000))).1
  rw [List.foldl_map] at hpages
  have hfits := o.fits
  have hword : u64 (o.virtualAddress + i * 0x1000) = o.virtualAddress + i * 0x1000 := by
    apply u64_of_lt
    unfold pageSize at hfits
    omega
  rw [← hword]
  exact hpages _ (List.mem_map_of_mem (List.mem_range.mpr hi))

theorem mem_replace_self {o'} (ho : o ∈ objects) : o' ∈ objects.replace o o' := by
  induction objects with
  | nil => cases ho
  | cons x objects ih =>
    by_cases hx : o = x
    · simp [hx]
    · have hrest := ih ((List.mem_cons.mp ho).resolve_left hx)
      simp [List.replace_cons, beq_false_of_ne hx, hrest]

theorem remap_objects (hd : pm.objects.Pairwise PageObject.Disjoint) (ho : o ∈ pm.objects)
    (perms : PagePermissions) :
    (pm.remap L o.virtualAddress perms).objects = pm.objects.replace o (o.setPerms perms) := by
  have hfind : pm.objects.find? (fun o' => o'.virtualAddress = o.virtualAddress) = some o :=
    find_at hd ho (by simp) fun o' h => by simpa using h
  simp only [remap, hfind]

end PageManager

namespace Process

variable {F U A : Type}

section Calls

variable (L : Layout) (S : FrameSource A) (TF : Ops F (List ℕ)) (TU : Ops U ℕ)
  (p : Process F U A)

def withManager (pm : PageManager F U A) : Process F U A := { p with pm := some pm }

def syncRegion (pm : PageManager F U A) : Process F U A := ⟨pm.region, some pm⟩

def decodeProt : ℕ → Option PagePermissions
  | 1 => some .read
  | 2 => some .write
  | 3 => some .readWrite
  | 4 => some .execute
  | 5 => some .readExecute
  | _ => none

def sysMunmap (addr size : ℕ) : Option (Process F U A × ℤ) :=
  let addr := alignDown addr pageSize
  let size := alignUp size pageSize
  if p.region.isInside addr size = false then some (p, -einval)
  else
    match p.pm with
    | none => none
    | some pm =>
      if PageManager.isValidAllocation pm.objects addr size = false then some (p, -einval)
      else if size >>> 12 = 1 then some (syncRegion (pm.freePage L S TF TU addr), 0)
      else some (syncRegion (pm.freePages L S TF TU addr), 0)

def sysMprotect (addr size perms : ℕ) : Option (Process F U A × ℤ) :=
  let addr := alignDown addr pageSize
  let size := alignUp size pageSize
  if p.region.isInside addr size = false then some (p, -einval)
  else
    match p.pm with
    | none => none
    | some pm =>
      if PageManager.isValidAllocation pm.objects addr size = false then some (p, -einval)
      else
        match decodeProt perms with
        | none => some (p, -einval)
        | some perms => some (p.withManager (pm.remap L addr perms), 0)

end Calls

section Truthful

variable {L : Layout} {S : FrameSource A} {TF : Ops F (List ℕ)} {TU : Ops U ℕ}
  {p : Process F U A} {pm : PageManager F U A} {addr size perms : ℕ}

def Names (o : PageObject) (addr size : ℕ) : Prop :=
  o.virtualAddress = alignDown addr pageSize ∧ o.length = alignUp size pageSize

def MunmapTruthful (L : Layout) (S : FrameSource A) (TF : Ops F (List ℕ)) (TU : Ops U ℕ)
    (p : Process F U A) (pm : PageManager F U A) (addr size : ℕ) : Prop :=
  ∃ p' r, p.sysMunmap L S TF TU addr size = some (p', r) ∧
    (r = 0 → ∃ o ∈ pm.objects, Names o addr size ∧
      ∃ pm', p'.pm = some pm' ∧ PageManager.Freed L pm pm' o) ∧ (r ≠ 0 → r < 0 ∧ p' = p)

def MprotectTruthful (L : Layout) (p : Process F U A) (pm : PageManager F U A)
    (addr size perms : ℕ) : Prop := ∃ p' r, p.sysMprotect L addr size perms = some (p', r) ∧
    (r = 0 → ∃ o ∈ pm.objects, Names o addr size ∧ ∃ prot pm', decodeProt perms = some prot ∧
      p'.pm = some pm' ∧ o.setPerms prot ∈ pm'.objects) ∧ (r ≠ 0 → r < 0 ∧ p' = p)

/-- The two tests that the calls share. -/
def PassesTests (p : Process F U A) (pm : PageManager F U A) (addr size : ℕ) : Prop :=
  p.region.isInside (alignDown addr pageSize) (alignUp size pageSize) = true ∧
  PageManager.isValidAllocation pm.objects (alignDown addr pageSize) (alignUp size pageSize) = true

theorem sysMunmap_cases (hpm : p.pm = some pm) (addr size : ℕ) :
    ¬ PassesTests p pm addr size ∧ p.sysMunmap L S TF TU addr size = some (p, -einval) ∨
    PassesTests p pm addr size ∧ p.sysMunmap L S TF TU addr size =
      some (syncRegion (if alignUp size pageSize >>> 12 = 1
        then pm.freePage L S TF TU (alignDown addr pageSize)
        else pm.freePages L S TF TU (alignDown addr pageSize)), 0) := by
  simp only [sysMunmap, PassesTests, hpm]
  cases p.region.isInside _ _ with
  | false => simp
  | true =>
    cases PageManager.isValidAllocation _ _ _ with
    | false => simp
    | true =>
      simp only [Bool.true_eq_false, if_false, and_self, not_true_eq_false, false_and, false_or,
        true_and]
      split <;> rfl

theorem sysMprotect_cases (hpm : p.pm = some pm) (addr size perms : ℕ) :
    (¬ PassesTests p pm addr size ∨ decodeProt perms = none) ∧
      p.sysMprotect L addr size perms = some (p, -einval) ∨
    ∃ prot, PassesTests p pm addr size ∧ decodeProt perms = some prot ∧
      p.sysMprotect L addr size perms =
        some (p.withManager (pm.remap L (alignDown addr pageSize) prot), 0) := by
  simp only [sysMprotect, PassesTests, hpm]
  cases p.region.isInside _ _ with
  | false => simp
  | true =>
    cases PageManager.isValidAllocation _ _ _ with
    | false => simp
    | true => cases decodeProt perms <;> simp

theorem munmap_named (hd : pm.objects.Pairwise PageObject.Disjoint)
    (hsep : pm.tables.Separate L pm.root) {o} (ho : o ∈ pm.objects) (hnames : Names o addr size) :
    PageManager.Freed L pm
      (if alignUp size pageSize >>> 12 = 1 then pm.freePage L S TF TU (alignDown addr pageSize)
        else pm.freePages L S TF TU (alignDown addr pageSize)) o := by
  obtain ⟨haddr, hlength⟩ := hnames
  have hcount : alignUp size pageSize >>> 12 = o.pageCount := by
    rw [← hlength, o.length_eq, Nat.shiftRight_eq_div_pow]
    exact Nat.mul_div_cancel _ (by decide)
  have hpos := o.pos
  rw [← haddr, hcount]
  split
  · exact PageManager.freePage_spec hd hsep ho ‹_›
  · exact PageManager.freePages_spec hd hsep ho (by omega)

/-- Both calls report truthfully exactly if the tests pass only for allocations that are
there. -/
theorem calls_truthful_iff (addr size perms : ℕ) (hpm : p.pm = some pm)
    (hd : pm.objects.Pairwise PageObject.Disjoint) (hsep : pm.tables.Separate L pm.root) :
    MunmapTruthful L S TF TU p pm addr size ∧ MprotectTruthful L p pm addr size perms ↔
      (PassesTests p pm addr size → ∃ o ∈ pm.objects, Names o addr size) := by
  constructor
  · rintro ⟨⟨p', r, hcall, hzero, -⟩, -⟩ htests
    rcases sysMunmap_cases (L := L) (S := S) hpm addr size with ⟨hfail, -⟩ | ⟨-, hok⟩
    · exact absurd htests hfail
    · cases hcall.symm.trans hok
      obtain ⟨o, ho, hnames, -⟩ := hzero rfl
      exact ⟨o, ho, hnames⟩
  · intro hexact
    have hnegative : -einval < 0 := by decide
    refine ⟨?_, ?_⟩
    · rcases sysMunmap_cases (L := L) (S := S) hpm addr size with ⟨-, hcall⟩ | ⟨htests, hcall⟩
      · exact ⟨p, _, hcall, fun h => absurd h hnegative.ne, fun _ => ⟨hnegative, rfl⟩⟩
      · obtain ⟨o, ho, hnames⟩ := hexact htests
        exact ⟨_, 0, hcall, fun _ => ⟨o, ho, hnames, _, rfl, munmap_named hd hsep ho hnames⟩,
          fun h => absurd rfl h⟩
    · rcases sysMprotect_cases (L := L) hpm addr size perms with
        ⟨-, hcall⟩ | ⟨prot, htests, hprot, hcall⟩
      · exact ⟨p, _, hcall, fun h => absurd h hnegative.ne, fun _ => ⟨hnegative, rfl⟩⟩
      · obtain ⟨o, ho, hnames⟩ := hexact htests
        refine ⟨_, 0, hcall, fun _ => ⟨o, ho, hnames, prot, _, hprot, rfl, ?_⟩,
          fun h => absurd rfl h⟩
        rw [← hnames.1, PageManager.remap_objects hd ho]
        exact PageManager.mem_replace_self ho

def onePageManager : PageManager (SortedMap (List ℕ)) (SortedMap ℕ) (List ℕ) where
  objects := [PageManager.samplePage]
  region := .ofBounds 0x1000 0x10000
  vpm := .initVPageMgr (sortedOps _) (sortedOps _) (.ofBounds 0x1000 0x10000)
  tables := sampleMachine
  root := sampleRoot
  mode := true

def onePageProcess : Process (SortedMap (List ℕ)) (SortedMap ℕ) (List ℕ) :=
  syncRegion onePageManager

theorem onePage_separate : onePageManager.tables.Separate sampleLayout onePageManager.root :=
  empty_separate fun _ => rfl

theorem calls_truthful_iff_onePage :
    PassesTests onePageProcess onePageManager 0x1000 0x1000 ∧
      MunmapTruthful sampleLayout listSource (sortedOps _) (sortedOps _) onePageProcess
        onePageManager 0x1000 0x1000 := by
  have hnames : PassesTests onePageProcess onePageManager 0x1000 0x1000 →
      ∃ o ∈ onePageManager.objects, Names o 0x1000 0x1000 :=
    fun _ => ⟨PageManager.samplePage, List.mem_singleton_self _, by decide, by decide⟩
  refine ⟨⟨by decide, by decide⟩, ((calls_truthful_iff 0x1000 0x1000 1 rfl
    (List.pairwise_singleton _ _) onePage_separate).mpr hnames).1⟩

/-- Any page-sized range above the page is reported as unmapped. -/
theorem munmap_reports_absent_allocation :
    (∃ p', onePageProcess.sysMunmap sampleLayout listSource (sortedOps _) (sortedOps _) 0x5000
      0x1000 = some (p', 0)) ∧ ¬ ∃ o ∈ onePageManager.objects, Names o 0x5000 0x1000 := by
  constructor
  · rcases sysMunmap_cases (L := sampleLayout) (S := listSource) (p := onePageProcess) rfl
      0x5000 0x1000 with ⟨hfail, -⟩ | ⟨-, hcall⟩
    · exact absurd ⟨by decide, by decide⟩ hfail
    · exact ⟨_, hcall⟩
  · rintro ⟨o, ho, hnames⟩
    obtain rfl := List.mem_singleton.mp ho
    exact absurd hnames.1 (by decide)

end Truthful

end Process
