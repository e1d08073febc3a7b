import FrostyOS.PageManager

/-! # The check of a buffer that a system call will write

`isWritable` goes on by whole object lengths from an address that may lie in the middle of
an object, and it takes the address behind an object for one of its own. -/
namespace PageManager

open MachineWord PageTables List

variable {objects l : List PageObject} {addr size c stop b : ℕ} {o : PageObject}

def met (objects : List PageObject) (addr size : ℕ) : Option (List PageObject) :=
  match objects.find? (·.isAt addr) with
  | none => none
  | some o =>
    if o.length < size then
      (met objects (u64 (addr + o.length)) (size - o.length)).map (o :: ·)
    else some [o]
termination_by size
decreasing_by
  have := o.length_pos
  omega

def Connected (c stop : ℕ) : List PageObject → Prop
  | [] => stop ≤ c
  | o :: l => o.virtualAddress ≤ c ∧ Connected (o.virtualAddress + o.length) stop l

instance decidableConnected (c stop : ℕ) : (l : List PageObject) → Decidable (Connected c stop l)
  | [] => inferInstanceAs (Decidable (_ ≤ _))
  | o :: l =>
    have := decidableConnected (o.virtualAddress + o.length) stop l
    inferInstanceAs (Decidable (_ ∧ _))

def WalkConnected (objects : List PageObject) (addr size : ℕ) : Prop :=
  ∀ l, met objects addr size = some l → Connected addr (addr + size) l

def WritableSound (objects : List PageObject) (addr size : ℕ) : Prop :=
  isWritable objects addr size = true → ∀ b, addr ≤ b → b < addr + size →
    ∃ o ∈ objects, o.Contains b ∧ o.isWritable = true

def withPerms (perms : ℕ → PagePermissions) (objects : List PageObject) : List PageObject :=
  objects.map fun o => o.setPerms (perms o.virtualAddress)

theorem isWritable_iff : isWritable objects addr size ↔
    ∃ l, met objects addr size = some l ∧ ∀ o ∈ l, o.isWritable := by
  fun_induction met objects addr size with
  | case1 addr size hfind =>
    rw [isWritable]
    simp [hfind]
  | case2 addr size o hfind hlt ih =>
    rw [isWritable]
    simp only [hfind, if_pos hlt, Option.map_eq_some_iff]
    cases hw : o.isWritable with
    | false => simp [hw]
    | true =>
      simp only [Bool.true_eq_false, if_false, ih]
      constructor
      · rintro ⟨l, hl, hall⟩
        exact ⟨o :: l, ⟨l, hl, rfl⟩, forall_mem_cons.mpr ⟨hw, hall⟩⟩
      · rintro ⟨_, ⟨l, hl, rfl⟩, hall⟩
        exact ⟨l, hl, (forall_mem_cons.mp hall).2⟩
  | case3 addr size o hfind hlt =>
    rw [isWritable]
    simp [hfind, hlt]

variable (perms : ℕ → PagePermissions)

theorem find_withPerms :
    (withPerms perms objects).find? (·.isAt addr) =
      (objects.find? (·.isAt addr)).map fun o => o.setPerms (perms o.virtualAddress) := by
  rw [withPerms, find?_map]
  rfl

theorem met_withPerms :
    met (withPerms perms objects) addr size =
      (met objects addr size).map (withPerms perms) := by
  have hlen : ∀ o : PageObject, (o.setPerms (perms o.virtualAddress)).length = o.length :=
    fun _ => rfl
  fun_induction met objects addr size with
  | case1 addr size hfind =>
    rw [met]
    simp [find_withPerms, hfind]
  | case2 addr size o hfind hlt ih =>
    rw [met]
    simp only [find_withPerms, hfind, Option.map_some, hlen, if_pos hlt, ih, Option.map_map]
    rfl
  | case3 addr size o hfind hlt =>
    rw [met]
    simp only [find_withPerms, hfind, Option.map_some, hlen, if_neg hlt]
    rfl

theorem find_isAt (h : objects.find? (·.isAt addr) = some o) :
    o ∈ objects ∧ o.virtualAddress ≤ addr ∧ addr ≤ o.virtualAddress + o.length := by
  have hat : o.isAt addr := by simpa only using find?_some h
  obtain ⟨hlow, hhigh, -⟩ := PageObject.isAt_iff.mp hat
  exact ⟨mem_of_find?_eq_some h, hlow, hhigh⟩

theorem met_mem (hword : addr + size < 2 ^ 64) (h : met objects addr size = some l) (ho : o ∈ l) :
    o ∈ objects ∧ addr ≤ o.virtualAddress + o.length := by
  fun_induction met objects addr size generalizing l with
  | case1 addr size hfind => cases h
  | case2 addr size o' hfind hlt ih =>
    obtain ⟨l', hl', rfl⟩ := Option.map_eq_some_iff.mp h
    rcases mem_cons.mp ho with rfl | ho
    · exact ⟨(find_isAt hfind).1, (find_isAt hfind).2.2⟩
    · rw [u64_of_lt (by omega)] at hl' ih
      obtain ⟨hmem, hend⟩ := ih (by omega) hl' ho
      exact ⟨hmem, by omega⟩
  | case3 addr size o' hfind hlt =>
    cases h
    obtain rfl := mem_singleton.mp ho
    exact ⟨(find_isAt hfind).1, (find_isAt hfind).2.2⟩

theorem Connected.covers (h : Connected c stop l) (hb : c ≤ b) (hlt : b < stop) :
    ∃ o ∈ l, o.Contains b := by
  induction l generalizing c with
  | nil =>
    simp only [Connected] at h
    omega
  | cons o l ih =>
    obtain ⟨hstart, hrest⟩ := h
    by_cases hend : b < o.virtualAddress + o.length
    · exact ⟨o, mem_cons_self, by omega, hend⟩
    · obtain ⟨o', ho', hcontains⟩ := ih hrest (by omega)
      exact ⟨o', mem_cons_of_mem o ho', hcontains⟩

/-- Objects met that cover the range join up: if one started behind the end of the one
before, the byte in between would lie in an object met later, which would then overlap. -/
theorem connected_of_covers (hd : objects.Pairwise PageObject.Disjoint)
    (hword : addr + size < 2 ^ 64) (h : met objects addr size = some l) (hc : c ≤ addr)
    (hcover : ∀ b, c ≤ b → b < addr + size → ∃ o ∈ l, o.Contains b) :
    Connected c (addr + size) l := by
  fun_induction met objects addr size generalizing l c with
  | case1 addr size hfind => cases h
  | case2 addr size o hfind hlt ih =>
    obtain ⟨l', hl', rfl⟩ := Option.map_eq_some_iff.mp h
    obtain ⟨hmem, hlow, hhigh⟩ := find_isAt hfind
    rw [u64_of_lt (by omega)] at hl' ih
    have hsum : addr + o.length + (size - o.length) = addr + size := by omega
    refine ⟨?_, ?_⟩
    · by_contra hgap
      obtain ⟨o', ho', hstart, -⟩ := hcover c le_rfl (by omega)
      rcases mem_cons.mp ho' with rfl | ho'
      · exact hgap hstart
      obtain ⟨hmem', hend⟩ := met_mem (by omega) hl' ho'
      have hpos := o.length_pos
      have hshare : o'.Contains o.virtualAddress := ⟨by omega, by omega⟩
      have heq := PageObject.eq_of_contains hd hmem hmem' o.contains_start hshare
      exact hgap (heq ▸ hstart)
    · rw [← hsum]
      refine ih (by omega) hl' (by omega) fun b hb hlt' => ?_
      obtain ⟨o', ho', hcontains⟩ := hcover b (by omega) (by omega)
      rcases mem_cons.mp ho' with rfl | ho'
      · exact absurd hcontains.2 (by omega)
      · exact ⟨o', ho', hcontains⟩
  | case3 addr size o hfind hlt =>
    cases h
    obtain ⟨hmem, hlow, hhigh⟩ := find_isAt hfind
    have hlast : ∀ b, c ≤ b → b < addr + size → o.Contains b := fun b hb hb' => by
      obtain ⟨o', ho', hcontains⟩ := hcover b hb hb'
      exact mem_singleton.mp ho' ▸ hcontains
    refine ⟨?_, ?_⟩
    · by_contra hgap
      exact hgap (hlast c le_rfl (by omega)).1
    · by_contra hshort
      simp only [Connected] at hshort
      exact absurd (hlast (o.virtualAddress + o.length) (by omega) (by omega)).2 (by omega)

theorem connected_withPerms : Connected c stop (withPerms perms l) ↔ Connected c stop l := by
  induction l generalizing c with
  | nil => exact Iff.rfl
  | cons o l ih => exact and_congr Iff.rfl ih

theorem WalkConnected.withPerms (h : WalkConnected objects addr size)
    (perms : ℕ → PagePermissions) : WalkConnected (withPerms perms objects) addr size := by
  intro l' hl'
  rw [met_withPerms] at hl'
  obtain ⟨l, hl, rfl⟩ := Option.map_eq_some_iff.mp hl'
  exact (connected_withPerms perms).mpr (h l hl)

theorem WalkConnected.sound (h : WalkConnected objects addr size) (hword : addr + size < 2 ^ 64) :
    WritableSound objects addr size := by
  intro hchecked b hb hlt
  obtain ⟨l, hmet, hall⟩ := isWritable_iff.mp hchecked
  obtain ⟨o, ho, hcontains⟩ := (h l hmet).covers hb hlt
  exact ⟨o, (met_mem hword hmet ho).1, hcontains, hall o ho⟩

def samplePage : PageObject where
  virtualAddress := 0x1000
  pageCount := 1
  perms := .readWrite
  pos := by decide
  count_lt := by decide
  fits := by decide

end PageManager
