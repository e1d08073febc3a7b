import Mathlib.Data.List.Pairwise
import FrostyOS.PageMapping
import FrostyOS.VirtualPageManager

/-! # Page objects of a page manager

The object list, the virtual page manager and the page tables of one address space. -/

open MachineWord OrderedMap PageTables

/-- A run of pages; its end is an address or the top of memory. -/
structure PageObject where
  virtualAddress : ℕ
  pageCount : ℕ
  perms : PagePermissions
  pos : 0 < pageCount
  count_lt : pageCount < 2 ^ 52
  fits : virtualAddress + pageCount * pageSize ≤ 2 ^ 64
  deriving DecidableEq

namespace PageObject

def length (o : PageObject) : ℕ := u64 (o.pageCount * pageSize)

def stop (o : PageObject) : ℕ := u64 (o.virtualAddress + o.length)

def setPerms (o : PageObject) (perms : PagePermissions) : PageObject := { o with perms }

def isWritable (o : PageObject) : Bool := o.perms = .write || o.perms = .readWrite

/-- The test by which an address is looked up; it lets the address behind the last byte
pass. -/
def isAt (o : PageObject) (addr : ℕ) : Bool := decide (o.virtualAddress ≤ addr ∧ addr ≤ o.stop)

def Contains (o : PageObject) (b : ℕ) : Prop :=
  o.virtualAddress ≤ b ∧ b < o.virtualAddress + o.length

def Disjoint (o o' : PageObject) : Prop := ∀ b, o.Contains b → ¬ o'.Contains b

theorem length_eq (o : PageObject) : o.length = o.pageCount * pageSize := by
  apply u64_of_lt
  have := o.count_lt
  unfold pageSize
  omega

theorem length_pos (o : PageObject) : 0 < o.length := by
  rw [length_eq]
  exact Nat.mul_pos o.pos (by decide)

theorem contains_start (o : PageObject) : o.Contains o.virtualAddress :=
  ⟨le_rfl, Nat.lt_add_of_pos_right o.length_pos⟩

theorem isAt_iff {o : PageObject} {addr : ℕ} : o.isAt addr ↔
    o.virtualAddress ≤ addr ∧ addr ≤ o.virtualAddress + o.length ∧
      o.virtualAddress + o.length < 2 ^ 64 := by
  have hfits := o.fits
  have hcount := o.count_lt
  have hlen := o.length_eq
  unfold pageSize at hfits hlen
  simp only [isAt, decide_eq_true_eq]
  simp only [stop, u64]
  omega

theorem eq_of_contains {objects : List PageObject} (hd : objects.Pairwise Disjoint) {o o'}
    (ho : o ∈ objects) (ho' : o' ∈ objects) {b : ℕ} (h : o.Contains b) (h' : o'.Contains b) :
    o = o' := by
  by_contra hne
  have hsymm : Std.Symm Disjoint := ⟨fun o o' h b hb hb' => h b hb' hb⟩
  exact hd.forall ho ho' hne b h h'

end PageObject

structure PageManager (F U A : Type) where
  objects : List PageObject
  region : VirtualRegion
  vpm : VirtualPageManager F U
  tables : Machine A
  root : ℕ
  mode : Bool

namespace PageManager

section Lookup

/-- `PageManager::isWritable` on an object list. -/
def isWritable (objects : List PageObject) (addr size : ℕ) : Bool :=
  match objects.find? (·.isAt addr) with
  | none => false
  | some o =>
    if o.isWritable = false then false
    else if o.length < size then isWritable objects (u64 (addr + o.length)) (size - o.length)
    else true
termination_by size
decreasing_by
  have := o.length_pos
  omega

def getPermissions (objects : List PageObject) (addr : ℕ) : PagePermissions :=
  match objects.find? (·.isAt addr) with
  | none => .read
  | some o => o.perms

def isValidAllocation (objects : List PageObject) (addr size : ℕ) : Bool :=
  objects.any fun o => o.virtualAddress ≤ addr && size = o.length

end Lookup

variable {F U A : Type} (L : Layout) (S : FrameSource A) (TF : Ops F (List ℕ)) (TU : Ops U ℕ)
  (pm : PageManager F U A)

def releasePage (tables : Machine A) (root addr : ℕ) : Machine A :=
  let frame := getPhysaddr L tables.memory root addr
  unmapPageNoflush L S root addr { tables with ppfa := S.freePage tables.ppfa frame }

def freePage (addr : ℕ) : PageManager F U A :=
  match pm.objects.find? fun o => o.virtualAddress = addr && o.pageCount = 1 with
  | none => pm
  | some o =>
    { pm with
      objects := pm.objects.erase o
      vpm := pm.vpm.unallocatePages TF TU addr 1
      tables := releasePage L S pm.tables pm.root addr }

def freePages (addr : ℕ) : PageManager F U A :=
  match pm.objects.find? fun o => o.virtualAddress = addr && 1 < o.pageCount with
  | none => pm
  | some o =>
    { pm with
      objects := pm.objects.erase o
      vpm := pm.vpm.unallocatePages TF TU addr o.pageCount
      tables := (List.range o.pageCount).foldl
        (fun tables i => releasePage L S tables pm.root (u64 (addr + i * 0x1000))) pm.tables }

def remap (addr : ℕ) (perms : PagePermissions) : PageManager F U A :=
  match pm.objects.find? fun o => o.virtualAddress = addr with
  | none => pm
  | some o =>
    { pm with
      objects := pm.objects.replace o (o.setPerms perms)
      tables := (List.range o.pageCount).foldl
        (fun tables i => remapPageNoflush L pm.root (u64 (addr + i * 0x1000))
          (decodePageFlags pm.mode perms) tables) pm.tables }

end PageManager
