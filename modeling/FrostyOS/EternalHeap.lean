import FrostyOS.MachineWord

/-! # The eternal heap

`kmalloc_eternal` and `kcalloc_eternal` cut blocks off the front of one area of 512 pages. -/
namespace EternalHeap

open MachineWord

structure State where
  initialised : Bool := false
  mem : ℕ := 0
  freeMem : ℕ := 0
  usedMem : ℕ := 0
  locked : Bool := false
  deriving DecidableEq

def areaSize : ℕ := 512 * pageSize

/-- `kmalloc_eternal_init`, with what `AllocatePages` returns. -/
def State.init (s : State) : Option ℕ → State
  | none => { s with initialised := false }
  | some pages => ⟨true, pages, areaSize, 0, false⟩

/-- Both functions once the size is aligned. `none` is a call that spins on the lock, which a
refused call returns without releasing. -/
def State.allocate (s : State) (size : ℕ) : Option (State × Option ℕ) :=
  if s.locked then none
  else if s.initialised = false ∨ s.freeMem < size then some ({ s with locked := true }, none)
  else some ({ s with
    usedMem := u64 (s.usedMem + size)
    freeMem := s.freeMem - size
    mem := u64 (s.mem + size) }, some s.mem)

inductive Call where
  | kmallocEternal (size : UInt64)
  | kcallocEternal (num size : UInt64)
  deriving DecidableEq

def State.call (s : State) : Call → Option (State × Option ℕ)
  | .kmallocEternal size => s.allocate (alignUp size.toNat 8)
  | .kcallocEternal num size => s.allocate (alignUp (u64 (size.toNat * num.toNat)) 8)

def Call.requested : Call → ℕ
  | .kmallocEternal size => size.toNat
  | .kcallocEternal num size => size.toNat * num.toNat

/-- The heap after calls that each asked for no more than was free, and the blocks, from their
first byte to the one behind their last. -/
inductive Run (base : ℕ) : State → List (ℕ × ℕ) → Prop where
  | init (s : State) (pages : Option ℕ) (h : ∀ p ∈ pages, p = base) : Run base (s.init pages) []
  | call {s s' : State} {blocks c p} (hr : Run base s blocks) (hi : s.initialised)
      (hle : c.requested ≤ s.freeMem) (h : s.call c = some (s', some p)) :
      Run base s' ((p, s'.mem) :: blocks)

/-- What a call is to do in a heap with these blocks. -/
def Right (base : ℕ) (s : State) (blocks : List (ℕ × ℕ)) (c : Call) : Prop :=
  ∃ s' r, s.call c = some (s', r) ∧ s'.locked = false ∧ (r = none → s' = s) ∧
    ∀ p, r = some p → base ≤ p ∧ p + c.requested ≤ s'.mem ∧ s'.mem ≤ base + areaSize ∧
      ∀ b ∈ blocks, b.2 ≤ p ∨ s'.mem ≤ b.1

variable {base : ℕ} {s : State} {blocks : List (ℕ × ℕ)} {c : Call}

theorem call_eq (s : State) (c : Call) : s.call c = s.allocate (alignUp (u64 c.requested) 8) := by
  cases c with
  | kmallocEternal size => rw [Call.requested, u64_of_lt size.toNat_lt]; rfl
  | kcallocEternal num size => rfl

structure Sound (base : ℕ) (s : State) (blocks : List (ℕ × ℕ)) : Prop where
  unlocked : s.locked = false
  cursor : s.mem + s.freeMem = base + areaSize
  least : base ≤ s.mem
  aligned : 8 ∣ s.freeMem
  below : ∀ b ∈ blocks, b.2 ≤ s.mem

variable (hbase : base + areaSize < 2 ^ 64)
include hbase

/-- A call that asks for no more than is free gets its block at the front of the free part. -/
theorem Sound.call (hs : Sound base s blocks) (hi : s.initialised) (hle : c.requested ≤ s.freeMem) :
    ∃ s', s.call c = some (s', some s.mem) ∧ s.mem + c.requested ≤ s'.mem ∧
      Sound base s' ((s.mem, s'.mem) :: blocks) := by
  have ⟨hlock, hcursor, hleast, haligned, hbelow⟩ := hs
  obtain ⟨hge, hlt, hdvd⟩ := alignUp_spec (v := c.requested) (a := 8) (by decide) (by omega)
  have hcall := call_eq s c
  rw [State.allocate, if_neg (by simp [hlock]), u64_of_lt (by omega), if_neg (by simp [hi]; omega),
    u64_of_lt (n := s.mem + _) (by omega)] at hcall
  refine ⟨_, hcall, by dsimp only; omega, hlock, by dsimp only; omega, by dsimp only; omega,
    Nat.dvd_sub haligned hdvd, ?_⟩
  simp only [List.mem_cons, forall_eq_or_imp]
  exact ⟨Nat.le_refl _, fun b hb => Nat.le_add_right_of_le (hbelow b hb)⟩

theorem Run.sound (hr : Run base s blocks) : s.initialised → Sound base s blocks := by
  induction hr with
  | init s pages h =>
    cases pages with
    | none => exact fun hi => nomatch hi
    | some p =>
      obtain rfl := h p rfl
      exact fun _ => ⟨rfl, rfl, Nat.le_refl _, ⟨262144, rfl⟩, fun _ hb => nomatch hb⟩
  | call hr hi hle h ih =>
    intro _
    obtain ⟨s', hcall, -, hs'⟩ := (ih hi).call hbase hi hle
    cases hcall.symm.trans h
    exact hs'

/-- After such calls the next one is right exactly when it is such a call too: otherwise it
is refused and keeps the lock, or its size wraps and its block is too short. -/
theorem call_right_iff (hr : Run base s blocks) (c : Call) :
    Right base s blocks c ↔ s.initialised ∧ c.requested ≤ s.freeMem := by
  constructor
  · rintro ⟨s', r, hcall, hlock, -, hblock⟩
    rw [call_eq, State.allocate] at hcall
    split_ifs at hcall with h₁ h₂
    · cases hcall
      cases hlock
    · cases hcall
      obtain ⟨hi, hle⟩ := not_or.mp h₂
      have hi := eq_true_of_ne_false hi
      have hcursor := (hr.sound hbase hi).cursor
      have hlong : s.mem + c.requested ≤ u64 (s.mem + alignUp (u64 c.requested) 8) :=
        (hblock _ rfl).2.1
      rw [u64_of_lt (by omega)] at hlong
      exact ⟨hi, by omega⟩
  · rintro ⟨hi, hle⟩
    have hs := hr.sound hbase hi
    obtain ⟨s', hcall, hlong, hs'⟩ := hs.call hbase hi hle
    refine ⟨s', _, hcall, hs'.unlocked, fun h => (nomatch h), ?_⟩
    rintro p ⟨rfl⟩
    refine ⟨hs.least, hlong, ?_, fun b hb => .inl (hs.below b hb)⟩
    have := hs'.cursor
    omega

omit hbase

theorem call_right_first : Right 0x1000 (State.init {} (some 0x1000)) [] (.kmallocEternal 5) :=
  (call_right_iff (by decide) (.init {} (some 0x1000) (by simp)) _).mpr (by decide)

/-- A refused call keeps the lock, and a size that wraps gets a block of no bytes. -/
theorem call_wrong :
    (State.init {} (some 0x1000)).call (.kmallocEternal 0x200001) =
      some ({ State.init {} (some 0x1000) with locked := true }, none) ∧
    (State.init {} (some 0x1000)).call (.kcallocEternal 0x100000000 0x100000000) =
      some (State.init {} (some 0x1000), some 0x1000) := by
  decide +kernel

end EternalHeap
