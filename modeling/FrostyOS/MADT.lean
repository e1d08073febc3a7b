import FrostyOS.ByteMemory

/-! # The walk over the MADT

Entries are named by their offsets in the table, and the way from one to the next is a byte
that the firmware wrote. -/
namespace MADT

/-- The entries that are kept in a list. -/
inductive Kind where
  | localAPIC | ioAPIC | interruptSourceOverride
  deriving DecidableEq, Repr

def Kind.size : Kind → ℕ
  | .localAPIC => 8
  | .ioAPIC => 12
  | .interruptSourceOverride => 10

def kindOf (type : UInt8) : Option Kind :=
  if type = 0 then some .localAPIC
  else if type = 1 then some .ioAPIC
  else if type = 2 then some .interruptSourceOverride
  else none

/-- The bytes from the start of the table on, those behind its end included. -/
abbrev Table := ℕ → UInt8

variable (t : Table)

def length : ℕ := ByteMemory.ofBytes ((List.range' 4 4).map t)

def entryLength (entry : ℕ) : ℕ := (t (entry + 1)).toNat

def insert (lists : Kind → List ℕ) (entry : ℕ) : Kind → List ℕ := fun kind =>
  if kindOf (t entry) = some kind then lists kind ++ [entry] else lists kind

/-- Nothing makes the loop end, so its turns are bounded. -/
def walk : ℕ → ℕ → (Kind → List ℕ) → Option (Kind → List ℕ)
  | 0, _, _ => none
  | turns + 1, entry, lists =>
    if entry < length t then walk turns (entry + entryLength t entry) (insert t lists entry)
    else some lists

def enumerateMADTEntries (turns : ℕ) : Option (Kind → List ℕ) := walk t turns 44 fun _ => []

/-- From the offset on there are entries up to the end of the table: each has a length, and
those that are kept end before the table does. -/
inductive Chain : ℕ → Prop where
  | done {o : ℕ} (h : length t ≤ o) : Chain o
  | entry {o : ℕ} (hpos : 0 < entryLength t o)
      (hsize : ∀ kind, kindOf (t o) = some kind → o + kind.size ≤ length t)
      (hrest : Chain (o + entryLength t o)) : Chain o

def Inside (lists : Kind → List ℕ) : Prop :=
  ∀ kind, ∀ o ∈ lists kind, o + kind.size ≤ length t

variable {t} {turns o : ℕ} {lists r : Kind → List ℕ}

theorem mem_insert {kind} {x : ℕ} : x ∈ insert t lists o kind ↔
    x ∈ lists kind ∨ x = o ∧ kindOf (t o) = some kind := by
  unfold insert
  split_ifs with hk <;> simp [hk]

theorem walk_stuck (hlt : o < length t) (hzero : entryLength t o = 0) (turns : ℕ)
    (lists : Kind → List ℕ) : walk t turns o lists = none := by
  induction turns generalizing lists with
  | zero => rfl
  | succ turns ih =>
    rw [walk, if_pos hlt, hzero]
    exact ih _

theorem chain_of_walk (h : walk t turns o lists = some r) (hr : Inside t r) :
    Chain t o ∧ Inside t lists := by
  induction turns generalizing o lists with
  | zero => cases h
  | succ turns ih =>
    by_cases hlt : o < length t
    · have hpos : 0 < entryLength t o := by
        by_contra hzero
        rw [walk_stuck hlt (by omega)] at h
        cases h
      rw [walk, if_pos hlt] at h
      obtain ⟨hchain, hinside⟩ := ih h
      refine ⟨.entry hpos (fun kind hk => ?_) hchain, fun kind x hx => ?_⟩
      · exact hinside kind o (mem_insert.mpr (.inr ⟨rfl, hk⟩))
      · exact hinside kind x (mem_insert.mpr (.inl hx))
    · rw [walk, if_neg hlt] at h
      cases h
      exact ⟨.done (by omega), hr⟩

theorem Chain.walk (h : Chain t o) (hl : Inside t lists) :
    ∃ turns r, walk t turns o lists = some r ∧ Inside t r := by
  induction h generalizing lists with
  | done h => exact ⟨1, lists, if_neg (by omega), hl⟩
  | @entry o hpos hsize _ ih =>
    by_cases hlt : o < length t
    · have hl' : Inside t (insert t lists o) := by
        intro kind x hx
        rcases mem_insert.mp hx with hx | ⟨rfl, hk⟩
        · exact hl kind x hx
        · exact hsize kind hk
      obtain ⟨turns, r, hw, hr⟩ := ih hl'
      exact ⟨turns + 1, r, (if_pos hlt).trans hw, hr⟩
    · exact ⟨1, lists, if_neg hlt, hl⟩

/-- The loop ends with every entry it keeps inside the table exactly if the table is a chain
of entries. -/
theorem walk_safe_iff (t : Table) :
    (∃ turns r, enumerateMADTEntries t turns = some r ∧
      ∀ kind, ∀ o ∈ r kind, o + kind.size ≤ length t) ↔ Chain t 44 := by
  constructor
  · rintro ⟨turns, r, h, hr⟩
    exact (chain_of_walk h hr).1
  · intro h
    exact h.walk fun kind o ho => nomatch ho

def oneEntry (type len : UInt8) : Table := fun o =>
  if o = 4 then 46 else if o = 44 then type else if o = 45 then len else 0

/-- An entry of length zero keeps the loop where it is; a local APIC whose last six bytes are
behind the table is kept. -/
theorem walk_unsafe : (∀ turns, enumerateMADTEntries (oneEntry 3 0) turns = none) ∧
    ∃ r, enumerateMADTEntries (oneEntry 0 8) 2 = some r ∧ 44 ∈ r .localAPIC ∧
      length (oneEntry 0 8) = 46 :=
  ⟨fun turns => walk_stuck (by decide) (by decide) turns _, _, rfl, by decide, by decide⟩

end MADT
