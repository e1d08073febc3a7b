import Mathlib.Data.List.Basic

/-! # Scan-code framing of the PS/2 keyboard

`PS2Keyboard::HandleInterrupt` collects the bytes of one scan code in an array of eight; the
flags beside it say which prefixes were seen. -/
namespace PS2

open Option

structure ScanCodeMetadata where
  e0 : Bool
  e1 : Bool
  release : Bool
  /-- for print screen's weird combination -/
  special : Bool
  ignoreNext : Bool
  deriving DecidableEq, Repr

def ScanCodeMetadata.clear : ScanCodeMetadata := ⟨false, false, false, false, false⟩

/-- The offset never passes the end of the array: a byte that would be stored there is
`none` in `handleInterrupt`. -/
structure Keyboard where
  metadata : ScanCodeMetadata
  scancode : Vector UInt8 8
  scancodeOffset : Fin 9
  deriving DecidableEq, Repr

/-- What the chain of conditions after the store comes to: a flag is set, the code is not
big enough yet, or the key is handled. -/
inductive Reaction where
  | flag (metadata : ScanCodeMetadata)
  | notYet
  | handleKey
  deriving DecidableEq, Repr

/-- The conditions in the order of the source; `offset` already counts the stored byte. -/
def ScanCodeMetadata.react (m : ScanCodeMetadata) (offset : ℕ) (data : UInt8) : Reaction :=
  if !m.e1 && !m.e0 && !m.special && data == 0xE0 then
    .flag { m with e0 := true }
  else if !m.e1 && !m.e0 && !m.special && data == 0xE1 then
    .flag { m with e1 := true }
  else if !m.release && data == 0xF0 then
    .flag { m with release := true }
  else if !m.special && data == 0x12 && m.e0 && !m.release then
    .flag { m with special := true }
  else if !m.special && data == 0x7C && m.e0 && m.release then
    .flag { m with special := true }
  else if m.e1 && decide (offset < 8) then
    .notYet
  else if m.special && (m.release && decide (offset < 6) || !m.release && decide (offset < 4)) then
    .notYet
  else
    .handleKey

/-- `HandleInterrupt` with the byte the controller delivers: the keyboard after it and the
arguments of its calls of `HandleKey`. -/
def Keyboard.handleInterrupt (k : Keyboard) (data : UInt8) :
    Option (Keyboard × List (List UInt8)) :=
  if k.metadata.ignoreNext then
    some ({ k with metadata := { k.metadata with ignoreNext := false } }, [])
  else if h : k.scancodeOffset.val < 8 then
    let scancode := k.scancode.set k.scancodeOffset.val data h
    let offset : Fin 9 := ⟨k.scancodeOffset.val + 1, Nat.succ_lt_succ h⟩
    match k.metadata.react offset.val data with
    | .flag metadata => some (⟨metadata, scancode, offset⟩, [])
    | .notYet => some (⟨k.metadata, scancode, offset⟩, [])
    | .handleKey => some (⟨.clear, scancode, 0⟩, [scancode.toList.take offset.val])
  else
    none

def Keyboard.handleInterrupts (k : Keyboard) : List UInt8 → Option (Keyboard × List (List UInt8))
  | [] => some (k, [])
  | data :: rest => do
    let first ← k.handleInterrupt data
    let others ← first.1.handleInterrupts rest
    return (others.1, first.2 ++ others.2)

/-- No byte of a scan code is pending: what the constructor sets and what `HandleKey` is
followed by. The array keeps its old bytes, which no later call reads. -/
def Keyboard.Idle (k : Keyboard) : Prop := k.metadata = .clear ∧ k.scancodeOffset = 0

instance (k : Keyboard) : Decidable k.Idle := inferInstanceAs (Decidable (_ ∧ _))

def Keyboard.initial : Keyboard := ⟨.clear, Vector.replicate 8 0, 0⟩

/-! ## The bytes received so far

The array and its offset stand for the list of bytes received of the code that is pending. -/

structure Pending where
  metadata : ScanCodeMetadata
  bytes : List UInt8
  deriving DecidableEq, Repr

def Pending.none : Pending := ⟨.clear, []⟩

def Pending.accept (p : Pending) (data : UInt8) : Option (Pending × List (List UInt8)) :=
  if p.metadata.ignoreNext then
    some ({ p with metadata := { p.metadata with ignoreNext := false } }, [])
  else if p.bytes.length < 8 then
    match p.metadata.react (p.bytes.length + 1) data with
    | .flag metadata => some (⟨metadata, p.bytes ++ [data]⟩, [])
    | .notYet => some (⟨p.metadata, p.bytes ++ [data]⟩, [])
    | .handleKey => some (.none, [p.bytes ++ [data]])
  else
    Option.none

def Pending.acceptAll (p : Pending) : List UInt8 → Option (Pending × List (List UInt8))
  | [] => some (p, [])
  | data :: rest => do
    let first ← p.accept data
    let others ← first.1.acceptAll rest
    return (others.1, first.2 ++ others.2)

def Keyboard.pending (k : Keyboard) : Pending :=
  ⟨k.metadata, k.scancode.toList.take k.scancodeOffset.val⟩

theorem Keyboard.idle_iff (k : Keyboard) : k.Idle ↔ k.pending = .none := by
  obtain ⟨metadata, scancode, offset⟩ := k
  have hlen : (scancode.toList.take offset.val).length = offset.val := by
    rw [List.length_take, Vector.length_toList]
    omega
  constructor
  · rintro ⟨rfl, rfl⟩
    rfl
  · intro h
    obtain ⟨rfl, hb⟩ := Pending.mk.inj h
    refine ⟨rfl, Fin.ext ?_⟩
    rw [hb] at hlen
    exact hlen.symm

theorem take_set_succ {n : ℕ} (v : Vector UInt8 n) (i : ℕ) (x : UInt8) (h : i < n) :
    (v.set i x h).toList.take (i + 1) = v.toList.take i ++ [x] := by
  rw [Vector.toList_set, List.take_succ_eq_append_getElem (by simpa using h), List.take_set_of_le
    (Nat.le_refl i)]
  simp

theorem Keyboard.handleInterrupt_pending (k : Keyboard) (data : UInt8) :
    (k.handleInterrupt data).map (fun r => (r.1.pending, r.2)) = k.pending.accept data := by
  obtain ⟨metadata, scancode, offset⟩ := k
  have hlen : (scancode.toList.take offset.val).length = offset.val := by
    rw [List.length_take, Vector.length_toList]
    omega
  simp only [Keyboard.handleInterrupt, Pending.accept, Keyboard.pending, hlen]
  by_cases hi : metadata.ignoreNext
  · simp only [hi, if_true, map_some]
  by_cases ho : offset.val < 8
  · simp only [hi, ho, dif_pos, if_true, take_set_succ]
    cases metadata.react (offset.val + 1) data with
    | flag m => simp [take_set_succ]
    | notYet => simp [take_set_succ]
    | handleKey => simp [Pending.none]
  · simp only [hi, ho, dif_neg, if_false, not_false_eq_true, map_none, Bool.false_eq_true]

theorem Keyboard.handleInterrupts_pending (k : Keyboard) (bytes : List UInt8) :
    (k.handleInterrupts bytes).map (fun r => (r.1.pending, r.2)) = k.pending.acceptAll bytes := by
  induction bytes generalizing k with
  | nil => rfl
  | cons data rest ih =>
    rw [Keyboard.handleInterrupts, Pending.acceptAll, ← Keyboard.handleInterrupt_pending]
    cases hd : k.handleInterrupt data with
    | none => rfl
    | some first =>
      simp only [map_some, bind_eq_bind, bind_some]
      rw [← ih first.1]
      cases first.1.handleInterrupts rest <;> rfl

/-- The byte is not `F0` at the end of eight that began with `E1` and had no `F0` before:
the code is then long enough, but the byte is taken for a flag. -/
def Keyboard.Steady (k : Keyboard) (data : UInt8) : Prop :=
  ¬ (k.metadata.e1 ∧ ¬ k.metadata.release ∧ k.scancodeOffset.val = 7 ∧ data = 0xF0)

inductive SteadyRun : Keyboard → Prop where
  | initial : SteadyRun .initial
  | byte {k k' : Keyboard} {data : UInt8} {calls : List (List UInt8)} (hr : SteadyRun k)
      (hs : k.Steady data) (h : k.handleInterrupt data = some (k', calls)) : SteadyRun k'

/-- The bytes that can be pending beside the flags. -/
def ScanCodeMetadata.most (m : ScanCodeMetadata) : ℕ :=
  if m.e1 then 7 else if m.special then if m.release then 5 else 3 else m.e0.toNat + m.release.toNat

structure Keyboard.Bounded (k : Keyboard) : Prop where
  listens : k.metadata.ignoreNext = false
  special : k.metadata.special → k.metadata.e0
  apart : k.metadata.e1 → k.metadata.e0 = false
  offset : k.scancodeOffset.val ≤ k.metadata.most

theorem Keyboard.Bounded.offset_lt {k : Keyboard} (h : k.Bounded) : k.scancodeOffset.val < 8 := by
  have hle := h.offset
  unfold ScanCodeMetadata.most at hle
  have h0 := Bool.toNat_le k.metadata.e0
  have hr := Bool.toNat_le k.metadata.release
  split_ifs at hle <;> omega

theorem Keyboard.Bounded.handleInterrupt {k : Keyboard} (h : k.Bounded) (data : UInt8) :
    ∃ k' calls, k.handleInterrupt data = some (k', calls) ∧
      (k.Steady data → k'.Bounded) ∧ (¬ k.Steady data → k'.scancodeOffset.val = 8) := by
  have hlt := h.offset_lt
  have hbit := Bool.toNat_le k.metadata.release
  obtain ⟨hlisten, hspecial, hapart, hle⟩ := h
  obtain ⟨⟨e0, e1, release, special, ignoreNext⟩, scancode, offset⟩ := k
  dsimp only at hlisten hspecial hapart hle hlt hbit
  subst hlisten
  simp only [Keyboard.handleInterrupt, Bool.false_eq_true, if_false, dif_pos hlt]
  -- one case for each condition of the chain
  unfold ScanCodeMetadata.react Keyboard.Steady ScanCodeMetadata.most at *
  simp only [Bool.and_eq_true, Bool.not_eq_true', beq_iff_eq, Bool.or_eq_true, decide_eq_true_eq]
  split_ifs
  all_goals refine ⟨_, _, rfl, fun _ => ⟨rfl, ?_, ?_, ?_⟩, ?_⟩
  all_goals simp_all [ScanCodeMetadata.most, ScanCodeMetadata.clear]
  any_goals omega
  all_goals
    split_ifs at hle ⊢
    all_goals simp_all
    all_goals omega

theorem SteadyRun.bounded {k : Keyboard} (hr : SteadyRun k) : k.Bounded := by
  induction hr with
  | initial => exact ⟨rfl, nofun, nofun, Nat.zero_le _⟩
  | byte _ hs h ih =>
    obtain ⟨k', calls, hsome, hsteady, -⟩ := ih.handleInterrupt _
    rw [h] at hsome
    cases hsome
    exact hsteady hs

/-- A byte that is no prefix of a longer code. -/
abbrev KeyByte := { x : UInt8 // x ≠ 0xE0 ∧ x ≠ 0xE1 ∧ x ≠ 0xF0 }

/-- A byte that can follow `E0`: the two that begin the print screen codes are left out. -/
abbrev ExtendedByte := { y : UInt8 // y ≠ 0xE0 ∧ y ≠ 0xE1 ∧ y ≠ 0xF0 ∧ y ≠ 0x12 ∧ y ≠ 0x7C }

inductive KeyEvent where
  | press (x : KeyByte)
  | release (x : KeyByte)
  | extendedPress (y : ExtendedByte)
  | extendedRelease (y : ExtendedByte)
  | printScreenPress
  | printScreenRelease
  | pause
  deriving DecidableEq

def KeyEvent.bytes : KeyEvent → List UInt8
  | .press x => [x.val]
  | .release x => [0xF0, x.val]
  | .extendedPress y => [0xE0, y.val]
  | .extendedRelease y => [0xE0, 0xF0, y.val]
  | .printScreenPress => [0xE0, 0x12, 0xE0, 0x7C]
  | .printScreenRelease => [0xE0, 0xF0, 0x7C, 0xE0, 0xF0, 0x12]
  | .pause => [0xE1, 0x14, 0x77, 0xE1, 0xF0, 0x14, 0xF0, 0x77]

theorem Pending.acceptAll_append (p : Pending) (first others : List UInt8) :
    p.acceptAll (first ++ others) = (do
      let a ← p.acceptAll first
      let b ← a.1.acceptAll others
      return (b.1, a.2 ++ b.2)) := by
  induction first generalizing p with
  | nil =>
    simp only [List.nil_append, Pending.acceptAll, bind_eq_bind, bind_some]
    cases p.acceptAll others <;> rfl
  | cons data rest ih =>
    simp only [List.cons_append, Pending.acceptAll, bind_eq_bind]
    cases p.accept data with
    | none => rfl
    | some d =>
      simp only [bind_some, ih, bind_eq_bind, pure_def]
      cases d.1.acceptAll rest with
      | none => rfl
      | some r =>
        simp only [bind_some]
        cases r.1.acceptAll others with
        | none => rfl
        | some o => simp only [bind_some, List.append_assoc]

theorem Pending.accepts_event (e : KeyEvent) :
    Pending.none.acceptAll e.bytes = some (Pending.none, [e.bytes]) := by
  cases e with
  | press x =>
    obtain ⟨x, h0, h1, hr⟩ := x
    simp [KeyEvent.bytes, Pending.acceptAll, Pending.accept, Pending.none,
      ScanCodeMetadata.clear, ScanCodeMetadata.react, h0, h1, hr]
  | release x =>
    obtain ⟨x, h0, h1, hr⟩ := x
    simp [KeyEvent.bytes, Pending.acceptAll, Pending.accept, Pending.none,
      ScanCodeMetadata.clear, ScanCodeMetadata.react, h0, h1]
  | extendedPress y =>
    obtain ⟨y, h0, h1, hr, hs, hc⟩ := y
    simp [KeyEvent.bytes, Pending.acceptAll, Pending.accept, Pending.none,
      ScanCodeMetadata.clear, ScanCodeMetadata.react, hr, hs]
  | extendedRelease y =>
    obtain ⟨y, h0, h1, hr, hs, hc⟩ := y
    simp [KeyEvent.bytes, Pending.acceptAll, Pending.accept, Pending.none,
      ScanCodeMetadata.clear, ScanCodeMetadata.react, hc]
  | printScreenPress => decide
  | printScreenRelease => decide
  | pause => decide

theorem Pending.accepts_events (events : List KeyEvent) :
    Pending.none.acceptAll (events.flatMap KeyEvent.bytes) =
      some (Pending.none, events.map KeyEvent.bytes) := by
  induction events with
  | nil => rfl
  | cons e rest ih =>
    rw [List.flatMap_cons, Pending.acceptAll_append, Pending.accepts_event]
    simp only [bind_eq_bind, bind_some, ih, List.map_cons]
    rfl

/-- **Framing.** From a keyboard with nothing pending, after the bytes of any number of the
events `HandleKey` was called once for each of them, with its bytes and in order, and
nothing is pending again. -/
theorem events_framed (k : Keyboard) (hk : k.Idle) (events : List KeyEvent) (count : ℕ) :
    ∃ k' : Keyboard, k.handleInterrupts ((events.take count).flatMap KeyEvent.bytes) =
        some (k', (events.take count).map KeyEvent.bytes) ∧ k'.Idle := by
  have hp : k.pending = .none := k.idle_iff.mp hk
  have hrun := k.handleInterrupts_pending ((events.take count).flatMap KeyEvent.bytes)
  rw [hp, Pending.accepts_events, map_eq_some_iff] at hrun
  obtain ⟨⟨k', calls⟩, hrun, heq⟩ := hrun
  obtain ⟨hpending, rfl⟩ := Prod.mk.inj heq
  exact ⟨k', hrun, k'.idle_iff.mpr hpending⟩

theorem events_framed_initial :
    Keyboard.initial.Idle ∧ ∃ k' : Keyboard, Keyboard.initial.handleInterrupts
          (([.press ⟨0x1C, by decide⟩, .pause, .extendedRelease ⟨0x75, by decide⟩].take 3).flatMap
            KeyEvent.bytes) = some (k', ([.press ⟨0x1C, by decide⟩, .pause,
          .extendedRelease ⟨0x75, by decide⟩].take 3).map KeyEvent.bytes) ∧ k'.Idle :=
  ⟨by decide, events_framed Keyboard.initial (by decide) _ 3⟩

end PS2
