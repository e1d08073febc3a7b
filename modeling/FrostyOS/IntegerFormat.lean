import FrostyOS.FormatAgreement
import Mathlib.Data.Nat.Digits.Lemmas

/-! # Integer conversions of `vsnprintf`

What the machine prints for an integer conversion of a `long`, and what the C standard asks
for. -/
namespace Printf

open Printer Conversion List

inductive Flag where
  | minus
  | zero
  | plus
  | space
  | alternate
  deriving DecidableEq, Repr

open Printf.Flag

def Flag.byte : Flag → UInt8
  | .minus => '-'.toUInt8
  | .zero => '0'.toUInt8
  | .plus => '+'.toUInt8
  | .space => ' '.toUInt8
  | .alternate => '#'.toUInt8

inductive Specifier where
  | d
  | i
  | u
  | o
  | x
  | X
  deriving DecidableEq, Repr

namespace Specifier

def byte : Specifier → UInt8
  | .d => 'd'.toUInt8
  | .i => 'i'.toUInt8
  | .u => 'u'.toUInt8
  | .o => 'o'.toUInt8
  | .x => 'x'.toUInt8
  | .X => 'X'.toUInt8

def signed : Specifier → Bool
  | .d | .i => true
  | .u | .o | .x | .X => false

def radix : Specifier → ℕ
  | .d | .i | .u => 10
  | .o => 8
  | .x | .X => 16

def upper : Specifier → Bool
  | .X => true
  | .d | .i | .u | .o | .x => false

end Specifier

def digitByte (d : Fin 10) : UInt8 := UInt8.ofNat (48 + d.val)

def decimal (ds : List (Fin 10)) : ℕ := ds.foldl (fun value d => value * 10 + d.val) 0

def precisionBytes : Option (List (Fin 10)) → List UInt8
  | none => []
  | some ds => '.'.toUInt8 :: ds.map digitByte

/-- A conversion `%[flags][width][.precision]l` with its argument. A width does not begin
with a zero, which would be a flag; both numbers are values of an `int`. -/
structure Request where
  flags : List Flag
  width : List (Fin 10)
  width_head : width.head? ≠ some 0
  width_lt : decimal width < 2 ^ 31
  precision : Option (List (Fin 10))
  precision_lt : ∀ ds ∈ precision, decimal ds < 2 ^ 31
  specifier : Specifier
  value : UInt64

open Request

namespace Request

variable (r : Request)

def format : List UInt8 := '%'.toUInt8 :: (r.flags.map byte ++ (r.width.map digitByte ++
    (precisionBytes r.precision ++ ['l'.toUInt8, r.specifier.byte])))

def arguments : Arguments := ⟨fun _ => r.value, fun _ => []⟩

def minWidth : ℕ := decimal r.width

def minDigits : Option ℕ := r.precision.map decimal

def left : Bool := minus ∈ r.flags

def zero : Bool := Flag.zero ∈ r.flags

def alternate : Bool := Flag.alternate ∈ r.flags

def signedValue : ℤ := Int.bmod r.value.toNat (2 ^ 64)

def magnitude : ℕ := if r.specifier.signed then r.signedValue.natAbs else r.value.toNat

/-- The sign of a signed conversion: `-`, or what the flags ask for. -/
def sign : List UInt8 :=
  if r.specifier.signed then signText r.signedValue (plus ∈ r.flags) (space ∈ r.flags)
  else []

end Request

namespace Request

variable (r : Request)

def digits : List UInt8 :=
  ((Nat.digits r.specifier.radix r.magnitude).map (hexChar r.specifier.upper)).reverse

/-- The digits zero-extended to the precision, which is 1 when it is not given; the flag `#`
makes the first digit of an octal number a zero. -/
def standardBody : List UInt8 :=
  let extended := List.replicate (r.minDigits.getD 1 - r.digits.length) '0'.toUInt8 ++ r.digits
  if r.alternate ∧ r.specifier = .o ∧ extended.head? ≠ some '0'.toUInt8 then
    '0'.toUInt8 :: extended
  else extended

/-- The sign, or the `0x` of a hexadecimal number other than zero with the flag `#`. -/
def standardMark : List UInt8 :=
  if r.alternate ∧ r.specifier.radix = 16 ∧ r.magnitude ≠ 0 then
    ['0'.toUInt8, if r.specifier.upper then 'X'.toUInt8 else 'x'.toUInt8]
  else r.sign

/-- The text of the conversion: blanks on the right with `-`, zeros behind the sign with `0`
and neither `-` nor a precision, blanks on the left otherwise. -/
def standardText : List UInt8 :=
  let fill := r.minWidth - (r.standardMark ++ r.standardBody).length
  if r.left then r.standardMark ++ r.standardBody ++ List.replicate fill ' '.toUInt8
  else if r.zero ∧ r.minDigits = none then
    r.standardMark ++ List.replicate fill '0'.toUInt8 ++ r.standardBody
  else List.replicate fill ' '.toUInt8 ++ r.standardMark ++ r.standardBody

end Request

namespace Request

variable (r : Request)

def precisionInt : ℤ := (r.minDigits.map Nat.cast).getD (-1)

def alternateMark : List UInt8 :=
  if r.alternate then
    if r.specifier.radix = 16 then
      ['0'.toUInt8, if r.specifier.upper then 'X'.toUInt8 else 'x'.toUInt8]
    else if r.specifier.radix = 8 then ['0'.toUInt8]
    else []
  else []

def widthInt : ℤ := max (int32 (r.minWidth - r.alternateMark.length)) 0

def printedText : List UInt8 := r.alternateMark ++
    if r.specifier.signed then
      intText r.signedValue (plus ∈ r.flags) (space ∈ r.flags)
        (max r.widthInt r.precisionInt) r.precisionInt r.specifier.radix r.zero r.left
        r.specifier.upper
    else
      uintText (max r.widthInt r.precisionInt) r.precisionInt r.value.toNat r.specifier.radix
        r.zero r.left r.specifier.upper

def conversion : Conversion where
  radix := 10
  len := .long
  sign := false
  leftJustify := r.left
  forceSign := plus ∈ r.flags
  addBlank := space ∈ r.flags
  flagsExtra := r.alternate
  zeroPad := r.zero
  number := false
  upper := false
  floating := false
  width := r.minWidth
  precision := r.precisionInt

end Request

section Run

variable (args : Arguments)

theorem Printer.run_cons {σ : Type} {put : σ → UInt8 → σ} {p q : Printer σ} {c} (hc : c ≠ 0)
    (h : p.step put args c = .ok q) (rest : List UInt8) :
    p.run put args (c :: rest) = q.run put args rest := by
  rw [run, if_neg hc, h]
  rfl

def Conversion.withFlags (v : Conversion) (flags : List Flag) : Conversion :=
  { v with
    leftJustify := v.leftJustify || minus ∈ flags
    forceSign := v.forceSign || plus ∈ flags
    addBlank := v.addBlank || space ∈ flags
    flagsExtra := v.flagsExtra || alternate ∈ flags
    zeroPad := v.zeroPad || zero ∈ flags }

theorem Conversion.flag_byte (v : Conversion) (flag : Flag) :
    v.flag flag.byte = some (v.withFlags [flag]) := by
  cases flag with
  | minus =>
    rw [flag, byte, if_pos rfl]
    simp [withFlags]
  | plus =>
    rw [flag, byte, if_neg (by decide), if_pos rfl]
    simp [withFlags]
  | space =>
    rw [flag, byte, if_neg (by decide), if_neg (by decide), if_pos rfl]
    simp [withFlags]
  | alternate =>
    rw [flag, byte, if_neg (by decide), if_neg (by decide), if_neg (by decide), if_pos rfl]
    simp [withFlags]
  | zero =>
    rw [flag, byte, if_neg (by decide), if_neg (by decide), if_neg (by decide),
      if_neg (by decide), if_pos rfl]
    simp [withFlags]

theorem Conversion.withFlags_cons (v : Conversion) (flag : Flag) (flags : List Flag) :
    (v.withFlags [flag]).withFlags flags = v.withFlags (flag :: flags) := by
  simp only [withFlags, mem_cons, not_mem_nil, or_false, Bool.decide_or, Bool.or_assoc]

variable {σ : Type} (put : σ → UInt8 → σ)

theorem Printer.run_flags (flags : List Flag) (p : Printer σ) (hm : p.mode = .flags)
    (rest : List UInt8) :
    p.run put args (flags.map byte ++ rest) =
      (p.setConversion (p.conversion.withFlags flags)).run put args rest := by
  induction flags generalizing p with
  | nil =>
    simp only [map_nil, nil_append, withFlags, not_mem_nil, decide_false, Bool.or_false]
    rfl
  | cons flag flags ih =>
    have hstep : p.step put args flag.byte =
        .ok (p.setConversion (p.conversion.withFlags [flag])) := by
      simp only [step, hm, stepFlags, flag_byte]
    have hm' : (p.setConversion (p.conversion.withFlags [flag])).mode = .flags := hm
    rw [map_cons, cons_append, run_cons args (by cases flag <;> decide) hstep, ih _ hm']
    simp only [setConversion, withFlags_cons]

theorem digitByte_facts (d : Fin 10) :
    digitByte d ≠ 0 ∧ digitByte d ≠ '*'.toUInt8 ∧ isDigit (digitByte d) ∧
      (digitByte d).toNat - 48 = d.val ∧
      (d ≠ 0 → digitByte d ∉ ['-', '+', ' ', '#', '0'].map Char.toUInt8) := by
  revert d
  decide

theorem le_decimal_foldl (ds : List (Fin 10)) (value : ℕ) :
    value ≤ ds.foldl (fun value d => value * 10 + d.val) value := by
  induction ds generalizing value with
  | nil => exact le_rfl
  | cons d ds ih =>
    have hle := ih (value * 10 + d.val)
    rw [foldl_cons]
    omega

theorem int32_shift {value : ℕ} {d : Fin 10} (hlt : value * 10 + d.val < 2 ^ 31) :
    int32 ((value : ℤ) * 10 + (d.val : ℕ)) = ((value * 10 + d.val : ℕ) : ℤ) := by
  rw [int32_of_range (by omega) (by omega)]
  push_cast
  rfl

theorem Printer.stepWidth_digit (p : Printer σ) (d : Fin 10) {value : ℕ}
    (hv : p.conversion.width = value) (hlt : value * 10 + d.val < 2 ^ 31) :
    p.stepWidth put args (digitByte d) =
      .ok ((p.setConversion (p.conversion.setWidth ((value * 10 + d.val : ℕ) : ℤ))).setMode
        .width) := by
  obtain ⟨_, hstar, hdigit, hval, -⟩ := digitByte_facts d
  rw [stepWidth, if_neg hstar, if_pos hdigit, hv, hval, int32_shift hlt]

/-- A machine that takes each digit into its number reads a whole number. -/
theorem Printer.run_digits {q : ℕ → Printer σ}
    (hstep : ∀ (value : ℕ) (d : Fin 10), value * 10 + d.val < 2 ^ 31 →
      (q value).step put args (digitByte d) = .ok (q (value * 10 + d.val)))
    (ds : List (Fin 10)) (value : ℕ)
    (hlt : ds.foldl (fun value d => value * 10 + d.val) value < 2 ^ 31) (rest : List UInt8) :
    (q value).run put args (ds.map digitByte ++ rest) =
      (q (ds.foldl (fun value d => value * 10 + d.val) value)).run put args rest := by
  induction ds generalizing value with
  | nil => rfl
  | cons d ds ih =>
    have hle := le_decimal_foldl ds (value * 10 + d.val)
    rw [foldl_cons] at hlt ⊢
    rw [map_cons, cons_append, run_cons args (digitByte_facts d).1 (hstep value d (by omega)),
      ih _ hlt]

def Mode.Reads (mode : Mode) : Prop := mode ≠ .normal ∧ mode ≠ .spec

theorem Mode.len_reads : Mode.len.Reads := ⟨by decide, by decide⟩

theorem Printer.run_width (width : List (Fin 10)) (p : Printer σ) (hm : p.mode = .flags)
    (hv : p.conversion.width = 0) (hhead : width.head? ≠ some 0) (hlt : decimal width < 2 ^ 31) :
    ∃ mode : Mode, mode.Reads ∧ ∀ rest : List UInt8, p.run put args (width.map digitByte ++ rest) =
        ((p.setConversion (p.conversion.setWidth (decimal width))).setMode mode).run put args
          rest := by
  cases width with
  | nil =>
    refine ⟨.flags, ⟨by decide, by decide⟩, fun rest => ?_⟩
    obtain ⟨out, printed, mode, v, nextArg, stores⟩ := p
    obtain ⟨radix, len, sign, left, force, blank, extra, zero, number, upper, floating, width,
      precision⟩ := v
    simp only at hm hv
    rw [hm, hv]
    rfl
  | cons d ds =>
    refine ⟨.width, ⟨by decide, by decide⟩, fun rest => ?_⟩
    have hd : d ≠ 0 := fun he => hhead (by rw [he]; rfl)
    rw [decimal, foldl_cons] at hlt
    have hfirst : p.step put args (digitByte d) =
        .ok ((p.setConversion (p.conversion.setWidth ((0 * 10 + d.val : ℕ) : ℤ))).setMode
          .width) := by
      simp only [step, hm, stepFlags, flag_none _ ((digitByte_facts d).2.2.2.2 hd)]
      exact p.stepWidth_digit args put d hv (by omega)
    rw [map_cons, cons_append, run_cons args (digitByte_facts d).1 hfirst]
    exact run_digits args put (q := fun value =>
      (p.setConversion (p.conversion.setWidth value)).setMode .width)
      (fun _ d hlt => stepWidth_digit args put _ d rfl hlt) ds _ hlt rest

theorem Printer.step_eq_stepLen (p : Printer σ) {c} (hm : p.mode.Reads)
    (hflag : c ∉ ['-', '+', ' ', '#', '0'].map Char.toUInt8)
    (hstar : c ≠ '*'.toUInt8) (hdigit : isDigit c = false) :
    p.step put args c = p.stepLen put args c := by
  have hwidth : p.stepWidth put args c = p.stepLen put args c := by
    rw [stepWidth, if_neg hstar, if_neg (by rw [hdigit]; decide)]
  cases hmode : p.mode with
  | normal => exact absurd hmode hm.1
  | flags =>
    simp only [step, hmode, stepFlags, flag_none _ hflag]
    exact hwidth
  | width =>
    simp only [step, hmode]
    exact hwidth
  | prec =>
    simp only [step, hmode]
    rw [stepPrec, if_neg hstar, if_neg (by rw [hdigit]; decide)]
  | len => simp only [step, hmode]
  | spec => exact absurd hmode hm.2

theorem Printer.run_precision (precision : Option (List (Fin 10))) (p : Printer σ)
    (hm : p.mode.Reads) (hv : p.conversion.precision = -1)
    (hlt : ∀ ds ∈ precision, decimal ds < 2 ^ 31) :
    ∃ mode : Mode, mode.Reads ∧ ∀ rest : List UInt8,
      p.run put args (precisionBytes precision ++ rest) =
        ((p.setConversion (p.conversion.setPrecision
          (((precision.map decimal).map Nat.cast).getD (-1)))).setMode mode).run put args
            rest := by
  cases precision with
  | none =>
    refine ⟨p.mode, hm, fun rest => ?_⟩
    obtain ⟨out, printed, mode, v, nextArg, stores⟩ := p
    obtain ⟨radix, len, sign, left, force, blank, extra, zero, number, upper, floating, width,
      precision⟩ := v
    simp only at hv
    rw [hv]
    rfl
  | some ds =>
    refine ⟨.prec, ⟨by decide, by decide⟩, fun rest => ?_⟩
    have hstep : p.step put args '.'.toUInt8 =
        .ok ((p.setConversion (p.conversion.setPrecision 0)).setMode .prec) := by
      rw [p.step_eq_stepLen args put hm (by decide) (by decide) (by decide), stepLen,
        if_pos rfl, if_pos hv]
    rw [precisionBytes, cons_append, run_cons args (by decide) hstep]
    refine run_digits args put (q := fun value =>
      (p.setConversion (p.conversion.setPrecision value)).setMode .prec)
      (fun value d hlt => ?_) ds 0 (hlt ds rfl) rest
    obtain ⟨_, hstar, hdigit, hval, -⟩ := digitByte_facts d
    change stepPrec put args _ _ = _
    rw [stepPrec, if_neg hstar, if_pos hdigit, hval]
    change Except.ok (setConversion _ (setPrecision _ (int32 ((value : ℤ) * 10 + (d.val : ℕ))))) = _
    rw [int32_shift hlt]
    rfl

theorem Specifier.byte_facts (s : Specifier) :
    s.byte ≠ 0 ∧ s.byte ≠ '.'.toUInt8 ∧
      s.byte ∉ ['-', '+', ' ', '#', '0'].map Char.toUInt8 ∧ s.byte ≠ '*'.toUInt8 ∧
      isDigit s.byte = false ∧ s.byte ∉ ['h', 'l', 'j', 'z', 't', 'L'].map Char.toUInt8 := by
  cases s <;> decide

theorem Conversion.specify_byte (v : Conversion) (s : Specifier) (hv : v.upper = false) :
    v.specify s.byte = some (v.setNumber s.radix s.signed s.upper false) := by
  cases s with
  | d => rw [specify, if_pos (by decide), hv]; rfl
  | i => rw [specify, if_pos (by decide), hv]; rfl
  | u => rw [specify, if_neg (by decide), if_pos (by decide), hv]; rfl
  | o =>
    rw [specify, if_neg (by decide), if_neg (by decide), if_pos (by decide), hv]
    rfl
  | x =>
    rw [specify, if_neg (by decide), if_neg (by decide), if_neg (by decide),
      if_neg (by decide), if_pos (by decide)]
    rfl
  | X =>
    rw [specify, if_neg (by decide), if_neg (by decide), if_neg (by decide),
      if_neg (by decide), if_neg (by decide), if_pos (by decide)]
    rfl

theorem Printer.step_long (p : Printer σ) (hm : p.mode.Reads) (hl : p.conversion.len = .normal) :
    p.step put args 'l'.toUInt8 =
      .ok ((p.setConversion { p.conversion with len := .long }).setMode .len) := by
  have hmodify : p.conversion.modify 'l'.toUInt8 = some { p.conversion with len := .long } := by
    rw [Conversion.modify, if_neg (by decide), if_pos rfl, hl]
    rfl
  rw [p.step_eq_stepLen args put hm (by decide) (by decide) (by decide), stepLen,
    if_neg (by decide), hmodify]

theorem Request.run_format (r : Request) (out : σ) :
    (initial out).run put args r.format =
      (⟨out, 0, .len, r.conversion, 0, []⟩ : Printer σ).run put args [r.specifier.byte] := by
  have hstart : (initial out).step put args '%'.toUInt8 = .ok ((initial out).setMode .flags) := rfl
  rw [format, run_cons args (by decide) hstart, run_flags args put _ _ rfl]
  obtain ⟨mode, hmode, hwidth⟩ := run_width args put r.width
    (((initial out).setMode .flags).setConversion
      (initial.withFlags r.flags)) rfl rfl r.width_head r.width_lt
  refine (hwidth _).trans ?_
  obtain ⟨mode', hmode', hprecision⟩ := run_precision args put r.precision
    (((((initial out).setMode .flags).setConversion
      (initial.withFlags r.flags)).setConversion
        ((initial.withFlags r.flags).setWidth (decimal r.width))).setMode mode)
    hmode rfl r.precision_lt
  refine (hprecision _).trans ?_
  exact Printer.run_cons args (by decide) (Printer.step_long args put _ hmode' rfl) _

end Run

section Specifier

variable (r : Request)

theorem Request.widthInt_of_nil (h : r.alternateMark = []) : r.widthInt = r.minWidth := by
  have hlt := r.width_lt
  rw [widthInt, h, minWidth, length_nil, int32_of_range (by omega) (by omega)]
  omega

def Request.numberConversion : Conversion :=
  r.conversion.setNumber r.specifier.radix r.specifier.signed r.specifier.upper false

theorem Request.alternateForm_eq :
    ∃ printed : ℤ,
      (⟨[], 0, .len, r.numberConversion, 0, []⟩ : Printer (List UInt8)).alternateForm fputc =
        ⟨r.alternateMark, printed, .len, r.numberConversion.setWidth r.widthInt, 0, []⟩ := by
  have hextra : r.numberConversion.flagsExtra = r.alternate := rfl
  have hradix : r.numberConversion.radix = r.specifier.radix := rfl
  rw [alternateForm, hextra, hradix]
  by_cases ha : r.alternate
  · by_cases hx : r.specifier.radix = 16
    · have hmark : r.alternateMark =
          ['0'.toUInt8, if r.specifier.upper then 'X'.toUInt8 else 'x'.toUInt8] := by
        rw [alternateMark, if_pos ha, if_pos hx]
      have hwidth : r.widthInt = max (int32 (r.numberConversion.width - 2)) 0 := by
        rw [widthInt, hmark]
        rfl
      rw [if_pos ha, if_pos hx, hwidth, hmark]
      exact ⟨_, rfl⟩
    · by_cases ho : r.specifier.radix = 8
      · have hmark : r.alternateMark = ['0'.toUInt8] := by
          rw [alternateMark, if_pos ha, if_neg hx, if_pos ho]
        have hwidth : r.widthInt = max (int32 (r.numberConversion.width - 1)) 0 := by
          rw [widthInt, hmark]
          rfl
        rw [if_pos ha, if_neg hx, if_pos ho, hwidth, hmark]
        exact ⟨_, rfl⟩
      · have hmark : r.alternateMark = [] := by
          rw [alternateMark, if_pos ha, if_neg hx, if_neg ho]
        rw [if_pos ha, if_neg hx, if_neg ho, r.widthInt_of_nil hmark, hmark]
        exact ⟨_, rfl⟩
  · have hmark : r.alternateMark = [] := by rw [alternateMark, if_neg ha]
    rw [if_neg ha, r.widthInt_of_nil hmark, hmark]
    exact ⟨_, rfl⟩

theorem Request.printNumber_eq (printed : ℤ) :
    ∃ count : ℤ, (⟨r.alternateMark, printed, .len, r.numberConversion.setWidth r.widthInt, 0, []⟩ :
        Printer (List UInt8)).printNumber fputc r.arguments =
      .ok ⟨r.printedText, count, .len, r.numberConversion.setWidth r.widthInt, 1, []⟩ := by
  have hsign : (r.numberConversion.setWidth r.widthInt).sign = r.specifier.signed := rfl
  rw [printNumber, printedText]
  simp only [hsign]
  by_cases hs : r.specifier.signed
  · simp only [if_pos hs, printInt_eq, addOutput, Output.emitAll_out, foldl_fputc]
    exact ⟨_, rfl⟩
  · simp only [if_neg hs, printUint_eq, addOutput, Output.emitAll_out, foldl_fputc]
    exact ⟨_, rfl⟩

theorem Request.vfprintf_eq :
    ∃ rc : ℤ, vfprintf r.format r.arguments = .ok (r.printedText, rc, []) := by
  obtain ⟨hzero, hdot, hflag, hstar, hdigit, hmodify⟩ := r.specifier.byte_facts
  obtain ⟨printed, halternate⟩ := r.alternateForm_eq
  obtain ⟨count, hnumber⟩ := r.printNumber_eq printed
  have hspecify : (⟨[], 0, .len, r.conversion, 0, []⟩ : Printer (List UInt8)).specify fputc
      r.arguments r.specifier.byte = ⟨[], 0, .len, r.numberConversion, 0, []⟩ := by
    rw [Printer.specify]
    simp only [r.conversion.specify_byte r.specifier rfl]
    rfl
  have hstep : (⟨[], 0, .len, r.conversion, 0, []⟩ : Printer (List UInt8)).step fputc r.arguments
      r.specifier.byte = .ok ⟨r.printedText, count, .normal, .initial, 1, []⟩ := by
    rw [step_eq_stepLen _ _ _ Mode.len_reads hflag hstar hdigit, stepLen, if_neg hdot]
    simp only [r.conversion.modify_none hmodify]
    rw [stepSpec, hspecify, halternate, hnumber]
    rfl
  refine ⟨count, ?_⟩
  rw [vfprintf, r.run_format, run_cons _ hzero hstep]
  rfl

end Specifier

end Printf
