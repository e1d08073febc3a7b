import FrostyOS.MachineWord
import Mathlib.Data.Int.Init

/-! # The format machines of `stdio.cpp`

`vfprintf` and `vsnprintf` of the kernel, and `vsnprintf` of LibC, are one text that differs in
where a character goes. Arguments are the 64-bit slots of the `va_list`. -/
namespace Printf

def int32 (x : ℤ) : ℤ := Int.bmod x (2 ^ 32)

/-- The slots of the `va_list` in order, and the bytes a pointer in one of them points to. -/
structure Arguments where
  slot : ℕ → UInt64
  pointee : UInt64 → List UInt8

namespace Arguments

variable (args : Arguments) (i : ℕ)

def int : ℤ := int32 (args.slot i).toNat

def unsigned : ℕ := (args.slot i).toNat % 2 ^ 32

def long : ℤ := Int.bmod (args.slot i).toNat (2 ^ 64)

def unsignedLong : ℕ := (args.slot i).toNat

/-- The low byte of a promoted `char`. -/
def char : UInt8 := UInt8.ofNat (args.slot i).toNat

def string : List UInt8 := (args.pointee (args.slot i)).takeWhile (· ≠ 0)

end Arguments

structure Output (σ : Type) where
  out : σ
  charsPrinted : ℕ

section Output

variable {σ : Type} (put : σ → UInt8 → σ)

def Output.emit (o : Output σ) (c : UInt8) : Output σ := ⟨put o.out c, o.charsPrinted + 1⟩

def Output.emitMany (c : UInt8) : ℕ → Output σ → Output σ
  | 0, o => o
  | n + 1, o => emitMany c n (o.emit put c)

def Output.emitAll : List UInt8 → Output σ → Output σ
  | [], o => o
  | c :: rest, o => emitAll rest (o.emit put c)

/-- The loop that pads on the left: zeros while `min_digits` lasts, blanks after that. -/
def Output.padLeft (paddingType : Bool) : ℕ → ℤ → Output σ → Output σ
  | 0, _, o => o
  | n + 1, minDigits, o =>
    if paddingType ∨ 0 < minDigits then
      padLeft paddingType n (int32 (minDigits - 1)) (o.emit put '0'.toUInt8)
    else padLeft paddingType n minDigits (o.emit put ' '.toUInt8)

def hexCharsLower : List UInt8 :=
  ['0', '1', '2', '3', '4', '5', '6', '7', '8', '9', 'a', 'b', 'c', 'd', 'e', 'f'].map Char.toUInt8

def hexCharsUpper : List UInt8 :=
  ['0', '1', '2', '3', '4', '5', '6', '7', '8', '9', 'A', 'B', 'C', 'D', 'E', 'F'].map Char.toUInt8

def hexChar (uppercase : Bool) (rem : ℕ) : UInt8 :=
  if uppercase then hexCharsUpper.getD rem 0 else hexCharsLower.getD rem 0

def digitBuffer (uppercase : Bool) (radix : ℕ) : ℕ → ℕ → List UInt8
  | 0, _ => []
  | room + 1, num =>
    hexChar uppercase (num % radix) ::
      if 0 < num / radix then digitBuffer uppercase radix room (num / radix) else []

def padChar (paddingType : Bool) : UInt8 := if paddingType then '0'.toUInt8 else ' '.toUInt8

/-- `fprintf_uint` and `snprintf_uint`; `paddingOrientation` is true for padding on the
right. -/
def printUint (minLength minDigits : ℤ) (num radix : ℕ)
    (paddingType paddingOrientation uppercase : Bool) (o : Output σ) : Output σ :=
  if num = 0 then
    if 1 < minLength then
      if paddingOrientation then
        let zeros := o.emitMany put '0'.toUInt8 minDigits.toNat
        let left := int32 (minLength - minDigits.toNat)
        if minDigits ≠ 0 then
          (zeros.emit put '0'.toUInt8).emitMany put (padChar paddingType) (int32 (left - 1)).toNat
        else zeros.emitMany put (padChar paddingType) left.toNat
      else if minDigits ≠ 0 then
        (o.padLeft put paddingType (int32 (minLength - 1)).toNat (int32 (minDigits - 1))).emit put
          '0'.toUInt8
      else o.padLeft put paddingType minLength.toNat minDigits
    else if minDigits ≠ 0 then o.emit put '0'.toUInt8
    else o
  else
    let buffer := digitBuffer uppercase radix 64 num
    if buffer.length < minLength then
      let left := int32 (minLength - buffer.length)
      let digits := int32 (minDigits - buffer.length)
      if paddingOrientation then
        let zeros := o.emitMany put '0'.toUInt8 digits.toNat
        (zeros.emitAll put buffer.reverse).emitMany put (padChar paddingType)
          (int32 (left - digits.toNat)).toNat
      else (o.padLeft put paddingType left.toNat digits).emitAll put buffer.reverse
    else o.emitAll put buffer.reverse

/-- `fprintf_int` and `snprintf_int`. The magnitude of the least number is right too:
negating it gives the same word. -/
def printInt (num : ℤ) (forceSign padSign : Bool) (minLength minDigits : ℤ) (radix : ℕ)
    (paddingType paddingOrientation uppercase : Bool) (o : Output σ) : Output σ :=
  if num < 0 then
    printUint put (int32 (minLength - 1)) minDigits num.natAbs radix paddingType
      paddingOrientation uppercase (o.emit put '-'.toUInt8)
  else if forceSign then
    printUint put (int32 (minLength - 1)) minDigits num.natAbs radix paddingType
      paddingOrientation uppercase (o.emit put '+'.toUInt8)
  else if padSign then
    printUint put (int32 (minLength - 1)) minDigits num.natAbs radix paddingType
      paddingOrientation uppercase (o.emit put ' '.toUInt8)
  else
    printUint put minLength minDigits num.natAbs radix paddingType paddingOrientation uppercase o

end Output

inductive Mode where
  | normal
  | flags
  | width
  | prec
  | len
  | spec
  deriving DecidableEq, Repr

inductive Length where
  | char
  | short
  | normal
  | long
  | longLong
  | intmax
  | sizet
  | ptrdifft
  | ldoub
  deriving DecidableEq, Repr

structure Conversion where
  radix : ℕ
  len : Length
  sign : Bool
  leftJustify : Bool
  forceSign : Bool
  addBlank : Bool
  flagsExtra : Bool
  zeroPad : Bool
  number : Bool
  upper : Bool
  floating : Bool
  width : ℤ
  precision : ℤ
  deriving DecidableEq, Repr

def Conversion.initial : Conversion :=
  ⟨10, .normal, false, false, false, false, false, false, false, false, false, 0, -1⟩

def Conversion.setWidth (v : Conversion) (width : ℤ) : Conversion := { v with width := width }

def Conversion.setPrecision (v : Conversion) (precision : ℤ) : Conversion :=
  { v with precision := precision }

structure Printer (σ : Type) where
  out : σ
  symbolsPrinted : ℤ
  mode : Mode
  conversion : Conversion
  /-- how many slots of the `va_list` were taken -/
  nextArg : ℕ
  /-- the stores of `%n`: where, of which type, what -/
  stores : List (UInt64 × Length × ℤ)

inductive Failure where
  | assertion
  deriving DecidableEq, Repr

section Printer

variable {σ : Type} (put : σ → UInt8 → σ) (args : Arguments)

def Printer.initial (out : σ) : Printer σ := ⟨out, 0, .normal, .initial, 0, []⟩

def Printer.setMode (p : Printer σ) (mode : Mode) : Printer σ := { p with mode := mode }

def Printer.setConversion (p : Printer σ) (conversion : Conversion) : Printer σ :=
  { p with conversion := conversion }

def Printer.takeArg (p : Printer σ) : Printer σ := { p with nextArg := p.nextArg + 1 }

def Printer.emit (p : Printer σ) (c : UInt8) : Printer σ :=
  { p with out := put p.out c, symbolsPrinted := int32 (p.symbolsPrinted + 1) }

def Printer.emitAll : List UInt8 → Printer σ → Printer σ
  | [], p => p
  | c :: rest, p => emitAll rest (p.emit put c)

def isDigit (c : UInt8) : Bool := '0'.toUInt8 ≤ c && c ≤ '9'.toUInt8

def Conversion.setNumber (v : Conversion) (radix : ℕ) (sign upper floating : Bool) : Conversion :=
  { v with radix := radix, number := true, sign := sign, upper := upper, floating := floating }

/-- The letters that print a number; `d`, `i`, `u` and `o` leave `upper` as it is. -/
def Conversion.specify (v : Conversion) (c : UInt8) : Option Conversion :=
  if c = 'd'.toUInt8 ∨ c = 'i'.toUInt8 then some (v.setNumber 10 true v.upper false)
  else if c = 'u'.toUInt8 then some (v.setNumber 10 false v.upper false)
  else if c = 'o'.toUInt8 then some (v.setNumber 8 false v.upper false)
  else if c = 'p'.toUInt8 then
    some { v.setNumber 16 false false false with
      len := if v.len = .normal then .long else v.len }
  else if c = 'x'.toUInt8 then some (v.setNumber 16 false false false)
  else if c = 'X'.toUInt8 then some (v.setNumber 16 false true false)
  else if c = 'f'.toUInt8 ∨ c = 'e'.toUInt8 ∨ c = 'g'.toUInt8 then
    some (v.setNumber 10 true false true)
  else if c = 'F'.toUInt8 ∨ c = 'E'.toUInt8 ∨ c = 'G'.toUInt8 then
    some (v.setNumber 10 true true true)
  else if c = 'a'.toUInt8 then some (v.setNumber 16 true false true)
  else if c = 'A'.toUInt8 then some (v.setNumber 16 true true true)
  else none

/-- `%s`: the string up to a positive precision, blanks behind it up to the width. -/
def Printer.printString (p : Printer σ) (str : List UInt8) : Printer σ :=
  let shown := if 0 < p.conversion.precision then str.take p.conversion.precision.toNat else str
  let width := int32 (p.conversion.width - shown.length)
  (p.emitAll put shown).emitAll put (List.replicate width.toNat ' '.toUInt8)
    |>.setConversion (p.conversion.setWidth width)

def Printer.specify (p : Printer σ) (c : UInt8) : Printer σ :=
  match p.conversion.specify c with
  | some conversion => p.setConversion conversion
  | none =>
    if c = 'c'.toUInt8 then (p.emit put (args.char p.nextArg)).takeArg
    else if c = 's'.toUInt8 then
      (p.printString put (args.string p.nextArg)).takeArg
    else if c = 'n'.toUInt8 then
      { p with
        nextArg := p.nextArg + 1
        stores := p.stores ++ [(args.slot p.nextArg, p.conversion.len, p.symbolsPrinted)] }
    else if c = '%'.toUInt8 then p.emit put '%'.toUInt8
    else p

def Printer.alternateForm (p : Printer σ) : Printer σ :=
  if p.conversion.flagsExtra then
    if p.conversion.radix = 16 then
      (p.emit put '0'.toUInt8).emit put
          (if p.conversion.upper then 'X'.toUInt8 else 'x'.toUInt8)
        |>.setConversion (p.conversion.setWidth (max (int32 (p.conversion.width - 2)) 0))
    else if p.conversion.radix = 8 then
      (p.emit put '0'.toUInt8).setConversion
        (p.conversion.setWidth (max (int32 (p.conversion.width - 1)) 0))
    else p
  else p

def signedArgument (len : Length) (i : ℕ) : ℤ :=
  match len with
  | .long | .longLong | .intmax | .sizet | .ptrdifft => args.long i
  | .char | .short | .normal | .ldoub => args.int i

def unsignedArgument (len : Length) (i : ℕ) : ℕ :=
  match len with
  | .long | .longLong | .intmax | .sizet | .ptrdifft => args.unsignedLong i
  | .char | .short | .normal | .ldoub => args.unsigned i

def Printer.addOutput (p : Printer σ) (o : Output σ) : Printer σ :=
  { p with out := o.out, symbolsPrinted := int32 (p.symbolsPrinted + o.charsPrinted) }

def Printer.printNumber (p : Printer σ) : Except Failure (Printer σ) :=
  let v := p.conversion
  if v.number then
    if v.floating then .error .assertion
    else if v.sign then
      .ok (p.addOutput (printInt put (signedArgument args v.len p.nextArg) v.forceSign v.addBlank
        (max v.width v.precision) v.precision v.radix v.zeroPad v.leftJustify v.upper
        ⟨p.out, 0⟩)).takeArg
    else
      .ok (p.addOutput (printUint put (max v.width v.precision) v.precision
        (unsignedArgument args v.len p.nextArg) v.radix v.zeroPad v.leftJustify v.upper
        ⟨p.out, 0⟩)).takeArg
  else .ok p

def Printer.stepSpec (p : Printer σ) (c : UInt8) : Except Failure (Printer σ) :=
  (((p.specify put args c).alternateForm put).printNumber put args).map fun q =>
    (q.setConversion .initial).setMode .normal

def Conversion.modify (v : Conversion) (c : UInt8) : Option Conversion :=
  if c = 'h'.toUInt8 then some { v with len := if v.len = .short then .char else .short }
  else if c = 'l'.toUInt8 then some { v with len := if v.len = .long then .longLong else .long }
  else if c = 'j'.toUInt8 then some { v with len := .intmax }
  else if c = 'z'.toUInt8 then some { v with len := .sizet }
  else if c = 't'.toUInt8 then some { v with len := .ptrdifft }
  else if c = 'L'.toUInt8 then some { v with len := .ldoub }
  else none

/-- A mode that does not take the character hands it to the next one. -/
def Printer.stepLen (p : Printer σ) (c : UInt8) : Except Failure (Printer σ) :=
  if c = '.'.toUInt8 then
    if p.conversion.precision = -1 then
      .ok ((p.setConversion (p.conversion.setPrecision 0)).setMode .prec)
    else .error .assertion
  else
    match p.conversion.modify c with
    | some conversion => .ok ((p.setConversion conversion).setMode .len)
    | none => p.stepSpec put args c

def Printer.stepPrec (p : Printer σ) (c : UInt8) : Except Failure (Printer σ) :=
  if c = '*'.toUInt8 then
    .ok ((p.setConversion (p.conversion.setPrecision (args.int p.nextArg))).takeArg.setMode .len)
  else if isDigit c then
    .ok (p.setConversion (p.conversion.setPrecision
      (int32 (p.conversion.precision * 10 + (c.toNat - 48 : ℕ)))))
  else p.stepLen put args c

def Printer.stepWidth (p : Printer σ) (c : UInt8) : Except Failure (Printer σ) :=
  if c = '*'.toUInt8 then
    .ok ((p.setConversion (p.conversion.setWidth (args.int p.nextArg))).takeArg.setMode .len)
  else if isDigit c then
    .ok ((p.setConversion (p.conversion.setWidth
      (int32 (p.conversion.width * 10 + (c.toNat - 48 : ℕ))))).setMode .width)
  else p.stepLen put args c

def Conversion.flag (v : Conversion) (c : UInt8) : Option Conversion :=
  if c = '-'.toUInt8 then some { v with leftJustify := true }
  else if c = '+'.toUInt8 then some { v with forceSign := true }
  else if c = ' '.toUInt8 then some { v with addBlank := true }
  else if c = '#'.toUInt8 then some { v with flagsExtra := true }
  else if c = '0'.toUInt8 then some { v with zeroPad := true }
  else none

def Printer.stepFlags (p : Printer σ) (c : UInt8) : Except Failure (Printer σ) :=
  match p.conversion.flag c with
  | some conversion => .ok (p.setConversion conversion)
  | none => p.stepWidth put args c

def Printer.step (p : Printer σ) (c : UInt8) : Except Failure (Printer σ) :=
  match p.mode with
  | .normal =>
    if c = '%'.toUInt8 then .ok (p.setMode .flags) else .ok (p.emit put c)
  | .flags => p.stepFlags put args c
  | .width => p.stepWidth put args c
  | .prec => p.stepPrec put args c
  | .len => p.stepLen put args c
  | .spec => p.stepSpec put args c

def Printer.run (p : Printer σ) : List UInt8 → Except Failure (Printer σ)
  | [] => .ok p
  | c :: rest => if c = 0 then .ok p else (p.step put args c).bind fun q => q.run rest

end Printer

/-- `internal_fputc`: every one-byte write emits its byte. -/
def fputc (out : List UInt8) (c : UInt8) : List UInt8 := out ++ [c]

def vfprintf (format : List UInt8) (args : Arguments) :
    Except Failure (List UInt8 × ℤ × List (UInt64 × Length × ℤ)) :=
  ((Printer.initial []).run fputc args format).map fun p => (p.out, p.symbolsPrinted, p.stores)

structure Buffer where
  s : ℕ → UInt8
  currentSize : ℕ

def snputc (maxSize : ℕ) (b : Buffer) (c : UInt8) : Buffer :=
  if b.currentSize < maxSize then ⟨Function.update b.s b.currentSize c, b.currentSize + 1⟩ else b

def sizeMax : ℕ := 2 ^ 64 - 1

def vsnprintf (s : ℕ → UInt8) (n : ℕ) (format : List UInt8) (args : Arguments) :
    Except Failure ((ℕ → UInt8) × ℤ × List (UInt64 × Length × ℤ)) :=
  ((Printer.initial ⟨s, 0⟩).run (snputc (MachineWord.subWord n 1)) args format).map fun p =>
    ((snputc sizeMax p.out 0).s, p.symbolsPrinted, p.stores)

end Printf
