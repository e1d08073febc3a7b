import FrostyOS.FormatMachine
import Mathlib.Data.List.TakeWhile

/-! # `vsnprintf` and `vfprintf` agree

The machine never looks at what was put, so the kinds of output run alike. -/
namespace Printf

open Output Printer Conversion List

variable {σ τ : Type}

def padLeftText (paddingType : Bool) : ℕ → ℤ → List UInt8
  | 0, _ => []
  | n + 1, minDigits =>
    if paddingType ∨ 0 < minDigits then
      '0'.toUInt8 :: padLeftText paddingType n (int32 (minDigits - 1))
    else ' '.toUInt8 :: padLeftText paddingType n minDigits

def uintText (minLength minDigits : ℤ) (num radix : ℕ)
    (paddingType paddingOrientation uppercase : Bool) : List UInt8 :=
  if num = 0 then
    if 1 < minLength then
      if paddingOrientation then
        let left := int32 (minLength - minDigits.toNat)
        if minDigits ≠ 0 then
          List.replicate minDigits.toNat '0'.toUInt8 ++ '0'.toUInt8 ::
            List.replicate (int32 (left - 1)).toNat (padChar paddingType)
        else
          List.replicate minDigits.toNat '0'.toUInt8 ++
            List.replicate left.toNat (padChar paddingType)
      else if minDigits ≠ 0 then
        padLeftText paddingType (int32 (minLength - 1)).toNat (int32 (minDigits - 1)) ++
          ['0'.toUInt8]
      else padLeftText paddingType minLength.toNat minDigits
    else if minDigits ≠ 0 then ['0'.toUInt8]
    else []
  else
    let buffer := digitBuffer uppercase radix 64 num
    if buffer.length < minLength then
      let left := int32 (minLength - buffer.length)
      let digits := int32 (minDigits - buffer.length)
      if paddingOrientation then
        List.replicate digits.toNat '0'.toUInt8 ++ buffer.reverse ++
          List.replicate (int32 (left - digits.toNat)).toNat (padChar paddingType)
      else padLeftText paddingType left.toNat digits ++ buffer.reverse
    else buffer.reverse

def signText (num : ℤ) (forceSign padSign : Bool) : List UInt8 :=
  if num < 0 then ['-'.toUInt8]
  else if forceSign then ['+'.toUInt8]
  else if padSign then [' '.toUInt8]
  else []

def intText (num : ℤ) (forceSign padSign : Bool) (minLength minDigits : ℤ) (radix : ℕ)
    (paddingType paddingOrientation uppercase : Bool) : List UInt8 :=
  let sign := signText num forceSign padSign
  sign ++ uintText (if sign = [] then minLength else int32 (minLength - 1)) minDigits num.natAbs
    radix paddingType paddingOrientation uppercase

section Texts

variable (put : σ → UInt8 → σ)

theorem Output.emitAll_append (text rest : List UInt8) (o : Output σ) :
    o.emitAll put (text ++ rest) = (o.emitAll put text).emitAll put rest := by
  induction text generalizing o with
  | nil => rfl
  | cons c text ih => exact ih (o.emit put c)

theorem Output.emitMany_eq (c : UInt8) (n : ℕ) (o : Output σ) :
    o.emitMany put c n = o.emitAll put (List.replicate n c) := by
  induction n generalizing o with
  | zero => rfl
  | succ n ih => exact ih (o.emit put c)

theorem Output.padLeft_eq (paddingType : Bool) (n : ℕ) (minDigits : ℤ) (o : Output σ) :
    o.padLeft put paddingType n minDigits =
      o.emitAll put (padLeftText paddingType n minDigits) := by
  induction n generalizing minDigits o with
  | zero => rfl
  | succ n ih =>
    rw [padLeft, padLeftText]
    split
    · exact ih _ _
    · exact ih _ _

theorem printUint_eq (minLength minDigits : ℤ) (num radix : ℕ)
    (paddingType paddingOrientation uppercase : Bool) (o : Output σ) :
    printUint put minLength minDigits num radix paddingType paddingOrientation uppercase o =
      o.emitAll put
        (uintText minLength minDigits num radix paddingType paddingOrientation uppercase) := by
  simp only [printUint, uintText, emitMany_eq, padLeft_eq]
  split_ifs <;> simp only [Output.emitAll_append, Output.emitAll]

theorem printInt_eq (num : ℤ) (forceSign padSign : Bool) (minLength minDigits : ℤ) (radix : ℕ)
    (paddingType paddingOrientation uppercase : Bool) (o : Output σ) :
    printInt put num forceSign padSign minLength minDigits radix paddingType paddingOrientation
        uppercase o =
      o.emitAll put (intText num forceSign padSign minLength minDigits radix paddingType
        paddingOrientation uppercase) := by
  simp only [printInt, intText, signText, printUint_eq]
  split_ifs <;> first | contradiction | rfl

theorem Output.emitAll_out (text : List UInt8) (o : Output σ) :
    (o.emitAll put text).out = text.foldl put o.out := by
  induction text generalizing o with
  | nil => rfl
  | cons c text ih => exact ih (o.emit put c)

theorem Output.emitAll_charsPrinted (text : List UInt8) (o : Output σ) :
    (o.emitAll put text).charsPrinted = o.charsPrinted + text.length := by
  induction text generalizing o with
  | nil => rfl
  | cons c text ih =>
    rw [emitAll, ih, length_cons]
    simp only [emit]
    omega

end Texts

theorem int32_of_range {x} (hlow : -2147483648 ≤ x) (hhigh : x < 2147483648) : int32 x = x := by
  rw [int32]
  exact Int.bmod_eq_of_le (by omega) (by omega)

theorem int32_add_int32 (a b : ℤ) : int32 (int32 a + b) = int32 (a + b) := by
  simp only [int32, Int.bmod_add_bmod]

def Printer.withOut (p : Printer σ) (out : τ) : Printer τ :=
  ⟨out, p.symbolsPrinted, p.mode, p.conversion, p.nextArg, p.stores⟩

theorem Printer.withOut_conversion (p : Printer σ) (out : τ) :
    (p.withOut out).conversion = p.conversion := rfl

/-- The machines differ in what was put only, and `Q` holds of that and of the count. -/
def Follows (Q : σ → ℤ → τ → Prop) (p : Printer σ) (q : Printer τ) : Prop :=
  ∃ out, q = p.withOut out ∧ Q p.out p.symbolsPrinted out

inductive Lockstep (Q : σ → ℤ → τ → Prop) :
    Except Failure (Printer σ) → Except Failure (Printer τ) → Prop where
  | error (e : Failure) : Lockstep Q (.error e) (.error e)
  | ok {p : Printer σ} {q : Printer τ} (h : Follows Q p q) : Lockstep Q (.ok p) (.ok q)

structure Stable (putσ : σ → UInt8 → σ) (putτ : τ → UInt8 → τ) (Q : σ → ℤ → τ → Prop) :
    Prop where
  put : ∀ {out n out'} (c : UInt8), Q out n out' →
    Q (putσ out c) (int32 (n + 1)) (putτ out' c)
  wrap : ∀ {out n out'}, Q out n out' → Q out (int32 n) out'

section Follows

variable {putσ : σ → UInt8 → σ} {putτ : τ → UInt8 → τ} {Q : σ → ℤ → τ → Prop}
  (hQ : Stable putσ putτ Q) (args : Arguments) {p : Printer σ} {q : Printer τ}
  (h : Follows Q p q) (text : List UInt8) (c : UInt8)

include hQ

theorem Stable.foldl {out n out'} (h : Q out n out') :
    Q (text.foldl putσ out) (int32 (n + text.length)) (text.foldl putτ out') := by
  induction text generalizing out n out' with
  | nil =>
    simp only [length_nil, Int.natCast_zero, Int.add_zero]
    exact hQ.wrap h
  | cons c text ih =>
    have hlength : n + ((c :: text).length : ℤ) = n + 1 + text.length := by
      rw [length_cons]
      omega
    rw [hlength, ← int32_add_int32]
    exact ih (hQ.put c h)

include h

theorem Follows.emit : Follows Q (p.emit putσ c) (q.emit putτ c) := by
  obtain ⟨out, rfl, hout⟩ := h
  exact ⟨_, rfl, hQ.put c hout⟩

theorem Follows.emitAll : Follows Q (p.emitAll putσ text) (q.emitAll putτ text) := by
  induction text generalizing p q with
  | nil => exact h
  | cons c text ih => exact ih (h.emit hQ c)

omit hQ in
theorem Follows.setConversion (v : Conversion) :
    Follows Q (p.setConversion v) (q.setConversion v) := by
  obtain ⟨out, rfl, hout⟩ := h
  exact ⟨out, rfl, hout⟩

omit hQ in
theorem Follows.setMode (mode : Mode) : Follows Q (p.setMode mode) (q.setMode mode) := by
  obtain ⟨out, rfl, hout⟩ := h
  exact ⟨out, rfl, hout⟩

omit hQ in
theorem Follows.takeArg : Follows Q p.takeArg q.takeArg := by
  obtain ⟨out, rfl, hout⟩ := h
  exact ⟨out, rfl, hout⟩

namespace Follows

theorem specify : Follows Q (p.specify putσ args c) (q.specify putτ args c) := by
  obtain ⟨out, rfl, hout⟩ := id h
  simp only [Printer.specify]
  rw [withOut_conversion]
  cases p.conversion.specify c with
  | some v => exact h.setConversion v
  | none =>
    simp only
    split_ifs
    · exact (h.emit hQ _).takeArg
    · exact (((h.emitAll hQ _).emitAll hQ _).setConversion _).takeArg
    · exact ⟨out, rfl, hout⟩
    · exact h.emit hQ _
    · exact h

theorem alternateForm : Follows Q (p.alternateForm putσ) (q.alternateForm putτ) := by
  obtain ⟨out, rfl, hout⟩ := id h
  simp only [Printer.alternateForm]
  rw [withOut_conversion]
  split_ifs
  · exact ((h.emit hQ _).emit hQ _).setConversion _
  · exact ((h.emit hQ _).emit hQ _).setConversion _
  · exact (h.emit hQ _).setConversion _
  · exact h
  · exact h

theorem addOutput : Follows Q (p.addOutput ((Output.mk p.out 0).emitAll putσ text))
    (q.addOutput ((Output.mk q.out 0).emitAll putτ text)) := by
  obtain ⟨out, rfl, hout⟩ := h
  refine ⟨text.foldl putτ out, ?_, ?_⟩
  · simp only [Printer.addOutput, Printer.withOut, emitAll_out, emitAll_charsPrinted]
  · simp only [Printer.addOutput, emitAll_out, emitAll_charsPrinted, Nat.zero_add]
    exact hQ.foldl text hout

theorem printNumber : Lockstep Q (p.printNumber putσ args) (q.printNumber putτ args) := by
  obtain ⟨out, rfl, hout⟩ := id h
  simp only [Printer.printNumber, printInt_eq, printUint_eq]
  rw [withOut_conversion]
  split_ifs
  · exact .error _
  · exact .ok (h.addOutput hQ _).takeArg
  · exact .ok (h.addOutput hQ _).takeArg
  · exact .ok h

theorem stepSpec : Lockstep Q (p.stepSpec putσ args c) (q.stepSpec putτ args c) := by
  rw [Printer.stepSpec, Printer.stepSpec]
  have hnumber := ((h.specify hQ args c).alternateForm hQ).printNumber hQ args
  generalize Printer.printNumber putσ args _ = r at hnumber ⊢
  generalize Printer.printNumber putτ args _ = r' at hnumber ⊢
  cases hnumber with
  | error e => exact .error e
  | ok hr =>
    obtain ⟨out, rfl, hout⟩ := hr
    exact .ok ⟨out, rfl, hout⟩

theorem stepLen : Lockstep Q (p.stepLen putσ args c) (q.stepLen putτ args c) := by
  obtain ⟨out, rfl, hout⟩ := id h
  simp only [Printer.stepLen]
  rw [withOut_conversion]
  split_ifs
  · exact .ok ⟨out, rfl, hout⟩
  · exact .error _
  · cases p.conversion.modify c with
    | some v => exact .ok ⟨out, rfl, hout⟩
    | none => exact h.stepSpec hQ args c

theorem stepPrec : Lockstep Q (p.stepPrec putσ args c) (q.stepPrec putτ args c) := by
  obtain ⟨out, rfl, -⟩ := id h
  simp only [Printer.stepPrec, withOut_conversion]
  split_ifs
  · exact .ok ((h.setConversion _).takeArg.setMode _)
  · exact .ok (h.setConversion _)
  · exact h.stepLen hQ args c

theorem stepWidth : Lockstep Q (p.stepWidth putσ args c) (q.stepWidth putτ args c) := by
  obtain ⟨out, rfl, -⟩ := id h
  simp only [Printer.stepWidth, withOut_conversion]
  split_ifs
  · exact .ok ((h.setConversion _).takeArg.setMode _)
  · exact .ok ((h.setConversion _).setMode _)
  · exact h.stepLen hQ args c

theorem stepFlags : Lockstep Q (p.stepFlags putσ args c) (q.stepFlags putτ args c) := by
  obtain ⟨out, rfl, hout⟩ := id h
  simp only [Printer.stepFlags]
  rw [withOut_conversion]
  cases p.conversion.flag c with
  | some v => exact .ok ⟨out, rfl, hout⟩
  | none => exact h.stepWidth hQ args c

theorem step : Lockstep Q (p.step putσ args c) (q.step putτ args c) := by
  obtain ⟨out, rfl, hout⟩ := id h
  simp only [Printer.step]
  rw [show (p.withOut out).mode = p.mode from rfl]
  cases p.mode with
  | normal =>
    simp only
    split_ifs
    · exact .ok ⟨out, rfl, hout⟩
    · exact .ok (h.emit hQ c)
  | flags => exact h.stepFlags hQ args c
  | width => exact h.stepWidth hQ args c
  | prec => exact h.stepPrec hQ args c
  | len => exact h.stepLen hQ args c
  | spec => exact h.stepSpec hQ args c

theorem run (format : List UInt8) :
    Lockstep Q (p.run putσ args format) (q.run putτ args format) := by
  induction format generalizing p q with
  | nil => exact .ok h
  | cons c rest ih =>
    rw [Printer.run, Printer.run]
    split_ifs
    · exact .ok h
    have hstep := h.step hQ args c
    generalize p.step putσ args c = r at hstep ⊢
    generalize q.step putτ args c = r' at hstep ⊢
    cases hstep with
    | error e => exact .error e
    | ok hr => exact ih hr

end Follows

end Follows

variable {v : Conversion} {stores : List (UInt64 × Length × ℤ)} {format text : List UInt8}
  {c : UInt8} {args : Arguments} {seen : Bool}

/-! ## Formats that run to their end

An assertion fails at a floating conversion and at a second point in one conversion; nothing
else stops the machine. Which mode a character is read in depends on the format alone. -/

def nextAfterLen (c : UInt8) : Mode :=
  if c = '.'.toUInt8 then .prec
  else if c ∈ ['h', 'l', 'j', 'z', 't', 'L'].map Char.toUInt8 then .len
  else .normal

def nextAfterWidth (c : UInt8) : Mode :=
  if c = '*'.toUInt8 then .len
  else if isDigit c then .width
  else nextAfterLen c

def nextMode (mode : Mode) (c : UInt8) : Mode :=
  match mode with
  | .normal => if c = '%'.toUInt8 then .flags else .normal
  | .flags => if c ∈ ['-', '+', ' ', '#', '0'].map Char.toUInt8 then .flags else nextAfterWidth c
  | .width => nextAfterWidth c
  | .prec =>
    if c = '*'.toUInt8 then .len else if isDigit c then .prec else nextAfterLen c
  | .len => nextAfterLen c
  | .spec => .normal

def isFloating (c : UInt8) : Bool := c ∈ ['f', 'F', 'e', 'E', 'g', 'G', 'a', 'A'].map Char.toUInt8

/-- No conversion of the format is a floating one: a conversion ends with the character that
leads back to the normal mode. -/
def floatFree (mode : Mode) : List UInt8 → Bool
  | [] => true
  | c :: rest =>
    c = 0 || (mode = .normal || nextMode mode c ≠ .normal || !isFloating c) &&
      floatFree (nextMode mode c) rest

/-- Whether the conversion that is being read after a character has had its point. -/
def pointSeen (next : Mode) (seen : Bool) (c : UInt8) : Bool :=
  next ≠ .normal && (seen || c = '.'.toUInt8)

/-- No conversion of the format has a second point. -/
def onePoint (mode : Mode) (seen : Bool) : List UInt8 → Bool
  | [] => true
  | c :: rest =>
    c = 0 || !(seen && c = '.'.toUInt8) &&
      onePoint (nextMode mode c) (pointSeen (nextMode mode c) seen c) rest

/-- What is known of a conversion that is being read: a point was seen before its precision
was set. -/
structure Conversion.Reading (v : Conversion) (seen : Bool) : Prop where
  floating : v.floating = false
  precision : seen = false → v.precision = -1

theorem Conversion.Reading.setWidth (h : v.Reading seen) (width : ℤ) :
    (v.setWidth width).Reading seen := ⟨h.floating, h.precision⟩

theorem Conversion.Reading.setPrecision (h : v.Reading seen) (precision : ℤ) :
    (v.setPrecision precision).Reading true := ⟨h.floating, fun hs => absurd hs (by decide)⟩

theorem Conversion.initial_reading : initial.Reading false := ⟨rfl, fun _ => rfl⟩

section Ends

variable (put : σ → UInt8 → σ) (args : Arguments) {p : Printer σ} {seen : Bool} {c : UInt8}

variable {v : Conversion} {mode next : Mode}

theorem Conversion.specify_floating {w} (hc : isFloating c = false) (h : v.specify c = some w) :
    w.floating = false := by
  simp only [isFloating, map_cons, map_nil, mem_cons, not_mem_nil,
    or_false, decide_eq_false_iff_not, not_or] at hc
  obtain ⟨hf, hF, he, hE, hg, hG, ha, hA⟩ := hc
  have hlower : ¬ (c = 'f'.toUInt8 ∨ c = 'e'.toUInt8 ∨ c = 'g'.toUInt8) := by
    simp only [hf, he, hg, or_self, not_false_eq_true]
  have hupper : ¬ (c = 'F'.toUInt8 ∨ c = 'E'.toUInt8 ∨ c = 'G'.toUInt8) := by
    simp only [hF, hE, hG, or_self, not_false_eq_true]
  simp only [specify, if_neg hlower, if_neg hupper, if_neg ha, if_neg hA] at h
  split_ifs at h <;> cases h <;> rfl

theorem Printer.specify_floating (h : p.conversion.floating = false) (hc : isFloating c = false) :
    (p.specify put args c).conversion.floating = false := by
  simp only [specify]
  cases hv : p.conversion.specify c with
  | some v => exact Conversion.specify_floating hc hv
  | none =>
    simp only
    split_ifs <;> exact h

theorem Printer.alternateForm_floating (q : Printer σ) :
    (q.alternateForm put).conversion.floating = q.conversion.floating := by
  simp only [alternateForm]
  split_ifs <;> rfl

theorem Printer.printNumber_ok (h : p.conversion.floating = false) :
    ∃ q, p.printNumber put args = .ok q := by
  simp only [printNumber, h, Bool.false_eq_true, if_false]
  split_ifs
  · exact ⟨_, rfl⟩
  · exact ⟨_, rfl⟩
  · exact ⟨_, rfl⟩

structure Printer.After (q : Printer σ) (mode : Mode) (seen : Bool) : Prop where
  mode_eq : q.mode = mode
  reading : q.conversion.Reading seen
  normal : mode = .normal → q.conversion = .initial

theorem Printer.After.of_reading (h : v.Reading seen) (hm : mode ≠ .normal) :
    ((p.setConversion v).setMode mode).After mode seen := ⟨rfl, h, fun hn => absurd hn hm⟩

theorem Printer.After.of_argument (h : v.Reading seen) (hm : mode ≠ .normal) :
    ((p.setConversion v).takeArg.setMode mode).After mode seen := ⟨rfl, h, fun hn => absurd hn hm⟩

theorem Printer.stepSpec_ok (h : p.conversion.floating = false) (hc : isFloating c = false) :
    ∃ q, p.stepSpec put args c = .ok q ∧ q.After .normal false := by
  have hv : ((p.specify put args c).alternateForm put).conversion.floating = false := by
    rw [alternateForm_floating]
    exact specify_floating put args h hc
  obtain ⟨r, hr⟩ := printNumber_ok put args hv
  refine ⟨(r.setConversion .initial).setMode .normal, ?_, rfl, initial_reading,
    fun _ => rfl⟩
  rw [stepSpec, hr]
  rfl

theorem Conversion.modify_none (v : Conversion)
    (hc : c ∉ ['h', 'l', 'j', 'z', 't', 'L'].map Char.toUInt8) : v.modify c = none := by
  simp only [map_cons, map_nil, mem_cons, not_mem_nil, or_false, not_or] at hc
  obtain ⟨hh, hl, hj, hz, ht, hL⟩ := hc
  simp only [modify, if_neg hh, if_neg hl, if_neg hj, if_neg hz, if_neg ht, if_neg hL]

theorem Conversion.modify_some (h : v.Reading seen)
    (hc : c ∈ ['h', 'l', 'j', 'z', 't', 'L'].map Char.toUInt8) :
    ∃ w : Conversion, v.modify c = some w ∧ w.Reading seen := by
  simp only [map_cons, map_nil, mem_cons, not_mem_nil, or_false] at hc
  rcases hc with rfl | rfl | rfl | rfl | rfl | rfl <;>
    exact ⟨_, rfl, h.floating, h.precision⟩

theorem Conversion.flag_none (v : Conversion)
    (hc : c ∉ ['-', '+', ' ', '#', '0'].map Char.toUInt8) : v.flag c = none := by
  simp only [map_cons, map_nil, mem_cons, not_mem_nil, or_false, not_or] at hc
  obtain ⟨hm, hp, hb, hx, hz⟩ := hc
  simp only [flag, if_neg hm, if_neg hp, if_neg hb, if_neg hx, if_neg hz]

theorem Conversion.flag_some (h : v.Reading seen)
    (hc : c ∈ ['-', '+', ' ', '#', '0'].map Char.toUInt8) :
    ∃ w : Conversion, v.flag c = some w ∧ w.Reading seen := by
  simp only [map_cons, map_nil, mem_cons, not_mem_nil, or_false] at hc
  rcases hc with rfl | rfl | rfl | rfl | rfl <;> exact ⟨_, rfl, h.floating, h.precision⟩

theorem pointSeen_dot (h : next ≠ .normal) (seen : Bool) : pointSeen next seen '.'.toUInt8 := by
  simp [pointSeen, h]

theorem pointSeen_other (h : next ≠ .normal) (seen : Bool) (hc : c ≠ '.'.toUInt8) :
    pointSeen next seen c = seen := by
  simp [pointSeen, h, hc]

theorem Printer.stepLen_ok (h : p.conversion.Reading seen) (hpoint : c = '.'.toUInt8 → seen = false)
    (hfloat : nextAfterLen c = .normal → isFloating c = false) :
    ∃ q, p.stepLen put args c = .ok q ∧
      q.After (nextAfterLen c) (pointSeen (nextAfterLen c) seen c) := by
  by_cases hdot : c = '.'.toUInt8
  · have hprec : p.conversion.precision = -1 := h.precision (hpoint hdot)
    have hnext : nextAfterLen c = .prec := if_pos hdot
    refine ⟨(p.setConversion (p.conversion.setPrecision 0)).setMode .prec, ?_, ?_⟩
    · simp only [stepLen, if_pos hdot, if_pos hprec]
    · rw [hnext, hdot, pointSeen_dot (by decide)]
      exact .of_reading (h.setPrecision 0) (by decide)
  · by_cases hmod : c ∈ ['h', 'l', 'j', 'z', 't', 'L'].map Char.toUInt8
    · obtain ⟨w, hw, hr⟩ := modify_some h hmod
      have hnext : nextAfterLen c = .len := by rw [nextAfterLen, if_neg hdot, if_pos hmod]
      refine ⟨(p.setConversion w).setMode .len, ?_, ?_⟩
      · simp only [stepLen, if_neg hdot, hw]
      · rw [hnext, pointSeen_other (by decide) _ hdot]
        exact .of_reading hr (by decide)
    · have hnext : nextAfterLen c = .normal := by
        rw [nextAfterLen, if_neg hdot, if_neg hmod]
      obtain ⟨q, hq, ha⟩ := stepSpec_ok put args h.floating (hfloat hnext)
      refine ⟨q, ?_, ?_⟩
      · simp only [stepLen, if_neg hdot, modify_none _ hmod]
        exact hq
      · rw [hnext]
        exact ha

theorem Printer.stepWidth_ok (h : p.conversion.Reading seen)
    (hpoint : c = '.'.toUInt8 → seen = false)
    (hfloat : nextAfterWidth c = .normal → isFloating c = false) :
    ∃ q, p.stepWidth put args c = .ok q ∧
      q.After (nextAfterWidth c) (pointSeen (nextAfterWidth c) seen c) := by
  by_cases hstar : c = '*'.toUInt8
  · have hnext : nextAfterWidth c = .len := if_pos hstar
    refine ⟨_, by rw [stepWidth, if_pos hstar], ?_⟩
    rw [hnext, pointSeen_other (by decide) _ (by rw [hstar]; decide)]
    exact .of_argument (h.setWidth _) (by decide)
  by_cases hdigit : isDigit c
  · have hnext : nextAfterWidth c = .width := by
      rw [nextAfterWidth, if_neg hstar, if_pos hdigit]
    refine ⟨_, by rw [stepWidth, if_neg hstar, if_pos hdigit], ?_⟩
    rw [hnext, pointSeen_other (by decide) _ (by rintro rfl; exact absurd hdigit (by decide))]
    exact .of_reading (h.setWidth _) (by decide)
  · have hnext : nextAfterWidth c = nextAfterLen c := by
      rw [nextAfterWidth, if_neg hstar, if_neg hdigit]
    rw [stepWidth, if_neg hstar, if_neg hdigit, hnext]
    exact stepLen_ok put args h hpoint fun hn => hfloat (hnext.trans hn)

theorem Printer.stepPrec_ok (h : p.conversion.Reading true) (hm : p.mode = .prec)
    (hpoint : c ≠ '.'.toUInt8) (hfloat : nextMode .prec c = .normal → isFloating c = false) :
    ∃ q, p.stepPrec put args c = .ok q ∧
      q.After (nextMode .prec c) (pointSeen (nextMode .prec c) true c) := by
  by_cases hstar : c = '*'.toUInt8
  · have hnext : nextMode .prec c = .len := if_pos hstar
    refine ⟨_, by rw [stepPrec, if_pos hstar], ?_⟩
    rw [hnext, pointSeen_other (by decide) _ hpoint]
    exact .of_argument (h.setPrecision _) (by decide)
  by_cases hdigit : isDigit c
  · have hnext : nextMode .prec c = .prec := by
      simp only [nextMode, if_neg hstar, if_pos hdigit]
    refine ⟨_, by rw [stepPrec, if_neg hstar, if_pos hdigit], ?_⟩
    rw [hnext, pointSeen_other (by decide) _ hpoint]
    exact ⟨hm, h.setPrecision _, fun hm => absurd hm (by decide)⟩
  · have hnext : nextMode .prec c = nextAfterLen c := by
      simp only [nextMode, if_neg hstar, if_neg hdigit]
    rw [stepPrec, if_neg hstar, if_neg hdigit, hnext]
    exact stepLen_ok put args h (fun hc => absurd hc hpoint)
      fun hn => hfloat (hnext.trans hn)

theorem Printer.stepFlags_ok (h : p.conversion.Reading seen) (hm : p.mode = .flags)
    (hpoint : c = '.'.toUInt8 → seen = false)
    (hfloat : nextMode .flags c = .normal → isFloating c = false) :
    ∃ q, p.stepFlags put args c = .ok q ∧
      q.After (nextMode .flags c) (pointSeen (nextMode .flags c) seen c) := by
  by_cases hflag : c ∈ ['-', '+', ' ', '#', '0'].map Char.toUInt8
  · obtain ⟨w, hw, hr⟩ := flag_some h hflag
    have hnext : nextMode .flags c = .flags := if_pos hflag
    have hdot : c ≠ '.'.toUInt8 := by
      rintro rfl
      exact absurd hflag (by decide)
    refine ⟨p.setConversion w, by simp only [stepFlags, hw], ?_⟩
    rw [hnext, pointSeen_other (by decide) _ hdot]
    exact ⟨hm, hr, fun hm => absurd hm (by decide)⟩
  · have hnext : nextMode .flags c = nextAfterWidth c := if_neg hflag
    simp only [stepFlags, flag_none _ hflag]
    rw [hnext]
    exact stepWidth_ok put args h hpoint fun hn => hfloat (hnext.trans hn)

theorem Printer.After.step (h : p.After mode seen) (hprec : mode = .prec → seen)
    (hnormal : mode = .normal → seen = false) (hpoint : c = '.'.toUInt8 → seen = false)
    (hfloat : mode ≠ .normal → nextMode mode c = .normal → isFloating c = false) :
    ∃ q, p.step put args c = .ok q ∧
      q.After (nextMode mode c) (pointSeen (nextMode mode c) seen c) := by
  have hmode := h.mode_eq
  cases mode with
  | normal =>
    have hs := hnormal rfl
    subst hs
    by_cases hpercent : c = '%'.toUInt8
    · refine ⟨p.setMode .flags, by simp only [step, hmode, if_pos hpercent], ?_⟩
      rw [hpercent]
      exact ⟨rfl, h.reading, fun hm => absurd hm (by decide)⟩
    · have hnext : nextMode .normal c = .normal := if_neg hpercent
      refine ⟨p.emit put c, by simp only [step, hmode, if_neg hpercent], ?_⟩
      rw [hnext]
      exact ⟨hmode, h.reading, h.normal⟩
  | flags =>
    simp only [step, hmode]
    exact stepFlags_ok put args h.reading hmode hpoint (hfloat (by decide))
  | width =>
    simp only [step, hmode]
    exact stepWidth_ok put args h.reading hpoint (hfloat (by decide))
  | prec =>
    have hs := hprec rfl
    subst hs
    simp only [step, hmode]
    exact stepPrec_ok put args h.reading hmode
      (fun hc => absurd (hpoint hc) (by decide)) (hfloat (by decide))
  | len =>
    simp only [step, hmode]
    exact stepLen_ok put args h.reading hpoint (hfloat (by decide))
  | spec =>
    simp only [step, hmode]
    exact stepSpec_ok put args h.reading.floating (hfloat (by decide) rfl)

theorem nextAfterLen_prec (h : nextAfterLen c = .prec) : c = '.'.toUInt8 := by
  simp only [nextAfterLen] at h
  split_ifs at h with hdot
  exact hdot

theorem nextMode_prec (h : nextMode mode c = .prec) : mode = .prec ∨ c = '.'.toUInt8 := by
  cases mode with
  | prec => exact .inl rfl
  | normal =>
    simp only [nextMode] at h
    split_ifs at h
  | flags =>
    simp only [nextMode, nextAfterWidth] at h
    split_ifs at h
    exact .inr (nextAfterLen_prec h)
  | width =>
    simp only [nextMode, nextAfterWidth] at h
    split_ifs at h
    exact .inr (nextAfterLen_prec h)
  | len => exact .inr (nextAfterLen_prec h)
  | spec => cases h

theorem Printer.After.run {format} (h : p.After mode seen) (hprec : mode = .prec → seen)
    (hnormal : mode = .normal → seen = false) (hfloat : floatFree mode format)
    (hpoint : onePoint mode seen format) :
    ∃ q, p.run put args format = .ok q := by
  induction format generalizing p mode seen with
  | nil => exact ⟨p, rfl⟩
  | cons c rest ih =>
    by_cases hc : c = 0
    · exact ⟨p, if_pos hc⟩
    simp only [floatFree, onePoint, hc, decide_false, Bool.false_or, Bool.and_eq_true,
      Bool.or_eq_true, Bool.not_eq_true', decide_eq_true_eq] at hfloat hpoint
    obtain ⟨q, hq, hafter⟩ := h.step put args (c := c) hprec hnormal
      (fun hdot => by simpa [hdot] using hpoint.1)
      (fun hm hn => by simpa [hm, hn] using hfloat.1)
    have hrun : p.run put args (c :: rest) = q.run put args rest := by
      rw [run, if_neg hc, hq]
      rfl
    rw [hrun]
    refine ih hafter (fun hn => ?_) (fun hn => ?_) hfloat.2 hpoint.2
    · rcases nextMode_prec hn with hm | rfl
      · simp [pointSeen, hn, hprec hm]
      · exact pointSeen_dot (by rw [hn]; decide) seen
    · simp [pointSeen, hn]

end Ends

theorem foldl_snputc (maxSize : ℕ) (text : List UInt8) (b : Buffer) (h : b.currentSize ≤ maxSize) :
    (text.foldl (snputc maxSize) b).currentSize = min maxSize (b.currentSize + text.length) ∧
      ∀ i, (text.foldl (snputc maxSize) b).s i =
        if b.currentSize ≤ i ∧ i < min maxSize (b.currentSize + text.length) then
          text.getD (i - b.currentSize) 0
        else b.s i := by
  induction text generalizing b with
  | nil =>
    refine ⟨(Nat.min_eq_right h).symm, fun i => (if_neg ?_).symm⟩
    rw [length_nil]
    omega
  | cons c text ih =>
    rw [foldl_cons, snputc]
    by_cases hroom : b.currentSize < maxSize
    · rw [if_pos hroom]
      obtain ⟨hsize, hs⟩ := ih ⟨Function.update b.s b.currentSize c, b.currentSize + 1⟩ hroom
      simp only [length_cons] at hsize hs ⊢
      refine ⟨by omega, fun i => ?_⟩
      rw [hs i]
      rcases Nat.lt_trichotomy i b.currentSize with hi | hi | hi
      · rw [if_neg (by omega), if_neg (by omega), Function.update_of_ne (by omega)]
      · rw [if_neg (by omega), if_pos (by omega), hi, Function.update_self, Nat.sub_self]
        rfl
      · rw [show i - b.currentSize = (i - (b.currentSize + 1)) + 1 by omega,
          Function.update_of_ne (by omega)]
        simp only [getD_cons_succ]
        congr 1
        simp only [eq_iff_iff]
        omega
    · rw [if_neg hroom]
      obtain ⟨hsize, hs⟩ := ih b h
      simp only [length_cons] at hsize hs ⊢
      refine ⟨by omega, fun i => ?_⟩
      rw [hs i, if_neg (by omega), if_neg (by omega)]

def terminated (s : ℕ → UInt8) (n : ℕ) (text : List UInt8) (i : ℕ) : UInt8 :=
  if i < min (n - 1) text.length then text.getD i 0
  else if i = min (n - 1) text.length then 0
  else s i

theorem snputc_terminated (s : ℕ → UInt8) (n : ℕ) (text : List UInt8) (hn : 1 ≤ n)
    (hlt : n < 2 ^ 64) :
    (snputc sizeMax (text.foldl (snputc (n - 1)) ⟨s, 0⟩) 0).s = terminated s n text := by
  obtain ⟨hsize, hs⟩ := foldl_snputc (n - 1) text ⟨s, 0⟩ (Nat.zero_le _)
  simp only [Nat.zero_add, Nat.zero_le, true_and, Nat.sub_zero] at hsize hs
  have hroom : (text.foldl (snputc (n - 1)) ⟨s, 0⟩).currentSize < sizeMax := by
    rw [hsize, sizeMax]
    omega
  funext i
  rw [snputc, if_pos hroom]
  simp only [terminated, hsize]
  by_cases hi : i = min (n - 1) text.length
  · rw [hi, Function.update_self, if_neg (Nat.lt_irrefl _), if_pos rfl]
  · rw [Function.update_of_ne hi, hs i, if_neg hi]

theorem foldl_fputc (text out : List UInt8) : text.foldl fputc out = out ++ text := by
  induction text generalizing out with
  | nil => exact (append_nil out).symm
  | cons c text ih =>
    rw [foldl_cons, ih, fputc, append_assoc]
    rfl

/-- The list that was collected, its length and the buffer it was stored in. -/
def Collected (maxSize : ℕ) (b : Buffer) (out : List UInt8) (n : ℤ) (b' : Buffer) : Prop :=
  n = int32 out.length ∧ b' = out.foldl (snputc maxSize) b

theorem collected_stable (maxSize : ℕ) (b : Buffer) :
    Stable fputc (snputc maxSize) (Collected maxSize b) where
  put := by
    intro out n b' c h
    refine ⟨?_, ?_⟩
    · rw [h.1, int32_add_int32, fputc, length_append]
      rfl
    · rw [h.2, fputc, foldl_append]
      rfl
  wrap := by
    intro out n b' h
    refine ⟨?_, h.2⟩
    have hzero := int32_add_int32 out.length 0
    rw [Int.add_zero, Int.add_zero] at hzero
    rw [h.1, hzero]

theorem collected_run (format : List UInt8) (args : Arguments) (s : ℕ → UInt8) (maxSize : ℕ) :
    Lockstep (Collected maxSize ⟨s, 0⟩) ((initial []).run fputc args format)
      ((initial ⟨s, 0⟩).run (snputc maxSize) args format) :=
  have hzero : (0 : ℤ) = int32 0 := (int32_of_range (by decide) (by decide)).symm
  Follows.run (collected_stable maxSize ⟨s, 0⟩) args ⟨⟨s, 0⟩, rfl, hzero, rfl⟩ format

theorem vsnprintf_of_vfprintf {rc} (h : vfprintf format args = .ok (text, rc, stores))
    (s : ℕ → UInt8) (n : ℕ) (hn : 1 ≤ n) (hlt : n < 2 ^ 64) :
    vsnprintf s n format args = .ok (terminated s n text, rc, stores) := by
  have hrun := collected_run format args s (n - 1)
  rw [vfprintf] at h
  rw [vsnprintf, MachineWord.subWord_of_le hlt hn]
  generalize (initial []).run fputc args format = r at h hrun
  generalize (initial (⟨s, 0⟩ : Buffer)).run (snputc (n - 1)) args format = r' at hrun ⊢
  cases hrun with
  | error e => cases h
  | @ok p q hq =>
    obtain ⟨out, rfl, -, rfl⟩ := hq
    cases h
    exact congrArg (fun memory => Except.ok (memory, p.symbolsPrinted, p.stores))
      (snputc_terminated s n p.out hn hlt)

theorem vfprintf_counts {rc} (h : vfprintf format args = .ok (text, rc, stores)) :
    rc = int32 text.length := by
  have hrun := collected_run format args (fun _ => 0) 0
  rw [vfprintf] at h
  generalize (initial []).run fputc args format = r at h hrun
  generalize (initial (⟨fun _ => 0, 0⟩ : Buffer)).run (snputc 0) args format = r' at hrun
  cases hrun with
  | error e => cases h
  | ok hq =>
    obtain ⟨out, -, hcount, -⟩ := hq
    cases h
    exact hcount

/-- **Agreement.** For a format without floating conversions in which no conversion has a
second point, `vfprintf` returns the number of characters it emits, and `vsnprintf` returns
the same, stores as many of them as fit and a termination, and nothing else. The result is an
`int`: it is the number itself below `2 ^ 31`. -/
theorem vsnprintf_agrees_vfprintf (format : List UInt8) (args : Arguments)
    (hfloat : floatFree .normal format = true) (hpoint : onePoint .normal false format = true) :
    ∃ (text : List UInt8) (rc : ℤ) (stores : List (UInt64 × Length × ℤ)),
      vfprintf format args = .ok (text, rc, stores) ∧
      rc = int32 text.length ∧ (text.length < 2 ^ 31 → rc = text.length) ∧
      ∀ (s : ℕ → UInt8) (n : ℕ), 1 ≤ n → n < 2 ^ 64 →
        vsnprintf s n format args = .ok (terminated s n text, rc, stores) := by
  have hstart : (initial ([] : List UInt8)).After .normal false :=
    ⟨rfl, initial_reading, fun _ => rfl⟩
  obtain ⟨p, hp⟩ := hstart.run fputc args (fun h => absurd h (by decide)) (fun _ => rfl) hfloat
    hpoint
  have hf : vfprintf format args = .ok (p.out, p.symbolsPrinted, p.stores) := by
    rw [vfprintf, hp]
    rfl
  have hcount := vfprintf_counts hf
  refine ⟨p.out, p.symbolsPrinted, p.stores, hf, hcount, fun hlt => ?_,
    fun s n hn hlt => vsnprintf_of_vfprintf hf s n hn hlt⟩
  rw [hcount]
  exact int32_of_range (by omega) (by omega)

def plainFormat : List UInt8 := ['%', '-', '4', 'u', '|', '%', 's'].map Char.toUInt8

def plainArguments : Arguments :=
  ⟨fun i => if i = 0 then 5 else 0, fun _ => ['o', 'k'].map Char.toUInt8⟩

theorem vsnprintf_agrees_vfprintf_plain :
    floatFree .normal plainFormat = true ∧ onePoint .normal false plainFormat = true ∧
    ∃ (text : List UInt8) (rc : ℤ) (stores : List (UInt64 × Length × ℤ)),
      vfprintf plainFormat plainArguments = .ok (text, rc, stores) ∧
      rc = int32 text.length ∧ (text.length < 2 ^ 31 → rc = text.length) ∧
      ∀ (s : ℕ → UInt8) (n : ℕ), 1 ≤ n → n < 2 ^ 64 →
        vsnprintf s n plainFormat plainArguments = .ok (terminated s n text, rc, stores) :=
  ⟨by decide, by decide,
    vsnprintf_agrees_vfprintf plainFormat plainArguments (by decide) (by decide)⟩

/-- `%.1.1d`: no floating conversion, but a second precision. -/
def twoPoints : List UInt8 := ['%', '.', '1', '.', '1', 'd'].map Char.toUInt8

theorem second_point_asserts :
    floatFree .normal twoPoints = true ∧
      vfprintf twoPoints plainArguments = .error .assertion := by
  constructor
  · decide
  · decide +kernel

end Printf
