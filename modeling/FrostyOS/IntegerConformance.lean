import FrostyOS.IntegerFormat

/-! # When an integer conversion is what the C standard asks for

The text of the machine and that of the standard are both a mark, zeros, digits and
padding. -/
namespace Printf

open List

variable (upper zero : Bool) (f n : ℕ) (minDigits : ℤ)

theorem digitBuffer_eq {radix : ℕ} (hradix : 2 ≤ radix) (room : ℕ) {num : ℕ} (hpos : 0 < num)
    (hlt : num < radix ^ room) :
    digitBuffer upper radix room num = (Nat.digits radix num).map (hexChar upper) := by
  induction room generalizing num with
  | zero =>
    rw [Nat.pow_zero] at hlt
    omega
  | succ room ih =>
    rw [digitBuffer, Nat.digits_def' (by omega) hpos, map_cons]
    congr 1
    have hdiv : num / radix < radix ^ room := by
      rw [Nat.div_lt_iff_lt_mul (by omega), ← pow_succ]
      exact hlt
    split
    · next h => exact ih h hdiv
    · next h =>
      rw [Nat.eq_zero_of_not_pos h, Nat.digits_zero, map_nil]

theorem digitBuffer_length_le (radix room num : ℕ) :
    (digitBuffer upper radix room num).length ≤ room := by
  induction room generalizing num with
  | zero => exact le_rfl
  | succ room ih =>
    rw [digitBuffer, length_cons]
    have hrest := ih (num / radix)
    split
    · omega
    · exact Nat.succ_le_succ (Nat.zero_le _)

/-- The padding on the left in front of a number: zeros up to the precision, then blanks. -/
def leftPad (zero : Bool) (n z : ℕ) : List UInt8 :=
  if zero then replicate n '0'.toUInt8
  else replicate (min n z) '0'.toUInt8 ++ replicate (n - z) ' '.toUInt8

theorem padLeftText_zero : padLeftText true n minDigits = replicate n '0'.toUInt8 := by
  induction n generalizing minDigits with
  | zero => rfl
  | succ n ih => rw [padLeftText, if_pos (.inl rfl), ih, replicate_succ]

theorem padLeftText_blank (hlt : minDigits < 2 ^ 31) :
    padLeftText false n minDigits = replicate (min n minDigits.toNat) '0'.toUInt8 ++
        replicate (n - minDigits.toNat) ' '.toUInt8 := by
  induction n generalizing minDigits with
  | zero => simp [padLeftText]
  | succ n ih =>
    by_cases hpos : 0 < minDigits
    · have hsub : int32 (minDigits - 1) = minDigits - 1 := int32_of_range (by omega) (by omega)
      have hmin : min (n + 1) minDigits.toNat = min n (minDigits - 1).toNat + 1 := by omega
      have hleft : n + 1 - minDigits.toNat = n - (minDigits - 1).toNat := by omega
      rw [padLeftText, if_pos (.inr hpos), hsub, ih _ (by omega), hmin, hleft,
        replicate_succ, cons_append]
    · have hnat : minDigits.toNat = 0 := by omega
      have hnot : ¬ ((false : Bool) ∨ 0 < minDigits) := by
        rintro (h | h)
        · exact Bool.false_ne_true h
        · exact hpos h
      rw [padLeftText, if_neg hnot, ih _ hlt, hnat]
      simp only [Nat.min_zero, replicate_zero, nil_append, Nat.sub_zero, replicate_succ]

theorem padLeftText_eq (hlt : minDigits < 2 ^ 31) :
    padLeftText zero n minDigits = leftPad zero n minDigits.toNat := by
  cases zero with
  | true => exact padLeftText_zero n minDigits
  | false => exact padLeftText_blank n minDigits hlt

/-- A number with its zeros and its padding, when `n` characters are missing to the length
and `z` of them to the precision. -/
def layout (zero left : Bool) (n z : ℕ) (shown : List UInt8) : List UInt8 :=
  if left then
    if n = 0 then shown
    else replicate z '0'.toUInt8 ++ shown ++ replicate (n - z) (padChar zero)
  else leftPad zero n z ++ shown

section UintText

variable {minLength minDigits : ℤ} (radix : ℕ) (zero left upper : Bool)

theorem uintText_pos {num : ℕ} (hnum : num ≠ 0) (hlength : -1 ≤ minLength)
    (hlength_lt : minLength < 2 ^ 31) (hdigits : -1 ≤ minDigits) (hdigits_lt : minDigits < 2 ^ 31) :
    uintText minLength minDigits num radix zero left upper =
      layout zero left (minLength - (digitBuffer upper radix 64 num).length).toNat
        (minDigits - (digitBuffer upper radix 64 num).length).toNat
        (digitBuffer upper radix 64 num).reverse := by
  have hbuffer := digitBuffer_length_le upper radix 64 num
  rw [uintText, if_neg hnum, layout]
  generalize digitBuffer upper radix 64 num = buffer at hbuffer ⊢
  have hleft : int32 (minLength - buffer.length) = minLength - buffer.length :=
    int32_of_range (by omega) (by omega)
  have hd : int32 (minDigits - buffer.length) = minDigits - buffer.length :=
    int32_of_range (by omega) (by omega)
  simp only [hleft, hd]
  by_cases hshort : buffer.length < minLength
  · rw [if_pos hshort]
    cases left with
    | true =>
      have hn : (minLength - buffer.length).toNat ≠ 0 := by omega
      have hrest : int32 (minLength - buffer.length - (minDigits - buffer.length).toNat) =
          minLength - buffer.length - (minDigits - buffer.length).toNat :=
        int32_of_range (by omega) (by omega)
      rw [if_pos rfl, if_pos rfl, if_neg hn, hrest]
      congr 2
      omega
    | false =>
      rw [if_neg Bool.false_ne_true, if_neg Bool.false_ne_true, padLeftText_eq zero _ _ (by omega)]
  · have hn : (minLength - buffer.length).toNat = 0 := by omega
    rw [if_neg hshort, hn]
    cases left with
    | true => rfl
    | false => cases zero <;> simp [leftPad]

theorem uintText_zero (hlength : -1 ≤ minLength) (hlength_lt : minLength < 2 ^ 31)
    (hdigits : -1 ≤ minDigits) (hdigits_lt : minDigits < 2 ^ 31) (hne : minDigits ≠ 0)
    (hleft : left → minDigits = -1) :
    uintText minLength minDigits 0 radix zero left upper =
      layout zero left (minLength - 1).toNat (minDigits - 1).toNat ['0'.toUInt8] := by
  have hlen : int32 (minLength - 1) = minLength - 1 := int32_of_range (by omega) (by omega)
  have hd : int32 (minDigits - 1) = minDigits - 1 := int32_of_range (by omega) (by omega)
  rw [uintText, if_pos rfl, layout]
  by_cases hlong : 1 < minLength
  · rw [if_pos hlong]
    cases left with
    | true =>
      have hminus := hleft rfl
      have hn : (minLength - 1).toNat ≠ 0 := by omega
      subst hminus
      have hsub : int32 (minLength - ((-1 : ℤ).toNat : ℕ)) = minLength := by
        have hnat : (-1 : ℤ).toNat = 0 := rfl
        rw [hnat, Nat.cast_zero, Int.sub_zero]
        exact int32_of_range (by omega) (by omega)
      simp only [if_true, if_neg hn, hsub, hlen, if_pos hne]
      rfl
    | false =>
      rw [if_neg Bool.false_ne_true, if_neg Bool.false_ne_true, if_pos hne, hlen, hd,
        padLeftText_eq zero _ _ (by omega)]
  · have hn : (minLength - 1).toNat = 0 := by omega
    rw [if_neg hlong, if_pos hne, hn]
    cases left with
    | true => rfl
    | false => cases zero <;> simp [leftPad]

theorem uintText_zero_left (hlength_lt : minLength < 2 ^ 31) (p : ℕ) (hp : (p : ℤ) + 1 ≤ 2 ^ 31)
    (hpos : 0 < p) :
    uintText minLength p 0 radix zero true upper =
      if 1 < minLength then
        replicate (p + 1) '0'.toUInt8 ++
          replicate (minLength - p - 1).toNat (padChar zero)
      else ['0'.toUInt8] := by
  have hne : (p : ℤ) ≠ 0 := by omega
  rw [uintText, if_pos rfl]
  by_cases hlong : 1 < minLength
  · have hsub : int32 (minLength - p) = minLength - p := int32_of_range (by omega) (by omega)
    have hone : int32 (minLength - p - 1) = minLength - p - 1 :=
      int32_of_range (by omega) (by omega)
    simp only [if_pos hlong, if_true, Int.toNat_natCast, hsub, hone, if_pos hne,
      replicate_succ', append_assoc, singleton_append]
  · rw [if_neg hlong, if_neg hlong, if_pos hne]

theorem uintText_zero_none (hlength_lt : minLength < 2 ^ 31) :
    uintText minLength 0 0 radix zero left upper =
      if 1 < minLength then replicate minLength.toNat (padChar zero) else [] := by
  rw [uintText, if_pos rfl]
  by_cases hlong : 1 < minLength
  · have hsub : int32 (minLength - ((0 : ℤ).toNat : ℕ)) = minLength := by
      have hnat : (0 : ℤ).toNat = 0 := rfl
      rw [hnat, Nat.cast_zero, Int.sub_zero]
      exact int32_of_range (by omega) (by omega)
    rw [if_pos hlong, if_pos hlong]
    cases left with
    | true =>
      simp only [if_true, hsub, ne_eq, not_true_eq_false, if_false]
      rfl
    | false =>
      rw [if_neg Bool.false_ne_true, if_neg (by simp), padLeftText_eq zero _ _ (by decide)]
      cases zero <;> simp [leftPad, padChar]
  · simp only [if_neg hlong, ne_eq, not_true_eq_false, if_false]

end UintText

variable {p : ℕ}

namespace Request

variable (r : Request)

def mark : List UInt8 := r.alternateMark ++ r.sign

def shown : List UInt8 := if r.magnitude = 0 then ['0'.toUInt8] else r.digits

/-- The zeros the precision asks for in front of the digits. -/
def zeros : ℕ := r.minDigits.getD 0 - r.shown.length

/-- The least length that is handed to `snprintf_uint`. -/
def room : ℤ :=
  if r.sign = [] then max r.widthInt r.precisionInt else max r.widthInt r.precisionInt - 1

theorem precisionInt_none (h : r.minDigits = none) : r.precisionInt = -1 := by
  rw [precisionInt, h]
  rfl

theorem precisionInt_some (h : r.minDigits = some p) : r.precisionInt = p := by
  rw [precisionInt, h]
  rfl

theorem minDigits_lt (h : r.minDigits = some p) : p < 2 ^ 31 := by
  rw [minDigits] at h
  obtain ⟨ds, hds, rfl⟩ := Option.map_eq_some_iff.mp h
  exact r.precision_lt ds hds

theorem precisionInt_range : -1 ≤ r.precisionInt ∧ r.precisionInt < 2 ^ 31 := by
  cases h : r.minDigits with
  | none =>
    rw [r.precisionInt_none h]
    decide
  | some p =>
    have hlt := r.minDigits_lt h
    rw [r.precisionInt_some h]
    omega

theorem alternateMark_length_le : r.alternateMark.length ≤ 2 := by
  rw [alternateMark]
  split_ifs <;> simp

theorem widthInt_eq : r.widthInt = ((r.minWidth - r.alternateMark.length : ℕ) : ℤ) := by
  have hlength := r.alternateMark_length_le
  have hlt := r.width_lt
  rw [widthInt, minWidth, int32_of_range (by omega) (by omega)]
  omega

theorem alternateMark_of_signed (h : r.specifier.signed) : r.alternateMark = [] := by
  have hradix : r.specifier.radix = 10 := by
    revert h
    cases r.specifier <;> decide
  simp [alternateMark, hradix]

theorem sign_of_unsigned (h : r.specifier.signed = false) : r.sign = [] := by
  rw [sign, h]
  rfl

theorem signText_length (num : ℤ) (forceSign padSign : Bool)
    (h : signText num forceSign padSign ≠ []) : (signText num forceSign padSign).length = 1 := by
  revert h
  rw [signText]
  split_ifs <;> simp

theorem mark_of_sign (h : r.sign ≠ []) : r.mark = r.sign ∧ r.mark.length = 1 := by
  cases hs : r.specifier.signed with
  | false => exact absurd (r.sign_of_unsigned hs) h
  | true =>
    have hmark : r.mark = r.sign := by rw [mark, r.alternateMark_of_signed hs, nil_append]
    refine ⟨hmark, ?_⟩
    rw [hmark]
    rw [sign, if_pos hs] at h ⊢
    exact signText_length _ _ _ h

theorem room_of_sign (h : r.sign ≠ []) : r.room = max (r.minWidth : ℤ) r.precisionInt - 1 := by
  have hs : r.specifier.signed := by
    cases hs : r.specifier.signed with
    | false => exact absurd (r.sign_of_unsigned hs) h
    | true => rfl
  rw [room, if_neg h, r.widthInt_of_nil (r.alternateMark_of_signed hs)]

theorem room_of_no_sign (h : r.sign = []) :
    r.room = max ((r.minWidth - r.mark.length : ℕ) : ℤ) r.precisionInt := by
  rw [room, if_pos h, r.widthInt_eq, mark, h, append_nil]

theorem room_range : -1 ≤ r.room ∧ r.room < 2 ^ 31 := by
  have hp := r.precisionInt_range
  have hlt : r.minWidth < 2 ^ 31 := r.width_lt
  by_cases h : r.sign = []
  · rw [r.room_of_no_sign h]
    omega
  · rw [r.room_of_sign h]
    omega

theorem printedText_eq :
    r.printedText = r.mark ++ uintText r.room r.precisionInt r.magnitude r.specifier.radix r.zero
      r.left r.specifier.upper := by
  have hrange := r.room_range
  rw [printedText, mark, append_assoc]
  congr 1
  cases hs : r.specifier.signed with
  | true =>
    have hsign : r.sign = signText r.signedValue (Flag.plus ∈ r.flags) (Flag.space ∈ r.flags) := by
      rw [sign, if_pos hs]
    have hroom : (if r.sign = [] then max r.widthInt r.precisionInt
        else int32 (max r.widthInt r.precisionInt - 1)) = r.room := by
      rw [room] at hrange ⊢
      by_cases h : r.sign = []
      · rw [if_pos h, if_pos h]
      · rw [if_neg h] at hrange ⊢
        rw [if_neg h, int32_of_range (by omega) (by omega)]
    rw [if_pos rfl, intText]
    simp only [← hsign, hroom]
    rw [magnitude, if_pos hs]
  | false =>
    have hsign := r.sign_of_unsigned hs
    rw [if_neg Bool.false_ne_true, hsign, nil_append, room, if_pos hsign, magnitude, hs,
      if_neg Bool.false_ne_true]

theorem magnitude_lt : r.magnitude < 2 ^ 64 := by
  have hvalue : r.value.toNat < 2 ^ 64 := r.value.toNat_lt
  rw [magnitude]
  split
  · have hlow : -(2 ^ 63 : ℤ) ≤ r.signedValue := Int.le_bmod (by decide)
    have hhigh : r.signedValue < 2 ^ 63 := Int.bmod_lt (by decide)
    omega
  · exact hvalue

theorem radix_range : 2 ≤ r.specifier.radix ∧ r.specifier.radix ≤ 16 := by
  cases r.specifier <;> decide

theorem digitBuffer_reverse (h : r.magnitude ≠ 0) :
    (digitBuffer r.specifier.upper r.specifier.radix 64 r.magnitude).reverse = r.digits := by
  have hradix := r.radix_range
  have hpow : (2 : ℕ) ^ 64 ≤ r.specifier.radix ^ 64 := Nat.pow_le_pow_left hradix.1 64
  rw [digitBuffer_eq _ hradix.1 64 (pos_of_ne_zero h)
    (Nat.lt_of_lt_of_le r.magnitude_lt hpow)]
  rfl

theorem hexChar_ne_zero (upper : Bool) {d : ℕ} (hpos : d ≠ 0) (hlt : d < 16) :
    hexChar upper d ≠ '0'.toUInt8 := by
  have hall : ∀ (upper : Bool) (d : Fin 16), d.val ≠ 0 → hexChar upper d.val ≠ '0'.toUInt8 := by
    decide
  exact hall upper ⟨d, hlt⟩ hpos

theorem digits_cons (h : r.magnitude ≠ 0) :
    ∃ (c : UInt8) (rest : List UInt8), r.digits = c :: rest ∧ c ≠ '0'.toUInt8 := by
  have hradix := r.radix_range
  have hne : Nat.digits r.specifier.radix r.magnitude ≠ [] := Nat.digits_ne_nil_iff_ne_zero.mpr h
  have hlast := Nat.getLast_digit_ne_zero r.specifier.radix h
  have hlt : (Nat.digits r.specifier.radix r.magnitude).getLast hne < r.specifier.radix :=
    Nat.digits_lt_base (by omega) (getLast_mem hne)
  refine ⟨hexChar r.specifier.upper _,
    ((Nat.digits r.specifier.radix r.magnitude).dropLast.map
      (hexChar r.specifier.upper)).reverse, ?_, hexChar_ne_zero _ hlast (by omega)⟩
  rw [digits]
  conv_lhs => rw [← dropLast_concat_getLast hne]
  rw [map_append, reverse_append]
  rfl

theorem shown_length_pos : 1 ≤ r.shown.length := by
  rw [shown]
  split
  · exact le_rfl
  · next h =>
    obtain ⟨c, rest, hdigits, _⟩ := r.digits_cons h
    rw [hdigits]
    exact Nat.succ_le_succ (Nat.zero_le _)

theorem zeros_eq : r.zeros = (r.precisionInt - r.shown.length).toNat := by
  rw [zeros]
  cases h : r.minDigits with
  | none =>
    rw [r.precisionInt_none h, Option.getD_none]
    omega
  | some p =>
    rw [r.precisionInt_some h, Option.getD_some]
    omega

/-- How many characters are missing to the least length. -/
def missing : ℕ := (r.room - r.shown.length).toNat

/-- The machine prints a number as it should be laid out unless it is a zero whose precision
is zero, or one that is padded on the right and has a precision. -/
theorem printedText_layout
    (h : r.magnitude ≠ 0 ∨ r.minDigits ≠ some 0 ∧ (r.left → r.minDigits = none)) :
    r.printedText = r.mark ++ layout r.zero r.left r.missing r.zeros r.shown := by
  obtain ⟨hroom, hroom_lt⟩ := r.room_range
  obtain ⟨hprecision, hprecision_lt⟩ := r.precisionInt_range
  rw [r.printedText_eq, missing, r.zeros_eq]
  congr 1
  by_cases hm : r.magnitude = 0
  · obtain ⟨hne, hleft⟩ := h.resolve_left (fun hne => hne hm)
    have hshown : r.shown = ['0'.toUInt8] := if_pos hm
    have hzero : r.precisionInt ≠ 0 := by
      cases hp : r.minDigits with
      | none =>
        rw [r.precisionInt_none hp]
        decide
      | some p =>
        rw [r.precisionInt_some hp]
        intro he
        have hp0 : p = 0 := by omega
        exact hne (by rw [hp, hp0])
    rw [hm, hshown]
    exact uintText_zero _ _ _ _ hroom hroom_lt hprecision hprecision_lt hzero
      fun hl => r.precisionInt_none (hleft hl)
  · have hshown : r.shown =
        (digitBuffer r.specifier.upper r.specifier.radix 64 r.magnitude).reverse := by
      rw [shown, if_neg hm, r.digitBuffer_reverse hm]
    rw [uintText_pos _ _ _ _ hm hroom hroom_lt hprecision hprecision_lt, hshown, length_reverse]

/-- The blanks or zeros that fill up the width. -/
def fill : ℕ := r.minWidth - (r.mark.length + r.zeros + r.shown.length)

theorem missing_sub_zeros : r.missing - r.zeros = r.fill := by
  have hz := r.zeros_eq
  rw [missing, fill]
  by_cases hs : r.sign = []
  · rw [r.room_of_no_sign hs]
    omega
  · rw [r.room_of_sign hs, (r.mark_of_sign hs).2]
    omega

/-- Numbers whose text in the standard is the mark, the zeros and the digits. The others are
zeros that show no digit and numbers for which the machine prints one mark too many. -/
structure Regular : Prop where
  digits : r.magnitude ≠ 0 ∨ r.minDigits ≠ some 0
  octal : r.alternate = true → r.specifier = .o → r.magnitude ≠ 0 ∧ r.zeros = 0
  hexadecimal : r.alternate = true → r.specifier.radix = 16 → r.magnitude ≠ 0

variable {r}

theorem zeros_none (h : r.minDigits = none) : r.zeros = 0 := by
  rw [zeros, h]
  exact Nat.zero_sub _

theorem zeros_of_zero (hm : r.magnitude = 0) (hp : r.minDigits = some p) (hpos : p ≠ 0) :
    r.shown = ['0'.toUInt8] ∧ r.zeros + 1 = p := by
  have hshown : r.shown = ['0'.toUInt8] := if_pos hm
  refine ⟨hshown, ?_⟩
  rw [zeros, hp, hshown, Option.getD_some, length_singleton]
  omega

theorem not_zeroFilled (h : r.minDigits = some p) : ¬ (r.zero ∧ r.minDigits = none) := by
  simp [h]

theorem extended_eq (h : r.magnitude ≠ 0 ∨ r.minDigits ≠ some 0) :
    replicate (r.minDigits.getD 1 - r.digits.length) '0'.toUInt8 ++ r.digits =
      replicate r.zeros '0'.toUInt8 ++ r.shown := by
  by_cases hm : r.magnitude = 0
  · have hne := h.resolve_left (fun hne => hne hm)
    have hshown : r.shown = ['0'.toUInt8] := if_pos hm
    have hdigits : r.digits = [] := by simp [digits, hm]
    rw [zeros, hshown, hdigits, append_nil, ← replicate_succ']
    congr 1
    cases hp : r.minDigits with
    | none => rfl
    | some p =>
      have hp0 : p ≠ 0 := fun he => hne (by rw [hp, he])
      simp only [Option.getD_some, length_nil, length_singleton]
      omega
  · have hshown : r.shown = r.digits := if_neg hm
    have hpos := r.shown_length_pos
    rw [zeros, hshown] at *
    congr 2
    cases hp : r.minDigits with
    | none =>
      simp only [Option.getD_none]
      omega
    | some p => rfl

theorem standardBody_octal (h : r.Regular) (ha : r.alternate) (ho : r.specifier = .o) :
    r.standardBody = '0'.toUInt8 :: r.shown := by
  obtain ⟨hm, hz⟩ := h.octal ha ho
  obtain ⟨c, rest, hdigits, hc⟩ := r.digits_cons hm
  have hshown : r.shown = c :: rest := (if_neg hm).trans hdigits
  have hhead : (c :: rest).head? ≠ some '0'.toUInt8 := by simpa using hc
  rw [standardBody, extended_eq h.digits, hz, replicate_zero, nil_append, hshown]
  exact if_pos ⟨ha, ho, hhead⟩

theorem standardBody_plain (h : r.magnitude ≠ 0 ∨ r.minDigits ≠ some 0)
    (ho : ¬ (r.alternate ∧ r.specifier = .o)) :
    r.standardBody = replicate r.zeros '0'.toUInt8 ++ r.shown := by
  rw [standardBody, extended_eq h]
  exact if_neg fun hc => ho ⟨hc.1, hc.2.1⟩

theorem unsigned_of_hex (h : r.specifier.radix = 16) : r.specifier.signed = false := by
  revert h
  cases r.specifier <;> decide

theorem standardMark_eq (h : r.alternate → r.specifier.radix = 16 → r.magnitude ≠ 0)
    (ho : ¬ (r.alternate ∧ r.specifier = .o)) : r.standardMark = r.mark := by
  have hunsigned : r.specifier.radix = 16 → r.sign = [] := fun hx =>
    r.sign_of_unsigned (unsigned_of_hex hx)
  have hradix : r.specifier.radix = 8 → r.specifier = .o := by
    cases r.specifier <;> decide
  rw [standardMark, mark, alternateMark]
  by_cases ha : r.alternate = true
  · by_cases hx : r.specifier.radix = 16
    · rw [if_pos ⟨ha, hx, h ha hx⟩, if_pos ha, if_pos hx, hunsigned hx, append_nil]
    · rw [if_neg fun hc => hx hc.2.1, if_pos ha, if_neg hx,
        if_neg fun he => ho ⟨ha, hradix he⟩, nil_append]
  · rw [if_neg fun hc => ha hc.1, if_neg ha, nil_append]

theorem mark_octal (ha : r.alternate) (ho : r.specifier = .o) :
    r.mark = ['0'.toUInt8] ∧ r.sign = [] ∧ r.standardMark = [] := by
  have hsign : r.sign = [] := r.sign_of_unsigned (by rw [ho]; rfl)
  have hx : r.specifier.radix ≠ 16 := by rw [ho]; decide
  have h8 : r.specifier.radix = 8 := by rw [ho]; rfl
  refine ⟨?_, hsign, ?_⟩
  · rw [mark, hsign, append_nil, alternateMark, if_pos ha, if_neg hx, if_pos h8]
  · rw [standardMark, if_neg fun hc => hx hc.2.1, hsign]

theorem standardText_regular (h : r.Regular) :
    r.standardText =
      if r.left then
        r.mark ++ (replicate r.zeros '0'.toUInt8 ++ r.shown ++
          replicate r.fill ' '.toUInt8)
      else if r.zero ∧ r.minDigits = none then
        r.mark ++ (replicate r.fill '0'.toUInt8 ++ r.shown)
      else
        replicate r.fill ' '.toUInt8 ++ r.mark ++ replicate r.zeros '0'.toUInt8 ++
          r.shown := by
  by_cases ho : r.alternate = true ∧ r.specifier = .o
  · obtain ⟨hmark, _, hstandard⟩ := mark_octal ho.1 ho.2
    have hz := (h.octal ho.1 ho.2).2
    have hfill : r.minWidth - ([] ++ '0'.toUInt8 :: r.shown).length = r.fill := by
      rw [fill, hmark, hz, nil_append, length_cons]
      simp only [length_singleton]
      omega
    rw [standardText, hstandard, standardBody_octal h ho.1 ho.2, hfill, hmark, hz]
    split_ifs
    · simp
    · simp only [nil_append, cons_append]
      rw [← cons_append, ← replicate_succ, replicate_succ', append_assoc]
      rfl
    · simp
  · have hfill : r.minWidth -
        (r.mark ++ (replicate r.zeros '0'.toUInt8 ++ r.shown)).length = r.fill := by
      rw [fill, length_append, length_append, length_replicate, add_assoc]
    rw [standardText, standardMark_eq h.hexadecimal ho, standardBody_plain h.digits ho, hfill]
    split_ifs with hl hz
    · simp only [append_assoc]
    · rw [zeros_none hz.2, replicate_zero, nil_append, append_assoc]
    · simp only [append_assoc]

end Request

theorem padChar_replicate_eq :
    replicate f (padChar zero) = replicate f ' '.toUInt8 ↔ (zero → f = 0) := by
  cases zero with
  | true =>
    rw [replicate_inj]
    have hne : padChar true ≠ ' '.toUInt8 := by decide
    simp only [hne, or_false, true_and, true_implies]
  | false => simp [padChar]

variable {n z f : ℕ}

theorem layout_left (mark shown : List UInt8) (h : n - z = f) :
    mark ++ layout zero true n z shown =
        mark ++ (replicate z '0'.toUInt8 ++ shown ++ replicate f ' '.toUInt8) ↔
      (zero → f = 0) ∧ (n = 0 → z = 0) := by
  rw [append_cancel_left_eq, layout, if_pos rfl]
  by_cases hn : n = 0
  · have hf : f = 0 := by omega
    rw [if_pos hn, hf, replicate_zero, append_nil]
    constructor
    · intro he
      have hlength := congrArg length he
      rw [length_append, length_replicate] at hlength
      exact ⟨fun _ => rfl, fun _ => by omega⟩
    · intro hc
      rw [hc.2 hn, replicate_zero, nil_append]
  · rw [if_neg hn, h, append_cancel_left_eq, padChar_replicate_eq]
    exact ⟨fun hz => ⟨hz, fun he => absurd he hn⟩, fun hc => hc.1⟩

/-- The marks: none, one blank, or something that does not begin with a blank. -/
def IsMark (mark : List UInt8) : Prop :=
  mark = [] ∨ mark = [' '.toUInt8] ∨ ∃ c rest, mark = c :: rest ∧ c ≠ ' '.toUInt8

theorem replicate_append_blank :
    replicate f ' '.toUInt8 ++ [' '.toUInt8] =
      ' '.toUInt8 :: replicate f ' '.toUInt8 := by
  rw [← replicate_succ', replicate_succ]

variable {mark : List UInt8}

/-- Padding behind the mark is the same as blanks in front of it only when the mark is none or
a blank itself. -/
theorem blanks_before_mark (hmark : IsMark mark) (hf : f ≠ 0) (pad tail : List UInt8) :
    mark ++ pad = replicate f ' '.toUInt8 ++ mark ++ tail ↔
      (mark = [] ∨ mark = [' '.toUInt8]) ∧ pad = replicate f ' '.toUInt8 ++ tail := by
  obtain ⟨k, rfl⟩ : ∃ k, f = k + 1 := ⟨f - 1, by omega⟩
  rcases hmark with rfl | rfl | ⟨c, rest, rfl, hc⟩
  · simp
  · rw [replicate_append_blank]
    simp
  · constructor
    · intro he
      rw [replicate_succ, cons_append, cons_append, cons_append] at he
      exact absurd (cons.inj he).1 hc
    · rintro ⟨h | h, _⟩
      · cases h
      · exact absurd (cons.inj h).1 hc

theorem leftPad_length (z : ℕ) : (leftPad zero n z).length = n := by
  rw [leftPad]
  split
  · exact length_replicate
  · rw [length_append, length_replicate, length_replicate]
    omega

theorem leftPad_eq_zeros (h : n ≤ z) : leftPad zero n z = replicate z '0'.toUInt8 ↔ n = z := by
  constructor
  · intro he
    have hlength := congrArg length he
    rwa [leftPad_length, length_replicate] at hlength
  · rintro rfl
    rw [leftPad]
    split
    · rfl
    · rw [Nat.min_self, Nat.sub_self, replicate_zero, append_nil]

theorem leftPad_eq_blanks (h : n = f + z) (hf : f ≠ 0) :
    leftPad zero n z = replicate f ' '.toUInt8 ++ replicate z '0'.toUInt8 ↔
      zero = false ∧ z = 0 := by
  obtain ⟨k, rfl⟩ : ∃ k, f = k + 1 := ⟨f - 1, by omega⟩
  have hne : '0'.toUInt8 ≠ ' '.toUInt8 := by decide
  constructor
  · intro he
    -- the padding begins with a zero unless both hold
    have hzeros : ∀ (m : ℕ) (rest : List UInt8), replicate (m + 1) '0'.toUInt8 ++ rest ≠
        replicate (k + 1) ' '.toUInt8 ++ replicate z '0'.toUInt8 := fun m rest hc =>
      hne (cons.inj hc).1
    rw [leftPad] at he
    cases zero with
    | true =>
      rw [if_pos rfl, h] at he
      exact absurd ((append_nil _).trans
        ((congrArg (replicate · '0'.toUInt8) (by omega)).trans he)) (hzeros (k + z) [])
    | false =>
      refine ⟨rfl, ?_⟩
      by_contra hz
      obtain ⟨m, hm⟩ : ∃ m, min n z = m + 1 := ⟨min n z - 1, by omega⟩
      rw [if_neg Bool.false_ne_true, hm] at he
      exact hzeros _ _ he
  · rintro ⟨rfl, rfl⟩
    rw [leftPad, if_neg Bool.false_ne_true, h]
    simp

theorem layout_right (hmark : IsMark mark) (shown : List UInt8) (h : n - z = f) :
    mark ++ layout zero false n z shown =
        replicate f ' '.toUInt8 ++ mark ++ replicate z '0'.toUInt8 ++ shown ↔
      if f = 0 then n = z
      else zero = false ∧ z = 0 ∧ (mark = [] ∨ mark = [' '.toUInt8]) := by
  rw [layout, if_neg Bool.false_ne_true, ← append_assoc, append_cancel_right_eq]
  by_cases hf : f = 0
  · rw [if_pos hf, hf, replicate_zero, nil_append, append_cancel_left_eq]
    exact leftPad_eq_zeros zero (by omega)
  · rw [if_neg hf, blanks_before_mark hmark hf _ _, leftPad_eq_blanks zero (by omega) hf]
    tauto

namespace Request

variable {r : Request}

theorem isMark_mark (r : Request) : IsMark r.mark := by
  by_cases hs : r.sign = []
  · rw [mark, hs, append_nil, alternateMark]
    split_ifs
    · exact .inr (.inr ⟨_, _, rfl, by decide⟩)
    · exact .inr (.inr ⟨_, _, rfl, by decide⟩)
    · exact .inr (.inr ⟨_, _, rfl, by decide⟩)
    · exact .inl rfl
    · exact .inl rfl
  · rw [(r.mark_of_sign hs).1]
    rw [sign] at hs ⊢
    split_ifs at hs ⊢ with hsigned
    · rw [signText]
      split_ifs
      · exact .inr (.inr ⟨_, _, rfl, by decide⟩)
      · exact .inr (.inr ⟨_, _, rfl, by decide⟩)
      · exact .inr (.inl rfl)
      · exact .inl rfl
    · exact absurd rfl hs

theorem missing_zero_iff :
    (r.missing = 0 → r.zeros = 0) ↔
      ¬ (r.sign ≠ [] ∧ r.zeros = 1 ∧ r.minWidth ≤ r.shown.length + 1) := by
  have hz := r.zeros_eq
  rw [missing]
  by_cases hs : r.sign = []
  · rw [r.room_of_no_sign hs]
    simp only [hs, ne_eq, not_true_eq_false, false_and, not_false_eq_true, iff_true]
    omega
  · rw [r.room_of_sign hs]
    simp only [ne_eq, hs, not_false_eq_true, true_and]
    omega

theorem missing_eq_zeros_iff (hfill : r.fill = 0) :
    r.missing = r.zeros ↔
      (r.sign ≠ [] → 0 < r.zeros → r.minWidth = r.mark.length + r.zeros + r.shown.length) := by
  have hz := r.zeros_eq
  rw [fill] at hfill
  rw [missing]
  by_cases hs : r.sign = []
  · rw [r.room_of_no_sign hs]
    simp only [hs, ne_eq, not_true_eq_false, false_implies, iff_true]
    omega
  · rw [(r.mark_of_sign hs).2] at hfill
    rw [r.room_of_sign hs, (r.mark_of_sign hs).2]
    simp only [ne_eq, hs, not_false_eq_true, true_implies]
    omega

theorem printed_regular_left (h : r.Regular) (hl : r.left)
    (hd : r.magnitude = 0 → r.minDigits = none) :
    r.printedText = r.standardText ↔ (r.zero → r.fill = 0) ∧
        ¬ (r.sign ≠ [] ∧ r.zeros = 1 ∧ r.minWidth ≤ r.shown.length + 1) := by
  have hlayout : r.magnitude ≠ 0 ∨ r.minDigits ≠ some 0 ∧ (r.left → r.minDigits = none) := by
    by_cases hm : r.magnitude = 0
    · exact .inr ⟨by simp [hd hm], fun _ => hd hm⟩
    · exact .inl hm
  rw [r.printedText_layout hlayout, standardText_regular h, if_pos hl, hl,
    layout_left r.zero r.mark r.shown r.missing_sub_zeros, missing_zero_iff]

theorem printed_regular_right (h : r.Regular) (hl : r.left = false) :
    r.printedText = r.standardText ↔ (r.zero ∧ r.minDigits = none) ∨
        if r.fill = 0 then
          r.sign ≠ [] → 0 < r.zeros → r.minWidth = r.mark.length + r.zeros + r.shown.length
        else
          r.zero = false ∧ r.zeros = 0 ∧ (r.mark = [] ∨ r.mark = [' '.toUInt8]) := by
  have hlayout : r.magnitude ≠ 0 ∨ r.minDigits ≠ some 0 ∧ (r.left → r.minDigits = none) := by
    refine h.digits.imp_right fun hd => ⟨hd, fun hc => ?_⟩
    rw [hl] at hc
    exact absurd hc Bool.false_ne_true
  have hmissing := r.missing_sub_zeros
  rw [r.printedText_layout hlayout, standardText_regular h, hl, if_neg Bool.false_ne_true]
  by_cases hz : r.zero = true ∧ r.minDigits = none
  · have hzeros := zeros_none hz.2
    have hfill : r.missing = r.fill := by omega
    rw [if_pos hz, layout, if_neg Bool.false_ne_true, leftPad, if_pos hz.1, hfill]
    exact ⟨fun _ => .inl hz, fun _ => rfl⟩
  rw [if_neg hz, layout_right r.zero r.isMark_mark r.shown hmissing]
  by_cases hf : r.fill = 0
  · rw [if_pos hf, if_pos hf, missing_eq_zeros_iff hf]
    exact ⟨.inr, fun hc => hc.resolve_left hz⟩
  · rw [if_neg hf, if_neg hf]
    exact ⟨.inr, fun hc => hc.resolve_left hz⟩

theorem digits_zero (hm : r.magnitude = 0) : r.digits = [] := by
  simp [digits, hm]

theorem zeros_ne_zeros (p : ℕ) (rest : List UInt8) {tail} (h : tail.head? ≠ some '0'.toUInt8) :
    replicate (p + 1) '0'.toUInt8 ++ rest ≠ replicate p '0'.toUInt8 ++ tail := by
  intro he
  rw [replicate_succ', append_assoc, append_cancel_left_eq] at he
  apply h
  rw [← he]
  rfl

theorem head_blanks (f : ℕ) : (replicate f ' '.toUInt8).head? ≠ some '0'.toUInt8 := by
  cases f with
  | zero => simp
  | succ f =>
    rw [replicate_succ, head?_cons]
    decide

/-- A zero with precision zero: no digits, so a width of one more than the mark gets no blank
and the blanks of a wider one stand behind the mark. -/
theorem printed_no_digits (hm : r.magnitude = 0) (hp : r.minDigits = some 0)
    (ho : ¬ (r.alternate ∧ r.specifier = .o)) (hx : ¬ (r.alternate ∧ r.specifier.radix = 16)) :
    r.printedText = r.standardText ↔
      r.minWidth ≤ r.mark.length ∨ r.mark.length + 2 ≤ r.minWidth ∧ r.zero = false ∧
        (r.left ∨ r.mark = [] ∨ r.mark = [' '.toUInt8]) := by
  have hprecision : r.precisionInt = 0 := r.precisionInt_some hp
  have hroom : r.room.toNat = r.minWidth - r.mark.length ∧
      (1 < r.room ↔ r.mark.length + 2 ≤ r.minWidth) := by
    by_cases hs : r.sign = []
    · rw [r.room_of_no_sign hs, hprecision]
      omega
    · rw [r.room_of_sign hs, hprecision, (r.mark_of_sign hs).2]
      omega
  have hbody : r.standardBody = [] := by
    rw [standardBody, digits_zero hm, hp]
    exact if_neg fun hc => ho ⟨hc.1, hc.2.1⟩
  have hgiven := not_zeroFilled hp
  have hprinted : r.printedText = r.mark ++ if r.mark.length + 2 ≤ r.minWidth then
      replicate (r.minWidth - r.mark.length) (padChar r.zero) else [] := by
    rw [r.printedText_eq, hprecision, hm, uintText_zero_none _ _ _ _ r.room_range.2, hroom.1]
    simp only [hroom.2]
  rw [hprinted, standardText, standardMark_eq (fun ha h => absurd ⟨ha, h⟩ hx) ho, hbody, append_nil]
  by_cases hlong : r.mark.length + 2 ≤ r.minWidth
  · have hfill : r.minWidth - r.mark.length ≠ 0 := by omega
    have hnot : ¬ r.minWidth ≤ r.mark.length := by omega
    have hzero : (r.zero → r.minWidth - r.mark.length = 0) ↔ r.zero = false := by
      cases r.zero <;> simp [hfill]
    rw [if_pos hlong]
    by_cases hl : r.left = true
    · rw [if_pos hl, append_cancel_left_eq, padChar_replicate_eq, hzero]
      simp only [hnot, hlong, hl, true_or, and_true, true_and, false_or]
    have hblanks := blanks_before_mark r.isMark_mark hfill
      (replicate (r.minWidth - r.mark.length) (padChar r.zero)) ([] : List UInt8)
    rw [append_nil, append_nil, padChar_replicate_eq, hzero] at hblanks
    rw [if_neg hl, if_neg hgiven, append_nil, hblanks]
    simp only [hnot, hlong, hl, false_or, true_and, Bool.false_eq_true]
    exact and_comm
  · rw [if_neg hlong, append_nil]
    by_cases hshort : r.minWidth ≤ r.mark.length
    · have hfill : r.minWidth - r.mark.length = 0 := by omega
      rw [hfill, if_neg hgiven]
      simp [hshort]
    have hfill : r.minWidth - r.mark.length = 1 := by omega
    simp only [hshort, hlong, false_and, or_self, iff_false, if_neg hgiven, hfill]
    intro he
    have hlength := congrArg length he
    split at hlength
    · simp at hlength
    · simp at hlength

/-- A zero padded on the right with a precision gets one zero too many. -/
theorem printed_zero_left (h : r.Regular) (hl : r.left) (hm : r.magnitude = 0)
    (hp : r.minDigits = some p) :
    r.printedText = r.standardText ↔ p = 1 ∧ r.minWidth ≤ r.mark.length + 1 := by
  have hpos : p ≠ 0 := fun he => h.digits.resolve_left (fun hne => hne hm) (by rw [hp, he])
  have hprecision : r.precisionInt = p := r.precisionInt_some hp
  have hlt := r.minDigits_lt hp
  obtain ⟨hshown, hzeros⟩ := zeros_of_zero hm hp hpos
  have hroom : 1 < r.room ↔ ¬ (p ≤ 1 ∧ r.minWidth ≤ r.mark.length + 1) ∧
      ¬ (r.sign ≠ [] ∧ p = 2 ∧ r.minWidth ≤ 2) := by
    by_cases hs : r.sign = []
    · rw [r.room_of_no_sign hs, hprecision]
      simp only [hs, ne_eq, not_true_eq_false, false_and, not_false_eq_true, and_true]
      omega
    · rw [r.room_of_sign hs, hprecision, (r.mark_of_sign hs).2]
      simp only [ne_eq, hs, not_false_eq_true, true_and]
      omega
  have hstandard : replicate r.zeros '0'.toUInt8 ++ r.shown ++
      replicate r.fill ' '.toUInt8 =
        replicate p '0'.toUInt8 ++ replicate r.fill ' '.toUInt8 := by
    rw [hshown, ← replicate_succ', hzeros]
  rw [r.printedText_eq, hprecision, hm, hl,
    uintText_zero_left _ _ _ r.room_range.2 p (by omega) (pos_of_ne_zero hpos),
    standardText_regular h, if_pos hl, append_cancel_left_eq, hstandard]
  by_cases hlong : 1 < r.room
  · rw [if_pos hlong]
    refine ⟨fun he => absurd he (zeros_ne_zeros p _ (head_blanks _)), fun hc => ?_⟩
    exact absurd ⟨by omega, hc.2⟩ (hroom.mp hlong).1
  rw [if_neg hlong]
  constructor
  · intro he
    have hlength := congrArg length he
    simp only [length_singleton, length_append, length_replicate] at hlength
    rw [fill, hshown, length_singleton] at hlength
    omega
  · rintro ⟨rfl, hw⟩
    have hfill : r.fill = 0 := by
      rw [fill, hshown, length_singleton]
      omega
    rw [hfill]
    rfl

theorem standardText_blank_or_zero (hs : r.specifier.signed = false) (hm : r.magnitude = 0)
    (c : UInt8) (hc : c ∈ r.standardText) : c = '0'.toUInt8 ∨ c = ' '.toUInt8 := by
  have hmark : r.standardMark = [] := by
    rw [standardMark, if_neg fun h => h.2.2 hm, r.sign_of_unsigned hs]
  have hbody : ∀ d ∈ r.standardBody, d = '0'.toUInt8 := by
    intro d hd
    rw [standardBody, digits_zero hm, append_nil] at hd
    split at hd
    · rcases mem_cons.mp hd with rfl | hd
      · rfl
      · exact eq_of_mem_replicate hd
    · exact eq_of_mem_replicate hd
  rw [standardText, hmark, nil_append] at hc
  split_ifs at hc
  · rcases mem_append.mp hc with hc | hc
    · exact .inl (hbody c hc)
    · exact .inr (eq_of_mem_replicate hc)
  · rcases mem_append.mp hc with hc | hc
    · exact .inl (eq_of_mem_replicate hc)
    · exact .inl (hbody c hc)
  · rw [append_nil] at hc
    rcases mem_append.mp hc with hc | hc
    · exact .inr (eq_of_mem_replicate hc)
    · exact .inl (hbody c hc)

theorem printed_hex_zero (ha : r.alternate) (hx : r.specifier.radix = 16)
    (hm : r.magnitude = 0) : r.printedText ≠ r.standardText := by
  intro he
  have hs := unsigned_of_hex hx
  have hmem : (if r.specifier.upper then 'X'.toUInt8 else 'x'.toUInt8) ∈ r.printedText := by
    rw [r.printedText_eq, mark, alternateMark, if_pos ha, if_pos hx]
    simp
  rw [he] at hmem
  have hletter := standardText_blank_or_zero hs hm _ hmem
  revert hletter
  cases r.specifier.upper <;> decide

theorem standardBody_octal_zeros (h : r.magnitude ≠ 0 ∨ r.minDigits ≠ some 0)
    (hz : r.magnitude = 0 ∨ 0 < r.zeros) :
    r.standardBody = replicate r.zeros '0'.toUInt8 ++ r.shown := by
  have hhead : (replicate r.zeros '0'.toUInt8 ++ r.shown).head? = some '0'.toUInt8 := by
    cases hk : r.zeros with
    | zero =>
      have hm : r.magnitude = 0 := hz.resolve_right (by omega)
      have hshown : r.shown = ['0'.toUInt8] := if_pos hm
      rw [hshown]
      rfl
    | succ k => rfl
  rw [standardBody, extended_eq h]
  exact if_neg fun hc => hc.2.2 hhead

theorem standardText_octal_zeros (ha : r.alternate) (ho : r.specifier = .o)
    (h : r.magnitude ≠ 0 ∨ r.minDigits ≠ some 0) (hz : r.magnitude = 0 ∨ 0 < r.zeros) :
    r.standardText =
      if r.left then
        replicate r.zeros '0'.toUInt8 ++ (r.shown ++
          replicate (r.minWidth - (r.zeros + r.shown.length)) ' '.toUInt8)
      else if r.zero ∧ r.minDigits = none then
        replicate (r.minWidth - (r.zeros + r.shown.length)) '0'.toUInt8 ++
          (replicate r.zeros '0'.toUInt8 ++ r.shown)
      else
        replicate (r.minWidth - (r.zeros + r.shown.length)) ' '.toUInt8 ++
          (replicate r.zeros '0'.toUInt8 ++ r.shown) := by
  rw [standardText, (mark_octal ha ho).2.2, standardBody_octal_zeros h hz]
  simp only [nil_append, append_nil, length_append, length_replicate, append_assoc]

theorem missing_ge_zeros (hs : r.sign = []) : r.zeros ≤ r.missing := by
  have hz := r.zeros_eq
  rw [missing, r.room_of_no_sign hs]
  omega

section

variable (ha : r.alternate)

include ha

section

variable (ho : r.specifier = .o)

include ho

/-- With a precision the machine prints a zero of its own in front of zeros, so the text is too
long or begins with a zero where a blank is due. -/
theorem printed_octal_right
    (hz : r.magnitude = 0 ∨ 0 < r.zeros) (hp : r.minDigits = some p) (hpos : p ≠ 0)
    (hl : r.left = false) : r.printedText ≠ r.standardText := by
  obtain ⟨hmark, hsign, _⟩ := mark_octal ha ho
  have hle := missing_ge_zeros hsign
  have hdigits : r.minDigits ≠ some 0 := by simpa [hp] using hpos
  have hgiven := not_zeroFilled hp
  have hright : ¬ r.left := by
    rw [hl]
    exact Bool.false_ne_true
  rw [r.printedText_layout (.inr ⟨hdigits, fun hc => absurd hc hright⟩),
    standardText_octal_zeros ha ho (.inr hdigits) hz, if_neg hright, if_neg hgiven, hmark,
    layout, if_neg hright]
  intro he
  cases hf : r.minWidth - (r.zeros + r.shown.length) with
  | zero =>
    rw [hf] at he
    have hlength := congrArg length he
    simp only [length_append, length_singleton, leftPad_length, length_replicate]
      at hlength
    omega
  | succ k =>
    rw [hf, replicate_succ, cons_append, cons_append] at he
    exact absurd (cons.inj he).1 (by decide)

theorem printed_octal_left (hm : r.magnitude ≠ 0) (hz : 0 < r.zeros) (hl : r.left) :
    r.printedText ≠ r.standardText := by
  obtain ⟨hmark, hsign, _⟩ := mark_octal ha ho
  have hle := missing_ge_zeros hsign
  obtain ⟨c, rest, hdigits, hc⟩ := r.digits_cons hm
  have hshown : r.shown = c :: rest := (if_neg hm).trans hdigits
  have hmissing : r.missing ≠ 0 := by omega
  rw [r.printedText_layout (.inl hm), standardText_octal_zeros ha ho (.inl hm) (.inr hz),
    if_pos hl, hmark, layout, if_pos hl, if_neg hmissing, singleton_append,
    ← cons_append, ← cons_append, ← replicate_succ, append_assoc]
  apply zeros_ne_zeros r.zeros
  rw [hshown, cons_append, head?_cons]
  exact fun he => hc (Option.some.inj he)

theorem printed_octal_zero_left (hm : r.magnitude = 0) (hp : r.minDigits = some p) (hpos : p ≠ 0)
    (hl : r.left) : r.printedText ≠ r.standardText := by
  obtain ⟨hmark, hsign, _⟩ := mark_octal ha ho
  have hprecision : r.precisionInt = p := r.precisionInt_some hp
  have hlt := r.minDigits_lt hp
  have hdigits : r.minDigits ≠ some 0 := by simpa [hp] using hpos
  obtain ⟨hshown, hzeros⟩ := zeros_of_zero hm hp hpos
  have hroom := r.room_of_no_sign hsign
  rw [hprecision] at hroom
  rw [r.printedText_eq, hprecision, hm, hl,
    uintText_zero_left _ _ _ r.room_range.2 p (by omega) (pos_of_ne_zero hpos),
    standardText_octal_zeros ha ho (.inr hdigits) (.inl hm), if_pos hl, hmark, hshown,
    ← append_assoc _, ← replicate_succ', hzeros]
  by_cases hlong : 1 < r.room
  · rw [if_pos hlong, singleton_append, ← cons_append, ← replicate_succ,
      replicate_succ', append_assoc]
    exact zeros_ne_zeros p _ (head_blanks _)
  · have hone : p = 1 := by omega
    rw [if_neg hlong, hone]
    exact zeros_ne_zeros 1 [] (head_blanks _)

theorem printed_octal_none (hm : r.magnitude = 0) (hp : r.minDigits = none) :
    r.printedText = r.standardText ↔ r.left = false ∧ r.zero ∧ 2 ≤ r.minWidth := by
  obtain ⟨hmark, hsign, _⟩ := mark_octal ha ho
  have hshown : r.shown = ['0'.toUInt8] := if_pos hm
  have hdigits : r.minDigits ≠ some 0 := by simp [hp]
  have hzeros := zeros_none hp
  have hmissing : r.missing = r.minWidth - 2 := by
    rw [missing, r.room_of_no_sign hsign, r.precisionInt_none hp, hshown, hmark]
    simp only [length_singleton]
    omega
  rw [r.printedText_layout (.inr ⟨hdigits, fun _ => hp⟩),
    standardText_octal_zeros ha ho (.inr hdigits) (.inl hm), hmark, hshown, hzeros, hmissing]
  simp only [replicate_zero, nil_append, length_singleton, zero_add, hp,
    and_true, layout]
  by_cases hl : r.left = true
  · rw [if_pos hl, if_pos hl]
    refine iff_of_false ?_ fun hc => Bool.false_ne_true (hc.1.symm.trans hl)
    by_cases hw : r.minWidth - 2 = 0
    · rw [if_pos hw]
      exact zeros_ne_zeros 1 [] (head_blanks _)
    · rw [if_neg hw]
      exact zeros_ne_zeros 1 _ (head_blanks _)
  · have hright : r.left = false := by simpa using hl
    rw [if_neg hl, if_neg hl]
    by_cases hz : r.zero = true
    · rw [if_pos hz, hz, leftPad, if_pos rfl, ← replicate_succ', ← replicate_succ',
        singleton_append, ← replicate_succ, replicate_inj]
      have hlength : r.minWidth - 2 + 1 + 1 = r.minWidth - 1 + 1 ↔ 2 ≤ r.minWidth := by omega
      simp only [hright, hlength, or_true, and_true, true_and]
    refine iff_of_false ?_ fun hc => hz hc.2.1
    rw [if_neg hz]
    intro he
    cases hk : r.minWidth - 1 with
    | zero =>
      rw [hk] at he
      have hlength := congrArg length he
      simp at hlength
    | succ k =>
      rw [hk, replicate_succ, cons_append] at he
      exact absurd (cons.inj he).1 (by decide)

theorem printed_octal_no_digits (hm : r.magnitude = 0) (hp : r.minDigits = some 0) :
    r.printedText = r.standardText ↔
      r.minWidth ≤ 1 ∨ r.left ∧ r.zero = false ∧ 3 ≤ r.minWidth := by
  obtain ⟨hmark, hsign, hstandard⟩ := mark_octal ha ho
  have hprecision : r.precisionInt = 0 := r.precisionInt_some hp
  have hroom : r.room = ((r.minWidth - 1 : ℕ) : ℤ) := by
    rw [r.room_of_no_sign hsign, hprecision, hmark, length_singleton]
    omega
  have hbody : r.standardBody = ['0'.toUInt8] := by
    rw [standardBody, digits_zero hm, hp]
    exact if_pos ⟨ha, ho, by simp⟩
  have hgiven := not_zeroFilled hp
  rw [r.printedText_eq, hprecision, hm, uintText_zero_none _ _ _ _ r.room_range.2, standardText,
    hstandard, hbody, hmark, hroom, if_neg hgiven]
  simp only [nil_append, append_nil, length_singleton, Int.toNat_natCast]
  by_cases hshort : r.minWidth ≤ 1
  · have hzero : r.minWidth - 1 = 0 := by omega
    rw [hzero]
    simp [hshort]
  by_cases hl : r.left = true
  · rw [if_pos hl, append_cancel_left_eq]
    by_cases hlong : 3 ≤ r.minWidth
    · have hfill : r.minWidth - 1 ≠ 0 := by omega
      rw [if_pos (by omega), padChar_replicate_eq]
      cases r.zero <;> simp [hshort, hl, hlong, hfill]
    · have hone : r.minWidth - 1 = 1 := by omega
      rw [hone]
      simp [hshort, hlong]
  · obtain ⟨k, hk⟩ : ∃ k, r.minWidth - 1 = k + 1 := ⟨r.minWidth - 2, by omega⟩
    rw [if_neg hl, hk]
    refine iff_of_false (fun he => ?_) (fun hc => hc.elim hshort fun h => hl h.1)
    rw [replicate_succ, cons_append] at he
    exact absurd (cons.inj he).1 (by decide)

/-- Exactly when the text is right. An octal number with `#` that begins with a zero anyway, a
hexadecimal zero with `#`, a zero without digits and a zero padded on the right are special;
otherwise zeros must not pad on the right, blanks must not be needed in front of a sign, a
prefix or the zeros of the precision, and the sign must not take the room of one of them. -/
def Conforms (r : Request) : Prop :=
  if r.alternate = true ∧ r.specifier = .o ∧ (r.magnitude = 0 ∨ 0 < r.zeros) then
    r.magnitude = 0 ∧ (r.minDigits = none ∧ r.left = false ∧ r.zero = true ∧ 2 ≤ r.minWidth ∨
        r.minDigits = some 0 ∧ (r.minWidth ≤ 1 ∨ r.left = true ∧ r.zero = false ∧ 3 ≤ r.minWidth))
  else if r.alternate = true ∧ r.specifier.radix = 16 ∧ r.magnitude = 0 then False
  else if r.magnitude = 0 ∧ r.minDigits = some 0 then
    r.minWidth ≤ r.mark.length ∨ r.mark.length + 2 ≤ r.minWidth ∧ r.zero = false ∧
      (r.left = true ∨ r.mark = [] ∨ r.mark = [' '.toUInt8])
  else if r.left = true then
    if r.magnitude = 0 ∧ r.minDigits ≠ none then
      r.minDigits = some 1 ∧ r.minWidth ≤ r.mark.length + 1
    else
      (r.zero = true → r.fill = 0) ∧ ¬ (r.sign ≠ [] ∧ r.zeros = 1 ∧ r.minWidth ≤ r.shown.length + 1)
  else
    (r.zero = true ∧ r.minDigits = none) ∨
      if r.fill = 0 then
        r.sign ≠ [] → 0 < r.zeros → r.minWidth = r.mark.length + r.zeros + r.shown.length
      else
        r.zero = false ∧ r.zeros = 0 ∧ (r.mark = [] ∨ r.mark = [' '.toUInt8])

theorem printed_octal (hz : r.magnitude = 0 ∨ 0 < r.zeros) :
    r.printedText = r.standardText ↔ r.magnitude = 0 ∧
        (r.minDigits = none ∧ r.left = false ∧ r.zero ∧ 2 ≤ r.minWidth ∨
          r.minDigits = some 0 ∧
            (r.minWidth ≤ 1 ∨ r.left ∧ r.zero = false ∧ 3 ≤ r.minWidth)) := by
  by_cases hm : r.magnitude = 0
  · cases hp : r.minDigits with
    | none =>
      rw [printed_octal_none ha ho hm hp]
      simp [hm]
    | some p =>
      by_cases hpos : p = 0
      · subst hpos
        rw [printed_octal_no_digits ha ho hm hp]
        simp [hm]
      · refine iff_of_false ?_ (by simp [hpos])
        cases hl : r.left with
        | true => exact printed_octal_zero_left ha ho hm hp hpos hl
        | false => exact printed_octal_right ha ho hz hp hpos hl
  · have hzeros : 0 < r.zeros := hz.resolve_left hm
    refine iff_of_false ?_ (fun hc => hm hc.1)
    cases hl : r.left with
    | true => exact printed_octal_left ha ho hm hzeros hl
    | false =>
      cases hp : r.minDigits with
      | none =>
        rw [zeros, hp] at hzeros
        exact absurd hzeros (by simp)
      | some p =>
        refine printed_octal_right ha ho hz hp (fun he => ?_) hl
        rw [zeros, hp, he] at hzeros
        exact absurd hzeros (by simp)

end

end

theorem printedText_eq_standardText_iff (r : Request) :
    r.printedText = r.standardText ↔ r.Conforms := by
  rw [Conforms]
  by_cases ho : r.alternate = true ∧ r.specifier = .o ∧ (r.magnitude = 0 ∨ 0 < r.zeros)
  · rw [if_pos ho]
    exact printed_octal ho.1 ho.2.1 ho.2.2
  rw [if_neg ho]
  by_cases hx : r.alternate = true ∧ r.specifier.radix = 16 ∧ r.magnitude = 0
  · rw [if_pos hx]
    exact iff_of_false (printed_hex_zero hx.1 hx.2.1 hx.2.2) not_false
  rw [if_neg hx]
  by_cases hd : r.magnitude = 0 ∧ r.minDigits = some 0
  · rw [if_pos hd]
    exact printed_no_digits hd.1 hd.2 (fun hc => ho ⟨hc.1, hc.2, .inl hd.1⟩)
      fun hc => hx ⟨hc.1, hc.2, hd.1⟩
  rw [if_neg hd]
  have hregular : r.Regular := by
    refine ⟨?_, fun ha hspec => ?_, fun ha hradix hm => hx ⟨ha, hradix, hm⟩⟩
    · by_cases hm : r.magnitude = 0
      · exact .inr fun hp => hd ⟨hm, hp⟩
      · exact .inl hm
    · have hnot : ¬ (r.magnitude = 0 ∨ 0 < r.zeros) := fun hc => ho ⟨ha, hspec, hc⟩
      exact ⟨fun hm => hnot (.inl hm), Nat.eq_zero_of_not_pos fun hz => hnot (.inr hz)⟩
  by_cases hl : r.left = true
  · rw [if_pos hl]
    by_cases hz : r.magnitude = 0 ∧ r.minDigits ≠ none
    · obtain ⟨p, hp⟩ := Option.ne_none_iff_exists'.mp hz.2
      rw [if_pos hz, printed_zero_left hregular hl hz.1 hp, hp, Option.some.injEq]
    · rw [if_neg hz]
      exact printed_regular_left hregular hl fun hm => not_not.mp fun hp => hz ⟨hm, hp⟩
  · rw [if_neg hl]
    exact printed_regular_right hregular (by simpa using hl)

/-- The text is what `vsnprintf` leaves at `s`, with its termination, whenever it fits. -/
def Produces (r : Request) (text : List UInt8) : Prop :=
  ∀ (s : ℕ → UInt8) (n : ℕ), text.length < n → n < 2 ^ 64 →
    ∃ rc : ℤ, vsnprintf s n r.format r.arguments = .ok (terminated s n text, rc, [])

end Request

variable {text : List UInt8}

theorem terminated_inj {other} (htext : text.length < n) (hother : other.length < n)
    (h : terminated (fun _ => 1) n text = terminated (fun _ => 1) n other) : text = other := by
  have hmin : ∀ t : List UInt8, t.length < n → min (n - 1) t.length = t.length := fun t ht => by
    omega
  have hget : ∀ i, (if i < text.length then text.getD i 0 else if i = text.length then 0 else 1) =
      if i < other.length then other.getD i 0 else if i = other.length then 0 else 1 := fun i => by
    have hi := congrFun h i
    rwa [terminated, terminated, hmin text htext, hmin other hother] at hi
  have hlength : text.length = other.length := by
    rcases Nat.lt_trichotomy text.length other.length with hlt | heq | hlt
    · have hi := hget other.length
      rw [if_neg (by omega), if_neg (by omega), if_neg (by omega), if_pos rfl] at hi
      exact absurd hi (by decide)
    · exact heq
    · have hi := hget text.length
      rw [if_neg (by omega), if_pos rfl, if_neg (by omega), if_neg (by omega)] at hi
      exact absurd hi (by decide)
  apply ext_getElem hlength
  intro i hi hi'
  have hchar := hget i
  rw [if_pos hi, if_pos hi'] at hchar
  simpa only [getD_eq_getElem?_getD, getElem?_eq_getElem hi,
    getElem?_eq_getElem hi', Option.getD_some] using hchar

theorem int32_toNat_le (x : ℤ) : (int32 x).toNat ≤ 2 ^ 31 := by
  have hlt : int32 x < (2 ^ 32 + 1) / 2 := Int.bmod_lt (by decide)
  omega

theorem padLeftText_length : (padLeftText zero n minDigits).length = n := by
  induction n generalizing minDigits with
  | zero => rfl
  | succ n ih =>
    rw [padLeftText]
    split
    · rw [length_cons, ih]
    · rw [length_cons, ih]

theorem uintText_length_lt {minLength minDigits} (hlength : minLength < 2 ^ 31)
    (hdigits : minDigits < 2 ^ 31) (num radix : ℕ) (zero left upper : Bool) :
    (uintText minLength minDigits num radix zero left upper).length < 2 ^ 33 := by
  have hbuffer := digitBuffer_length_le upper radix 64 num
  simp only [uintText]
  generalize digitBuffer upper radix 64 num = buffer at hbuffer ⊢
  split_ifs
  all_goals
    simp only [length_append, length_cons, length_nil, length_replicate,
      length_reverse, padLeftText_length]
  · have h := int32_toNat_le (int32 (minLength - minDigits.toNat) - 1)
    omega
  · have h := int32_toNat_le (minLength - minDigits.toNat)
    omega
  · have h := int32_toNat_le (minLength - 1)
    omega
  · omega
  · omega
  · omega
  · have h := int32_toNat_le (minDigits - buffer.length)
    have h' := int32_toNat_le
      (int32 (minLength - buffer.length) - (int32 (minDigits - buffer.length)).toNat)
    omega
  · have h := int32_toNat_le (minLength - buffer.length)
    omega
  · omega

namespace Request

variable (r : Request)

theorem mark_length_le : r.mark.length ≤ 2 := by
  by_cases hs : r.sign = []
  · rw [mark, hs, append_nil]
    exact r.alternateMark_length_le
  · rw [(r.mark_of_sign hs).2]
    decide

theorem printedText_length_lt : r.printedText.length < 2 ^ 34 := by
  have hmark := r.mark_length_le
  have htext := uintText_length_lt r.room_range.2 r.precisionInt_range.2 r.magnitude
    r.specifier.radix r.zero r.left r.specifier.upper
  rw [r.printedText_eq, length_append]
  omega

theorem digits_length_le : r.digits.length ≤ 64 := by
  by_cases hm : r.magnitude = 0
  · simp [digits, hm]
  · rw [← r.digitBuffer_reverse hm, length_reverse]
    exact digitBuffer_length_le _ _ _ _

theorem standardText_length_lt : r.standardText.length < 2 ^ 34 := by
  have hdigits := r.digits_length_le
  have hwidth : r.minWidth < 2 ^ 31 := r.width_lt
  have hprecision : r.minDigits.getD 1 < 2 ^ 31 := by
    cases hp : r.minDigits with
    | none => decide
    | some p => exact r.minDigits_lt hp
  have hbody : r.standardBody.length ≤ 2 ^ 31 + 65 := by
    rw [standardBody]
    split
    · rw [length_cons, length_append, length_replicate]
      omega
    · rw [length_append, length_replicate]
      omega
  have hmark : r.standardMark.length ≤ 2 := by
    rw [standardMark]
    split
    · exact le_rfl
    · exact Nat.le_trans (by rw [mark, length_append]; omega) r.mark_length_le
  have hlength : r.standardText.length = r.minWidth - (r.standardMark ++ r.standardBody).length +
        (r.standardMark ++ r.standardBody).length := by
    rw [standardText]
    split_ifs
    all_goals
      simp only [length_append, length_replicate]
      omega
  rw [hlength, length_append]
  omega

theorem produces_iff (hlt : text.length < 2 ^ 34) : r.Produces text ↔ r.printedText = text := by
  obtain ⟨rc, hrun⟩ := r.vfprintf_eq
  constructor
  · intro h
    have hprinted := r.printedText_length_lt
    obtain ⟨rc', htext⟩ := h (fun _ => 1) (2 ^ 34) hlt (by decide)
    rw [vsnprintf_of_vfprintf hrun _ _ (by decide) (by decide)] at htext
    exact terminated_inj hprinted hlt (congrArg Prod.fst (Except.ok.inj htext))
  · rintro rfl s n hn hsize
    exact ⟨rc, vsnprintf_of_vfprintf hrun s n (by omega) hsize⟩

/-- **Integer conversions.** `vsnprintf` produces the text of the C standard exactly for the
requests that conform. -/
theorem vsnprintf_standard_iff : r.Produces r.standardText ↔ r.Conforms := by
  rw [r.produces_iff r.standardText_length_lt]
  exact r.printedText_eq_standardText_iff

end Request

theorem five_head : [(5 : Fin 10)].head? ≠ some 0 := by decide

theorem five_lt : decimal [5] < 2 ^ 31 := by decide

theorem no_precision_lt : ∀ ds ∈ (none : Option (List (Fin 10))), decimal ds < 2 ^ 31 :=
  fun _ hds => absurd hds (Option.not_mem_none _)

def minusThree : Request :=
  ⟨[], [5], five_head, five_lt, none, no_precision_lt, .d, UInt64.ofNat (2 ^ 64 - 3)⟩

/-- The blanks stand behind the sign. -/
theorem sign_before_blanks :
    minusThree.printedText = ['-', ' ', ' ', ' ', '3'].map Char.toUInt8 ∧
      minusThree.standardText = [' ', ' ', ' ', '-', '3'].map Char.toUInt8 ∧
      ¬ minusThree.Produces minusThree.standardText := by
  have hprinted : minusThree.printedText = ['-', ' ', ' ', ' ', '3'].map Char.toUInt8 := by
    decide +kernel
  have hstandard : minusThree.standardText = [' ', ' ', ' ', '-', '3'].map Char.toUInt8 := by
    decide +kernel
  refine ⟨hprinted, hstandard, ?_⟩
  rw [minusThree.produces_iff minusThree.standardText_length_lt, hprinted, hstandard]
  decide

end Printf
