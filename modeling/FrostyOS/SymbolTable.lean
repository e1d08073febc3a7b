import FrostyOS.ByteMemory
import Mathlib.Data.List.TakeWhile

/-! # The kernel's symbol table

`buildsymboltable` writes, for each symbol, the address in eight bytes, a zero byte, the name
and its termination; `ELFSymbols` reads the table back. -/
namespace SymbolTable

open ByteMemory List

def newline : UInt8 := 10

def hexDigit (c : UInt8) : Option ℕ :=
  if 48 ≤ c ∧ c ≤ 57 then some (c.toNat - 48)
  else if 97 ≤ c ∧ c ≤ 102 then some (c.toNat - 87)
  else if 65 ≤ c ∧ c ≤ 70 then some (c.toNat - 55)
  else none

def hexDigits (value : ℕ) : List UInt8 → ℕ
  | [] => value
  | c :: rest =>
    match hexDigit c with
    | some digit => hexDigits (16 * value + digit) rest
    | none => value

def isSpace (c : UInt8) : Bool := c == 32 || (9 ≤ c && c ≤ 13)

def skipHexMark : List UInt8 → List UInt8
  | zero :: x :: digit :: rest =>
    if zero = 48 ∧ (x = 120 ∨ x = 88) ∧ (hexDigit digit).isSome then digit :: rest
    else zero :: x :: digit :: rest
  | text => text

def hexNumber (text : List UInt8) : ℕ := min (hexDigits 0 (skipHexMark text)) (2 ^ 64 - 1)

/-- `strtoul` in base 16: white space is skipped and a sign accepted. -/
def strtoul (str : List UInt8) : ℕ :=
  match str.dropWhile isSpace with
  | [] => 0
  | sign :: rest =>
    if sign = 45 then (2 ^ 64 - hexNumber rest) % 2 ^ 64
    else if sign = 43 then hexNumber rest
    else hexNumber (sign :: rest)

/-- One symbol of the table; the name is printed up to a zero byte. -/
def encodeSymbol (address : ℕ) (name : List UInt8) : List UInt8 :=
  toBytes 8 address ++ [0] ++ name.takeWhile (· ≠ 0) ++ [0]

def encodeLines : ℕ → List UInt8 → List UInt8
  | 0, _ => []
  | fuel + 1, text =>
    if text = [] then []
    else
      let line := text.takeWhile (· ≠ newline)
      let symbol := encodeSymbol (strtoul (text.take 16)) (line.drop 19)
      match text.dropWhile (· ≠ newline) with
      | [] => symbol
      | _ :: rest => symbol ++ encodeLines fuel rest

/-- The file written for an input; a byte `0xFF` is taken for its end. Every line takes a
character at least, so the length of the text is fuel enough. -/
def buildSymbolTable (stdin : List UInt8) : List UInt8 :=
  let str := stdin.takeWhile (· ≠ 0xFF)
  encodeLines str.length str

structure ELFSymbol where
  name : List UInt8
  address : ℕ
  deriving DecidableEq, Repr

def decodeSymbols : ℕ → List UInt8 → List ELFSymbol
  | 0, _ => []
  | fuel + 1, data =>
    if data = [] then []
    else if data.getD 8 0 ≠ 0 ∨ data.length ≤ 9 then []
    else
      let name := (data.drop 9).takeWhile (· ≠ 0)
      ⟨name, ofBytes (data.take 8)⟩ :: decodeSymbols fuel (data.drop (9 + (name.length + 1)))

def elfSymbols (data : List UInt8) : List ELFSymbol :=
  if data.length < 10 then [] else decodeSymbols data.length data

def lookupSymbol (address : ℕ) : List ELFSymbol → Option (List UInt8)
  | [] => none
  | symbol :: rest =>
    if symbol.address = address then some symbol.name
    else if ∃ next ∈ rest.head?, symbol.address ≤ address ∧ address < next.address then
      some symbol.name
    else lookupSymbol address rest

def IsHexDigit (c : UInt8) : Prop := (hexDigit c).isSome

def IsLetter (c : UInt8) : Prop := (65 ≤ c ∧ c ≤ 90) ∨ (97 ≤ c ∧ c ≤ 122)

instance (c : UInt8) : Decidable (IsHexDigit c) := inferInstanceAs (Decidable (_ = true))

instance (c : UInt8) : Decidable (IsLetter c) := inferInstanceAs (Decidable (_ ∨ _))

/-- Sixteen hexadecimal digits, a space, the type, a space, the name. -/
structure NmLine where
  digits : List UInt8
  digits_length : digits.length = 16
  digits_hex : ∀ c ∈ digits, IsHexDigit c
  type : UInt8
  type_letter : IsLetter type
  name : List UInt8
  name_ne_nil : name ≠ []
  name_bytes : ∀ c ∈ name, c ≠ newline ∧ c ≠ 0 ∧ c ≠ 0xFF

open NmLine

namespace NmLine

variable (line : NmLine)

def bytes : List UInt8 := line.digits ++ [32, line.type, 32] ++ line.name

def address : ℕ := line.digits.foldl (fun value c => 16 * value + (hexDigit c).getD 0) 0

def symbol : ELFSymbol := ⟨line.name, line.address⟩

end NmLine

def nmOutput (lastNewline : Bool) : List NmLine → List UInt8
  | [] => []
  | [line] => line.bytes ++ if lastNewline then [newline] else []
  | line :: next :: rest => line.bytes ++ newline :: nmOutput lastNewline (next :: rest)

theorem hexDigit_lt {c} {d : ℕ} (h : hexDigit c = some d) : d < 16 := by
  simp only [hexDigit, UInt8.le_iff_toNat_le] at h
  split_ifs at h with h1 h2 h3 <;>
    (simp only [Option.some.injEq] at h; simp at *; omega)

theorem IsHexDigit.plain {c} (h : IsHexDigit c) : 48 ≤ c.toNat ∧ c.toNat ≤ 102 := by
  simp only [IsHexDigit, hexDigit, UInt8.le_iff_toNat_le] at h
  split_ifs at h with h1 h2 h3
  · simp at h1
    omega
  · simp at h2
    omega
  · simp at h3
    omega
  · exact absurd h (by simp)

variable {symbols : List ELFSymbol} {address : ℕ} {digits : List UInt8} (lastNewline : Bool)
  (lines : List NmLine) (fuel : ℕ) (line : NmLine) (rest : List UInt8)

theorem hexDigits_of_hex (h : ∀ c ∈ digits, IsHexDigit c) (value : ℕ) :
    hexDigits value digits =
      digits.foldl (fun value c => 16 * value + (hexDigit c).getD 0) value := by
  induction digits generalizing value with
  | nil => rfl
  | cons c rest ih =>
    obtain ⟨d, hd⟩ := Option.isSome_iff_exists.mp (h c (mem_cons_self ..))
    rw [hexDigits, hd, foldl_cons, hd]
    exact ih (fun c hc => h c (mem_cons_of_mem _ hc)) _

theorem foldl_hex_lt (h : ∀ c ∈ digits, IsHexDigit c) (value : ℕ) :
    digits.foldl (fun value c => 16 * value + (hexDigit c).getD 0) value <
      (value + 1) * 16 ^ digits.length := by
  induction digits generalizing value with
  | nil => simp
  | cons c rest ih =>
    obtain ⟨d, hd⟩ := Option.isSome_iff_exists.mp (h c (mem_cons_self ..))
    have hlt := hexDigit_lt hd
    rw [foldl_cons, hd, Option.getD_some, length_cons, pow_succ']
    calc _ < (16 * value + d + 1) * 16 ^ rest.length :=
          ih (fun c hc => h c (mem_cons_of_mem _ hc)) _
      _ ≤ (value + 1) * 16 * 16 ^ rest.length := Nat.mul_le_mul_right _ (by omega)
      _ = (value + 1) * (16 * 16 ^ rest.length) := mul_assoc ..

theorem NmLine.address_lt : line.address < 2 ^ 64 := by
  have h := foldl_hex_lt line.digits_hex 0
  rw [line.digits_length] at h
  exact h

theorem skipHexMark_of_hex (h : ∀ c ∈ digits, IsHexDigit c) : skipHexMark digits = digits := by
  match digits, h with
  | [], _ => rfl
  | [_], _ => rfl
  | [_, _], _ => rfl
  | zero :: x :: digit :: rest, h =>
    have hx : IsHexDigit x := h x (by simp)
    refine if_neg fun ⟨_, hmark, _⟩ => ?_
    rcases hmark with rfl | rfl
    · exact absurd hx (by decide)
    · exact absurd hx (by decide)

theorem NmLine.strtoul_digits : strtoul line.digits = line.address := by
  have hnumber : hexNumber line.digits = line.address := by
    rw [hexNumber, skipHexMark_of_hex line.digits_hex, hexDigits_of_hex line.digits_hex]
    exact Nat.min_eq_left (Nat.le_sub_one_of_lt line.address_lt)
  cases hd : line.digits with
  | nil =>
    have hlen := line.digits_length
    rw [hd] at hlen
    exact absurd hlen (by decide)
  | cons c rest =>
    have hc := (line.digits_hex c (by rw [hd]; exact mem_cons_self ..)).plain
    have hspace : isSpace c = false := by
      simp only [isSpace, Bool.or_eq_false_iff, beq_eq_false_iff_ne, ne_eq, ← UInt8.toNat_inj,
        Bool.and_eq_false_iff, decide_eq_false_iff_not, UInt8.le_iff_toNat_le]
      simp
      omega
    rw [strtoul, dropWhile_cons_of_neg (by rw [hspace]; decide)]
    simp only
    rw [if_neg (by rintro rfl; exact absurd hc.1 (by decide)),
      if_neg (by rintro rfl; exact absurd hc.1 (by decide)), ← hd, hnumber]

theorem NmLine.not_newline : ∀ c ∈ line.bytes, c ≠ newline ∧ c ≠ 0xFF := by
  intro c hc
  simp only [bytes, mem_append, mem_cons, not_mem_nil, or_false] at hc
  rcases hc with (hc | rfl | rfl | rfl) | hc
  · have h := (line.digits_hex c hc).plain
    constructor <;> rintro rfl
    · exact absurd h.1 (by decide)
    · exact absurd h.2 (by decide)
  · decide
  · have h := line.type_letter
    constructor
    · intro he
      rw [he] at h
      exact absurd h (by decide)
    · intro he
      rw [he] at h
      exact absurd h (by decide)
  · decide
  · exact ⟨(line.name_bytes c hc).1, (line.name_bytes c hc).2.2⟩

theorem NmLine.bytes_drop : line.bytes.drop 19 = line.name := by
  have h : (line.digits ++ [32, line.type, 32]).length = 19 := by
    rw [length_append, line.digits_length]
    rfl
  rw [bytes, ← h, drop_left]

theorem NmLine.bytes_take : (line.bytes ++ rest).take 16 = line.digits := by
  rw [bytes, append_assoc, append_assoc, ← line.digits_length, take_left]

def NmLine.encoded (line : NmLine) : List UInt8 := toBytes 8 line.address ++ [0] ++ line.name ++ [0]

theorem NmLine.encodeSymbol_eq : encodeSymbol line.address line.name = line.encoded := by
  have h : line.name.takeWhile (· ≠ 0) = line.name := by
    apply takeWhile_eq_self_iff.mpr
    intro c hc
    simpa using (line.name_bytes c hc).2.1
  rw [encodeSymbol, h, encoded]

theorem takeWhile_line :
    (line.bytes ++ newline :: rest).takeWhile (· ≠ newline) = line.bytes ∧
      (line.bytes ++ newline :: rest).dropWhile (· ≠ newline) = newline :: rest := by
  have h : ∀ c ∈ line.bytes, decide (c ≠ newline) := fun c hc => by
    simpa using (line.not_newline c hc).1
  constructor
  · rw [takeWhile_append_of_pos h, takeWhile_cons_of_neg (by simp), append_nil]
  · rw [dropWhile_append_of_pos h, dropWhile_cons_of_neg (by simp)]

theorem takeWhile_last_line :
    line.bytes.takeWhile (· ≠ newline) = line.bytes ∧
      line.bytes.dropWhile (· ≠ newline) = [] := by
  have h : ∀ c ∈ line.bytes, decide (c ≠ newline) := fun c hc => by
    simpa using (line.not_newline c hc).1
  exact ⟨takeWhile_eq_self_iff.mpr h, dropWhile_eq_nil_iff.mpr h⟩

theorem NmLine.bytes_ne_nil : line.bytes ≠ [] := by
  simp [bytes]

theorem encodeLines_line :
    encodeLines (fuel + 1) (line.bytes ++ newline :: rest) =
      line.encoded ++ encodeLines fuel rest := by
  obtain ⟨htake, hdrop⟩ := takeWhile_line line rest
  rw [encodeLines, if_neg (by simp), htake, hdrop]
  simp only [line.bytes_take, line.bytes_drop, line.strtoul_digits, line.encodeSymbol_eq]

theorem encodeLines_last : encodeLines (fuel + 1) line.bytes = line.encoded := by
  obtain ⟨htake, hdrop⟩ := takeWhile_last_line line
  have h16 : line.bytes.take 16 = line.digits := by
    have h := line.bytes_take []
    rwa [append_nil] at h
  rw [encodeLines, if_neg line.bytes_ne_nil, htake, hdrop]
  simp only [h16, line.bytes_drop, line.strtoul_digits, line.encodeSymbol_eq]

theorem encodeLines_nil : encodeLines fuel [] = [] := by
  cases fuel <;> rfl

theorem encodeLines_nmOutput (h : lines.length ≤ fuel) :
    encodeLines fuel (nmOutput lastNewline lines) = lines.flatMap encoded := by
  induction lines generalizing fuel with
  | nil => exact encodeLines_nil fuel
  | cons line rest ih =>
    obtain ⟨fuel, rfl⟩ := Nat.exists_eq_add_one_of_ne_zero (show fuel ≠ 0 by
      rw [length_cons] at h
      omega)
    have hrest : rest.length ≤ fuel := Nat.le_of_succ_le_succ h
    cases rest with
    | nil =>
      cases lastNewline with
      | true =>
        refine (encodeLines_line fuel line []).trans ?_
        rw [encodeLines_nil, flatMap_cons, flatMap_nil]
      | false =>
        rw [nmOutput, if_neg (by decide), append_nil, encodeLines_last, flatMap_cons,
          flatMap_nil, append_nil]
    | cons next rest =>
      rw [nmOutput, encodeLines_line, ih fuel hrest]
      rfl

theorem length_le_nmOutput : lines.length ≤ (nmOutput lastNewline lines).length := by
  induction lines with
  | nil => exact le_rfl
  | cons line rest ih =>
    have hpos : 0 < line.bytes.length := length_pos_of_ne_nil line.bytes_ne_nil
    cases rest with
    | nil =>
      rw [nmOutput, length_append, length_cons, length_nil]
      omega
    | cons next rest =>
      simp only [nmOutput, length_append, length_cons] at ih ⊢
      omega

theorem nmOutput_bytes : ∀ c ∈ nmOutput lastNewline lines, c ≠ 0xFF := by
  induction lines with
  | nil => exact fun c hc => absurd hc not_mem_nil
  | cons line rest ih =>
    intro c hc
    cases rest with
    | nil =>
      rw [nmOutput] at hc
      rcases mem_append.mp hc with hc | hc
      · exact (line.not_newline c hc).2
      cases lastNewline with
      | true =>
        rw [mem_singleton.mp hc]
        decide
      | false => exact absurd hc not_mem_nil
    | cons next rest =>
      rw [nmOutput] at hc
      rcases mem_append.mp hc with hc | hc
      · exact (line.not_newline c hc).2
      · rcases mem_cons.mp hc with rfl | hc
        · decide
        · exact ih c hc

theorem buildSymbolTable_nmOutput :
    buildSymbolTable (nmOutput lastNewline lines) = lines.flatMap encoded := by
  have h : (nmOutput lastNewline lines).takeWhile (· ≠ 0xFF) = nmOutput lastNewline lines := by
    apply takeWhile_eq_self_iff.mpr
    intro c hc
    simpa using nmOutput_bytes lastNewline lines c hc
  rw [buildSymbolTable, h]
  exact encodeLines_nmOutput lastNewline lines _ (length_le_nmOutput lastNewline lines)

theorem decodeSymbols_encoded :
    decodeSymbols (fuel + 1) (line.encoded ++ rest) =
      line.symbol :: decodeSymbols fuel rest := by
  have hlen : (toBytes 8 line.address).length = 8 := length_toBytes ..
  have hname : 0 < line.name.length := length_pos_of_ne_nil line.name_ne_nil
  have hdata : line.encoded ++ rest = toBytes 8 line.address ++ 0 :: (line.name ++ 0 :: rest) := by
    simp [encoded]
  have hdrop : (line.encoded ++ rest).drop 9 = line.name ++ 0 :: rest := by
    rw [hdata, drop_append, hlen, drop_of_length_le (by rw [hlen]; decide)]
    rfl
  have htake : ((line.encoded ++ rest).drop 9).takeWhile (· ≠ 0) = line.name := by
    rw [hdrop, takeWhile_append_of_pos fun c hc => by simpa using (line.name_bytes c hc).2.1,
      takeWhile_cons_of_neg (by simp), append_nil]
  have hzero : (line.encoded ++ rest).getD 8 0 = 0 := by
    rw [hdata, getD_eq_getElem?_getD, getElem?_append_right (by rw [hlen]), hlen]
    rfl
  have hword : (line.encoded ++ rest).take 8 = toBytes 8 line.address := by
    rw [hdata]
    exact take_left' hlen
  have hnext : (line.encoded ++ rest).drop (9 + (line.name.length + 1)) = rest := by
    rw [← drop_drop, hdrop, drop_append, drop_of_length_le (Nat.le_succ _)]
    simp
  have hlong : 9 < (line.encoded ++ rest).length := by
    rw [hdata, length_append, hlen, length_cons, length_append]
    omega
  have haddress : ofBytes (toBytes 8 line.address) = line.address := ofBytes_toBytes line.address_lt
  rw [decodeSymbols, if_neg (ne_nil_of_length_pos (by omega)),
    if_neg fun h => h.elim (fun h => h hzero) (not_le.mpr hlong)]
  simp only [htake, hword, haddress, hnext]
  rfl

theorem NmLine.ten_le_encoded : 10 < line.encoded.length := by
  have hname : 0 < line.name.length := length_pos_of_ne_nil line.name_ne_nil
  simp only [encoded, length_append, length_toBytes, length_singleton]
  omega

theorem decodeSymbols_nil : decodeSymbols fuel [] = [] := by
  cases fuel <;> rfl

theorem decodeSymbols_lines (h : lines.length ≤ fuel) :
    decodeSymbols fuel (lines.flatMap encoded) = lines.map symbol := by
  induction lines generalizing fuel with
  | nil => exact decodeSymbols_nil fuel
  | cons line rest ih =>
    obtain ⟨fuel, rfl⟩ := Nat.exists_eq_add_one_of_ne_zero (show fuel ≠ 0 by
      rw [length_cons] at h
      omega)
    rw [flatMap_cons, decodeSymbols_encoded, ih fuel (Nat.le_of_succ_le_succ h), map_cons]

theorem length_le_encoded : lines.length ≤ (lines.flatMap encoded).length := by
  induction lines with
  | nil => exact le_rfl
  | cons line rest ih =>
    have := line.ten_le_encoded
    rw [flatMap_cons, length_append, length_cons]
    omega

theorem elfSymbols_lines : elfSymbols (lines.flatMap encoded) = lines.map symbol := by
  cases lines with
  | nil => rfl
  | cons line rest =>
    have := line.ten_le_encoded
    rw [elfSymbols, if_neg (by rw [flatMap_cons, length_append]; omega)]
    exact decodeSymbols_lines _ _ (length_le_encoded _)

/-- The first symbol at exactly the address, else the last one below it if there is one
above. -/
def symbolAt (symbols : List ELFSymbol) (address : ℕ) : Option (List UInt8) :=
  match symbols.find? (·.address = address) with
  | some symbol => some symbol.name
  | none =>
    if ∃ symbol ∈ symbols, address < symbol.address then
      ((symbols.filter (·.address < address)).getLast?).map ELFSymbol.name
    else none

def SortedByAddress (symbols : List ELFSymbol) : Prop :=
  symbols.Pairwise fun a b => a.address ≤ b.address

instance (symbols : List ELFSymbol) : Decidable (SortedByAddress symbols) :=
  inferInstanceAs (Decidable (Pairwise _ _))

theorem symbolAt_of_above (h : ∀ s ∈ symbols, address < s.address) :
    symbolAt symbols address = none := by
  have hfind : symbols.find? (·.address = address) = none := by
    apply find?_eq_none.mpr
    intro s hs
    have := h s hs
    simp only [decide_eq_true_eq]
    omega
  have hfilter : symbols.filter (·.address < address) = [] := by
    apply filter_eq_nil_iff.mpr
    intro s hs
    have := h s hs
    simp only [decide_eq_true_eq]
    omega
  simp only [symbolAt, hfind, hfilter]
  split <;> rfl

theorem symbolAt_cons_of_between {symbol rest} (hbelow : symbol.address < address) (hne : rest ≠ [])
    (h : ∀ s ∈ rest, address < s.address) :
    symbolAt (symbol :: rest) address = some symbol.name := by
  have hfind : (symbol :: rest).find? (·.address = address) = none := by
    apply find?_eq_none.mpr
    intro s hs
    simp only [decide_eq_true_eq]
    rcases mem_cons.mp hs with rfl | hs
    · omega
    · have := h s hs
      omega
  have hfilter : (symbol :: rest).filter (·.address < address) = [symbol] := by
    rw [filter_cons_of_pos (by simpa using hbelow), filter_eq_nil_iff.mpr]
    intro s hs
    have := h s hs
    simp only [decide_eq_true_eq]
    omega
  obtain ⟨next, hnext⟩ := exists_mem_of_ne_nil rest hne
  simp only [symbolAt, hfind, hfilter]
  rw [if_pos ⟨next, mem_cons_of_mem _ hnext, h next hnext⟩]
  rfl

theorem symbolAt_cons_of_next {symbol next rest} (hbelow : symbol.address < address)
    (hnext : next.address ≤ address) :
    symbolAt (symbol :: next :: rest) address = symbolAt (next :: rest) address := by
  have hfind : (symbol :: next :: rest).find? (·.address = address) =
      (next :: rest).find? (·.address = address) :=
    find?_cons_of_neg (by simp only [decide_eq_true_eq]; omega)
  have habove : (∃ s ∈ symbol :: next :: rest, address < s.address) ↔
      ∃ s ∈ next :: rest, address < s.address := by
    constructor
    · rintro ⟨s, hs, hlt⟩
      rcases mem_cons.mp hs with rfl | hs
      · omega
      · exact ⟨s, hs, hlt⟩
    · rintro ⟨s, hs, hlt⟩
      exact ⟨s, mem_cons_of_mem _ hs, hlt⟩
  simp only [symbolAt, hfind, habove]
  cases hf : (next :: rest).find? _ with
  | some s => rfl
  | none =>
    have hlt : next.address < address := by
      have := find?_eq_none.mp hf next (mem_cons_self ..)
      simp only [decide_eq_true_eq] at this
      omega
    rw [filter_cons_of_pos (by simpa using hbelow),
      filter_cons_of_pos (by simpa using hlt), getLast?_cons_cons]

theorem lookupSymbol_eq (h : SortedByAddress symbols) (address : ℕ) :
    lookupSymbol address symbols = symbolAt symbols address := by
  induction symbols with
  | nil => rfl
  | cons symbol rest ih =>
    obtain ⟨hle, hrest⟩ := pairwise_cons.mp h
    by_cases heq : symbol.address = address
    · have hfind : (symbol :: rest).find? (·.address = address) = some symbol :=
        find?_cons_of_pos (by simpa using heq)
      rw [lookupSymbol, if_pos heq]
      simp only [symbolAt, hfind]
    rw [lookupSymbol, if_neg heq]
    cases rest with
    | nil =>
      rw [if_neg (by simp), lookupSymbol]
      by_cases hlt : address < symbol.address
      · refine (symbolAt_of_above fun s hs => ?_).symm
        rw [mem_singleton.mp hs]
        exact hlt
      · have hfind : [symbol].find? (·.address = address) = none := by
          simpa using heq
        simp only [symbolAt, hfind]
        rw [if_neg (by simpa using not_lt.mp hlt)]
    | cons next rest =>
      have hnext := (pairwise_cons.mp hrest).1
      by_cases hin : symbol.address ≤ address ∧ address < next.address
      · rw [if_pos ⟨next, rfl, hin⟩]
        refine (symbolAt_cons_of_between (by omega) (cons_ne_nil _ _) fun s hs => ?_).symm
        rcases mem_cons.mp hs with rfl | hs
        · exact hin.2
        · exact hin.2.trans_le (hnext s hs)
      · rw [if_neg (by simpa using hin), ih hrest]
        by_cases hlt : address < symbol.address
        · rw [symbolAt_of_above, symbolAt_of_above]
          · intro s hs
            rcases mem_cons.mp hs with rfl | hs
            · exact hlt
            · exact hlt.trans_le (hle s hs)
          · exact fun s hs => hlt.trans_le (hle s hs)
        · exact (symbolAt_cons_of_next (by omega) (by omega)).symm

def exampleDigits : List UInt8 := replicate 8 102 ++ 56 :: replicate 7 48

theorem exampleDigits_hex : ∀ c ∈ exampleDigits, IsHexDigit c := by decide +kernel

theorem exampleType_letter : IsLetter 84 := by decide

theorem exampleName_bytes : ∀ c ∈ [(102 : UInt8)], c ≠ newline ∧ c ≠ 0 ∧ c ≠ 0xFF := by
  decide +kernel

def exampleLine : NmLine :=
  ⟨exampleDigits, rfl, exampleDigits_hex, 84, exampleType_letter, [102], cons_ne_nil _ _,
    exampleName_bytes⟩

end SymbolTable
