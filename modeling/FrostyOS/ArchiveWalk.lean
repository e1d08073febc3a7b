import FrostyOS.InitRAMFS

/-! # The walk over the headers of an archive

A header leads to the next one by its size, twelve characters that nobody checks. -/
namespace InitRAMFS

open MachineWord VFS

def nextHeader (mem : Memory) (header : ℕ) : ℕ :=
  u64 (header + 512 + alignUp (readHeader mem header).size 512)

/-- The size, and the pointer that is stored if one is. -/
def ustarLookup (mem : Memory) (filename : Bytes) : ℕ → ℕ → Option (ℕ × Option ℕ)
  | 0, _ => none
  | fuel + 1, header =>
    if hasMagic mem header then
      if field mem header (filename.length + 1) = filename ++ [0] then
        let size := (readHeader mem header).size
        some (size, if 0 < size then some (u64 (header + 512)) else none)
      else ustarLookup mem filename fuel (nextHeader mem header)
    else some (0, none)

/-- The number in octal that the characters stand for; they are signed. -/
def octal : Bytes → ℤ → ℤ
  | [], n => n
  | c :: rest, n => if c = 0 then n else octal rest (n * 8 + (signedChar c - 48))

/-- The rounded size, as a word, does not lead behind the end of memory. -/
def Advances (mem : Memory) (header : ℕ) : Prop :=
  header + 512 + (octal (field mem (header + 124) 12) 0 + 511) / 512 * 512 % (2 ^ 64 : ℕ) <
    (2 ^ 64 : ℕ)

variable {mem : Memory} {header : ℕ}

theorem asciiOct_octal (bytes : Bytes) {num : ℕ} {n} (h : (num : ℤ) = n % (2 ^ 64 : ℕ)) :
    (asciiOctToUInt bytes num : ℤ) = octal bytes n % (2 ^ 64 : ℕ) := by
  induction bytes generalizing num n with
  | nil => exact h
  | cons c rest ih =>
    rw [asciiOctToUInt, octal]
    split
    · exact h
    · apply ih
      omega

theorem advances_iff (h : header < 2 ^ 64) :
    header + 512 ≤ nextHeader mem header ↔ Advances mem header := by
  have hsize : (asciiOctToUInt (field mem (header + 124) 12) 0 : ℤ) =
      octal (field mem (header + 124) 12) 0 % (2 ^ 64 : ℕ) := asciiOct_octal _ rfl
  unfold nextHeader Advances alignUp divRoundup u64
  change header + 512 ≤ (header + 512 + (asciiOctToUInt (field mem (header + 124) 12) 0 +
    (512 - 1)) % 2 ^ 64 / 512 * 512 % 2 ^ 64) % 2 ^ 64 ↔ _
  omega

/-- The walk comes from one header to the other. -/
inductive Visits (mem : Memory) : ℕ → ℕ → Prop where
  | refl (header : ℕ) : Visits mem header header
  | next {header x : ℕ} (hm : hasMagic mem header) (h : Visits mem (nextHeader mem header) x) :
      Visits mem header x

section Ends

variable {fuel : ℕ} (hA : ∀ x, Visits mem header x → hasMagic mem x → Advances mem x)
  (hlt : header < 2 ^ 64) (hfuel : 2 ^ 64 ≤ header + 512 * fuel)

include hA hlt hfuel

theorem ustarLookup_ends (filename : Bytes) : (ustarLookup mem filename fuel header).isSome := by
  induction fuel generalizing header with
  | zero => omega
  | succ fuel ih =>
    rw [ustarLookup]
    split
    · next hm =>
      split
      · rfl
      · have hnext := (advances_iff hlt).mpr (hA header (.refl _) hm)
        exact ih (fun x hx => hA x (.next hm hx)) (u64_lt _) (by omega)
    · rfl

theorem load_stops {F : Type} (S : FileSystems F) (size : ℕ) (address : ℕ → ℕ) (more : ℕ)
    (v : VFS.State F) :
    load S mem size address (fuel + more) header v = load S mem size address fuel header v := by
  induction fuel generalizing header v with
  | zero => omega
  | succ fuel ih =>
    rw [Nat.add_right_comm, load, load]
    split
    · next hm =>
      have hnext := (advances_iff hlt).mpr (hA header (.refl _) hm.1)
      dsimp only
      congr 1
      funext w
      exact ih (fun x hx => hA x (.next hm.1 hx)) (u64_lt _) (by omega) w
    · rfl

end Ends

/-- A size field that stands for -512 in front of the magic number. -/
def standstill : Memory := fun x =>
  if x = 124 then 240 else if x = 125 then 48
  else if 257 ≤ x then ustar.getD (x - 257) 0 else 0

end InitRAMFS
