import FrostyOS.Streams

/-! # Loading the initial RAM disk

`Initialise_InitRAMFS` walks over the headers of a ustar archive in memory and makes a file
or a folder for each, checking every step with an assertion. -/
namespace InitRAMFS

open Errno TempFS VFS MachineWord
open TempFileSystem (Name)

/-- A call returns, stops at a failed assertion, or has no result that the model knows. -/
inductive Result (α : Type) where
  | done (a : α)
  | assertion
  | stuck
  deriving DecidableEq, Repr

namespace Result

variable {α β : Type}

def bind : Result α → (α → Result β) → Result β
  | .done a, f => f a
  | .assertion, _ => .assertion
  | .stuck, _ => .stuck

def ofOption : Option α → Result α
  | some a => .done a
  | none => .stuck

/-- `assert` in front of what follows. -/
def check (holds : Bool) (rest : Result α) : Result α :=
  if holds then rest else .assertion

@[simp] theorem bind_done (a : α) (f : α → Result β) : bind (.done a) f = f a := rfl

@[simp] theorem bind_assertion (f : α → Result β) : bind .assertion f = .assertion := rfl

@[simp] theorem ofOption_some (a : α) : ofOption (some a) = .done a := rfl

@[simp] theorem check_true (rest : Result α) : check true rest = rest := rfl

@[simp] theorem check_false (rest : Result α) : check false rest = .assertion := rfl

end Result

abbrev Bytes := List UInt8

abbrev Memory := ℕ → UInt8

def field (mem : Memory) (offset length : ℕ) : Bytes :=
  (List.range length).map fun i => mem (offset + i)

def signedChar (c : UInt8) : ℤ :=
  if c.toNat < 128 then c.toNat else (c.toNat : ℤ) - 256

/-- `ASCII_OCT_To_UInt` from the digits that are left, in words of 64 bits. -/
def asciiOctToUInt : Bytes → ℕ → ℕ
  | [], num => num
  | c :: rest, num =>
    if c = 0 then num
    else asciiOctToUInt rest (((num * 8 : ℤ) + (signedChar c - 48)) % (2 ^ 64 : ℕ)).toNat

def toChar (c : UInt8) : Char := Char.ofNat c.toNat

def cString (bytes : Bytes) : Name := (bytes.takeWhile fun c => c ≠ 0).map toChar

def separator : UInt8 := 47

/-- The loop that looks for the last separator with something behind it. -/
def lastSeparator : Bytes → ℕ → Option ℕ → Option ℕ
  | c :: next :: rest, i, last =>
    if i < 99 ∧ c ≠ 0 then
      lastSeparator (next :: rest) (i + 1) (if c = separator ∧ next ≠ 0 then some i else last)
    else last
  | _, _, last => last

/-- The parts of `USTARItemHeader` that are read. The target of a link is looked for in the
512 bytes of the header. -/
structure Header where
  filepath : Bytes
  mode : ℕ
  uid : ℕ
  gid : ℕ
  size : ℕ
  typeFlag : UInt8
  filename : Bytes

def readHeader (mem : Memory) (o : ℕ) : Header where
  filepath := field mem o 100
  mode := asciiOctToUInt (field mem (o + 100) 8) 0
  uid := asciiOctToUInt (field mem (o + 108) 8) 0
  gid := asciiOctToUInt (field mem (o + 116) 8) 0
  size := asciiOctToUInt (field mem (o + 124) 12) 0
  typeFlag := mem (o + 156)
  filename := field mem (o + 157) 355

def ustar : Bytes := [117, 115, 116, 97, 114]

def hasMagic (mem : Memory) (o : ℕ) : Bool := field mem (o + 257) 5 = ustar

namespace Header

variable (h : Header)

def privilege : FilePrivilegeLevel := ⟨h.uid % 2 ^ 32, h.gid % 2 ^ 32, h.mode % 2 ^ 16⟩

def parent : Name :=
  match lastSeparator h.filepath 0 none with
  | none => [TempFileSystem.pathSeparator]
  | some i => cString (h.filepath.take i)

def name : Name :=
  match lastSeparator h.filepath 0 none with
  | none => cString h.filepath
  | some i => cString (h.filepath.drop (i + 1))

variable {h}

theorem parent_root (hsep : lastSeparator h.filepath 0 none = none) :
    h.parent = [TempFileSystem.pathSeparator] := by
  simp only [parent, hsep]

theorem parent_at {i : ℕ} (hsep : lastSeparator h.filepath 0 none = some i) :
    h.parent = cString (h.filepath.take i) := by
  simp only [parent, hsep]

theorem name_root (hsep : lastSeparator h.filepath 0 none = none) :
    h.name = cString h.filepath := by
  simp only [name, hsep]

theorem name_at {i : ℕ} (hsep : lastSeparator h.filepath 0 none = some i) :
    h.name = cString (h.filepath.drop (i + 1)) := by
  simp only [name, hsep]

end Header

variable {F : Type} (S : FileSystems F)

def loader : FilePrivilegeLevel := ⟨0, 0, 0o7777⟩

/-- The stream of a new file is filled and read back, and closed. -/
def fill (v : VFS.State F) (address : ℕ) (stream : FileStream) (data : Bytes) (size : ℕ) :
    Result (VFS.State F) :=
  match stream.openFile S v.files with
  | (files, stream, rc) =>
    .check (rc = 0) <|
    (Result.ofOption (stream.writeStream S files data (asSigned size))).bind
      fun (files, stream, count, _) =>
    .check (count = asSigned size) <|
    (Result.ofOption (stream.rewind S files)).bind fun (files, stream, rc) =>
    .check (rc = 0) <|
    (Result.ofOption
      (stream.readStream S files (List.replicate size 0) (asSigned size))).bind
        fun (files, stream, count, buffer) =>
    .check (count = asSigned size) <|
    .check (buffer = data) <|
    match stream.closeFile S files with
    | (files, stream, rc) =>
      .check (rc = 0) <|
      (Result.ofOption (State.closeStream S
        { v with files, fileStreams := Function.update v.fileStreams address (some stream) }
        (some address))).bind fun (v, rc) => .check (rc = 0) (.done v)

def loadFile (v : VFS.State F) (address : ℕ) (parent name path : Name) (size : ℕ)
    (privilege : FilePrivilegeLevel) (data : Bytes) : Result (VFS.State F) :=
  (Result.ofOption (v.createFile S loader parent name size false privilege)).bind
    fun (v, rc) =>
  .check (rc = 0) <|
  if size = 0 then .done v
  else
    (Result.ofOption (v.openStream S address loader path (vfsRead ||| vfsWrite) none)).bind fun
      | (_, .error _) => .assertion
      | (v, .ok address) =>
        (Result.ofOption (v.fileStreams address)).bind fun stream =>
          fill S v address stream data size

def loadFolder (v : VFS.State F) (parent name : Name) (privilege : FilePrivilegeLevel) :
    Result (VFS.State F) :=
  (Result.ofOption (v.createFolder S loader parent name false privilege)).bind fun (v, rc) =>
    .check (rc = 0) (.done v)

def loadSymLink (v : VFS.State F) (parent name target : Name) (privilege : FilePrivilegeLevel) :
    Result (VFS.State F) :=
  (Result.ofOption (v.createSymLink S loader parent name target false privilege)).bind
    fun (v, rc) => .check (rc = 0) (.done v)

/-- The body of the loop. `new` gives `address` for the stream. -/
def loadItem (v : VFS.State F) (address : ℕ) (h : Header) (data : Bytes) :
    Result (VFS.State F) := .check (h.filepath.getD 99 0 = 0) <|
  if h.typeFlag = 48 then
    loadFile S v address h.parent h.name (cString h.filepath) h.size h.privilege data
  else if h.typeFlag = 50 then
    loadSymLink S v h.parent h.name (cString h.filename) h.privilege
  else if h.typeFlag = 53 then loadFolder S v h.parent h.name h.privilege
  else .assertion

/-- The loop from the header at `o` on; the pointer to the header is a word. -/
def load (mem : Memory) (size : ℕ) (address : ℕ → ℕ) : ℕ → ℕ → VFS.State F → Result (VFS.State F)
  | 0, _, _ => .stuck
  | fuel + 1, o, v =>
    if hasMagic mem o ∧ o < size then
      let h := readHeader mem o
      (loadItem S v (address o) h (field mem (o + 512) h.size)).bind
        (load mem size address fuel (u64 (o + 512 + alignUp h.size 512)))
    else .done v

/-- With no VFS there is nothing to load into. -/
def initialiseInitRAMFS (mem : Memory) (size : ℕ) (address : ℕ → ℕ) (fuel : ℕ) :
    Option (VFS.State F) → Result (Option (VFS.State F) × Bool)
  | none => .done (none, false)
  | some v => (load S mem size address fuel 0 v).bind fun v => .done (some v, true)

end InitRAMFS
