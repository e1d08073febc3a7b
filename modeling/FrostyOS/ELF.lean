import FrostyOS.ByteMemory
import FrostyOS.PageSource
import FrostyOS.PageTables
import FrostyOS.Trace

/-! # Loading an ELF executable

`ELF_Executable::Load` up to the entry point, as the trace of the fields it reads, the pages
it takes, the bytes it zeroes and copies, and the permissions it sets. -/

open MachineWord
open PageTables (PagePermissions)

namespace ELF

/-- The executable's buffer, at `addr` in the kernel's memory and `fileSize` bytes long. The
kernel is above the user's part of the address space. -/
structure Image where
  memory : ℕ → UInt8
  addr : ℕ
  fileSize : ℕ
  kernel : userEnd ≤ addr
  fits : addr + fileSize + 8 ≤ 2 ^ 64

structure Pages where
  start : ℕ
  count : ℕ
  deriving DecidableEq, Repr

def Pages.Contains (p : Pages) (x : ℕ) : Prop := p.start ≤ x ∧ x < p.start + p.count * pageSize

/-- What the loader does to memory. The two bulk operations are marked with the pages that
were taken for the segment at hand; lengths are in bytes, except for the quadwords of
`fast_memset`. -/
inductive Action where
  | read (addr length : ℕ)
  | allocate (pages : Pages)
  | fastMemset (pages : Pages) (dst count : ℕ)
  | fastMemcpy (pages : Pages) (dst src length : ℕ)
  | remap (addr : ℕ) (perms : PagePermissions)
  deriving DecidableEq, Repr

structure ProgramHeader where
  flags : ℕ
  offsetWithinFile : ℕ
  virtualAddress : ℕ
  sizeInFile : ℕ
  sizeInMemory : ℕ
  requiredAlignment : ℕ
  deriving DecidableEq, Repr

namespace Image

variable (image : Image)

def word (a length : ℕ) : ℕ :=
  ByteMemory.ofBytes ((List.range length).map fun i => image.memory (u64 (a + i)))

def field (p offset length : ℕ) : ℕ := image.word (u64 (p + offset)) length

def fileType : ℕ := image.field image.addr 16 2

def bitArch : ℕ := image.field image.addr 4 1

def endianess : ℕ := image.field image.addr 5 1

def instructionSet : ℕ := image.field image.addr 18 2

def programHeaderTablePosition : ℕ := image.field image.addr 32 8

def programHeaderEntrySize : ℕ := image.field image.addr 54 2

def programHeaderEntryCount : ℕ := image.field image.addr 56 2

def headerAt (i : ℕ) : ℕ :=
  u64 (u64 (image.addr + image.programHeaderTablePosition) + u64 (i * image.programHeaderEntrySize))

def segmentType (i : ℕ) : ℕ := image.field (image.headerAt i) 0 4

def programHeader (i : ℕ) : ProgramHeader where
  flags := image.field (image.headerAt i) 4 4
  offsetWithinFile := image.field (image.headerAt i) 8 8
  virtualAddress := image.field (image.headerAt i) 16 8
  sizeInFile := image.field (image.headerAt i) 32 8
  sizeInMemory := image.field (image.headerAt i) 40 8
  requiredAlignment := image.field (image.headerAt i) 48 8

def get (p offset length : ℕ) : Trace Action ℕ :=
  .act (.read (u64 (p + offset)) length) (image.field p offset length)

end Image

/-- `log2` is a `bsr`, which leaves its result as it was for zero. -/
def log2 (left : UInt8) (n : ℕ) : ℕ := if n = 0 then left.toNat else n.log2

/-- `(n >> shift) << shift`; the processor takes the shift modulo 64. -/
def shiftClear (n shift : ℕ) : ℕ := n >>> (shift % 64) <<< (shift % 64)

namespace ProgramHeader

variable (h : ProgramHeader) (left : UInt8)

def perms : PagePermissions :=
  if h.flags.testBit 0 then
    if h.flags.testBit 2 then .readExecute else .execute
  else if h.flags.testBit 1 then
    if h.flags.testBit 2 then .readWrite else .write
  else .read

def alignment : ℕ := log2 left h.requiredAlignment

def start : ℕ := alignDown h.virtualAddress 8

def memSize : ℕ :=
  shiftClear (u64 (h.sizeInMemory + subWord (alignUp h.requiredAlignment 8) 1)) (h.alignment left)

def pageCount : ℕ := divRoundup (h.memSize left) pageSize

def pageStart : ℕ := shiftClear h.start (if h.alignment left < 12 then 12 else h.alignment left)

def copySize : ℕ := alignUp h.sizeInFile 8

end ProgramHeader

def Image.source (image : Image) (h : ProgramHeader) : ℕ :=
  alignDown (u64 (image.addr + h.offsetWithinFile)) 8

section Load

variable (image : Image)

/-- `memcmp` with the magic number, from its `i`th byte on. -/
def sameMagic : List ℕ → ℕ → Trace Action Bool
  | [], _ => pure true
  | c :: cs, i => do
    let b ← image.get image.addr i 1
    if c = b then sameMagic cs (i + 1) else pure false

def magic : List ℕ := [0x7F, 0x45, 0x4C, 0x46]

def checkHeader : Trace Action Unit := do
  let same ← sameMagic image magic 0
  if same = false then .stop
  else
    let fileType ← image.get image.addr 16 2
    if fileType ≠ 2 then .stop
    else
      let bitArch ← image.get image.addr 4 1
      if bitArch ≠ 2 then .stop
      else
        let endianess ← image.get image.addr 5 1
        if endianess ≠ 1 then .stop
        else
          let instructionSet ← image.get image.addr 18 2
          if instructionSet ≠ 0x3e then .stop else pure ()

/-- The loop condition, which reads the number of entries each time. -/
def moreHeaders (i : ℕ) : Trace Action Bool := do
  let count ← image.get image.addr 56 2
  pure (decide (i < count))

/-- The first loop's body. The extent of the segments that it computes is not used. -/
def scanHeader (i : ℕ) (_ : Unit) : Trace Action Unit := do
  let _ ← image.get image.addr 54 2
  let p := image.headerAt i
  let segmentType ← image.get p 0 4
  if segmentType = 0 ∨ segmentType = 4 then pure ()
  else if segmentType = 1 then
    let _ ← image.get p 48 8
    let _ ← image.get p 16 8
    let _ ← image.get p 40 8
    pure ()
  else .stop

variable (source : PageSource) (left : ℕ → UInt8)

/-- The second loop's body for a loadable segment. The address that the pages are given is
only compared with the null pointer: the segment goes to the page start that was asked for. -/
def loadSegment (i : ℕ) (s : source.State) : Trace Action source.State := do
  let p := image.headerAt i
  let h := image.programHeader i
  let _ ← image.get p 4 4
  let _ ← image.get p 48 8
  let _ ← image.get p 16 8
  let _ ← image.get p 40 8
  let _ ← image.get p 32 8
  match source.allocatePages s (h.pageCount (left i)) (h.pageStart (left i)) with
  | none => .stop
  | some (s, data) =>
    let pages : Pages := ⟨data, h.pageCount (left i)⟩
    Trace.emit (.allocate pages)
    Trace.emit (.fastMemset pages (h.pageStart (left i)) (h.memSize (left i) >>> 3))
    let _ ← image.get p 8 8
    Trace.emit (.fastMemcpy pages h.start (image.source h) h.copySize)
    Trace.emit (.remap (h.pageStart (left i)) h.perms)
    pure s

def loadHeader (i : ℕ) (s : source.State) : Trace Action source.State := do
  let _ ← image.get image.addr 54 2
  let segmentType ← image.get (image.headerAt i) 0 4
  if segmentType = 0 ∨ segmentType = 4 then pure s
  else if segmentType = 1 then loadSegment image source left i s
  else .stop

/-- `ELF_Executable::Load` up to the entry point, which is the result. The entry count is a
16-bit field. -/
def load : Trace Action ℕ := do
  checkHeader image
  let _ ← image.get image.addr 32 8
  Trace.loop (moreHeaders image) (scanHeader image) (2 ^ 16) 0 ()
  let _ ← Trace.loop (moreHeaders image) (loadHeader image source left) (2 ^ 16) 0 source.fresh
  image.get image.addr 24 8

end Load

end ELF
