import FrostyOS.Errno
import FrostyOS.MachineWord

/-! # Files of the temporary file system

The stream functions of `TempFSInode.cpp` on an inode that is not a symbolic link. A file
is a list of blocks with a cursor of three parts; a copy that would leave its block or the
caller's buffer has no result. -/
namespace TempFS

open Errno MachineWord

inductive InodeType where
  | file
  | folder
  deriving DecidableEq, Repr

structure FilePrivilegeLevel where
  uid : ℕ
  gid : ℕ
  acl : ℕ
  deriving DecidableEq, Repr

def aclRead : ℕ := 4

def aclWrite : ℕ := 2

def permits (owner caller : FilePrivilegeLevel) (bit : ℕ) : Bool :=
  if caller.uid = owner.uid ∨ caller.uid = 0 then owner.acl &&& (bit <<< 6) ≠ 0
  else if caller.gid = owner.gid ∨ caller.gid = 0 then owner.acl &&& (bit <<< 3) ≠ 0
  else owner.acl &&& bit ≠ 0

/-- The pages behind a block and the size that the block claims. -/
structure MemBlock where
  bytes : List UInt8
  size : ℕ
  size_lt : size < 2 ^ 64
  deriving DecidableEq, Repr

structure TempFSInode where
  type : InodeType
  privilegeLevel : FilePrivilegeLevel
  blockSize : ℕ
  currentOffset : ℤ
  isOpen : Bool
  data : List MemBlock
  size : ℕ
  currentBlockIndex : ℕ
  currentBlockOffset : ℕ
  deriving DecidableEq, Repr

structure Head where
  currentOffset : ℤ
  isOpen : Bool
  currentBlockIndex : ℕ
  currentBlockOffset : ℕ
  deriving DecidableEq, Repr

/-- Where pages for blocks come from, with what they hold. -/
structure PageSource (A : Type*) where
  allocatePages : A → ℕ → Option (List UInt8) × A

def memcpy (dst : List UInt8) (pos : ℕ) (src : List UInt8) (n : ℕ) : Option (List UInt8) :=
  if n ≤ src.length ∧ pos + n ≤ dst.length then
    some (dst.take pos ++ src.take n ++ dst.drop (pos + n))
  else none

/-- How a block loop was left: with the bytes it counted, and with the error that made the
caller return from inside it, if any. -/
structure Exit (E : Type*) where
  node : TempFSInode
  env : E
  done : ℕ
  stop : Option ℤ

structure Outcome (E : Type*) where
  node : TempFSInode
  env : E
  value : ℤ
  status : Option ℤ

namespace TempFSInode

variable {A : Type*} (S : PageSource A) (node : TempFSInode)

/-- `Create`; the members it does not set keep what the memory held. -/
def create (raw : TempFSInode) (type : InodeType) (privilege : FilePrivilegeLevel)
    (blockSize : ℕ) : TempFSInode :=
  { raw with
    type
    privilegeLevel := privilege
    blockSize
    currentOffset := 0
    data := []
    size := 0 }

def rewind : TempFSInode × ℤ :=
  if node.isOpen = false then (node, -ebadf)
  else if node.type ≠ .file then (node, -eisdir)
  else ({ node with currentBlockIndex := 0, currentBlockOffset := 0, currentOffset := 0 }, 0)

def openInode : TempFSInode × ℤ :=
  if node.isOpen then (node, 0)
  else if node.type ≠ .file then (node, -eisdir)
  else rewind { node with isOpen := true }

def closeInode : TempFSInode × ℤ :=
  if node.isOpen = false then (node, 0)
  else if node.type ≠ .file then (node, -eisdir)
  else ({ node with isOpen := false }, 0)

def setCurrentHead (head : Head) : TempFSInode :=
  { node with
    currentOffset := head.currentOffset
    isOpen := head.isOpen
    currentBlockIndex := head.currentBlockIndex
    currentBlockOffset := head.currentBlockOffset }

def getCurrentHead : Head :=
  ⟨node.currentOffset, node.isOpen, node.currentBlockIndex, node.currentBlockOffset⟩

/-- The loop of `Seek` over the blocks from the current one on. -/
def seekLoop (offset : ℕ) : List MemBlock → TempFSInode → TempFSInode
  | [], node => node
  | block :: rest, node =>
    if (offset : ℤ) < block.size + node.currentOffset then
      { node with
        currentBlockOffset := (offset - node.currentOffset).toNat
        currentOffset := offset }
    else
      seekLoop offset rest
        { node with
          currentBlockIndex := node.currentBlockIndex + 1
          currentOffset := node.currentOffset + block.size }

/-- `Seek` to an offset that is not negative. The search starts at the current block. -/
def seek (offset : ℕ) : TempFSInode × ℤ :=
  if node.isOpen = false then (node, -ebadf)
  else if node.type ≠ .file then (node, -eisdir)
  else if node.size ≤ offset then (node, -einval)
  else
    (seekLoop (alignUp offset 8) (node.data.drop node.currentBlockIndex)
      { node with currentOffset := 0 }, 0)

def getSize : ℕ × Option ℤ :=
  if node.type ≠ .file then (0, some (-eisdir)) else (node.size, none)

def expand (newSize : ℕ) (a : A) : TempFSInode × A × ℤ :=
  let size := alignUp (subWord newSize node.size) node.blockSize
  match S.allocatePages a (size / pageSize) with
  | (none, a) => (node, a, -enomem)
  | (some bytes, a) =>
    ({ node with size := newSize, data := node.data ++ [⟨bytes, size, u64_lt _⟩] }, a, 0)

def blockForWrite (count : ℕ) (a : A) : TempFSInode × A × ℤ :=
  match node.data[node.currentBlockIndex]? with
  | some _ => (node, a, 0)
  | none => node.expand S count a

def putBlock (block : MemBlock) (bytes : List UInt8) : TempFSInode :=
  { node with data := node.data.set node.currentBlockIndex { block with bytes } }

def advance (n : ℕ) : TempFSInode :=
  { node with currentBlockOffset := node.currentBlockOffset + n }

def nextBlock : TempFSInode :=
  { node with currentBlockOffset := 0, currentBlockIndex := node.currentBlockIndex + 1 }

/-- The block reaches past the last byte of the request. -/
def endsIn (block : MemBlock) (count currentCount : ℕ) : Prop :=
  count < u64 (subWord block.size node.currentBlockOffset + currentCount)

instance (block : MemBlock) (count currentCount : ℕ) :
    Decidable (node.endsIn block count currentCount) := inferInstanceAs (Decidable (_ < _))

def writeLoop (bytes : List UInt8) (count currentCount done : ℕ) (node : TempFSInode)
    (a : A) : Option (Exit A) :=
  if currentCount < count then
    match node.blockForWrite S count a with
    | (node, a, rc) =>
      if rc < 0 then
        some ⟨{ node with currentOffset := node.currentOffset + currentCount }, a, done, some rc⟩
      else
        match node.data[node.currentBlockIndex]? with
        | none => some ⟨node, a, done, some (-enosys)⟩
        | some block =>
          let offset := node.currentBlockOffset
          if node.endsIn block count currentCount then
            (memcpy block.bytes offset (bytes.drop currentCount) (count - currentCount)).map
              fun stored =>
                ⟨(node.putBlock block stored).advance (count - currentCount), a,
                  done + (count - currentCount), none⟩
          else if _h : offset < block.size then
            -- one byte less than the rest of the block is copied and counted
            match memcpy block.bytes offset (bytes.drop currentCount)
              (block.size - (offset + 1)) with
            | none => none
            | some stored =>
              writeLoop bytes count (currentCount + (block.size - offset))
                (done + (block.size - (offset + 1))) (node.putBlock block stored).nextBlock a
          -- the length of the copy wraps below zero
          else none
  else some ⟨node, a, done, none⟩
termination_by count - currentCount

def readLoop (count currentCount done : ℕ) (node : TempFSInode) (bytes : List UInt8) :
    Option (Exit (List UInt8)) :=
  if currentCount < count then
    if node.size ≤ node.currentOffset + done then
      some ⟨node, bytes, done, some (-einval)⟩
    else
      match node.data[node.currentBlockIndex]? with
      | none =>
        some ⟨{ node with currentOffset := node.currentOffset + currentCount }, bytes, done,
          some (-enosys)⟩
      | some block =>
        let offset := node.currentBlockOffset
        if node.endsIn block count currentCount then
          (memcpy bytes currentCount (block.bytes.drop offset) (count - currentCount)).map
            fun filled =>
              ⟨node.advance (count - currentCount), filled, done + (count - currentCount), none⟩
        else if _h : offset < block.size then
          match memcpy bytes currentCount (block.bytes.drop offset)
            (block.size - (offset + 1)) with
          | none => none
          | some filled =>
            readLoop count (currentCount + (block.size - offset))
              (done + (block.size - (offset + 1))) node.nextBlock filled
        else none
  else some ⟨node, bytes, done, none⟩
termination_by count - currentCount

def finish {E : Type*} (count : ℤ) (exit : Exit E) : Outcome E :=
  match exit.stop with
  | some rc => ⟨exit.node, exit.env, exit.done, some rc⟩
  | none =>
    ⟨{ exit.node with currentOffset := exit.node.currentOffset + count }, exit.env, exit.done,
      some 0⟩

def refusal (privilege : FilePrivilegeLevel) (bit : ℕ) (bytes : Option (List UInt8))
    (count : ℤ) : Option ℤ :=
  if node.isOpen = false then some (-ebadf)
  else if node.type ≠ .file then some (-eisdir)
  else if bytes = none ∨ count = 0 then some (-einval)
  else if permits node.privilegeLevel privilege bit then none
  else some (-eacces)

def writeStream (privilege : FilePrivilegeLevel) (bytes : Option (List UInt8)) (count : ℤ)
    (a : A) : Option (Outcome A) :=
  match node.refusal privilege aclWrite bytes count with
  | some rc => some ⟨node, a, rc, none⟩
  | none => (writeLoop S (bytes.getD []) count.toNat 0 0 node a).map (finish count)

def readStream (privilege : FilePrivilegeLevel) (bytes : Option (List UInt8)) (count : ℤ) :
    Option (Outcome (List UInt8)) :=
  match node.refusal privilege aclRead bytes count with
  | some rc => some ⟨node, bytes.getD [], rc, none⟩
  | none => (readLoop count.toNat 0 0 node (bytes.getD [])).map (finish count)

end TempFSInode

end TempFS
