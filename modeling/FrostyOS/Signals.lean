import FrostyOS.ByteMemory
import FrostyOS.Process

/-! # Signals of a process

`ReceiveSignal` moves the main thread to a handler and patches the code so that its end leads
to `sys_sigreturn`. Kernel stores to user memory succeed; a read of a deleted object is a
fault. -/
namespace Signals

open MachineWord ByteMemory
open PageTables (Layout PagePermissions)

inductive Signal where
  | sigabrt | sigfpe | sigill | sigint | sigsegv | sigterm | sigkill | sigchld
  deriving DecidableEq, Repr

def Signal.number : Signal → ℕ
  | .sigabrt => 1
  | .sigfpe => 2
  | .sigill => 3
  | .sigint => 4
  | .sigsegv => 5
  | .sigterm => 6
  | .sigkill => 7
  | .sigchld => 8

def sigDfl : ℤ := 1
def sigIgn : ℤ := 2
def sigRetStatusOffset : ℕ := 128

structure SignalAction where
  handler : UInt64
  flags : ℤ
  deriving DecidableEq, Repr

structure Registers where
  RAX : UInt64
  RBX : UInt64
  RCX : UInt64
  RDX : UInt64
  RSI : UInt64
  RDI : UInt64
  RSP : UInt64
  RBP : UInt64
  R8 : UInt64
  R9 : UInt64
  R10 : UInt64
  R11 : UInt64
  R12 : UInt64
  R13 : UInt64
  R14 : UInt64
  R15 : UInt64
  RIP : UInt64
  CS : UInt16
  DS : UInt16
  RFLAGS : UInt64
  CR3 : UInt64
  alignment : UInt32
  deriving DecidableEq, Repr

/-- `SignalMetadata`, without the buffer of the new instructions, which lives in one call. -/
structure SignalMetadata where
  inSignalHandler : Bool
  retInsSize : ℕ
  oldIns : Option (List UInt8)
  oldRegs : Option Registers
  extraData : UInt64
  deriving DecidableEq, Repr

/-- A process with the registers of its main thread and its user memory. -/
structure State (F U A : Type) where
  process : Process F U A
  regs : Registers
  memory : Memory
  actions : Signal → SignalAction
  metadata : Signal → SignalMetadata

/-- Why a call does not come back to its caller. After `switched` the scheduler runs another
thread. -/
inductive Ended (σ : Type) where
  | exited (status : ℕ)
  | switched (s : σ)
  | fault
  | unbounded

variable {F U A : Type}

/-- `x86_64_GetSignalReturnInstructions`: load the call number and the signal, `syscall`. -/
def getSignalReturnInstructions (signum : Signal) : List UInt8 :=
  [0x48, 0xC7, 0xC0, 0x1D, 0x00, 0x00, 0x00, 0xBF] ++ toBytes 4 signum.number ++ [0x0F, 0x05]

variable (L : Layout) (current : Bool) (s : State F U A) (signum : Signal)

theorem length_getSignalReturnInstructions : (getSignalReturnInstructions signum).length = 14 := by
  simp [getSignalReturnInstructions]

section Pages

variable (L : Layout)

/-- The permissions of the pages, which are made writable one after the other. -/
def makeWritable (pm : PageManager F U A) (start pages : ℕ) :
    PageManager F U A × List PagePermissions := (List.range pages).foldl
    (fun acc i =>
      (acc.1.remap L (u64 (start + i * pageSize)) .readWrite,
        acc.2 ++ [PageManager.getPermissions acc.1.objects (u64 (start + i * pageSize))]))
    (pm, [])

def restorePermissions (pm : PageManager F U A) (start : ℕ) (perms : List PagePermissions) :
    PageManager F U A :=
  perms.zipIdx.foldl (fun pm q => pm.remap L (u64 (start + q.2 * pageSize)) q.1) pm

def State.writeInstructions (s : State F U A) (ins : List UInt8) (size : ℕ) :
    Except (Ended (State F U A)) (State F U A) :=
  match s.process.pm with
  | none => .error .fault
  | some pm =>
    let start := alignDown s.regs.RIP.toNat pageSize
    let stop := alignUp (u64 (s.regs.RIP.toNat + size)) pageSize
    let (pm, perms) := makeWritable L pm start (subWord stop start / pageSize)
    .ok { s with
      memory := store s.memory s.regs.RIP (ins.take size)
      process := ⟨s.process.region, some (restorePermissions L pm start perms)⟩ }

end Pages

namespace State

variable (s : State F U A) (signum : Signal)

def setRegs (regs : Registers) : State F U A := { s with regs := regs }

def setMetadata (data : SignalMetadata) : State F U A :=
  { s with metadata := Function.update s.metadata signum data }

def setFlags (flags : ℤ) : State F U A :=
  { s with actions := Function.update s.actions signum { s.actions signum with flags := flags } }

def saveRegs : State F U A :=
  s.setMetadata signum { s.metadata signum with
    oldRegs := some s.regs
    inSignalHandler := true
    retInsSize := 14 }

def pushRIP : State F U A :=
  let s := s.setRegs { s.regs with RSP := s.regs.RSP - 8 }
  let s := s.setMetadata signum
    { s.metadata signum with extraData := loadWord s.memory s.regs.RSP }
  { s with memory := storeWord s.memory s.regs.RSP s.regs.RIP }

def popRIP : State F U A :=
  let s := { s with memory := storeWord s.memory s.regs.RSP (s.metadata signum).extraData }
  s.setRegs { s.regs with RSP := s.regs.RSP + 8 }

def abandon : State F U A :=
  let s := if signum = .sigsegv then s.setFlags .sigsegv sigDfl else s
  s.setMetadata signum { s.metadata signum with oldRegs := none, inSignalHandler := false }

def saveIns : State F U A :=
  s.setMetadata signum { s.metadata signum with
    oldIns := some (load s.memory s.regs.RIP (s.metadata signum).retInsSize) }

def enterHandler (handler : UInt64) : State F U A :=
  s.setRegs { s.regs with RIP := handler, RDI := UInt64.ofNat signum.number }

def restoreRegs (regs : Registers) : State F U A :=
  let s := s.setRegs regs
  s.setMetadata signum { s.metadata signum with oldRegs := none }

/-- The saved instructions are deleted and the word below the stack is put back. -/
def leaveHandler : State F U A :=
  let s := s.setMetadata signum { s.metadata signum with oldIns := none }
  let s := { s with
    memory := storeWord s.memory (s.regs.RSP - 8) (s.metadata signum).extraData }
  s.setMetadata signum { s.metadata signum with inSignalHandler := false }

/-- The action of a signal without a handler. -/
def defaultAction : Except (Ended (State F U A)) (State F U A) :=
  match signum with
  | .sigchld => .ok s
  | _ => .error (.exited (signum.number + sigRetStatusOffset))

end State

section Calls

variable (L : Layout) (current : Bool)

/-- `current` says that the main thread is the running one. A failed check sends `SIGSEGV`
and goes on if that returns. `depth` bounds the calls within calls. -/
def receiveSignal : ℕ → State F U A → Signal → Except (Ended (State F U A)) (State F U A)
  | 0, _, _ => .error .unbounded
  | depth + 1, s, signum =>
    let action := s.actions signum
    if action.flags = sigIgn then .ok s
    else if action.flags = sigDfl then s.defaultAction signum
    else if (s.metadata signum).inSignalHandler then .ok s
    else do
      let s := s.saveRegs signum
      let s ← (if s.process.validateWrite (s.regs.RSP - 8).toNat 8 then .ok s
        else receiveSignal depth (s.abandon signum) .sigsegv)
      let s := s.pushRIP signum
      let s ← (if s.process.validateRead s.regs.RIP.toNat (s.metadata signum).retInsSize then .ok s
        else receiveSignal depth ((s.popRIP signum).abandon signum) .sigsegv)
      let s := s.saveIns signum
      let s ← s.writeInstructions L (getSignalReturnInstructions signum)
        (s.metadata signum).retInsSize
      let s := s.enterHandler signum action.handler
      if current then .error (.switched s) else .ok s

/-- Three calls within one another are enough: for the signal, for `SIGSEGV` and for its
default action. -/
def receiveDepth : ℕ := 3

/-- The call never comes back to its caller. -/
def sysSigreturn (s : State F U A) (signum : Signal) : Except (Ended (State F U A)) (State F U A) :=
  match (s.metadata signum).oldRegs with
  | none => .error .fault
  | some regs => do
    let s := s.restoreRegs signum regs
    let failed := if signum = .sigsegv then s.setFlags .sigsegv sigDfl else s
    let s ← (if s.process.validateRead s.regs.RIP.toNat (s.metadata signum).retInsSize then .ok s
      else receiveSignal L current receiveDepth failed .sigsegv)
    match (s.metadata signum).oldIns with
    | none => .error .fault
    | some ins =>
      let s ← s.writeInstructions L ins (s.metadata signum).retInsSize
      .error (.switched (s.leaveHandler signum))

end Calls

/-- How many calls within a call there can be. -/
def State.rank (s : State F U A) (signum : Signal) : ℕ :=
  if (s.actions signum).flags = sigDfl then 0 else if signum = .sigsegv then 1 else 2

theorem rank_lt_receiveDepth : s.rank signum < receiveDepth := by
  unfold State.rank receiveDepth
  split
  · omega
  · split <;> omega

theorem rank_abandon_lt (t : State F U A) {s : State F U A} {signum}
    (hflags : (s.actions signum).flags ≠ sigDfl) :
    (t.abandon signum).rank .sigsegv < s.rank signum := by
  unfold State.rank
  rw [if_neg hflags]
  by_cases hsegv : signum = .sigsegv
  · subst hsegv
    have hdfl : ((t.abandon .sigsegv).actions .sigsegv).flags = sigDfl := by
      simp [State.abandon, State.setFlags, State.setMetadata]
    rw [if_pos hdfl, if_pos rfl]
    exact Nat.one_pos
  · rw [if_neg hsegv]
    split <;> simp

theorem bind_ne_unbounded {σ : Type} {x : Except (Ended σ) σ} {f : σ → Except (Ended σ) σ}
    (hx : x ≠ .error .unbounded) (hf : ∀ s, f s ≠ .error .unbounded) :
    (x >>= f) ≠ .error .unbounded := by
  cases x with
  | error e => exact hx
  | ok s => exact hf s

theorem writeInstructions_ne_unbounded (ins : List UInt8) (size : ℕ) :
    s.writeInstructions L ins size ≠ .error .unbounded := by
  unfold State.writeInstructions
  split
  · exact nofun
  · exact nofun

theorem defaultAction_ne_unbounded : s.defaultAction signum ≠ .error .unbounded := by
  cases signum <;> exact nofun

theorem receiveSignal_ne_unbounded_of_rank {depth : ℕ} {s : State F U A} {signum}
    (hrank : s.rank signum < depth) :
    receiveSignal L current depth s signum ≠ .error .unbounded := by
  induction depth generalizing s signum with
  | zero => omega
  | succ depth ih =>
    rw [receiveSignal]
    dsimp only
    split
    · exact nofun
    split
    · exact defaultAction_ne_unbounded s signum
    next hflags =>
    split
    · exact nofun
    -- each failed check leads to a call of lower rank
    have hagain : ∀ t : State F U A,
        receiveSignal L current depth (t.abandon signum) .sigsegv ≠ .error .unbounded := by
      intro t
      exact ih (Nat.lt_of_lt_of_le (rank_abandon_lt t hflags) (Nat.le_of_lt_succ hrank))
    apply bind_ne_unbounded
    · split
      · exact nofun
      · exact hagain _
    intro s₁
    apply bind_ne_unbounded
    · split
      · exact nofun
      · exact hagain _
    intro s₂
    apply bind_ne_unbounded (writeInstructions_ne_unbounded L _ _ _)
    intro s₃
    split <;> exact nofun

theorem receiveSignal_ne_unbounded :
    receiveSignal L current receiveDepth s signum ≠ .error .unbounded :=
  receiveSignal_ne_unbounded_of_rank L current (rank_lt_receiveDepth s signum)

end Signals
