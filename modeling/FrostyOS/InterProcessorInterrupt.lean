import FrostyOS.MachineWord
import FrostyOS.ThreadList
import Mathlib.Data.List.FinRange

/-! # Inter-processor interrupts

Messages are named by their addresses, which are used again once they were freed. Queuing a
message, the handler's work on one message and a look at `done` are single steps. -/
namespace IPI

open IntrusiveList Scheduling Function

/-- Which call a message is of, and which of its messages it is: a name that outlives the
structure. -/
abbrev Tag := ℕ × ℕ

/-- A message structure; its links are kept apart. -/
structure Message where
  data : UInt64
  wait : Bool
  done : Bool
  tag : Tag
  deriving DecidableEq, Repr

inductive Fault where
  | useAfterFree
  | doubleFree
  | nullPointer
  | outsideArray
  deriving DecidableEq, Repr

inductive DestinationShorthand where
  | noShorthand
  | self
  | allIncludingSelf
  | allExcludingSelf
  deriving DecidableEq, Repr

inductive Phase where
  /-- making and queuing the messages; the last one that was made may still have to be queued -/
  | filling (made : Option ℕ)
  /-- looking at the message with this index -/
  | waiting (i : ℕ)
  | returned
  deriving DecidableEq, Repr

structure Call (n : ℕ) where
  data : UInt64
  wait : Bool
  /-- the processors it is for, in the order in which they are enumerated -/
  targets : List (Fin n)
  listLen : ℕ
  /-- the array of pointers as far as it was written -/
  ipis : List ℕ
  phase : Phase
  deriving DecidableEq, Repr

/-- A message was made and entered in the array. -/
def Call.add {n : ℕ} (call : Call n) (a : ℕ) : Call n :=
  { call with ipis := call.ipis ++ [a], phase := .filling (some a) }

structure State (n : ℕ) where
  heap : ℕ → Option Message
  links : Links ℕ
  list : Fin n → ThreadList
  calls : ℕ → Option (Call n)
  /-- what was ever queued for a processor, in order -/
  queued : Fin n → List Tag
  /-- what a processor has processed, in order -/
  processed : Fin n → List Tag

def State.initial (n : ℕ) : State n :=
  ⟨fun _ => none, .cleared, fun _ => .empty, fun _ => none, fun _ => [], fun _ => []⟩

variable {n : ℕ}

def getProcessorCount (n : ℕ) : ℕ := n % 256

def listLen (n : ℕ) : DestinationShorthand → ℕ
  | .noShorthand | .self => 1
  | .allIncludingSelf => getProcessorCount n
  | .allExcludingSelf => MachineWord.subWord (getProcessorCount n) 1

/-- The processors a message is queued for; `destination` is the one that `GetProcessor` finds
and `caller` the current one. -/
def targets (caller destination : Fin n) : DestinationShorthand → List (Fin n)
  | .noShorthand => [destination]
  | .self => [caller]
  | .allIncludingSelf => List.finRange n
  | .allExcludingSelf => (List.finRange n).filter (· != caller)

def State.setCall (s : State n) (c : ℕ) (call : Call n) : State n :=
  { s with calls := update s.calls c (some call) }

def State.touch (s : State n) (a : ℕ) : Except Fault Message :=
  match s.heap a with
  | some m => .ok m
  | none => .error .useAfterFree

def State.touchAll (s : State n) : List ℕ → Except Fault Unit
  | [] => .ok ()
  | a :: rest => (s.touch a).bind fun _ => s.touchAll rest

def State.store (s : State n) (a : ℕ) (m : Option Message) : State n :=
  { s with heap := update s.heap a m }

def State.delete (s : State n) (a : ℕ) : Except Fault (State n) :=
  match s.heap a with
  | some _ => .ok (s.store a none)
  | none => .error .doubleFree

/-- The beginning of a call, up to the array of pointers. -/
def issue (s : State n) (c : ℕ) (caller destination : Fin n) (shorthand : DestinationShorthand)
    (data : UInt64) (wait : Bool) : State n :=
  match s.calls c with
  | some _ => s
  | none =>
    s.setCall c
      ⟨data, wait, targets caller destination shorthand, listLen n shorthand, [], .filling none⟩

/-- `new x86_64_IPI(IPI)` at an address that is free, and its entry in the array. -/
def make (s : State n) (c a : ℕ) : State n :=
  match s.calls c with
  | none => s
  | some call =>
    if call.phase = .filling none ∧ call.ipis.length < call.targets.length ∧ s.heap a = none then
      { s with
        heap := update s.heap a
          (some ⟨call.data, call.wait, false, (c, call.ipis.length)⟩)
        links := (s.links.setNext a none).setPrevious a none
        calls := update s.calls c (some (call.add a)) }
    else s

/-- `PushBack`, which writes to the last message and to the new one. -/
def pushBack (s : State n) (p : Fin n) (a : ℕ) : Except Fault (State n) :=
  (s.touchAll (s.list p).last.toList).bind fun _ => (s.touch a).map fun m =>
    { s with
      links := ((s.list p).pushBack s.links a).1
      list := update s.list p ((s.list p).pushBack s.links a).2
      queued := update s.queued p (s.queued p ++ [m.tag]) }

/-- The message that was made is queued under the lock of its processor. -/
def push (s : State n) (c : ℕ) : Except Fault (State n) :=
  match s.calls c with
  | none => .ok s
  | some call =>
    match call.phase, call.targets[call.ipis.length - 1]? with
    | .filling (some a), some p =>
      (pushBack s p a).map fun t => t.setCall c { call with phase := .filling none }
    | _, _ => .ok s

/-- `x86_64_SendIPI`, once every message is queued. -/
def send (s : State n) (c : ℕ) : State n :=
  match s.calls c with
  | none => s
  | some call =>
    if call.phase = .filling none ∧ call.ipis.length = call.targets.length then
      s.setCall c { call with phase := if call.wait then .waiting 0 else .returned }
    else s

/-- One look at `done` in the loop that waits; a message that is done is deleted. -/
def poll (s : State n) (c : ℕ) : Except Fault (State n) :=
  match s.calls c with
  | none => .ok s
  | some call =>
    match call.phase with
    | .waiting i =>
      if i < call.listLen then
        match call.ipis[i]? with
        | none => .error .outsideArray
        | some a =>
          (s.touch a).bind fun m =>
            if m.done then
              (s.delete a).map fun t => t.setCall c { call with phase := .waiting (i + 1) }
            else .ok s
      else .ok (s.setCall c { call with phase := .returned })
    | _ => .ok s

/-- `PopFront`: with more than one message, the first one and the one behind it are touched. -/
def popFront (s : State n) (p : Fin n) : Except Fault (Option ℕ × State n) :=
  match (s.list p).popFront s.links with
  | none => .error .nullPointer
  | some (a, links, l) =>
    (s.touchAll (if 1 < (s.list p).count then a.toList ++ l.start.toList else [])).map fun _ =>
      (a, { s with links := links, list := update s.list p l })

/-- The work on a message that was taken out; one that is waited for is left to the sender. -/
def process (s : State n) (p : Fin n) (a : ℕ) : Except Fault (State n) :=
  (s.touch a).bind fun m =>
    let logged :=
      { s with processed := update s.processed p (s.processed p ++ [m.tag]) }
    if m.wait then .ok (logged.store a (some { m with done := true })) else logged.delete a

/-- One turn of the loop of `x86_64_NMI_IPIHandler`. -/
def handle (s : State n) (p : Fin n) : Except Fault (State n) :=
  if 0 < (s.list p).count then
    (popFront s p).bind fun popped =>
      match popped.1 with
      | none => .error .nullPointer
      | some a => process popped.2 p a
  else .ok s

inductive Event (n : ℕ) where
  | issue (c : ℕ) (caller destination : Fin n) (shorthand : DestinationShorthand)
    (data : UInt64) (wait : Bool)
  | make (c a : ℕ)
  | push (c : ℕ)
  | send (c : ℕ)
  | poll (c : ℕ)
  | handle (p : Fin n)
  deriving DecidableEq, Repr

def step (s : State n) : Event n → Except Fault (State n)
  | .issue c caller destination shorthand data wait =>
    .ok (IPI.issue s c caller destination shorthand data wait)
  | .make c a => .ok (IPI.make s c a)
  | .push c => IPI.push s c
  | .send c => .ok (IPI.send s c)
  | .poll c => IPI.poll s c
  | .handle p => IPI.handle s p

def run (s : State n) : List (Event n) → Except Fault (State n)
  | [] => .ok s
  | e :: events => (step s e).bind fun t => run t events

end IPI
