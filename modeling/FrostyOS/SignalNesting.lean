import FrostyOS.MemoryCalls
import FrostyOS.Signals

/-! # Nested signals

Every return undoes the stores of its delivery, the last store first, so it does not matter
which of them overlap. -/
namespace Signals

open MachineWord ByteMemory State PageManager
open PageTables (Layout PagePermissions)

variable {F U A : Type} {L : Layout} {s t : State F U A} {signum : Signal}

def resumed {σ : Type} : Except (Ended σ) σ → Option σ
  | .ok s => some s
  | .error (.switched s) => some s
  | .error _ => none

theorem ok_bind {ε σ τ : Type} (x : σ) (f : σ → Except ε τ) : (Except.ok x >>= f) = f x := rfl

structure Accepts (s : State F U A) (signum : Signal) : Prop where
  not_ign : (s.actions signum).flags ≠ sigIgn
  not_dfl : (s.actions signum).flags ≠ sigDfl
  stack : s.process.validateWrite (s.regs.RSP - 8).toNat 8 = true
  code : s.process.validateRead s.regs.RIP.toNat 14 = true

/-- User memory when the interrupted `RIP` has been pushed. -/
def pushed (s : State F U A) : Memory := storeWord s.memory (s.regs.RSP - 8) s.regs.RIP

structure Delivered (s t : State F U A) (signum : Signal) : Prop where
  regs : t.regs = { s.regs with
    RSP := s.regs.RSP - 8
    RIP := (s.actions signum).handler
    RDI := UInt64.ofNat signum.number }
  memory : t.memory = store (pushed s) s.regs.RIP (getSignalReturnInstructions signum)
  saved : t.metadata signum = ⟨true, 14, some (load (pushed s) s.regs.RIP 14), some s.regs,
    loadWord s.memory (s.regs.RSP - 8)⟩
  others : ∀ n, n ≠ signum → t.metadata n = s.metadata n
  region : t.process.region = s.process.region
  pm : t.process.pm.isSome = true

theorem writeInstructions_spec {ins} {size : ℕ} (hpm : s.process.pm.isSome)
    (hsize : ins.length = size) : ∃ pm, s.writeInstructions L ins size =
      .ok { s with
        memory := store s.memory s.regs.RIP ins
        process := ⟨s.process.region, some pm⟩ } := by
  obtain ⟨pm, hpm⟩ := Option.isSome_iff_exists.1 hpm
  simp only [writeInstructions, hpm, List.take_of_length_le hsize.le]
  exact ⟨_, rfl⟩

theorem pm_isSome_of_validateWrite {p : Process F U A} {buf size : ℕ}
    (h : p.validateWrite buf size) : p.pm.isSome := by
  unfold Process.validateWrite at h
  split at h
  · cases h
  · cases hpm : p.pm with
    | none => rw [hpm] at h; cases h
    | some pm => rfl

def State.prepared (s : State F U A) (signum : Signal) : State F U A :=
  ((s.saveRegs signum).pushRIP signum).saveIns signum

theorem prepared_metadata : (s.prepared signum).metadata signum =
    ⟨true, 14, some (load (pushed s) s.regs.RIP 14), some s.regs,
      loadWord s.memory (s.regs.RSP - 8)⟩ := by
  simp [prepared, saveIns, pushRIP, saveRegs, setMetadata, setRegs, pushed]

theorem receiveSignal_accepted (current : Bool) (depth : ℕ) (ha : Accepts s signum)
    (hidle : (s.metadata signum).inSignalHandler = false) :
    ∃ t, resumed (receiveSignal L current (depth + 1) s signum) = some t ∧
      Delivered s t signum := by
  have hstack : (s.saveRegs signum).process.validateWrite
      ((s.saveRegs signum).regs.RSP - 8).toNat 8 = true := ha.stack
  have hcode : ((s.saveRegs signum).pushRIP signum).process.validateRead
      ((s.saveRegs signum).pushRIP signum).regs.RIP.toNat
      (((s.saveRegs signum).pushRIP signum).metadata signum).retInsSize = true := by
    simpa [saveRegs, pushRIP, setMetadata, setRegs] using ha.code
  have hsize : (getSignalReturnInstructions signum).length =
      ((s.prepared signum).metadata signum).retInsSize := by
    rw [length_getSignalReturnInstructions, prepared_metadata]
  have hpm : (s.prepared signum).process.pm.isSome := pm_isSome_of_validateWrite ha.stack
  obtain ⟨pm, hwrite⟩ := writeInstructions_spec (L := L) hpm hsize
  have hcall : resumed (receiveSignal L current (depth + 1) s signum) =
      some (({ s.prepared signum with
        memory := store (s.prepared signum).memory (s.prepared signum).regs.RIP
          (getSignalReturnInstructions signum)
        process := ⟨(s.prepared signum).process.region, some pm⟩ } : State F U A).enterHandler
          signum (s.actions signum).handler) := by
    rw [receiveSignal]
    dsimp only
    rw [if_neg ha.not_ign, if_neg ha.not_dfl, if_neg (by rw [hidle]; simp), if_pos hstack]
    rw [ok_bind, if_pos hcode, ok_bind, ← prepared, hwrite, ok_bind]
    cases current <;> rfl
  refine ⟨_, hcall, rfl, rfl, prepared_metadata, ?_, rfl, rfl⟩
  intro n hn
  simp [enterHandler, prepared, saveIns, pushRIP, saveRegs, setMetadata, setRegs, hn]

structure Returned (s t t' : State F U A) (signum : Signal) : Prop where
  regs : t'.regs = s.regs
  memory : t'.memory = s.memory
  idle : (t'.metadata signum).inSignalHandler = false
  others : ∀ n, n ≠ signum → t'.metadata n = t.metadata n
  region : t'.process.region = t.process.region
  pm : t'.process.pm.isSome = true

theorem Delivered.undo (hd : Delivered s t signum) :
    storeWord (store t.memory s.regs.RIP (load (pushed s) s.regs.RIP 14)) (s.regs.RSP - 8)
      (loadWord s.memory (s.regs.RSP - 8)) = s.memory := by
  rw [hd.memory, ← length_getSignalReturnInstructions signum, store_undo]
  exact storeWord_undo

theorem sysSigreturn_delivered (current : Bool) {t'} (hd : Delivered s t signum)
    (hcode : s.process.validateRead s.regs.RIP.toNat 14)
    (hmemory : t'.memory = t.memory) (hmeta : t'.metadata signum = t.metadata signum)
    (hregion : t'.process.region = t.process.region) (hpm : t'.process.pm.isSome) :
    ∃ u, resumed (sysSigreturn L current t' signum) = some u ∧ Returned s t' u signum := by
  have hold : (t'.metadata signum).oldRegs = some s.regs := by rw [hmeta, hd.saved]
  -- the state in which the check is made and the instructions are written
  have hmeta₁ : (t'.restoreRegs signum s.regs).metadata signum =
      { t.metadata signum with oldRegs := none } := by
    simp [restoreRegs, setMetadata, setRegs, hmeta]
  have hothers₁ : ∀ n, n ≠ signum →
      (t'.restoreRegs signum s.regs).metadata n = t'.metadata n := by
    intro n hn
    simp [restoreRegs, setMetadata, setRegs, hn]
  rw [hd.saved] at hmeta₁
  have hregs₁ : (t'.restoreRegs signum s.regs).regs = s.regs := rfl
  have hmemory₁ : (t'.restoreRegs signum s.regs).memory = t.memory := hmemory
  have hregion₁ : (t'.restoreRegs signum s.regs).process.region = s.process.region :=
    hregion.trans hd.region
  have hpm₁ : (t'.restoreRegs signum s.regs).process.pm.isSome := hpm
  have hcall : sysSigreturn L current t' signum = (do
      let s₁ ← (t'.restoreRegs signum s.regs).writeInstructions L
        (load (pushed s) s.regs.RIP 14) 14
      .error (.switched (s₁.leaveHandler signum))) := by
    have hcheck : (t'.restoreRegs signum s.regs).process.validateRead
        (t'.restoreRegs signum s.regs).regs.RIP.toNat
        ((t'.restoreRegs signum s.regs).metadata signum).retInsSize = true := by
      rw [hregs₁, hmeta₁, Process.validateRead, hregion₁]
      exact hcode
    rw [sysSigreturn, hold]
    dsimp only
    rw [if_pos hcheck, ok_bind, hmeta₁]
  generalize t'.restoreRegs signum s.regs = s₁ at *
  obtain ⟨pm, hwrite⟩ := writeInstructions_spec (L := L) hpm₁ (length_load (n := 14))
  rw [hcall, hwrite, ok_bind]
  refine ⟨_, rfl, hregs₁, ?_, ?_, ?_, ?_, rfl⟩
  · simp only [leaveHandler, setMetadata, Function.update_self, hmeta₁, hregs₁, hmemory₁]
    exact hd.undo
  · simp [leaveHandler, setMetadata]
  · intro n hn
    simp [leaveHandler, setMetadata, hn, hothers₁ n hn]
  · exact hregion₁.trans (hregion.trans hd.region).symm

structure Work (F U A : Type) where
  run : State F U A → State F U A
  memory_run : ∀ s, (run s).memory = s.memory
  metadata_run : ∀ s, (run s).metadata = s.metadata
  region_run : ∀ s, (run s).process.region = s.process.region
  pm_run : ∀ s, s.process.pm.isSome = true → (run s).process.pm.isSome = true

inductive Event (F U A : Type) where
  | receive (current : Bool) (signum : Signal)
  | work (w : Work F U A)
  | sigreturn (current : Bool) (signum : Signal)

/-- A signal with the work of its handler up to the next delivery and after the return of
that, and whether the main thread is the running one in the two calls. -/
structure Delivery (F U A : Type) where
  signum : Signal
  current : Bool
  before : Work F U A
  after : Work F U A
  returning : Bool

def deliveries (l : List (Delivery F U A)) : List (Event F U A) :=
  l.flatMap fun d => [.receive d.current d.signum, .work d.before]

def returns (l : List (Delivery F U A)) : List (Event F U A) :=
  l.reverse.flatMap fun d => [.work d.after, .sigreturn d.returning d.signum]

theorem nested_cons (d : Delivery F U A) (l : List (Delivery F U A)) :
    deliveries (d :: l) ++ returns (d :: l) =
      [.receive d.current d.signum, .work d.before] ++ (deliveries l ++ returns l) ++
        [.work d.after, .sigreturn d.returning d.signum] := by
  simp [deliveries, returns]

variable (L)

def Event.run : Event F U A → State F U A → Option (State F U A)
  | .receive current signum, s => resumed (receiveSignal L current receiveDepth s signum)
  | .work w, s => some (w.run s)
  | .sigreturn current signum, s => resumed (sysSigreturn L current s signum)

def runEvents (events : List (Event F U A)) (s : State F U A) : Option (State F U A) :=
  events.foldlM (fun s e => e.run L s) s

/-- The checks pass in each delivery, in the state in which it takes place. -/
def Accepted : List (Delivery F U A) → State F U A → Prop
  | [], _ => True
  | d :: l, s => Accepts s d.signum ∧
      ∀ t, (Event.receive d.current d.signum).run L s = some t → Accepted l (d.before.run t)

variable {L}

theorem runEvents_append (xs ys : List (Event F U A)) (s : State F U A) :
    runEvents L (xs ++ ys) s = (runEvents L xs s).bind (runEvents L ys) := List.foldlM_append

theorem runEvents_pair {e e' u} (he : e.run L s = some t) (he' : e'.run L t = some u) :
    runEvents L [e, e'] s = some u := by
  simp [runEvents, he, he']

structure Restored (s t : State F U A) (signals : List Signal) : Prop where
  regs : t.regs = s.regs
  memory : t.memory = s.memory
  others : ∀ n, n ∉ signals → t.metadata n = s.metadata n
  region : t.process.region = s.process.region
  pm : s.process.pm.isSome = true → t.process.pm.isSome = true

/-- By induction on the signals, the outermost first: the inner ones leave the memory and the
record of the outer one as they were when its handler began. -/
theorem runEvents_restored (l : List (Delivery F U A)) (hd : (l.map Delivery.signum).Nodup)
    (hidle : ∀ d ∈ l, (s.metadata d.signum).inSignalHandler = false) (ha : Accepted L l s) :
    ∃ t, runEvents L (deliveries l ++ returns l) s = some t ∧
      Restored s t (l.map Delivery.signum) := by
  induction l generalizing s with
  | nil => exact ⟨s, rfl, rfl, rfl, fun _ _ => rfl, rfl, id⟩
  | cons d l ih =>
    rw [List.map_cons, List.nodup_cons] at hd
    obtain ⟨t, hreceive, hdel⟩ := receiveSignal_accepted (L := L) d.current 2 ha.1
      (hidle d List.mem_cons_self)
    have hidle' : ∀ e ∈ l, ((d.before.run t).metadata e.signum).inSignalHandler = false := by
      intro e he
      have hne : e.signum ≠ d.signum := fun h => hd.1 (h ▸ List.mem_map_of_mem he)
      rw [d.before.metadata_run, hdel.others _ hne]
      exact hidle e (List.mem_cons_of_mem d he)
    obtain ⟨u, hrun, hres⟩ := ih hd.2 hidle' (ha.2 t hreceive)
    -- the second part of the handler of `d`, and its return
    have hmemory : (d.after.run u).memory = t.memory := by
      rw [d.after.memory_run, hres.memory, d.before.memory_run]
    have hmeta : (d.after.run u).metadata d.signum = t.metadata d.signum := by
      rw [d.after.metadata_run, hres.others _ hd.1, d.before.metadata_run]
    have hregion : (d.after.run u).process.region = t.process.region := by
      rw [d.after.region_run, hres.region, d.before.region_run]
    have hpm : (d.after.run u).process.pm.isSome :=
      d.after.pm_run u (hres.pm (d.before.pm_run t hdel.pm))
    obtain ⟨v, hreturn, hret⟩ := sysSigreturn_delivered (L := L) d.returning hdel ha.1.code
      hmemory hmeta hregion hpm
    refine ⟨v, ?_, hret.regs, hret.memory, ?_, ?_, fun _ => hret.pm⟩
    · have hfirst : runEvents L [.receive d.current d.signum, .work d.before] s =
          some (d.before.run t) := runEvents_pair hreceive rfl
      have hlast : runEvents L [.work d.after, .sigreturn d.returning d.signum] u = some v :=
        runEvents_pair rfl hreturn
      rw [nested_cons, runEvents_append, runEvents_append, hfirst, Option.bind_some, hrun,
        Option.bind_some, hlast]
    · intro n hn
      rw [List.map_cons, List.mem_cons, not_or] at hn
      rw [hret.others n hn.1, d.after.metadata_run, hres.others n hn.2, d.before.metadata_run,
        hdel.others n hn.1]
    · rw [hret.region, hregion, hdel.region]

theorem sigreturns_restore (l : List (Delivery F U A)) (hd : (l.map Delivery.signum).Nodup)
    (hidle : ∀ d ∈ l, (s.metadata d.signum).inSignalHandler = false) (ha : Accepted L l s) :
    ∃ t, runEvents L (deliveries l ++ returns l) s = some t ∧
      t.regs = s.regs ∧ t.memory = s.memory := by
  obtain ⟨t, hrun, hres⟩ := runEvents_restored l hd hidle ha
  exact ⟨t, hrun, hres.regs, hres.memory⟩

section Overlap

open OrderedMap Process

def registersAt (rsp rip : UInt64) : Registers :=
  ⟨0, 0, 0, 0, 0, 0, rsp, 0, 0, 0, 0, 0, 0, 0, 0, 0, rip, 0, 0, 0, 0, 0⟩

/-- The word below the stack is among the instructions at `RIP`. -/
def overlapping : State (SortedMap (List ℕ)) (SortedMap ℕ) (List ℕ) where
  process := onePageProcess
  regs := registersAt 0x1108 0x10FC
  memory := fun _ => 0x90
  actions := fun _ => ⟨0x1200, 0⟩
  metadata := fun _ => ⟨false, 0, none, none, 0⟩

def overlappingWork : Work (SortedMap (List ℕ)) (SortedMap ℕ) (List ℕ) where
  run s := { s with
    process := ⟨s.process.region, some onePageManager⟩
    actions := overlapping.actions
    regs := registersAt 0x1104 0x1100 }
  memory_run := fun _ => rfl
  metadata_run := fun _ => rfl
  region_run := fun _ => rfl
  pm_run := fun _ _ => rfl

def overlappingDelivery (signum : Signal) : Delivery (SortedMap (List ℕ)) (SortedMap ℕ) (List ℕ) :=
  ⟨signum, true, overlappingWork, overlappingWork, true⟩

theorem samplePage_isWritable {buf : ℕ} (hle : 0x1000 ≤ buf) (hle' : buf ≤ 0x1800) :
    isWritable [samplePage] buf 8 := by
  have hat : samplePage.isAt buf := by
    rw [PageObject.isAt_iff]
    have hstart : samplePage.virtualAddress = 0x1000 := rfl
    have hlength : samplePage.length = 0x1000 := by decide
    omega
  have hfind : [samplePage].find? (fun o => o.isAt buf) =
      some samplePage := List.find?_cons_of_pos hat
  rw [isWritable, hfind]
  dsimp only
  rw [if_neg (by decide), if_neg (by decide)]

theorem onePageProcess_isInside {buf size : ℕ} (hle : 0x1000 ≤ buf) (hle' : buf ≤ 0x1800)
    (hsize : size ≤ 14) : onePageProcess.region.isInside buf size := by
  have hstart : onePageProcess.region.start = 0x1000 := by decide +kernel
  have hend : onePageProcess.region.endAddr = 0x10000 := by decide +kernel
  rw [VirtualRegion.isInside_iff, u64_of_lt (by omega)]
  omega

theorem accepts_onePage {s signum} {rsp rip} (hprocess : s.process = onePageProcess)
    (hflags : (s.actions signum).flags = 0) (hregs : s.regs = registersAt rsp rip)
    (hstack : 0x1000 ≤ (rsp - 8).toNat ∧ (rsp - 8).toNat ≤ 0x1800)
    (hcode : 0x1000 ≤ rip.toNat ∧ rip.toNat ≤ 0x1800) : Accepts s signum where
  not_ign := by
    rw [hflags]
    decide
  not_dfl := by
    rw [hflags]
    decide
  stack := by
    have hin : onePageProcess.region.isInside (rsp - 8).toNat 8 :=
      onePageProcess_isInside hstack.1 hstack.2 (by omega)
    rw [hprocess, hregs, validateWrite, if_neg (by rw [registersAt, hin]; simp)]
    exact samplePage_isWritable hstack.1 hstack.2
  code := by
    rw [hprocess, hregs, validateRead]
    exact onePageProcess_isInside hcode.1 hcode.2 le_rfl

theorem sigreturns_restore_overlapping :
    ∃ t, runEvents PageTables.sampleLayout
        (deliveries [overlappingDelivery .sigint, overlappingDelivery .sigsegv] ++
          returns [overlappingDelivery .sigint, overlappingDelivery .sigsegv]) overlapping =
        some t ∧ t.regs = overlapping.regs ∧ t.memory = overlapping.memory := by
  have hfirst : Accepts overlapping .sigint :=
    accepts_onePage rfl rfl rfl (by decide +kernel) (by decide +kernel)
  refine sigreturns_restore _ (by decide) (fun d _ => rfl) ⟨hfirst, fun t ht => ⟨?_, ?_⟩⟩
  · obtain ⟨t', ht', hdel⟩ :=
      receiveSignal_accepted (L := PageTables.sampleLayout) true 2 hfirst rfl
    cases ht.symm.trans ht'
    refine accepts_onePage ?_ rfl rfl (by decide +kernel) (by decide +kernel)
    exact congrArg (fun region => (⟨region, some onePageManager⟩ : Process _ _ _)) hdel.region
  · exact fun _ _ => trivial

end Overlap

end Signals
