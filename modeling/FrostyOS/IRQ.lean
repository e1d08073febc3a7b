import Mathlib.Data.Nat.Init

/-! # Interrupt requests of the I/O APICs

`x86_64_IRQ_FullInit` takes the greatest IRQ for the number of the IRQs. -/
namespace IRQ

open List

structure IOAPIC where
  irqBase : ℕ
  irqEnd : ℕ

def IOAPIC.irqs (a : IOAPIC) : List ℕ := range' a.irqBase (a.irqEnd - a.irqBase)

def intMax (ioapics : List IOAPIC) : ℕ :=
  ioapics.foldl (fun INTMax a => a.irqs.foldl (fun _ j => j) INTMax) 0

/-- The vectors from `k` on that get `x86_64_IRQ_Handler`. -/
def vectors : ℕ → List IOAPIC → List ℕ
  | _, [] => []
  | k, a :: ioapics => range' k a.irqs.length ++ vectors (k + a.irqs.length) ioapics

/-- `g_IRQHandlers`, and the vectors whose interrupts look it up. -/
structure State (H : Type) where
  handlers : List (Option H)
  vectors : List ℕ

variable {H : Type}

def fullInit (H : Type) (ioapics : List IOAPIC) : Option (State H) :=
  if intMax ioapics < 0x100 - 0x40 then
    some ⟨replicate (intMax ioapics) none, vectors (0x20 + 0x10) ioapics⟩
  else none

/-- The index that `x86_64_IRQ_Handler` reads. -/
def irqOf (interrupt : ℕ) : ℕ := (interrupt - 0x20 - 0x10) % 256

def registerHandler (s : State H) (irq : ℕ) (handler : H) : State H :=
  if irq < s.handlers.length then { s with handlers := s.handlers.set irq (some handler) } else s

def getIOAPICForIRQ (ioapics : List IOAPIC) (irq : ℕ) : Option IOAPIC :=
  ioapics.find? fun a => a.irqBase ≤ irq ∧ irq ≤ a.irqEnd

/-- Ranges that follow one another from `b` on. -/
def Consecutive : ℕ → List IOAPIC → Prop
  | _, [] => True
  | b, a :: ioapics => a.irqBase = b ∧ b < a.irqEnd ∧ Consecutive a.irqEnd ioapics

variable {l : List IOAPIC}

theorem mem_irqs {a : IOAPIC} {irq : ℕ} : irq ∈ a.irqs ↔ a.irqBase ≤ irq ∧ irq < a.irqEnd := by
  rw [IOAPIC.irqs, mem_range'_1]
  omega

theorem last_irq {b k m : ℕ} (h : Consecutive b l) (hne : l ≠ []) :
    ∃ a ∈ l, ∃ irq ∈ a.irqs, b ≤ irq ∧ k + (irq - b) ∈ vectors k l ∧
      l.foldl (fun m a => a.irqs.foldl (fun _ j => j) m) m = irq := by
  induction l generalizing b k m with
  | nil => exact absurd rfl hne
  | cons a rest ih =>
    obtain ⟨rfl, hlt, hrest⟩ := h
    have hlen : a.irqs.length = a.irqEnd - a.irqBase := length_range'
    rw [foldl_cons, vectors, hlen]
    by_cases hnil : rest = []
    · subst hnil
      obtain ⟨n, hn⟩ := Nat.exists_eq_succ_of_ne_zero (Nat.sub_ne_zero_of_lt hlt)
      refine ⟨a, mem_cons_self, a.irqBase + n, mem_irqs.mpr (by omega), by omega, ?_, ?_⟩
      · rw [mem_append, mem_range'_1]
        exact .inl (by omega)
      · rw [foldl_nil, IOAPIC.irqs, hn, range'_1_concat, foldl_append]
        rfl
    · obtain ⟨x, hx, irq, hirq, hle, hmem, hfold⟩ := ih hrest hnil
      refine ⟨x, mem_cons_of_mem _ hx, irq, hirq, by omega, ?_, hfold⟩
      rw [mem_append]
      have hk : k + (a.irqEnd - a.irqBase) + (irq - a.irqEnd) = k + (irq - a.irqBase) := by omega
      exact .inr (hk ▸ hmem)

theorem getIOAPIC_iff {b : ℕ} (h : Consecutive b l) :
    (∀ a ∈ l, ∀ irq ∈ a.irqs,
      getIOAPICForIRQ l irq = some a) ↔ l.length ≤ 1 := by
  rcases l with _ | ⟨a, _ | ⟨c, rest⟩⟩
  · simp
  · simp [getIOAPICForIRQ, mem_irqs]
    omega
  · obtain ⟨rfl, ha, hc, hlt, -⟩ := h
    refine iff_of_false (fun hall => ?_) (by simp)
    have hget := hall c (by simp) a.irqEnd (mem_irqs.mpr (by omega))
    rw [getIOAPICForIRQ, find?_cons_of_pos (by simp; omega)] at hget
    cases hget
    omega

/-- A vector is looked up behind the table as soon as there is an I/O APIC, and the handler of
its IRQ is refused. The first IRQ of an I/O APIC is taken for one of the I/O APIC before. -/
theorem irq_routing_iff (h : Consecutive 0 l) {s : State H}
    (hs : fullInit H l = some s) (handler : H) :
    ((∀ v ∈ s.vectors, irqOf v < s.handlers.length) ↔ l = []) ∧
    ((∀ a ∈ l, ∀ irq ∈ a.irqs,
      (registerHandler s irq handler).handlers[irq]? = some (some handler)) ↔ l = []) ∧
    ((∀ a ∈ l, ∀ irq ∈ a.irqs,
      getIOAPICForIRQ l irq = some a) ↔ l.length ≤ 1) := by
  unfold fullInit at hs
  split at hs
  case isFalse => cases hs
  case isTrue hmax =>
    cases hs
    by_cases hnil : l = []
    · subst hnil
      simp [vectors]
    obtain ⟨a, ha, irq, hirq, -, hmem, hmax'⟩ := last_irq (k := 0x20 + 0x10) (m := 0) h hnil
    change intMax l = irq at hmax'
    refine ⟨iff_of_false (fun hall => ?_) hnil, iff_of_false (fun hall => ?_) hnil, getIOAPIC_iff h⟩
    · have hlt := hall _ hmem
      rw [irqOf, length_replicate] at hlt
      omega
    · have hget := hall a ha irq hirq
      rw [registerHandler, if_neg (by rw [length_replicate]; omega)] at hget
      simp [hmax'] at hget

theorem irq_routing_single : getIOAPICForIRQ [⟨0, 24⟩] 3 = some ⟨0, 24⟩ :=
  (irq_routing_iff (l := [⟨0, 24⟩]) ⟨rfl, by decide, trivial⟩ rfl ()).2.2.mpr (by decide) _
    mem_cons_self 3 (by decide)

/-- The usual 24 and then eight IRQs: the last one is looked up behind the table. -/
theorem irq_routing_past_table : ∃ s, fullInit Unit [⟨0, 24⟩, ⟨24, 32⟩] = some s ∧
    s.handlers.length = 31 ∧ 0x4F ∈ s.vectors ∧ irqOf 0x4F = 31 ∧ registerHandler s 31 () = s ∧
      getIOAPICForIRQ [⟨0, 24⟩, ⟨24, 32⟩] 24 = some ⟨0, 24⟩ :=
  ⟨_, rfl, by decide, by decide, by decide, rfl, rfl⟩

end IRQ
