import FrostyOS.InterProcessorInterrupt

/-! # Safety of inter-processor messages

A structure is owned by the call that made it: until it is queued, then until the handler has
done its work when nobody waits, and until the sender has seen `done` when somebody does. -/
namespace IPI

open IntrusiveList Scheduling State Call List Function

variable {n : ℕ}

/-- How many of its structures a call that waits has freed. -/
def Call.released (call : Call n) : ℕ :=
  match call.phase with
  | .filling _ => 0
  | .waiting i => i
  | .returned => call.listLen

def Call.pushed (call : Call n) : ℕ :=
  match call.phase with
  | .filling (some _) => call.ipis.length - 1
  | .filling none | .waiting _ | .returned => call.ipis.length

structure Call.Shape (call : Call n) : Prop where
  listLen : call.listLen = call.targets.length
  room : call.ipis.length ≤ call.targets.length
  made : ∀ a, call.phase = .filling (some a) → 0 < call.ipis.length
  full : (∀ made, call.phase ≠ .filling made) → call.ipis.length = call.targets.length
  waiting : ∀ i, call.phase = .waiting i → call.wait = true ∧ i ≤ call.listLen

structure Inv (s : State n) (queue : Fin n → List (ℕ × Tag)) : Prop where
  lists : ∀ p, (s.list p).Represents s.links ((queue p).map Prod.fst)
  nodup : ∀ p, ((queue p).map Prod.fst).Nodup
  apart : ∀ p q a, a ∈ (queue p).map Prod.fst → a ∈ (queue q).map Prod.fst → p = q
  stored : ∀ p a t, (a, t) ∈ queue p → ∃ m, s.heap a = some m ∧ m.tag = t ∧ m.done = false
  log : ∀ p, s.queued p = s.processed p ++ (queue p).map Prod.snd
  owner : ∀ a m, s.heap a = some m → ∃ call, s.calls m.tag.1 = some call ∧
    call.ipis[m.tag.2]? = some a ∧ m.wait = call.wait ∧ (call.wait = true → call.released ≤ m.tag.2)
  kept : ∀ c call, s.calls c = some call → ∀ i a, call.wait = true → call.released ≤ i →
    call.ipis[i]? = some a → ∃ m, s.heap a = some m ∧ m.tag = (c, i)
  made : ∀ c call, s.calls c = some call → ∀ a, call.phase = .filling (some a) →
    (∃ m, s.heap a = some m ∧ m.tag = (c, call.ipis.length - 1) ∧ m.done = false) ∧
      s.links.next a = none ∧ ∀ p, a ∉ (queue p).map Prod.fst
  origin : ∀ p t, t ∈ s.queued p → ∃ call, s.calls t.1 = some call ∧ t.2 < call.pushed ∧
    call.targets[t.2]? = some p
  once : ∀ p, (s.queued p).Nodup
  done : ∀ a m, s.heap a = some m → m.done = true → ∃ p, m.tag ∈ s.processed p
  finished : ∀ c call, s.calls c = some call → ∀ i, call.wait = true → i < call.released →
    ∃ p, (c, i) ∈ s.processed p
  shape : ∀ c call, s.calls c = some call → call.Shape

/-- A call that returns with its invariant. -/
def Runs (r : Except Fault (State n)) : Prop := ∃ t queue, r = .ok t ∧ Inv t queue

variable {s : State n} {queue : Fin n → List (ℕ × Tag)}

theorem inv_initial : Inv (initial n) fun _ => [] := by
  refine ⟨fun _ => ThreadList.represents_empty _, fun _ => nodup_nil, ?_, ?_, fun _ => rfl,
    ?_, ?_, ?_, ?_, fun _ => nodup_nil, ?_, ?_, ?_⟩
  · intro p q a ha
    cases ha
  · intro p a t ha
    cases ha
  all_goals
    intro _ _ h
    cases h

variable {t : Tag} {call : Call n} {p : Fin n} {a b c d : ℕ} {m : Message}

theorem Inv.processed_sub (h : Inv s queue) (ht : t ∈ s.processed p) : t ∈ s.queued p := by
  rw [h.log p]
  exact mem_append_left _ ht

theorem setCall_self (s : State n) (c : ℕ) (call : Call n) :
    (s.setCall c call).calls c = some call := update_self ..

theorem setCall_other (s : State n) (call : Call n) (h : d ≠ c) :
    (s.setCall c call).calls d = s.calls d := update_of_ne h ..

theorem setCall_cases {other} (h : (s.setCall c call).calls d = some other) :
    d = c ∧ other = call ∨ d ≠ c ∧ s.calls d = some other := by
  by_cases hd : d = c
  · rw [hd, setCall_self] at h
    exact .inl ⟨hd, (Option.some.inj h).symm⟩
  · rw [setCall_other _ _ hd] at h
    exact .inr ⟨hd, h⟩

theorem forall_setCall {P : ℕ → Call n → Prop}
    (hall : ∀ d other, s.calls d = some other → P d other) (hnew : P c call) :
    ∀ d other, (s.setCall c call).calls d = some other → P d other := by
  intro d other hd
  rcases setCall_cases hd with ⟨rfl, rfl⟩ | ⟨_, hd⟩
  · exact hnew
  · exact hall d other hd

theorem exists_setCall {P : Call n → Prop} {later} (hc : s.calls c = some call)
    (hd : ∃ other, s.calls d = some other ∧ P other) (hnew : d = c → P call → P later) :
    ∃ other, (s.setCall c later).calls d = some other ∧ P other := by
  obtain ⟨other, hother, hP⟩ := hd
  by_cases hdc : d = c
  · rw [hdc, hc] at hother
    cases hother
    exact ⟨later, by rw [hdc, setCall_self], hnew hdc hP⟩
  · exact ⟨other, (setCall_other _ _ hdc).trans hother, hP⟩

section

variable (h : Inv s queue)

include h

/-- A call goes on to a phase in which nothing is left to be queued and nothing was freed. -/
theorem Inv.setCall (hc : s.calls c = some call) {later : Call n}
    (hipis : later.ipis = call.ipis) (hwait : later.wait = call.wait)
    (htargets : later.targets = call.targets) (hpushed : call.pushed ≤ later.pushed)
    (hreleased : call.wait → later.released = call.released)
    (hmade : ∀ a, later.phase ≠ .filling (some a)) (hshape : later.Shape) :
    Inv (s.setCall c later) queue := by
  refine ⟨h.lists, h.nodup, h.apart, h.stored, h.log, ?_, forall_setCall h.kept ?_,
    forall_setCall h.made ?_, ?_, h.once, h.done, forall_setCall h.finished ?_,
    forall_setCall h.shape hshape⟩
  · intro a m hm
    refine exists_setCall hc (h.owner a m hm) fun _ ⟨hi, hw, hle⟩ => ?_
    refine ⟨by rw [hipis, hi], hw.trans hwait.symm, fun hl => ?_⟩
    rw [hwait] at hl
    rw [hreleased hl]
    exact hle hl
  · intro i a hw hle hi
    rw [hwait] at hw
    rw [hreleased hw] at hle
    rw [hipis] at hi
    exact h.kept c call hc i a hw hle hi
  · intro a hphase
    exact absurd hphase (hmade a)
  · intro p t ht
    refine exists_setCall hc (h.origin p t ht) fun _ ⟨hlt, hp⟩ => ?_
    exact ⟨hlt.trans_le hpushed, by rw [htargets, hp]⟩
  · intro i hw hlt
    rw [hwait] at hw
    rw [hreleased hw] at hlt
    exact h.finished c call hc i hw hlt

theorem Inv.issue (c : ℕ) (caller destination : Fin n)
    (shorthand : DestinationShorthand) (data : UInt64) (wait : Bool)
    (hlen : listLen n shorthand = (targets caller destination shorthand).length) :
    Inv (IPI.issue s c caller destination shorthand data wait) queue := by
  rw [IPI.issue]
  cases hc : s.calls c with
  | some call => exact h
  | none =>
    have hold : ∀ {d : ℕ} {P : Call n → Prop} {new : Call n},
        (∃ call, s.calls d = some call ∧ P call) →
          ∃ call, (s.setCall c new).calls d = some call ∧ P call := by
      rintro d P new ⟨call, hd, hP⟩
      refine ⟨call, (setCall_other _ _ ?_).trans hd, hP⟩
      rintro rfl
      rw [hc] at hd
      cases hd
    refine ⟨h.lists, h.nodup, h.apart, h.stored, h.log, ?_, forall_setCall h.kept (by simp),
      forall_setCall h.made (by simp), ?_, h.once, h.done, forall_setCall h.finished ?_,
      forall_setCall h.shape ?_⟩
    · intro a m hm
      exact hold (h.owner a m hm)
    · intro p t ht
      exact hold (h.origin p t ht)
    · intro i _ hlt
      exact absurd hlt (Nat.not_lt_zero i)
    · exact ⟨hlen, Nat.zero_le _, by simp, fun hf => absurd rfl (hf none), by simp⟩

theorem Inv.send (c : ℕ) : Inv (IPI.send s c) queue := by
  rw [IPI.send]
  cases hc : s.calls c with
  | none => exact h
  | some call =>
    have hshape := h.shape c call hc
    simp only
    split
    · next hdue =>
      obtain ⟨hphase, hfull⟩ := hdue
      have hpushed : call.pushed = call.ipis.length := by rw [pushed, hphase]
      refine h.setCall hc rfl rfl rfl ?_ ?_ ?_ ?_
      · rw [hpushed]
        cases call.wait <;> simp [pushed]
      · intro hw
        simp [released, hphase, hw]
      · intro a
        cases call.wait <;> simp
      · refine ⟨hshape.listLen, hshape.room, ?_, fun _ => hfull, ?_⟩
        · cases call.wait <;> simp
        · cases call.wait <;> simp
    · exact h

theorem Inv.ne_of_queued (ha : s.heap a = none) (hb : b ∈ (queue p).map Prod.fst) : b ≠ a := by
  obtain ⟨⟨b, t⟩, hmem, rfl⟩ := mem_map.mp hb
  obtain ⟨m, hm, _⟩ := h.stored p b t hmem
  rintro rfl
  rw [ha] at hm
  cases hm

/-- A new structure is made for the next target of a call. -/
theorem Inv.makes (hc : s.calls c = some call) (hphase : call.phase = .filling none)
    (hroom : call.ipis.length < call.targets.length) (ha : s.heap a = none) :
    Inv ({ s with
        heap := update s.heap a (some ⟨call.data, call.wait, false, (c, call.ipis.length)⟩)
        links := (s.links.setNext a none).setPrevious a none }.setCall c (call.add a)) queue := by
  have hshape := h.shape c call hc
  have hreleased : call.released = 0 := by rw [released, hphase]
  have hpushed : call.pushed = call.ipis.length := by rw [pushed, hphase]
  have hkeep : ∀ {b : ℕ} {m : Message}, s.heap b = some m → update s.heap a
        (some ⟨call.data, call.wait, false, (c, call.ipis.length)⟩) b = some m := by
    intro b m hm
    rw [update_of_ne _ _ _, hm]
    rintro rfl
    rw [ha] at hm
    cases hm
  have hnext : ∀ {b : ℕ}, b ≠ a →
      ((s.links.setNext a none).setPrevious a none).next b = s.links.next b := fun hb =>
    update_of_ne hb _ _
  have hindex : ∀ {i b : ℕ}, call.ipis[i]? = some b → (call.ipis ++ [a])[i]? = some b := by
    intro i b hi
    rw [List.getElem?_append_left (List.getElem?_eq_some_iff.mp hi).1, hi]
  refine ⟨?_, h.nodup, h.apart, ?_, h.log, ?_, ?_, ?_, ?_, h.once, ?_,
    forall_setCall h.finished ?_, forall_setCall h.shape ?_⟩
  · intro p
    refine (h.lists p).frame (fun b hb => hnext (h.ne_of_queued ha hb)) fun b hb => ?_
    exact update_of_ne (h.ne_of_queued ha hb) _ _
  · intro p b t hb
    obtain ⟨m, hm, hrest⟩ := h.stored p b t hb
    exact ⟨m, hkeep hm, hrest⟩
  · intro b m hm
    by_cases hb : b = a
    · subst hb
      simp only [State.setCall, update_self, Option.some.injEq] at hm
      subst hm
      refine ⟨call.add b, update_self .., ?_, rfl, fun _ => Nat.zero_le _⟩
      simp [add]
    · simp only [State.setCall, update_of_ne hb] at hm
      refine exists_setCall hc (h.owner b m hm) fun _ hown => ?_
      exact ⟨hindex hown.1, hown.2.1, fun _ => Nat.zero_le _⟩
  · intro d other hd i b hw hle hi
    rcases setCall_cases hd with ⟨rfl, rfl⟩ | ⟨_, hd⟩
    · simp only [add] at hi
      by_cases hlt : i < call.ipis.length
      · rw [getElem?_append_left hlt] at hi
        obtain ⟨m, hm, htag⟩ := h.kept d call hc i b hw (by omega) hi
        exact ⟨m, hkeep hm, htag⟩
      have hlen := (List.getElem?_eq_some_iff.mp hi).1
      rw [length_append, length_singleton] at hlen
      have hi' : i = call.ipis.length := by omega
      rw [hi', getElem?_concat_length] at hi
      cases hi
      exact ⟨_, update_self .., by rw [hi']⟩
    · obtain ⟨m, hm, htag⟩ := h.kept d other hd i b hw hle hi
      exact ⟨m, hkeep hm, htag⟩
  · intro d other hd b hother
    rcases setCall_cases hd with ⟨rfl, rfl⟩ | ⟨_, hd⟩
    · simp only [add, Phase.filling.injEq, Option.some.injEq] at hother
      subst hother
      refine ⟨⟨_, update_self .., ?_, rfl⟩, ?_, fun p hp => ?_⟩
      · simp [add]
      · simp [State.setCall, Links.setPrevious, Links.setNext]
      · exact h.ne_of_queued ha hp rfl
    · obtain ⟨⟨m, hm, hrest⟩, hlink, hqueue⟩ := h.made d other hd b hother
      refine ⟨⟨m, hkeep hm, hrest⟩, (hnext ?_).trans hlink, hqueue⟩
      rintro rfl
      rw [ha] at hm
      cases hm
  · intro p t ht
    refine exists_setCall hc (h.origin p t ht) fun _ hown => ⟨?_, hown.2⟩
    simp only [pushed, add, length_append, length_singleton]
    omega
  · intro b m hm hdone
    by_cases hb : b = a
    · subst hb
      simp only [State.setCall, update_self, Option.some.injEq] at hm
      subst hm
      cases hdone
    · simp only [State.setCall, update_of_ne hb] at hm
      exact h.done b m hm hdone
  · intro i _ hlt
    exact absurd hlt (Nat.not_lt_zero i)
  · refine ⟨hshape.listLen, ?_, ?_, fun hf => absurd rfl (hf (some a)), by simp [add]⟩
    · simp only [add, length_append, length_singleton]
      omega
    · simp [add]

theorem Inv.make (c a : ℕ) : Inv (IPI.make s c a) queue := by
  rw [IPI.make]
  cases hc : s.calls c with
  | none => exact h
  | some call =>
    simp only
    split
    · next hdue => exact h.makes hc hdue.1 hdue.2.1 hdue.2.2
    · exact h

end

theorem touch_of_heap (h : s.heap a = some m) : s.touch a = .ok m := by
  rw [touch, h]

theorem delete_of_heap (h : s.heap a = some m) : s.delete a = .ok (s.store a none) := by
  rw [delete, h]

theorem touchAll_of_heap {addresses} (h : ∀ a ∈ addresses, ∃ m, s.heap a = some m) :
    s.touchAll addresses = .ok () := by
  induction addresses with
  | nil => rfl
  | cons a rest ih =>
    obtain ⟨m, hm⟩ := h a mem_cons_self
    rw [touchAll, touch_of_heap hm]
    exact ih fun b hb => h b (mem_cons_of_mem a hb)

theorem Inv.heap_of_queued (h : Inv s queue) (ha : a ∈ (queue p).map Prod.fst) :
    ∃ m, s.heap a = some m := by
  obtain ⟨⟨a, t⟩, hmem, rfl⟩ := mem_map.mp ha
  obtain ⟨m, hm, -⟩ := h.stored p a t hmem
  exact ⟨m, hm⟩

def State.pushed (s : State n) (p : Fin n) (a : ℕ) (t : Tag) : State n :=
  { s with
    links := ((s.list p).pushBack s.links a).1
    list := update s.list p ((s.list p).pushBack s.links a).2
    queued := update s.queued p (s.queued p ++ [t]) }

theorem Inv.pushBack_ok (h : Inv s queue) (p : Fin n) (hm : s.heap a = some m) :
    pushBack s p a = .ok (s.pushed p a m.tag) := by
  have hlast : s.touchAll (s.list p).last.toList = .ok () := by
    apply touchAll_of_heap
    intro e he
    rw [Option.mem_toList, (h.lists p).last] at he
    obtain ⟨m, hm⟩ := h.heap_of_queued (mem_of_getLast? he)
    exact ⟨m, hm⟩
  rw [pushBack, hlast, touch_of_heap hm]
  rfl

theorem Inv.pushed_links (h : Inv s queue) (p : Fin n) (hb : b ≠ a)
    (hout : b ∉ (queue p).map Prod.fst) :
    (s.pushed p a t).links.next b = s.links.next b ∧
      (s.pushed p a t).links.previous b = s.links.previous b := by
  constructor
  · refine (ThreadList.pushBack_next b).trans (if_neg fun he => hout ?_)
    rw [(h.lists p).last] at he
    exact mem_of_getLast? he
  · exact (ThreadList.pushBack_previous b).trans (if_neg hb)

theorem mem_update_concat {α : Type} {f : Fin n → List α} {q x y}
    (h : x ∈ update f p (f p ++ [y]) q) : x ∈ f q ∨ q = p ∧ x = y := by
  by_cases hq : q = p
  · subst hq
    rw [update_self, mem_append, mem_singleton] at h
    exact h.imp_right fun h => ⟨rfl, h⟩
  · rw [update_of_ne hq] at h
    exact .inl h

section

variable (h : Inv s queue)

include h

/-- A message that is made and not yet queued goes to the end of its processor's queue. -/
theorem Inv.pushes (p : Fin n) (hm : s.heap a = some m) (hdone : m.done = false)
    (hnext : s.links.next a = none) (hout : ∀ q, a ∉ (queue q).map Prod.fst)
    (hmade : ∀ c call, s.calls c = some call → call.phase ≠ .filling (some a))
    (hnew : m.tag ∉ s.queued p)
    (horigin : ∃ call, s.calls m.tag.1 = some call ∧ m.tag.2 < call.pushed ∧
      call.targets[m.tag.2]? = some p) :
    Inv (s.pushed p a m.tag) (update queue p (queue p ++ [(a, m.tag)])) := by
  have hmem : ∀ q b, b ∈ (update queue p (queue p ++ [(a, m.tag)]) q).map Prod.fst →
      b ∈ (queue q).map Prod.fst ∨ q = p ∧ b = a := by
    intro q b hb
    obtain ⟨e, he, rfl⟩ := mem_map.mp hb
    rcases mem_update_concat he with he | ⟨hq, rfl⟩
    · exact .inl (mem_map_of_mem he)
    · exact .inr ⟨hq, rfl⟩
  refine ⟨?_, ?_, ?_, ?_, ?_, h.owner, h.kept, ?_, ?_, ?_, h.done, h.finished, h.shape⟩
  · intro q
    by_cases hq : q = p
    · subst hq
      rw [update_self, map_append, State.pushed]
      simp only [update_self]
      exact ThreadList.pushBack_represents (h.lists q) (h.nodup q) (hout q) hnext
    rw [update_of_ne hq, State.pushed]
    simp only [update_of_ne hq]
    have hlinks : ∀ b ∈ (queue q).map Prod.fst, _ := fun b hb =>
      h.pushed_links (t := m.tag) p (fun he : b = a => hout q (he ▸ hb))
        fun hp => hq (h.apart q p b hb hp)
    exact (h.lists q).frame (fun b hb => (hlinks b hb).1) fun b hb => (hlinks b hb).2
  · apply (forall_update_iff queue fun _ l => (l.map Prod.fst).Nodup).mpr
    refine ⟨?_, fun q _ => h.nodup q⟩
    rw [map_append]
    exact nodup_append'.mpr ⟨h.nodup p, nodup_singleton _, by simpa using hout p⟩
  · intro q r b hb hb'
    rcases hmem q b hb with hq | ⟨hq, hba⟩
    · rcases hmem r b hb' with hr | ⟨_, hba⟩
      · exact h.apart q r b hq hr
      · exact absurd (hba ▸ hq) (hout q)
    · rcases hmem r b hb' with hr | ⟨hr, _⟩
      · exact absurd (hba ▸ hr) (hout r)
      · exact hq.trans hr.symm
  · intro q b t hb
    rcases mem_update_concat hb with hb | ⟨_, hb⟩
    · exact h.stored q b t hb
    · cases hb
      exact ⟨m, hm, rfl, hdone⟩
  · intro q
    by_cases hq : q = p
    · subst hq
      simp only [State.pushed, update_self, h.log q, map_append, append_assoc, map_cons, map_nil]
    · simp only [State.pushed, update_of_ne hq]
      exact h.log q
  · intro c call hc b hphase
    obtain ⟨hstored, hlink, hqueue⟩ := h.made c call hc b hphase
    have hb : b ≠ a := by
      rintro rfl
      exact hmade c call hc hphase
    refine ⟨hstored, ?_, fun q hq => ?_⟩
    · rw [(h.pushed_links p hb (hqueue p)).1, hlink]
    · rcases hmem q b hq with hq | ⟨_, rfl⟩
      · exact hqueue q hq
      · exact hb rfl
  · intro q t ht
    rcases mem_update_concat ht with ht | ⟨rfl, rfl⟩
    · exact h.origin q t ht
    · exact horigin
  · refine (forall_update_iff s.queued fun _ l => l.Nodup).mpr ⟨?_, fun q _ => h.once q⟩
    exact nodup_append'.mpr ⟨h.once p, nodup_singleton _, by simpa using hnew⟩

theorem Inv.push (c : ℕ) : Runs (IPI.push s c) := by
  rw [IPI.push]
  cases hc : s.calls c with
  | none => exact ⟨s, queue, rfl, h⟩
  | some call =>
    have hshape := h.shape c call hc
    simp only
    split
    · next a p hphase hp =>
      obtain ⟨⟨m, hm, htag, hdone⟩, hlink, hout⟩ := h.made c call hc a hphase
      have hpos := hshape.made a hphase
      have hpushed : call.pushed = call.ipis.length - 1 := by rw [Call.pushed, hphase]
      have hreleased : call.released = 0 := by rw [released, hphase]
      -- the call goes on first: the message is then nobody's but its own
      have hlater : Inv (s.setCall c { call with phase := .filling none }) queue := by
        refine h.setCall hc rfl rfl rfl ?_ (fun _ => hreleased.symm) (by simp) ?_
        · rw [hpushed]
          exact Nat.sub_le _ _
        · exact ⟨hshape.listLen, hshape.room, by simp, fun hf => absurd rfl (hf none), by simp⟩
      have hpush : pushBack s p a = .ok (s.pushed p a m.tag) := h.pushBack_ok p hm
      refine ⟨_, _, by rw [hpush]; rfl, hlater.pushes p hm hdone hlink hout ?_ ?_ ?_⟩
      · intro d other hd hother
        rcases setCall_cases hd with ⟨_, rfl⟩ | ⟨hne, hd⟩
        · simp at hother
        obtain ⟨⟨m', hm', htag', _⟩, _⟩ := h.made d other hd a hother
        rw [hm] at hm'
        cases hm'
        rw [htag] at htag'
        exact hne (congrArg Prod.fst htag').symm
      · intro hq
        obtain ⟨owner, howner, hlt, _⟩ := h.origin p m.tag hq
        rw [htag] at howner hlt
        rw [hc] at howner
        cases howner
        rw [hpushed] at hlt
        exact lt_irrefl _ hlt
      · refine ⟨_, by rw [htag]; exact setCall_self .., ?_, by rw [htag]; exact hp⟩
        rw [htag]
        simp only [Call.pushed]
        omega
    · exact ⟨s, queue, rfl, h⟩

/-- The sender frees a message that is done and goes on to the next one. -/
theorem Inv.release {i : ℕ} (hc : s.calls c = some call)
    (hphase : call.phase = .waiting i) (hi : i < call.listLen) (ha : call.ipis[i]? = some a)
    (hm : s.heap a = some m) (htag : m.tag = (c, i)) (hdone : m.done) :
    Inv ((s.store a none).setCall c { call with phase := .waiting (i + 1) }) queue := by
  have hshape := h.shape c call hc
  have hreleased : call.released = i := by rw [released, hphase]
  have hpushed : call.pushed = call.ipis.length := by rw [Call.pushed, hphase]
  -- any structure with another name is another one and stays
  have hkeep : ∀ {b d j : ℕ} {m' : Message}, s.heap b = some m' → m'.tag = (d, j) →
      d ≠ c ∨ j ≠ i → (s.store a none).heap b = some m' := by
    intro b d j m' hb htag' hne
    refine (update_of_ne ?_ _ _).trans hb
    rintro rfl
    rw [hm] at hb
    cases hb
    cases htag.symm.trans htag'
    simp at hne
  have hold : ∀ {b : ℕ} {m' : Message}, (s.store a none).heap b = some m' →
      b ≠ a ∧ s.heap b = some m' := by
    intro b m' hb
    by_cases hba : b = a
    · rw [hba, store] at hb
      simp at hb
    · exact ⟨hba, (update_of_ne hba _ _).symm.trans hb⟩
  refine ⟨h.lists, h.nodup, h.apart, ?_, h.log, ?_, ?_, ?_, ?_, h.once, ?_,
    forall_setCall h.finished ?_, forall_setCall h.shape ?_⟩
  · intro p b t hb
    obtain ⟨m', hm', ht, hd⟩ := h.stored p b t hb
    refine ⟨m', (update_of_ne ?_ _ _).trans hm', ht, hd⟩
    rintro rfl
    rw [hm] at hm'
    cases hm'
    rw [hdone] at hd
    cases hd
  · intro b m' hb
    obtain ⟨hba, hb⟩ := hold hb
    refine exists_setCall hc (h.owner b m' hb) fun _ ⟨hindex, hw, hle⟩ => ?_
    refine ⟨hindex, hw, fun hwait => ?_⟩
    have hne : m'.tag.2 ≠ i := by
      intro he
      rw [he, ha] at hindex
      exact hba (Option.some.inj hindex).symm
    have hle' := hle hwait
    rw [hreleased] at hle'
    exact lt_of_le_of_ne hle' (Ne.symm hne)
  · intro d other hd j b hw hle hj
    rcases setCall_cases hd with ⟨rfl, rfl⟩ | ⟨hne, hd⟩
    · have hle' : i + 1 ≤ j := hle
      obtain ⟨m', hm', htag'⟩ := h.kept d call hc j b hw (by omega) hj
      exact ⟨m', hkeep hm' htag' (.inr (by omega)), htag'⟩
    · obtain ⟨m', hm', htag'⟩ := h.kept d other hd j b hw hle hj
      exact ⟨m', hkeep hm' htag' (.inl hne), htag'⟩
  · intro d other hd b hother
    rcases setCall_cases hd with ⟨_, rfl⟩ | ⟨hne, hd⟩
    · simp at hother
    · obtain ⟨⟨m', hm', htag', hdone'⟩, hrest⟩ := h.made d other hd b hother
      exact ⟨⟨m', hkeep hm' htag' (.inl hne), htag', hdone'⟩, hrest⟩
  · intro p t ht
    refine exists_setCall hc (h.origin p t ht) fun _ hown => ⟨?_, hown.2⟩
    have hlt := hown.1
    rw [hpushed] at hlt
    exact hlt
  · intro b m' hb
    exact h.done b m' (hold hb).2
  · intro j hw hlt
    have hlt' : j < i + 1 := hlt
    by_cases hj : j = i
    · obtain ⟨p, hp⟩ := h.done a m hm hdone
      rw [htag] at hp
      exact ⟨p, hj ▸ hp⟩
    · exact h.finished c call hc j hw (by omega)
  · refine ⟨hshape.listLen, hshape.room, by simp, fun _ => hshape.full (by simp [hphase]), ?_⟩
    intro j hj
    simp only [Phase.waiting.injEq] at hj
    exact ⟨(hshape.waiting i hphase).1, by simp only; omega⟩

theorem Inv.poll (c : ℕ) : Runs (IPI.poll s c) := by
  rw [IPI.poll]
  cases hc : s.calls c with
  | none => exact ⟨s, queue, rfl, h⟩
  | some call =>
    have hshape := h.shape c call hc
    simp only
    split
    · next i hphase =>
      obtain ⟨hwait, hle⟩ := hshape.waiting i hphase
      have hreleased : call.released = i := by rw [released, hphase]
      have hfull := hshape.full (by simp [hphase])
      have hlen := hshape.listLen
      split
      · next hi =>
        have hlt : i < call.ipis.length := by omega
        have ha : call.ipis[i]? = some call.ipis[i] := getElem?_eq_getElem hlt
        obtain ⟨m, hm, htag⟩ := h.kept c call hc i _ hwait hreleased.le ha
        simp only [ha, touch_of_heap hm, Except.bind]
        cases hdone : m.done with
        | true =>
          refine ⟨_, queue, ?_, h.release hc hphase hi ha hm htag hdone⟩
          rw [if_pos rfl, delete_of_heap hm]
          rfl
        | false => exact ⟨s, queue, if_neg Bool.false_ne_true, h⟩
      · next hi =>
        refine ⟨_, queue, rfl, h.setCall hc rfl rfl rfl ?_ (fun _ => ?_) (by simp) ?_⟩
        · rw [Call.pushed, hphase]
          exact le_rfl
        · rw [hreleased]
          exact (le_antisymm hle (not_lt.mp hi)).symm
        · exact ⟨hlen, hshape.room, by simp, fun _ => hfull, by simp⟩
    · exact ⟨s, queue, rfl, h⟩

def State.handled (s : State n) (p : Fin n) (a : ℕ) (m : Message) (links : Links ℕ)
    (l : ThreadList) : State n :=
  { s with
    heap := update s.heap a (if m.wait then some { m with done := true } else none)
    links := links
    list := update s.list p l
    processed := update s.processed p (s.processed p ++ [m.tag]) }

theorem Inv.handles {rest links l} (hqueue : queue p = (a, m.tag) :: rest) (hm : s.heap a = some m)
    (hl : l.Represents links (rest.map Prod.fst)) (hlinks : ∀ b ∉ (queue p).map Prod.fst,
      links.next b = s.links.next b ∧ links.previous b = s.links.previous b) :
    Inv (s.handled p a m links l) (update queue p rest) := by
  have hnodup := h.nodup p
  rw [hqueue, map_cons, nodup_cons] at hnodup
  have hfirst : a ∈ (queue p).map Prod.fst := by rw [hqueue]; exact mem_cons_self
  have hsub : ∀ q, (update queue p rest q).Sublist (queue q) := by
    intro q
    by_cases hq : q = p
    · subst hq
      rw [update_self, hqueue]
      exact sublist_cons_self _ _
    · rw [update_of_ne hq]
  have hmem : ∀ {q b}, b ∈ (update queue p rest q).map Prod.fst →
      b ∈ (queue q).map Prod.fst := fun hb => ((hsub _).map Prod.fst).subset hb
  have hne : ∀ {q b}, b ∈ (update queue p rest q).map Prod.fst → b ≠ a := by
    rintro q b hb rfl
    by_cases hq : q = p
    · subst hq
      rw [update_self] at hb
      exact hnodup.1 hb
    · exact hq (h.apart q p b (hmem hb) hfirst)
  have hheap : ∀ {b : ℕ}, b ≠ a → (s.handled p a m links l).heap b = s.heap b := fun hb =>
    update_of_ne hb _ _
  have hself : (s.handled p a m links l).heap a =
      if m.wait then some { m with done := true } else none := update_self ..
  have hmore : ∀ {q t}, t ∈ s.processed q → t ∈ (s.handled p a m links l).processed q := by
    intro q t ht
    by_cases hq : q = p
    · subst hq
      simp only [handled, update_self]
      exact mem_append_left _ ht
    · simp only [handled, update_of_ne hq]
      exact ht
  refine ⟨?_, ?_, ?_, ?_, ?_, ?_, ?_, ?_, h.origin, h.once, ?_, ?_, h.shape⟩
  · intro q
    by_cases hq : q = p
    · subst hq
      simp only [handled, update_self]
      exact hl
    simp only [handled, update_of_ne hq]
    have hout : ∀ b ∈ (queue q).map Prod.fst, b ∉ (queue p).map Prod.fst := fun b hb hp =>
      hq (h.apart q p b hb hp)
    exact (h.lists q).frame (fun b hb => (hlinks b (hout b hb)).1)
      fun b hb => (hlinks b (hout b hb)).2
  · intro q
    exact ((hsub q).map Prod.fst).nodup (h.nodup q)
  · intro q r b hb hb'
    exact h.apart q r b (hmem hb) (hmem hb')
  · intro q b t hb
    obtain ⟨m', hm', hrest⟩ := h.stored q b t ((hsub q).subset hb)
    refine ⟨m', ?_, hrest⟩
    rw [hheap (hne (mem_map_of_mem hb)), hm']
  · intro q
    by_cases hq : q = p
    · subst hq
      simp only [handled, update_self]
      rw [h.log q, hqueue, map_cons, append_assoc]
      rfl
    · simp only [handled, update_of_ne hq]
      exact h.log q
  · intro b m' hb
    by_cases hba : b = a
    · rw [hba, hself] at hb
      split at hb
      · cases hb
        rw [hba]
        exact h.owner a m hm
      · cases hb
    · rw [hheap hba] at hb
      exact h.owner b m' hb
  · intro c call hc i b hw hle hi
    obtain ⟨m', hm', htag⟩ := h.kept c call hc i b hw hle hi
    by_cases hba : b = a
    · rw [hba, hm] at hm'
      cases hm'
      -- the call waits, so the handler keeps the structure
      obtain ⟨owner, howner, _, hwait, _⟩ := h.owner a m hm
      have hcall : s.calls c = some call := hc
      rw [htag, hcall] at howner
      cases howner
      refine ⟨{ m with done := true }, ?_, htag⟩
      rw [hba, hself, if_pos (hwait.trans hw)]
    · exact ⟨m', by rw [hheap hba, hm'], htag⟩
  · intro c call hc b hphase
    obtain ⟨⟨m', hm', hstored⟩, hlink, hout⟩ := h.made c call hc b hphase
    have hba : b ≠ a := by
      rintro rfl
      exact hout p hfirst
    refine ⟨⟨m', by rw [hheap hba, hm'], hstored⟩, ?_, fun q hq => hout q (hmem hq)⟩
    exact (hlinks b (hout p)).1.trans hlink
  · intro b m' hb hdone
    by_cases hba : b = a
    · rw [hba, hself] at hb
      split at hb
      · cases hb
        refine ⟨p, ?_⟩
        simp only [handled, update_self]
        exact mem_append_right _ (mem_singleton_self _)
      · cases hb
    · rw [hheap hba] at hb
      obtain ⟨q, hq⟩ := h.done b m' hb hdone
      exact ⟨q, hmore hq⟩
  · intro c call hc i hw hlt
    obtain ⟨q, hq⟩ := h.finished c call hc i hw hlt
    exact ⟨q, hmore hq⟩

theorem Inv.handle (p : Fin n) : Runs (IPI.handle s p) := by
  have hlist := h.lists p
  rw [IPI.handle]
  cases hqueue : queue p with
  | nil =>
    have hcount : (s.list p).count = 0 := by rw [hlist.count, hqueue]; rfl
    exact ⟨s, queue, if_neg (by omega), h⟩
  | cons first rest =>
    obtain ⟨a, t⟩ := first
    have hmem : (a, t) ∈ queue p := by rw [hqueue]; exact mem_cons_self
    obtain ⟨m, hm, rfl, _⟩ := h.stored p a t hmem
    have hnodup := h.nodup p
    rw [hqueue] at hlist hnodup
    obtain ⟨links, l, hpop, hl, _, _, hlinks⟩ := ThreadList.popFront_cons hlist hnodup
    have hcount : 0 < (s.list p).count := by
      rw [hlist.count, map_cons, length_cons]
      exact Nat.succ_pos _
    have htouch : s.touchAll (if 1 < (s.list p).count then (some a).toList ++ l.start.toList
        else []) = .ok () := by
      apply touchAll_of_heap
      intro b hb
      split at hb
      · rw [Option.toList_some, singleton_append, mem_cons, Option.mem_toList] at hb
        rcases hb with rfl | hb
        · exact ⟨m, hm⟩
        rw [hl.start] at hb
        have hb' : b ∈ (queue p).map Prod.fst := by
          rw [hqueue]
          exact mem_cons_of_mem _ (mem_of_head? hb)
        obtain ⟨m', hm'⟩ := h.heap_of_queued hb'
        exact ⟨m', hm'⟩
      · cases hb
    have hfront : popFront s p =
        .ok (some a, { s with links := links, list := update s.list p l }) := by
      rw [popFront, hpop]
      simp only [htouch]
      rfl
    refine ⟨s.handled p a m links l, _, ?_, h.handles hqueue hm hl ?_⟩
    · rw [if_pos hcount, hfront]
      simp only [Except.bind, process, touch, hm]
      split
      · next hwait =>
        simp only [handled, store, if_pos hwait]
      · next hwait =>
        simp only [handled, delete, store, hm, if_neg hwait]
    · intro b hb
      rw [hqueue] at hb
      exact hlinks b hb

end

/-- A call to all processors is made only when their number is a `uint8_t`. -/
def Event.Fits : Event n → Prop
  | .issue _ _ _ shorthand _ _ => shorthand = .noShorthand ∨ shorthand = .self ∨ n < 256
  | .make _ _ | .push _ | .send _ | .poll _ | .handle _ => True

theorem length_filter_ne (caller : Fin n) :
    ((List.finRange n).filter (· != caller)).length = n - 1 := by
  have herase : (List.finRange n).erase caller = (List.finRange n).filter (· != caller) :=
    (nodup_finRange n).erase_eq_filter caller
  rw [← herase, length_erase_of_mem (mem_finRange caller), length_finRange]

theorem listLen_eq (caller destination : Fin n) (shorthand : DestinationShorthand)
    (h : shorthand = .noShorthand ∨ shorthand = .self ∨ n < 256) :
    listLen n shorthand = (targets caller destination shorthand).length := by
  have hpos : 1 ≤ n := Nat.lt_of_le_of_lt (Nat.zero_le _) caller.isLt
  cases shorthand with
  | noShorthand => rfl
  | self => rfl
  | allIncludingSelf =>
    have hlt : n < 256 := by simpa using h
    rw [listLen, getProcessorCount, Nat.mod_eq_of_lt hlt, targets, length_finRange]
  | allExcludingSelf =>
    have hlt : n < 256 := by simpa using h
    rw [listLen, getProcessorCount, Nat.mod_eq_of_lt hlt,
      MachineWord.subWord_of_le (by omega) hpos, targets, length_filter_ne]

theorem Inv.step (h : Inv s queue) (e : Event n) (hfits : e.Fits) : Runs (IPI.step s e) := by
  cases e with
  | issue c caller destination shorthand data wait =>
    exact ⟨_, queue, rfl, h.issue c caller destination shorthand data wait
      (listLen_eq caller destination shorthand hfits)⟩
  | make c a => exact ⟨_, queue, rfl, h.make c a⟩
  | push c => exact h.push c
  | send c => exact ⟨_, queue, rfl, h.send c⟩
  | poll c => exact h.poll c
  | handle p => exact h.handle p

theorem Inv.run (h : Inv s queue) (events : List (Event n)) (hfits : ∀ e ∈ events, e.Fits) :
    Runs (IPI.run s events) := by
  induction events generalizing s queue with
  | nil => exact ⟨s, queue, rfl, h⟩
  | cons e events ih =>
    obtain ⟨t, queue', ht, hinv⟩ := h.step e (hfits e mem_cons_self)
    rw [IPI.run, ht]
    exact ih hinv fun e he => hfits e (mem_cons_of_mem _ he)

structure Safe (s : State n) : Prop where
  once : ∀ p, (s.processed p).Nodup
  one_processor : ∀ p q t, t ∈ s.processed p → t ∈ s.processed q → p = q
  addressed : ∀ p t, t ∈ s.processed p →
    ∃ call, s.calls t.1 = some call ∧ call.targets[t.2]? = some p
  in_order : ∀ p, s.processed p <+: s.queued p
  waited : ∀ c call, s.calls c = some call → call.wait = true → call.phase = .returned →
    ∀ i p, call.targets[i]? = some p →
      (c, i) ∈ s.processed p ∧ ∀ a m, s.heap a = some m → m.tag ≠ (c, i)

theorem Inv.target_unique (h : Inv s queue) {q} (hp : t ∈ s.queued p)
    (hq : t ∈ s.queued q) : p = q := by
  obtain ⟨call, hcall, _, htarget⟩ := h.origin p t hp
  obtain ⟨other, hother, _, htarget'⟩ := h.origin q t hq
  rw [hcall] at hother
  cases hother
  exact Option.some.inj (htarget.symm.trans htarget')

theorem Inv.safe (h : Inv s queue) : Safe s := by
  refine ⟨?_, ?_, ?_, ?_, ?_⟩
  · intro p
    have honce := h.once p
    rw [h.log p] at honce
    exact honce.of_append_left
  · intro p q t hp hq
    exact h.target_unique (h.processed_sub hp) (h.processed_sub hq)
  · intro p t ht
    obtain ⟨call, hcall, _, htarget⟩ := h.origin p t (h.processed_sub ht)
    exact ⟨call, hcall, htarget⟩
  · intro p
    rw [h.log p]
    exact prefix_append _ _
  · intro c call hc hw hphase i p htarget
    have hreleased : call.released = call.targets.length := by
      rw [released, hphase]
      exact (h.shape c call hc).listLen
    have hi : i < call.targets.length := (List.getElem?_eq_some_iff.mp htarget).1
    constructor
    · obtain ⟨q, hq⟩ := h.finished c call hc i hw (by omega)
      obtain ⟨owner, howner, _, htarget'⟩ := h.origin q (c, i) (h.processed_sub hq)
      rw [hc] at howner
      cases howner
      rw [htarget] at htarget'
      cases htarget'
      exact hq
    · intro a m hm htag
      obtain ⟨owner, howner, _, _, hle⟩ := h.owner a m hm
      rw [htag, hc] at howner
      cases howner
      have hle' := hle hw
      rw [htag] at hle'
      simp only at hle'
      omega

/-- **Message safety.** However calls and handlers are interleaved, on any number of processors
and with calls to all of them on fewer than 256, no structure is freed twice or touched after
it was freed, messages are processed once, by the processor they are for and in the order
queued there, and a call that waits returns when all of its messages were processed and
freed. -/
theorem messages_safe (n : ℕ) (events : List (Event n)) (h : ∀ e ∈ events, e.Fits) :
    ∃ s, run (initial n) events = .ok s ∧ Safe s := by
  obtain ⟨s, queue, hrun, hinv⟩ := inv_initial.run events h
  exact ⟨s, hrun, hinv.safe⟩

theorem handle_logs {t} (ht : handle s p = .ok t) (hcount : 0 < (s.list p).count) :
    t.queued = s.queued ∧ (t.processed p).length = (s.processed p).length + 1 := by
  rw [handle, if_pos hcount, popFront] at ht
  generalize (s.list p).popFront s.links = popped at ht
  obtain _ | ⟨_ | a, links, l⟩ := popped
  · cases ht
  all_goals
    dsimp only at ht
    generalize s.touchAll _ = touched at ht
    obtain _ | _ := touched
    · cases ht
  · cases ht
  simp only [Except.map, Except.bind, process, touch, delete] at ht
  cases hm : s.heap a with
  | none => simp [hm] at ht
  | some m =>
    simp only [hm] at ht
    split at ht <;> cases ht <;> simp [store]

theorem drain_of_inv (h : Inv s queue) (p : Fin n) :
    ∃ t, run s (replicate (s.list p).count (.handle p)) = .ok t ∧ t.processed p = s.queued p := by
  have hcount := (h.lists p).count
  rw [length_map] at hcount
  induction hk : (s.list p).count generalizing s queue with
  | zero =>
    have hnil := length_eq_zero_iff.mp (hcount.symm.trans hk)
    exact ⟨s, rfl, by simp [h.log p, hnil]⟩
  | succ k ih =>
    obtain ⟨t, queue', ht, hinv⟩ := h.handle p
    obtain ⟨hqueued, hprocessed⟩ := handle_logs ht (by omega)
    have hlog := congrArg length (h.log p)
    have hlog' := congrArg length (hinv.log p)
    have hcount' := (hinv.lists p).count
    simp only [length_append, length_map, hqueued] at hlog hlog' hcount'
    obtain ⟨u, hrun, hu⟩ := ih hinv hcount' (by omega)
    refine ⟨u, ?_, hu.trans (congrFun hqueued p)⟩
    rw [replicate_succ, run, step, ht]
    exact hrun

/-- **No message is lost.** After any interleaving, as many turns of a processor's handler as
its list counts process all that was ever queued for it. -/
theorem messages_drain (n : ℕ) (events : List (Event n)) (h : ∀ e ∈ events, e.Fits) :
    ∃ s, run (initial n) events = .ok s ∧ ∀ p, ∃ t,
      run s (replicate (s.list p).count (.handle p)) = .ok t ∧ t.processed p = s.queued p := by
  obtain ⟨s, queue, hrun, hinv⟩ := inv_initial.run events h
  exact ⟨s, hrun, drain_of_inv hinv⟩

def broadcast : List (Event 2) :=
  [.issue 0 0 0 .allIncludingSelf 0 true, .make 0 8, .push 0, .make 0 16, .push 0, .send 0,
    .handle 1, .poll 0, .handle 0, .poll 0, .poll 0, .poll 0]

theorem broadcast_fits : ∀ e ∈ broadcast, e.Fits := by
  intro e he
  simp only [broadcast, mem_cons, not_mem_nil, or_false] at he
  rcases he with rfl | rfl | rfl | rfl | rfl | rfl | rfl | rfl | rfl | rfl | rfl | rfl
  · exact .inr (.inr (by decide))
  all_goals trivial

theorem messages_safe_broadcast :
    (∀ e ∈ broadcast, e.Fits) ∧ ∃ s, run (initial 2) broadcast = .ok s ∧ Safe s :=
  ⟨broadcast_fits, messages_safe 2 broadcast broadcast_fits⟩

theorem messages_drain_broadcast :
    (∀ e ∈ broadcast, e.Fits) ∧ ∃ s, run (initial 2) broadcast = .ok s :=
  ⟨broadcast_fits, (messages_drain 2 _ broadcast_fits).imp fun _ h => h.1⟩

/-- A call to all of 257 processors that waits; only the first of them handles its message. -/
def overflowing : List (Event 257) := .issue 0 0 0 .allIncludingSelf 0 true ::
    ((List.range 257).flatMap fun a => [.make 0 a, .push 0]) ++
      [.send 0, .handle 0, .poll 0, .poll 0]

def returnedEarly (s : State 257) : Bool :=
  match s.calls 0 with
  | some call =>
    call.wait && call.phase = .returned && call.targets[1]? = some 1 && (0, 1) ∉ s.processed 1
  | none => false

theorem not_safe_of_returnedEarly {s} (h : returnedEarly s) : ¬ Safe s := by
  intro hsafe
  rw [returnedEarly] at h
  split at h
  · next call hc =>
    simp only [Bool.and_eq_true, decide_eq_true_eq] at h
    obtain ⟨⟨⟨hw, hphase⟩, htarget⟩, hnot⟩ := h
    exact hnot (hsafe.waited 0 call hc hw hphase 1 1 htarget).1
  · cases h

/-- The number of processors counts as one, so the call returns after the first of them. -/
theorem overflowing_returns_early : ∃ s, run (initial 257) overflowing = .ok s ∧ ¬ Safe s := by
  have hrun : (match run (initial 257) overflowing with
      | .ok s => returnedEarly s
      | .error _ => false) = true := by decide +kernel
  split at hrun
  · next s hs => exact ⟨s, hs, not_safe_of_returnedEarly hrun⟩
  · cases hrun

end IPI
