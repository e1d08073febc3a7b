import FrostyOS.Scheduler

/-! # Every scheduled thread has one place

Over any run each scheduled thread is in one queue position or current on one processor. -/
namespace Scheduling

open IntrusiveList ThreadList Scheduling Scheduler List Function

variable {n : ℕ} {T : Threads}

structure Represents (s : ThreadQueues) (a : ListQueues) : Prop where
  lists : ∀ q, (s.lists q).Represents s.links (a q)
  nodup : ∀ q, (a q).Nodup
  disjoint : ∀ q r t, t ∈ a q → t ∈ a r → q = r

def ThreadQueues.Unlinked (s : ThreadQueues) (t : ℕ) : Prop :=
  s.links.next t = none ∧ s.links.previous t = none

variable {s : ThreadQueues} {a : ListQueues} {t : ℕ} {q : Queue}

theorem Represents.getCount (h : Represents s a) (q : Queue) :
    linkedOps.getCount s q = listOps.getCount a q := (h.lists q).count

theorem Represents.pushBack (h : Represents s a) (q : Queue) (ht : ∀ r, t ∉ a r)
    (hu : s.Unlinked t) :
    Represents (linkedOps.pushBack s q t) (listOps.pushBack a q t) ∧
      ∀ x, x ≠ t → (∀ r, x ∉ a r) → s.Unlinked x → (linkedOps.pushBack s q t).Unlinked x := by
  have hpush := pushBack_represents (h.lists q) (h.nodup q) (ht q) hu.1
  refine ⟨⟨?_, ?_, ?_⟩, ?_⟩
  · intro r
    by_cases hr : r = q
    · subst hr
      simpa [linkedOps, listOps] using hpush
    simp only [linkedOps, listOps, update_of_ne hr]
    refine (h.lists r).frame ?_ ?_
    · intro x hx
      rw [pushBack_next, (h.lists q).last, if_neg]
      intro he
      exact hr (h.disjoint r q x hx (mem_of_getLast? he))
    · intro x hx
      rw [pushBack_previous, if_neg (fun hxt : x = t => ht r (hxt ▸ hx))]
  · intro r
    by_cases hr : r = q
    · subst hr
      simp only [listOps, update_self]
      exact nodup_append_comm.1 (nodup_cons.2 ⟨ht r, h.nodup r⟩)
    · simpa only [listOps, update_of_ne hr] using h.nodup r
  · have hmem : ∀ r x, x ∈ listOps.pushBack a q t r ↔ x ∈ a r ∨ r = q ∧ x = t := by
      intro r x
      by_cases hr : r = q
      · subst hr
        simp [listOps]
      · simp [listOps, hr]
    intro r r' x hx hx'
    rw [hmem] at hx hx'
    rcases hx with hx | ⟨hrq, hxt⟩ <;> rcases hx' with hx' | ⟨hrq', hxt'⟩
    · exact h.disjoint r r' x hx hx'
    · exact absurd (hxt' ▸ hx) (ht r)
    · exact absurd (hxt ▸ hx') (ht r')
    · rw [hrq, hrq']
  · intro x hxt hx hux
    constructor
    · change ((s.lists q).pushBack s.links t).1.next x = none
      rw [pushBack_next, (h.lists q).last, if_neg]
      · exact hux.1
      · exact fun he => hx q (mem_of_getLast? he)
    · change ((s.lists q).pushBack s.links t).1.previous x = none
      rw [pushBack_previous, if_neg hxt]
      exact hux.2

theorem Represents.popFront (h : Represents s a) {us} (ha : a q = t :: us) :
    ∃ s', linkedOps.popFront s q = some (some t, s') ∧
      Represents s' (Function.update a q us) ∧ s'.Unlinked t ∧
      ∀ x, (∀ r, x ∉ a r) → s.Unlinked x → s'.Unlinked x := by
  have hrep := h.lists q
  have hnodup := h.nodup q
  rw [ha] at hrep hnodup
  obtain ⟨m, l, hpop, hrep', hnext, hprev, hframe⟩ := popFront_cons hrep hnodup
  have hsub : ∀ r x, x ∈ Function.update a q us r → x ∈ a r := by
    intro r x hx
    by_cases hr : r = q
    · subst hr
      rw [update_self] at hx
      rw [ha]
      exact mem_cons_of_mem t hx
    · rwa [update_of_ne hr] at hx
  refine ⟨⟨m, Function.update s.lists q l⟩, ?_, ⟨?_, ?_, ?_⟩, ⟨hnext, hprev⟩, ?_⟩
  · simp only [linkedOps, hpop]
  · intro r
    by_cases hr : r = q
    · subst hr
      simpa using hrep'
    simp only [update_of_ne hr]
    have hout : ∀ x ∈ a r, x ∉ t :: us := by
      intro x hx hx'
      exact hr (h.disjoint r q x hx (ha ▸ hx'))
    exact (h.lists r).frame (fun x hx => (hframe x (hout x hx)).1)
      (fun x hx => (hframe x (hout x hx)).2)
  · intro r
    by_cases hr : r = q
    · subst hr
      rw [update_self]
      exact (nodup_cons.1 hnodup).2
    · rw [update_of_ne hr]
      exact h.nodup r
  · intro r r' x hx hx'
    exact h.disjoint r r' x (hsub r x hx) (hsub r' x hx')
  · intro x hx hux
    have hsame := hframe x (ha ▸ hx q)
    exact ⟨hsame.1.trans hux.1, hsame.2.trans hux.2⟩

variable {r : Option ℕ} {a' f f' : ListQueues} {i : Fin n} {ts : List ℕ}
  {b b' : Scheduler ListQueues n}

theorem Represents.popFront_any (h : Represents s a) (hpop : listOps.popFront a q = some (r, a')) :
    ∃ s', linkedOps.popFront s q = some (r, s') ∧ Represents s' a' ∧
      (∀ t, r = some t → s'.Unlinked t) ∧
      ∀ x, (∀ p, x ∉ a p) → s.Unlinked x → s'.Unlinked x := by
  simp only [listOps] at hpop
  cases hq : a q with
  | nil =>
    rw [hq] at hpop
    cases hpop
    have hrep := h.lists q
    rw [hq] at hrep
    refine ⟨s, ?_, h, by simp, fun _ _ hx => hx⟩
    simp only [linkedOps, popFront_nil hrep, update_eq_self]
  | cons t us =>
    rw [hq] at hpop
    cases hpop
    obtain ⟨s', hs', hrep, ht, hframe⟩ := h.popFront hq
    exact ⟨s', hs', hrep, by rintro x ⟨⟩; exact ht, hframe⟩

theorem Represents.choose (h : Represents s a) (info : ProcessorInfo) :
    choose linkedOps info s = choose listOps info a := by
  simp only [Scheduling.choose, h.getCount]

variable {info info' : ProcessorInfo}

theorem Represents.select (h : Represents s a) (hs : select listOps info a = .ok (info', a')) :
    ∃ s', select linkedOps info s = .ok (info', s') ∧ Represents s' a' ∧
      (∀ t, info'.currentThread = some t → s'.Unlinked t) ∧
      ∀ x, (∀ p, x ∉ a p) → s.Unlinked x → s'.Unlinked x := by
  unfold Scheduling.select at hs ⊢
  rw [h.choose]
  cases hc : Scheduling.choose _ _ _ with
  | none =>
    rw [hc] at hs
    cases hs
    exact ⟨s, rfl, h, by simp, fun _ _ hx => hx⟩
  | some q =>
    rw [hc] at hs
    cases q with
    | idle =>
      obtain ⟨t, b, hpop, hfront⟩ := popInto_list info a .idle
      obtain ⟨s', hs', hrep, ht, hframe⟩ := h.popFront_any hfront
      cases hpop.symm.trans hs
      exact ⟨s', by simp only [popInto, hs'], hrep, ht, hframe⟩
    | ready priority =>
      obtain ⟨t, b, hpop, hfront⟩ := popInto_list _ a _
      obtain ⟨s', hs', hrep, ht, hframe⟩ := h.popFront_any hfront
      cases hpop.symm.trans hs
      exact ⟨s', by simp only [popInto, hs'], hrep, ht, hframe⟩

theorem Represents.requeue (h : Represents s a) (T : Threads)
    (hout : ∀ t, info.currentThread = some t → ∀ q, t ∉ a q)
    (hu : ∀ t, info.currentThread = some t → s.Unlinked t) :
    (requeue linkedOps T info s).1 = (requeue listOps T info a).1 ∧
      Represents (requeue linkedOps T info s).2
        (requeue listOps T info a).2 ∧
      ∀ x, info.currentThread ≠ some x → (∀ r, x ∉ a r) → s.Unlinked x →
        (requeue linkedOps T info s).2.Unlinked x := by
  unfold Scheduling.requeue
  cases hc : info.currentThread with
  | none => exact ⟨rfl, h, fun _ _ _ hx => hx⟩
  | some t =>
    have hpush := fun q => h.pushBack q (hout t hc) (hu t hc)
    dsimp only
    split
    all_goals
      refine ⟨rfl, (hpush _).1, ?_⟩
      intro x hx
      exact (hpush _).2 x fun he => hx (he ▸ rfl)

structure Simulates (s : Scheduler ThreadQueues n) (b : Scheduler ListQueues n) : Prop where
  store : Represents s.store b.store
  processors : s.processors = b.processors
  total : s.totalThreads = b.totalThreads
  unlinked : ∀ i t, (b.processors i).currentThread = some t → s.store.Unlinked t

variable {t : ℕ}

theorem not_queued_of_running (h : b.threads.Nodup)
    (ht : (b.processors i).currentThread = some t) (q : Queue) : t ∉ b.store q := by
  intro hq
  exact disjoint_of_nodup_append h (mem_queued.2 ⟨q, hq⟩) (mem_running.2 ⟨i, ht⟩)

theorem running_unique {p} (h : (running p).Nodup) {j}
    (hi : (p i).currentThread = some t) (hj : (p j).currentThread = some t) : i = j := by
  exact eq_of_mem_of_nodup_flatMap h (mem_finRange i) (mem_finRange j)
    (by simpa using hi) (by simpa using hj)

variable {s : Scheduler ThreadQueues n}

theorem Simulates.pickNext (h : Simulates s b) (hb : b.threads.Nodup)
    (hp : b.pickNext listOps T i = .ok b') :
    ∃ s', s.pickNext linkedOps T i = .ok s' ∧ Simulates s' b' := by
  unfold Scheduler.pickNext at hp ⊢
  rw [h.total, h.processors]
  split at hp
  case isTrue => cases hp
  case isFalse h₁ =>
    rw [if_neg h₁]
    split at hp
    case isTrue h₂ =>
      cases hp
      rw [if_pos h₂]
      exact ⟨s, rfl, h⟩
    case isFalse h₂ =>
      rw [if_neg h₂]
      obtain ⟨hinfo, hrep, hframe⟩ := h.store.requeue T
        (fun t ht => not_queued_of_running hb ht) (h.unlinked i)
      cases hs : select listOps _ _ with
      | error e =>
        rw [hs] at hp
        cases hp
      | ok r =>
        rw [hs] at hp
        cases hp
        obtain ⟨s', hs', hrep', hcur, hframe'⟩ := hrep.select hs
        rw [hinfo, hs']
        refine ⟨_, rfl, hrep', rfl, rfl, ?_⟩
        intro j t ht
        by_cases hj : j = i
        · subst hj
          simp only [update_self] at ht
          exact hcur t ht
        -- a thread that runs elsewhere is in no queue, before and after the requeueing
        simp only [update_of_ne hj] at ht
        have hother : (b.processors i).currentThread ≠ some t := by
          intro hi
          exact hj (running_unique (nodup_append'.1 hb).2.1 ht hi)
        have hout := not_queued_of_running hb ht
        have hout' : ∀ q, t ∉ (requeue listOps T (b.processors i) b.store).2 q := by
          intro q hq
          have hmem := (requeue_queued _ _).mem_iff.1 (mem_queued.2 ⟨q, hq⟩)
          rcases mem_append.1 hmem with hmem | hmem
          · exact hother (by simpa using hmem)
          · obtain ⟨r, hr⟩ := mem_queued.1 hmem
            exact hout r hr
        exact hframe' t hout' (hframe t hother hout (h.unlinked j t ht))

theorem Simulates.scheduleThread (h : Simulates s b) (T : Threads)
    (hb : b.threads.Nodup) (ht : t ∉ b.threads) (hu : s.store.Unlinked t) :
    Simulates (s.scheduleThread linkedOps T t) (b.scheduleThread listOps T t) := by
  have hnew : (∀ q, t ∉ b.store q) ∧ ∀ i, (b.processors i).currentThread ≠ some t := by
    rw [threads, mem_append, not_or, mem_queued, mem_running, not_exists, not_exists] at ht
    exact ht
  obtain ⟨hrep, hframe⟩ := h.store.pushBack _ hnew.1 hu
  refine ⟨hrep, h.processors, ?_, ?_⟩
  · simp only [Scheduler.scheduleThread, h.total]
  · intro i x hx
    refine hframe x ?_ (not_queued_of_running hb hx) (h.unlinked i x hx)
    rintro rfl
    exact hnew.2 i hx

def Matching (T : Threads) (f : ListQueues) : Prop := ∀ q, ∀ t ∈ f q, T.queueOf t = q

theorem Matching.pushBack (h : Matching T f) (t : ℕ) :
    Matching T (listOps.pushBack f (T.queueOf t) t) := by
  intro q x hx
  by_cases hq : q = T.queueOf t
  · subst hq
    simp only [listOps, update_self, mem_append, mem_singleton] at hx
    rcases hx with hx | rfl
    · exact h _ x hx
    · rfl
  · simp only [listOps, update_of_ne hq] at hx
    exact h q x hx

theorem Matching.popFront (h : Matching T f) {q} (hpop : listOps.popFront f q = some (r, f')) :
    Matching T f' := by
  simp only [listOps] at hpop
  cases hq : f q with
  | nil =>
    rw [hq] at hpop
    cases hpop
    exact h
  | cons t rest =>
    rw [hq] at hpop
    cases hpop
    intro p x hx
    by_cases hp : p = q
    · subst hp
      rw [update_self] at hx
      exact h p x (hq ▸ mem_cons_of_mem t hx)
    · rw [update_of_ne hp] at hx
      exact h p x hx

theorem Matching.requeue (h : Matching T f) (info : ProcessorInfo) :
    Matching T (requeue listOps T info f).2 := by
  unfold Scheduling.requeue
  cases info.currentThread with
  | none => exact h
  | some t =>
    have hpush := h.pushBack t
    unfold Threads.queueOf at hpush
    dsimp only
    split
    case isTrue hidle => rwa [if_pos hidle] at hpush
    case isFalse hidle => rwa [if_neg hidle] at hpush

theorem Matching.select (h : Matching T f)
    (hs : select listOps info f = .ok (info', f')) : Matching T f' := by
  unfold Scheduling.select at hs
  cases hc : choose listOps info f with
  | none =>
    rw [hc] at hs
    cases hs
    exact h
  | some q =>
    rw [hc] at hs
    cases q with
    | idle =>
      obtain ⟨t, b, hpop, hfront⟩ := popInto_list info f .idle
      cases hpop.symm.trans hs
      exact h.popFront hfront
    | ready priority =>
      obtain ⟨t, b, hpop, hfront⟩ := popInto_list _ f _
      cases hpop.symm.trans hs
      exact h.popFront hfront

theorem Matching.pickNext (h : Matching T b.store) (hp : b.pickNext listOps T i = .ok b') :
    Matching T b'.store := by
  unfold Scheduler.pickNext at hp
  split at hp
  case isTrue => cases hp
  case isFalse =>
    split at hp
    case isTrue =>
      cases hp
      exact h
    case isFalse =>
      split at hp
      case h_1 => cases hp
      case h_2 hs =>
        cases hp
        exact (h.requeue _).select hs

/-- Empty queues and processors without a thread; the links may be anything. -/
def Scheduler.initial (links : Links ℕ) (n : ℕ) : Scheduler ThreadQueues n :=
  ⟨⟨links, fun _ => .empty⟩, fun _ => ⟨0, 0, 0, none⟩, 0⟩

inductive Reachable (T : Threads) : Scheduler ThreadQueues n → List ℕ → Prop where
  | init (links : Links ℕ) : Reachable T (.initial links n) []
  | schedule {s : Scheduler ThreadQueues n} {ts : List ℕ} (h : Reachable T s ts) (t : ℕ)
      (hnew : t ∉ ts) (hlinks : s.store.Unlinked t) (hidle : T.isIdle t = false) :
      Reachable T (s.scheduleThread linkedOps T t) (ts ++ [t])
  | pick {s s' : Scheduler ThreadQueues n} {ts : List ℕ} (h : Reachable T s ts) (i : Fin n)
      (hp : s.pickNext linkedOps T i = .ok s') : Reachable T s' ts

structure Keeps (T : Threads) (s : Scheduler ThreadQueues n) (b : Scheduler ListQueues n)
    (ts : List ℕ) : Prop where
  simulates : Simulates s b
  threads : b.threads.Perm ts
  nodup : ts.Nodup
  matching : Matching T b.store
  notIdle : ∀ t ∈ ts, T.isIdle t = false
  total : b.totalThreads = ts.length

theorem Keeps.threads_nodup (h : Keeps T s b ts) : b.threads.Nodup :=
  h.threads.nodup_iff.2 h.nodup

theorem keeps_initial (T : Threads) (links : Links ℕ) :
    Keeps T (.initial links n) ⟨fun _ => [], fun _ => ⟨0, 0, 0, none⟩, 0⟩ [] where
  simulates := ⟨⟨fun _ => represents_empty links, fun _ => nodup_nil, by simp⟩, rfl, rfl, by simp⟩
  threads := by
    simp [threads, queued, running]
  nodup := nodup_nil
  matching := by
    intro q t ht
    exact absurd ht not_mem_nil
  notIdle := by simp
  total := rfl

theorem Keeps.pickNext (h : Keeps T s b ts) (hts : ts ≠ [])
    (i : Fin n) : ∃ s' b', s.pickNext linkedOps T i = .ok s' ∧ Keeps T s' b' ts := by
  have htotal : b.totalThreads ≠ 0 := by
    rw [h.total]
    simpa using hts
  obtain ⟨b', hb', htotal', hperm⟩ := pickNext_list (T := T) b i htotal
  obtain ⟨s', hs', hsim⟩ := h.simulates.pickNext h.threads_nodup hb'
  exact ⟨s', b', hs', hsim, hperm.trans h.threads, h.nodup, h.matching.pickNext hb',
    h.notIdle, htotal'.trans h.total⟩

theorem Keeps.scheduleThread (h : Keeps T s b ts)
    (hnew : t ∉ ts) (hu : s.store.Unlinked t) (hidle : T.isIdle t = false) :
    Keeps T (s.scheduleThread linkedOps T t) (b.scheduleThread listOps T t) (ts ++ [t]) where
  simulates := h.simulates.scheduleThread T h.threads_nodup
    (fun ht => hnew (h.threads.mem_iff.1 ht)) hu
  threads := by
    refine ((queued_pushBack b.store _ t).append_right _).trans ?_
    refine .trans ?_ (perm_append_singleton t ts).symm
    exact h.threads.cons t
  nodup := nodup_append_comm.1 (nodup_cons.2 ⟨hnew, h.nodup⟩)
  matching := by
    have hpush := h.matching.pushBack t
    have hqueue : T.queueOf t = .ready (T.priority t) := by simp [Threads.queueOf, hidle]
    rwa [hqueue] at hpush
  notIdle := by
    intro x hx
    rcases mem_append.1 hx with hx | hx
    · exact h.notIdle x hx
    · rw [mem_singleton.1 hx]
      exact hidle
  total := by simp [Scheduler.scheduleThread, h.total]

theorem keeps_of_reachable (h : Reachable T s ts) : ∃ b, Keeps T s b ts := by
  induction h with
  | init links => exact ⟨_, keeps_initial T links⟩
  | schedule _ t hnew hlinks hidle ih =>
    obtain ⟨b, hb⟩ := ih
    exact ⟨_, hb.scheduleThread hnew hlinks hidle⟩
  | @pick s s' ts _ i hp ih =>
    obtain ⟨b, hb⟩ := ih
    by_cases hts : ts = []
    · -- nothing is counted, so the call does not return
      have htotal : s.totalThreads = 0 := by
        rw [hb.simulates.total, hb.total, hts]
        rfl
      rw [pickNext, if_pos htotal] at hp
      cases hp
    · obtain ⟨s'', b', hs'', hb'⟩ := hb.pickNext hts i
      rw [hs''] at hp
      cases hp
      exact ⟨b', hb'⟩

/-- Where a thread can be: a position of a queue or a processor. -/
inductive Place (n : ℕ) where
  | queued (queue : Queue) (position : ℕ)
  | running (processor : Fin n)

def ThreadQueues.contents (s : ThreadQueues) (q : Queue) : List ℕ :=
  readFrom s.links.next (s.lists q).count (s.lists q).start

def Scheduler.Occupies (s : Scheduler ThreadQueues n) : Place n → ℕ → Prop
  | .queued q k, t => (s.store.contents q)[k]? = some t
  | .running i, t => (s.processors i).currentThread = some t

theorem Represents.contents {s a} (h : Represents s a) (q : Queue) : s.contents q = a q := by
  rw [ThreadQueues.contents, (h.lists q).count, (h.lists q).start]
  exact (h.lists q).linked.readFrom_eq

theorem Keeps.mem_of_occupies (h : Keeps T s b ts) {p} (hp : s.Occupies p t) : t ∈ ts := by
  rw [← h.threads.mem_iff, Scheduler.threads, mem_append, mem_queued, mem_running]
  cases p with
  | queued q k =>
    have hk : (s.store.contents q)[k]? = some t := hp
    rw [h.simulates.store.contents] at hk
    exact .inl ⟨q, mem_of_getElem? hk⟩
  | running i =>
    have hi : (s.processors i).currentThread = some t := hp
    rw [h.simulates.processors] at hi
    exact .inr ⟨i, hi⟩

theorem Simulates.exists_place (h : Simulates s b)
    (ht : t ∈ b.threads) : ∃ p : Place n, s.Occupies p t := by
  rw [Scheduler.threads, mem_append, mem_queued, mem_running] at ht
  rcases ht with ⟨q, hq⟩ | ⟨i, hi⟩
  · obtain ⟨k, hk⟩ := mem_iff_getElem?.1 hq
    refine ⟨.queued q k, ?_⟩
    change (s.store.contents q)[k]? = some t
    rw [h.store.contents, hk]
  · refine ⟨.running i, ?_⟩
    change (s.processors i).currentThread = some t
    rw [h.processors, hi]

theorem Keeps.place_unique (h : Keeps T s b ts)
    {p p'} (hp : s.Occupies p t) (hp' : s.Occupies p' t) : p = p' := by
  have hnodup := h.threads_nodup
  have hqueued : ∀ q k, s.Occupies (.queued q k) t → (b.store q)[k]? = some t := by
    intro q k hk
    rw [← h.simulates.store.contents]
    exact hk
  have hrunning : ∀ i, s.Occupies (.running i) t → (b.processors i).currentThread = some t := by
    intro i hi
    rw [← h.simulates.processors]
    exact hi
  cases p with
  | queued q k =>
    have hk := hqueued q k hp
    cases p' with
    | queued q' k' =>
      have hk' := hqueued q' k' hp'
      have hq := h.simulates.store.disjoint q q' t (mem_of_getElem? hk)
        (mem_of_getElem? hk')
      subst hq
      have hlt := (List.getElem?_eq_some_iff.1 hk).1
      rw [(getElem?_inj hlt (h.simulates.store.nodup q)).1 (hk.trans hk'.symm)]
    | running i =>
      exact absurd (mem_of_getElem? hk) (not_queued_of_running hnodup (hrunning i hp') q)
  | running i =>
    have hi := hrunning i hp
    cases p' with
    | queued q' k' =>
      exact absurd (mem_of_getElem? (hqueued q' k' hp')) (not_queued_of_running hnodup hi q')
    | running j =>
      rw [running_unique (nodup_append'.1 hnodup).2.1 hi (hrunning j hp')]

/-- Over every run each scheduled thread has exactly one place, in the queue of its
priority if that is a queue, no other thread has one, and picking works as soon as there is
a thread. -/
theorem scheduled_threads_kept {s : Scheduler ThreadQueues n} {ts : List ℕ} (h : Reachable T s ts) :
    (∀ t ∈ ts, ∃! p : Place n, s.Occupies p t) ∧ (∀ p t, s.Occupies p t → t ∈ ts) ∧
      (∀ q k t, s.Occupies (.queued q k) t → q = .ready (T.priority t)) ∧
      (ts ≠ [] → ∀ i, ∃ s', s.pickNext linkedOps T i = .ok s') := by
  obtain ⟨b, hb⟩ := keeps_of_reachable h
  refine ⟨?_, fun p t hp => hb.mem_of_occupies hp, ?_, ?_⟩
  · intro t ht
    obtain ⟨p, hp⟩ := hb.simulates.exists_place (hb.threads.mem_iff.2 ht)
    exact ⟨p, hp, fun p' hp' => hb.place_unique hp' hp⟩
  · intro q k t hk
    have hidle := hb.notIdle t (hb.mem_of_occupies hk)
    have hmem : t ∈ b.store q := by
      rw [← hb.simulates.store.contents]
      exact mem_of_getElem? hk
    rw [← hb.matching q t hmem, Threads.queueOf, if_neg (by simp [hidle])]
  · intro hts i
    obtain ⟨s', b', hs', -⟩ := hb.pickNext hts i
    exact ⟨s', hs'⟩

theorem scheduled_threads_kept_one :
    ∃ s : Scheduler ThreadQueues 1, Reachable ⟨fun _ => .kernel, fun _ => false⟩ s [7] ∧
      s.Occupies (.running 0) 7 ∧ ∃! p : Place 1, s.Occupies p 7 := by
  have hrun : ∃ s : Scheduler ThreadQueues 1,
      Reachable ⟨fun _ => .kernel, fun _ => false⟩ s [7] ∧ s.Occupies (.running 0) 7 :=
    ⟨_, .pick (.schedule (.init Links.cleared) 7 (by simp) ⟨rfl, rfl⟩ rfl) 0 rfl, rfl⟩
  obtain ⟨s, hs, hocc⟩ := hrun
  exact ⟨s, hs, hocc, (scheduled_threads_kept hs).1 7 (by simp)⟩

end Scheduling
