import FrostyOS.UserHeapCalls

/-! # Giving chunks back

`free` enters the block into the list and lets `CheckForDeletion` pass over the list. A
block that begins a chunk is given back when the next entry begins one too. -/
namespace UserHeap

open MachineWord HeapAllocator BlockTiling SortedBlocks Block List

variable {h : Heap} {a b : Block} {fs pre post : List Block} {fuel : ℕ}

def sweep (flag : ℕ → Bool) : List Block → List Block × List Block
  | [] => ([], [])
  | [a] => ([a], [])
  | a :: b :: rest =>
    if flag a.addr && flag b.addr then (b :: (sweep flag rest).1, a :: (sweep flag rest).2)
    else (a :: (sweep flag (b :: rest)).1, (sweep flag (b :: rest)).2)

variable {q : Heap × List (ℕ × ℕ)} (flag : ℕ → Bool) (l : List Block)

theorem sweep_sublist : ((sweep flag l).1).Sublist l := by
  fun_induction sweep flag l with
  | case1 => exact .refl _
  | case2 a => exact .refl _
  | case3 a b rest hc ih => exact (ih.cons_cons b).cons a
  | case4 a b rest hc ih => exact ih.cons_cons a

theorem sweep_perm : l.Perm ((sweep flag l).1 ++ (sweep flag l).2) := by
  fun_induction sweep flag l with
  | case1 => exact .refl _
  | case2 a => exact .refl _
  | case3 a b rest hc ih =>
    refine (List.Perm.swap b a rest).trans ?_
    exact ((ih.cons a).trans perm_middle.symm).cons b
  | case4 a b rest hc ih => exact ih.cons a

def giveBack (a : Block) : ℕ × ℕ := (a.addr, alignUp (u64 (a.size + headerSize)) pageSize)

theorem Listed.rest (hl : Listed h (pre ++ a :: post)) :
    Linked h.nextOf (h.nextOf a.addr) (post.map addr) := by
  have hlink := hl.linked
  rw [map_append, map_cons] at hlink
  obtain ⟨m, -, -, -, hrest⟩ := segment_append.1 hlink
  exact hrest

theorem dropChunk_mem (h : Heap) (prev curr : ℕ) :
    (dropChunk h prev curr (h.nextOf curr)).mem = (unlink h prev curr).mem := by
  unfold dropChunk unlink
  dsimp only
  split <;> rfl

theorem dropChunk_freeList (h : Heap) (prev curr : ℕ) :
    (dropChunk h prev curr (h.nextOf curr)).freeList = (unlink h prev curr).freeList := by
  unfold dropChunk unlink
  dsimp only
  split <;> rfl

theorem dropChunk_spec (hl : Listed h (pre ++ a :: post))
    (ha : Ascending headerSize (pre ++ a :: post)) {next : ℕ} (hnext : h.nextOf a.addr = next) :
    Listed (dropChunk h (lastAddr (pre.map addr)) a.addr next) (pre ++ post) ∧
      (∀ x, ((dropChunk h (lastAddr (pre.map addr)) a.addr next).mem x).isStartOfChunk =
        (h.mem x).isStartOfChunk) ∧ ∀ x, x ≠ 0 → x ∉ pre.map addr →
        (dropChunk h (lastAddr (pre.map addr)) a.addr next).mem x = h.mem x := by
  subst hnext
  have hmem := dropChunk_mem h (lastAddr (pre.map addr)) a.addr
  refine ⟨?_, ?_, ?_⟩
  · refine (unlink_listed hl ha).congr ?_ (dropChunk_freeList h _ a.addr)
    intro f _
    rw [hmem]
  · intro x
    rw [hmem, unlink_isStartOfChunk]
  · intro x h0 hx
    rw [hmem, unlink_mem]
    rintro rfl
    exact (lastAddr_mem _).elim h0 hx

theorem checkLoop_spec {flag} (pre l : List Block) {curr : ℕ}
    (hflag : ∀ x, (h.mem x).isStartOfChunk = flag x) (hl : Listed h (pre ++ l))
    (ha : Ascending headerSize (pre ++ l)) (hr : Linked h.nextOf curr (l.map addr))
    (hfuel : l.length < fuel) :
    ∃ h', checkLoop fuel h (lastAddr (pre.map addr)) curr =
        .ok (h', (sweep flag l).2.map giveBack) ∧ Listed h' (pre ++ (sweep flag l).1) ∧
      ∀ x, x ≠ 0 → x ∉ (pre ++ l).map addr → h'.mem x = h.mem x := by
  fun_induction sweep flag l generalizing h pre curr fuel with
  | case1 =>
    obtain ⟨k, rfl⟩ := Nat.exists_eq_succ_of_ne_zero (ne_of_gt (Nat.zero_lt_of_lt hfuel))
    have hcurr : curr = 0 := hr
    exact ⟨h, by rw [checkLoop, if_pos hcurr]; rfl, hl, fun _ _ _ => rfl⟩
  | case2 a =>
    obtain ⟨k, rfl⟩ : ∃ k, fuel = k + 2 := ⟨fuel - 2, by simp at hfuel; omega⟩
    obtain ⟨rfl, h0, hnext⟩ := hr
    have hnext' : (h.mem a.addr).next = 0 := hnext
    refine ⟨h, ?_, hl, fun _ _ _ => rfl⟩
    simp [checkLoop, h0, hnext']
  | case3 a b rest hc ih =>
    obtain ⟨k, rfl⟩ := Nat.exists_eq_succ_of_ne_zero (ne_of_gt (Nat.zero_lt_of_lt hfuel))
    obtain ⟨rfl, h0, hnext, hb0, -⟩ := hr
    have hnext' : (h.mem a.addr).next = b.addr := hnext
    have hcond : b.addr ≠ 0 ∧ (h.mem a.addr).isStartOfChunk ∧ (h.mem b.addr).isStartOfChunk := by
      rw [Bool.and_eq_true] at hc
      rw [hflag, hflag]
      exact ⟨hb0, hc⟩
    -- the list without `a`, of which `b` is not looked at any more
    have hsplit : pre ++ [b] ++ rest = pre ++ b :: rest := by
      rw [append_assoc, singleton_append]
    have hsub : (pre ++ b :: rest).Sublist (pre ++ a :: b :: rest) :=
      (sublist_cons_self a _).append_left pre
    have hlast : lastAddr ((pre ++ [b]).map addr) = b.addr := by simp
    have hstep : ∀ q, checkLoop k (dropChunk h (lastAddr (pre.map addr)) a.addr b.addr) b.addr
          ((dropChunk h (lastAddr (pre.map addr)) a.addr b.addr).mem b.addr).next = .ok q →
        checkLoop (k + 1) h (lastAddr (pre.map addr)) a.addr =
          .ok (q.1, giveBack a :: q.2) := by
      intro q hq
      rw [checkLoop, if_neg h0]
      dsimp only
      rw [hnext', if_pos hcond, (hl.stored a (by simp)).1]
      exact bind_eq_ok.2 ⟨q, hq, rfl⟩
    obtain ⟨hl', hflag', hmem⟩ := dropChunk_spec hl ha hnext
    generalize dropChunk h (lastAddr (pre.map addr)) a.addr b.addr = g at *
    have hfuel' : rest.length < k := by
      simp only [length_cons] at hfuel
      omega
    obtain ⟨h', hloop, hlisted, hframe⟩ := ih (pre ++ [b])
      (fun x => (hflag' x).trans (hflag x)) (hsplit ▸ hl') (hsplit ▸ List.Pairwise.sublist hsub ha)
      (Listed.rest hl') hfuel'
    rw [hlast] at hloop
    refine ⟨h', hstep _ hloop, ?_, ?_⟩
    · rwa [append_assoc, singleton_append] at hlisted
    · intro x hx0 hx
      have hrest : x ∉ (pre ++ [b] ++ rest).map addr := by
        rw [hsplit]
        exact fun hm => hx ((hsub.map addr).subset hm)
      rw [map_append, mem_append, not_or] at hx
      rw [hframe x hx0 hrest, hmem x hx0 hx.1]
  | case4 a b rest hc ih =>
    obtain ⟨k, rfl⟩ := Nat.exists_eq_succ_of_ne_zero (ne_of_gt (Nat.zero_lt_of_lt hfuel))
    obtain ⟨rfl, h0, hnext, hb0, hrest⟩ := hr
    have hnext' : (h.mem a.addr).next = b.addr := hnext
    have hcond : ¬ ((h.mem a.addr).next ≠ 0 ∧ (h.mem a.addr).isStartOfChunk ∧
        (h.mem (h.mem a.addr).next).isStartOfChunk) := by
      rw [hnext', hflag, hflag]
      rintro ⟨-, hfa, hfb⟩
      exact hc (by rw [hfa, hfb]; rfl)
    have hsplit : pre ++ [a] ++ b :: rest = pre ++ a :: b :: rest := by
      rw [append_assoc, singleton_append]
    have hlast : lastAddr ((pre ++ [a]).map addr) = a.addr := by simp
    have hfuel' : (b :: rest).length < k := by
      simp only [length_cons] at hfuel ⊢
      omega
    have hr' : Linked h.nextOf (h.mem a.addr).next ((b :: rest).map addr) := by
      rw [hnext']
      exact ⟨rfl, hb0, hrest⟩
    obtain ⟨h', hloop, hlisted, hframe⟩ := ih (pre ++ [a]) hflag (hsplit ▸ hl) (hsplit ▸ ha) hr'
      hfuel'
    rw [hlast] at hloop
    refine ⟨h', ?_, ?_, fun x hx0 hx => hframe x hx0 (hsplit ▸ hx)⟩
    · rw [checkLoop, if_neg h0]
      dsimp only
      rw [if_neg hcond]
      exact hloop
    · rwa [append_assoc, singleton_append] at hlisted

def released (b : Block) (fs : List Block) : List Block :=
  insert headerSize { b with free := true } fs

theorem addr_mem_released {c} (hc : c ∈ released b fs) :
    c.addr = b.addr ∨ c.addr ∈ fs.map addr := forall_mem_insert (b := { b with free := true })
    (P := fun c => c.addr = b.addr ∨ c.addr ∈ fs.map addr) (fun _ _ ha _ _ => ha)
    (fun _ hf => .inr (mem_map_of_mem hf)) (.inl rfl) c hc

structure Released (h : Heap) (fs : List Block) (b : Block) (r : Release) : Prop where
  unmapped : r.unmapped = (sweep (fun x => (h.mem x).isStartOfChunk) (released b fs)).2.map giveBack
  listed : Listed r.heap (sweep (fun x => (h.mem x).isStartOfChunk) (released b fs)).1
  frame : ∀ x, x ≠ 0 → x ≠ b.addr → x ∉ fs.map addr → r.heap.mem x = h.mem x
  reads : ∀ x ∈ r.walk.reads, x = b.addr ∨ x ∈ fs.map addr

def markFree (h : Heap) (a : ℕ) : Heap :=
  { h.setIsFree a true with
    usedMem := subWord (h.setIsFree a true).usedMem ((h.setIsFree a true).mem a).size
    freeMem := u64 ((h.setIsFree a true).freeMem + ((h.setIsFree a true).mem a).size) }

theorem markFree_mem {x : ℕ} (hx : x ≠ b.addr) : (markFree h b.addr).mem x = h.mem x :=
  setIsFree_mem _ _ hx

theorem markFree_listed (hl : Listed h fs) (hap : ∀ f ∈ fs, Apart headerSize f b) :
    Listed (markFree h b.addr) fs := by
  refine hl.congr ?_ rfl
  intro f hf
  exact markFree_mem ((hap f hf).addr_ne headerSize_pos)

theorem markFree_stored (hb : Stored h b) : Stored (markFree h b.addr) { b with free := true } := by
  refine ⟨?_, ?_⟩
  · exact (setIsFree_size _ _ _ _).trans hb.1
  · exact (setIsFree_isFree _ _ _ _).trans (if_pos rfl)

theorem free_eq_ok_iff {r} (hp : Placed b) :
    free fuel h (b.addr + headerSize) = .ok r ↔
      ∃ h₁, addToFreeList fuel (markFree h b.addr) b.addr = .ok (h₁, r.walk) ∧
        checkForDeletion fuel h₁ = .ok (r.heap, r.unmapped) := by
  have hstop := hp.stop_le
  unfold stop at hstop
  have hheader : subWord (b.addr + headerSize) headerSize = b.addr := by
    rw [subWord_of_le (by omega) (by omega)]
    omega
  unfold free
  dsimp only
  rw [hheader]
  constructor
  · intro ho
    obtain ⟨⟨h₁, walk⟩, hadd, ho⟩ := bind_eq_ok.1 ho
    obtain ⟨q, hcheck, hr⟩ := bind_eq_ok.1 ho
    cases hr
    exact ⟨h₁, hadd, hcheck⟩
  · rintro ⟨h₁, hadd, hcheck⟩
    exact bind_eq_ok.2 ⟨_, hadd, bind_eq_ok.2 ⟨_, hcheck, rfl⟩⟩

theorem checkForDeletion_eq (hfuel : 0 < fuel) (hloop : checkLoop fuel h 0 h.freeList = .ok q) :
    checkForDeletion fuel h = .ok q := by
  obtain ⟨k, rfl⟩ := Nat.exists_eq_succ_of_ne_zero (ne_of_gt hfuel)
  unfold checkForDeletion
  split
  case isTrue h0 =>
    rwa [h0, checkLoop, if_pos rfl] at hloop
  case isFalse => exact hloop

theorem free_spec (hl : Listed h fs) (hsp : Spaced headerSize fs) (hps : ∀ f ∈ fs, Placed f)
    (hb : Stored h b) (hp : Placed b) (hap : ∀ f ∈ fs, Apart headerSize f b)
    (hnext : fs = [] → h.nextOf b.addr = 0) (hfuel : fs.length + 1 < fuel) :
    ∃ r, free fuel h (b.addr + headerSize) = .ok r ∧ Released h fs b r := by
  have hpb : Placed { b with free := true } := ⟨hp.pos, hp.stop_le, hp.addr_dvd, hp.size_dvd⟩
  have hgnext : fs = [] → (markFree h b.addr).nextOf b.addr = 0 := by
    intro hfs
    rw [← hnext hfs]
    exact setIsFree_next _ _ _ _
  obtain ⟨h₁, walk, hadd, henter⟩ := addToFreeList_spec (b := { b with free := true })
    (markFree_listed hl hap) hsp.ascending hps (markFree_stored hb) rfl hpb hap hgnext hfuel
  have hflag : ∀ x, (h₁.mem x).isStartOfChunk = (h.mem x).isStartOfChunk := by
    intro x
    rw [henter.flags]
    exact setIsFree_isStartOfChunk _ _ _ _
  have hspaced : Spaced headerSize (released b fs) := spaced_insert headerSize_pos hsp hap
  have hlen : (released b fs).length < fuel := length_insert_le.trans_lt hfuel
  obtain ⟨h₂, hloop, hlisted, hframe⟩ := checkLoop_spec (h := h₁) [] (released b fs)
    hflag henter.listed hspaced.ascending henter.listed.linked hlen
  have hcheck := checkForDeletion_eq (Nat.zero_lt_of_lt hfuel) hloop
  refine ⟨⟨h₂, _, walk⟩, (free_eq_ok_iff hp).2 ⟨h₁, hadd, hcheck⟩, rfl, hlisted, ?_, henter.reads⟩
  intro x h0 hx hxs
  rw [hframe x h0, henter.frame x h0 hx hxs, markFree_mem hx]
  rw [nil_append]
  intro hm
  obtain ⟨c, hc, rfl⟩ := mem_map.1 hm
  exact (addr_mem_released hc).elim hx hxs

end UserHeap
