import FrostyOS.HeapRuns

/-! # The counters of the kernel heap

`allocate` counts the size that it was asked for, `free` the size of the block. -/
namespace HeapRuns

open MachineWord BlockTiling HeapAllocator

/-- The blocks from `a` up to `hi`, as their headers say. -/
def blocksFrom (h : Heap) (hi : ℕ) : ℕ → ℕ → List Block
  | 0, _ => []
  | count + 1, a =>
    if hi ≤ a then []
    else ⟨a, (h.mem a).size, (h.mem a).isFree⟩ ::
      blocksFrom h hi count (a + headerSize + (h.mem a).size)

def blocks (K : KernelPages) (size : ℕ) (s : State) : List Block :=
  blocksFrom s.heap (K.allocatePages (numPages size) + numBytes size) (numBytes size + 1)
    (K.allocatePages (numPages size))

/-- What `getFreeMem`, `getUsedMem` and `getMetadataMem` are to return. -/
structure Accounted (h : Heap) (bs : List Block) : Prop where
  free : h.freeMem = total true bs
  used : h.usedMem = total false bs
  metadata : h.metadataMem = headerSize * bs.length

def firstFit (bs : List Block) (size : ℕ) : Option Block :=
  bs.find? fun b => b.free && decide (size ≤ b.size)

/-- An allocation takes a block that fits exactly or that is cut. -/
def Exact (K : KernelPages) (size : ℕ) (s t : State) : Prop :=
  ∀ p n, t.live = (p, n) :: s.live → ∀ b ∈ firstFit (blocks K size s) (alignUp n minSize),
    b.size = alignUp n minSize ∨ alignUp n minSize + headerSize < b.size

inductive ExactRun (K : KernelPages) (size : ℕ) : State → Prop where
  | start (mem : ℕ → BlockHeader) (h : Heap)
      (hz : (mem (K.allocatePages (numPages size))).next = 0)
      (hc : construct K mem size = some h) : ExactRun K size ⟨h, []⟩
  | step {s t : State} : ExactRun K size s → Step s t → Exact K size s t → ExactRun K size t

variable {lo hi : ℕ} {s t : State} {h h' : Heap} {b u : Block} {bs bs' xs ys : List Block}

theorem blocksFrom_eq (ht : Tiles headerSize lo bs hi) (hs : ∀ b ∈ bs, Stored h b) {count : ℕ}
    (hlen : bs.length < count) : blocksFrom h hi count lo = bs := by
  induction bs generalizing lo count with
  | nil =>
    obtain ⟨k, rfl⟩ := Nat.exists_eq_succ_of_ne_zero (ne_of_gt hlen)
    rw [blocksFrom, if_pos (Nat.le_of_eq (show lo = hi from ht).symm)]
  | cons b bs ih =>
    obtain ⟨k, rfl⟩ := Nat.exists_eq_succ_of_ne_zero (ne_of_gt (Nat.zero_lt_of_lt hlen))
    obtain ⟨rfl, hrest⟩ := ht
    have hlt : ¬ hi ≤ b.addr := by
      have hle := hrest.le
      have hstop := addr_lt_stop b
      omega
    obtain ⟨hsize, hfree⟩ := hs b List.mem_cons_self
    rw [blocksFrom, if_neg hlt, hsize, hfree]
    exact congrArg (b :: ·)
      (ih hrest (fun c hc => hs c (List.mem_cons_of_mem _ hc)) (by simpa using hlen))

variable {K : KernelPages} {size : ℕ}

theorem blocks_eq
    (hI : Invariant (K.allocatePages (numPages size))
      (K.allocatePages (numPages size) + numBytes size) s bs) : blocks K size s = bs := by
  have hlen := hI.rep.tiles.length_le
  exact blocksFrom_eq hI.rep.tiles hI.rep.stored (by unfold headerSize at hlen; omega)

theorem firstFit_eq (hf : FirstFit size xs b) : firstFit (xs ++ b :: ys) size = some b := by
  have hnone : xs.find? (fun b => b.free && decide (size ≤ b.size)) = none := by
    rw [List.find?_eq_none]
    intro c hc hcond
    simp only [Bool.and_eq_true, decide_eq_true_eq] at hcond
    have hlt := hf.before c hc hcond.1
    omega
  rw [firstFit, List.find?_append, hnone, Option.none_or]
  exact List.find?_cons_of_pos (by simp [hf.free, hf.room])

/-- Counters that went along with the blocks from an exact state are off by as much as before. -/
theorem Keeps.counters (A : Arena lo hi) (ht : Tiles headerSize lo bs hi)
    (ht' : Tiles headerSize lo bs' hi) (hk : Keeps h bs h' bs') {extra : ℕ}
    (hextra : extra < 2 ^ 62) (hfree : h.freeMem = total true bs + extra)
    (hmeta : h.metadataMem = headerSize * bs.length) :
    h'.freeMem = total true bs' + extra ∧ h'.metadataMem = headerSize * bs'.length := by
  have hspan := A.span
  have hle := ht.total_le true
  have hle' := ht'.total_le true
  have hlen := ht.length_le
  have hlen' := ht'.length_le
  have hlt := hk.free_lt (by omega)
  have hlt' := hk.metadata_lt (by omega)
  have hf := hk.free
  have hm := hk.metadata
  rw [hfree] at hf
  rw [hmeta] at hm
  constructor <;> omega

theorem allocate_accounted_iff (A : Arena lo hi) (hI : Invariant lo hi s bs)
    (hacc : Accounted s.heap bs) (hbs : bs = xs ++ b :: ys) (hfit : FirstFit size xs b)
    (hrep : Represents lo hi h' bs') (hC : Carved size xs b ys bs' u)
    (hcharge : Charged s.heap bs h' bs' size u) :
    Accounted h' bs' ↔ b.size = size ∨ size + headerSize < b.size := by
  have hspan := A.span
  have hroom := hC.room
  have husize := size_lt A hrep.tiles hC.here
  have hsmall := hI.rep.tiles.total_le false
  have hused := hcharge.used
  have htotal := hC.used_total
  have hbefore : total false bs = total false xs + total false ys := by
    simp [hbs, hfit.free]
  obtain ⟨hfree, hmeta⟩ := Keeps.counters A hI.rep.tiles hrep.tiles hcharge (by omega)
    (congrArg (· + (u.size - size)) hacc.free) hacc.metadata
  simp only [hacc.used, u64] at hused
  have hexact : u.size = size ↔ b.size = size ∨ size + headerSize < b.size := by
    rw [hC.exact]
    split <;> omega
  rw [← hexact]
  constructor
  · intro hacc'
    have hfree' := hacc'.free
    omega
  · intro he
    exact ⟨by omega, by omega, hmeta⟩

theorem free_accounted (A : Arena lo hi) (hI : Invariant lo hi s bs) (hacc : Accounted s.heap bs)
    (hbs : bs = xs ++ b :: ys) (hb : b.free = false)
    (hI' : Invariant lo hi t (settle headerSize xs { b with free := true } ys))
    (hk : Keeps { s.heap with usedMem := subWord s.heap.usedMem b.size } bs t.heap
      (settle headerSize xs { b with free := true } ys)) :
    Accounted t.heap (settle headerSize xs { b with free := true } ys) := by
  have hspan := A.span
  have hsmall := hI.rep.tiles.total_le false
  have hbefore : total false bs = total false xs + (b.size + total false ys) := by
    simp [hbs, hb]
  obtain ⟨hfree, hmeta⟩ := Keeps.counters A hI.rep.tiles hI'.rep.tiles hk (Nat.two_pow_pos 62)
    hacc.free hacc.metadata
  refine ⟨hfree, ?_, hmeta⟩
  rw [hk.used, total_settle_used rfl]
  simp only [hacc.used]
  rw [subWord_of_le (by omega) (by omega)]
  omega

theorem step_accounted_iff (hr : Reachable K size s) (hacc : Accounted s.heap (blocks K size s))
    (hs : Step s t) : Accounted t.heap (blocks K size t) ↔ Exact K size s t := by
  obtain ⟨A, bs, hI⟩ := reachable_invariant hr
  rw [blocks_eq hI] at hacc
  rw [Exact, blocks_eq hI]
  cases hs with
  | allocate _ n p h' hn ho =>
    obtain ⟨bs', u, xs, b, ys, hbs, rfl, hfit, hrep, hC, hcharge⟩ := allocate_step A hI ho
    rw [blocks_eq (Carved.invariant hI hn hbs hfit.free hrep hC),
      allocate_accounted_iff A hI hacc hbs hfit hrep hC hcharge]
    constructor
    · intro hexact q m hlive c hc
      obtain ⟨rfl, rfl⟩ := Prod.mk.inj (List.cons.inj hlive).1
      rw [hbs, firstFit_eq hfit] at hc
      cases hc
      exact hexact
    · intro hexact
      exact hexact _ n rfl b (by rw [hbs]; exact firstFit_eq hfit)
  | free _ p n h' hp ho =>
    obtain ⟨xs, b, ys, hbs, hb, -, hk, hI'⟩ := free_step A hI hp ho
    rw [blocks_eq hI']
    refine iff_of_true (free_accounted A hI hacc hbs hb hI' hk) fun q m hlive => ?_
    have hle := List.length_filter_le (fun e : ℕ × ℕ => decide (e.1 ≠ p)) s.live
    exact absurd (congrArg List.length hlive) (ne_of_lt (Nat.lt_succ_of_le hle))
  | store mem' hm =>
    rw [blocks_eq (store_preserves_invariant hI hm)]
    exact iff_of_true ⟨hacc.free, hacc.used, hacc.metadata⟩
      fun q m hlive => absurd hlive.symm (List.cons_ne_self _ _)

theorem construct_accounted {mem} (hz : (mem (K.allocatePages (numPages size))).next = 0)
    (hc : construct K mem size = some h) :
    Accounted h (blocks K size ⟨h, []⟩) := by
  have hI := initial_invariant hz hc
  have hsize : (h.mem (K.allocatePages (numPages size))).size = numBytes size - headerSize :=
    (hI.rep.stored _ List.mem_cons_self).1
  rw [blocks_eq hI]
  obtain ⟨h0, -, -, hmem⟩ := construct_cases hc
  rw [hmem] at hsize
  rw [construct, if_neg h0] at hc
  cases hc
  exact ⟨hsize, rfl, rfl⟩

theorem ExactRun.reachable (hr : ExactRun K size s) : Reachable K size s := by
  induction hr with
  | start mem h hz hc => exact .start mem h hz hc
  | step _ hs _ ih => exact ih.step hs

theorem firstHeap_run : ExactRun onePage 100 ⟨firstHeap, []⟩ := .start zeroMem _ rfl (by
  have hs : (construct onePage zeroMem 100).isSome := by decide +kernel
  exact (Option.getD_of_ne_none (Option.isSome_iff_ne_none.mp hs) _).symm)

end HeapRuns
