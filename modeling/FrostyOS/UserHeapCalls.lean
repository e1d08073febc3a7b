import FrostyOS.UserFreeList

/-! # `allocate` and `free` of the user heap

What a call does to the free blocks, which headers its walk comes by, and which bytes of
memory it leaves alone. -/
namespace UserHeap

open MachineWord HeapAllocator BlockTiling SortedBlocks Block List

variable {h : Heap} {b u : Block} {fs pre post : List Block} {size fuel : ℕ}

theorem size_add_le (hu : Placed u) (hdvd : 16 ∣ size) (hlt : size < u.size) :
    size + headerSize ≤ u.size := by
  have hdvd' := hu.size_dvd
  unfold headerSize
  omega

theorem covers_front_or_remainder (hle : size + headerSize ≤ u.size) (x : ℕ) :
    Covers headerSize (front u size) x ∨ Covers headerSize (remainder u size) x ↔
      Covers headerSize u x := by
  simp only [Covers, front, remainder, stop]
  omega

theorem placed_front (hu : Placed u) (hdvd : 16 ∣ size) (hle : size ≤ u.size) :
    Placed (front u size) where
  pos := hu.pos
  stop_le := by
    have hstop := hu.stop_le
    simp only [front, stop] at hstop ⊢
    omega
  addr_dvd := hu.addr_dvd
  size_dvd := hdvd

theorem placed_remainder (hu : Placed u) (hdvd : 16 ∣ size)
    (hle : size + headerSize ≤ u.size) : Placed (remainder u size) where
  pos := by
    simp only [remainder, headerSize]
    omega
  stop_le := by
    have hstop := hu.stop_le
    simp only [remainder, stop] at hstop ⊢
    omega
  addr_dvd := by
    have haddr := hu.addr_dvd
    simp only [remainder, headerSize]
    omega
  size_dvd := by
    have hsize := hu.size_dvd
    simp only [remainder, headerSize]
    omega

structure Cut (h h' : Heap) (walk : Option Walk) (u : Block) (size : ℕ) (fs fs' : List Block) :
    Prop where
  listed : Listed h' fs'
  spaced : Spaced headerSize fs'
  placed : ∀ f ∈ fs', Placed f
  stored : Stored h' (front u size)
  covers : ∀ x, (∃ f ∈ fs', Covers headerSize f x) ∨ Covers headerSize (front u size) x ↔
    (∃ f ∈ fs, Covers headerSize f x) ∨ Covers headerSize u x
  apart : ∀ f ∈ fs', Apart headerSize (front u size) f
  frame : ∀ x, x ≠ 0 → ¬ Covers headerSize u x → x ∉ fs.map addr → h'.mem x = h.mem x
  reads : ∀ w ∈ walk, ∀ x ∈ w.reads, x = w.inserted ∨ x ∈ fs.map addr

theorem covers_remainder_addr (hle : size + headerSize ≤ u.size) :
    Covers headerSize u (remainder u size).addr :=
  (covers_front_or_remainder hle _).1 (.inr (covers_addr headerSize_pos _))

theorem apart_remainder (hle : size + headerSize ≤ u.size) (hap : Apart headerSize b u) :
    Apart headerSize b (remainder u size) := by
  intro x hx hx'
  exact hap x hx ((covers_front_or_remainder hle x).1 (.inr hx'))

theorem apart_front (hle : size + headerSize ≤ u.size) (hap : Apart headerSize b u) :
    Apart headerSize (front u size) b := by
  intro x hx hx'
  exact hap x hx' ((covers_front_or_remainder hle x).1 (.inl hx))

theorem split_of_lt {account q} (hu : Stored h u) (hp : Placed u) (hdvd : 16 ∣ size)
    (hlt : size < u.size)
    (ho : addToFreeList fuel (account (writeCut h u size) (remainder u size).addr)
      (remainder u size).addr = .ok q) :
    split fuel account h u.addr size =
      .ok ({ q.1 with metadataMem := u64 (q.1.metadataMem + headerSize) }, some q.2) := by
  have hle := size_add_le hp hdvd hlt
  have hlt62 := hp.size_lt
  have hstop := hp.stop_le
  have haddr : u64 (u.addr + headerSize + size) = (remainder u size).addr := by
    apply u64_of_lt
    simp only [stop] at hstop
    omega
  have hrest : subWord (subWord u.size size) headerSize = (remainder u size).size := by
    have hinner : subWord u.size size = u.size - size := subWord_of_le (by omega) (by omega)
    rw [hinner, subWord_of_le (by omega) (by omega)]
    rfl
  unfold split
  rw [hu.1, if_pos hlt, haddr, hrest]
  exact bind_eq_ok.2 ⟨q, ho, rfl⟩

theorem cut_of_entered {g h' h'' walk} (hsp : Spaced headerSize fs) (hps : ∀ f ∈ fs, Placed f)
    (hu : Stored h u) (huf : u.free = false) (hp : Placed u)
    (hap : ∀ f ∈ fs, Apart headerSize f u) (hdvd : 16 ∣ size) (hle : size + headerSize ≤ u.size)
    (hmem : g.mem = (writeCut h u size).mem)
    (henter : Entered g h' walk (remainder u size) fs) (hmem' : h''.mem = h'.mem)
    (hlist : h''.freeList = h'.freeList) :
    Cut h h'' (some walk) u size fs (insert headerSize (remainder u size) fs) := by
  have happart : ∀ f ∈ fs, Apart headerSize f (remainder u size) :=
    fun f hf => apart_remainder hle (hap f hf)
  refine ⟨henter.listed.congr (fun _ _ => by rw [hmem']) hlist,
    spaced_insert headerSize_pos hsp happart, ?_, ?_, ?_, ?_, ?_, ?_⟩
  · exact forall_mem_insert (fun _ _ ha hc he => ha.join hc he) hps (placed_remainder hp hdvd hle)
  · have hpos := hp.pos
    have hout : u.addr ∉ fs.map addr := by
      intro hm
      obtain ⟨f, hf, he⟩ := mem_map.1 hm
      exact (hap f hf).addr_ne headerSize_pos he
    refine stored_of_ne (h := writeCut h u size)
      (writeCut_stored (hu.2.trans huf) hp.size_lt hle).1 ?_
    rw [hmem', ← hmem]
    exact henter.frame _ (by simp only [front]; omega) (addr_ne_remainder u size) hout
  · intro x
    rw [exists_covers_insert, ← covers_front_or_remainder hle x,
      or_comm (a := Covers headerSize _ x), or_assoc,
      or_comm (a := Covers headerSize _ x)]
  · refine apart_insert ?_ fun f hf => apart_front hle (hap f hf)
    rw [apart_iff headerSize_pos]
    exact .inl le_rfl
  · intro x h0 hx hxs
    have hxu : x ≠ u.addr := fun he => hx (he ▸ covers_addr headerSize_pos u)
    have hxr : x ≠ (remainder u size).addr := fun he => hx (he ▸ covers_remainder_addr hle)
    rw [hmem', henter.frame x h0 hxr hxs, hmem, writeCut_mem hxu hxr]
  · rintro w ⟨⟩ x hx
    rw [henter.inserted]
    exact henter.reads x hx

theorem cut_whole (hl : Listed h fs) (hsp : Spaced headerSize fs) (hps : ∀ f ∈ fs, Placed f)
    (hu : Stored h u) (huf : u.free = false) (hap : ∀ f ∈ fs, Apart headerSize f u)
    (hsize : size = u.size) : Cut h h none u size fs fs := by
  have heq : front u size = u := by
    rw [front, hsize, ← huf]
  refine ⟨hl, hsp, hps, by rwa [heq], fun x => by rw [heq], ?_, fun _ _ _ _ => rfl, by simp⟩
  rw [heq]
  exact fun f hf => (hap f hf).symm

theorem split_spec (account : Heap → ℕ → Heap)
    (hacc : ∀ h n, (account h n).mem = h.mem ∧ (account h n).freeList = h.freeList)
    (hl : Listed h fs) (hsp : Spaced headerSize fs) (hps : ∀ f ∈ fs, Placed f)
    (hu : Stored h u) (huf : u.free = false) (hp : Placed u)
    (hap : ∀ f ∈ fs, Apart headerSize f u) (hsize : size ≤ u.size) (hdvd : 16 ∣ size)
    (hnext : fs = [] → size < u.size → h.nextOf (remainder u size).addr = 0)
    (hfuel : fs.length + 1 < fuel) :
    ∃ h' walk fs', split fuel account h u.addr size = .ok (h', walk) ∧
      Cut h h' walk u size fs fs' := by
  by_cases hlt : size < u.size
  · have hle := size_add_le hp hdvd hlt
    have happart : ∀ f ∈ fs, Apart headerSize f (remainder u size) :=
      fun f hf => apart_remainder hle (hap f hf)
    obtain ⟨hmem, hlist⟩ := hacc _ (remainder u size).addr
    have hgl : Listed (account (writeCut h u size) (remainder u size).addr) fs := by
      refine hl.congr ?_ hlist
      intro f hf
      rw [hmem]
      exact writeCut_mem ((hap f hf).addr_ne headerSize_pos)
        ((happart f hf).addr_ne headerSize_pos)
    have hgnext : fs = [] → (account (writeCut h u size) (remainder u size).addr).nextOf
        (remainder u size).addr = 0 := by
      intro hfs
      rw [← hnext hfs hlt, Heap.nextOf, hmem]
      simp [writeCut, Heap.nextOf]
    have hrest := (writeCut_stored (hu.2.trans huf) hp.size_lt hle).2
    obtain ⟨h', walk, hadd, henter⟩ := addToFreeList_spec hgl hsp.ascending hps
      (stored_of_ne hrest (by rw [hmem])) rfl (placed_remainder hp hdvd hle) happart hgnext hfuel
    exact ⟨_, _, _, split_of_lt hu hp hdvd hlt hadd,
      cut_of_entered hsp hps hu huf hp hap hdvd hle hmem henter rfl rfl⟩
  · have heq : size = u.size := le_antisymm hsize (not_lt.mp hlt)
    refine ⟨h, none, fs, ?_, cut_whole hl hsp hps hu huf hap heq⟩
    unfold split
    rw [hu.1, if_neg hlt]

def InChunk (c : ℕ × ℕ) (x : ℕ) : Prop := c.1 ≤ x ∧ x < c.1 + c.2

structure Handed (h : Heap) (fs : List Block) (r : Allocation) (u : Block) (fs' : List Block) :
    Prop where
  ptr : r.ptr = u.addr + headerSize
  used : u.free = false
  listed : Listed r.heap fs'
  spaced : Spaced headerSize fs'
  placed : ∀ f ∈ fs', Placed f
  here : Placed u
  stored : Stored r.heap u
  apart : ∀ f ∈ fs', Apart headerSize u f
  covers : ∀ x, (∃ f ∈ fs', Covers headerSize f x) ∨ Covers headerSize u x ↔
    (∃ f ∈ fs, Covers headerSize f x) ∨ ∃ c ∈ r.chunk, InChunk c x
  frame : ∀ x, x ≠ 0 → (¬ ∃ f ∈ fs, Covers headerSize f x) → (¬ ∃ c ∈ r.chunk, InChunk c x) →
    r.heap.mem x = h.mem x
  reads : ∀ w ∈ r.walk, ∀ x ∈ w.reads, x = w.inserted ∨ x ∈ fs.map addr ∧ x ≠ u.addr

variable {x : ℕ}

theorem addr_notMem_of_not_covers (h : ¬ ∃ f ∈ fs, Covers headerSize f x) : x ∉ fs.map addr := by
  intro hm
  obtain ⟨f, hf, rfl⟩ := mem_map.1 hm
  exact h ⟨f, hf, covers_addr headerSize_pos f⟩

theorem unlinked_spec (hl : Listed h (pre ++ b :: post))
    (ha : Ascending headerSize (pre ++ b :: post)) :
    Listed ((unlink h (lastAddr (pre.map addr)) b.addr).setIsFree b.addr false)
        (pre ++ post) ∧ Stored ((unlink h (lastAddr (pre.map addr)) b.addr).setIsFree b.addr false)
        { b with free := false } ∧ ∀ x, x ≠ 0 → (¬ ∃ f ∈ pre ++ b :: post, Covers headerSize f x) →
        ((unlink h (lastAddr (pre.map addr)) b.addr).setIsFree b.addr false).mem x =
          h.mem x := by
  have hbm : b ∈ pre ++ b :: post := by simp
  refine ⟨?_, ⟨?_, ?_⟩, ?_⟩
  · refine (unlink_listed hl ha).congr ?_ rfl
    intro f hf
    exact setIsFree_mem _ _ (addr_ne ha (mem_append.1 hf))
  · rw [setIsFree_size, ← (hl.stored b hbm).1]
    unfold unlink
    split <;> simp
  · simp
  · intro x h0 hx
    have hxb : x ≠ b.addr := fun he => hx ⟨b, hbm, he ▸ covers_addr headerSize_pos b⟩
    rw [setIsFree_mem _ _ hxb, unlink_mem]
    rintro rfl
    rcases lastAddr_mem (pre.map addr) with hz | hm
    · exact h0 hz
    · refine addr_notMem_of_not_covers hx ?_
      rw [map_append]
      exact mem_append_left _ hm

theorem take_spec (hl : Listed h (pre ++ b :: post)) (hsp : Spaced headerSize (pre ++ b :: post))
    (hps : ∀ f ∈ pre ++ b :: post, Placed f) (hsize : size ≤ b.size) (hdvd : 16 ∣ size)
    (hnext : pre ++ post = [] → size < b.size → h.nextOf (remainder b size).addr = 0)
    (hfuel : (pre ++ post).length + 1 < fuel) :
    ∃ r fs', take fuel h (lastAddr (pre.map addr)) b.addr size = .ok r ∧
      Handed h (pre ++ b :: post) r (front b size) fs' := by
  have hbm : b ∈ pre ++ b :: post := by simp
  have hsub : (pre ++ post).Sublist (pre ++ b :: post) :=
    (sublist_cons_self b post).append_left pre
  obtain ⟨-, hleft, hright⟩ := ascending_middle.1 hsp.ascending
  have hap : ∀ f ∈ pre ++ post, Apart headerSize f { b with free := false } := by
    intro f hf
    rw [apart_iff headerSize_pos]
    rcases mem_append.1 hf with hf | hf
    · exact .inl (hleft f hf)
    · exact .inr (hright f hf)
  have hpb := hps b hbm
  have hpu : Placed { b with free := false } := ⟨hpb.pos, hpb.stop_le, hpb.addr_dvd, hpb.size_dvd⟩
  obtain ⟨hlisted, hstored, hframe⟩ := unlinked_spec hl hsp.ascending
  have hnext' : pre ++ post = [] → size < b.size →
      ((unlink h (lastAddr (pre.map addr)) b.addr).setIsFree b.addr false).nextOf
        (remainder b size).addr = 0 := by
    intro hnil hlt
    rw [← hnext hnil hlt, (append_eq_nil_iff.1 hnil).1]
    simp [Heap.nextOf, unlink]
  obtain ⟨h', walk, fs', hsplit, hcut⟩ := split_spec (u := { b with free := false })
    (fun h _ => { h with freeMem := subWord h.freeMem headerSize })
    (fun _ _ => ⟨rfl, rfl⟩) hlisted (hsp.sublist hsub) (fun f hf => hps f (hsub.subset hf))
    hstored rfl hpu hap hsize hdvd hnext' hfuel
  refine ⟨_, fs', bind_eq_ok.2 ⟨_, hsplit, rfl⟩, ?_⟩
  refine ⟨?_, rfl, hcut.listed.congr (fun _ _ => rfl) rfl, hcut.spaced, hcut.placed,
    placed_front hpb hdvd hsize, hcut.stored, hcut.apart, ?_, ?_, ?_⟩
  · apply u64_of_lt
    have hstop := hpb.stop_le
    unfold stop at hstop
    omega
  · intro x
    refine (hcut.covers x).trans ?_
    have hb : Covers headerSize { b with free := false } x ↔ Covers headerSize b x := Iff.rfl
    simp only [hb, mem_append, mem_cons, or_and_right, exists_or, exists_eq_left,
      Option.not_mem_none, false_and, exists_false, or_false]
    exact or_assoc.trans (or_congr_right or_comm)
  · intro x h0 hx _
    rw [← hframe x h0 hx]
    refine hcut.frame x h0 (fun hb => hx ⟨b, hbm, hb⟩) ?_
    intro hm
    exact addr_notMem_of_not_covers hx (List.Sublist.subset (hsub.map _) hm)
  · intro w hw x hx
    refine (hcut.reads w hw x hx).imp_right fun hm => ⟨List.Sublist.subset (hsub.map _) hm, ?_⟩
    obtain ⟨f, hf, rfl⟩ := mem_map.1 hm
    exact addr_ne (b := b) hsp.ascending (mem_append.1 hf)

structure NewChunk (fs : List Block) (c : ℕ × ℕ) : Prop where
  pos : 0 < c.1
  aligned : pageSize ∣ c.1
  stop_le : c.1 + c.2 ≤ 2 ^ 47
  apart : ∀ f ∈ fs, ∀ x, Covers headerSize f x → ¬ InChunk c x

def whole (c : ℕ × ℕ) : Block := ⟨c.1, c.2 - headerSize, false⟩

/-- The request and its header, rounded up to pages, do not pass the end of the words. -/
def Fits (size : ℕ) : Prop := size + headerSize + (pageSize - 1) < 2 ^ 64

theorem numBytes_spec (hfits : Fits size) :
    size + headerSize ≤ numBytes size ∧ pageSize ∣ numBytes size := by
  unfold Fits pageSize at hfits
  have hround := alignUp_spec (v := size + headerSize) (a := pageSize) (by decide)
    (by unfold pageSize; omega)
  rw [numBytes, u64_of_lt (by omega)]
  exact ⟨hround.1, hround.2.2⟩

variable {n c : ℕ}

theorem openChunk_mem (hx : x ≠ c) :
    (openChunk h c n).mem x = if c ≤ x ∧ x < c + n then ⟨0, false, false, 0⟩ else h.mem x := by
  unfold openChunk
  dsimp only
  rw [Heap.setIsStartOfChunk]
  dsimp only
  rw [Function.update_of_ne hx, setIsFree_mem _ _ hx, setSize_mem _ _ hx]
  rfl

theorem openChunk_stored (hn : headerSize ≤ n) (hlt : n < 2 ^ 62) :
    Stored (openChunk h c n) (whole (c, n)) := by
  have hsub : subWord n headerSize = n - headerSize := subWord_of_le (by omega) hn
  refine ⟨?_, ?_⟩
  · simp only [openChunk, Heap.setIsStartOfChunk, whole, Function.update_self, setIsFree_size,
      setSize_size, ite_true, hsub]
    exact Nat.mod_eq_of_lt (by omega)
  · simp [openChunk, Heap.setIsStartOfChunk, whole]

theorem covers_whole {c} (hn : headerSize ≤ c.2) (x : ℕ) :
    Covers headerSize (whole c) x ↔ InChunk c x := by
  simp only [Covers, whole, stop, InChunk]
  omega

theorem placed_whole {c} (hpos : 0 < c.1) (haddr : pageSize ∣ c.1) (hsize : pageSize ∣ c.2)
    (hn : headerSize ≤ c.2) (hstop : c.1 + c.2 ≤ 2 ^ 47) :
    Placed (whole c) where
  pos := hpos
  stop_le := by
    simp only [whole, stop]
    omega
  addr_dvd := Nat.dvd_trans (by decide) haddr
  size_dvd := by
    have h16 : 16 ∣ c.2 := Nat.dvd_trans (by decide) hsize
    simp only [whole, headerSize]
    omega

theorem openChunk_mem_of_not_inChunk (hn : headerSize ≤ n)
    (hx : ¬ InChunk (c, n) x) : (openChunk h c n).mem x = h.mem x := by
  have hxc : x ≠ c := by
    rintro rfl
    exact hx ((covers_whole hn _).1 (covers_addr headerSize_pos (whole (x, n))))
  rw [openChunk_mem hxc]
  exact if_neg hx

theorem openChunk_listed (hn : headerSize ≤ n) (hl : Listed h fs)
    (hnew : NewChunk fs (c, n)) : Listed (openChunk h c n) fs := by
  refine hl.congr ?_ rfl
  intro f hf
  exact openChunk_mem_of_not_inChunk hn
    (hnew.apart f hf f.addr (covers_addr headerSize_pos f))

theorem openChunk_nextOf_remainder (hlt : size + headerSize < n) :
    (openChunk h c n).nextOf (remainder (whole (c, n)) size).addr = 0 := by
  have hin : c ≤ (remainder (whole (c, n)) size).addr ∧
      (remainder (whole (c, n)) size).addr < c + n := by
    simp only [remainder, whole]
    omega
  have hne : (remainder (whole (c, n)) size).addr ≠ c :=
    (addr_ne_remainder (whole (c, n)) size).symm
  rw [Heap.nextOf, openChunk_mem hne, if_pos hin]

variable {mmap : ℕ → ℕ}

theorem takeChunk_spec (hl : Listed h fs) (hsp : Spaced headerSize fs)
    (hps : ∀ f ∈ fs, Placed f) (hfits : Fits size) (hdvd : 16 ∣ size)
    (hnew : NewChunk fs (mmap (numBytes size), numBytes size)) (hfuel : fs.length + 1 < fuel) :
    ∃ r u fs', takeChunk fuel mmap h size = .ok r ∧ Handed h fs r u fs' := by
  obtain ⟨hroom, hpages⟩ := numBytes_spec hfits
  unfold takeChunk
  dsimp only
  generalize numBytes size = n at hroom hpages hnew
  generalize mmap n = c at hnew
  have hn : headerSize ≤ n := by omega
  have hstop : c + n ≤ 2 ^ 47 := hnew.stop_le
  have hp := placed_whole hnew.pos hnew.aligned hpages hn hnew.stop_le
  have hcov := covers_whole (c := (c, n)) hn
  have hap : ∀ f ∈ fs, Apart headerSize f (whole (c, n)) := by
    intro f hf x hx hx'
    exact hnew.apart f hf x hx ((hcov x).1 hx')
  have hsize : size ≤ (whole (c, n)).size := by
    simp only [whole]
    omega
  have hnext : fs = [] → size < (whole (c, n)).size →
      (openChunk h c n).nextOf (remainder (whole (c, n)) size).addr = 0 := by
    intro _ hlt
    apply openChunk_nextOf_remainder
    simp only [whole] at hlt
    omega
  obtain ⟨h', walk, fs', hsplit, hcut⟩ := split_spec
    (fun h next => { h with freeMem := u64 _ })
    (fun _ _ => ⟨rfl, rfl⟩) (openChunk_listed hn hl hnew) hsp hps (openChunk_stored hn (by omega))
    rfl hp hap hsize hdvd hnext hfuel
  refine ⟨_, front (whole (c, n)) size, fs', bind_eq_ok.2 ⟨_, hsplit, rfl⟩, ?_⟩
  refine ⟨?_, rfl, hcut.listed.congr (fun _ _ => rfl) rfl, hcut.spaced, hcut.placed,
    placed_front hp hdvd hsize, hcut.stored, hcut.apart, ?_, ?_, ?_⟩
  · apply u64_of_lt
    omega
  · intro x
    rw [hcut.covers x, hcov x]
    simp
  · intro x h0 hx hx'
    have hout : ¬ InChunk (c, n) x := fun hin => hx' ⟨(c, n), rfl, hin⟩
    have hframe := hcut.frame x h0 (fun hin => hout ((hcov x).1 hin)) (addr_notMem_of_not_covers hx)
    exact hframe.trans (openChunk_mem_of_not_inChunk hn hout)
  · intro w hw x hx
    refine (hcut.reads w hw x hx).imp_right fun hm => ⟨hm, ?_⟩
    obtain ⟨f, hf, rfl⟩ := mem_map.1 hm
    have hne := (hap f hf).addr_ne headerSize_pos
    exact hne

theorem allocateLoop_cases (fuel size : ℕ) (mmap : ℕ → ℕ) {turns curr : ℕ}
    (post pre : List Block) (hl : Linked h.nextOf curr (post.map addr))
    (hs : ∀ f ∈ post, Stored h f) (hturns : post.length < turns) :
    (∃ xs b ys, post = xs ++ b :: ys ∧ size ≤ b.size ∧
      allocateLoop fuel mmap turns h (lastAddr (pre.map addr)) curr size =
        take fuel h (lastAddr ((pre ++ xs).map addr)) b.addr size) ∨ (∀ f ∈ post, f.size < size) ∧
      allocateLoop fuel mmap turns h (lastAddr (pre.map addr)) curr size =
        takeChunk fuel mmap h size := by
  induction post generalizing pre curr turns with
  | nil =>
    obtain ⟨turns, rfl⟩ := Nat.exists_eq_succ_of_ne_zero (ne_of_gt hturns)
    have hcurr : curr = 0 := hl
    exact .inr ⟨by simp, by rw [allocateLoop, if_pos hcurr]⟩
  | cons b post ih =>
    obtain ⟨turns, rfl⟩ := Nat.exists_eq_succ_of_ne_zero (ne_of_gt (Nat.zero_lt_of_lt hturns))
    obtain ⟨rfl, h0, hrest⟩ := hl
    rw [allocateLoop, if_neg h0, (hs b mem_cons_self).1]
    by_cases hsize : size ≤ b.size
    · refine .inl ⟨[], b, post, rfl, hsize, ?_⟩
      rw [if_pos hsize, append_nil]
    have hlast : b.addr = lastAddr ((pre ++ [b]).map addr) := by simp
    have hih := ih (pre ++ [b]) hrest (fun f hf => hs f (mem_cons_of_mem b hf))
      (by simpa using hturns)
    rw [← hlast] at hih
    rw [if_neg hsize]
    rcases hih with ⟨xs, d, ys, rfl, hd, heq⟩ | ⟨hall, heq⟩
    · refine .inl ⟨b :: xs, d, ys, rfl, hd, ?_⟩
      rw [append_assoc, singleton_append] at heq
      exact heq
    refine .inr ⟨?_, heq⟩
    intro f hf
    rcases mem_cons.1 hf with rfl | hf
    · omega
    · exact hall f hf

/-- The block that a call would cut when the list has no other, has a null `next` field
where the rest of it would begin. -/
def CutsClean (h : Heap) (fs : List Block) (size : ℕ) : Prop :=
  ∀ b, fs = [b] → size < b.size → h.nextOf (remainder b size).addr = 0

theorem minSize_dvd_alignUp (n : ℕ) : 16 ∣ alignUp n minSize := by
  unfold alignUp u64 minSize
  omega

theorem allocate_spec (hl : Listed h fs) (hsp : Spaced headerSize fs)
    (hps : ∀ f ∈ fs, Placed f) (hfits : Fits (alignUp n minSize))
    (hclean : CutsClean h fs (alignUp n minSize))
    (hnew : (∀ f ∈ fs, f.size < alignUp n minSize) →
      NewChunk fs (mmap (numBytes (alignUp n minSize)), numBytes (alignUp n minSize)))
    (hfuel : fs.length + 1 < fuel) :
    ∃ r u fs', allocate fuel mmap h n = .ok r ∧ Handed h fs r u fs' := by
  have hdvd := minSize_dvd_alignUp n
  unfold allocate
  generalize alignUp n minSize = size at *
  have hturns : fs.length < fuel := by omega
  rcases allocateLoop_cases fuel size mmap fs [] hl.linked hl.stored hturns with
    ⟨xs, b, ys, rfl, hsize, heq⟩ | ⟨hall, heq⟩
  · have hlen : (xs ++ ys).length + 1 < fuel := by
      simp only [length_append, length_cons] at hfuel ⊢
      omega
    have hnext : xs ++ ys = [] → size < b.size → h.nextOf (remainder b size).addr = 0 := by
      intro hnil hlt
      obtain ⟨rfl, rfl⟩ := append_eq_nil_iff.1 hnil
      exact hclean b rfl hlt
    obtain ⟨r, fs', htake, hhanded⟩ := take_spec hl hsp hps hsize hdvd hnext hlen
    exact ⟨r, front b size, fs', heq.trans htake, hhanded⟩
  · obtain ⟨r, u, fs', htake, hhanded⟩ := takeChunk_spec hl hsp hps hfits hdvd (hnew hall) hfuel
    exact ⟨r, u, fs', heq.trans htake, hhanded⟩

end UserHeap
