import FrostyOS.FreeBlocks

/-! # Free and used blocks partition the region

Over lawful trees every operation moves whole blocks between the free and the used ones,
cuts free blocks, or adds a free block at the end. -/
namespace VirtualPageManager

open MachineWord OrderedMap BlockPool VirtualRegion

variable {F U : Type} {TF : Ops F (List ℕ)} {TU : Ops U ℕ} {IF : F → Prop} {IU : U → Prop}
  (LF : Lawful TF IF) (LU : Lawful TU IU) {s s' : VirtualPageManager F U} {addr count : ℕ}

def usedBlocks (TU : Ops U ℕ) (m : U) : Set Block := {b | TU.find m b.1 = some b.2}

def pagesEnd (r : VirtualRegion) : ℕ := r.start + r.size / pageSize * pageSize

structure Invariant (TF : Ops F (List ℕ)) (TU : Ops U ℕ) (s : VirtualPageManager F U) : Prop where
  straight : s.region.Straight
  lists : ListsOk TF s.freePagesSizeTree
  pool : Pool pageSize s.region.start (pagesEnd s.region) (freeBlocks TF s.freePagesSizeTree)
    (usedBlocks TU s.reservedANDUsedPages)

structure Keeps (TF : Ops F (List ℕ)) (s s' : VirtualPageManager F U) : Prop where
  region : s'.region = s.region
  used : s'.reservedANDUsedPages = s.reservedANDUsedPages
  lists : ListsOk TF s'.freePagesSizeTree
  free : Refines pageSize (freeBlocks TF s.freePagesSizeTree) (freeBlocks TF s'.freePagesSizeTree)

/-- The block of `count` pages at `addr`, cut out if needed, went from free to used. -/
structure Takes (TF : Ops F (List ℕ)) (TU : Ops U ℕ) (s s' : VirtualPageManager F U)
    (addr count : ℕ) : Prop where
  region : s'.region = s.region
  lists : ListsOk TF s'.freePagesSizeTree
  free : ∃ T, Refines pageSize (freeBlocks TF s.freePagesSizeTree) T ∧ (addr, count) ∈ T ∧
    freeBlocks TF s'.freePagesSizeTree = T \ {(addr, count)}
  used : usedBlocks TU s'.reservedANDUsedPages =
    insert (addr, count) (usedBlocks TU s.reservedANDUsedPages)

/-- The free block of `count` pages at `addr` went to the used ones, and nothing else changed. -/
structure TakesWhole (TF : Ops F (List ℕ)) (TU : Ops U ℕ) (s s' : VirtualPageManager F U)
    (addr count : ℕ) : Prop where
  region : s'.region = s.region
  lists : ListsOk TF s'.freePagesSizeTree
  block : (addr, count) ∈ freeBlocks TF s.freePagesSizeTree
  free : freeBlocks TF s'.freePagesSizeTree = freeBlocks TF s.freePagesSizeTree \ {(addr, count)}
  used : usedBlocks TU s'.reservedANDUsedPages =
    insert (addr, count) (usedBlocks TU s.reservedANDUsedPages)

structure Releases (TF : Ops F (List ℕ)) (TU : Ops U ℕ) (s s' : VirtualPageManager F U)
    (addr count : ℕ) : Prop where
  region : s'.region = s.region
  lists : ListsOk TF s'.freePagesSizeTree
  live : (addr, count) ∈ usedBlocks TU s.reservedANDUsedPages
  free : freeBlocks TF s'.freePagesSizeTree =
    insert (addr, count) (freeBlocks TF s.freePagesSizeTree)
  used : usedBlocks TU s'.reservedANDUsedPages =
    usedBlocks TU s.reservedANDUsedPages \ {(addr, count)}

theorem Keeps.refl (h : ListsOk TF s.freePagesSizeTree) : Keeps TF s s := ⟨rfl, rfl, h, .refl⟩

theorem TakesWhole.takes (h : TakesWhole TF TU s s' addr count) : Takes TF TU s s' addr count :=
  ⟨h.region, h.lists, ⟨_, .refl, h.block, h.free⟩, h.used⟩

theorem Takes.after_cut {t} (hk : Keeps TF s t) (ht : Takes TF TU t s' addr count) :
    Takes TF TU s s' addr count := by
  obtain ⟨T, hr, hb, hfree⟩ := ht.free
  exact ⟨ht.region.trans hk.region, ht.lists, ⟨T, hk.free.trans hr, hb, hfree⟩, hk.used ▸ ht.used⟩

theorem Keeps.invariant (h : Keeps TF s s') (hI : Invariant TF TU s) : Invariant TF TU s' := by
  refine ⟨h.region ▸ hI.straight, h.lists, ?_⟩
  rw [h.region, h.used]
  exact h.free.pool (by decide) hI.pool

theorem Takes.invariant (h : Takes TF TU s s' addr count) (hI : Invariant TF TU s) :
    Invariant TF TU s' := by
  obtain ⟨T, hr, hb, hfree⟩ := h.free
  refine ⟨h.region ▸ hI.straight, h.lists, ?_⟩
  rw [h.region, h.used, hfree]
  exact (hr.pool (by decide) hI.pool).take hb

theorem Releases.invariant (h : Releases TF TU s s' addr count) (hI : Invariant TF TU s) :
    Invariant TF TU s' := by
  refine ⟨h.region ▸ hI.straight, h.lists, ?_⟩
  rw [h.region, h.used, h.free]
  exact hI.pool.release h.live

theorem pagesEnd_le {r} (h : r.Straight) :
    pagesEnd r ≤ r.endAddr ∧ pagesEnd r < 2 ^ 64 := by
  have he := h.endAddr_eq
  unfold pagesEnd pageSize
  unfold Straight at h
  omega

theorem block_inside (hI : Invariant TF TU s) {b}
    (hb : b ∈ freeBlocks TF s.freePagesSizeTree ∪ usedBlocks TU s.reservedANDUsedPages) :
    0 < b.2 ∧ b.2 < 2 ^ 52 ∧ u64 (b.2 * pageSize) = b.2 * pageSize ∧
      s.region.isInside b.1 (b.2 * pageSize) := by
  have hpos := hI.pool.partition.pos b hb
  obtain ⟨hl, hr⟩ := hI.pool.partition.inside b hb
  obtain ⟨hend, hlt⟩ := pagesEnd_le hI.straight
  unfold stop at hr
  have hword : b.1 + b.2 * pageSize < 2 ^ 64 := by omega
  refine ⟨hpos, ?_, u64_of_lt (by omega), ?_⟩
  · unfold pageSize at hword
    omega
  · rw [isInside_iff, u64_of_lt hword]
    exact ⟨hl, hr.trans hend⟩

theorem find_used_none {m free} {lo hi : ℕ} (hp : Pool pageSize lo hi free (usedBlocks TU m))
    (hb : (addr, count) ∈ free) :
    TU.find m addr = none := by
  cases hf : TU.find m addr with
  | none => rfl
  | some n =>
    have hu : (addr, n) ∈ usedBlocks TU m := hf
    have he := hp.start_inj (by decide) (.inl hb) (.inr hu) rfl
    rw [← he] at hu
    exact absurd hu (hp.disjoint _ hb)

include LU

theorem usedBlocks_insert {m} (count : ℕ) (hI : IU m) (hf : TU.find m addr = none) :
    usedBlocks TU (TU.insert m addr count) = insert (addr, count) (usedBlocks TU m) := by
  ext ⟨x, n⟩
  have hfind := LU.find_insert addr count hI hf x
  show TU.find (TU.insert m addr count) x = some n ↔ (x, n) = (addr, count) ∨ TU.find m x = some n
  rw [hfind, Prod.mk.injEq]
  by_cases hx : x = addr
  · subst hx
    simp [hf, eq_comm]
  · simp [hx]

theorem usedBlocks_delete {m} (hI : IU (TU.delete m addr)) (hf : TU.find m addr = some count) :
    usedBlocks TU (TU.delete m addr) = usedBlocks TU m \ {(addr, count)} := by
  ext ⟨x, n⟩
  have hfind := LU.find_delete hI x
  show TU.find (TU.delete m addr) x = some n ↔ TU.find m x = some n ∧ (x, n) ∉ {(addr, count)}
  rw [hfind, Set.mem_singleton_iff, Prod.mk.injEq]
  by_cases hx : x = addr
  · subst hx
    simp only [if_true, hf, Option.some.injEq, true_and]
    constructor
    · intro h; cases h
    · rintro ⟨rfl, h⟩; exact absurd rfl h
  · simp [hx]

omit LU in
theorem unfreePages_exact (hpos : 0 < count) (hlen : u64 (count * pageSize) = count * pageSize)
    (hin : s.region.isInside addr (count * pageSize)) :
    s.unfreePages TF addr count true = some (s.removeExact TF addr count) := by
  have hdiv : count * pageSize / pageSize = count := Nat.mul_div_cancel _ (by decide)
  simp [unfreePages, hlen, ensureIsInside_of_isInside hin, hdiv, ne_of_gt hpos]

include LF

theorem lockPages_takesWhole (hI : Invariant TF TU s) (hU : IU s.reservedANDUsedPages)
    (hb : (addr, count) ∈ freeBlocks TF s.freePagesSizeTree) :
    ∃ s', s.lockPages TF TU addr count true false = some s' ∧
      (IF s'.freePagesSizeTree → IF s.freePagesSizeTree ∧ TakesWhole TF TU s s' addr count) := by
  obtain ⟨hpos, hlt, hlen, hin⟩ := block_inside hI (.inl hb)
  have hnone := find_used_none hI.pool hb
  have hmask : count % 2 ^ 63 = count := Nat.mod_eq_of_lt (by omega)
  obtain ⟨-, l, hl, ha⟩ := hb
  have hfind : TF.find (s.addUsed TU addr count).freePagesSizeTree count = some l := hl
  have hunfree : (s.addUsed TU addr count).unfreePages TF addr count true =
      some ((s.addUsed TU addr count).removeExact TF addr count) := unfreePages_exact hpos hlen hin
  rw [removeExact_listed hfind ha] at hunfree
  refine ⟨((s.addUsed TU addr count).withFree
    (dropBlock TF s.freePagesSizeTree count addr l)).uncount count, ?_, fun hF => ?_⟩
  · simp only [lockPages, lockRange, Bool.false_eq_true, if_false, ne_of_gt hpos, hnone,
      if_true, Bool.not_false, hunfree]
    rfl
  · have hdrop : IF (dropBlock TF s.freePagesSizeTree count addr l) := hF
    have hins := usedBlocks_insert LU count hU hnone
    refine ⟨intact_of_dropBlock LF hdrop, rfl, dropBlock_ok LF hdrop hI.lists hl,
      (listed_iff hl hpos).mpr ha, freeBlocks_dropBlock LF hdrop hI.lists hl hpos, ?_⟩
    simpa only [withFree, uncount, addUsed, hmask] using hins

omit LU in
theorem intact_of_lockPages (h : s.lockPages TF TU addr count true false = some s')
    (hF : IF s'.freePagesSizeTree) : IF s.freePagesSizeTree := by
  simp only [lockPages, lockRange, Bool.false_eq_true, if_false, if_true, Bool.not_false] at h
  split at h
  · cases h
    exact hF
  split at h
  · cases h
    exact hF
  obtain ⟨⟨t, ok⟩, ht, rfl⟩ := Option.map_eq_some_iff.mp h
  rcases unfreePages_exact_cases TF (s.addUsed TU addr count) addr count with he | ⟨a, n, he⟩
  · cases ht.symm.trans he
    exact hF
  · have hrem := Option.some.inj (ht.symm.trans he)
    rw [hrem] at hF
    have hF₁ : IF (s.addUsed TU addr count).freePagesSizeTree := intact_of_removeExact LF hF
    exact hF₁

omit LU in
theorem split_keeps {key : ℕ} (hI : Invariant TF TU s)
    (hF : IF (splitFreeBlock TF s.freePagesSizeTree addr key count)) :
    Keeps TF s (s.withFree (splitFreeBlock TF s.freePagesSizeTree addr key count)) := by
  obtain ⟨hok, hr⟩ := splitFreeBlock_refines LF hF hI.lists hI.pool (pagesEnd_le hI.straight).2
  exact ⟨rfl, rfl, hok, hr⟩

/-- `AllocatePages(count)` takes the front of a free block that is long enough, after cutting
it off; it returns null only if there is none. -/
theorem allocatePages_front {r} (h : s.allocatePages TF TU count = some (s', r))
    (hF : IF s.freePagesSizeTree) (hU : IU s.reservedANDUsedPages)
    (hF' : IF s'.freePagesSizeTree) (hI : Invariant TF TU s) :
    r = none ∧ s' = s ∧ (count = 0 ∨ ∀ b ∈ freeBlocks TF s.freePagesSizeTree, b.2 < count) ∨
    ∃ mem key t, r = some mem ∧ 0 < count ∧ count ≤ key ∧
      (mem, key) ∈ freeBlocks TF s.freePagesSizeTree ∧ Keeps TF s t ∧
      TakesWhole TF TU t s' mem count ∧
      (count = key ∧ t = s ∨ count < key ∧ freeBlocks TF t.freePagesSizeTree =
        split pageSize (freeBlocks TF s.freePagesSizeTree) (mem, key) count) := by
  unfold allocatePages at h
  by_cases h0 : count = 0
  · rw [if_pos h0] at h
    cases h
    exact .inl ⟨rfl, rfl, .inl h0⟩
  rw [if_neg h0] at h
  split at h
  · next hnone =>
    cases h
    refine .inl ⟨rfl, rfl, .inr ?_⟩
    rintro ⟨a, n⟩ ⟨-, l, hl, -⟩
    by_contra hle
    rw [LF.higher_none hF hnone n (not_lt.mp hle)] at hl
    cases hl
  · next key hh =>
    exact absurd rfl (hI.lists.nonempty key [] (LF.higher_some hF hh).2.1)
  · next key mem rest hh =>
    obtain ⟨hle, hfind, -⟩ := LF.higher_some hF hh
    have hmem : (mem, key) ∈ freeBlocks TF s.freePagesSizeTree :=
      (listed_iff hfind (by omega)).mpr List.mem_cons_self
    obtain ⟨t, hlock, he⟩ := Option.map_eq_some_iff.mp h
    cases he
    have hpos := Nat.pos_of_ne_zero h0
    by_cases hlt : count < key
    · rw [if_pos hlt] at hlock
      have hF₁ : IF (splitFreeBlock TF s.freePagesSizeTree mem key count) :=
        intact_of_lockPages LF hlock hF'
      have hk := split_keeps LF hI hF₁
      have hcut := (splitFreeBlock_cut LF hF₁ hI.lists hI.pool (pagesEnd_le hI.straight).2 hmem
        hpos hlt).2
      have hb : (mem, count) ∈
          freeBlocks TF (splitFreeBlock TF s.freePagesSizeTree mem key count) := by
        rw [hcut]
        exact mem_split.mpr (.inr (.inl rfl))
      obtain ⟨t', ht', hspec⟩ := lockPages_takesWhole LF LU (hk.invariant hI) hU hb
      cases hlock.symm.trans ht'
      exact .inr ⟨mem, key, _, rfl, hpos, hle, hmem, hk, (hspec hF').2, .inr ⟨hlt, hcut⟩⟩
    · obtain rfl : count = key := by omega
      rw [if_neg hlt] at hlock
      obtain ⟨t', ht', hspec⟩ := lockPages_takesWhole LF LU hI hU hmem
      cases hlock.symm.trans ht'
      exact .inr ⟨mem, count, s, rfl, hpos, hle, hmem, .refl hI.lists, (hspec hF').2,
        .inl ⟨rfl, rfl⟩⟩

theorem allocatePages_spec {r} (h : s.allocatePages TF TU count = some (s', r))
    (hF : IF s.freePagesSizeTree) (hU : IU s.reservedANDUsedPages)
    (hF' : IF s'.freePagesSizeTree) (hI : Invariant TF TU s) :
    r = none ∧ s' = s ∨ ∃ mem, r = some mem ∧ Takes TF TU s s' mem count := by
  rcases allocatePages_front LF LU h hF hU hF' hI with
    ⟨hr, hs, -⟩ | ⟨mem, key, t, hr, -, -, -, hk, ht, -⟩
  · exact .inl ⟨hr, hs⟩
  · exact .inr ⟨mem, hr, ht.takes.after_cut hk⟩

/-- `AllocatePages(addr, count)` takes the block it was asked for, or only cuts free blocks. -/
theorem allocatePagesAt_spec {r} (hcount : count < 2 ^ 52)
    (h : s.allocatePagesAt TF TU addr count = some (s', r))
    (hF : IF s.freePagesSizeTree) (hU : IU s.reservedANDUsedPages)
    (hF' : IF s'.freePagesSizeTree) (hI : Invariant TF TU s) :
    r = none ∧ Keeps TF s s' ∨ r = some addr ∧ Takes TF TU s s' addr count := by
  unfold allocatePagesAt at h
  by_cases h0 : count = 0 ∨ s.region.isInside addr (u64 (count * pageSize)) = false
  · rw [if_pos h0] at h
    cases h
    exact .inl ⟨rfl, .refl hI.lists⟩
  rw [if_neg h0] at h
  obtain ⟨hpos, hin⟩ := not_or.mp h0
  have hlen : u64 (count * pageSize) / pageSize = count := by
    rw [u64_of_lt (by unfold pageSize; omega)]
    exact Nat.mul_div_cancel _ (by decide)
  obtain ⟨⟨t, ok⟩, ht, h⟩ := Option.bind_eq_some_iff.mp h
  have hhi := (pagesEnd_le hI.straight).2
  cases ok with
  | false =>
    cases h
    have hun := unfreePages_spec LF ht hF' hF (by simpa using hin) hI.lists hI.pool hhi
    obtain ⟨T, hr, ⟨-, hT⟩ | ⟨hok, -⟩⟩ := hun.blocks
    · exact .inl ⟨rfl, hun.region, hun.used, hun.lists, hT ▸ hr⟩
    · cases hok
  | true =>
    obtain ⟨t', ht', he⟩ := Option.bind_eq_some_iff.mp h
    obtain ⟨rfl, rfl⟩ := Prod.mk.inj (Option.some.inj he)
    have hfree : t'.freePagesSizeTree = t.freePagesSizeTree := by
      simp only [lockPages, lockRange, Bool.false_eq_true, if_false, hpos] at ht'
      split at ht' <;> (obtain rfl := Option.some.inj ht'; rfl)
    rw [hfree] at hF'
    have hun := unfreePages_spec LF ht hF' hF (by simpa using hin) hI.lists hI.pool hhi
    rw [hlen] at hun
    obtain ⟨T, hr, ⟨hok, -⟩ | ⟨-, hb, hT⟩⟩ := hun.blocks
    · cases hok
    have hnone := find_used_none (hr.pool (by decide) hI.pool) hb
    rw [← hun.used] at hnone
    have hmask : count % 2 ^ 63 = count := Nat.mod_eq_of_lt (by omega)
    have hlock : t.lockPages TF TU addr count false false = some (t.addUsed TU addr count) := by
      simp [lockPages, lockRange, hpos, hnone]
    cases ht'.symm.trans hlock
    have hins := usedBlocks_insert LU count (hun.used ▸ hU) hnone
    refine .inr ⟨rfl, hun.region, hun.lists, ⟨T, hr, hb, hT⟩, ?_⟩
    simpa only [addUsed, hmask, hun.used] using hins

omit LF LU in
theorem freePages_block (hpos : 0 < count) (hlen : u64 (count * pageSize) = count * pageSize)
    (hin : s.region.isInside addr (count * pageSize)) :
    s.freePages TF addr count =
      { s with
        freePagesSizeTree := addBlock TF s.freePagesSizeTree count addr
        freePagesCount := u64 (s.freePagesCount + count) } := by
  have hdiv : count * pageSize / pageSize = count := Nat.mul_div_cancel _ (by decide)
  simp [freePages, hlen, ensureIsInside_of_isInside hin, hdiv, ne_of_gt hpos]

omit LF LU in
theorem unlockPages_used {a length : ℕ}
    (hc : s.region.ensureIsInside addr (u64 (count * pageSize)) = some (a, length))
    (hpos : 0 < length / pageSize)
    (hf : TU.find s.reservedANDUsedPages a = some (length / pageSize)) :
    s.unlockPages TF TU addr count =
      (s.dropUsed TU a (length / pageSize)).freePages TF a (length / pageSize) := by
  have hlength := ensureIsInside_size_lt (u64_lt _) hc
  have hmask : length / pageSize % 2 ^ 63 = length / pageSize :=
    Nat.mod_eq_of_lt (by unfold pageSize; omega)
  simp only [unlockPages, hc, hmask, hf, if_neg (ne_of_gt hpos), ne_eq, not_true_eq_false,
    if_false]

theorem unlockPages_releases {a length : ℕ}
    (hc : s.region.ensureIsInside addr (u64 (count * pageSize)) = some (a, length))
    (hb : (a, length / pageSize) ∈ usedBlocks TU s.reservedANDUsedPages)
    (hF' : IF (s.unlockPages TF TU addr count).freePagesSizeTree)
    (hU' : IU (s.unlockPages TF TU addr count).reservedANDUsedPages) (hI : Invariant TF TU s) :
    Releases TF TU s (s.unlockPages TF TU addr count) a (length / pageSize) := by
  have hf : TU.find s.reservedANDUsedPages a = some (length / pageSize) := hb
  obtain ⟨hpos, hlt, hlen, hin⟩ := block_inside hI (.inr hb)
  rw [unlockPages_used hc hpos hf,
    freePages_block (s := s.dropUsed TU a (length / pageSize)) hpos hlen hin] at hF' hU' ⊢
  have hF₁ := (addBlock_intact LF).mp hF'
  refine ⟨rfl, ?_, hb, ?_, ?_⟩
  · exact addBlock_ok LF hF₁ hI.lists fun h => hI.pool.disjoint _ h hb
  · exact freeBlocks_addBlock LF hF₁ hpos
  · exact usedBlocks_delete LU hU' hf

theorem unlockPages_spec (hF' : IF (s.unlockPages TF TU addr count).freePagesSizeTree)
    (hU' : IU (s.unlockPages TF TU addr count).reservedANDUsedPages) (hI : Invariant TF TU s) :
    s.unlockPages TF TU addr count = s ∨
    ∃ a length, s.region.ensureIsInside addr (u64 (count * pageSize)) = some (a, length) ∧
      Releases TF TU s (s.unlockPages TF TU addr count) a (length / pageSize) := by
  cases hc : s.region.ensureIsInside _ _ with
  | none => simp [unlockPages, hc]
  | some e =>
    obtain ⟨a, length⟩ := e
    by_cases hb : (a, length / pageSize) ∈ usedBlocks TU s.reservedANDUsedPages
    · exact .inr ⟨a, length, rfl, unlockPages_releases LF LU hc hb hF' hU' hI⟩
    have hlength := ensureIsInside_size_lt (u64_lt _) hc
    have hmask : length / pageSize % 2 ^ 63 = length / pageSize :=
      Nat.mod_eq_of_lt (lt_of_le_of_lt (Nat.div_le_div_right hlength.le) (by decide))
    have hf : TU.find s.reservedANDUsedPages a ≠ some (length / pageSize) := hb
    refine .inl ?_
    simp only [unlockPages, hc, hmask, ne_eq, hf, not_false_eq_true, if_true, ite_self]

omit LU in
theorem freePages_grows (count : ℕ) {lo hi : ℕ} {used} (hF : IF s.freePagesSizeTree)
    (hlists : ListsOk TF s.freePagesSizeTree)
    (hp : Pool pageSize lo hi (freeBlocks TF s.freePagesSizeTree) used) (hlo : lo ≤ hi)
    (hdvd : pageSize ∣ hi - lo) (hstart : s.region.start ≤ hi)
    (hend : hi + count * pageSize ≤ s.region.endAddr) :
    IF (s.freePages TF hi count).freePagesSizeTree ∧
    ListsOk TF (s.freePages TF hi count).freePagesSizeTree ∧
    Pool pageSize lo (hi + count * pageSize)
      (freeBlocks TF (s.freePages TF hi count).freePagesSizeTree) used ∧
    (s.freePages TF hi count).region = s.region ∧
    (s.freePages TF hi count).reservedANDUsedPages = s.reservedANDUsedPages := by
  have hword := s.region.endAddr_lt
  have hin : s.region.isInside hi (count * pageSize) := by
    rw [isInside_iff, u64_of_lt (by omega)]
    exact ⟨hstart, hend⟩
  have hlen : u64 (count * pageSize) = count * pageSize := u64_of_lt (by omega)
  by_cases h0 : count = 0
  · have hsame : s.freePages TF hi count = s := by
      rw [h0] at hin hlen ⊢
      simp only [zero_mul] at hin hlen
      simp [freePages, hlen, ensureIsInside_of_isInside hin]
    rw [hsame, h0, zero_mul, add_zero]
    exact ⟨hF, hlists, hp, rfl, rfl⟩
  · have hpos := Nat.pos_of_ne_zero h0
    have hnew : (hi, count) ∉ freeBlocks TF s.freePagesSizeTree := by
      intro hm
      have hr := (hp.partition.inside _ (.inl hm)).2
      have := Nat.mul_pos hpos (show 0 < pageSize by decide)
      unfold stop at hr
      dsimp only at hr
      omega
    rw [freePages_block hpos hlen hin]
    refine ⟨(addBlock_intact LF).mpr hF, addBlock_ok LF hF hlists hnew, ?_, rfl, rfl⟩
    dsimp only
    rw [freeBlocks_addBlock LF hF hpos]
    exact hp.grow hlo hdvd (by decide) hpos

theorem initVPageMgr_invariant {region} (hr : region.Straight) :
    Invariant TF TU (initVPageMgr TF TU region) ∧ IF (initVPageMgr TF TU region).freePagesSizeTree ∧
      (initVPageMgr TF TU region).reservedANDUsedPages = TU.empty ∧
      (initVPageMgr TF TU region).region = region := by
  have hfree : freeBlocks TF TF.empty = ∅ := by
    ext b
    simp [freeBlocks, LF.find_empty]
  have hused : usedBlocks TU TU.empty = ∅ := by
    ext b
    simp [usedBlocks, LU.find_empty]
  have hpool : Pool pageSize region.start region.start (freeBlocks TF TF.empty)
      (usedBlocks TU TU.empty) := by
    rw [hfree, hused]
    exact ⟨⟨by simp, by simp, by simp, by simp, by intro x _ _; omega⟩, by simp⟩
  have hlists : ListsOk TF TF.empty := by
    constructor <;> simp [LF.find_empty]
  have hend := (pagesEnd_le hr).1
  obtain ⟨h₁, h₂, h₃, h₄, h₅⟩ := freePages_grows LF
    (s := ⟨region, TF.empty, TU.empty, 0, 0, 0⟩) (region.size / pageSize) LF.empty_intact hlists
    hpool le_rfl (by simp) le_rfl hend
  refine ⟨⟨?_, h₂, ?_⟩, h₁, h₅, h₄⟩
  · unfold initVPageMgr
    rw [h₄]
    exact hr
  · unfold initVPageMgr
    rw [h₄, h₅]
    exact h₃

omit LU in
/-- Growing a page-aligned region by whole pages adds one free block. -/
theorem attemptToExpandRight_spec {newSize : ℕ} (hI : Invariant TF TU s)
    (hF : IF s.freePagesSizeTree) (hsize : pageSize ∣ s.region.size)
    (hnew : pageSize ∣ newSize) (hend : s.region.start + newSize < 2 ^ 64) :
    Invariant TF TU (s.attemptToExpandRight TF newSize).1 ∧
    IF (s.attemptToExpandRight TF newSize).1.freePagesSizeTree ∧
    (s.attemptToExpandRight TF newSize).1.reservedANDUsedPages = s.reservedANDUsedPages ∧
    (s.attemptToExpandRight TF newSize).1.region.start = s.region.start ∧
    pageSize ∣ (s.attemptToExpandRight TF newSize).1.region.size := by
  unfold attemptToExpandRight
  by_cases hlt : newSize < s.region.size
  · rw [if_pos hlt]
    exact ⟨hI, hF, rfl, rfl, hsize⟩
  rw [if_neg hlt]
  obtain ⟨hstart, hsize', hend'⟩ := expandRight_spec hend
  have haligned : pagesEnd s.region = s.region.endAddr := by
    unfold pagesEnd
    rw [Nat.div_mul_cancel hsize, hI.straight.endAddr_eq]
  have hcount :
      subWord newSize s.region.size / pageSize * pageSize = newSize - s.region.size := by
    rw [subWord_of_le (by omega) (by omega)]
    exact Nat.div_mul_cancel (Nat.dvd_sub hnew hsize)
  have hend₀ := hI.straight.endAddr_eq
  have hpool := hI.pool
  rw [haligned] at hpool
  obtain ⟨h₁, h₂, h₃, h₄, h₅⟩ := freePages_grows LF
    (s := { s with region := s.region.expandRight newSize })
    (subWord newSize s.region.size / pageSize) hF hI.lists hpool (by omega)
    (by rw [hend₀, Nat.add_sub_cancel_left]; exact hsize)
    (by dsimp only; omega) (by dsimp only; omega)
  refine ⟨⟨?_, h₂, ?_⟩, h₁, h₅, ?_, ?_⟩
  · unfold Straight
    rw [h₄]
    dsimp only
    omega
  · have hpages : pagesEnd (s.region.expandRight newSize) = s.region.endAddr +
        subWord newSize s.region.size / pageSize * pageSize := by
      unfold pagesEnd
      rw [hstart, hsize', Nat.div_mul_cancel hnew]
      omega
    rw [h₄, h₅]
    dsimp only
    rw [hstart, hpages]
    exact h₃
  · rw [h₄]
    exact hstart
  · rw [h₄]
    dsimp only
    rw [hsize']
    exact hnew

end VirtualPageManager
