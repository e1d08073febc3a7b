import FrostyOS.MapTotals
import FrostyOS.PageRuns

/-! # The counters of the virtual page manager

The counters should show the number of pages in the entries of the two trees. -/
namespace PageCounters

open MachineWord OrderedMap VirtualPageManager PageRuns Option

variable {F U : Type} {TF : Ops F (List ℕ)} {TU : Ops U ℕ} {IF : F → Prop} {IU : U → Prop}
  {s s' t : VirtualPageManager F U} {addr count : ℕ}

/-- The pages of the free blocks of one size. -/
def freeWeight (size : ℕ) (list : List ℕ) : ℕ := size * list.length

def usedWeight (_ entry : ℕ) : ℕ := if entry < reservedBit then entry else 0

def reservedWeight (_ entry : ℕ) : ℕ := if entry < reservedBit then 0 else entry - reservedBit

/-- A counter, a 64-bit word, shows the sum over the entries of a tree. -/
def Shows {M V : Type} (T : Ops M V) (f : ℕ → V → ℕ) (m : M) (counter : ℕ) : Prop :=
  ∃ n, Sums T f m n ∧ counter = u64 n

structure Counted (TF : Ops F (List ℕ)) (TU : Ops U ℕ) (s : VirtualPageManager F U) : Prop where
  free : Shows TF freeWeight s.freePagesSizeTree s.freePagesCount
  used : Shows TU usedWeight s.reservedANDUsedPages s.usedPagesCount
  reserved : Shows TU reservedWeight s.reservedANDUsedPages s.reservedPagesCount

inductive Op where
  | allocatePages (count : ℕ)
  | allocatePagesAt (addr count : ℕ)
  | unallocatePages (addr count : ℕ)
  | reservePages (addr count : ℕ)
  | unreservePages (addr count : ℕ)
  | attemptToExpandRight (newSize : ℕ)
  deriving DecidableEq, Repr

def perform (TF : Ops F (List ℕ)) (TU : Ops U ℕ) (s : VirtualPageManager F U) :
    Op → Option (VirtualPageManager F U)
  | .allocatePages count => (s.allocatePages TF TU count).map Prod.fst
  | .allocatePagesAt addr count => (s.allocatePagesAt TF TU addr count).map Prod.fst
  | .unallocatePages addr count => some (s.unallocatePages TF TU addr count)
  | .reservePages addr count => s.reservePages TF TU addr count
  | .unreservePages addr count => some (s.unreservePages TF TU addr count)
  | .attemptToExpandRight newSize => some (s.attemptToExpandRight TF newSize).1

/-- The range, clipped to the region, is a used block. -/
def NamesUsed (TU : Ops U ℕ) (s : VirtualPageManager F U) (addr count : ℕ) : Prop :=
  ∃ a length, s.region.ensureIsInside addr (u64 (count * pageSize)) = some (a, length) ∧
    0 < length / pageSize ∧ TU.find s.reservedANDUsedPages a = some (length / pageSize)

/-- The call releases no used block, and asks for no more pages than an entry can record. -/
def Clear (TU : Ops U ℕ) (s : VirtualPageManager F U) : Op → Prop
  | .unallocatePages addr count => ¬ NamesUsed TU s addr count
  | .allocatePagesAt _ count => count < reservedBit
  | _ => True

/-- Sizes are numbers of pages of the address space, and the pages add up to `n`. -/
structure FreeOk (TF : Ops F (List ℕ)) (IF : F → Prop) (m : F) (n : ℕ) : Prop where
  intact : IF m
  sizes : ∀ k l, TF.find m k = some l → k < 2 ^ 52
  sums : Sums TF freeWeight m n

section Free

variable (hTF : Ideal TF IF) {m m' : F} {n k a o : ℕ} {l : List ℕ}

include hTF

theorem FreeOk.addBlock (h : FreeOk TF IF m n) (hk : k < 2 ^ 52) :
    FreeOk TF IF (addBlock TF m k a) (n + k) := by
  have hfind := find_addBlock hTF.lawful (n := k) (a := a) h.intact
  obtain ⟨n', hn', he⟩ := h.sums.update hfind
  have hn : n' = n + k := by
    cases hf : TF.find m k with
    | none =>
      simp only [hf, weight_none, weight_some, freeWeight, getD_none, List.nil_append,
        List.length_singleton, mul_one] at he
      omega
    | some l =>
      simp only [hf, weight_some, freeWeight, getD_some, List.length_append,
        List.length_singleton, mul_add, mul_one] at he
      omega
  refine ⟨(addBlock_intact hTF.lawful).mpr h.intact, ?_, hn ▸ hn'⟩
  intro i l hl
  rw [hfind] at hl
  split at hl
  · next he => exact he ▸ hk
  · exact h.sizes i l hl

theorem FreeOk.dropBlock (h : FreeOk TF IF m n) (hl : TF.find m k = some l) (ha : a ∈ l) :
    ∃ n', FreeOk TF IF (dropBlock TF m k a l) n' ∧ n' + k = n := by
  have hI := dropBlock_intact hTF.lawful hTF.delete_intact (n := k) (a := a) (l := l) h.intact
  have hfind := find_dropBlock hTF.lawful hI hl
  obtain ⟨n', hn', he⟩ := h.sums.update hfind
  refine ⟨n', ⟨hI, ?_, hn'⟩, ?_⟩
  · intro i l' hl'
    rw [hfind] at hl'
    split at hl'
    · next he => exact he ▸ h.sizes k l hl
    · exact h.sizes i l' hl'
  · have hlen : l.length = (l.erase a).length + 1 := by
      rw [List.length_erase_of_mem ha]
      have := List.length_pos_of_mem ha
      omega
    by_cases hnil : l.erase a = []
    · rw [hl, if_pos hnil, weight_some, weight_none, freeWeight, hlen, hnil] at he
      simpa using he
    · rw [hl, if_neg hnil, weight_some, weight_some, freeWeight, freeWeight, hlen, mul_add,
        mul_one] at he
      omega

theorem FreeOk.split (h : FreeOk TF IF m n) : FreeOk TF IF (splitFreeBlock TF m a o k) n := by
  rcases splitFreeBlock_cases TF m a o k with hsame | ⟨l, hlt, hl, ha⟩
  · rwa [hsame]
  rw [splitFreeBlock_listed hlt hl ha]
  have ho := h.sizes o l hl
  obtain ⟨n', hn', he⟩ := h.dropBlock hTF hl ha
  have hcut := (hn'.addBlock hTF (k := k) (a := a) (by omega)).addBlock hTF (k := o - k)
    (a := u64 (a + k * pageSize)) (by omega)
  rwa [show n' + k + (o - k) = n by omega] at hcut

theorem FreeOk.carve {length key data : ℕ} (h : FreeOk TF IF m n)
    (hc : carve TF m addr length count key data = some m') : FreeOk TF IF m' n := by
  unfold VirtualPageManager.carve at hc
  dsimp only at hc
  split at hc
  · split at hc
    · obtain ⟨_, -, rfl⟩ := map_eq_some_iff.mp hc
      exact (h.split hTF).split hTF
    · cases hc
      exact h.split hTF
  · split at hc
    · cases hc
      exact h.split hTF
    · cases hc
      exact h

end Free

def FreeCounted (TF : Ops F (List ℕ)) (IF : F → Prop) (s : VirtualPageManager F U) : Prop :=
  ∃ n, FreeOk TF IF s.freePagesSizeTree n ∧ s.freePagesCount = u64 n

/-- Only the free blocks and their counter changed, and together. -/
structure FreeMoves (TF : Ops F (List ℕ)) (IF : F → Prop) (s s' : VirtualPageManager F U) :
    Prop where
  used : s'.reservedANDUsedPages = s.reservedANDUsedPages
  usedCount : s'.usedPagesCount = s.usedPagesCount
  reservedCount : s'.reservedPagesCount = s.reservedPagesCount
  free : FreeCounted TF IF s → FreeCounted TF IF s'

theorem FreeMoves.refl (s : VirtualPageManager F U) : FreeMoves TF IF s s := ⟨rfl, rfl, rfl, id⟩

theorem FreeMoves.trans (h : FreeMoves TF IF s t) (h' : FreeMoves TF IF t s') :
    FreeMoves TF IF s s' :=
  ⟨h'.used.trans h.used, h'.usedCount.trans h.usedCount, h'.reservedCount.trans h.reservedCount,
    fun hf => h'.free (h.free hf)⟩

theorem FreeMoves.withFree {m} (h : ∀ n, FreeOk TF IF s.freePagesSizeTree n → FreeOk TF IF m n) :
    FreeMoves TF IF s (s.withFree m) := by
  refine ⟨rfl, rfl, rfl, ?_⟩
  rintro ⟨n, hn, hc⟩
  exact ⟨n, h n hn, hc⟩

section Moves

variable (hTF : Ideal TF IF)

include hTF

theorem drop_moves {l} (hl : TF.find s.freePagesSizeTree count = some l) (ha : addr ∈ l) :
    FreeMoves TF IF s
      ((s.withFree (dropBlock TF s.freePagesSizeTree count addr l)).uncount count) := by
  refine ⟨rfl, rfl, rfl, ?_⟩
  rintro ⟨n, hn, hc⟩
  have hlt := hn.sizes count l hl
  obtain ⟨n', hn', he⟩ := hn.dropBlock hTF hl ha
  refine ⟨n', hn', ?_⟩
  show subWord s.freePagesCount count = u64 n'
  rw [hc]
  unfold subWord u64
  omega

theorem removeExact_moves : FreeMoves TF IF s (s.removeExact TF addr count).1 := by
  rcases removeExact_cases TF s addr count with h | ⟨l, hl, ha, h⟩
  · rw [h]
    exact .refl s
  · rw [h]
    exact drop_moves hTF hl ha

theorem unfreePages_moves {exact ok} (hs : FreeCounted TF IF s)
    (h : s.unfreePages TF addr count exact = some (s', ok)) : FreeMoves TF IF s s' := by
  obtain ⟨n, hn, -⟩ := hs
  unfold unfreePages at h
  split at h
  · cases h
    exact .refl s
  next a length _ =>
  dsimp only at h
  split at h
  · cases h
    exact .refl s
  split at h
  · obtain ⟨rfl, -⟩ := Prod.mk.inj (some.inj h)
    exact removeExact_moves hTF
  split at h
  · cases h
    exact .refl s
  · next key list hhit =>
    obtain ⟨hle, hfind, ha⟩ := findBlock_spec hTF.lawful hn.intact hn.sizes hhit
    split at h
    · obtain ⟨rfl, -⟩ := Prod.mk.inj (some.inj h)
      exact (FreeMoves.withFree fun _ hn => hn.split hTF).trans (removeExact_moves hTF)
    · cases h
      obtain rfl : key = length / pageSize := by omega
      exact drop_moves hTF hfind ha
  · obtain ⟨m, hcarve, he⟩ := map_eq_some_iff.mp h
    obtain ⟨rfl, -⟩ := Prod.mk.inj he
    exact (FreeMoves.withFree fun _ hn => hn.carve hTF hcarve).trans (removeExact_moves hTF)

theorem freePages_moves : FreeMoves TF IF s (s.freePages TF addr count) := by
  unfold freePages
  split
  · exact .refl s
  next a length hc =>
  dsimp only
  split
  · exact .refl s
  have hlength := VirtualRegion.ensureIsInside_size_lt (u64_lt _) hc
  refine ⟨rfl, rfl, rfl, ?_⟩
  rintro ⟨n, hn, hcount⟩
  refine ⟨_, hn.addBlock hTF (by unfold pageSize; omega), ?_⟩
  show u64 (s.freePagesCount + length / pageSize) = u64 (n + length / pageSize)
  rw [hcount]
  unfold u64
  omega

end Moves

section Entries

variable {M V : Type} {T : Ops M V} {Intact : M → Prop} {f : ℕ → V → ℕ} {m : M} {c k : ℕ} {v : V}

theorem Shows.insert (L : Lawful T Intact) (h : Shows T f m c) (hI : Intact m)
    (hk : T.find m k = none) : Shows T f (T.insert m k v) (u64 (c + f k v)) := by
  obtain ⟨n, hn, rfl⟩ := h
  refine ⟨_, hn.insert L hI hk, ?_⟩
  unfold u64
  omega

theorem Shows.delete (L : Lawful T Intact) (h : Shows T f m c) (hI : Intact (T.delete m k))
    (hk : T.find m k = some v) (hv : f k v < 2 ^ 64) :
    Shows T f (T.delete m k) (subWord c (f k v)) := by
  obtain ⟨n, hn, rfl⟩ := h
  obtain ⟨n', hn', he⟩ := hn.delete L hI hk
  refine ⟨n', hn', ?_⟩
  unfold u64 subWord
  omega

theorem Shows.unique {c' : ℕ} (h : Shows T f m c) (h' : Shows T f m c') : c = c' := by
  obtain ⟨n, hn, rfl⟩ := h
  obtain ⟨n', hn', rfl⟩ := h'
  rw [hn.unique hn']

theorem Shows.word (h : Shows T f m c) : c < 2 ^ 64 := by
  obtain ⟨n, -, rfl⟩ := h
  exact u64_lt n

end Entries

theorem usedWeight_used {a : ℕ} (h : count < reservedBit) :
    usedWeight a count = count ∧ reservedWeight a count = 0 := by
  simp [usedWeight, reservedWeight, h]

theorem weight_reserved {a : ℕ} (h : count < reservedBit) :
    usedWeight a (count ||| reservedBit) = 0 ∧
      reservedWeight a (count ||| reservedBit) = count := by
  have hor : count ||| reservedBit = reservedBit + count := by
    rw [Nat.or_comm]
    have := Nat.two_pow_add_eq_or_of_lt (i := 63) h 1
    rw [mul_one] at this
    exact this.symm
  rw [hor]
  simp [usedWeight, reservedWeight]

/-- The counters of used and reserved pages show what the entries hold. -/
structure UsedOk (TU : Ops U ℕ) (IU : U → Prop) (m : U) (used reserved : ℕ) : Prop where
  intact : IU m
  used : Shows TU usedWeight m used
  reserved : Shows TU reservedWeight m reserved

section Used

variable (hTU : Ideal TU IU) {m : U} {used reserved : ℕ}

include hTU

section

variable (h : UsedOk TU IU m used reserved)

include h

theorem UsedOk.insertUsed (hf : TU.find m addr = none) (hc : count < reservedBit) :
    UsedOk TU IU (TU.insert m addr (count % 2 ^ 63)) (u64 (used + count)) reserved := by
  have hmod : count % 2 ^ 63 = count := Nat.mod_eq_of_lt hc
  obtain ⟨hu, hr⟩ := usedWeight_used (a := addr) hc
  have hused := h.used.insert hTU.lawful (k := addr) (v := count) h.intact hf
  have hres := h.reserved.insert hTU.lawful (k := addr) (v := count) h.intact hf
  rw [hu] at hused
  rw [hr, add_zero, u64_of_lt h.reserved.word] at hres
  rw [hmod]
  exact ⟨(hTU.lawful.insert_intact _ _).mpr h.intact, hused, hres⟩

theorem UsedOk.insertReserved (hf : TU.find m addr = none) (hc : count < reservedBit) :
    UsedOk TU IU (TU.insert m addr (count ||| reservedBit)) used (u64 (reserved + count)) := by
  obtain ⟨hu, hr⟩ := weight_reserved (a := addr) hc
  have hused := h.used.insert hTU.lawful (k := addr) (v := count ||| reservedBit) h.intact hf
  have hres := h.reserved.insert hTU.lawful (k := addr) (v := count ||| reservedBit) h.intact hf
  rw [hu, add_zero, u64_of_lt h.used.word] at hused
  rw [hr] at hres
  exact ⟨(hTU.lawful.insert_intact _ _).mpr h.intact, hused, hres⟩

theorem UsedOk.deleteReserved
    (hf : TU.find m addr = some (count ||| reservedBit)) (hc : count < reservedBit) :
    UsedOk TU IU (TU.delete m addr) used (subWord reserved count) := by
  obtain ⟨hu, hr⟩ := weight_reserved (a := addr) hc
  have hI := hTU.delete_intact m addr h.intact
  have hlt : count < 2 ^ 64 := Nat.lt_trans hc (by decide)
  have hused := h.used.delete hTU.lawful hI hf (by rw [hu]; decide)
  have hres := h.reserved.delete hTU.lawful hI hf (by rw [hr]; exact hlt)
  rw [hu, subWord_of_le h.used.word (Nat.zero_le _), Nat.sub_zero] at hused
  rw [hr] at hres
  exact ⟨hI, hused, hres⟩

theorem UsedOk.not_shows_deleted
    (hf : TU.find m addr = some count) (hpos : 0 < count) (hc : count < reservedBit) :
    ¬ Shows TU usedWeight (TU.delete m addr) used := by
  intro hshow
  obtain ⟨hu, -⟩ := usedWeight_used (a := addr) hc
  have hlt : count < 2 ^ 63 := hc
  have hused := h.used.delete hTU.lawful (hTU.delete_intact m addr h.intact) hf (by rw [hu]; omega)
  have he := hshow.unique hused
  rw [hu] at he
  unfold subWord at he
  omega

end

end Used

structure RunOk (TF : Ops F (List ℕ)) (TU : Ops U ℕ) (IF : F → Prop) (IU : U → Prop)
    (s : VirtualPageManager F U) : Prop where
  free : FreeCounted TF IF s
  used : UsedOk TU IU s.reservedANDUsedPages s.usedPagesCount s.reservedPagesCount

theorem RunOk.counted (h : RunOk TF TU IF IU s) : Counted TF TU s := by
  obtain ⟨n, hn, hc⟩ := h.free
  exact ⟨⟨n, hn.sums, hc⟩, h.used.used, h.used.reserved⟩

theorem RunOk.moves (h : RunOk TF TU IF IU s) (hm : FreeMoves TF IF s s') :
    RunOk TF TU IF IU s' := by
  refine ⟨hm.free h.free, ?_⟩
  rw [hm.used, hm.usedCount, hm.reservedCount]
  exact h.used

section Calls

variable (hTF : Ideal TF IF) (hTU : Ideal TU IU)

include hTF hTU

section

variable (hs : RunOk TF TU IF IU s)

include hs

theorem lockRange_ok {unfree check} (hc : count < reservedBit)
    (h : s.lockRange TF TU addr count unfree check = some s') : RunOk TF TU IF IU s' := by
  unfold lockRange at h
  split at h
  · cases h
    exact hs
  split at h
  · cases h
    exact hs
  next hf =>
  have hadd : RunOk TF TU IF IU (s.addUsed TU addr count) :=
    ⟨hs.free, hs.used.insertUsed hTU hf hc⟩
  dsimp only at h
  split at h
  · obtain ⟨⟨t, ok⟩, ht, rfl⟩ := map_eq_some_iff.mp h
    exact hadd.moves (unfreePages_moves hTF hadd.free ht)
  · cases h
    exact hadd

theorem allocatePages_ok {r} (h : s.allocatePages TF TU count = some (s', r)) :
    RunOk TF TU IF IU s' := by
  obtain ⟨n, hn, -⟩ := hs.free
  unfold allocatePages at h
  split at h
  · cases h
    exact hs
  split at h
  · cases h
    exact hs
  · cases h
    exact hs
  · next key mem rest hh =>
    obtain ⟨hle, hfind, -⟩ := hTF.lawful.higher_some hn.intact hh
    have hkey := hn.sizes key _ hfind
    obtain ⟨t, hlock, he⟩ := map_eq_some_iff.mp h
    cases he
    have hsplit : RunOk TF TU IF IU (if count < key then
        s.withFree (splitFreeBlock TF s.freePagesSizeTree mem key count) else s) := by
      split
      · exact hs.moves (.withFree fun _ hn => hn.split hTF)
      · exact hs
    exact lockRange_ok hTF hTU hsplit (by unfold reservedBit; omega) hlock

theorem allocatePagesAt_ok {r} (hc : count < reservedBit)
    (h : s.allocatePagesAt TF TU addr count = some (s', r)) : RunOk TF TU IF IU s' := by
  unfold allocatePagesAt at h
  split at h
  · cases h
    exact hs
  obtain ⟨⟨t, ok⟩, ht, h⟩ := bind_eq_some_iff.mp h
  have hunfree := hs.moves (unfreePages_moves hTF hs.free ht)
  dsimp only at h
  split at h
  · obtain ⟨u, hu, he⟩ := bind_eq_some_iff.mp h
    cases he
    exact lockRange_ok hTF hTU hunfree hc hu
  · cases h
    exact hunfree

theorem reservePages_ok (h : s.reservePages TF TU addr count = some s') : RunOk TF TU IF IU s' := by
  unfold reservePages at h
  split at h
  · cases h
    exact hs
  next a length hc =>
  have hlength := VirtualRegion.ensureIsInside_size_lt (u64_lt _) hc
  dsimp only at h
  split at h
  · cases h
    exact hs
  split at h
  · cases h
    exact hs
  next hf =>
  have hcount : length / pageSize < reservedBit := by
    unfold pageSize reservedBit
    omega
  have hadd : RunOk TF TU IF IU (s.addReserved TU a (length / pageSize)) :=
    ⟨hs.free, hs.used.insertReserved hTU hf hcount⟩
  obtain ⟨⟨t, ok⟩, ht, rfl⟩ := map_eq_some_iff.mp h
  exact hadd.moves (unfreePages_moves hTF hadd.free ht)

theorem unreservePages_ok : RunOk TF TU IF IU (s.unreservePages TF TU addr count) := by
  unfold unreservePages
  split
  · exact hs
  next a length hc =>
  have hlength := VirtualRegion.ensureIsInside_size_lt (u64_lt _) hc
  split
  · exact hs
  dsimp only
  split
  · exact hs
  next hf =>
  have hcount : length / pageSize < reservedBit := by
    unfold pageSize reservedBit
    omega
  have hdrop : RunOk TF TU IF IU (s.dropReserved TU a (length / pageSize)) :=
    ⟨hs.free, hs.used.deleteReserved hTU (by simpa using hf) hcount⟩
  exact hdrop.moves (freePages_moves hTF)

end

omit hTU in
theorem attemptToExpandRight_ok {newSize : ℕ} (hs : RunOk TF TU IF IU s) :
    RunOk TF TU IF IU (s.attemptToExpandRight TF newSize).1 := by
  unfold attemptToExpandRight
  split
  · exact hs
  · have hregion : RunOk TF TU IF IU { s with region := s.region.expandRight newSize } :=
      ⟨hs.free, hs.used⟩
    exact hregion.moves (freePages_moves hTF)

omit hTF hTU in
theorem unlockPages_same (h : ¬ NamesUsed TU s addr count) :
    s.unlockPages TF TU addr count = s := by
  unfold unlockPages
  split
  · rfl
  next a length hc =>
  have hlength := VirtualRegion.ensureIsInside_size_lt (u64_lt _) hc
  have hmod : length / pageSize % 2 ^ 63 = length / pageSize :=
    Nat.mod_eq_of_lt (by unfold pageSize; omega)
  dsimp only
  split
  · rfl
  · next h0 =>
    rw [hmod, if_pos]
    exact fun hf => h ⟨a, length, hc, Nat.pos_of_ne_zero h0, hf⟩

theorem unlockPages_miscounts (hs : RunOk TF TU IF IU s) (h : NamesUsed TU s addr count) :
    ¬ Counted TF TU (s.unlockPages TF TU addr count) := by
  obtain ⟨a, length, hc, hpos, hf⟩ := h
  have hlength := VirtualRegion.ensureIsInside_size_lt (u64_lt _) hc
  have hlt : length / pageSize < reservedBit := by
    unfold pageSize reservedBit
    omega
  have hm : FreeMoves TF IF (s.dropUsed TU a (length / pageSize))
      ((s.dropUsed TU a (length / pageSize)).freePages TF a (length / pageSize)) :=
    freePages_moves hTF
  rw [unlockPages_used hc hpos hf]
  intro hcounted
  have hshow := hcounted.used
  rw [hm.used, hm.usedCount] at hshow
  exact hs.used.not_shows_deleted hTU hf hpos hlt hshow

theorem perform_ok {op} (hs : RunOk TF TU IF IU s) (hc : Clear TU s op)
    (h : perform TF TU s op = some s') : RunOk TF TU IF IU s' := by
  cases op with
  | allocatePages count =>
    obtain ⟨⟨t, r⟩, ht, rfl⟩ := map_eq_some_iff.mp h
    exact allocatePages_ok hTF hTU hs ht
  | allocatePagesAt addr count =>
    obtain ⟨⟨t, r⟩, ht, rfl⟩ := map_eq_some_iff.mp h
    exact allocatePagesAt_ok hTF hTU hs hc ht
  | unallocatePages addr count =>
    cases h
    rw [unallocatePages, unlockPages_same hc]
    exact hs
  | reservePages addr count => exact reservePages_ok hTF hTU hs h
  | unreservePages addr count =>
    cases h
    exact unreservePages_ok hTF hTU hs
  | attemptToExpandRight newSize =>
    cases h
    exact attemptToExpandRight_ok hTF hs

theorem initVPageMgr_ok (region : VirtualRegion) :
    RunOk TF TU IF IU (initVPageMgr TF TU region) := by
  have hstart : RunOk TF TU IF IU
      { region, freePagesSizeTree := TF.empty, reservedANDUsedPages := TU.empty
        freePagesCount := 0, reservedPagesCount := 0, usedPagesCount := 0 } := by
    refine ⟨⟨0, ⟨hTF.lawful.empty_intact, ?_, sums_empty hTF.lawful.find_empty⟩, rfl⟩,
      hTU.lawful.empty_intact, ⟨0, sums_empty hTU.lawful.find_empty, rfl⟩,
      ⟨0, sums_empty hTU.lawful.find_empty, rfl⟩⟩
    intro k l hl
    rw [hTF.lawful.find_empty] at hl
    cases hl
  exact hstart.moves (freePages_moves hTF)

end Calls

/-- Runs over any region whose calls all meet the condition. -/
inductive ClearRun (TF : Ops F (List ℕ)) (TU : Ops U ℕ) : VirtualPageManager F U → Prop where
  | init (region : VirtualRegion) : ClearRun TF TU (initVPageMgr TF TU region)
  | step {s s' : VirtualPageManager F U} {op : Op} (hr : ClearRun TF TU s) (hc : Clear TU s op)
      (h : perform TF TU s op = some s') : ClearRun TF TU s'

theorem clearRun_ok (hTF : Ideal TF IF) (hTU : Ideal TU IU) (hr : ClearRun TF TU s) :
    RunOk TF TU IF IU s := by
  induction hr with
  | init region => exact initVPageMgr_ok hTF hTU region
  | step _ hc h ih => exact perform_ok hTF hTU ih hc h

/-- The counters are right in every run that releases no used block, and such a release in
such a run makes them wrong. -/
theorem counters_match_blocks (hTF : Ideal TF IF) (hTU : Ideal TU IU) (hr : ClearRun TF TU s) :
    Counted TF TU s ∧ ∀ op s', perform TF TU s op = some s' →
        (∀ addr count, op = .allocatePagesAt addr count → count < reservedBit) →
        (Counted TF TU s' ↔ Clear TU s op) := by
  have hs := clearRun_ok hTF hTU hr
  refine ⟨hs.counted, fun op s' h hcount => ⟨fun hcounted => ?_, fun hc => ?_⟩⟩
  · cases op with
    | unallocatePages addr count =>
      cases h
      exact fun hn => unlockPages_miscounts hTF hTU hs hn hcounted
    | allocatePagesAt addr count => exact hcount addr count rfl
    | _ => trivial
  · exact (perform_ok hTF hTU hs hc h).counted

theorem counters_match_blocks_reserved :
    ∃ s, perform (sortedOps _) (sortedOps _) (sortedManager 4096 16384) (.reservePages 8192 1) =
        some s ∧ (s.freePagesCount, s.usedPagesCount, s.reservedPagesCount) = (3, 0, 1) ∧
      Counted (sortedOps _) (sortedOps _) s := by
  have hcounts : (perform (sortedOps _) (sortedOps _) (sortedManager 4096 16384)
      (.reservePages 8192 1)).map
        (fun s => (s.freePagesCount, s.usedPagesCount, s.reservedPagesCount)) =
      some (3, 0, 1) := by decide +kernel
  obtain ⟨s, hs, hc⟩ := map_eq_some_iff.mp hcounts
  have hclear : Clear (sortedOps ℕ) (sortedManager 4096 16384) (.reservePages 8192 1) := trivial
  have hr : ClearRun (sortedOps _) (sortedOps _) s := .step (.init _) hclear hs
  exact ⟨s, hs, hc, (counters_match_blocks (sortedOps_ideal _) (sortedOps_ideal _) hr).1⟩

/-- A page is allocated and released: the four pages are free again, in two blocks, and the
counters show three free pages and one used. -/
theorem released_page_stays_counted :
    ∃ s, ((perform (sortedOps _) (sortedOps _) (sortedManager 4096 16384) (.allocatePages 1)).bind
        fun s => perform (sortedOps _) (sortedOps _) s (.unallocatePages 4096 1)) = some s ∧
      s.freePagesSizeTree.1 = [(1, [4096]), (3, [8192])] ∧ s.reservedANDUsedPages.1 = [] ∧
      (s.freePagesCount, s.usedPagesCount) = (3, 1) ∧ ¬ Counted (sortedOps _) (sortedOps _) s := by
  have hview : ((perform (sortedOps _) (sortedOps _) (sortedManager 4096 16384)
      (.allocatePages 1)).bind
        fun s => perform (sortedOps _) (sortedOps _) s (.unallocatePages 4096 1)).map
          (fun s => (s.freePagesSizeTree.1, s.reservedANDUsedPages.1, s.freePagesCount,
            s.usedPagesCount)) = some ([(1, [4096]), (3, [8192])], [], 3, 1) := by decide +kernel
  obtain ⟨s, hs, hv⟩ := map_eq_some_iff.mp hview
  simp only [Prod.mk.injEq] at hv
  obtain ⟨hfree, hused, hfc, huc⟩ := hv
  refine ⟨s, hs, hfree, hused, by rw [hfc, huc], fun hcounted => ?_⟩
  have hempty : s.reservedANDUsedPages = (sortedOps ℕ).empty := Subtype.ext hused
  have hzero : Shows (sortedOps ℕ) usedWeight s.reservedANDUsedPages 0 :=
    ⟨0, hempty ▸ sums_empty (sortedOps_lawful ℕ).find_empty, rfl⟩
  have := hcounted.used.unique hzero
  omega

end PageCounters
