import FrostyOS.BlockPool
import FrostyOS.VirtualPageManager

/-! # The size tree as a set of free blocks

Entries of size zero may be left behind by a range that is not aligned to the pages of a
block; they stand for nothing. -/
namespace VirtualPageManager

open MachineWord OrderedMap BlockPool VirtualRegion Option

section SizeTree

variable {F : Type} (TF : Ops F (List ℕ))

def freeBlocks (m : F) : Set Block :=
  {b | 0 < b.2 ∧ ∃ l, TF.find m b.2 = some l ∧ b.1 ∈ l}

/-- Every list is in use, and no address is listed twice under one size. -/
structure ListsOk (m : F) : Prop where
  nonempty : ∀ n l, TF.find m n = some l → l ≠ []
  nodup : ∀ n l, 0 < n → TF.find m n = some l → l.Nodup

variable {TF} {Intact : F → Prop} (L : Lawful TF Intact) {m : F}
  {n a o lo hi : ℕ} {l : List ℕ} {used : Set Block}

theorem listed_iff (h : TF.find m n = some l) (hn : 0 < n) : (a, n) ∈ freeBlocks TF m ↔ a ∈ l := by
  simp [freeBlocks, h, hn]

include L

theorem addBlock_intact : Intact (addBlock TF m n a) ↔ Intact m := by
  unfold addBlock
  dsimp only
  rw [L.setValue_intact]
  split
  · exact L.insert_intact n []
  · exact Iff.rfl

theorem find_addBlock (hI : Intact m) (i : ℕ) :
    TF.find (addBlock TF m n a) i =
      if i = n then some ((TF.find m n).getD [] ++ [a]) else TF.find m i := by
  unfold addBlock
  dsimp only
  cases hf : TF.find m n with
  | none =>
    have hI' : Intact (TF.insert m n []) := (L.insert_intact n []).mpr hI
    have hins := L.find_insert n [] hI hf
    simp only [isNone_none, if_true]
    rw [L.find_setValue n _ hI' (by simp [hins]), hins n]
    by_cases hi : i = n
    · simp [hi]
    · simp [hi, hins]
  | some l =>
    simp only [isNone_some, Bool.false_eq_true, if_false]
    rw [L.find_setValue n _ hI (by simp [hf]), hf]

theorem addBlock_ok (hI : Intact m) (hok : ListsOk TF m) (ha : (a, n) ∉ freeBlocks TF m) :
    ListsOk TF (addBlock TF m n a) := by
  constructor
  · intro i l hl
    rw [find_addBlock L hI] at hl
    split at hl
    · cases hl
      simp
    · exact hok.nonempty i l hl
  · intro i l hi hl
    rw [find_addBlock L hI] at hl
    split at hl
    · next he =>
      subst he
      cases hl
      cases hf : TF.find m i with
      | none => simp
      | some l' =>
        have hnot : a ∉ l' := fun hm => ha ((listed_iff hf hi).mpr hm)
        refine List.nodup_append.mpr ⟨hok.nodup i l' hi hf, by simp, ?_⟩
        rintro x hx y hy rfl
        rw [List.mem_singleton.mp hy] at hx
        exact hnot hx
    · exact hok.nodup i l hi hl

theorem freeBlocks_addBlock (hI : Intact m) (hn : 0 < n) :
    freeBlocks TF (addBlock TF m n a) = insert (a, n) (freeBlocks TF m) := by
  ext ⟨x, k⟩
  simp only [freeBlocks, Set.mem_ofPred_eq, Set.mem_insert_iff, Prod.mk.injEq, find_addBlock L hI]
  by_cases hk : k = n
  · subst hk
    cases hf : TF.find m k with
    | none => simp [hn]
    | some l => simp [hn, or_comm]
  · simp [hk]

theorem freeBlocks_addBlock_zero (hI : Intact m) :
    freeBlocks TF (addBlock TF m 0 a) = freeBlocks TF m := by
  ext ⟨x, k⟩
  simp only [freeBlocks, Set.mem_ofPred_eq, find_addBlock L hI]
  by_cases hk : k = 0
  · simp [hk]
  · simp [hk]

section

variable (hI : Intact (dropBlock TF m n a l))

include hI

theorem intact_of_dropBlock : Intact m := by
  unfold dropBlock at hI
  split at hI
  · exact L.intact_of_delete hI
  · exact (L.setValue_intact n _).mp hI

theorem find_dropBlock (hl : TF.find m n = some l) (i : ℕ) : TF.find (dropBlock TF m n a l) i =
      if i = n then (if l.erase a = [] then none else some (l.erase a)) else TF.find m i := by
  unfold dropBlock at hI ⊢
  split
  · next he =>
    rw [if_pos he] at hI
    exact L.find_delete hI i
  · next he =>
    rw [if_neg he] at hI
    exact L.find_setValue n _ ((L.setValue_intact n _).mp hI) (by simp [hl]) i

theorem dropBlock_ok (hok : ListsOk TF m)
    (hl : TF.find m n = some l) : ListsOk TF (dropBlock TF m n a l) := by
  constructor
  · intro i l' hl'
    rw [find_dropBlock L hI hl] at hl'
    split at hl'
    · split at hl'
      · cases hl'
      · next he =>
        cases hl'
        exact he
    · exact hok.nonempty i l' hl'
  · intro i l' hi hl'
    rw [find_dropBlock L hI hl] at hl'
    split at hl'
    · next he =>
      split at hl'
      · cases hl'
      · cases hl'
        exact (hok.nodup n l (he ▸ hi) hl).erase a
    · exact hok.nodup i l' hi hl'

theorem freeBlocks_dropBlock (hok : ListsOk TF m) (hl : TF.find m n = some l) (hn : 0 < n) :
    freeBlocks TF (dropBlock TF m n a l) = freeBlocks TF m \ {(a, n)} := by
  have hnd := hok.nodup n l hn hl
  ext ⟨x, k⟩
  simp only [freeBlocks, Set.mem_ofPred_eq, Set.mem_sdiff, Set.mem_singleton_iff, Prod.mk.injEq,
    find_dropBlock L hI hl]
  by_cases hk : k = n
  · subst hk
    have herase : x ∈ l.erase a ↔ x ≠ a ∧ x ∈ l := hnd.mem_erase_iff
    by_cases he : l.erase a = []
    · rw [he] at herase
      simp only [List.not_mem_nil, false_iff] at herase
      simp only [he, if_true, hl]
      simp only [reduceCtorEq, false_and, exists_false, and_false, some.injEq,
        exists_eq_left', and_true, false_iff]
      tauto
    · simp only [he, if_true, if_false, hl, some.injEq, exists_eq_left', and_true, herase]
      tauto
  · simp [hk]

end

omit L in
theorem splitFreeBlock_listed (hlt : n < o) (hl : TF.find m o = some l) (ha : a ∈ l) :
    splitFreeBlock TF m a o n =
      addBlock TF (addBlock TF (dropBlock TF m o a l) n a) (o - n) (u64 (a + n * pageSize)) := by
  simp [splitFreeBlock, not_le.mpr hlt, hl, ha, List.ne_nil_of_mem ha]

variable (TF) in
omit L in
theorem splitFreeBlock_cases (m : F) (a o n : ℕ) :
    splitFreeBlock TF m a o n = m ∨ ∃ l, n < o ∧ TF.find m o = some l ∧ a ∈ l := by
  by_cases hle : o ≤ n
  · exact .inl (if_pos hle)
  cases hl : TF.find m o with
  | none => exact .inl (by simp [splitFreeBlock, hl])
  | some l =>
    by_cases ha : a ∈ l
    · exact .inr ⟨l, by omega, rfl, ha⟩
    · exact .inl (by simp [splitFreeBlock, hl, ha])

theorem intact_of_splitFreeBlock (hI : Intact (splitFreeBlock TF m a o n)) : Intact m := by
  rcases splitFreeBlock_cases TF m a o n with h | ⟨l, hlt, hl, ha⟩
  · exact h ▸ hI
  · rw [splitFreeBlock_listed hlt hl ha] at hI
    exact intact_of_dropBlock L ((addBlock_intact L).mp ((addBlock_intact L).mp hI))

theorem splitFreeBlock_cut (hI : Intact (splitFreeBlock TF m a o n)) (hok : ListsOk TF m)
    (hp : Pool pageSize lo hi (freeBlocks TF m) used) (hhi : hi < 2 ^ 64)
    (hmem : (a, o) ∈ freeBlocks TF m) (hn : 0 < n) (hlt : n < o) :
    ListsOk TF (splitFreeBlock TF m a o n) ∧
      freeBlocks TF (splitFreeBlock TF m a o n) = split pageSize (freeBlocks TF m) (a, o) n := by
  obtain ⟨ho, l, hl, ha⟩ := hmem
  have hmem : (a, o) ∈ freeBlocks TF m := ⟨ho, l, hl, ha⟩
  have hword : a + n * pageSize < 2 ^ 64 := by
    have hin := (hp.partition.inside (a, o) (.inl hmem)).2
    have : n * pageSize ≤ o * pageSize := Nat.mul_le_mul_right _ (by omega)
    unfold stop at hin
    dsimp only at hin
    omega
  rw [splitFreeBlock_listed hlt hl ha, u64_of_lt hword] at hI ⊢
  have hI₂ := (addBlock_intact L).mp hI
  have hI₁ := (addBlock_intact L).mp hI₂
  have hF₁ := freeBlocks_dropBlock L hI₁ hok hl ho
  have hF₂ := freeBlocks_addBlock L (a := a) hI₁ hn
  have hhalf := fun c hc => hp.partition.half_notMem (c := c) (by decide) (.inl hmem) hn hlt hc
  have hnot₁ : (a, n) ∉ freeBlocks TF (dropBlock TF m o a l) := by
    rw [hF₁]
    exact fun h => hhalf _ (.inl rfl) (.inl h.1)
  have hnot₂ : (a + n * pageSize, o - n) ∉
      freeBlocks TF (addBlock TF (dropBlock TF m o a l) n a) := by
    rw [hF₂, hF₁]
    rintro (h | h)
    · have hfst : a + n * pageSize = a := congrArg Prod.fst h
      have := Nat.mul_pos hn (show 0 < pageSize by decide)
      omega
    · exact hhalf _ (.inr rfl) (.inl h.1)
  have hok₂ := addBlock_ok L hI₁ (dropBlock_ok L hI₁ hok hl) hnot₁
  refine ⟨addBlock_ok L hI₂ hok₂ hnot₂, ?_⟩
  rw [freeBlocks_addBlock L hI₂ (by omega), hF₂, hF₁]
  rfl

/-- Cutting off nothing moves the block to the end of its list, and adds an entry of size
zero. -/
theorem splitFreeBlock_zero (hI : Intact (splitFreeBlock TF m a o 0)) (hok : ListsOk TF m)
    (hl : TF.find m o = some l) (ha : a ∈ l) (ho : 0 < o) (hword : a < 2 ^ 64) :
    ListsOk TF (splitFreeBlock TF m a o 0) ∧
      freeBlocks TF (splitFreeBlock TF m a o 0) = freeBlocks TF m := by
  have hmem : (a, o) ∈ freeBlocks TF m := (listed_iff hl ho).mpr ha
  rw [splitFreeBlock_listed ho hl ha] at hI ⊢
  simp only [Nat.zero_mul, Nat.add_zero, Nat.sub_zero, u64_of_lt hword] at hI ⊢
  have hI₂ := (addBlock_intact L).mp hI
  have hI₁ := (addBlock_intact L).mp hI₂
  have hF₁ := freeBlocks_dropBlock L hI₁ hok hl ho
  have hF₂ := freeBlocks_addBlock_zero L (a := a) hI₁
  have hok₂ : ListsOk TF (addBlock TF (dropBlock TF m o a l) 0 a) :=
    addBlock_ok L hI₁ (dropBlock_ok L hI₁ hok hl) (by simp [freeBlocks])
  have hnot : (a, o) ∉ freeBlocks TF (addBlock TF (dropBlock TF m o a l) 0 a) := by
    rw [hF₂, hF₁]
    simp
  refine ⟨addBlock_ok L hI₂ hok₂ hnot, ?_⟩
  rw [freeBlocks_addBlock L hI₂ ho, hF₂, hF₁, Set.insert_sdiff_self_of_mem hmem]

theorem splitFreeBlock_refines (hI : Intact (splitFreeBlock TF m a o n)) (hok : ListsOk TF m)
    (hp : Pool pageSize lo hi (freeBlocks TF m) used) (hhi : hi < 2 ^ 64) :
    ListsOk TF (splitFreeBlock TF m a o n) ∧
      Refines pageSize (freeBlocks TF m) (freeBlocks TF (splitFreeBlock TF m a o n)) := by
  rcases splitFreeBlock_cases TF m a o n with h | ⟨l, hlt, hl, ha⟩
  · rw [h]
    exact ⟨hok, .refl⟩
  have ho : 0 < o := by omega
  have hmem : (a, o) ∈ freeBlocks TF m := (listed_iff hl ho).mpr ha
  by_cases hn : n = 0
  · subst hn
    have hin := (hp.partition.inside (a, o) (.inl hmem)).2
    unfold stop at hin
    dsimp only at hin
    obtain ⟨hok', h⟩ := splitFreeBlock_zero L hI hok hl ha ho (by omega)
    exact ⟨hok', h ▸ .refl⟩
  · obtain ⟨hok', h⟩ := splitFreeBlock_cut L hI hok hp hhi hmem (by omega) hlt
    exact ⟨hok', h ▸ .split .refl hmem (by omega) hlt⟩

omit L in
/-- What a hit of the search says about the size tree. -/
def HitOk (TF : Ops F (List ℕ)) (m : F) (addr length count : ℕ) : Hit → Prop
  | .address key list => count ≤ key ∧ TF.find m key = some list ∧ addr ∈ list
  | .within key data => count ≤ key ∧ ∃ list, TF.find m key = some list ∧ data ∈ list ∧
      addr ∉ list ∧ (ofSize data (key * pageSize)).isInside addr length = true

variable {addr length count : ℕ}

theorem findBlock_spec {turns : ℕ} {hit} (hI : Intact m)
    (hkeys : ∀ k l, TF.find m k = some l → k < 2 ^ 52)
    (h : findBlock TF m addr length turns count = some hit) : HitOk TF m addr length count hit := by
  induction turns generalizing count with
  | zero => cases h
  | succ turns ih =>
    unfold findBlock at h
    cases hh : TF.findOrHigher m count with
    | none => simp [hh] at h
    | some e =>
      obtain ⟨key, list⟩ := e
      obtain ⟨hle, hfind, -⟩ := L.higher_some hI hh
      simp only [hh] at h
      by_cases ha : addr ∈ list
      · rw [if_pos ha] at h
        cases h
        exact ⟨hle, hfind, ha⟩
      rw [if_neg ha] at h
      split at h
      · next data hd =>
        cases h
        have hin := List.find?_some hd
        exact ⟨hle, list, hfind, List.mem_of_find?_eq_some hd, ha, hin⟩
      have hkey := hkeys key list hfind
      have hnext : count ≤ u64 (key + 1) := by
        rw [u64_of_lt (by omega)]
        omega
      have hres := ih h
      cases hit with
      | address => exact ⟨hnext.trans hres.1, hres.2⟩
      | within => exact ⟨hnext.trans hres.1, hres.2⟩

variable {data key : ℕ}

theorem carve_refines {m'} (h : carve TF m addr length count key data = some m') (hI : Intact m')
    (hok : ListsOk TF m) (hp : Pool pageSize lo hi (freeBlocks TF m) used) (hhi : hi < 2 ^ 64) :
    ListsOk TF m' ∧ Refines pageSize (freeBlocks TF m) (freeBlocks TF m') := by
  unfold carve at h
  dsimp only at h
  split at h
  · split at h
    · obtain ⟨⟨newKey, _⟩, -, rfl⟩ := map_eq_some_iff.mp h
      have hI₁ := intact_of_splitFreeBlock L hI
      obtain ⟨hok₁, hr₁⟩ := splitFreeBlock_refines L hI₁ hok hp hhi
      obtain ⟨hok₂, hr₂⟩ := splitFreeBlock_refines L hI hok₁ (hr₁.pool (by decide) hp) hhi
      exact ⟨hok₂, hr₁.trans hr₂⟩
    · cases h
      exact splitFreeBlock_refines L hI hok hp hhi
  · split at h
    · cases h
      exact splitFreeBlock_refines L hI hok hp hhi
    · cases h
      exact ⟨hok, .refl⟩

section Total

variable (D : ∀ m k, Intact m → Intact (TF.delete m k))

include D

theorem dropBlock_intact (hI : Intact m) : Intact (dropBlock TF m n a l) := by
  unfold dropBlock
  split
  · exact D m n hI
  · exact (L.setValue_intact n _).mpr hI

theorem splitFreeBlock_intact (hI : Intact m) : Intact (splitFreeBlock TF m a o n) := by
  rcases splitFreeBlock_cases TF m a o n with h | ⟨l, hlt, hl, ha⟩
  · rw [h]
    exact hI
  · rw [splitFreeBlock_listed hlt hl ha, addBlock_intact L, addBlock_intact L]
    exact dropBlock_intact L D hI

theorem carve_intact {m'} (hI : Intact m) (h : carve TF m addr length count key data = some m') :
    Intact m' := by
  unfold carve at h
  dsimp only at h
  split at h
  · split at h
    · obtain ⟨_, -, rfl⟩ := map_eq_some_iff.mp h
      exact splitFreeBlock_intact L D (splitFreeBlock_intact L D hI)
    · cases h
      exact splitFreeBlock_intact L D hI
  · split at h
    · cases h
      exact splitFreeBlock_intact L D hI
    · cases h
      exact hI

omit L D in
theorem ofSize_block (h : data + key * pageSize < 2 ^ 64) :
    ofSize data (key * pageSize) =
      ⟨data, data + key * pageSize, key * pageSize, by omega, by omega, (u64_of_lt h).symm⟩ := by
  have h₁ : u64 data = data := u64_of_lt (by omega)
  have h₂ : u64 (key * pageSize) = key * pageSize := u64_of_lt (by omega)
  simp only [ofSize, h₁, h₂, u64_of_lt h]

omit L D in
/-- The pages from `addr` to the end of a block, or of the whole block when `addr` lies
behind it. -/
theorem setStart_pages (h : data + key * pageSize < 2 ^ 64)
    (hlt : data < addr) (hword : addr < 2 ^ 64) :
    ((ofSize data (key * pageSize)).setStart addr).size / pageSize ≤ key ∧
      ((addr - data) / pageSize < key →
        ((ofSize data (key * pageSize)).setStart addr).size / pageSize ≤
          key - (addr - data) / pageSize) := by
  rw [ofSize_block h]
  unfold setStart ofBounds subWord u64
  unfold pageSize at *
  dsimp only
  split
  · dsimp only
    omega
  · dsimp only
    omega

theorem piece_remains (hI : Intact m) (hok : ListsOk TF m)
    (hp : Pool pageSize lo hi (freeBlocks TF m) used) (hhi : hi < 2 ^ 64)
    (hb : (data, key) ∈ freeBlocks TF m) (hlt : data < addr) (hword : addr < 2 ^ 64) :
    ∃ b ∈ freeBlocks TF (splitFreeBlock TF m data key ((addr - data) / pageSize)),
      ((ofSize data (key * pageSize)).setStart addr).size / pageSize ≤ b.2 := by
  have hin := (hp.partition.inside (data, key) (.inl hb)).2
  unfold stop at hin
  dsimp only at hin
  have hend : data + key * pageSize < 2 ^ 64 := by omega
  obtain ⟨hkey, hrest⟩ := setStart_pages hend hlt hword
  have hI' := splitFreeBlock_intact L D (n := (addr - data) / pageSize) (a := data) (o := key) hI
  by_cases hq : (addr - data) / pageSize < key
  · by_cases h0 : (addr - data) / pageSize = 0
    · obtain ⟨hkpos, l, hl, ha⟩ := hb
      rw [h0] at hI' ⊢
      have hsame := (splitFreeBlock_zero L hI' hok hl ha hkpos (by omega)).2
      refine ⟨(data, key), ?_, hkey⟩
      rw [hsame]
      exact ⟨hkpos, l, hl, ha⟩
    · have hcut := (splitFreeBlock_cut L hI' hok hp hhi hb (Nat.pos_of_ne_zero h0) hq).2
      refine ⟨(data + (addr - data) / pageSize * pageSize, key - (addr - data) / pageSize), ?_,
        hrest hq⟩
      rw [hcut]
      exact mem_split.mpr (.inr (.inr rfl))
  · have hsame : splitFreeBlock TF m data key ((addr - data) / pageSize) = m :=
      if_pos (not_lt.mp hq)
    rw [hsame]
    exact ⟨(data, key), hb, hkey⟩

theorem carve_ne_none (length count : ℕ) (hI : Intact m) (hok : ListsOk TF m)
    (hp : Pool pageSize lo hi (freeBlocks TF m) used) (hhi : hi < 2 ^ 64)
    (hb : (data, key) ∈ freeBlocks TF m) (hword : addr < 2 ^ 64) :
    carve TF m addr length count key data ≠ none := by
  have hin := (hp.partition.inside (data, key) (.inl hb)).2
  unfold stop at hin
  dsimp only at hin
  have hstart : (ofSize data (key * pageSize)).start = data := by
    rw [ofSize_block (by omega)]
  unfold carve
  simp only [hstart]
  by_cases hlt : data < addr
  · rw [if_pos hlt, subWord_of_le hword hlt.le]
    by_cases hsize : length < ((ofSize data (key * pageSize)).setStart addr).size
    · rw [if_pos hsize]
      intro hnone
      have hh := map_eq_none_iff.mp hnone
      obtain ⟨b, ⟨-, l, hl, -⟩, hle⟩ := piece_remains L D hI hok hp hhi hb hlt hword
      have := L.higher_none (splitFreeBlock_intact L D hI) hh b.2 hle
      rw [hl] at this
      cases this
    · rw [if_neg hsize]
      simp
  · rw [if_neg hlt]
    split <;> simp

end Total

end SizeTree

section Unfree

variable {F U : Type} {TF : Ops F (List ℕ)} {Intact : F → Prop} (L : Lawful TF Intact)
  {s s' : VirtualPageManager F U} {addr count lo hi : ℕ} {ok : Bool} {used : Set Block}

/-- What `UnfreePages` does to the free blocks: it cuts some of them and, when it succeeds,
takes the one of `count` pages at `addr` out. -/
structure Unfrees (TF : Ops F (List ℕ)) (s s' : VirtualPageManager F U) (addr count : ℕ)
    (ok : Bool) : Prop where
  region : s'.region = s.region
  used : s'.reservedANDUsedPages = s.reservedANDUsedPages
  lists : ListsOk TF s'.freePagesSizeTree
  blocks : ∃ T, Refines pageSize (freeBlocks TF s.freePagesSizeTree) T ∧
    (ok = false ∧ freeBlocks TF s'.freePagesSizeTree = T ∨
      ok = true ∧ (addr, count) ∈ T ∧ freeBlocks TF s'.freePagesSizeTree = T \ {(addr, count)})

theorem Unfrees.after_cut {m} (h : Unfrees TF (s.withFree m) s' addr count ok)
    (hr : Refines pageSize (freeBlocks TF s.freePagesSizeTree) (freeBlocks TF m)) :
    Unfrees TF s s' addr count ok := by
  obtain ⟨T, hT, hcase⟩ := h.blocks
  exact ⟨h.region, h.used, h.lists, T, hr.trans hT, hcase⟩

include L

omit L in
theorem removeExact_listed {l} (hl : TF.find s.freePagesSizeTree count = some l) (ha : addr ∈ l) :
    s.removeExact TF addr count =
      ((s.withFree (dropBlock TF s.freePagesSizeTree count addr l)).uncount count, true) := by
  simp [removeExact, hl, ha, List.ne_nil_of_mem ha]

variable (TF) in
omit L in
theorem removeExact_cases (s : VirtualPageManager F U) (addr count : ℕ) :
    s.removeExact TF addr count = (s, false) ∨
    ∃ l, TF.find s.freePagesSizeTree count = some l ∧ addr ∈ l ∧ s.removeExact TF addr count =
      ((s.withFree (dropBlock TF s.freePagesSizeTree count addr l)).uncount count, true) := by
  cases hl : TF.find _ _ with
  | none => exact .inl (by simp [removeExact, hl])
  | some l =>
    by_cases ha : addr ∈ l
    · exact .inr ⟨l, rfl, ha, removeExact_listed hl ha⟩
    · exact .inl (by simp [removeExact, hl, ha])

variable (TF) in
omit L in
theorem unfreePages_exact_cases (s : VirtualPageManager F U) (addr count : ℕ) :
    s.unfreePages TF addr count true = some (s, false) ∨
    ∃ a n, s.unfreePages TF addr count true = some (s.removeExact TF a n) := by
  unfold unfreePages
  split
  · exact .inl rfl
  · next a length _ =>
    by_cases h0 : length / pageSize = 0
    · exact .inl (by simp [h0])
    · exact .inr ⟨a, length / pageSize, by simp [h0]⟩

theorem intact_of_removeExact (hI : Intact (s.removeExact TF addr count).1.freePagesSizeTree) :
    Intact s.freePagesSizeTree := by
  rcases removeExact_cases TF s addr count with h | ⟨l, -, -, h⟩
  · rw [h] at hI; exact hI
  · rw [h] at hI; exact intact_of_dropBlock L hI

theorem removeExact_spec (hI : Intact (s.removeExact TF addr count).1.freePagesSizeTree)
    (hok : ListsOk TF s.freePagesSizeTree) (hc : 0 < count) :
    Unfrees TF s (s.removeExact TF addr count).1 addr count (s.removeExact TF addr count).2 := by
  rcases removeExact_cases TF s addr count with h | ⟨l, hl, ha, h⟩
  · rw [h]
    exact ⟨rfl, rfl, hok, _, .refl, .inl ⟨rfl, rfl⟩⟩
  · rw [h] at hI ⊢
    exact ⟨rfl, rfl, dropBlock_ok L hI hok hl, _, .refl, .inr
      ⟨rfl, (listed_iff hl hc).mpr ha, freeBlocks_dropBlock L hI hok hl hc⟩⟩

omit L in
theorem key_lt (hok : ListsOk TF s.freePagesSizeTree)
    (hp : Pool pageSize lo hi (freeBlocks TF s.freePagesSizeTree) used) (hhi : hi < 2 ^ 64)
    (k : ℕ) (l : List ℕ) (hl : TF.find s.freePagesSizeTree k = some l) : k < 2 ^ 52 := by
  by_cases hk : k = 0
  · omega
  obtain ⟨a, ha⟩ := List.exists_mem_of_ne_nil l (hok.nonempty k l hl)
  have hin := (hp.partition.inside (a, k) (.inl ((listed_iff hl (by omega)).mpr ha))).2
  unfold stop pageSize at hin
  dsimp only at hin
  omega

theorem unfreePages_spec {exact} (h : s.unfreePages TF addr count exact = some (s', ok))
    (hI : Intact s'.freePagesSizeTree) (hI₀ : Intact s.freePagesSizeTree)
    (hin : s.region.isInside addr (u64 (count * pageSize))) (hok : ListsOk TF s.freePagesSizeTree)
    (hp : Pool pageSize lo hi (freeBlocks TF s.freePagesSizeTree) used) (hhi : hi < 2 ^ 64) :
    Unfrees TF s s' addr (u64 (count * pageSize) / pageSize) ok := by
  have same : ∀ n, Unfrees TF s s addr n false :=
    fun n => ⟨rfl, rfl, hok, _, .refl, .inl ⟨rfl, rfl⟩⟩
  unfold unfreePages at h
  rw [ensureIsInside_of_isInside hin] at h
  dsimp only at h
  generalize hlen : u64 (count * pageSize) = length at h ⊢
  by_cases h0 : length / pageSize = 0
  · rw [if_pos h0] at h
    cases h
    exact same _
  rw [if_neg h0] at h
  have hc : 0 < length / pageSize := Nat.pos_of_ne_zero h0
  cases exact with
  | true =>
    obtain ⟨rfl, rfl⟩ := Prod.mk.inj (some.inj h)
    exact removeExact_spec L hI hok hc
  | false =>
    rw [if_neg (by simp)] at h
    cases hb : findBlock TF s.freePagesSizeTree addr length (2 ^ 64) (length / pageSize) with
    | none =>
      simp only [hb] at h
      cases h
      exact same _
    | some hit =>
      have hhit := findBlock_spec L hI₀ (key_lt hok hp hhi) hb
      cases hit with
      | address key list =>
        obtain ⟨hle, hfind, ha⟩ := hhit
        simp only [hb] at h
        by_cases hlt : length / pageSize < key
        · rw [if_pos hlt] at h
          obtain ⟨rfl, rfl⟩ := Prod.mk.inj (some.inj h)
          have hI₁ := intact_of_removeExact L hI
          obtain ⟨hok₁, hr₁⟩ := splitFreeBlock_refines L hI₁ hok hp hhi
          exact (removeExact_spec L hI hok₁ hc).after_cut hr₁
        · rw [if_neg hlt] at h
          cases h
          have hkey : key = length / pageSize := by omega
          subst hkey
          exact ⟨rfl, rfl, dropBlock_ok L hI hok hfind, _, .refl, .inr ⟨rfl,
            (listed_iff hfind hc).mpr ha, freeBlocks_dropBlock L hI hok hfind hc⟩⟩
      | within key data =>
        simp only [hb] at h
        obtain ⟨m, hcarve, he⟩ := map_eq_some_iff.mp h
        obtain ⟨rfl, rfl⟩ := Prod.mk.inj he
        have hI₁ := intact_of_removeExact L hI
        obtain ⟨hok₁, hr₁⟩ := carve_refines L hcarve hI₁ hok hp hhi
        exact (removeExact_spec L hI hok₁ hc).after_cut hr₁

section Total

variable (D : ∀ m k, Intact m → Intact (TF.delete m k))

include D

theorem removeExact_intact (addr count : ℕ) (hI : Intact s.freePagesSizeTree) :
    Intact (s.removeExact TF addr count).1.freePagesSizeTree := by
  rcases removeExact_cases TF s addr count with h | ⟨l, -, -, h⟩
  · rw [h]; exact hI
  · rw [h]; exact dropBlock_intact L D hI

theorem unfreePages_returns (exact : Bool) (hI : Intact s.freePagesSizeTree)
    (hok : ListsOk TF s.freePagesSizeTree)
    (hp : Pool pageSize lo hi (freeBlocks TF s.freePagesSizeTree) used) (hhi : hi < 2 ^ 64)
    (hin : s.region.isInside addr (u64 (count * pageSize))) (hword : addr < 2 ^ 64) :
    ∃ s' ok, s.unfreePages TF addr count exact = some (s', ok) ∧ Intact s'.freePagesSizeTree := by
  unfold unfreePages
  rw [ensureIsInside_of_isInside hin]
  dsimp only
  by_cases h0 : u64 (count * pageSize) / pageSize = 0
  · exact ⟨s, false, if_pos h0, hI⟩
  rw [if_neg h0]
  cases exact with
  | true => exact ⟨_, _, rfl, removeExact_intact L D _ _ hI⟩
  | false =>
    rw [if_neg (by simp)]
    split
    · exact ⟨s, false, rfl, hI⟩
    · split
      · exact ⟨_, _, rfl, removeExact_intact L D _ _ (splitFreeBlock_intact L D hI)⟩
      · exact ⟨_, _, rfl, dropBlock_intact L D hI⟩
    · next key data hb =>
      obtain ⟨hle, l, hl, hd, -, -⟩ := findBlock_spec L hI (key_lt hok hp hhi) hb
      have hmem : (data, key) ∈ freeBlocks TF s.freePagesSizeTree :=
        (listed_iff hl (Nat.lt_of_lt_of_le (Nat.pos_of_ne_zero h0) hle)).mpr hd
      obtain ⟨m, hm⟩ := ne_none_iff_exists'.mp
        (carve_ne_none L D (u64 (count * pageSize)) (u64 (count * pageSize) / pageSize)
          hI hok hp hhi hmem hword)
      rw [hm]
      exact ⟨_, _, rfl, removeExact_intact L D _ _ (carve_intact L D hI hm)⟩

end Total

end Unfree

end VirtualPageManager
