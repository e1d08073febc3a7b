import Mathlib.Order.BooleanAlgebra.Set
import Mathlib.Tactic.Common

/-! # Pools of equal units

A block `(a, n)` covers `n` units of `u` addresses from `a` on. A pool keeps a range cut
into free and used blocks. -/
namespace BlockPool

abbrev Block := ℕ × ℕ

variable (u : ℕ)

def stop (b : Block) : ℕ := b.1 + b.2 * u

def Covers (b : Block) (x : ℕ) : Prop := b.1 ≤ x ∧ x < stop u b

def Apart (b c : Block) : Prop := stop u b ≤ c.1 ∨ stop u c ≤ b.1

def Covered (S : Set Block) (x : ℕ) : Prop := ∃ b ∈ S, Covers u b x

/-- The blocks of `S` cut the range from `lo` to `hi` into whole units. -/
structure Partition (lo hi : ℕ) (S : Set Block) : Prop where
  pos : ∀ b ∈ S, 0 < b.2
  inside : ∀ b ∈ S, lo ≤ b.1 ∧ stop u b ≤ hi
  aligned : ∀ b ∈ S, u ∣ b.1 - lo
  apart : ∀ b ∈ S, ∀ c ∈ S, b ≠ c → Apart u b c
  cover : ∀ x, lo ≤ x → x < hi → Covered u S x

structure Pool (lo hi : ℕ) (free used : Set Block) : Prop where
  partition : Partition u lo hi (free ∪ used)
  disjoint : ∀ b ∈ free, b ∉ used

def split (S : Set Block) (b : Block) (m : ℕ) : Set Block :=
  insert (b.1 + m * u, b.2 - m) (insert (b.1, m) (S \ {b}))

variable {u} {lo hi m n : ℕ} {b c : Block} {S free used : Set Block}

theorem mem_split : c ∈ split u S b m ↔
    (c ∈ S ∧ c ≠ b) ∨ (c = (b.1, m) ∨ c = (b.1 + m * u, b.2 - m)) := by
  simp only [split, Set.mem_insert_iff, Set.mem_sdiff, Set.mem_singleton_iff]
  tauto

theorem Apart.symm (h : Apart u b c) : Apart u c b := Or.symm h

variable {T : Set Block} {a x : ℕ}

theorem not_covers_of_apart (h : Apart u b c) (hb : Covers u b x) : ¬ Covers u c x := by
  intro hc
  unfold Apart Covers at *
  omega

theorem stop_split (hlt : m ≤ b.2) : b.1 + m * u + (b.2 - m) * u = stop u b := by
  obtain ⟨k, hk⟩ := Nat.exists_eq_add_of_le hlt
  rw [stop, hk, Nat.add_sub_cancel_left, Nat.add_mul]
  omega

theorem within_of_half (hlt : m ≤ b.2) (hc : c = (b.1, m) ∨ c = (b.1 + m * u, b.2 - m)) :
    b.1 ≤ c.1 ∧ stop u c ≤ stop u b := by
  have hs := stop_split (u := u) hlt
  have hm : m * u ≤ b.2 * u := Nat.mul_le_mul_right u hlt
  rcases hc with rfl | rfl
  · exact ⟨le_rfl, Nat.add_le_add_left hm _⟩
  · exact ⟨Nat.le_add_right _ _, hs.le⟩

theorem Apart.of_within (h : Apart u b c) {d} (hd : b.1 ≤ d.1 ∧ stop u d ≤ stop u b) :
    Apart u d c := by
  unfold Apart at *
  omega

theorem covered_split (hb : b ∈ S) (hlt : m ≤ b.2) (x : ℕ) :
    Covered u (split u S b m) x ↔ Covered u S x := by
  have hs := stop_split (u := u) hlt
  constructor
  · rintro ⟨c, hc, hx⟩
    rcases mem_split.mp hc with ⟨hc, -⟩ | hc
    · exact ⟨c, hc, hx⟩
    · obtain ⟨h₁, h₂⟩ := within_of_half hlt hc
      exact ⟨b, hb, h₁.trans hx.1, hx.2.trans_le h₂⟩
  · rintro ⟨c, hc, hx⟩
    by_cases he : c = b
    · subst he
      by_cases hlow : x < c.1 + m * u
      · exact ⟨(c.1, m), mem_split.mpr (.inr (.inl rfl)), hx.1, hlow⟩
      refine ⟨(c.1 + m * u, c.2 - m), mem_split.mpr (.inr (.inr rfl)), by omega, ?_⟩
      unfold stop
      dsimp only
      rw [hs]
      exact hx.2
    · exact ⟨c, mem_split.mpr (.inl ⟨hc, he⟩), hx⟩

theorem Partition.split (h : Partition u lo hi S) (hb : b ∈ S) (hm : 0 < m) (hlt : m < b.2) :
    Partition u lo hi (split u S b m) := by
  have half := fun c (hc : c = (b.1, m) ∨ c = (b.1 + m * u, b.2 - m)) =>
    within_of_half hlt.le hc
  have hbin := h.inside b hb
  refine ⟨?_, ?_, ?_, ?_, ?_⟩
  · intro c hc
    rcases mem_split.mp hc with ⟨hc, -⟩ | rfl | rfl
    · exact h.pos c hc
    · exact hm
    · exact Nat.sub_pos_of_lt hlt
  · intro c hc
    rcases mem_split.mp hc with ⟨hc, -⟩ | hc
    · exact h.inside c hc
    · have := half c hc
      omega
  · intro c hc
    rcases mem_split.mp hc with ⟨hc, -⟩ | rfl | rfl
    · exact h.aligned c hc
    · exact h.aligned b hb
    · have hdvd := Nat.dvd_add (h.aligned b hb) (Nat.dvd_mul_left u m)
      dsimp only
      rwa [show b.1 + m * u - lo = b.1 - lo + m * u by omega]
  · have halves : Apart u (b.1, m) (b.1 + m * u, b.2 - m) := .inl le_rfl
    intro c hc d hd hne
    rcases mem_split.mp hc with ⟨hc, hcb⟩ | hc <;> rcases mem_split.mp hd with ⟨hd, hdb⟩ | hd
    · exact h.apart c hc d hd hne
    · exact ((h.apart b hb c hc (Ne.symm hcb)).of_within (half d hd)).symm
    · exact (h.apart b hb d hd (Ne.symm hdb)).of_within (half c hc)
    · rcases hc with rfl | rfl <;> rcases hd with rfl | rfl
      · exact absurd rfl hne
      · exact halves
      · exact halves.symm
      · exact absurd rfl hne
  · intro x hl hr
    exact (covered_split hb hlt.le x).mpr (h.cover x hl hr)

theorem Partition.half_notMem (h : Partition u lo hi S) (hu : 0 < u) (hb : b ∈ S) (hm : 0 < m)
    (hlt : m < b.2) (hc : c = (b.1, m) ∨ c = (b.1 + m * u, b.2 - m)) : c ∉ S := by
  intro hcS
  have hne : c ≠ b := by
    rintro rfl
    rcases hc with hc | hc
    · have := congrArg Prod.snd hc
      dsimp only at this
      omega
    · have := congrArg Prod.snd hc
      dsimp only at this
      omega
  have hap := h.apart c hcS b hb hne
  have hw := within_of_half (u := u) hlt.le hc
  have hpos := Nat.mul_pos (h.pos c hcS) hu
  unfold Apart at hap
  unfold stop at *
  omega

section

variable (h : Pool u lo hi free used)

include h

theorem Pool.split (hu : 0 < u) (hb : b ∈ free) (hm : 0 < m)
    (hlt : m < b.2) : Pool u lo hi (split u free b m) used := by
  have hb' : b ∈ free ∪ used := .inl hb
  have hunion : BlockPool.split u free b m ∪ used = BlockPool.split u (free ∪ used) b m := by
    ext c
    have hused : c ∈ used → c ≠ b := fun hc he => h.disjoint b hb (he ▸ hc)
    simp only [Set.mem_union, mem_split]
    tauto
  refine ⟨?_, fun c hc hcu => ?_⟩
  · rw [hunion]
    exact h.partition.split hb' hm hlt
  · rcases mem_split.mp hc with ⟨hc, -⟩ | hc
    · exact h.disjoint c hc hcu
    · exact h.partition.half_notMem hu hb' hm hlt hc (.inr hcu)

theorem Pool.take (hb : b ∈ free) : Pool u lo hi (free \ {b}) (insert b used) := by
  have hunion : free \ {b} ∪ insert b used = free ∪ used := by
    ext c
    by_cases hc : c = b <;> simp [hc, hb]
  refine ⟨by rw [hunion]; exact h.partition, fun c hc hcu => ?_⟩
  rcases Set.mem_insert_iff.mp hcu with hcb | hcu
  · exact hc.2 hcb
  · exact h.disjoint c hc.1 hcu

theorem Pool.release (hb : b ∈ used) : Pool u lo hi (insert b free) (used \ {b}) := by
  have hunion : insert b free ∪ used \ {b} = free ∪ used := by
    ext c
    by_cases hc : c = b <;> simp [hc, hb]
  refine ⟨by rw [hunion]; exact h.partition, fun c hc hcu => ?_⟩
  rcases Set.mem_insert_iff.mp hc with hcb | hc
  · exact hcu.2 hcb
  · exact h.disjoint c hc hcu.1

theorem Pool.grow (hlo : lo ≤ hi) (hdvd : u ∣ hi - lo) (hu : 0 < u) (hn : 0 < n) :
    Pool u lo (hi + n * u) (insert (hi, n) free) used := by
  have new : ∀ c ∈ free ∪ used, Apart u c (hi, n) := fun c hc => .inl (h.partition.inside c hc).2
  have hunion : insert (hi, n) free ∪ used = insert (hi, n) (free ∪ used) := Set.insert_union
  refine ⟨?_, fun c hc hcu => ?_⟩
  · rw [hunion]
    refine ⟨?_, ?_, ?_, ?_, ?_⟩
    · rintro c (rfl | hc)
      · exact hn
      · exact h.partition.pos c hc
    · rintro c (rfl | hc)
      · exact ⟨hlo, le_rfl⟩
      · have := h.partition.inside c hc
        omega
    · rintro c (rfl | hc)
      · exact hdvd
      · exact h.partition.aligned c hc
    · rintro c (rfl | hc) d (rfl | hd) hne
      · exact absurd rfl hne
      · exact (new d hd).symm
      · exact new c hc
      · exact h.partition.apart c hc d hd hne
    · intro x hl hr
      by_cases hx : x < hi
      · obtain ⟨c, hc, hcx⟩ := h.partition.cover x hl hx
        exact ⟨c, .inr hc, hcx⟩
      · exact ⟨(hi, n), .inl rfl, not_lt.mp hx, hr⟩
  · rcases hc with rfl | hc
    · have hin := (h.partition.inside _ (.inr hcu)).2
      have := Nat.mul_pos hn hu
      unfold stop at hin
      dsimp only at hin
      omega
    · exact h.disjoint c hc hcu

theorem Pool.start_inj (hu : 0 < u) (hb : b ∈ free ∪ used)
    (hc : c ∈ free ∪ used) (he : b.1 = c.1) : b = c := by
  by_contra hne
  have hap := h.partition.apart b hb c hc hne
  have hpb := Nat.mul_pos (h.partition.pos b hb) hu
  have hpc := Nat.mul_pos (h.partition.pos c hc) hu
  unfold Apart stop at hap
  omega

theorem Pool.not_both (hf : Covered u free x) : ¬ Covered u used x := by
  rintro ⟨c, hc, hcx⟩
  obtain ⟨b, hb, hbx⟩ := hf
  have hne : b ≠ c := fun he => h.disjoint b hb (he ▸ hc)
  exact not_covers_of_apart (h.partition.apart b (.inl hb) c (.inr hc) hne) hbx hcx

end

/-- One set of blocks comes from another by cutting blocks. -/
inductive Refines (u : ℕ) (S : Set Block) : Set Block → Prop where
  | refl : Refines u S S
  | split {T : Set Block} {b : Block} {m : ℕ} (h : Refines u S T) (hb : b ∈ T) (hm : 0 < m)
      (hlt : m < b.2) : Refines u S (split u T b m)

theorem Refines.trans {R} (h : Refines u S T) (h' : Refines u T R) : Refines u S R := by
  induction h' with
  | refl => exact h
  | split _ hb hm hlt ih => exact .split ih hb hm hlt

theorem Refines.pool (h : Refines u free T) (hu : 0 < u) (hp : Pool u lo hi free used) :
    Pool u lo hi T used := by
  induction h with
  | refl => exact hp
  | split _ hb hm hlt ih => exact ih.split hu hb hm hlt

theorem Refines.covered (h : Refines u S T) (x : ℕ) : Covered u T x ↔ Covered u S x := by
  induction h with
  | refl => exact Iff.rfl
  | split _ hb _ hlt ih => exact (covered_split hb hlt.le x).trans ih

def Merged (u : ℕ) (S : Set Block) : Prop := ∀ b ∈ S, ∀ c ∈ S, stop u b ≠ c.1

/-- The `n` units from `a` on are those of blocks that adjoin one another. -/
inductive Row (u : ℕ) (S : Set Block) : ℕ → ℕ → Prop where
  | single {b : Block} (hb : b ∈ S) : Row u S b.1 b.2
  | cons {b : Block} {n : ℕ} (hb : b ∈ S) (h : Row u S (stop u b) n) : Row u S b.1 (b.2 + n)

structure Unused (u lo hi : ℕ) (used : Set Block) (a n : ℕ) : Prop where
  inside : lo ≤ a ∧ a + n * u ≤ hi
  aligned : u ∣ a - lo
  clear : ∀ x, a ≤ x → x < a + n * u → ¬ Covered u used x

theorem Unused.mono (h : Unused u lo hi used a n) (hm : m ≤ n) : Unused u lo hi used a m := by
  have hle : m * u ≤ n * u := Nat.mul_le_mul_right u hm
  have hin := h.inside
  exact ⟨⟨hin.1, by omega⟩, h.aligned, fun x hl hr => h.clear x hl (by omega)⟩

theorem Row.head (h : Row u S a n) : ∃ b ∈ S, b.1 = a := by
  cases h with
  | single hb => exact ⟨_, hb, rfl⟩
  | cons hb _ => exact ⟨_, hb, rfl⟩

theorem Merged.row (hm : Merged u S) (h : Row u S a n) : (a, n) ∈ S := by
  cases h with
  | single hb => exact hb
  | cons hb hrest =>
    obtain ⟨c, hc, he⟩ := hrest.head
    exact absurd he.symm (hm _ hb c hc)

theorem Merged.insert (hm : Merged u S) (hu : 0 < u) (hn : 0 < n)
    (hapart : ∀ b ∈ S, stop u b ≠ a ∧ b.1 ≠ a + n * u) : Merged u (insert (a, n) S) := by
  have hpos := Nat.mul_pos hn hu
  rintro b (rfl | hb) c (rfl | hc)
  · unfold stop
    dsimp only
    omega
  · exact fun he => (hapart c hc).2 he.symm
  · exact (hapart b hb).1
  · exact hm b hb c hc

section Pool

variable (h : Pool u lo hi free used)

include h

theorem Pool.next_free (hb : b ∈ free) (hlt : stop u b < hi)
    (hclear : ¬ Covered u used (stop u b)) : ∃ c ∈ free, c.1 = stop u b ∧ stop u b < stop u c := by
  have hin := h.partition.inside b (.inl hb)
  obtain ⟨c, hc | hc, hx⟩ := h.partition.cover (stop u b) (by unfold stop; omega) hlt
  · refine ⟨c, hc, ?_, hx.2⟩
    have hne : b ≠ c := by
      rintro rfl
      exact lt_irrefl _ hx.2
    have hap := h.partition.apart b (.inl hb) c (.inl hc) hne
    have hle : b.1 ≤ stop u b := Nat.le_add_right _ _
    have hxl := hx.1
    have hxr := hx.2
    unfold Apart at hap
    omega
  · exact absurd ⟨c, hc, hx⟩ hclear

theorem Pool.row_to {t : ℕ} (ht : t ≤ hi) (k : ℕ) : ∀ b ∈ free, t - stop u b ≤ k →
    (∀ x, stop u b ≤ x → x < t → ¬ Covered u used x) → ∃ m, Row u free b.1 m ∧ t ≤ b.1 + m * u := by
  -- by induction on the distance that is left
  induction k with
  | zero =>
    intro b hb hk _
    exact ⟨b.2, .single hb, show t ≤ stop u b by omega⟩
  | succ k ih =>
    intro b hb hk hclear
    by_cases hend : t ≤ stop u b
    · exact ⟨b.2, .single hb, hend⟩
    obtain ⟨c, hc, he, hlt⟩ := h.next_free hb (by omega) (hclear _ le_rfl (by omega))
    obtain ⟨m, hrow, hm⟩ := ih c hc (by omega) fun x hl hr => hclear x (by omega) hr
    rw [he] at hrow hm
    refine ⟨b.2 + m, .cons hb hrow, ?_⟩
    rw [Nat.add_mul, ← Nat.add_assoc]
    exact hm

theorem Pool.row_of_unused {a : ℕ} (hu : 0 < u) (hn : 0 < n) (hr : Unused u lo hi used a n) :
    ∃ a' m, Row u free a' m ∧ n ≤ m := by
  have hpos := Nat.mul_pos hn hu
  obtain ⟨hl, hend⟩ := hr.inside
  obtain ⟨b, hb | hb, hx⟩ := h.partition.cover a hl (by omega)
  · have hxl := hx.1
    have hxr := hx.2
    obtain ⟨m, hrow, hm⟩ := h.row_to hend (a + n * u - stop u b) b hb le_rfl
      fun x hl' hr' => hr.clear x (by omega) hr'
    refine ⟨b.1, m, hrow, ?_⟩
    exact Nat.le_of_mul_le_mul_right (show n * u ≤ m * u by omega) hu
  · exact absurd ⟨b, hb, hx⟩ (hr.clear a le_rfl (by omega))

theorem Pool.unused_block (hb : b ∈ free) : Unused u lo hi used b.1 b.2 :=
  ⟨h.partition.inside b (.inl hb), h.partition.aligned b (.inl hb),
    fun _ hl hr => h.not_both ⟨b, hb, hl, hr⟩⟩

theorem Pool.unused_of_row {a : ℕ} (hr : Row u free a n) : Unused u lo hi used a n := by
  induction hr with
  | single hb => exact h.unused_block hb
  | @cons b n hb _ ih =>
    have hblock := h.unused_block hb
    have hstop : b.1 + (b.2 + n) * u = stop u b + n * u := by
      rw [Nat.add_mul, ← Nat.add_assoc]
      rfl
    have hend := ih.inside.2
    refine ⟨⟨hblock.inside.1, by omega⟩, hblock.aligned, fun x hl hr => ?_⟩
    by_cases hx : x < stop u b
    · exact hblock.clear x hl hx
    · exact ih.clear x (by omega) (by omega)

theorem Pool.merged_take (hu : 0 < u) (hm : Merged u free) (hb : b ∈ free) (hpos : 0 < m)
    (hlt : m < b.2) : Merged u (BlockPool.split u free b m \ {(b.1, m)}) := by
  have hrest : ∀ c ∈ BlockPool.split u free b m \ {(b.1, m)},
      c ∈ free ∧ c ≠ b ∨ c = (b.1 + m * u, b.2 - m) := by
    rintro c ⟨hc, hne⟩
    rcases mem_split.mp hc with hc | hc | hc
    · exact .inl hc
    · exact absurd hc hne
    · exact .inr hc
  have hend : stop u (b.1 + m * u, b.2 - m) = stop u b := stop_split hlt.le
  have hmu := Nat.mul_pos hpos hu
  have hbu : m * u < b.2 * u := Nat.mul_lt_mul_of_pos_right hlt hu
  intro c hc d hd
  rcases hrest c hc with ⟨hcf, hcb⟩ | rfl <;> rcases hrest d hd with ⟨hdf, -⟩ | rfl
  · exact hm c hcf d hdf
  · have hap := h.partition.apart c (.inl hcf) b (.inl hb) hcb
    unfold Apart stop at *
    dsimp only
    omega
  · rw [hend]
    exact hm b hb d hdf
  · rw [hend]
    unfold stop
    dsimp only
    omega

end Pool

end BlockPool
