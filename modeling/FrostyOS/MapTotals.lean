import FrostyOS.OrderedMap
import Mathlib.Algebra.BigOperators.Group.Finset.Basic

/-! # Sums over the entries of a map

`Sums T f m n` says that the values of `f` at the entries of `m` add up to `n`, for a map that
is only known through its lookups. -/
namespace OrderedMap

variable {M V : Type} {T : Ops M V} {f : ℕ → V → ℕ} {m m' : M} {k n n' : ℕ} {x : Option V}

def weight (f : ℕ → V → ℕ) (k : ℕ) (x : Option V) : ℕ := x.elim 0 (f k)

@[simp] theorem weight_none : weight f k none = 0 := rfl

@[simp] theorem weight_some (v : V) : weight f k (some v) = f k v := rfl

def KeysIn (T : Ops M V) (m : M) (S : Finset ℕ) : Prop := ∀ k, k ∉ S → T.find m k = none

def Sums (T : Ops M V) (f : ℕ → V → ℕ) (m : M) (n : ℕ) : Prop :=
  ∃ S : Finset ℕ, KeysIn T m S ∧ ∑ k ∈ S, weight f k (T.find m k) = n

theorem KeysIn.sum_eq {S R} (h : KeysIn T m S) (hsub : S ⊆ R) :
    ∑ k ∈ R, weight f k (T.find m k) = ∑ k ∈ S, weight f k (T.find m k) := by
  symm
  apply Finset.sum_subset hsub
  intro k _ hk
  rw [h k hk, weight_none]

theorem Sums.unique (h : Sums T f m n) (h' : Sums T f m n') : n = n' := by
  obtain ⟨S, hS, rfl⟩ := h
  obtain ⟨R, hR, rfl⟩ := h'
  have hright : R ⊆ S ∪ R := Finset.subset_union_right
  rw [← hS.sum_eq Finset.subset_union_left, ← hR.sum_eq hright]

theorem sums_empty (h : ∀ k, T.find m k = none) : Sums T f m 0 := ⟨∅, fun k _ => h k, rfl⟩

theorem Sums.update (h : Sums T f m n) (hm : ∀ i, T.find m' i = if i = k then x else T.find m i) :
    ∃ n', Sums T f m' n' ∧ n' + weight f k (T.find m k) = n + weight f k x := by
  obtain ⟨S, hS, rfl⟩ := h
  have hkeys : KeysIn T m' (insert k S) := by
    intro i hi
    obtain ⟨hik, hiS⟩ := not_or.mp (mt Finset.mem_insert.mpr hi)
    rw [hm, if_neg hik]
    exact hS i hiS
  refine ⟨_, ⟨insert k S, hkeys, rfl⟩, ?_⟩
  have hold := hS.sum_eq (f := f) (Finset.subset_insert k S)
  have hmem : k ∈ insert k S := Finset.mem_insert_self k S
  rw [← hold, ← Finset.add_sum_erase _ _ hmem, ← Finset.add_sum_erase _ _ hmem]
  have hrest : ∀ i ∈ (insert k S).erase k,
      weight f i (T.find m' i) = weight f i (T.find m i) := by
    intro i hi
    rw [hm, if_neg (Finset.ne_of_mem_erase hi)]
  rw [Finset.sum_congr rfl hrest, hm k, if_pos rfl]
  omega

section Lawful

variable {Intact : M → Prop} (L : Lawful T Intact) {v : V}

include L

theorem Sums.insert (h : Sums T f m n) (hI : Intact m) (hk : T.find m k = none) :
    Sums T f (T.insert m k v) (n + f k v) := by
  obtain ⟨n', hn', he⟩ := h.update (L.find_insert k v hI hk)
  rw [hk, weight_none, weight_some, add_zero] at he
  rwa [← he]

theorem Sums.delete (h : Sums T f m n) (hI : Intact (T.delete m k)) (hk : T.find m k = some v) :
    ∃ n', Sums T f (T.delete m k) n' ∧ n' + f k v = n := by
  obtain ⟨n', hn', he⟩ := h.update (L.find_delete hI)
  rw [hk, weight_none, weight_some, add_zero] at he
  exact ⟨n', hn', he⟩

end Lawful

end OrderedMap
