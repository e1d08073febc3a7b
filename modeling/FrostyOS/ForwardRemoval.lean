import Mathlib.Data.List.Nodup

/-! # Removing from a list while stepping through it

A loop over the indices of a list that takes out the entry it stands on and goes on with
the next index passes over the entry that has moved up. -/
namespace ForwardRemoval

open List

variable {α σ : Type*}

/-- The loop from index `i` on; every turn goes one index further. -/
def loop [DecidableEq α] (p : σ → α → Bool) (drop : σ → α → σ) : ℕ → ℕ → List α → σ → List α × σ
  | 0, _, l, s => (l, s)
  | fuel + 1, i, l, s =>
    match l[i]? with
    | none => (l, s)
    | some x =>
      if p s x then loop p drop fuel (i + 1) (l.erase x) (drop s x)
      else loop p drop fuel (i + 1) l s

def left (q : α → Bool) : List α → List α
  | [] => []
  | [x] => if q x then [] else [x]
  | x :: y :: ys => if q x then y :: left q ys else x :: left q (y :: ys)

def taken (q : α → Bool) : List α → List α
  | [] => []
  | [x] => if q x then [x] else []
  | x :: y :: ys => if q x then x :: taken q ys else taken q (y :: ys)

/-- No two neighbours both satisfy `q`. -/
def Apart (q : α → Bool) (l : List α) : Prop := l.IsChain fun a b => ¬ (q a = true ∧ q b = true)

variable {p : σ → α → Bool} {drop : σ → α → σ} {q : α → Bool} {l : List α}

theorem left_cons_of_not {x} (hx : q x = false) : left q (x :: l) = x :: left q l := by
  cases l <;> simp [left, hx]

theorem taken_cons_of_not {x} (hx : q x = false) : taken q (x :: l) = taken q l := by
  cases l <;> simp [taken, hx]

theorem loop_past_end [DecidableEq α] {i : ℕ} (hi : l.length ≤ i) (fuel : ℕ) (s : σ) :
    loop p drop fuel i l s = (l, s) := by
  cases fuel with
  | zero => rfl
  | succ fuel => rw [loop, getElem?_eq_none hi]

theorem erase_middle [DecidableEq α] {front rest : List α} {x} (hnd : (front ++ x :: rest).Nodup) :
    (front ++ x :: rest).erase x = front ++ rest := by
  have hx : x ∉ front := fun hmem =>
    disjoint_of_nodup_append hnd hmem mem_cons_self
  rw [erase_append_right _ hx, erase_cons_head]

/-- The loop leaves what `left` says, as long as removing one entry does not change whether
another one is to be removed. -/
theorem loop_eq [DecidableEq α] (hframe : ∀ s x y, y ≠ x → p (drop s x) y = p s y)
    (fuel : ℕ) (front rest : List α) (s : σ) (hfuel : rest.length ≤ fuel)
    (hnd : (front ++ rest).Nodup) (hq : ∀ y ∈ rest, p s y = q y) :
    loop p drop fuel front.length (front ++ rest) s =
      (front ++ left q rest, (taken q rest).foldl drop s) := by
  induction fuel generalizing front rest s with
  | zero =>
    obtain rfl := length_eq_zero_iff.mp (Nat.le_zero.mp hfuel)
    rfl
  | succ fuel ih =>
    cases rest with
    | nil =>
      rw [append_nil, loop_past_end (Nat.le_refl _)]
      simp [left, taken]
    | cons x rest =>
      -- the entry behind `x` is `x`'s successor in the next turn, or it is passed over
      have hfuel : rest.length ≤ fuel := Nat.le_of_succ_le_succ hfuel
      have hget : (front ++ x :: rest)[front.length]? = some x := by simp
      have hlen : ∀ y : α, (front ++ [y]).length = front.length + 1 := by simp
      rw [loop, hget]
      dsimp only
      rw [hq x mem_cons_self]
      cases hx : q x with
      | false =>
        have hstep := ih (front ++ [x]) rest s hfuel (by simpa using hnd)
          fun y hy => hq y (mem_cons_of_mem _ hy)
        rw [hlen, append_assoc, singleton_append] at hstep
        rw [if_neg Bool.false_ne_true, hstep, left_cons_of_not hx, taken_cons_of_not hx]
        simp
      | true =>
        rw [if_pos rfl, erase_middle hnd]
        cases rest with
        | nil =>
          rw [append_nil, loop_past_end (Nat.le_succ _)]
          simp [left, taken, hx]
        | cons y rest =>
          have hnd' : (front ++ y :: rest).Nodup :=
            hnd.sublist (List.Sublist.append_left (sublist_cons_self x (y :: rest)) front)
          have hne : ∀ z ∈ rest, z ≠ x := by
            rintro z hz rfl
            have := (nodup_append.mp hnd).2.1
            simp [hz] at this
          have hstep := ih (front ++ [y]) rest (drop s x)
            (Nat.le_trans (Nat.le_succ _) hfuel) (by simpa using hnd') fun z hz =>
              (hframe s x z (hne z hz)).trans (hq z (by simp [hz]))
          rw [hlen, append_assoc, singleton_append] at hstep
          rw [hstep]
          simp [left, taken, hx]

/-- Objects in a table that is part of the state: the loop over all of `l` takes those out
that it removes and leaves alone what no removal changes. -/
theorem loop_table [DecidableEq α] {β γ : Type*} {table : σ → α → Option β} (keep : σ → γ)
    (test : β → Bool) (hdrop : ∀ s x y, table (drop s x) y = if y = x then none else table s y)
    (hkeep : ∀ s x, keep (drop s x) = keep s) (hnd : l.Nodup) (s : σ) :
    ∃ t, loop (fun s x => (table s x).any test) drop l.length 0 l s =
        (left (fun x => (table s x).any test) l, t) ∧
      (∀ y, table t y = if y ∈ taken (fun x => (table s x).any test) l then none else table s y) ∧
      keep t = keep s := by
  have hfold : ∀ (gone : List α) s, (∀ y, table (gone.foldl drop s) y =
      if y ∈ gone then none else table s y) ∧ keep (gone.foldl drop s) = keep s := by
    intro gone
    induction gone with
    | nil => exact fun s => ⟨fun _ => rfl, rfl⟩
    | cons x gone ih =>
      intro s
      refine ⟨fun y => ?_, (ih (drop s x)).2.trans (hkeep s x)⟩
      rw [foldl_cons, (ih _).1, hdrop]
      by_cases hg : y ∈ gone <;> by_cases hx : y = x <;> simp [hg, hx]
  have hframe : ∀ s x y, y ≠ x → (table (drop s x) y).any test = (table s y).any test :=
    fun s x y hne => by simp [hdrop, hne]
  exact ⟨_, loop_eq hframe l.length [] l s (Nat.le_refl _) hnd fun _ _ => rfl, hfold _ s⟩

theorem mem_taken {x} (hx : x ∈ taken q l) : q x := by
  induction l using taken.induct q with
  | case1 => cases hx
  | case2 y hy =>
    rw [taken, if_pos hy, mem_singleton] at hx
    rwa [hx]
  | case3 y hy =>
    rw [taken, if_neg hy] at hx
    cases hx
  | case4 y z zs hy ih =>
    rw [taken, if_pos hy, mem_cons] at hx
    rcases hx with rfl | hx
    · exact hy
    · exact ih hx
  | case5 y z zs hy ih =>
    rw [taken, if_neg hy] at hx
    exact ih hx

theorem left_sublist : (left q l).Sublist l := by
  induction l using left.induct q with
  | case1 => exact List.Sublist.refl _
  | case2 y hy => simp [left, hy]
  | case3 y hy => simp [left, hy]
  | case4 y z zs hy ih =>
    rw [left, if_pos hy]
    exact (ih.cons_cons z).cons y
  | case5 y z zs hy ih =>
    rw [left, if_neg hy]
    exact ih.cons_cons y

theorem mem_left_of_not {x} (hmem : x ∈ l) (hx : q x = false) : x ∈ left q l := by
  induction l using left.induct q with
  | case1 => cases hmem
  | case2 y hy =>
    rw [mem_singleton.mp hmem, hy] at hx
    cases hx
  | case3 y hy => rwa [left, if_neg hy]
  | case4 y z zs hy ih =>
    rw [left, if_pos hy]
    rcases mem_cons.mp hmem with rfl | hmem
    · rw [hy] at hx
      cases hx
    · exact (mem_cons.mp hmem).elim (fun h => by simp [h]) fun h => by simp [ih h]
  | case5 y z zs hy ih =>
    rw [left, if_neg hy]
    exact (mem_cons.mp hmem).elim (fun h => by simp [h]) fun h => by simp [ih h]

/-- Everything that is to be removed is removed exactly when no two such entries are
neighbours. -/
theorem left_clean_iff : (∀ x ∈ left q l, q x = false) ↔ Apart q l := by
  induction l using left.induct q with
  | case1 => simp [left, Apart]
  | case2 y hy => simp [left, Apart, hy]
  | case3 y hy => simp [left, Apart, hy]
  | case4 y z zs hy ih =>
    rw [left, if_pos hy, Apart, isChain_cons_cons]
    cases hz : q z with
    | true => simp [hy, hz]
    | false =>
      have htail : Apart q (z :: zs) ↔ Apart q zs := by
        cases zs <;> simp [Apart, hz]
      rw [Apart] at htail
      rw [htail, ← ih]
      simp [hz]
  | case5 y z zs hy ih =>
    rw [left, if_neg hy, Apart, isChain_cons_cons]
    rw [Apart] at ih
    rw [← ih]
    simp [hy]

end ForwardRemoval
