import FrostyOS.AVLTree

/-! # Insertion into the search tree

The rotation compares the key with the child on the heavy side, also when it went to the
other side, and one of the two double rotations is a single one. -/
namespace AVLTree.Tree

open OrderedMap

variable {V : Type}

def checkedRightRotate (root : Tree V) : Option (Tree V) :=
  match root.left with
  | leaf => none
  | node .. => some (rightRotate root)

def checkedLeftRotate (root : Tree V) : Option (Tree V) :=
  match root.right with
  | leaf => none
  | node .. => some (leftRotate root)

/-- The four cases of `insert` with the pointers they follow. The balance is tested first,
so that a child is read on the heavy side only. -/
def checkedRebalanceInsert (key : ℕ) (root : Tree V) : Option (Tree V) :=
  if 1 < getBalance root then
    match key? root.left with
    | none => none
    | some k =>
      if key < k then checkedRightRotate root
      else if k < key then
        (checkedLeftRotate root.left).bind fun l => checkedRightRotate (root.setLeft l)
      else some root
  else if getBalance root < -1 then
    match key? root.right with
    | none => none
    | some k =>
      if k < key then checkedLeftRotate root
      else if key < k then checkedLeftRotate root
      else some root
  else some root

/-- `insert`; no result stands for a null pointer that was followed. -/
def checkedInsert : Tree V → ℕ → V → Option (Tree V)
  | leaf, key, extraData => some (node key extraData 1 leaf leaf)
  | node k v h l r, key, extraData =>
    if key < k then
      (checkedInsert l key extraData).bind fun l => checkedRebalanceInsert key (withHeight k v l r)
    else if k < key then
      (checkedInsert r key extraData).bind fun r => checkedRebalanceInsert key (withHeight k v l r)
    else some (node k v h l r)

def depth : Tree V → ℕ
  | leaf => 0
  | node _ _ _ l r => max (depth l) (depth r) + 1

def Exact : Tree V → Prop
  | leaf => True
  | node _ _ h l r => h = max (depth l) (depth r) + 1 ∧ Exact l ∧ Exact r

def Balanced : Tree V → Prop
  | leaf => True
  | node _ _ _ l r => depth l ≤ depth r + 1 ∧ depth r ≤ depth l + 1 ∧ Balanced l ∧ Balanced r

instance decidableExact : (t : Tree V) → Decidable t.Exact
  | leaf => isTrue trivial
  | node _ _ _ l r =>
    haveI := decidableExact l
    haveI := decidableExact r
    inferInstanceAs (Decidable (_ ∧ _ ∧ _))

instance decidableBalanced : (t : Tree V) → Decidable t.Balanced
  | leaf => isTrue trivial
  | node _ _ _ l r =>
    haveI := decidableBalanced l
    haveI := decidableBalanced r
    inferInstanceAs (Decidable (_ ∧ _ ∧ _ ∧ _))

instance decidableOrdered (t : Tree V) : Decidable t.Ordered :=
  inferInstanceAs (Decidable (List.Pairwise _ _))

variable {t l r : Tree V} {k key h : ℕ} {v w : V}

theorem Exact.height_eq (ht : Exact t) : height t = depth t := by
  cases t with
  | leaf => rfl
  | node k v h l r => exact ht.1

theorem exact_withHeight : Exact (withHeight k v l r) ↔ Exact l ∧ Exact r := by
  constructor
  · intro he
    exact he.2
  · intro he
    refine ⟨?_, he⟩
    rw [he.1.height_eq, he.2.height_eq]

theorem Exact.leftRotate (ht : Exact t) : Exact (leftRotate t) := by
  unfold Tree.leftRotate
  split
  case h_1 =>
    obtain ⟨-, hl, -, hm, hr⟩ := ht
    exact exact_withHeight.mpr ⟨exact_withHeight.mpr ⟨hl, hm⟩, hr⟩
  case h_2 => exact ht

theorem Exact.rightRotate (ht : Exact t) : Exact (rightRotate t) := by
  unfold Tree.rightRotate
  split
  case h_1 =>
    obtain ⟨-, ⟨-, hl, hm⟩, hr⟩ := ht
    exact exact_withHeight.mpr ⟨hl, exact_withHeight.mpr ⟨hm, hr⟩⟩
  case h_2 => exact ht

/-- A left rotation below the root leaves the root a height that the rotation above it
replaces, so exactness of the two subtrees is enough for both together. -/
theorem exact_leftRight (hl : Exact l) (hr : Exact r) :
    Exact (rightRotate ((withHeight k v l r).setLeft (Tree.leftRotate l))) := by
  have hrot := hl.leftRotate
  simp only [withHeight, setLeft]
  cases hm : Tree.leftRotate l with
  | leaf =>
    cases l with
    | leaf => exact exact_withHeight.mpr ⟨trivial, hr⟩
    | node lk lv lh ll lr => cases lr <;> simp [Tree.leftRotate, withHeight] at hm
  | node mk mv mh ml mr =>
    rw [hm] at hrot
    obtain ⟨-, hml, hmr⟩ := hrot
    exact exact_withHeight.mpr ⟨hml, exact_withHeight.mpr ⟨hmr, hr⟩⟩

theorem exact_rebalanceInsert (hl : Exact l) (hr : Exact r) (key : ℕ) :
    Exact (rebalanceInsert key (withHeight k v l r)) := by
  have hroot : Exact (withHeight k v l r) := exact_withHeight.mpr ⟨hl, hr⟩
  unfold rebalanceInsert
  split
  · exact hroot.rightRotate
  split
  · exact hroot.leftRotate
  split
  · exact exact_leftRight hl hr
  · split
    · exact hroot.leftRotate
    · exact hroot

theorem exact_insert (ht : Exact t) (key : ℕ) (w : V) : Exact (insert t key w) := by
  induction t with
  | leaf => exact ⟨rfl, trivial, trivial⟩
  | node k v h l r ihl ihr =>
    obtain ⟨-, hl, hr⟩ := id ht
    rw [insert]
    split
    · exact exact_rebalanceInsert (ihl hl) hr key
    · split
      · exact exact_rebalanceInsert hl (ihr hr) key
      · exact ht

/-- At no node where the key goes right is the left child without a right child of its own
and still two levels higher once the key is in: the key is greater than that child's, and
the rotation of this case reads the missing one. -/
def insertsSafely (key : ℕ) (w : V) : Tree V → Bool
  | leaf => true
  | node k _ _ l r =>
    if key < k then insertsSafely key w l
    else if k < key then
      insertsSafely key w r &&
        decide (height l ≤ height (insert r key w) + 1 ∨ (key? l.right).isSome)
    else true

theorem checkedRightRotate_eq (root : Tree V) (h : root.left.depth ≠ 0) :
    checkedRightRotate root = some (rightRotate root) := by
  unfold checkedRightRotate
  cases hl : root.left with
  | leaf => exact absurd (by rw [hl]; rfl) h
  | node => rfl

theorem checkedLeftRotate_eq (root : Tree V) (h : root.right.depth ≠ 0) :
    checkedLeftRotate root = some (leftRotate root) := by
  unfold checkedLeftRotate
  cases hr : root.right with
  | leaf => exact absurd (by rw [hr]; rfl) h
  | node => rfl

theorem getBalance_withHeight (hl : Exact l) (hr : Exact r) :
    getBalance (withHeight k v l r) = (depth l : ℤ) - depth r := by
  rw [withHeight, getBalance, hl.height_eq, hr.height_eq]

theorem key?_of_depth (h : depth t ≠ 0) : ∃ k, key? t = some k := by
  cases t with
  | leaf => exact absurd rfl h
  | node k => exact ⟨k, rfl⟩

theorem key?_mem_keys (h : key? t = some k) : k ∈ keys t := by
  cases t with
  | leaf => cases h
  | node k' v h' l r =>
    cases h
    simp

theorem mem_keys_insert (ht : Ordered t) (key : ℕ) (w : V) : key ∈ keys (insert t key w) := by
  have hfind := Assoc.find_insert ht (k := key) (v := w) key
  rw [← entries_insert ht] at hfind
  by_contra hno
  have hnone : Assoc.find (entries (insert t key w)) key = none := by
    rw [Assoc.find_eq_none]
    rintro e he rfl
    exact hno (List.mem_map_of_mem he)
  rw [hnone] at hfind
  split at hfind
  case isTrue => cases hfind
  case isFalse hold => exact hold ⟨rfl, hfind.symm⟩

theorem depth_right_of_mem (ht : Ordered t) (hk : key? t = some k) (hm : key ∈ keys t)
    (hlt : k < key) : t.right.depth ≠ 0 := by
  cases t with
  | leaf => cases hk
  | node k' v h l r =>
    cases hk
    obtain ⟨-, -, hl, -⟩ := ordered_node.mp ht
    rw [keys_node, List.mem_append, List.mem_cons] at hm
    rcases hm with hm | rfl | hm
    · obtain ⟨e, he, rfl⟩ := List.mem_map.mp hm
      have := hl e he
      omega
    · exact absurd hlt (lt_irrefl _)
    · cases r with
      | leaf => cases hm
      | node => simp [right, depth]

theorem depth_leftRotate_ne_zero (h : depth t ≠ 0) : depth (leftRotate t) ≠ 0 := by
  unfold leftRotate
  split
  · simp [withHeight, depth]
  · exact h

/-- Which pointers the cases follow, and that they do what `rebalanceInsert` says. -/
theorem checkedRebalanceInsert_eq (hl : Exact l) (hr : Exact r) (key : ℕ) :
    checkedRebalanceInsert key (withHeight k v l r) =
      if depth r + 1 < depth l ∧ (∃ lk ∈ key? l, lk < key) ∧ depth l.right = 0 then none
      else some (rebalanceInsert key (withHeight k v l r)) := by
  have hbal := getBalance_withHeight (k := k) (v := v) hl hr
  have hleft : (withHeight k v l r).left = l := rfl
  have hright : (withHeight k v l r).right = r := rfl
  unfold checkedRebalanceInsert rebalanceInsert
  rw [hbal, hleft, hright]
  by_cases hheavy : depth r + 1 < depth l
  · obtain ⟨lk, hlk⟩ := key?_of_depth (t := l) (by omega)
    have hrot : checkedRightRotate (withHeight k v l r) = some (rightRotate (withHeight k v l r)) :=
      checkedRightRotate_eq _ (by rw [hleft]; omega)
    have h₁ : (1 : ℤ) < depth l - depth r := by omega
    have h₂ : ¬ ((depth l : ℤ) - depth r < -1) := by omega
    simp only [hlk, hheavy, h₁, h₂, true_and, false_and, if_false,
      Option.mem_some_iff, exists_eq_left']
    rcases Nat.lt_trichotomy key lk with hk | rfl | hk
    · have hno : ¬ lk < key := by omega
      simp only [if_pos hk, hno, false_and, if_false]
      exact hrot
    · simp
    · have hno : ¬ key < lk := by omega
      simp only [if_neg hno, hk, true_and]
      by_cases hz : depth l.right = 0
      · rw [if_pos hz]
        have hnone : checkedLeftRotate l = none := by
          unfold checkedLeftRotate
          cases hlr : l.right with
          | leaf => rfl
          | node => simp [hlr, depth] at hz
        rw [hnone]
        rfl
      · rw [if_neg hz, checkedLeftRotate_eq l hz, Option.bind_some]
        apply checkedRightRotate_eq
        exact depth_leftRotate_ne_zero (t := l) (by omega)
  · have h₁ : ¬ ((1 : ℤ) < depth l - depth r) := by omega
    simp only [h₁, hheavy, false_and, if_false]
    by_cases hlight : depth l + 1 < depth r
    · obtain ⟨rk, hrk⟩ := key?_of_depth (t := r) (by omega)
      have hrot : checkedLeftRotate (withHeight k v l r) = some (leftRotate (withHeight k v l r)) :=
        checkedLeftRotate_eq _ (by rw [hright]; omega)
      have h₂ : (depth l : ℤ) - depth r < -1 := by omega
      rw [if_pos h₂]
      simp only [h₂, hrk, true_and, Option.mem_some_iff, exists_eq_left', hrot]
      rcases Nat.lt_trichotomy key rk with hk | rfl | hk
      · rw [if_neg (by omega), if_pos hk, if_neg (by omega), if_pos hk]
      · simp
      · rw [if_pos hk, if_pos hk]
    · have h₂ : ¬ ((depth l : ℤ) - depth r < -1) := by omega
      simp only [h₂, false_and, if_false]

/-- What a null-safe insertion is, and when it is one. -/
theorem checkedInsert_eq (hord : Ordered t) (hex : Exact t) (key : ℕ) (w : V) :
    checkedInsert t key w =
      if insertsSafely key w t = true then some (insert t key w) else none := by
  induction t with
  | leaf => rfl
  | node k v h l r ihl ihr =>
    obtain ⟨hl, hr, hlk, hrk⟩ := ordered_node.mp hord
    obtain ⟨-, hel, her⟩ := hex
    rw [checkedInsert, insertsSafely, insert]
    rcases Nat.lt_trichotomy key k with hk | rfl | hk
    · simp only [if_pos hk, ihl hl hel]
      split
      case isFalse => rfl
      case isTrue =>
        rw [Option.bind_some, checkedRebalanceInsert_eq (exact_insert hel key w) her, if_neg ?_]
        -- the key is in the left subtree, and greater than the key at its root
        rintro ⟨-, ⟨lk, hlk, hlt⟩, hz⟩
        exact depth_right_of_mem (ordered_insert hl key w) hlk (mem_keys_insert hl key w) hlt hz
    · simp
    · have hno : ¬ key < k := by omega
      have hins := exact_insert her key w
      rw [if_neg hno, if_pos hk, if_neg hno, if_pos hk, if_neg hno, if_pos hk, ihr hr her,
        hel.height_eq, hins.height_eq]
      by_cases hsafe : insertsSafely key w r = true
      case neg => simp [hsafe]
      case pos =>
        rw [if_pos hsafe, Option.bind_some, checkedRebalanceInsert_eq hel hins, hsafe,
          Bool.true_and]
        simp only [decide_eq_true_eq]
        by_cases hlow : depth l ≤ depth (insert r key w) + 1
        · rw [if_neg (by omega), if_pos (.inl hlow)]
        obtain ⟨lk, hlkey⟩ := key?_of_depth (t := l) (by omega)
        have hlt : lk < key := by
          obtain ⟨e, he, rfl⟩ := List.mem_map.mp (key?_mem_keys hlkey)
          exact Nat.lt_trans (hlk e he) hk
        have hright : (key? l.right).isSome ↔ depth l.right ≠ 0 := by
          cases l.right <;> simp [key?, depth]
        have hdeep : depth (insert r key w) + 1 < depth l := by omega
        have hkey : ∃ lk ∈ key? l, lk < key := ⟨lk, hlkey, hlt⟩
        simp only [hlow, hright, hdeep, hkey, true_and, false_or]
        by_cases hz : depth l.right = 0 <;> simp [hz]

def leftChain : Tree Unit :=
  node 10 () 4 (node 5 () 3 (node 3 () 2 (node 1 () 1 leaf leaf) leaf) leaf) leaf

/-- The key is not in the tree, and every node on its way has subtrees of one height. Then
the tree grows. -/
def levelPath (key : ℕ) : Tree V → Bool
  | leaf => true
  | node k _ _ l r =>
    decide (height l = height r) &&
      if key < k then levelPath key l else if k < key then levelPath key r else false

/-- Some node on the way of the key is higher on the right, where the subtree grows on its
left side: the case that takes two rotations and gets one. -/
def meetsRightLeft (key : ℕ) : Tree V → Bool
  | leaf => false
  | node k _ _ l r =>
    if key < k then meetsRightLeft key l
    else if k < key then
      meetsRightLeft key r ||
        (decide (height r = height l + 1) && (key? r).any (key < ·) && levelPath key r)
    else false

theorem depth_withHeight : depth (withHeight k v l r) = max (depth l) (depth r) + 1 := rfl

theorem balanced_withHeight : Balanced (withHeight k v l r) ↔
    depth l ≤ depth r + 1 ∧ depth r ≤ depth l + 1 ∧ Balanced l ∧ Balanced r := Iff.rfl

theorem rebalanceInsert_of_steady (hl : Exact l) (hr : Exact r) (h₁ : depth l ≤ depth r + 1)
    (h₂ : depth r ≤ depth l + 1) (key : ℕ) :
    rebalanceInsert key (withHeight k v l r) = withHeight k v l r := by
  have hbal := getBalance_withHeight (k := k) (v := v) hl hr
  have hgt : ¬ 1 < getBalance (withHeight k v l r) := by omega
  have hlt : ¬ getBalance (withHeight k v l r) < -1 := by omega
  simp only [rebalanceInsert, hgt, hlt, false_and, if_false]

theorem insert_of_levelPath (hex : Exact t) (hlev : levelPath key t) (w : V) :
    depth (insert t key w) = depth t + 1 ∧ ∀ {k v h l r}, t = node k v h l r → depth l = depth r ∧
      (key < k ∧ levelPath key l ∧ insert t key w = withHeight k v (insert l key w) r ∨
        k < key ∧ levelPath key r ∧ insert t key w = withHeight k v l (insert r key w)) := by
  induction t with
  | leaf => exact ⟨rfl, fun h => by cases h⟩
  | node k v h l r ihl ihr =>
    obtain ⟨-, hl, hr⟩ := id hex
    rw [levelPath, Bool.and_eq_true, decide_eq_true_eq, hl.height_eq, hr.height_eq] at hlev
    obtain ⟨hlr, hlev⟩ := hlev
    rcases Nat.lt_trichotomy key k with hk | rfl | hk
    · rw [if_pos hk] at hlev
      have hgrow := (ihl hl hlev).1
      have hins : insert (node k v h l r) key w = withHeight k v (insert l key w) r := by
        rw [insert, if_pos hk]
        exact rebalanceInsert_of_steady (exact_insert hl key w) hr (by omega) (by omega) key
      refine ⟨?_, ?_⟩
      · rw [hins, depth_withHeight, depth]
        omega
      · rintro _ _ _ _ _ ⟨⟩
        exact ⟨hlr, .inl ⟨hk, hlev, hins⟩⟩
    · simp at hlev
    · rw [if_neg (by omega), if_pos hk] at hlev
      have hgrow := (ihr hr hlev).1
      have hins : insert (node k v h l r) key w = withHeight k v l (insert r key w) := by
        rw [insert, if_neg (by omega), if_pos hk]
        exact rebalanceInsert_of_steady hl (exact_insert hr key w) (by omega) (by omega) key
      refine ⟨?_, ?_⟩
      · rw [hins, depth_withHeight, depth]
        omega
      · rintro _ _ _ _ _ ⟨⟩
        exact ⟨hlr, .inr ⟨hk, hlev, hins⟩⟩

theorem rebalanceInsert_leftLeft {root : Tree V} (hbal : 1 < getBalance root)
    (hk : key? root.left = some k) (hlt : key < k) :
    rebalanceInsert key root = rightRotate root := if_pos ⟨hbal, k, hk, hlt⟩

theorem rebalanceInsert_leftRight {root : Tree V} (hbal : 1 < getBalance root)
    (hk : key? root.left = some k) (hlt : k < key) :
    rebalanceInsert key root = rightRotate (root.setLeft (leftRotate root.left)) := by
  have hno : ¬ key < k := by omega
  have hneg : ¬ getBalance root < -1 := by omega
  simp [rebalanceInsert, hbal, hneg, hk, hlt, hno]

theorem rebalanceInsert_rightRight {root : Tree V} (hbal : getBalance root < -1)
    (hk : key? root.right = some k) (hlt : k < key) :
    rebalanceInsert key root = leftRotate root := by
  have hpos : ¬ 1 < getBalance root := by omega
  simp [rebalanceInsert, hbal, hpos, hk, hlt]

/-- A left side that outgrew the right one by two: one rotation when the key went to its
left, two when it went to its right. Either way the height is the old one. -/
theorem balanced_leftHeavy (hl : Exact l) (hr : Exact r) (hbl : Balanced (insert l key w))
    (hbr : Balanced r) (hdepth : depth l = depth r + 1) (hlev : levelPath key l) :
    Balanced (rebalanceInsert key (withHeight k v (insert l key w) r)) ∧
      depth (rebalanceInsert key (withHeight k v (insert l key w) r)) = depth l + 1 := by
  obtain ⟨hgrow, hshape⟩ := insert_of_levelPath hl hlev w
  have hbal : 1 < getBalance (withHeight k v (insert l key w) r) := by
    rw [getBalance_withHeight (exact_insert hl key w) hr]
    omega
  cases l with
  | leaf => simp [depth] at hdepth
  | node lk lv lh ll lr =>
    rw [depth] at hdepth
    obtain ⟨heq, ⟨hk, hlev', hins⟩ | ⟨hk, hlev', hins⟩⟩ := hshape rfl
    · have hgrow' := (insert_of_levelPath hl.2.1 hlev' w).1
      rw [hins] at hbal hbl ⊢
      obtain ⟨-, -, hbll, hblr⟩ := hbl
      rw [rebalanceInsert_leftLeft hbal rfl hk]
      change Balanced (withHeight lk lv (insert ll key w) (withHeight k v lr r)) ∧
        depth (withHeight lk lv (insert ll key w) (withHeight k v lr r)) = _
      simp only [balanced_withHeight, depth_withHeight, depth]
      refine ⟨⟨by omega, by omega, hbll, by omega, by omega, hblr, hbr⟩, by omega⟩
    · have hgrow' := (insert_of_levelPath hl.2.2 hlev' w).1
      rw [hins] at hbal hbl ⊢
      obtain ⟨-, -, hbll, hblr⟩ := hbl
      rw [rebalanceInsert_leftRight hbal rfl hk]
      cases hm : insert lr key w with
      | leaf => simp [hm, depth] at hgrow'
      | node mk mv mh ml mr =>
        rw [hm] at hgrow' hblr
        obtain ⟨h₁, h₂, hml, hmr⟩ := hblr
        rw [depth] at hgrow'
        change Balanced (withHeight mk mv (withHeight lk lv ll ml) (withHeight k v mr r)) ∧
          depth (withHeight mk mv (withHeight lk lv ll ml) (withHeight k v mr r)) = _
        simp only [balanced_withHeight, depth_withHeight, depth]
        refine ⟨⟨by omega, by omega, ⟨by omega, by omega, hbll, hml⟩, by omega, by omega, hmr,
          hbr⟩, by omega⟩

theorem balanced_rightHeavy (hl : Exact l) (hr : Exact r) (hbl : Balanced l)
    (hbr : Balanced (insert r key w)) (hdepth : depth r = depth l + 1)
    (hlev : levelPath key r) (hkey : (key? r).any (key < ·) = false) :
    Balanced (rebalanceInsert key (withHeight k v l (insert r key w))) ∧
      depth (rebalanceInsert key (withHeight k v l (insert r key w))) = depth r + 1 := by
  obtain ⟨hgrow, hshape⟩ := insert_of_levelPath hr hlev w
  have hbal : getBalance (withHeight k v l (insert r key w)) < -1 := by
    rw [getBalance_withHeight hl (exact_insert hr key w)]
    omega
  cases r with
  | leaf => simp [depth] at hdepth
  | node rk rv rh rl rr =>
    rw [depth] at hdepth
    obtain ⟨heq, ⟨hk, -, -⟩ | ⟨hk, hlev', hins⟩⟩ := hshape rfl
    · simp [key?, hk] at hkey
    have hgrow' := (insert_of_levelPath hr.2.2 hlev' w).1
    rw [hins] at hbal hbr ⊢
    obtain ⟨-, -, hbrl, hbrr⟩ := hbr
    rw [rebalanceInsert_rightRight hbal rfl hk]
    change Balanced (withHeight rk rv (withHeight k v l rl) (insert rr key w)) ∧
      depth (withHeight rk rv (withHeight k v l rl) (insert rr key w)) = _
    simp only [balanced_withHeight, depth_withHeight, depth]
    refine ⟨⟨by omega, by omega, ⟨by omega, by omega, hbl, hbrl⟩, hbrr⟩, by omega⟩

/-- A side that grows, but not beyond the other by two, makes the tree grow exactly when
the sides were of one height. -/
theorem max_of_growth {a b : ℕ} {p : Prop} [Decidable p] (hle : a ≤ b + 1)
    (hp : ¬ (p ∧ a = b + 1)) :
    a + (if p then 1 else 0) ≤ b + 1 ∧
      max (a + if p then 1 else 0) b = max a b + if a = b ∧ p then 1 else 0 := by
  by_cases h : p
  · have hne : a ≠ b + 1 := fun he => hp ⟨h, he⟩
    simp only [h, if_true, and_true]
    split <;> omega
  · simp only [h, if_false, and_false]
    omega

/-- Without the right-left case a balanced tree stays balanced, and grows exactly along a
level path. -/
theorem balanced_insert (hex : Exact t) (hbal : Balanced t)
    (hrl : meetsRightLeft key t = false) (w : V) :
    Balanced (insert t key w) ∧
      depth (insert t key w) = depth t + if levelPath key t = true then 1 else 0 := by
  induction t with
  | leaf => exact ⟨⟨Nat.zero_le _, Nat.zero_le _, trivial, trivial⟩, rfl⟩
  | node k v h l r ihl ihr =>
    obtain ⟨-, hl, hr⟩ := id hex
    obtain ⟨h₁, h₂, hbl, hbr⟩ := id hbal
    rw [insert, levelPath, hl.height_eq, hr.height_eq]
    rw [meetsRightLeft, hl.height_eq, hr.height_eq] at hrl
    rcases Nat.lt_trichotomy key k with hk | rfl | hk
    · rw [if_pos hk] at hrl ⊢
      rw [if_pos hk]
      obtain ⟨hbl', hdepth⟩ := ihl hl hbl hrl
      have hsteady := rebalanceInsert_of_steady (k := k) (v := v) (exact_insert hl key w) hr
      by_cases hheavy : levelPath key l = true ∧ depth l = depth r + 1
      · have hturn := balanced_leftHeavy (k := k) (v := v) hl hr hbl' hbr hheavy.2 hheavy.1
        refine ⟨hturn.1, hturn.2.trans ?_⟩
        rw [depth, if_neg (by simp; omega)]
        omega
      obtain ⟨hsmall, hmax⟩ := max_of_growth h₁ hheavy
      rw [← hdepth] at hsmall hmax
      rw [hsteady hsmall (by omega) key]
      refine ⟨⟨hsmall, by omega, hbl', hbr⟩, ?_⟩
      simp only [depth_withHeight, depth, hmax, Bool.and_eq_true, decide_eq_true_eq]
      omega
    · simp only [lt_irrefl, if_false, Bool.and_false, Bool.false_eq_true]
      exact ⟨hbal, rfl⟩
    · have hno : ¬ key < k := by omega
      rw [if_neg hno, if_pos hk] at hrl ⊢
      rw [if_neg hno, if_pos hk]
      rw [Bool.or_eq_false_iff] at hrl
      obtain ⟨hbr', hdepth⟩ := ihr hr hbr hrl.1
      have hsteady := rebalanceInsert_of_steady (k := k) (v := v) hl (exact_insert hr key w)
      by_cases hheavy : levelPath key r = true ∧ depth r = depth l + 1
      · have hkey : (key? r).any (key < ·) = false := by
          simpa [hheavy] using hrl.2
        have hturn := balanced_rightHeavy (k := k) (v := v) hl hr hbl hbr' hheavy.2 hheavy.1 hkey
        refine ⟨hturn.1, hturn.2.trans ?_⟩
        rw [depth, if_neg (by simp; omega)]
        omega
      · obtain ⟨hsmall, hmax⟩ := max_of_growth h₂ hheavy
        rw [← hdepth] at hsmall hmax
        rw [hsteady (by omega) hsmall key]
        refine ⟨⟨by omega, hsmall, hbl, hbr'⟩, ?_⟩
        have hlr : depth l = depth r ↔ depth r = depth l := eq_comm
        rw [depth_withHeight, depth, Nat.max_comm, hmax, Nat.max_comm]
        simp only [Bool.and_eq_true, decide_eq_true_eq, hlr]
        omega

def insertions : Tree V → List (ℕ × V) → List (Tree V)
  | t, [] => [t]
  | t, (key, w) :: es => t :: insertions (insert t key w) es

def avoidsRightLeft : Tree V → List (ℕ × V) → Bool
  | _, [] => true
  | t, (key, w) :: es => !meetsRightLeft key t && avoidsRightLeft (insert t key w) es

theorem balanced_run (hex : Exact t) (hbal : Balanced t) {es} (hes : avoidsRightLeft t es) :
    ∀ t' ∈ insertions t es, Balanced t' := by
  induction es generalizing t with
  | nil =>
    intro t' ht'
    rw [insertions, List.mem_singleton] at ht'
    rw [ht']
    exact hbal
  | cons e es ih =>
    obtain ⟨key, w⟩ := e
    rw [avoidsRightLeft, Bool.and_eq_true, Bool.not_eq_true'] at hes
    intro t' ht'
    rcases List.mem_cons.mp ht' with rfl | ht'
    · exact hbal
    · exact ih (exact_insert hex key w) (balanced_insert hex hbal hes.1 w).1 hes.2 t' ht'

/-- Insertions into an empty tree keep it balanced as long as none of them meets the
right-left case. -/
theorem insertions_keep_balance (es : List (ℕ × V)) (hes : avoidsRightLeft leaf es = true) :
    ∀ t ∈ insertions leaf es, Balanced t := balanced_run (t := leaf) trivial trivial hes

theorem insertions_keep_balance_six :
    let es := [(3, ()), (1, ()), (2, ()), (4, ()), (6, ()), (7, ())]
    avoidsRightLeft leaf es = true ∧ ∀ t ∈ insertions leaf es, Balanced t :=
  ⟨by decide, insertions_keep_balance _ (by decide)⟩

/-- One, three, two: the root three has two levels on its left and nothing on its right. -/
theorem insertions_lose_balance :
    ¬ ∀ t ∈ insertions leaf [(1, ()), (3, ()), (2, ())], Balanced t := by
  decide

end AVLTree.Tree
