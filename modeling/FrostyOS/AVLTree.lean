import FrostyOS.OrderedMap

/-! # The search tree of `AVLTree.cpp`

Insertion returns the root of a rotated subtree through its reference parameter; deletion
discards it, so that the node it still refers to is the demoted one. -/
namespace AVLTree

open OrderedMap Assoc List

inductive Tree (V : Type) where
  | leaf
  | node (key : ℕ) (extraData : V) (height : ℕ) (left right : Tree V)
  deriving DecidableEq, Repr

open AVLTree.Tree

variable {V : Type}

namespace Tree

def height : Tree V → ℕ
  | leaf => 0
  | node _ _ h _ _ => h

def left : Tree V → Tree V
  | leaf => leaf
  | node _ _ _ l _ => l

def right : Tree V → Tree V
  | leaf => leaf
  | node _ _ _ _ r => r

def setLeft : Tree V → Tree V → Tree V
  | leaf, _ => leaf
  | node k v h _ r, l => node k v h l r

def setRight : Tree V → Tree V → Tree V
  | leaf, _ => leaf
  | node k v h l _, r => node k v h l r

def withHeight (k : ℕ) (v : V) (l r : Tree V) : Tree V :=
  node k v (max (height l) (height r) + 1) l r

def demoteRight : Tree V → Tree V
  | node k v _ (node _ _ _ _ t) r => withHeight k v t r
  | t => t

def demoteLeft : Tree V → Tree V
  | node k v _ l (node _ _ _ t _) => withHeight k v l t
  | t => t

def rightRotate : Tree V → Tree V
  | node k v _ (node xk xv _ xl t) r => withHeight xk xv xl (withHeight k v t r)
  | t => t

def leftRotate : Tree V → Tree V
  | node k v _ l (node yk yv _ t yr) => withHeight yk yv (withHeight k v l t) yr
  | t => t

def getBalance : Tree V → ℤ
  | leaf => 0
  | node _ _ _ l r => (height l : ℤ) - height r

def key? : Tree V → Option ℕ
  | leaf => none
  | node k _ _ _ _ => some k

/-- The four cases behind an insertion of `key`; the last one rotates only once. -/
def rebalanceInsert (key : ℕ) (root : Tree V) : Tree V :=
  if 1 < getBalance root ∧ ∃ k ∈ key? root.left, key < k then rightRotate root
  else if getBalance root < -1 ∧ ∃ k ∈ key? root.right, k < key then leftRotate root
  else if 1 < getBalance root ∧ ∃ k ∈ key? root.left, k < key then
    rightRotate (root.setLeft (leftRotate root.left))
  else if getBalance root < -1 ∧ ∃ k ∈ key? root.right, key < k then leftRotate root
  else root

def insert : Tree V → ℕ → V → Tree V
  | leaf, key, extraData => node key extraData 1 leaf leaf
  | node k v h l r, key, extraData =>
    if key < k then rebalanceInsert key (withHeight k v (insert l key extraData) r)
    else if k < key then rebalanceInsert key (withHeight k v l (insert r key extraData))
    else node k v h l r

def findNode : Tree V → ℕ → Option V
  | leaf, _ => none
  | node k v _ l r, key =>
    if k = key then some v
    else if k < key then findNode r key
    else findNode l key

def findNodeOrHigher : Tree V → ℕ → Option (ℕ × V)
  | leaf, _ => none
  | node k v h l r, key =>
    match findNode (node k v h l r) key with
    | some w => some (key, w)
    | none =>
      if key ≤ k then (findNodeOrHigher l key).or (some (k, v))
      else findNodeOrHigher r key

def minValueNode : Tree V → Option (ℕ × V)
  | leaf => none
  | node k v _ l _ => (minValueNode l).or (some (k, v))

/-- The end of `deleteNode`: new height, then rotations whose results are dropped. -/
def rebalanceDelete : Tree V → Tree V
  | leaf => leaf
  | node k v _ l r =>
    let root := withHeight k v l r
    let balance := getBalance root
    let root := if 1 < balance ∧ 0 ≤ getBalance root.left then demoteRight root else root
    let root := if 1 < balance ∧ getBalance root.left < 0 then
      demoteRight (root.setLeft (demoteLeft root.left)) else root
    let root := if balance < -1 ∧ getBalance root.right ≤ 0 then demoteLeft root else root
    if balance < -1 ∧ 0 < getBalance root.right then
      demoteLeft (root.setRight (demoteRight root.right)) else root

/-- Remove the node at the root. With two children it takes the key of its successor, which
`deleteRight` takes out of the right subtree, and keeps its own data. -/
def deleteRoot (v : V) (h : ℕ) (l r : Tree V) (deleteRight : ℕ → Tree V) : Tree V :=
  match l, minValueNode r with
  | leaf, _ => rebalanceDelete r
  | _, none => rebalanceDelete l
  | _, some (temp, _) => rebalanceDelete (node temp v h l (deleteRight temp))

def deleteNode : Tree V → ℕ → Tree V
  | leaf, _ => leaf
  | node k v h l r, key =>
    if key < k then rebalanceDelete (node k v h (deleteNode l key) r)
    else if k < key then rebalanceDelete (node k v h l (deleteNode r key))
    else deleteRoot v h l r fun temp => deleteNode r temp

def setExtraData : Tree V → ℕ → V → Tree V
  | leaf, _, _ => leaf
  | node k v h l r, key, w =>
    if k = key then node k w h l r
    else if k < key then node k v h l (setExtraData r key w)
    else node k v h (setExtraData l key w) r

def entries : Tree V → List (ℕ × V)
  | leaf => []
  | node k v _ l r => entries l ++ (k, v) :: entries r

def Ordered (t : Tree V) : Prop := Sorted (entries t)

theorem ordered_leaf : Ordered (leaf : Tree V) := Pairwise.nil

variable {t l r : Tree V} {k key h : ℕ} {v w : V}

theorem ordered_node : Ordered (node k v h l r) ↔ Ordered l ∧ Ordered r ∧
    (∀ e ∈ entries l, e.1 < k) ∧ (∀ e ∈ entries r, k < e.1) := sorted_middle

@[simp] theorem entries_withHeight (k : ℕ) (v : V) (l r : Tree V) :
    entries (withHeight k v l r) = entries l ++ (k, v) :: entries r := rfl

@[simp] theorem entries_rightRotate (t : Tree V) : entries (rightRotate t) = entries t := by
  unfold rightRotate
  split
  · simp [entries]
  · rfl

@[simp] theorem entries_leftRotate (t : Tree V) : entries (leftRotate t) = entries t := by
  unfold leftRotate
  split
  · simp [entries]
  · rfl

theorem entries_setLeft (t : Tree V) {l} (h : entries l = entries t.left) :
    entries (t.setLeft l) = entries t := by
  cases t with
  | leaf => rfl
  | node k v h' l' r' =>
    simp only [setLeft, entries]
    rw [h]
    rfl

@[simp] theorem entries_rebalanceInsert (key : ℕ) (t : Tree V) :
    entries (rebalanceInsert key t) = entries t := by
  unfold rebalanceInsert
  split
  · simp
  split
  · simp
  · split
    · rw [entries_rightRotate, entries_setLeft _ (by simp)]
    · split <;> simp

section

variable (ht : Ordered t)

include ht

theorem entries_insert (key : ℕ) (w : V) :
    entries (insert t key w) = Assoc.insert (entries t) key w := by
  induction t with
  | leaf => rfl
  | node k v h l r ihl ihr =>
    obtain ⟨hl, hr, -, -⟩ := ordered_node.mp ht
    rw [insert, entries, Assoc.insert_middle ht]
    split
    · simp [ihl hl]
    · split
      · simp [ihr hr]
      · rfl

theorem ordered_insert (key : ℕ) (w : V) : Ordered (insert t key w) := by
  unfold Ordered
  rw [entries_insert ht]
  exact Sorted.insert ht

theorem findNode_eq (key : ℕ) : findNode t key = find (entries t) key := by
  induction t with
  | leaf => rfl
  | node k v h l r ihl ihr =>
    obtain ⟨hl, hr, -, -⟩ := ordered_node.mp ht
    rw [findNode, entries, find_middle ht, ihl hl, ihr hr]

theorem findNodeOrHigher_eq (key : ℕ) : findNodeOrHigher t key = findOrHigher (entries t) key := by
  induction t with
  | leaf => rfl
  | node k v h l r ihl ihr =>
    obtain ⟨hl, hr, -, -⟩ := ordered_node.mp ht
    rw [findNodeOrHigher]
    split
    · next w hw =>
      rw [findNode_eq ht] at hw
      exact (findOrHigher_of_find ht hw).symm
    · rw [ihl hl, ihr hr, entries, findOrHigher_middle ht]

theorem entries_setExtraData (key : ℕ) (w : V) :
    entries (setExtraData t key w) = setValue (entries t) key w := by
  induction t with
  | leaf => rfl
  | node k v h l r ihl ihr =>
    obtain ⟨hl, hr, hlk, hrk⟩ := ordered_node.mp ht
    rw [setExtraData, entries, setValue_append, setValue_cons]
    rcases Nat.lt_trichotomy k key with h | h | h
    · have hnone : find (entries l) key = none :=
        find_none_of_gt fun e he => Nat.lt_trans (hlk e he) h
      simp [Nat.ne_of_lt h, h, entries, ihr hr, setValue_of_find_none hnone]
    · subst h
      have hl' : find (entries l) k = none := find_none_of_gt hlk
      have hr' : find (entries r) k = none := find_none_of_lt hrk
      simp [entries, setValue_of_find_none hl', setValue_of_find_none hr']
    · have hnone : find (entries r) key = none :=
        find_none_of_lt fun e he => Nat.lt_trans h (hrk e he)
      simp [Nat.ne_of_gt h, Nat.not_lt.mpr (Nat.le_of_lt h), entries, ihl hl,
        setValue_of_find_none hnone]

theorem ordered_setExtraData (key : ℕ) (w : V) : Ordered (setExtraData t key w) := by
  unfold Ordered
  rw [entries_setExtraData ht]
  exact Sorted.setValue ht key w

end

theorem minValueNode_eq (t : Tree V) : minValueNode t = (entries t).head? := by
  induction t with
  | leaf => rfl
  | node k v h l r ihl _ =>
    rw [minValueNode, entries, head?_append, ihl]
    rfl

def keys (t : Tree V) : List ℕ := (entries t).map Prod.fst

theorem ordered_iff_keys : Ordered t ↔ (keys t).Pairwise (· < ·) := pairwise_map.symm

@[simp] theorem keys_node : keys (node k v h l r) = keys l ++ k :: keys r := by
  simp [keys, entries]

theorem entries_demoteRight (t : Tree V) : (entries (demoteRight t)).Sublist (entries t) := by
  unfold demoteRight
  split
  · simp only [entries_withHeight, entries, append_assoc, cons_append]
    exact (sublist_cons_self _ _).trans (sublist_append_right _ _)
  · exact Sublist.refl _

theorem entries_demoteLeft (t : Tree V) : (entries (demoteLeft t)).Sublist (entries t) := by
  unfold demoteLeft
  split
  · simp only [entries_withHeight, entries]
    refine (Sublist.refl _).append (Sublist.cons_cons _ ?_)
    exact sublist_append_left _ _
  · exact Sublist.refl _

theorem entries_setLeft_sublist (t : Tree V) {l} (h : (entries l).Sublist (entries t.left)) :
    (entries (t.setLeft l)).Sublist (entries t) := by
  cases t with
  | leaf => exact Sublist.refl _
  | node k v h' l' r' => exact Sublist.append h (Sublist.refl _)

theorem entries_setRight_sublist (t : Tree V) {r} (h : (entries r).Sublist (entries t.right)) :
    (entries (t.setRight r)).Sublist (entries t) := by
  cases t with
  | leaf => exact Sublist.refl _
  | node k v h' l' r' => exact (Sublist.refl _).append (Sublist.cons_cons _ h)

theorem entries_rebalanceDelete (t : Tree V) :
    (entries (rebalanceDelete t)).Sublist (entries t) := by
  cases t with
  | leaf => exact Sublist.refl _
  | node k v h l r =>
    have once : ∀ (p : Prop) [Decidable p] (f : Tree V → Tree V) (t : Tree V),
        (∀ t, (entries (f t)).Sublist (entries t)) →
        (entries (if p then f t else t)).Sublist (entries t) := by
      intro p _ f t hf
      split
      · exact hf t
      · exact Sublist.refl _
    unfold rebalanceDelete
    dsimp only
    refine (once _ (fun t => demoteLeft (t.setRight (demoteRight t.right))) _ fun t =>
      (entries_demoteLeft _).trans (entries_setRight_sublist t (entries_demoteRight _))).trans ?_
    refine (once _ demoteLeft _ entries_demoteLeft).trans ?_
    refine (once _ (fun t => demoteRight (t.setLeft (demoteLeft t.left))) _ fun t =>
      (entries_demoteRight _).trans (entries_setLeft_sublist t (entries_demoteLeft _))).trans ?_
    exact once _ demoteRight (withHeight k v l r) entries_demoteRight

theorem keys_rebalanceDelete (t : Tree V) : (keys (rebalanceDelete t)).Sublist (keys t) :=
  (entries_rebalanceDelete t).map _

theorem filter_ne_of_notMem {l : List ℕ} (h : key ∉ l) : l.filter (· ≠ key) = l := by
  rw [filter_eq_self]
  intro x hx
  simpa using fun he : x = key => h (he ▸ hx)

theorem keys_of_minValueNode (h : minValueNode t = some (key, v)) :
    ∃ rest, keys t = key :: rest := by
  rw [minValueNode_eq] at h
  cases he : entries t with
  | nil => simp [he] at h
  | cons e es =>
    rw [he] at h
    cases h
    exact ⟨es.map Prod.fst, by simp [keys, he]⟩

theorem keys_deleteRoot {deleteRight}
    (hright : ∀ temp, (keys (deleteRight temp)).Sublist ((keys r).filter (· ≠ temp))) :
    (keys (deleteRoot v h l r deleteRight)).Sublist (keys l ++ keys r) := by
  unfold deleteRoot
  split
  · exact (keys_rebalanceDelete _).trans (sublist_append_right _ _)
  · exact (keys_rebalanceDelete _).trans (sublist_append_left _ _)
  · next temp _ _ hmin =>
    -- the successor is the first key on the right, so it stays in order at the root
    obtain ⟨rest, hrest⟩ := keys_of_minValueNode hmin
    have hdelete := hright temp
    rw [hrest, filter_cons_of_neg (by simp)] at hdelete
    refine (keys_rebalanceDelete _).trans ?_
    rw [keys_node, hrest]
    exact (Sublist.refl _).append
      (Sublist.cons_cons _ (hdelete.trans filter_sublist))

theorem filter_keys_lt (ht : Ordered (node k v h l r)) (hk : key < k) :
    (keys (node k v h l r)).filter (· ≠ key) = (keys l).filter (· ≠ key) ++ k :: keys r := by
  obtain ⟨-, -, -, hrk⟩ := ordered_node.mp ht
  have hr : key ∉ k :: keys r := by
    intro hm
    rcases mem_cons.mp hm with rfl | hm
    · exact lt_irrefl _ hk
    · obtain ⟨e, he, rfl⟩ := mem_map.mp hm
      exact Nat.lt_asymm hk (hrk e he)
  rw [keys_node, filter_append, filter_ne_of_notMem hr]

theorem filter_keys_gt (ht : Ordered (node k v h l r)) (hk : k < key) :
    (keys (node k v h l r)).filter (· ≠ key) = keys l ++ k :: (keys r).filter (· ≠ key) := by
  obtain ⟨-, -, hlk, -⟩ := ordered_node.mp ht
  have hl : key ∉ keys l := by
    intro hm
    obtain ⟨e, he, rfl⟩ := mem_map.mp hm
    exact Nat.lt_asymm hk (hlk e he)
  have hne : k ≠ key := ne_of_lt hk
  rw [keys_node, filter_append, filter_ne_of_notMem hl, filter_cons_of_pos (by simpa using hne)]

theorem filter_keys_self (ht : Ordered (node k v h l r)) :
    (keys (node k v h l r)).filter (· ≠ k) = keys l ++ keys r := by
  obtain ⟨-, -, hlk, hrk⟩ := ordered_node.mp ht
  have hl : k ∉ keys l := by
    intro hm
    obtain ⟨e, he, hek⟩ := mem_map.mp hm
    exact ne_of_lt (hlk e he) hek
  have hr : k ∉ keys r := by
    intro hm
    obtain ⟨e, he, hek⟩ := mem_map.mp hm
    exact ne_of_gt (hrk e he) hek
  rw [keys_node, filter_append, filter_ne_of_notMem hl, filter_cons_of_neg (by simp),
    filter_ne_of_notMem hr]

theorem keys_deleteNode (ht : Ordered t) (key : ℕ) :
    (keys (deleteNode t key)).Sublist ((keys t).filter (· ≠ key)) := by
  induction t generalizing key with
  | leaf => exact Sublist.refl _
  | node k v h l r ihl ihr =>
    obtain ⟨hl, hr, -, -⟩ := ordered_node.mp ht
    rw [deleteNode]
    rcases Nat.lt_trichotomy key k with hk | rfl | hk
    · rw [if_pos hk, filter_keys_lt ht hk]
      refine (keys_rebalanceDelete _).trans ?_
      rw [keys_node]
      exact (ihl hl key).append (Sublist.refl _)
    · rw [if_neg (lt_irrefl _), if_neg (lt_irrefl _), filter_keys_self ht]
      exact keys_deleteRoot fun temp => ihr hr temp
    · rw [if_neg (by omega), if_pos hk, filter_keys_gt ht hk]
      refine (keys_rebalanceDelete _).trans ?_
      rw [keys_node]
      exact (Sublist.refl _).append (Sublist.cons_cons _ (ihr hr key))

theorem ordered_deleteNode (ht : Ordered t) (key : ℕ) : Ordered (deleteNode t key) :=
  ordered_iff_keys.mpr (((ordered_iff_keys.mp ht).filter _).sublist (keys_deleteNode ht key))

def steady : Tree V → Bool
  | leaf => true
  | node k v _ l r =>
    decide (-1 ≤ getBalance (withHeight k v l r) ∧ getBalance (withHeight k v l r) ≤ 1)

theorem entries_rebalanceDelete_of_steady (h : steady t) :
    entries (rebalanceDelete t) = entries t := by
  cases t with
  | leaf => rfl
  | node k v h' l r =>
    obtain ⟨h₁, h₂⟩ := of_decide_eq_true h
    have hgt : ¬ 1 < getBalance (withHeight k v l r) := by omega
    have hlt : ¬ getBalance (withHeight k v l r) < -1 := by omega
    simp only [rebalanceDelete, hgt, hlt, false_and, if_false]
    rfl

section Clean

variable [DecidableEq V]

/-- A deletion at the root keeps what it should: with two children, the successor happens
to carry the same data. -/
def cleanRoot (v : V) (h : ℕ) (l r : Tree V) (deleteRight : ℕ → Tree V)
    (cleanRight : ℕ → Bool) : Bool :=
  match l, minValueNode r with
  | leaf, _ => steady r
  | _, none => steady l
  | _, some (temp, w) =>
    decide (w = v) && cleanRight temp && steady (node temp v h l (deleteRight temp))

/-- `deleteNode` meets neither of its defects: no dropped rotation, and no node that takes
the key of a successor with other data. -/
def deletesCleanly : Tree V → ℕ → Bool
  | leaf, _ => true
  | node k v h l r, key =>
    if key < k then deletesCleanly l key && steady (node k v h (deleteNode l key) r)
    else if k < key then deletesCleanly r key && steady (node k v h l (deleteNode r key))
    else cleanRoot v h l r (fun temp => deleteNode r temp) fun temp => deletesCleanly r temp

theorem entries_deleteRoot {deleteRight cleanRight} (hr : Ordered r)
    (hdel : ∀ temp, cleanRight temp → entries (deleteRight temp) = delete (entries r) temp)
    (hc : cleanRoot v h l r deleteRight cleanRight) :
    entries (deleteRoot v h l r deleteRight) = entries l ++ entries r := by
  cases l with
  | leaf => exact entries_rebalanceDelete_of_steady hc
  | node lk lv lh ll lr =>
    cases hmin : minValueNode r with
    | none =>
      simp only [cleanRoot, deleteRoot, hmin] at hc ⊢
      rw [minValueNode_eq] at hmin
      rw [entries_rebalanceDelete_of_steady hc, head?_eq_none_iff.mp hmin, append_nil]
    | some e =>
      obtain ⟨temp, w⟩ := e
      simp only [cleanRoot, deleteRoot, hmin] at hc ⊢
      obtain ⟨hc₁, hst⟩ := (Bool.and_eq_true _ _).mp hc
      obtain ⟨hw, hcr⟩ := (Bool.and_eq_true _ _).mp hc₁
      obtain rfl := of_decide_eq_true hw
      rw [minValueNode_eq] at hmin
      obtain ⟨rest, hrest⟩ := head?_eq_some_iff.mp hmin
      have hsorted : Sorted ((temp, w) :: rest) := hrest ▸ hr
      have hnone : find rest temp = none := find_none_of_lt (pairwise_cons.mp hsorted).1
      rw [entries_rebalanceDelete_of_steady hst, entries, hdel temp hcr, hrest, delete_cons,
        if_pos rfl, delete_of_find_none hnone]

theorem entries_deleteNode (ht : Ordered t) (hc : deletesCleanly t key) :
    entries (deleteNode t key) = delete (entries t) key := by
  induction t generalizing key with
  | leaf => rfl
  | node k v h l r ihl ihr =>
    obtain ⟨hl, hr, hlk, hrk⟩ := ordered_node.mp ht
    rw [deleteNode, entries, delete_append, delete_cons]
    rw [deletesCleanly] at hc
    rcases Nat.lt_trichotomy key k with hk | hk | hk
    · rw [if_pos hk] at hc ⊢
      obtain ⟨hcl, hst⟩ := (Bool.and_eq_true _ _).mp hc
      have hnone : find (entries r) key = none :=
        find_none_of_lt fun e he => Nat.lt_trans hk (hrk e he)
      rw [entries_rebalanceDelete_of_steady hst, entries, ihl hl hcl,
        if_neg (ne_of_gt hk), delete_of_find_none hnone]
    · subst hk
      have hl' : delete (entries l) key = entries l := delete_of_find_none (find_none_of_gt hlk)
      have hr' : delete (entries r) key = entries r := delete_of_find_none (find_none_of_lt hrk)
      rw [if_neg (lt_irrefl _), if_neg (lt_irrefl _)] at hc ⊢
      rw [if_pos rfl, hl', hr']
      exact entries_deleteRoot hr (fun temp hcr => ihr hr hcr) hc
    · rw [if_neg (by omega), if_pos hk] at hc ⊢
      obtain ⟨hcr, hst⟩ := (Bool.and_eq_true _ _).mp hc
      have hnone : find (entries l) key = none :=
        find_none_of_gt fun e he => Nat.lt_trans (hlk e he) hk
      rw [entries_rebalanceDelete_of_steady hst, entries, ihr hr hcr,
        if_neg (ne_of_lt hk), delete_of_find_none hnone]

end Clean

end Tree

/-- A search tree with a record of whether every deletion on it has been clean. -/
structure AVL (V : Type) where
  root : Tree V
  ordered : root.Ordered
  clean : Bool

def avlOps (V : Type) [DecidableEq V] : Ops (AVL V) V where
  empty := ⟨.leaf, ordered_leaf, true⟩
  find m k := m.root.findNode k
  findOrHigher m k := m.root.findNodeOrHigher k
  insert m k v := ⟨m.root.insert k v, ordered_insert m.ordered k v, m.clean⟩
  delete m k :=
    ⟨m.root.deleteNode k, ordered_deleteNode m.ordered k, m.clean && m.root.deletesCleanly k⟩
  setValue m k v := ⟨m.root.setExtraData k v, ordered_setExtraData m.ordered k v, m.clean⟩

/-- As long as its deletions are clean, the tree is a correct map. -/
theorem avlOps_lawful (V : Type) [DecidableEq V] : Lawful (avlOps V) (fun m => m.clean) where
  empty_intact := rfl
  find_empty _ := rfl
  higher_some {m k j v} _ h := by
    have hfind := fun i => findNode_eq m.ordered i
    have h' : findOrHigher m.root.entries k = some (j, v) :=
      (findNodeOrHigher_eq m.ordered k).symm.trans h
    obtain ⟨h₁, h₂, h₃⟩ := findOrHigher_some m.ordered h'
    exact ⟨h₁, (hfind j).trans h₂, fun i hi hlt => (hfind i).trans (h₃ i hi hlt)⟩
  higher_none {m k} _ h i hi := by
    have h' : findOrHigher m.root.entries k = none := (findNodeOrHigher_eq m.ordered k).symm.trans h
    exact (findNode_eq m.ordered i).trans (findOrHigher_none h' i hi)
  insert_intact _ _ := Iff.rfl
  find_insert {m} k v _ hk i := by
    have hk' : find m.root.entries k = none := (findNode_eq m.ordered k).symm.trans hk
    have hins := find_insert m.ordered (k := k) (v := v) i
    have hnew := findNode_eq ((avlOps V).insert m k v).ordered i
    simp only [hk', and_true] at hins
    show findNode (m.root.insert k v) i = if i = k then some v else m.root.findNode i
    rw [findNode_eq m.ordered i, ← hins, ← entries_insert m.ordered k v]
    exact hnew
  setValue_intact _ _ := Iff.rfl
  find_setValue {m} k v _ hk i := by
    have hk' : find m.root.entries k ≠ none := by
      rw [← findNode_eq m.ordered k]
      exact hk
    have hset := find_setValue (l := m.root.entries) (k := k) (v := v) i
    have hnew := findNode_eq ((avlOps V).setValue m k v).ordered i
    simp only [hk', ne_eq, not_false_eq_true, and_true] at hset
    show findNode (m.root.setExtraData k v) i = if i = k then some v else m.root.findNode i
    rw [findNode_eq m.ordered i, ← hset, ← entries_setExtraData m.ordered k v]
    exact hnew
  intact_of_delete h := ((Bool.and_eq_true _ _).mp h).1
  find_delete {m k} h i := by
    have hclean := ((Bool.and_eq_true _ _).mp h).2
    have hnew := findNode_eq (ordered_deleteNode m.ordered k) i
    rw [entries_deleteNode m.ordered hclean, find_delete] at hnew
    show findNode (m.root.deleteNode k) i = if i = k then none else m.root.findNode i
    rw [hnew, findNode_eq m.ordered i]

end AVLTree
