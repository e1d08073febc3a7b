import FrostyOS.BlockTiling
import Mathlib.Data.List.TakeWhile

/-! Blocks with gaps between them, in ascending order. A block that is put in its place is
joined with the neighbours that it touches. Nothing here knows about a particular
allocator. -/
namespace SortedBlocks

open BlockTiling Block List

variable {hdr : ℕ} {a b c : Block} {l pre post : List Block}

def Covers (hdr : ℕ) (b : Block) (x : ℕ) : Prop := b.addr ≤ x ∧ x < b.stop hdr

def Apart (hdr : ℕ) (a b : Block) : Prop := ∀ x, Covers hdr a x → ¬ Covers hdr b x

def Ascending (hdr : ℕ) (l : List Block) : Prop := l.Pairwise fun a b => a.stop hdr ≤ b.addr

def Spaced (hdr : ℕ) (l : List Block) : Prop := l.Pairwise fun a b => a.stop hdr < b.addr

theorem Apart.symm (h : Apart hdr a b) : Apart hdr b a := by
  intro x hb ha
  exact h x ha hb

instance : Std.Symm (Apart hdr) := ⟨fun _ _ h => h.symm⟩

theorem covers_addr (hpos : 0 < hdr) (b : Block) : Covers hdr b b.addr := by
  unfold Covers stop
  omega

theorem apart_iff (hpos : 0 < hdr) : Apart hdr a b ↔ a.stop hdr ≤ b.addr ∨ b.stop hdr ≤ a.addr := by
  constructor
  · intro h
    by_contra hne
    -- the later of the two headers is in both blocks
    rcases le_total a.addr b.addr with hle | hle
    · refine h b.addr ⟨hle, ?_⟩ (covers_addr hpos b)
      omega
    · refine h a.addr (covers_addr hpos a) ⟨hle, ?_⟩
      omega
  · rintro h x ⟨ha, ha'⟩ ⟨hb, hb'⟩
    omega

theorem Apart.addr_ne (hpos : 0 < hdr) (h : Apart hdr a b) : a.addr ≠ b.addr := by
  intro he
  exact h a.addr (covers_addr hpos a) (he ▸ covers_addr hpos b)

theorem Spaced.ascending (h : Spaced hdr l) : Ascending hdr l := h.imp fun hab => Nat.le_of_lt hab

theorem Spaced.distance (h : Spaced hdr l) (ha : a ∈ l) (hb : b ∈ l) (hne : a ≠ b) :
    a.stop hdr < b.addr ∨ b.stop hdr < a.addr := by
  have hsymm : Std.Symm fun a b : Block => a.stop hdr < b.addr ∨ b.stop hdr < a.addr :=
    ⟨fun _ _ h => h.symm⟩
  have hpair : l.Pairwise fun a b : Block => a.stop hdr < b.addr ∨ b.stop hdr < a.addr :=
    h.imp fun hab => .inl hab
  exact hpair.forall ha hb hne

theorem Ascending.addrs (hpos : 0 < hdr) (h : Ascending hdr l) : (l.map addr).Pairwise (· < ·) := by
  rw [pairwise_map]
  refine h.imp ?_
  intro a b hab
  unfold stop at hab
  omega

theorem ascending_middle : Ascending hdr (pre ++ b :: post) ↔
    Ascending hdr (pre ++ post) ∧ (∀ p ∈ pre, p.stop hdr ≤ b.addr) ∧
      ∀ q ∈ post, b.stop hdr ≤ q.addr := by
  unfold Ascending
  rw [pairwise_append, pairwise_cons, pairwise_append]
  constructor
  · rintro ⟨hp, ⟨hb, hq⟩, hx⟩
    exact ⟨⟨hp, hq, fun p hp q hq => hx p hp q (mem_cons_of_mem b hq)⟩,
      fun p hp => hx p hp b mem_cons_self, hb⟩
  · rintro ⟨⟨hp, hq, hx⟩, hl, hr⟩
    refine ⟨hp, ⟨hr, hq⟩, ?_⟩
    intro p hpm q hqm
    rcases mem_cons.1 hqm with rfl | hqm
    · exact hl p hpm
    · exact hx p hpm q hqm

def joinLeft (hdr : ℕ) (pre : List Block) (b : Block) : List Block × Block :=
  match pre.getLast? with
  | some p => if p.stop hdr = b.addr then (pre.dropLast, p.join hdr b) else (pre, b)
  | none => (pre, b)

def joinRight (hdr : ℕ) (b : Block) : List Block → Block × List Block
  | [] => (b, [])
  | q :: qs => if b.stop hdr = q.addr then (b.join hdr q, qs) else (b, q :: qs)

/-- The block between `pre` and `post`, joined with what it touches. -/
def place (hdr : ℕ) (pre : List Block) (b : Block) (post : List Block) : List Block :=
  (joinLeft hdr pre b).1 ++ (joinRight hdr (joinLeft hdr pre b).2 post).1 ::
    (joinRight hdr (joinLeft hdr pre b).2 post).2

def below (b : Block) (l : List Block) : List Block := l.takeWhile fun a => a.addr < b.addr

def above (b : Block) (l : List Block) : List Block := l.dropWhile fun a => a.addr < b.addr

def insert (hdr : ℕ) (b : Block) (l : List Block) : List Block :=
  place hdr (below b l) b (above b l)

theorem below_append_above (b : Block) (l : List Block) : below b l ++ above b l = l :=
  takeWhile_append_dropWhile

theorem forall_mem_middle {P : Block → Prop} (hl : ∀ a ∈ l, P a) (hb : P b) :
    ∀ c ∈ below b l ++ b :: above b l, P c := by
  have hsplit := below_append_above b l
  intro c hc
  rcases mem_append.1 hc with hc | hc
  · exact hl c (hsplit ▸ mem_append_left _ hc)
  · rcases mem_cons.1 hc with rfl | hc
    · exact hb
    · exact hl c (hsplit ▸ mem_append_right _ hc)

theorem addr_lt_of_mem_below (h : a ∈ below b l) : a.addr < b.addr := by
  simpa using mem_takeWhile_imp h

theorem ascending_insert (hpos : 0 < hdr) (h : Ascending hdr l)
    (hb : ∀ a ∈ l, Apart hdr a b) : Ascending hdr (below b l ++ b :: above b l) := by
  rw [ascending_middle, below_append_above]
  refine ⟨h, ?_, ?_⟩
  · intro p hp
    have hlt := addr_lt_of_mem_below hp
    have hmem : p ∈ l := below_append_above b l ▸ mem_append_left _ hp
    have hor := (apart_iff hpos).1 (hb p hmem)
    unfold stop at hor ⊢
    omega
  · -- the first block above is not below, and the others come after it
    have hrest : Ascending hdr (above b l) :=
      (pairwise_append.1 (below_append_above b l ▸ h)).2.1
    have hmem : ∀ q ∈ above b l, q ∈ l := by
      intro q hq
      exact below_append_above b l ▸ mem_append_right _ hq
    have hhead : ∀ q, (above b l).head? = some q → b.stop hdr ≤ q.addr := by
      intro q hq
      have hnot := head?_dropWhile_not (fun a : Block => a.addr < b.addr) l
      have hor := (apart_iff hpos).1 (hb q (hmem q (mem_of_head? hq)))
      unfold above at hq
      rw [hq] at hnot
      simp only [decide_eq_false_iff_not] at hnot
      unfold stop at hor ⊢
      omega
    intro q hq
    cases hab : above b l with
    | nil =>
      rw [hab] at hq
      exact absurd hq not_mem_nil
    | cons r rs =>
      rw [hab] at hq hrest hhead
      have hr := hhead r rfl
      rcases mem_cons.1 hq with rfl | hq
      · exact hr
      · have hrq := (pairwise_cons.1 hrest).1 q hq
        unfold stop at hr hrq ⊢
        omega

theorem joinLeft_cases (hdr : ℕ) (pre : List Block) (b : Block) :
    (∃ xs p, pre = xs ++ [p] ∧ p.stop hdr = b.addr ∧ joinLeft hdr pre b = (xs, p.join hdr b)) ∨
    ((∀ p ∈ pre.getLast?, p.stop hdr ≠ b.addr) ∧ joinLeft hdr pre b = (pre, b)) := by
  rcases eq_nil_or_concat pre with rfl | ⟨xs, p, rfl⟩
  · exact .inr ⟨by simp, rfl⟩
  · by_cases hp : p.stop hdr = b.addr
    · exact .inl ⟨xs, p, by simp, hp, by simp [joinLeft, hp]⟩
    · exact .inr ⟨by simpa using hp, by simp [joinLeft, hp]⟩

theorem joinRight_cases (hdr : ℕ) (b : Block) (post : List Block) :
    (∃ q qs, post = q :: qs ∧ b.stop hdr = q.addr ∧ joinRight hdr b post = (b.join hdr q, qs)) ∨
    ((∀ q ∈ post.head?, b.stop hdr ≠ q.addr) ∧ joinRight hdr b post = (b, post)) := by
  cases post with
  | nil => exact .inr ⟨by simp, rfl⟩
  | cons q qs =>
    by_cases hq : b.stop hdr = q.addr
    · exact .inl ⟨q, qs, rfl, hq, by simp [joinRight, hq]⟩
    · exact .inr ⟨by simpa using hq, by simp [joinRight, hq]⟩

theorem covers_join (h : a.stop hdr = b.addr) (x : ℕ) :
    Covers hdr (a.join hdr b) x ↔ Covers hdr a x ∨ Covers hdr b x := by
  unfold Covers
  rw [join_stop h]
  unfold join stop at *
  dsimp only
  omega

theorem ascending_join (h : a.stop hdr = b.addr) (ha : Ascending hdr (pre ++ a :: b :: post)) :
    Ascending hdr (pre ++ a.join hdr b :: post) := by
  obtain ⟨hall, hbefore, -⟩ := ascending_middle.1 ha
  obtain ⟨hall', -, hafter⟩ := ascending_middle.1 hall
  refine ascending_middle.2 ⟨hall', hbefore, ?_⟩
  rw [join_stop h]
  exact hafter

section

variable {P : Block → Prop}
  (hjoin : ∀ a c, P a → P c → a.stop hdr = c.addr → P (a.join hdr c))

include hjoin

theorem forall_mem_joinLeft (hpre : ∀ p ∈ pre, P p) (hb : P b) :
    (∀ p ∈ (joinLeft hdr pre b).1, P p) ∧ P (joinLeft hdr pre b).2 := by
  rcases joinLeft_cases hdr pre b with ⟨xs, p, rfl, hp, he⟩ | ⟨-, he⟩
  · rw [he]
    refine ⟨fun x hx => hpre x (mem_append_left _ hx), ?_⟩
    exact hjoin p b (hpre p (by simp)) hb hp
  · rw [he]
    exact ⟨hpre, hb⟩

theorem forall_mem_joinRight (hb : P b) (hpost : ∀ q ∈ post, P q) :
    P (joinRight hdr b post).1 ∧ ∀ q ∈ (joinRight hdr b post).2, P q := by
  rcases joinRight_cases hdr b post with ⟨q, qs, rfl, hq, he⟩ | ⟨-, he⟩
  · rw [he]
    exact ⟨hjoin b q hb (hpost q mem_cons_self) hq,
      fun x hx => hpost x (mem_cons_of_mem q hx)⟩
  · rw [he]
    exact ⟨hb, hpost⟩

theorem forall_mem_place (hpre : ∀ p ∈ pre, P p) (hb : P b) (hpost : ∀ q ∈ post, P q) :
    ∀ c ∈ place hdr pre b post, P c := by
  obtain ⟨hleft, hb'⟩ := forall_mem_joinLeft hjoin hpre hb
  obtain ⟨hb'', hright⟩ := forall_mem_joinRight hjoin hb' hpost
  intro c hc
  rcases mem_append.1 hc with hc | hc
  · exact hleft c hc
  · rcases mem_cons.1 hc with rfl | hc
    · exact hb''
    · exact hright c hc

end

theorem exists_covers_place (x : ℕ) : (∃ c ∈ place hdr pre b post, Covers hdr c x) ↔
    (∃ p ∈ pre, Covers hdr p x) ∨ Covers hdr b x ∨ ∃ q ∈ post, Covers hdr q x := by
  have hleft : (∃ p ∈ (joinLeft hdr pre b).1, Covers hdr p x) ∨
      Covers hdr (joinLeft hdr pre b).2 x ↔ (∃ p ∈ pre, Covers hdr p x) ∨ Covers hdr b x := by
    rcases joinLeft_cases hdr pre b with ⟨xs, p, rfl, hp, he⟩ | ⟨-, he⟩
    · rw [he, covers_join hp]
      simp only [mem_append, mem_singleton, or_and_right, exists_or, exists_eq_left, or_assoc]
    · rw [he]
  have hright : ∀ d, (Covers hdr (joinRight hdr d post).1 x ∨
      ∃ q ∈ (joinRight hdr d post).2, Covers hdr q x) ↔
      Covers hdr d x ∨ ∃ q ∈ post, Covers hdr q x := by
    intro d
    rcases joinRight_cases hdr d post with ⟨q, qs, rfl, hq, he⟩ | ⟨-, he⟩
    · rw [he, covers_join hq]
      simp only [mem_cons, or_and_right, exists_or, exists_eq_left, or_assoc]
    · rw [he]
  have hsplit : (∃ c ∈ place hdr pre b post, Covers hdr c x) ↔
      (∃ p ∈ (joinLeft hdr pre b).1, Covers hdr p x) ∨
        (Covers hdr (joinRight hdr (joinLeft hdr pre b).2 post).1 x ∨
          ∃ q ∈ (joinRight hdr (joinLeft hdr pre b).2 post).2, Covers hdr q x) := by
    simp only [place, mem_append, mem_cons, or_and_right, exists_or, exists_eq_left]
  rw [hsplit, hright, ← or_assoc, hleft, or_assoc]

theorem stop_lt_of_last (hpre : Spaced hdr pre) (hle : ∀ p ∈ pre, p.stop hdr ≤ b.addr)
    (hlast : ∀ p ∈ pre.getLast?, p.stop hdr ≠ b.addr) : ∀ p ∈ pre, p.stop hdr < b.addr := by
  rcases eq_nil_or_concat pre with rfl | ⟨xs, p, rfl⟩
  · intro p hp
    exact absurd hp not_mem_nil
  rw [concat_eq_append] at *
  have hp : p.stop hdr < b.addr := lt_of_le_of_ne (hle p (by simp)) (hlast p (by simp))
  intro x hx
  rcases mem_append.1 hx with hx | hx
  · have hxp := (pairwise_append.1 hpre).2.2 x hx p (by simp)
    unfold stop at hp hxp ⊢
    omega
  · rw [mem_singleton.1 hx]
    exact hp

theorem stop_lt_of_head (hpost : Spaced hdr post) (hle : ∀ q ∈ post, b.stop hdr ≤ q.addr)
    (hhead : ∀ q ∈ post.head?, b.stop hdr ≠ q.addr) : ∀ q ∈ post, b.stop hdr < q.addr := by
  cases post with
  | nil =>
    intro q hq
    exact absurd hq not_mem_nil
  | cons q qs =>
    have hq : b.stop hdr < q.addr :=
      lt_of_le_of_ne (hle q mem_cons_self) (hhead q (by simp))
    intro x hx
    rcases mem_cons.1 hx with rfl | hx
    · exact hq
    · have hqx := (pairwise_cons.1 hpost).1 x hx
      unfold stop at hq hqx ⊢
      omega

theorem spaced_place (hpre : Spaced hdr pre) (hpost : Spaced hdr post)
    (h : Ascending hdr (pre ++ b :: post)) : Spaced hdr (place hdr pre b post) := by
  obtain ⟨-, hl, hr⟩ := ascending_middle.1 h
  have hleft : Spaced hdr (joinLeft hdr pre b).1 ∧
      (∀ p ∈ (joinLeft hdr pre b).1, p.stop hdr < (joinLeft hdr pre b).2.addr) ∧
      (joinLeft hdr pre b).2.stop hdr = b.stop hdr := by
    rcases joinLeft_cases hdr pre b with ⟨xs, p, rfl, hp, he⟩ | ⟨hp, he⟩
    · rw [he]
      obtain ⟨hxs, -, hxp⟩ := pairwise_append.1 hpre
      exact ⟨hxs, fun x hx => hxp x hx p (by simp), join_stop hp⟩
    · rw [he]
      exact ⟨hpre, stop_lt_of_last hpre hl hp, rfl⟩
  have hright : ∀ d, d.stop hdr = b.stop hdr → Spaced hdr (joinRight hdr d post).2 ∧
      (∀ q ∈ (joinRight hdr d post).2, (joinRight hdr d post).1.stop hdr < q.addr) ∧
      (joinRight hdr d post).1.addr = d.addr := by
    intro d hd
    rcases joinRight_cases hdr d post with ⟨q, qs, rfl, hq, he⟩ | ⟨hq, he⟩
    · rw [he]
      obtain ⟨hqs, hspaced⟩ := pairwise_cons.1 hpost
      refine ⟨hspaced, ?_, rfl⟩
      intro x hx
      rw [join_stop hq]
      exact hqs x hx
    · rw [he]
      refine ⟨hpost, stop_lt_of_head hpost ?_ hq, rfl⟩
      rw [hd]
      exact hr
  obtain ⟨hspaced, hbefore, hstop⟩ := hleft
  obtain ⟨hspaced', hafter, haddr⟩ := hright _ hstop
  refine pairwise_append.2 ⟨hspaced, pairwise_cons.2 ⟨hafter, hspaced'⟩, ?_⟩
  intro p hp q hq
  have hpb := hbefore p hp
  rcases mem_cons.1 hq with rfl | hq
  · rw [haddr]
    exact hpb
  · have hbq := hafter q hq
    rw [← haddr] at hpb
    unfold stop at hpb hbq ⊢
    omega

theorem joinLeft_filter {lo : ℕ} (hpos : 0 < hdr) (ht : Tiles hdr lo pre b.addr) :
    joinLeft hdr (pre.filter (·.free)) b =
      ((absorbLeft hdr pre b).1.filter (·.free), (absorbLeft hdr pre b).2) := by
  rcases absorbLeft_cases hdr pre b with ⟨xs, p, rfl, hp, he⟩ | ⟨hlast, he⟩
  · have hstop : p.stop hdr = b.addr := (tiles_middle.1 ht).2
    simp [he, hp, joinLeft, hstop]
  rcases joinLeft_cases hdr (pre.filter (·.free)) b with ⟨ys, q, hq, hstop, -⟩ | ⟨-, hj⟩
  · -- a free block that ends where `b` starts would be the last one
    have hmem : q ∈ pre.filter (·.free) := by
      rw [hq]
      simp
    obtain ⟨hqm, hqf⟩ : q ∈ pre ∧ q.free = true := mem_filter.1 hmem
    obtain ⟨zs, ws, rfl⟩ := append_of_mem hqm
    have hnil : ws = [] := (tiles_middle.1 ht).2.nil_of_eq hpos hstop
    have hqu := hlast q (by simp [hnil])
    rw [hqf] at hqu
    cases hqu
  · rw [hj, he]

theorem joinRight_filter {hi : ℕ} (hpos : 0 < hdr) (ht : Tiles hdr (b.stop hdr) post hi) :
    joinRight hdr b (post.filter (·.free)) =
      ((absorbRight hdr b post).1, (absorbRight hdr b post).2.filter (·.free)) := by
  rcases absorbRight_cases hdr b post with ⟨q, qs, rfl, hq, he⟩ | ⟨hhead, he⟩
  · simp [he, hq, joinRight, ht.1]
  rcases joinRight_cases hdr b (post.filter (·.free)) with ⟨q, qs, hq, hstop, -⟩ | ⟨-, hj⟩
  · have hmem : q ∈ post.filter (·.free) := by
      rw [hq]
      simp
    obtain ⟨hqm, hqf⟩ : q ∈ post ∧ q.free = true := mem_filter.1 hmem
    obtain ⟨zs, ws, rfl⟩ := append_of_mem hqm
    have hnil : zs = [] := (tiles_middle.1 ht).1.nil_of_eq hpos hstop
    have hqu := hhead q (by simp [hnil])
    rw [hqf] at hqu
    cases hqu
  · rw [hj, he]

theorem settle_free {lo hi : ℕ} (hpos : 0 < hdr) (hb : b.free)
    (ht : Tiles hdr lo (pre ++ b :: post) hi) : (settle hdr pre b post).filter (·.free) =
      place hdr (pre.filter (·.free)) b (post.filter (·.free)) := by
  have hleft : (absorbLeft hdr pre b).2.free := by
    rcases absorbLeft_cases hdr pre b with ⟨xs, p, -, -, he⟩ | ⟨-, he⟩
    · rw [he, join_free]
    · rw [he, hb]
  have hright : (absorbRight hdr (absorbLeft hdr pre b).2 post).1.free := by
    rcases absorbRight_cases hdr (absorbLeft hdr pre b).2 post with ⟨q, qs, -, -, he⟩ | ⟨-, he⟩
    · rw [he, join_free]
    · rw [he, hleft]
  rw [place, joinLeft_filter hpos (tiles_middle.1 ht).1,
    joinRight_filter hpos (tiles_middle.1 (tiles_absorbLeft ht)).2, settle, filter_append,
    filter_cons_of_pos hright]

theorem mem_of_mem_below (h : a ∈ below b l) : a ∈ l :=
  below_append_above b l ▸ mem_append_left _ h

theorem mem_of_mem_above (h : a ∈ above b l) : a ∈ l :=
  below_append_above b l ▸ mem_append_right _ h

theorem forall_mem_insert {P : Block → Prop}
    (hjoin : ∀ a c, P a → P c → a.stop hdr = c.addr → P (a.join hdr c)) (hl : ∀ a ∈ l, P a)
    (hb : P b) : ∀ c ∈ insert hdr b l, P c :=
  forall_mem_place hjoin (fun a ha => hl a (mem_of_mem_below ha)) hb
    fun a ha => hl a (mem_of_mem_above ha)

theorem exists_covers_insert (x : ℕ) : (∃ c ∈ insert hdr b l, Covers hdr c x) ↔
    Covers hdr b x ∨ ∃ a ∈ l, Covers hdr a x := by
  have hsplit : (∃ a ∈ l, Covers hdr a x) ↔
      (∃ p ∈ below b l, Covers hdr p x) ∨ ∃ q ∈ above b l, Covers hdr q x := by
    conv_lhs => rw [← below_append_above b l]
    simp only [mem_append, or_and_right, exists_or]
  rw [insert, exists_covers_place, hsplit]
  exact or_left_comm

theorem spaced_insert (hpos : 0 < hdr) (hl : Spaced hdr l) (hb : ∀ a ∈ l, Apart hdr a b) :
    Spaced hdr (insert hdr b l) := by
  have hsplit : Spaced hdr (below b l ++ above b l) := (below_append_above b l).symm ▸ hl
  obtain ⟨hpre, hpost, -⟩ := pairwise_append.1 hsplit
  exact spaced_place hpre hpost (ascending_insert hpos hl.ascending hb)

theorem apart_insert (hb : Apart hdr c b) (hl : ∀ a ∈ l, Apart hdr c a) :
    ∀ d ∈ insert hdr b l, Apart hdr c d := by
  intro d hd x hc hx
  rcases (exists_covers_insert x).1 ⟨d, hd, hx⟩ with hx | ⟨a, ha, hx⟩
  · exact hb x hc hx
  · exact hl a ha x hc hx

theorem length_place_le : (place hdr pre b post).length ≤ pre.length + 1 + post.length := by
  have hleft : (joinLeft hdr pre b).1.length ≤ pre.length := by
    rcases joinLeft_cases hdr pre b with ⟨xs, p, rfl, -, he⟩ | ⟨-, he⟩ <;> simp [he]
  have hright : ∀ d, (joinRight hdr d post).2.length ≤ post.length := by
    intro d
    rcases joinRight_cases hdr d post with ⟨q, qs, rfl, -, he⟩ | ⟨-, he⟩ <;> simp [he]
  have hrest := hright (joinLeft hdr pre b).2
  rw [place, length_append, length_cons]
  omega

theorem length_insert_le : (insert hdr b l).length ≤ l.length + 1 := by
  have hplace : (place hdr (below b l) b (above b l)).length ≤
      (below b l).length + 1 + (above b l).length := length_place_le
  have hsplit := congrArg List.length (below_append_above b l)
  rw [length_append] at hsplit
  rw [insert]
  omega

theorem Spaced.apart (hpos : 0 < hdr) (h : Spaced hdr l) : l.Pairwise (Apart hdr) :=
  h.imp fun hab => (apart_iff hpos).2 (.inl hab.le)

end SortedBlocks
