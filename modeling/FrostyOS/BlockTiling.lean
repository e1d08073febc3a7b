import Mathlib.Data.List.Chain

/-! Address ranges cut into headed blocks, and null-terminated chains of addresses.
A block is a header of `hdr` bytes followed by its payload. The list of blocks is the ghost
view of a heap's memory. -/
namespace BlockTiling

open List

structure Block where
  addr : ℕ
  size : ℕ
  free : Bool
  deriving DecidableEq, Repr

open Block

variable {hdr lo mid hi : ℕ} {b : Block} {bs xs ys pre post : List Block}

def Block.stop (hdr : ℕ) (b : Block) : ℕ := b.addr + hdr + b.size

/-- The blocks lie end to end and fill exactly the addresses from `lo` to `hi`. -/
def Tiles (hdr : ℕ) : ℕ → List Block → ℕ → Prop
  | lo, [], hi => lo = hi
  | lo, b :: bs, hi => b.addr = lo ∧ Tiles hdr (b.stop hdr) bs hi

theorem tiles_append : Tiles hdr lo (xs ++ ys) hi ↔
    ∃ mid, Tiles hdr lo xs mid ∧ Tiles hdr mid ys hi := by
  induction xs generalizing lo with
  | nil => simp [Tiles]
  | cons x xs ih =>
    simp only [cons_append, Tiles, ih]
    constructor
    · rintro ⟨h, mid, hx, hy⟩; exact ⟨mid, ⟨h, hx⟩, hy⟩
    · rintro ⟨mid, ⟨h, hx⟩, hy⟩; exact ⟨h, mid, hx, hy⟩

section

variable (h : Tiles hdr lo bs hi)

include h

theorem Tiles.le : lo ≤ hi := by
  induction bs generalizing lo with
  | nil => exact h.le
  | cons b bs ih =>
    have := ih h.2
    have := h.1
    unfold stop at *
    omega

theorem Tiles.bounds (hb : b ∈ bs) : lo ≤ b.addr ∧ b.stop hdr ≤ hi := by
  induction bs generalizing lo with
  | nil => cases hb
  | cons c bs ih =>
    rcases mem_cons.mp hb with rfl | hb
    · exact ⟨Nat.le_of_eq h.1.symm, Tiles.le h.2⟩
    · have hi := ih h.2 hb
      have := h.1
      unfold stop at *
      omega

theorem Tiles.sorted : bs.Pairwise (fun a b => a.stop hdr ≤ b.addr) := by
  induction bs generalizing lo with
  | nil => exact .nil
  | cons c bs ih => exact .cons (fun b hb => (h.2.bounds hb).1) (ih h.2)

theorem Tiles.length_le : hdr * bs.length + lo ≤ hi := by
  induction bs generalizing lo with
  | nil => simpa using Tiles.le h
  | cons c bs ih =>
    have := ih h.2
    have := h.1
    simp only [length_cons, Nat.mul_add, stop] at *
    omega

theorem Tiles.addr_inj (hpos : 0 < hdr) {c} (hb : b ∈ bs) (hc : c ∈ bs) (he : b.addr = c.addr) :
    b = c := by
  induction bs generalizing lo with
  | nil => cases hb
  | cons d bs ih =>
    have apart : ∀ e ∈ bs, d.addr < e.addr := by
      intro e hm
      have := (h.2.bounds hm).1
      unfold stop at this
      omega
    rcases mem_cons.mp hb with rfl | hbs
    · rcases mem_cons.mp hc with rfl | hcs
      · rfl
      · have := apart c hcs; omega
    · rcases mem_cons.mp hc with rfl | hcs
      · have := apart b hbs; omega
      · exact ih h.2 hbs hcs

end

theorem tiles_middle : Tiles hdr lo (pre ++ b :: post) hi ↔
    Tiles hdr lo pre b.addr ∧ Tiles hdr (b.stop hdr) post hi := by
  rw [tiles_append]
  constructor
  · rintro ⟨mid, hp, rfl, hq⟩; exact ⟨hp, hq⟩
  · rintro ⟨hp, hq⟩; exact ⟨b.addr, hp, rfl, hq⟩

theorem tiles_setFree {f} (h : Tiles hdr lo (pre ++ b :: post) hi) :
    Tiles hdr lo (pre ++ { b with free := f } :: post) hi := by
  have hb := tiles_middle.mp h
  exact tiles_middle.mpr hb

def freeAddrs (bs : List Block) : List ℕ := (bs.filter (fun b => b.free)).map addr

@[simp] theorem freeAddrs_nil : freeAddrs [] = [] := rfl

@[simp] theorem freeAddrs_append : freeAddrs (xs ++ ys) = freeAddrs xs ++ freeAddrs ys := by
  simp [freeAddrs]

theorem freeAddrs_cons_free (h : b.free) : freeAddrs (b :: bs) = b.addr :: freeAddrs bs := by
  simp [freeAddrs, h]

theorem freeAddrs_cons_used (h : b.free = false) : freeAddrs (b :: bs) = freeAddrs bs := by
  simp [freeAddrs, h]

theorem mem_freeAddrs {a : ℕ} : a ∈ freeAddrs bs ↔ ∃ b ∈ bs, b.free ∧ b.addr = a := by
  simp [freeAddrs, and_assoc]

theorem not_free_of_freeAddrs_nil (h : freeAddrs bs = []) (hb : b ∈ bs) : ¬ b.free := by
  intro hf
  have hmem : b.addr ∈ freeAddrs bs := mem_freeAddrs.mpr ⟨b, hb, hf, rfl⟩
  rw [h] at hmem
  cases hmem

theorem freeAddrs_length_le : (freeAddrs bs).length ≤ bs.length := by
  simpa [freeAddrs] using length_filter_le _ bs

theorem Tiles.freeAddrs_bounds (hpos : 0 < hdr) (h : Tiles hdr lo bs hi) {a : ℕ}
    (ha : a ∈ freeAddrs bs) : lo ≤ a ∧ a < hi := by
  obtain ⟨b, hb, -, rfl⟩ := mem_freeAddrs.mp ha
  have := h.bounds hb
  unfold stop at this
  omega

theorem Tiles.freeAddrs_sorted (hpos : 0 < hdr) (h : Tiles hdr lo bs hi) :
    (freeAddrs bs).Pairwise (· < ·) := by
  unfold freeAddrs
  rw [pairwise_map]
  refine (h.sorted.filter _).imp ?_
  intro a b hab
  unfold stop at hab
  omega

theorem freeAddrs_lt_middle (hpos : 0 < hdr) (h : Tiles hdr lo (pre ++ b :: post) hi) {a : ℕ}
    (ha : a ∈ freeAddrs pre) : a < b.addr := ((tiles_middle.mp h).1.freeAddrs_bounds hpos ha).2

theorem stop_le_freeAddrs_middle (hpos : 0 < hdr) (h : Tiles hdr lo (pre ++ b :: post) hi) {a : ℕ}
    (ha : a ∈ freeAddrs post) : b.stop hdr ≤ a := ((tiles_middle.mp h).2.freeAddrs_bounds hpos ha).1

def Coalesced (bs : List Block) : Prop := bs.IsChain (fun a b => ¬ (a.free = true ∧ b.free = true))

theorem coalesced_middle_used (h : b.free = false) :
    Coalesced (pre ++ b :: post) ↔ Coalesced pre ∧ Coalesced post := by
  unfold Coalesced
  rw [isChain_append]
  cases post <;> simp [h]

theorem freeAddrs_cons {a : ℕ} {l} (h : freeAddrs bs = a :: l) :
    ∃ xs p ys, bs = xs ++ p :: ys ∧ p.free ∧ p.addr = a ∧
      freeAddrs xs = [] ∧ freeAddrs ys = l := by
  induction bs with
  | nil => simp at h
  | cons c bs ih =>
    cases hc : c.free with
    | false =>
      rw [freeAddrs_cons_used hc] at h
      obtain ⟨xs, p, ys, rfl, hp, ha, hx, hy⟩ := ih h
      exact ⟨c :: xs, p, ys, rfl, hp, ha, by rw [freeAddrs_cons_used hc, hx], hy⟩
    | true =>
      rw [freeAddrs_cons_free hc] at h
      obtain ⟨ha, hbs⟩ := cons.inj h
      exact ⟨[], c, bs, rfl, hc, ha, rfl, hbs⟩

theorem Tiles.nil_of_eq (hpos : 0 < hdr) (h : Tiles hdr lo bs hi) (he : lo = hi) : bs = [] := by
  cases bs with
  | nil => rfl
  | cons c bs =>
    have := Tiles.le h.2
    have := h.1
    unfold stop at *
    omega

def Block.join (hdr : ℕ) (a b : Block) : Block := ⟨a.addr, a.size + (hdr + b.size), true⟩

@[simp] theorem Block.join_free (a : Block) : (a.join hdr b).free := rfl

theorem Block.join_stop {a : Block} (h : a.stop hdr = b.addr) :
    (a.join hdr b).stop hdr = b.stop hdr := by
  unfold stop join at *
  dsimp only
  omega

theorem tiles_join {a : Block} (h : Tiles hdr lo (pre ++ a :: b :: post) hi) :
    Tiles hdr lo (pre ++ a.join hdr b :: post) hi := by
  obtain ⟨hx, hb, hp⟩ := tiles_middle.mp h
  exact tiles_middle.mpr ⟨hx, by rw [join_stop hb.symm]; exact hp⟩

def absorbLeft (hdr : ℕ) (pre : List Block) (b : Block) : List Block × Block :=
  match pre.getLast? with
  | some p => if p.free then (pre.dropLast, p.join hdr b) else (pre, b)
  | none => (pre, b)

def absorbRight (hdr : ℕ) (b : Block) : List Block → Block × List Block
  | [] => (b, [])
  | q :: qs => if q.free then (b.join hdr q, qs) else (b, q :: qs)

/-- The blocks after `b`, lying between `pre` and `post`, has been freed and merged. -/
def settle (hdr : ℕ) (pre : List Block) (b : Block) (post : List Block) : List Block :=
  (absorbLeft hdr pre b).1 ++
    (absorbRight hdr (absorbLeft hdr pre b).2 post).1 ::
    (absorbRight hdr (absorbLeft hdr pre b).2 post).2

theorem absorbLeft_cases (hdr : ℕ) (pre : List Block) (b : Block) :
    (∃ xs p, pre = xs ++ [p] ∧ p.free ∧ absorbLeft hdr pre b = (xs, p.join hdr b)) ∨
    ((∀ p ∈ pre.getLast?, p.free = false) ∧ absorbLeft hdr pre b = (pre, b)) := by
  rcases eq_nil_or_concat pre with rfl | ⟨xs, p, rfl⟩
  · exact .inr ⟨by simp, rfl⟩
  · cases hp : p.free with
    | true => exact .inl ⟨xs, p, by simp, hp, by simp [absorbLeft, hp]⟩
    | false => exact .inr ⟨by simp [hp], by simp [absorbLeft, hp]⟩

theorem absorbRight_cases (hdr : ℕ) (b : Block) (post : List Block) :
    (∃ q qs, post = q :: qs ∧ q.free ∧ absorbRight hdr b post = (b.join hdr q, qs)) ∨
    ((∀ q ∈ post.head?, q.free = false) ∧ absorbRight hdr b post = (b, post)) := by
  cases post with
  | nil => exact .inr ⟨by simp, rfl⟩
  | cons q qs =>
    cases hq : q.free with
    | true => exact .inl ⟨q, qs, rfl, hq, by simp [absorbRight, hq]⟩
    | false => exact .inr ⟨by simp [hq], by simp [absorbRight, hq]⟩

theorem tiles_absorbLeft (h : Tiles hdr lo (pre ++ b :: post) hi) :
    Tiles hdr lo ((absorbLeft hdr pre b).1 ++ (absorbLeft hdr pre b).2 :: post) hi := by
  rcases absorbLeft_cases hdr pre b with ⟨xs, p, rfl, -, he⟩ | ⟨-, he⟩
  · rw [he]
    rw [append_assoc, singleton_append] at h
    exact tiles_join h
  · rw [he]; exact h

theorem tiles_settle (h : Tiles hdr lo (pre ++ b :: post) hi) :
    Tiles hdr lo (settle hdr pre b post) hi := by
  have hleft := tiles_absorbLeft h
  unfold settle
  rcases absorbRight_cases hdr (absorbLeft hdr pre b).2 post with ⟨q, qs, rfl, -, he⟩ | ⟨-, he⟩
  · rw [he]
    exact tiles_join hleft
  · rw [he]
    exact hleft

theorem coalesced_settle (hpre : Coalesced pre) (hpost : Coalesced post) :
    Coalesced (settle hdr pre b post) := by
  have left : Coalesced (absorbLeft hdr pre b).1 ∧
      ∀ p ∈ (absorbLeft hdr pre b).1.getLast?, p.free = false := by
    rcases absorbLeft_cases hdr pre b with ⟨xs, p, rfl, hp, he⟩ | ⟨hp, he⟩
    · rw [he]
      obtain ⟨hx, -, hxp⟩ := isChain_append.mp hpre
      refine ⟨hx, fun q hq => ?_⟩
      simpa [hp] using hxp q hq p (by simp)
    · rw [he]; exact ⟨hpre, hp⟩
  have right : ∀ c, Coalesced (absorbRight hdr c post).2 ∧
      ∀ q ∈ (absorbRight hdr c post).2.head?, q.free = false := by
    intro c
    rcases absorbRight_cases hdr c post with ⟨q, qs, rfl, hq, he⟩ | ⟨hq, he⟩
    · rw [he]
      obtain ⟨hxq, hx⟩ := isChain_cons.mp hpost
      refine ⟨hx, fun p hp => ?_⟩
      simpa [hq] using hxq p hp
    · rw [he]; exact ⟨hpost, hq⟩
  obtain ⟨hr, hrh⟩ := right (absorbLeft hdr pre b).2
  refine isChain_append.mpr ⟨left.1, isChain_cons.mpr ⟨?_, hr⟩, ?_⟩
  · intro q hq hf
    rw [hrh q hq] at hf
    exact Bool.false_ne_true hf.2
  · intro p hp q _ hf
    rw [left.2 p hp] at hf
    exact Bool.false_ne_true hf.1

theorem Coalesced.tail (h : Coalesced (b :: bs)) : Coalesced bs := (isChain_cons.mp h).2

/-- A free block reaches up to a used block or to the end, so a tiling with the same used
blocks cannot have a longer one at its place. -/
theorem stop_le_of_used {c} (h : Tiles hdr lo (b :: xs) hi) (h' : Tiles hdr lo (c :: ys) hi)
    (hco : Coalesced (b :: xs)) (hb : b.free) (hc : c.free)
    (hused : ∀ d, d.free = false → d ∈ b :: xs → d ∈ c :: ys) : c.stop hdr ≤ b.stop hdr := by
  cases xs with
  | nil =>
    have hend : b.stop hdr = hi := h.2
    rw [hend]
    exact h'.2.le
  | cons d xs =>
    have hd : d.free = false := by
      have hpair := (isChain_cons_cons.mp hco).1
      rw [hb] at hpair
      simpa using hpair
    have hmem : d ∈ ys := by
      rcases mem_cons.mp (hused d hd (by simp)) with rfl | hmem
      · rw [hc] at hd; cases hd
      · exact hmem
    rw [← h.2.1]
    exact (h'.2.bounds hmem).1

/-- Once every pair of free neighbours is merged, the used blocks determine the others. -/
theorem Tiles.eq_of_used (hpos : 0 < hdr) (h : Tiles hdr lo xs hi) (h' : Tiles hdr lo ys hi)
    (hx : Coalesced xs) (hy : Coalesced ys)
    (hused : ∀ d, d.free = false → (d ∈ xs ↔ d ∈ ys)) : xs = ys := by
  induction xs generalizing lo ys with
  | nil => exact (h'.nil_of_eq hpos h).symm
  | cons b xs ih =>
    cases ys with
    | nil => exact h.nil_of_eq hpos h'
    | cons c ys =>
      have haddr : b.addr = c.addr := h.1.trans h'.1.symm
      have hbc : b = c := by
        cases hb : b.free with
        | false => exact h'.addr_inj hpos ((hused b hb).mp (by simp)) (by simp) haddr
        | true =>
          cases hc : c.free with
          | false => exact h.addr_inj hpos (by simp) ((hused c hc).mpr (by simp)) haddr
          | true =>
            have hle := stop_le_of_used h h' hx hb hc fun d hd => (hused d hd).mp
            have hge := stop_le_of_used h' h hy hc hb fun d hd => (hused d hd).mpr
            obtain ⟨a, n, f⟩ := b
            obtain ⟨a', n', f'⟩ := c
            simp only [stop] at hle hge haddr hb hc
            have hsize : n = n' := by omega
            rw [haddr, hsize, hb, hc]
      subst hbc
      refine congrArg (b :: ·) (ih h.2 h'.2 hx.tail hy.tail fun d hd => ?_)
      have hne : ∀ {zs}, Tiles hdr (b.stop hdr) zs hi → d ∈ zs → d ≠ b := by
        rintro zs hz hmem rfl
        have hstop := (hz.bounds hmem).1
        unfold stop at hstop
        omega
      have hboth := hused d hd
      simp only [mem_cons] at hboth
      exact ⟨fun hm => (hboth.mp (.inr hm)).resolve_left (hne h.2 hm),
        fun hm => (hboth.mpr (.inr hm)).resolve_left (hne h'.2 hm)⟩

/-- What the blocks that are free, or those in use, have for their payloads together. -/
def total (f : Bool) (bs : List Block) : ℕ :=
  bs.foldr (fun b n => (if b.free = f then b.size else 0) + n) 0

@[simp] theorem total_cons (f : Bool) :
    total f (b :: bs) = (if b.free = f then b.size else 0) + total f bs := rfl

@[simp] theorem total_nil (f : Bool) : total f [] = 0 := rfl

@[simp] theorem total_append (f : Bool) : total f (xs ++ ys) = total f xs + total f ys := by
  induction xs with
  | nil => simp
  | cons b xs ih => simp [ih, Nat.add_assoc]

theorem Tiles.total_le (h : Tiles hdr lo bs hi) (f : Bool) : total f bs + lo ≤ hi := by
  induction bs generalizing lo with
  | nil => simpa using h.le
  | cons b bs ih =>
    have hrest := ih h.2
    have hstart := h.1
    rw [total_cons]
    unfold stop at hrest
    split <;> omega

/-! A settled tiling has the same used blocks as before. -/

theorem settle_used (hb : b.free) :
    (settle hdr pre b post).filter (!·.free) = (pre ++ post).filter (!·.free) := by
  unfold settle
  rcases absorbLeft_cases hdr pre b with ⟨xs, p, rfl, hp, he⟩ | ⟨-, he⟩
  · rcases absorbRight_cases hdr (p.join hdr b) post with ⟨q, qs, rfl, hq, hr⟩ | ⟨-, hr⟩
    · simp [he, hr, hp, hq]
    · simp [he, hr, hp]
  · rcases absorbRight_cases hdr b post with ⟨q, qs, rfl, hq, hr⟩ | ⟨-, hr⟩
    · simp [he, hr, hq]
    · simp [he, hr, hb]

theorem mem_settle_used {c} (hc : c.free = false) (hb : b.free) :
    c ∈ settle hdr pre b post ↔ c ∈ pre ∨ c ∈ post := by
  have hmem : ∀ l : List Block, c ∈ l ↔ c ∈ l.filter (!·.free) := by
    intro l
    simp [hc]
  rw [hmem, settle_used hb, ← hmem, mem_append]

theorem total_filter (f : Bool) : total f (bs.filter fun b => b.free == f) = total f bs := by
  induction bs with
  | nil => rfl
  | cons b bs ih => by_cases hb : b.free = f <;> simp [hb, ih]

theorem total_settle_used (hb : b.free) :
    total false (settle hdr pre b post) = total false pre + total false post := by
  have hused : ∀ l : List Block, total false (l.filter (!·.free)) = total false l := by
    intro l
    simpa using total_filter false
  rw [← hused, settle_used hb, hused, total_append]

/-- Following `next` from `p` through the cells `l` arrives at `q`. -/
def Segment (next : ℕ → ℕ) : ℕ → List ℕ → ℕ → Prop
  | p, [], q => p = q
  | p, a :: l, q => p = a ∧ a ≠ 0 ∧ Segment next (next a) l q

def Linked (next : ℕ → ℕ) (p : ℕ) (l : List ℕ) : Prop := Segment next p l 0

variable {next next' : ℕ → ℕ} {p q a : ℕ} {l r : List ℕ}

theorem segment_append : Segment next p (l ++ r) q ↔
    ∃ m, Segment next p l m ∧ Segment next m r q := by
  induction l generalizing p with
  | nil => simp [Segment]
  | cons a l ih =>
    simp only [cons_append, Segment, ih]
    constructor
    · rintro ⟨h, h0, m, hl, hr⟩; exact ⟨m, ⟨h, h0, hl⟩, hr⟩
    · rintro ⟨m, ⟨h, h0, hl⟩, hr⟩; exact ⟨h, h0, m, hl, hr⟩

theorem segment_concat : Segment next p (l ++ [a]) q ↔ Segment next p l a ∧ a ≠ 0 ∧ next a = q := by
  rw [segment_append]
  constructor
  · rintro ⟨m, hl, rfl, h0, hq⟩; exact ⟨hl, h0, hq⟩
  · rintro ⟨hl, h0, hq⟩; exact ⟨a, hl, rfl, h0, hq⟩

theorem Segment.congr (h : Segment next p l q) (he : ∀ a ∈ l, next' a = next a) :
    Segment next' p l q := by
  induction l generalizing p with
  | nil => exact h
  | cons a l ih =>
    refine ⟨h.1, h.2.1, ?_⟩
    rw [he a mem_cons_self]
    exact ih h.2.2 (fun b hb => he b (mem_cons_of_mem _ hb))

theorem Linked.unique (hl : Linked next p l) (hr : Linked next p r) : l = r := by
  induction l generalizing p r with
  | nil =>
    cases r with
    | nil => rfl
    | cons b r => exact absurd (hr.1.symm.trans hl) hr.2.1
  | cons a l ih =>
    cases r with
    | nil => exact absurd (hl.1.symm.trans hr) hl.2.1
    | cons b r =>
      obtain ⟨rfl, -, hl⟩ := hl
      obtain ⟨rfl, -, hr⟩ := hr
      rw [ih hl hr]

/-- The address of the last cell walked past, zero before the first. -/
def lastAddr (l : List ℕ) : ℕ := l.getLastD 0

@[simp] theorem lastAddr_nil : lastAddr [] = 0 := rfl

@[simp] theorem lastAddr_concat : lastAddr (l ++ [a]) = a := by simp [lastAddr]

end BlockTiling
