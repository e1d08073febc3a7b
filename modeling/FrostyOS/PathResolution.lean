import FrostyOS.TempFileSystem
import Mathlib.Data.List.Nodup

/-! # Path resolution in one file system

The scanner against a walk over the pieces between the separators. The position of a walk
is an inode, or `none` for the root, which is no inode itself. -/
namespace TempFileSystem

open TempFileSystem.Tree List

variable {β : Type*} (fs : Tree β)

/-- What a position lists; nothing at an inode that is not a folder. -/
def Tree.entries : Option ℕ → List ℕ
  | none => fs.rootInodes
  | some x =>
    if (fs.inodes (fs.resolve x)).type = .folder then (fs.inodes (fs.resolve x)).children else []

def Tree.IsChild (p : Option ℕ) (name : Name) (y : ℕ) : Prop :=
  y ∈ fs.entries p ∧ (fs.inodes y).name = name

/-- No two entries of one place have one name. -/
def Tree.UniqueNames : Prop := ∀ p, ((fs.entries p).map fun y => (fs.inodes y).name).Nodup

def Regular (name : Name) : Prop := name ≠ [] ∧ name ≠ dot ∧ name ≠ dotDot

instance (name : Name) : Decidable (Regular name) := inferInstanceAs (Decidable (_ ∧ _))

inductive Tree.Walk : Option ℕ → List Name → Option ℕ → Prop where
  | done (p : Option ℕ) : Walk p [] p
  | ignore {p q : Option ℕ} {name : Name} {rest : List Name} (h : name = [] ∨ name = dot)
      (hw : Walk p rest q) : Walk p (name :: rest) q
  | up {x : ℕ} {q : Option ℕ} {rest : List Name}
      (hw : Walk (fs.getParent x) rest q) : Walk (some x) (dotDot :: rest) q
  | down {p q : Option ℕ} {name : Name} {y : ℕ} {rest : List Name} (h : Regular name)
      (hy : fs.IsChild p name y) (hw : Walk (some y) rest q) : Walk p (name :: rest) q

def pieces (path : Name) : List Name := path.splitOn pathSeparator

/-- The scanner gives an inode exactly when the walk over all pieces ends at it. -/
def Tree.FollowsPath (start : Option ℕ) (path : Name) : Prop :=
  ∀ x, (fs.getSubInode start path).inode = some x ↔ fs.Walk start (pieces path) (some x)

/-- The scanner on the pieces after the separator at `s`. -/
def Tree.scanPieces : List Name → ℤ → Option ℕ → SubInode
  | [], s, p => finish p (s + 1)
  | [w], s, p =>
    if w = [] then finish p (s + 1) else fs.lastComponent p w s (s + 1 + w.length)
  | w :: v :: ws, s, p =>
    if w = [] then scanPieces (v :: ws) (s + 1) p
    else match fs.enterComponent p w s (s + 1 + w.length) with
      | .error result => result
      | .ok q => scanPieces (v :: ws) (s + 1 + w.length) q

variable {x y : ℕ} {ws : List Name} {p q r : Option ℕ} {v w : Name}

theorem component_eq {path rest s} {i : ℕ} (hi : (i : ℤ) = s + 1 + w.length)
    (hdrop : path.drop (s + 1).toNat = w ++ rest) : component path s i = w := by
  have hlen : ((i : ℤ) - (s + 1)).toNat = w.length := by omega
  rw [component, hdrop, hlen, take_left]

theorem pending_iff {s} {i : ℕ} (hi : (i : ℤ) = s + 1 + w.length) :
    (s < i ∧ i - s > 1) ↔ ¬ w = [] := by
  rw [← length_eq_zero_iff]
  omega

/-- The loop, started in the middle of the piece that begins with `w`. -/
theorem Tree.scan_eq_scanPieces (path : Name) (rest w : Name) (i : ℕ) (s : ℤ) (p : Option ℕ)
    (hs : 0 ≤ s + 1) (hi : (i : ℤ) = s + 1 + w.length)
    (hdrop : path.drop (s + 1).toNat = w ++ rest) (hw : pathSeparator ∉ w) :
    fs.scan path rest i s p = fs.scanPieces (pieces (w ++ rest)) s p := by
  induction rest generalizing w i s p with
  | nil =>
    simp only [pieces, append_nil, splitOn_eq_singleton hw, scan,
      scanPieces, component_eq hi hdrop, pending_iff hi, ite_not]
    split
    case isTrue hnil =>
      subst hnil
      simp only [hi, length_nil, Int.natCast_zero, Int.add_zero]
    case isFalse => rw [hi]
  | cons c rest ih =>
    rw [scan]
    by_cases hc : c = pathSeparator
    · subst hc
      -- the piece `w` ends here and the next one starts behind the separator
      have hnext : ∀ q, fs.scan path rest (i + 1) i q = fs.scanPieces (pieces rest) i q := by
        intro q
        refine ih [] (i + 1) i q (by omega) (by simp) ?_ (by simp)
        have hi' : ((i : ℤ) + 1).toNat = (s + 1).toNat + (w.length + 1) := by omega
        rw [hi', ← drop_drop, hdrop]
        simp
      obtain ⟨v, ws, hpieces⟩ : ∃ v ws, pieces rest = v :: ws :=
        exists_cons_of_ne_nil (splitOn_ne_nil _ _)
      have hsplit : pieces (w ++ pathSeparator :: rest) = w :: v :: ws := by
        rw [← hpieces]
        exact splitOn_append_cons_self_of_not_mem hw rest
      simp only [hnext, hpieces, component_eq hi hdrop, hsplit, scanPieces, if_true,
        pending_iff hi, ite_not]
      split
      case isTrue hnil =>
        subst hnil
        simp only [hi, length_nil, Int.natCast_zero, Int.add_zero]
      case isFalse =>
        cases he : fs.enterComponent p w s (s + 1 + w.length) <;> simp only [hi, he]
    · have hi' : ((i + 1 : ℕ) : ℤ) = s + 1 + (w ++ [c]).length := by
        rw [length_append, length_singleton]
        omega
      rw [if_neg hc, ih (w ++ [c]) (i + 1) s p hs hi' (by simp [hdrop])
        (by simp [hw, Ne.symm hc])]
      simp

theorem Tree.getSubInode_eq (start : Option ℕ) (path : Name) :
    fs.getSubInode start path = fs.scanPieces (pieces path) (-1) start := by
  have hplain : fs.scan path path 0 (-1) start = fs.scanPieces (pieces path) (-1) start :=
    fs.scan_eq_scanPieces path path [] 0 (-1) start (by omega) rfl rfl (by simp)
  cases path with
  | nil => exact hplain
  | cons c rest =>
    rw [getSubInode]
    split
    case isFalse => exact hplain
    case isTrue hc =>
      subst hc
      rw [fs.scan_eq_scanPieces _ rest [] 1 0 start (by omega) rfl rfl not_mem_nil]
      obtain ⟨v, ws, hpieces⟩ : ∃ v ws, pieces rest = v :: ws :=
        exists_cons_of_ne_nil (splitOn_ne_nil _ _)
      have hsplit : pieces (pathSeparator :: rest) = [] :: v :: ws := by
        rw [← hpieces]
        exact splitOn_append_cons_self_of_not_mem (not_mem_nil (a := pathSeparator)) rest
      rw [hsplit, nil_append, hpieces, scanPieces, if_pos rfl]
      rfl

variable {fs}

namespace Tree

theorem walk_nil : fs.Walk p [] q ↔ q = p := by
  constructor
  · rintro ⟨⟩
    rfl
  · rintro rfl
    exact .done _

theorem walk_ignore (h : w = [] ∨ w = dot) : fs.Walk p [w] q ↔ q = p := by
  constructor
  · intro hw
    cases hw with
    | ignore _ hw => exact walk_nil.1 hw
    | up hw => exact absurd h (by decide)
    | down hr => rcases h with h | h <;> exact absurd h (by first | exact hr.1 | exact hr.2.1)
  · rintro rfl
    exact .ignore h (.done _)

theorem walk_up : fs.Walk (some x) [dotDot] q ↔ q = fs.getParent x := by
  constructor
  · intro hw
    cases hw with
    | ignore h => exact absurd h (by decide)
    | up hw => exact walk_nil.1 hw
    | down hr => exact absurd rfl hr.2.2
  · rintro rfl
    exact .up (.done _)

theorem not_walk_up_root : ¬ fs.Walk none [dotDot] q := by
  intro hw
  cases hw with
  | ignore h => exact absurd h (by decide)
  | down hr => exact absurd rfl hr.2.2

theorem walk_down (hr : Regular w) : fs.Walk p [w] q ↔ ∃ y, fs.IsChild p w y ∧ q = some y := by
  constructor
  · intro hw
    cases hw with
    | ignore h => rcases h with rfl | rfl <;> simp [Regular] at hr
    | up => simp [Regular] at hr
    | down _ hy hw => exact ⟨_, hy, walk_nil.1 hw⟩
  · rintro ⟨y, hy, rfl⟩
    exact .down hr hy (.done _)

theorem walk_cons : fs.Walk p (w :: ws) r ↔ ∃ q, fs.Walk p [w] q ∧ fs.Walk q ws r := by
  constructor
  · intro hw
    cases hw with
    | ignore h hw => exact ⟨p, .ignore h (.done _), hw⟩
    | up hw => exact ⟨_, .up (.done _), hw⟩
    | down hr hy hw => exact ⟨_, .down hr hy (.done _), hw⟩
  · rintro ⟨q, hq, hw⟩
    cases hq with
    | ignore h hq => exact .ignore h (walk_nil.1 hq ▸ hw)
    | up hq => exact .up (walk_nil.1 hq ▸ hw)
    | down hr hy hq => exact .down hr hy (walk_nil.1 hq ▸ hw)

end Tree

theorem piece_cases (w : Name) : (w = [] ∨ w = dot) ∨ w = dotDot ∨ Regular w := by
  by_cases h₁ : w = [] ∨ w = dot
  · exact .inl h₁
  · by_cases h₂ : w = dotDot
    · exact .inr (.inl h₂)
    · rw [not_or] at h₁
      exact .inr (.inr ⟨h₁.1, h₁.2, h₂⟩)

namespace Tree

theorem isChild_unique (hu : fs.UniqueNames) {z : ℕ} (hy : fs.IsChild p w y)
    (hz : fs.IsChild p w z) : y = z :=
  inj_on_of_nodup_map (hu p) hy.1 hz.1 (hy.2.trans hz.2.symm)

theorem walk_unique (hu : fs.UniqueNames) (hq : fs.Walk p [w] q) (hr : fs.Walk p [w] r) :
    q = r := by
  rcases piece_cases w with h | rfl | h
  · exact ((walk_ignore h).1 hq).trans ((walk_ignore h).1 hr).symm
  · cases p with
    | none => exact absurd hq not_walk_up_root
    | some x => exact (walk_up.1 hq).trans (walk_up.1 hr).symm
  · obtain ⟨y, hy, rfl⟩ := (walk_down h).1 hq
    obtain ⟨z, hz, rfl⟩ := (walk_down h).1 hr
    rw [isChild_unique hu hy hz]

theorem named_eq_some (hu : fs.UniqueNames) :
    fs.named (fs.entries p) w = some y ↔ fs.IsChild p w y := by
  constructor
  · intro h
    exact ⟨mem_of_find?_eq_some h, by simpa using find?_some h⟩
  · intro hy
    obtain ⟨z, hz⟩ : ∃ z, fs.named (fs.entries p) w = some z := by
      rw [← Option.isSome_iff_exists, named, find?_isSome]
      exact ⟨y, hy.1, by simpa using hy.2⟩
    have hchild : fs.IsChild p w z :=
      ⟨mem_of_find?_eq_some hz, by simpa using find?_some hz⟩
    rw [hz, isChild_unique hu hy hchild]

theorem named_eq_none (hu : fs.UniqueNames) :
    fs.named (fs.entries p) w = none ↔ ∀ y, ¬ fs.IsChild p w y := by
  rw [Option.eq_none_iff_forall_ne_some]
  exact forall_congr' fun y => not_congr (named_eq_some hu)

theorem getTMPFSChild_spec (x : ℕ) (w : Name) :
    (∃ status, fs.getTMPFSChild x w = .error status ∧ fs.named (fs.entries (some x)) w = none) ∨
      ∃ y, fs.getTMPFSChild x w = .ok y ∧ fs.named (fs.entries (some x)) w = some y := by
  simp only [getTMPFSChild, entries]
  by_cases hf : (fs.inodes (fs.resolve x)).type = .folder
  · simp only [hf, ne_eq, not_true_eq_false, if_false, if_true]
    cases h : fs.named _ w with
    | none => exact .inl ⟨_, rfl, rfl⟩
    | some y => exact .inr ⟨y, rfl, rfl⟩
  · simp only [hf, ne_eq, not_false_eq_true, if_true, if_false]
    exact .inl ⟨_, rfl, rfl⟩

/-- The walk that leaves out a name unknown at the root unless it is the last piece, and
takes the last piece as a name whatever it is. -/
inductive Stray (fs : Tree β) : Option ℕ → List Name → ℕ → Prop where
  | stop (x : ℕ) : Stray fs (some x) [[]] x
  | last {p : Option ℕ} {w : Name} {x : ℕ} (hw : w ≠ []) (hx : fs.IsChild p w x) :
      Stray fs p [w] x
  | step {p q : Option ℕ} {w v : Name} {ws : List Name} {x : ℕ} (hq : fs.Walk p [w] q)
      (hx : Stray fs q (v :: ws) x) : Stray fs p (w :: v :: ws) x
  | skip {w v : Name} {ws : List Name} {x : ℕ} (hw : Regular w)
      (hmiss : ∀ y, ¬ fs.IsChild none w y) (hx : Stray fs none (v :: ws) x) :
      Stray fs none (w :: v :: ws) x

theorem stray_cons :
    fs.Stray p (w :: v :: ws) x ↔ (∃ q, fs.Walk p [w] q ∧ fs.Stray q (v :: ws) x) ∨
      p = none ∧ Regular w ∧ (∀ y, ¬ fs.IsChild none w y) ∧ fs.Stray none (v :: ws) x := by
  constructor
  · intro h
    cases h with
    | step hq hx => exact .inl ⟨_, hq, hx⟩
    | skip hw hmiss hx => exact .inr ⟨rfl, hw, hmiss, hx⟩
  · rintro (⟨q, hq, hx⟩ | ⟨rfl, hw, hmiss, hx⟩)
    · exact .step hq hx
    · exact .skip hw hmiss hx

theorem walk_excludes_skip (hq : fs.Walk p [w] q) (hp : p = none) (hr : Regular w) :
    ¬ ∀ y, ¬ fs.IsChild none w y := by
  subst hp
  obtain ⟨y, hy, -⟩ := (walk_down hr).1 hq
  intro hmiss
  exact hmiss y hy

theorem walk_cons_of_walk (hu : fs.UniqueNames) (hq : fs.Walk p [w] q) :
    fs.Walk p (w :: ws) r ↔ fs.Walk q ws r := by
  rw [walk_cons]
  constructor
  · rintro ⟨q', hq', hw⟩
    exact walk_unique hu hq hq' ▸ hw
  · intro hw
    exact ⟨q, hq, hw⟩

theorem stray_cons_of_walk (hu : fs.UniqueNames) (hq : fs.Walk p [w] q) :
    fs.Stray p (w :: v :: ws) x ↔ fs.Stray q (v :: ws) x := by
  rw [stray_cons]
  constructor
  · rintro (⟨q', hq', hx⟩ | ⟨hp, hr, hmiss, -⟩)
    · exact walk_unique hu hq hq' ▸ hx
    · exact absurd hmiss (walk_excludes_skip hq hp hr)
  · intro hx
    exact .inl ⟨q, hq, hx⟩

theorem stray_singleton : fs.Stray p [w] x ↔ if w = [] then p = some x else fs.IsChild p w x := by
  constructor
  · intro h
    cases h with
    | stop => rw [if_pos rfl]
    | last hw hx => rwa [if_neg hw]
  · intro h
    split at h
    case isTrue hw =>
      subst hw h
      exact .stop x
    case isFalse hw => exact .last hw h

theorem enterComponent_spec (hu : fs.UniqueNames) (p : Option ℕ) (hw : w ≠ []) (s i : ℤ) :
    (∃ q, fs.enterComponent p w s i = .ok q ∧ fs.Walk p [w] q) ∨
    (fs.enterComponent p w s i = .ok none ∧ p = none ∧ Regular w ∧ ∀ y, ¬ fs.IsChild none w y) ∨
    ∃ e, fs.enterComponent p w s i = .error e ∧ e.inode = none ∧ (∀ q, ¬ fs.Walk p [w] q) ∧
      ¬ (p = none ∧ Regular w) := by
  rcases piece_cases w with h | rfl | h
  · have hdot : w = dot := h.resolve_left hw
    subst hdot
    cases p <;> exact .inl ⟨_, rfl, .ignore (.inr rfl) (.done _)⟩
  · cases p with
    | none =>
      refine .inr (.inr ⟨_, rfl, rfl, fun q => not_walk_up_root, ?_⟩)
      exact fun hr => hr.2.2.2 rfl
    | some x => exact .inl ⟨_, rfl, .up (.done _)⟩
  · cases p with
    | none =>
      simp only [enterComponent, if_neg h.2.1, if_neg h.2.2]
      cases hy : fs.named fs.rootInodes w with
      | none => exact .inr (.inl ⟨rfl, trivial, h, (named_eq_none hu (p := none)).1 hy⟩)
      | some y =>
        have hchild := (named_eq_some hu (p := none)).1 hy
        exact .inl ⟨_, rfl, .down h hchild (.done _)⟩
    | some x =>
      simp only [enterComponent, if_neg h.2.1, if_neg h.2.2]
      rcases fs.getTMPFSChild_spec x w with ⟨status, hget, hy⟩ | ⟨y, hget, hy⟩
      · refine .inr (.inr ⟨_, by rw [hget], rfl, ?_, by simp⟩)
        intro q hq
        obtain ⟨y, hchild, -⟩ := (walk_down h).1 hq
        exact (named_eq_none hu).1 hy y hchild
      · exact .inl ⟨some y, by rw [hget], .down h ((named_eq_some hu).1 hy) (.done _)⟩

theorem lastComponent_inode (hu : fs.UniqueNames) (p : Option ℕ) (w : Name) (s i : ℤ)
    (x : ℕ) : (fs.lastComponent p w s i).inode = some x ↔ fs.IsChild p w x := by
  cases p with
  | none => exact named_eq_some hu (p := none)
  | some z =>
    rw [← named_eq_some hu]
    rcases fs.getTMPFSChild_spec z w with ⟨status, hget, hy⟩ | ⟨y, hget, hy⟩
    · simp [lastComponent, hget, hy]
    · simp [lastComponent, hget, hy, finish]

theorem scanPieces_inode (hu : fs.UniqueNames) (ws : List Name) (hws : ws ≠ []) (s : ℤ)
    (p : Option ℕ) (x : ℕ) : (fs.scanPieces ws s p).inode = some x ↔ fs.Stray p ws x := by
  induction ws generalizing s p with
  | nil => exact absurd rfl hws
  | cons w ws ih =>
    cases ws with
    | nil =>
      rw [stray_singleton, scanPieces]
      split
      case isTrue => rfl
      case isFalse => exact lastComponent_inode hu p w _ _ x
    | cons v ws =>
      have hrest := fun s q => ih (by simp) s q
      rw [stray_cons, scanPieces]
      split
      case isTrue hw =>
        have hskip : ¬ Regular w := fun h => h.1 hw
        simp [walk_ignore (.inl hw), hrest, hskip]
      case isFalse hw =>
        rcases fs.enterComponent_spec hu p hw s (s + 1 + w.length) with
          ⟨q, henter, hq⟩ | ⟨henter, rfl, hr, hmiss⟩ | ⟨e, henter, he, hnone, hstuck⟩
        · rw [← stray_cons, stray_cons_of_walk hu hq]
          simp only [henter, hrest]
        · simp only [henter, hrest]
          constructor
          · intro hx
            exact .inr ⟨trivial, hr, hmiss, hx⟩
          · rintro (⟨q, hq, -⟩ | ⟨-, -, -, hx⟩)
            · obtain ⟨y, hy, -⟩ := (walk_down hr).1 hq
              exact absurd hy (hmiss y)
            · exact hx
        · simp only [henter, he, hnone, false_and, exists_false, false_or]
          constructor
          · rintro ⟨⟩
          · rintro ⟨hp, hr, -⟩
            exact absurd ⟨hp, hr⟩ hstuck

theorem scanPieces_ignore (h : w = [] ∨ w = dot) (s : ℤ) (p : Option ℕ) :
    fs.scanPieces (w :: v :: ws) s p = fs.scanPieces (v :: ws) (s + 1 + w.length) p := by
  rcases h with rfl | rfl
  · rw [scanPieces, if_pos rfl, length_nil, Int.natCast_zero, Int.add_zero]
  · cases p <;> rfl

theorem scanPieces_down (hu : fs.UniqueNames) (hr : Regular w) (s : ℤ) (hy : fs.IsChild p w y) :
    fs.scanPieces (w :: v :: ws) s p = fs.scanPieces (v :: ws) (s + 1 + w.length) (some y) := by
  rw [scanPieces, if_neg hr.1]
  rcases fs.enterComponent_spec hu p hr.1 s (s + 1 + w.length) with
    ⟨q, henter, hq⟩ | ⟨-, rfl, -, hmiss⟩ | ⟨e, -, -, hnone, -⟩
  · rw [henter, walk_unique hu hq (.down hr hy (.done _))]
  · exact absurd hy (hmiss y)
  · exact absurd (.down hr hy (.done _)) (hnone (some y))

theorem scanPieces_stop (hu : fs.UniqueNames) (ws : List Name) (hr : Regular w) (s : ℤ)
    (hmiss : ∀ y, ¬ fs.IsChild (some x) w y) :
    ∃ status, fs.scanPieces (w :: ws) s (some x) = ⟨none, some x, s, some status⟩ := by
  obtain ⟨status, hget⟩ : ∃ status, fs.getTMPFSChild x w = .error status := by
    rcases fs.getTMPFSChild_spec x w with ⟨status, hget, -⟩ | ⟨y, -, hy⟩
    · exact ⟨status, hget⟩
    · exact absurd ((named_eq_some hu).1 hy) (hmiss y)
  refine ⟨status, ?_⟩
  cases ws with
  | nil => simp only [scanPieces, if_neg hr.1, lastComponent, hget]
  | cons v ws =>
    simp only [scanPieces, if_neg hr.1, enterComponent, if_neg hr.2.1, if_neg hr.2.2, hget]

/-- Pieces that leave the scanner at the root. -/
def Skippable (fs : Tree β) (us : List Name) : Prop :=
  ∀ u ∈ us, (u = [] ∨ u = dot) ∨ Regular u ∧ ∀ y, ¬ fs.IsChild none u y

end Tree

def width : List Name → ℕ
  | [] => 0
  | u :: us => u.length + 1 + width us

theorem Tree.scanPieces_skip (hu : fs.UniqueNames) {us} (hus : fs.Skippable us) (w : Name)
    (ws : List Name) (s : ℤ) :
    fs.scanPieces (us ++ w :: ws) s none = fs.scanPieces (w :: ws) (s + width us) none := by
  induction us generalizing s with
  | nil => simp [width]
  | cons u us ih =>
    have hrest : fs.scanPieces (u :: (us ++ w :: ws)) s none =
        fs.scanPieces (us ++ w :: ws) (s + 1 + u.length) none := by
      obtain ⟨v, vs, hvs⟩ : ∃ v vs, us ++ w :: ws = v :: vs := exists_cons_of_ne_nil (by simp)
      rw [hvs]
      rcases hus u mem_cons_self with h | ⟨hr, hmiss⟩
      · exact scanPieces_ignore h s none
      · have henter : fs.named fs.rootInodes u = none := (named_eq_none hu (p := none)).2 hmiss
        simp only [scanPieces, if_neg hr.1, enterComponent, if_neg hr.2.1, if_neg hr.2.2, henter]
    rw [cons_append, hrest, ih (fun v hv => hus v (mem_cons_of_mem u hv))]
    congr 1
    simp only [width]
    omega

/-- After a name unknown at the root nothing more is found, and a last piece `.` or `..`
names nothing but what the walk comes to. -/
def Tree.NoStray (fs : Tree β) : List Name → Option ℕ → Prop
  | [], _ => True
  | [w], p => w = dot ∨ w = dotDot → ∀ x, fs.IsChild p w x ↔ fs.Walk p [w] (some x)
  | w :: v :: ws, p =>
    (∀ q, fs.Walk p [w] q → NoStray fs (v :: ws) q) ∧
      (p = none → Regular w → (∀ y, ¬ fs.IsChild none w y) → ∀ x, ¬ fs.Stray none (v :: ws) x)

theorem Tree.noStray_iff (hu : fs.UniqueNames) (ws : List Name) (hws : ws ≠ []) (p : Option ℕ) :
    (∀ x, fs.Stray p ws x ↔ fs.Walk p ws (some x)) ↔ fs.NoStray ws p := by
  induction ws generalizing p with
  | nil => exact absurd rfl hws
  | cons w ws ih =>
    cases ws with
    | nil =>
      simp only [stray_singleton, NoStray]
      rcases piece_cases w with (rfl | rfl) | rfl | h
      · have hnil : ¬ (([] : Name) = dot ∨ ([] : Name) = dotDot) := by decide
        simp only [walk_ignore (.inl rfl), if_true, hnil, false_imp_iff, iff_true]
        intro x
        exact eq_comm
      · simp [dot]
      · simp [dotDot]
      · simp [walk_down h, h.1, h.2.1, h.2.2]
    | cons v ws =>
      rw [NoStray]
      by_cases hfound : ∃ q, fs.Walk p [w] q
      · -- the piece is found: both walks go on from the same position
        obtain ⟨q, hq⟩ := hfound
        have hwalk : ∀ r, fs.Walk p (w :: v :: ws) r ↔ fs.Walk q (v :: ws) r :=
          fun r => walk_cons_of_walk hu hq
        simp only [stray_cons_of_walk hu hq, hwalk]
        rw [ih (by simp) q]
        constructor
        · intro hn
          exact ⟨fun r hr => walk_unique hu hq hr ▸ hn,
            fun hp hr hmiss => absurd hmiss (walk_excludes_skip hq hp hr)⟩
        · intro hn
          exact hn.1 q hq
      · -- the walk ends here, the scanner goes on if it stands at the root
        rw [not_exists] at hfound
        have hwalk : ∀ r, ¬ fs.Walk p (w :: v :: ws) r := by
          intro r hr
          obtain ⟨q, hq, -⟩ := walk_cons.1 hr
          exact hfound q hq
        simp only [stray_cons, hwalk, hfound, false_and, exists_false, false_or, iff_false,
          false_imp_iff, implies_true, true_and]
        constructor
        · intro hnone hp hr hmiss x hx
          exact hnone x ⟨hp, hr, hmiss, hx⟩
        · rintro hnone x ⟨hp, hr, hmiss, hx⟩
          exact hnone hp hr hmiss x hx

theorem Tree.followsPath_iff (hu : fs.UniqueNames) (start : Option ℕ) (path : Name) :
    fs.FollowsPath start path ↔ fs.NoStray (pieces path) start := by
  rw [← noStray_iff hu (pieces path) (splitOn_ne_nil _ _)]
  refine forall_congr' fun x => ?_
  rw [getSubInode_eq, scanPieces_inode hu (pieces path) (splitOn_ne_nil _ _)]

def sampleInodes : ℕ → Inode Unit
  | 0 => ⟨['a'], .folder, none, [1], ⟨0, 0, 0⟩, ()⟩
  | _ => ⟨['b'], .file, some 0, [], ⟨0, 0, 0⟩, ()⟩

theorem sampleInodes_type (a : ℕ) : (sampleInodes a).type ≠ .symLink := by
  cases a <;> rintro ⟨⟩

def sampleTree : Tree Unit where
  inodes := sampleInodes
  rootInodes := [0]
  rootPrivilege := ⟨0, 0, 0⟩
  linkDepth := fun _ => 0
  link_lt := fun a h => absurd h (sampleInodes_type a)

theorem sampleTree_uniqueNames : sampleTree.UniqueNames := by
  rintro (_ | _ | x)
  · decide
  · decide
  · exact nodup_nil

theorem followsPath_sampleTree :
    sampleTree.UniqueNames ∧ sampleTree.FollowsPath none "a/b".toList := by
  refine ⟨sampleTree_uniqueNames,
    (followsPath_iff sampleTree_uniqueNames none "a/b".toList).2 ⟨?_, ?_⟩⟩
  · intro q _ h
    exact absurd h (by decide)
  · intro _ _ hmiss
    exact absurd ⟨by decide, rfl⟩ (hmiss 0)

/-- The scanner comes from `missing/a` to `a`, and from `a/.` to nothing. -/
theorem sampleTree_strays : sampleTree.UniqueNames ∧
    ¬ sampleTree.FollowsPath none "missing/a".toList ∧
    ¬ sampleTree.FollowsPath none "a/.".toList := by
  refine ⟨sampleTree_uniqueNames, ?_, ?_⟩
  · intro h
    have hw := (h 0).1 (by decide)
    obtain ⟨q, hq, -⟩ := walk_cons.1 hw
    obtain ⟨y, ⟨hy, hname⟩, -⟩ := (walk_down (by decide)).1 hq
    have hy0 : y = 0 := by simpa [entries, sampleTree] using hy
    subst hy0
    exact absurd hname (by decide)
  · intro h
    have hw : sampleTree.Walk none (pieces "a/.".toList) (some 0) :=
      .down (by decide) ⟨by decide, rfl⟩ (.ignore (.inr rfl) (.done _))
    have hget := (h 0).2 hw
    exact absurd hget (by decide)

end TempFileSystem
