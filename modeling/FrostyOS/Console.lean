import FrostyOS.DoubleBuffering
import Mathlib.Tactic.Ring

/-! # The console stays on the screen

`TTY::putc` over a `BasicVGA`: which pixels it plots and which bytes a scroll touches. -/

namespace BasicVGA

open List Screen

/-- The calls of `TTY::putc` for a character, apart from those that set the cursor. -/
def ttyCalls (background : UInt32) (c : UInt8) : List Call :=
  if c = 8 then [.backspace]
  else if c = 7 then []
  else if c = '\n'.toUInt8 ∨ c = 11 then [.newLine]
  else if c = '\t'.toUInt8 then replicate 4 (.putc ' '.toUInt8)
  else if c = '\r'.toUInt8 then []
  else if c = 12 then [.clearScreen background]
  else [.putc c]

def ttyPutc (s : Screen) (background : UInt32) (v : State) (c : UInt8) : State :=
  let called := run s v (ttyCalls background c)
  if c = '\r'.toUInt8 then { called with x := 0 }
  else if c = 12 then { called with x := 0, y := 0 }
  else called

section Plots

variable (s : Screen)

def blockPlots (x y rows columns : ℕ) : List (ℕ × ℕ) :=
  (range rows).flatMap fun cy => (range columns).map fun cx => (x + cx, y + cy)

/-- The coordinates of the `PlotPixel` calls. -/
def plots (x y : ℕ) : Call → List (ℕ × ℕ)
  | .putc c =>
    if c = '\n'.toUInt8 then [] else if ¬ isCharValid c then [] else blockPlots x y 16 8
  | .newLine => []
  | .backspace =>
    if x < 10 ∧ y < 16 then [] else blockPlots (cursorBack s x y).1 (cursorBack s x y).2 16 10
  | .clearScreen _ => blockPlots 0 0 s.height s.width

/-- The byte ranges of the frame buffer that `ScrollText` reads and writes, each with its
start and its length. -/
def scrollRanges : List (ℕ × ℕ) :=
  ((range (s.getAmountOfTextRows - 1)).flatMap fun k =>
    let y := 16 + 16 * k
    [((y - 16) * 4 * s.width, 4 * s.width * 16), (y * 4 * s.width, 4 * s.width * 16)]) ++
    [(4 * s.width * 16 * (s.getAmountOfTextRows - 1), 4 * s.width * 16 / 8 * 8)]

theorem map_blockPlots (x y rows columns : ℕ) (colour : ℕ → ℕ → UInt32) :
    (blockPlots x y rows columns).map (fun p => s.width * p.2 + p.1) =
      (blockWrites s x y rows columns colour).map Prod.fst := by
  simp only [blockPlots, blockWrites, map_flatMap, map_map]
  rfl

/-- The pixels that are written are those that are plotted. -/
theorem map_plots (x y : ℕ) (call : Call) :
    (plots s x y call).map (fun p => s.width * p.2 + p.1) = (writes s x y call).map Prod.fst := by
  cases call with
  | putc c =>
    rw [plots, writes]
    split_ifs
    · rfl
    · exact map_blockPlots s _ _ _ _ _
    · rfl
  | newLine => rfl
  | backspace =>
    rw [plots, writes]
    split
    · rfl
    · exact map_blockPlots s _ _ _ _ _
  | clearScreen colour => exact map_blockPlots s _ _ _ _ _

end Plots

variable {s : Screen} {x y : ℕ}

theorem mem_blockPlots {rows columns : ℕ} {p} (hp : p ∈ blockPlots x y rows columns) :
    p.1 < x + columns ∧ p.2 < y + rows := by
  obtain ⟨cy, hcy, hp⟩ := mem_flatMap.mp hp
  obtain ⟨cx, hcx, rfl⟩ := mem_map.mp hp
  have := mem_range.mp hcy
  have := mem_range.mp hcx
  exact ⟨by simp only; omega, by simp only; omega⟩

theorem Screen.OnScreen.bounds (h : s.OnScreen x y) :
    x + 10 ≤ 10 * (s.width / 10) ∧ y + 16 ≤ 16 * (s.height / 16) := by
  obtain ⟨hcolumn, hrow, hx, hy⟩ := h
  rw [textWidth] at hx
  rw [textHeight] at hy
  omega

theorem Screen.OnScreen.plots (h : s.OnScreen x y) (call : Call) (p : ℕ × ℕ)
    (hp : p ∈ plots s x y call) : p.1 < s.width ∧ p.2 < s.height := by
  have block : ∀ {x y columns}, s.OnScreen x y → columns ≤ 10 → p ∈ blockPlots x y 16 columns →
      p.1 < s.width ∧ p.2 < s.height := by
    intro x y columns hon hcolumns hmem
    have := hon.bounds
    have := mem_blockPlots hmem
    omega
  cases call with
  | putc c =>
    rw [BasicVGA.plots] at hp
    split_ifs at hp
    · cases hp
    · exact block h (by decide) hp
    · cases hp
  | newLine => cases hp
  | backspace =>
    rw [BasicVGA.plots] at hp
    split_ifs at hp
    · cases hp
    · exact block h.back (by decide) hp
  | clearScreen colour =>
    have := mem_blockPlots hp
    omega

theorem Screen.OnScreen.run {v} (h : s.OnScreen v.x v.y) (calls : List Call) :
    s.OnScreen (run s v calls).x (run s v calls).y := by
  induction calls generalizing v with
  | nil => exact h
  | cons call calls ih =>
    apply ih
    rw [step_eq]
    exact h.after call

theorem Screen.OnScreen.ttyPutc {v} (h : s.OnScreen v.x v.y) (background : UInt32) (c : UInt8) :
    s.OnScreen (ttyPutc s background v c).x (ttyPutc s background v c).y := by
  have hcalled := h.run (ttyCalls background c)
  rw [BasicVGA.ttyPutc]
  split_ifs
  · exact ⟨rfl, hcalled.row, Nat.zero_lt_of_lt hcalled.x_lt, hcalled.y_lt⟩
  · exact s.onScreen_origin
  · exact hcalled

theorem scrollRanges_inside (r : ℕ × ℕ) (hr : r ∈ scrollRanges s) :
    r.1 + r.2 ≤ s.width * s.height * 4 := by
  have hrow : ∀ k < s.getAmountOfTextRows, 4 * s.width * 16 * k + 4 * s.width * 16 ≤
      s.width * s.height * 4 := by
    intro k hk
    have hlines : 16 * (k + 1) ≤ s.height := by
      rw [getAmountOfTextRows] at hk
      omega
    calc 4 * s.width * 16 * k + 4 * s.width * 16 = s.width * (16 * (k + 1)) * 4 := by ring
      _ ≤ s.width * s.height * 4 := Nat.mul_le_mul_right 4 (Nat.mul_le_mul_left _ hlines)
  have hrows := s.textRows_pos
  rcases mem_append.mp hr with hr | hr
  · obtain ⟨k, hk, hr⟩ := mem_flatMap.mp hr
    have hk := mem_range.mp hk
    simp only [Nat.add_sub_cancel_left] at hr
    rcases mem_cons.mp hr with rfl | hr
    · refine le_trans (Nat.le_of_eq ?_) (hrow k (by omega))
      ring
    · rw [mem_singleton.mp hr]
      refine le_trans (Nat.le_of_eq ?_) (hrow (k + 1) (by omega))
      ring
  · rw [mem_singleton.mp hr]
    have := hrow (s.getAmountOfTextRows - 1) (by omega)
    simp only
    omega

/-- **The console stays on the screen**: after any text, and before each call that the next
character leads to, the cursor is on the screen and so are the pixels that the call plots; a
scroll touches bytes of the frame buffer only. -/
theorem console_on_screen (s : Screen) (pages : Pixels) (doubleBuffer : Bool)
    (background : UInt32) (text : List UInt8) :
    let v := text.foldl (ttyPutc s background) (start s pages doubleBuffer)
    (∀ c before after, ttyCalls background c = before ++ after →
      let w := run s v before
      (w.x + 10 ≤ 10 * (s.width / 10) ∧ w.y + 16 ≤ 16 * (s.height / 16)) ∧
        ∀ call ∈ after.head?, ∀ p ∈ plots s w.x w.y call, p.1 < s.width ∧ p.2 < s.height) ∧
      ∀ r ∈ scrollRanges s, r.1 + r.2 ≤ s.width * s.height * 4 := by
  intro v
  have hv : s.OnScreen v.x v.y := by
    suffices h : ∀ w : State, s.OnScreen w.x w.y →
        s.OnScreen (text.foldl (ttyPutc s background) w).x
          (text.foldl (ttyPutc s background) w).y from h _ s.onScreen_origin
    induction text with
    | nil => exact fun w hw => hw
    | cons c text ih => exact fun w hw => ih _ (hw.ttyPutc background c)
  refine ⟨?_, scrollRanges_inside⟩
  intro c before after _
  exact ⟨(hv.run before).bounds, fun call _ => (hv.run before).plots call⟩

end BasicVGA
