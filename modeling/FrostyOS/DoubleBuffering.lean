import FrostyOS.VGA
import Mathlib.Algebra.Group.Nat.Even

/-! # When double buffering is invisible

What differs is `ScrollText`, which always moves the text in the frame buffer, and
`SwapBuffers`, whose quadwords leave out the last of an odd number of pixels. -/
namespace BasicVGA

open WordCopy State Screen

variable (s : Screen)

def cursorNewLine (y : ℕ) : ℕ × ℕ := (0, if s.textHeight ≤ y + 16 then y else y + 16)

def cursorBack (x y : ℕ) : ℕ × ℕ := if x < 10 then (s.textWidth - 10, y - 16) else (x - 10, y)

def cursorAfter (x y : ℕ) : Call → ℕ × ℕ
  | .putc c =>
    if c = '\n'.toUInt8 then cursorNewLine s y
    else if ¬ isCharValid c then (x, y)
    else if s.textWidth ≤ x + 10 then cursorNewLine s y
    else (x + 10, y)
  | .newLine => cursorNewLine s y
  | .backspace => if x < 10 ∧ y < 16 then (x, y) else cursorBack s x y
  | .clearScreen _ => (x, y)

def writes (x y : ℕ) : Call → List (ℕ × UInt32)
  | .putc c =>
    if c = '\n'.toUInt8 then []
    else if ¬ isCharValid c then []
    else blockWrites s x y 16 8 (glyphColour s c)
  | .newLine => []
  | .backspace =>
    if x < 10 ∧ y < 16 then []
    else blockWrites s (cursorBack s x y).1 (cursorBack s x y).2 16 10 fun _ _ => s.bgcolour
  | .clearScreen colour => blockWrites s 0 0 s.height s.width fun _ _ => colour

/-- Whether a call reaches `ScrollText`: a new line, or a character at the end of a line, in
the last row of text. -/
def scrolls (x y : ℕ) : Call → Bool
  | .putc c =>
    if c = '\n'.toUInt8 then s.textHeight ≤ y + 16
    else isCharValid c && (s.textWidth ≤ x + 10 && s.textHeight ≤ y + 16)
  | .newLine => s.textHeight ≤ y + 16
  | .backspace | .clearScreen _ => false

theorem newLine_eq (v : State) :
    newLine s v = ⟨(cursorNewLine s v.y).1, (cursorNewLine s v.y).2,
        if s.textHeight ≤ v.y + 16 then scrollPixels s v.frameBuffer else v.frameBuffer,
        v.buffer, v.doubleBuffer⟩ := by
  rw [newLine, cursorNewLine]
  by_cases h : s.textHeight ≤ v.y + 16
  · simp only [if_pos h, scrollText, Nat.add_sub_cancel]
  · simp only [if_neg h]

/-- What a call does: it paints into the target, scrolls the frame buffer if it has to, and
moves the cursor. -/
theorem step_eq (v : State) (call : Call) :
    step s v call = ⟨(cursorAfter s v.x v.y call).1, (cursorAfter s v.x v.y call).2,
        if scrolls s v.x v.y call then
          scrollPixels s (v.setTarget (paint (writes s v.x v.y call) v.target)).frameBuffer
        else (v.setTarget (paint (writes s v.x v.y call) v.target)).frameBuffer,
        (v.setTarget (paint (writes s v.x v.y call) v.target)).buffer, v.doubleBuffer⟩ := by
  have hnothing : v.setTarget (paint [] v.target) = v := v.setTarget_self
  cases call with
  | putc c =>
    rw [step, putc, cursorAfter, writes, scrolls]
    by_cases hline : c = '\n'.toUInt8
    · rw [if_pos hline, if_pos hline, if_pos hline, if_pos hline, hnothing, newLine_eq]
      simp only [decide_eq_true_eq]
    rw [if_neg hline, if_neg hline, if_neg hline, if_neg hline]
    by_cases hvalid : isCharValid c = true
    · have hnot : ¬ ¬ isCharValid c := fun h => h hvalid
      rw [if_neg hnot, if_neg hnot, if_neg hnot, plotBlock_eq, hvalid]
      simp only [setTarget_x, Bool.true_and, Bool.and_eq_true, decide_eq_true_eq]
      by_cases hend : s.textWidth ≤ v.x + 10
      · rw [if_pos hend, if_pos hend, newLine_eq]
        simp only [setTarget_y, setTarget_doubleBuffer, hend, true_and]
      · simp only [hend, if_false, false_and, setTarget_y, setTarget_doubleBuffer]
    · rw [if_pos hvalid, if_pos hvalid, if_pos hvalid, hnothing]
      simp only [hvalid, Bool.false_and, Bool.false_eq_true, if_false]
  | newLine =>
    rw [step, writes, hnothing, newLine_eq, cursorAfter, scrolls]
    simp only [decide_eq_true_eq]
  | backspace =>
    rw [step, backspace, cursorAfter, writes, scrolls]
    by_cases hstart : v.x < 10 ∧ v.y < 16
    · rw [if_pos hstart, if_pos hstart, if_pos hstart, hnothing]
      rfl
    rw [if_neg hstart, if_neg hstart, if_neg hstart]
    have hback : (if v.x < 10 then { v with x := s.textWidth - 10, y := v.y - 16 }
        else { v with x := v.x - 10 }) =
          ⟨(cursorBack s v.x v.y).1, (cursorBack s v.x v.y).2, v.frameBuffer, v.buffer,
            v.doubleBuffer⟩ := by
      rw [cursorBack]
      split <;> rfl
    simp only [hback, plotBlock_eq, target_moved, setTarget_moved, Bool.false_eq_true, if_false]
  | clearScreen colour =>
    rw [step, clearScreen, plotBlock_eq, cursorAfter, writes, scrolls]
    simp only [Bool.false_eq_true, if_false]
    exact v.setTarget_moved v.x v.y _

structure Screen.OnScreen (x y : ℕ) : Prop where
  column : x % 10 = 0
  row : y % 16 = 0
  x_lt : x < s.textWidth
  y_lt : y < s.textHeight

theorem Screen.onScreen_origin : s.OnScreen 0 0 := by
  have hwidth := s.width_ge
  have hheight := s.height_ge
  refine ⟨rfl, rfl, ?_, ?_⟩
  · rw [textWidth]
    omega
  · rw [textHeight]
    omega

variable {s}

theorem Screen.OnScreen.newLine {x y : ℕ} (h : s.OnScreen x y) :
    s.OnScreen (cursorNewLine s y).1 (cursorNewLine s y).2 := by
  have hrow := h.row
  refine ⟨rfl, ?_, Nat.zero_lt_of_lt h.x_lt, ?_⟩
  · rw [cursorNewLine]
    simp only
    split <;> omega
  · rw [cursorNewLine]
    simp only
    split
    · exact h.y_lt
    · next hend => exact not_le.mp hend

theorem Screen.OnScreen.back {x y : ℕ} (h : s.OnScreen x y) :
    s.OnScreen (cursorBack s x y).1 (cursorBack s x y).2 := by
  obtain ⟨hcolumn, hrow, hx, hy⟩ := h
  rw [cursorBack]
  split
  · refine ⟨?_, ?_, ?_, ?_⟩
    · simp only [textWidth]
      omega
    · simp only
      omega
    · simp only
      omega
    · simp only
      omega
  · refine ⟨?_, hrow, ?_, hy⟩
    · simp only
      omega
    · simp only
      omega

theorem Screen.OnScreen.after {x y : ℕ} (h : s.OnScreen x y) (call : Call) :
    s.OnScreen (cursorAfter s x y call).1 (cursorAfter s x y call).2 := by
  cases call with
  | putc c =>
    rw [cursorAfter]
    by_cases hline : c = '\n'.toUInt8
    · rw [if_pos hline]
      exact h.newLine
    rw [if_neg hline]
    by_cases hvalid : ¬ isCharValid c = true
    · rw [if_pos hvalid]
      exact h
    rw [if_neg hvalid]
    by_cases hend : s.textWidth ≤ x + 10
    · rw [if_pos hend]
      exact h.newLine
    · have hcolumn := h.column
      rw [if_neg hend]
      exact ⟨by simp only; omega, h.row, not_le.mp hend, h.y_lt⟩
  | newLine => exact h.newLine
  | backspace =>
    rw [cursorAfter]
    split
    · exact h
    · exact h.back
  | clearScreen colour => exact h

/-- A block of text never covers the last pixel of an odd number of pixels: the height is odd,
so the last line of pixels is below the text. -/
theorem blockWrites_ne_last {x y columns : ℕ} (h : s.OnScreen x y) (hcolumns : columns ≤ 10)
    (hodd : ¬ Even (s.width * s.height)) (colour : ℕ → ℕ → UInt32) (w : ℕ × UInt32)
    (hw : w ∈ blockWrites s x y 16 columns colour) : w.1 ≠ s.width * s.height - 1 := by
  obtain ⟨cy, hcy, cx, hcx, rfl⟩ := mem_blockWrites.mp hw
  obtain ⟨hcolumn, hrow, hx, hy⟩ := h
  have hheight : y + cy + 2 ≤ s.height := by
    rw [Nat.even_mul, not_or, Nat.even_iff, Nat.even_iff] at hodd
    rw [textHeight] at hy
    omega
  have hwidth : x + cx < s.width := by
    rw [textWidth] at hx
    omega
  have hmul : s.width * (y + cy + 2) ≤ s.width * s.height := Nat.mul_le_mul_left _ hheight
  rw [mul_add] at hmul
  simp only
  omega

theorem paint_clear (colour : UInt32) (x y : ℕ) (pixels : Pixels) {i : ℕ}
    (hi : i < s.width * s.height) :
    paint (writes s x y (.clearScreen colour)) pixels i = colour := by
  have hpos : 0 < s.width := Nat.lt_of_lt_of_le (by decide) s.width_ge
  apply paint_of_colour
  · intro w hw
    obtain ⟨cy, _, cx, _, rfl⟩ := mem_blockWrites.mp hw
    rfl
  · refine ⟨(s.width * (0 + i / s.width) + (0 + i % s.width), colour), mem_blockWrites.mpr
      ⟨i / s.width, (Nat.div_lt_iff_lt_mul hpos).mpr (by rwa [mul_comm]), i % s.width,
        Nat.mod_lt _ hpos, rfl⟩, ?_⟩
    simp only [zero_add]
    exact Nat.div_add_mod i s.width

/-- The run with a second buffer and the run without one, as long as they show the same. -/
structure Alike (s : Screen) (double single : State) : Prop where
  double_on : double.doubleBuffer = true
  single_off : single.doubleBuffer = false
  x : double.x = single.x
  y : double.y = single.y
  onScreen : s.OnScreen single.x single.y
  pixels : ∀ i < s.width * s.height, double.buffer i = single.frameBuffer i
  unswapped : ∀ i, double.frameBuffer i = 0
  last : ¬ Even (s.width * s.height) → single.frameBuffer (s.width * s.height - 1) = 0

/-- The frame buffers are the same once the second buffer was swapped in. -/
def Shows (s : Screen) (double single : State) : Prop :=
  ∀ i < s.width * s.height, (swapBuffers s double).frameBuffer i = single.frameBuffer i

/-- What is on the screen when a call scrolls, its own character included, is no text; and a
screen of an odd number of pixels is cleared to blank only. -/
def Harmless (s : Screen) (v : State) (call : Call) : Prop := (scrolls s v.x v.y call = true →
    ∀ i < s.textPixels, paint (writes s v.x v.y call) v.frameBuffer i = 0) ∧
  ∀ colour, call = .clearScreen colour → colour = 0 ∨ Even (s.width * s.height)

theorem swapBuffers_apply {v} (h : v.doubleBuffer) (i : ℕ) :
    (swapBuffers s v).frameBuffer i =
      if i < 2 * (s.width * s.height / 2) then v.buffer i else v.frameBuffer i := by
  have hcount : s.getScreenSizeBytes / 8 = s.width * s.height / 2 := by
    rw [getScreenSizeBytes]
    omega
  rw [swapBuffers, if_pos h, hcount]
  simp only [copyWords_apply 2 _ 0 0 _ (apart_const v.buffer 0 0 _), Nat.zero_le, true_and,
    Nat.zero_add, Nat.sub_zero]

theorem Alike.shows {double single} (h : Alike s double single) :
    Shows s double single := by
  intro i hi
  rw [swapBuffers_apply h.double_on]
  split
  · exact h.pixels i hi
  next hlast =>
  have heven : ¬ Even (s.width * s.height) := fun he => by
    obtain ⟨k, hk⟩ := he
    omega
  have hi' : i = s.width * s.height - 1 := by omega
  rw [h.unswapped i, hi', h.last heven]

theorem scrollPixels_blank {pixels} (h : ∀ i, pixels i = 0) (i : ℕ) :
    scrollPixels s pixels i = 0 := by
  rw [scrollPixels_apply]
  split_ifs
  · exact h _
  · rfl
  · exact h i

theorem Screen.textPixels_le : s.textPixels ≤ s.width * s.height := by
  rw [textPixels, getAmountOfTextRows, mul_assoc]
  exact Nat.mul_le_mul_left _ (Nat.mul_div_le s.height 16)

theorem paint_last {x y : ℕ} (h : s.OnScreen x y) (hodd : ¬ Even (s.width * s.height))
    (call : Call) (pixels : Pixels) :
    paint (writes s x y call) pixels (s.width * s.height - 1) =
      match call with
      | .clearScreen colour => colour
      | .putc _ | .newLine | .backspace => pixels (s.width * s.height - 1) := by
  cases call with
  | putc c =>
    apply paint_of_not_mem
    intro w hw
    rw [writes] at hw
    split_ifs at hw
    · exact absurd hw List.not_mem_nil
    · exact blockWrites_ne_last h (by decide) hodd _ w hw
    · exact absurd hw List.not_mem_nil
  | newLine => rfl
  | backspace =>
    apply paint_of_not_mem
    intro w hw
    rw [writes] at hw
    split_ifs at hw
    · exact absurd hw List.not_mem_nil
    · exact blockWrites_ne_last h.back (by decide) hodd _ w hw
  | clearScreen colour =>
    apply paint_clear
    have hpos : 0 < s.width * s.height :=
      Nat.pos_of_ne_zero fun he => hodd (by rw [he]; exact Nat.even_iff.mpr rfl)
    omega

section Step

variable {double single : State} (h : Alike s double single) (call : Call)

/-- The pixels the run without a second buffer has painted, before it scrolls. -/
def State.painted (s : Screen) (v : State) (call : Call) : Pixels :=
  paint (writes s v.x v.y call) v.frameBuffer

include h

theorem Alike.step_double :
    step s double call =
      ⟨(cursorAfter s single.x single.y call).1, (cursorAfter s single.x single.y call).2,
        if scrolls s single.x single.y call then scrollPixels s double.frameBuffer
        else double.frameBuffer,
        paint (writes s single.x single.y call) double.buffer, true⟩ := by
  rw [step_eq, h.x, h.y, setTarget, target, h.double_on]
  rfl

theorem Alike.step_single :
    step s single call =
      ⟨(cursorAfter s single.x single.y call).1, (cursorAfter s single.x single.y call).2,
        if scrolls s single.x single.y call then scrollPixels s (single.painted s call)
        else single.painted s call,
        single.buffer, false⟩ := by
  rw [step_eq, setTarget, target, h.single_off]
  rfl

theorem Alike.painted_eq {i : ℕ} (hi : i < s.width * s.height) :
    paint (writes s single.x single.y call) double.buffer i = single.painted s call i :=
  paint_congr _ _ _ (h.pixels i hi)

theorem Alike.step_of_harmless (hcall : Harmless s single call) :
    Alike s (step s double call) (step s single call) := by
  have hshown : ∀ i, i < s.width * s.height → (step s single call).frameBuffer i =
      single.painted s call i := by
    intro i hi
    rw [h.step_single]
    by_cases hscroll : scrolls s single.x single.y call = true
    · have hblank := hcall.1 hscroll
      simp only [if_pos hscroll]
      by_cases htext : i < s.textPixels
      · exact (scrollPixels_eq_iff s _).mpr hblank i htext
      · rw [scrollPixels_apply, if_neg htext]
    · simp only [if_neg hscroll]
  refine ⟨?_, ?_, ?_, ?_, ?_, ?_, ?_, ?_⟩
  · rw [h.step_double]
  · rw [h.step_single]
  · rw [h.step_double, h.step_single]
  · rw [h.step_double, h.step_single]
  · rw [h.step_single]
    exact h.onScreen.after call
  · intro i hi
    rw [hshown i hi, h.step_double]
    exact h.painted_eq call hi
  · intro i
    rw [h.step_double]
    simp only
    split
    · exact scrollPixels_blank h.unswapped i
    · exact h.unswapped i
  · intro hodd
    have hpos : 0 < s.width * s.height :=
      Nat.pos_of_ne_zero fun he => hodd (by rw [he]; exact Nat.even_iff.mpr rfl)
    rw [hshown _ (by omega), painted, paint_last h.onScreen hodd]
    cases call with
    | clearScreen colour => exact (hcall.2 colour rfl).resolve_right hodd
    | putc c => exact h.last hodd
    | newLine => exact h.last hodd
    | backspace => exact h.last hodd

theorem Alike.harmless_of_shows (hshows : Shows s (step s double call) (step s single call)) :
    Harmless s single call := by
  have hdouble : (step s double call).doubleBuffer := by rw [h.step_double]
  constructor
  · intro hscroll
    apply (scrollPixels_eq_iff s _).mp
    intro i hi
    have heven : s.textPixels % 2 = 0 := by
      rw [textPixels, mul_assoc, Nat.mul_left_comm]
      omega
    have hle := s.textPixels_le
    have hswap := hshows i (by omega)
    rw [swapBuffers_apply hdouble, if_pos (by omega), h.step_double, h.step_single] at hswap
    simp only [if_pos hscroll] at hswap
    rw [h.painted_eq call (by omega)] at hswap
    exact hswap.symm
  · rintro colour rfl
    by_cases heven : Even (s.width * s.height)
    · exact .inr heven
    refine .inl ?_
    rw [Nat.even_iff] at heven
    have hswap := hshows (s.width * s.height - 1) (by omega)
    rw [swapBuffers_apply hdouble, if_neg (by omega), h.step_double, h.step_single] at hswap
    have hstill : ¬ scrolls s single.x single.y (.clearScreen colour) := Bool.false_ne_true
    simp only [if_neg hstill] at hswap
    rw [h.unswapped, painted, paint_clear colour _ _ _ (by omega)] at hswap
    exact hswap.symm

end Step

theorem start_alike (pages : Pixels) : Alike s (start s pages true) (start s pages false) := by
  refine ⟨rfl, rfl, rfl, rfl, s.onScreen_origin, fun i hi => ?_, fun _ => rfl, fun _ => rfl⟩
  have hsize : i < 0 + 2 * ((s.getScreenSizeBytes + 4095) / 4096 * 4096 / 8) := by
    rw [getScreenSizeBytes]
    omega
  exact (fillWords_apply 2 0 0 _ pages i).trans (if_pos ⟨Nat.zero_le i, hsize⟩)

def AllHarmless (s : Screen) : State → List Call → Prop
  | _, [] => True
  | v, call :: calls => Harmless s v call ∧ AllHarmless s (step s v call) calls

theorem Alike.run_iff {double single} (h : Alike s double single) (calls : List Call) :
    (∀ k, Shows s (run s double (calls.take k)) (run s single (calls.take k))) ↔
      AllHarmless s single calls := by
  induction calls generalizing double single with
  | nil =>
    refine ⟨fun _ => trivial, fun _ k => ?_⟩
    rw [List.take_nil]
    exact h.shows
  | cons call calls ih =>
    constructor
    · intro hshows
      have hcall : Harmless s single call := h.harmless_of_shows call (hshows 1)
      exact ⟨hcall, (ih (h.step_of_harmless call hcall)).mp fun k => hshows (k + 1)⟩
    · rintro ⟨hcall, hcalls⟩ k
      cases k with
      | zero => exact h.shows
      | succ k => exact (ih (h.step_of_harmless call hcall)).mpr hcalls k

/-- **Double buffering** is invisible throughout a run exactly when every call that scrolls
finds a blank text screen, and a screen of an odd number of pixels is never cleared to
another colour. -/
theorem double_buffering_invisible_iff (s : Screen) (pages : Pixels) (calls : List Call) :
    (∀ k, Shows s (run s (start s pages true) (calls.take k))
      (run s (start s pages false) (calls.take k))) ↔ AllHarmless s (start s pages false) calls :=
  (start_alike pages).run_iff calls

theorem smallest_width : 10 ≤ 10 := Nat.le_refl 10

theorem smallest_height : 16 ≤ 16 := Nat.le_refl 16

def smallestScreen : Screen := ⟨10, 16, 1, 0, smallest_width, smallest_height⟩

theorem odd_width : 10 ≤ 11 := Nat.le_succ 10

theorem odd_height : 16 ≤ 17 := Nat.le_succ 16

def oddScreen : Screen := ⟨11, 17, 1, 0, odd_width, odd_height⟩

/-- A white screen that is scrolled stays white behind the second buffer; and the last pixel
of the odd screen is not swapped in. -/
theorem scrolled_screen_differs :
    ¬ Shows smallestScreen
      (run smallestScreen (start smallestScreen blank true) [.clearScreen 1, .newLine])
      (run smallestScreen (start smallestScreen blank false) [.clearScreen 1, .newLine]) ∧
    ¬ Shows oddScreen (run oddScreen (start oddScreen blank true) [.clearScreen 1])
      (run oddScreen (start oddScreen blank false) [.clearScreen 1]) := by
  constructor
  · intro h
    exact absurd (h 0 (by decide)) (by decide +kernel)
  · intro h
    exact absurd (h 186 (by decide)) (by decide +kernel)

end BasicVGA
