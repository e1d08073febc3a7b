import FrostyOS.WordCopy
import Mathlib.Algebra.Ring.Nat
import Mathlib.Data.List.Basic

/-! # Text on a 32-bit screen: `BasicVGA`

A pixel is a 32-bit value and buffers are addressed by pixel, `width * y + x`. The loops over
quadwords handle two pixels at a time. A colour is its rendered value. -/
namespace BasicVGA

open WordCopy List Function

def letters : List (List UInt8) :=
  [[0,0,0,0,0,0,0,0,0,0,0,0,0,0,0,0],
   [0,0,0x18,0x18,0,0,0x18,0x18,0x18,0x18,0x18,0x18,0x18,0,0,0],
   [0,0,0,0,0,0,0,0,0,0x36,0x36,0x36,0x36,0,0,0],
   [0,0,0,0x66,0x66,0xff,0x66,0x66,0xff,0x66,0x66,0,0,0,0,0],
   [0,0,0x18,0x7e,0xff,0x1b,0x1f,0x7e,0xf8,0xd8,0xff,0x7e,0x18,0,0,0],
   [0,0,0x0e,0x1b,0xdb,0x6e,0x30,0x18,0x0c,0x76,0xdb,0xd8,0x70,0,0,0],
   [0,0,0x7f,0xc6,0xcf,0xd8,0x70,0x70,0xd8,0xcc,0xcc,0x6c,0x38,0,0,0],
   [0,0,0,0,0,0,0,0,0,0x18,0x1c,0x0c,0x0e,0,0,0],
   [0,0,0x0c,0x18,0x30,0x30,0x30,0x30,0x30,0x30,0x30,0x18,0x0c,0,0,0],
   [0,0,0x30,0x18,0x0c,0x0c,0x0c,0x0c,0x0c,0x0c,0x0c,0x18,0x30,0,0,0],
   [0,0,0,0,0,0,0,0,0xc3,0x66,0x18,0x3c,0xff,0x18,0x18,0],
   [0,0,0,0x18,0x18,0x18,0xff,0xff,0x18,0x18,0x18,0,0,0,0,0],
   [0,0,0x30,0x18,0x1c,0x1c,0,0,0,0,0,0,0,0,0,0],
   [0,0,0,0,0,0,0xff,0xff,0,0,0,0,0,0,0,0],
   [0,0,0,0x38,0x38,0,0,0,0,0,0,0,0,0,0,0],
   [0,0x60,0x60,0x30,0x30,0x18,0x18,0x0c,0x0c,0x06,0x06,0x03,0x03,0,0,0],
   [0,0,0x3c,0x66,0xc3,0xe3,0xf3,0xdb,0xcf,0xc7,0xc3,0x66,0x3c,0,0,0],
   [0,0,0x7e,0x18,0x18,0x18,0x18,0x18,0x18,0x18,0x78,0x38,0x18,0,0,0],
   [0,0,0xff,0xc0,0xc0,0x60,0x30,0x18,0x0c,0x06,0x03,0xe7,0x7e,0,0,0],
   [0,0,0x7e,0xe7,0x03,0x03,0x07,0x7e,0x07,0x03,0x03,0xe7,0x7e,0,0,0],
   [0,0,0x0c,0x0c,0x0c,0x0c,0x0c,0xff,0xcc,0x6c,0x3c,0x1c,0x0c,0,0,0],
   [0,0,0x7e,0xe7,0x03,0x03,0x07,0xfe,0xc0,0xc0,0xc0,0xc0,0xff,0,0,0],
   [0,0,0x7e,0xe7,0xc3,0xc3,0xc7,0xfe,0xc0,0xc0,0xc0,0xe7,0x7e,0,0,0],
   [0,0,0x30,0x30,0x30,0x30,0x18,0x0c,0x06,0x03,0x03,0x03,0xff,0,0,0],
   [0,0,0x7e,0xe7,0xc3,0xc3,0xe7,0x7e,0xe7,0xc3,0xc3,0xe7,0x7e,0,0,0],
   [0,0,0x7e,0xe7,0x03,0x03,0x03,0x7f,0xe7,0xc3,0xc3,0xe7,0x7e,0,0,0],
   [0,0,0,0x38,0x38,0,0,0x38,0x38,0,0,0,0,0,0,0],
   [0,0,0x30,0x18,0x1c,0x1c,0,0,0x1c,0x1c,0,0,0,0,0,0],
   [0,0,0x06,0x0c,0x18,0x30,0x60,0xc0,0x60,0x30,0x18,0x0c,0x06,0,0,0],
   [0,0,0,0,0xff,0xff,0,0xff,0xff,0,0,0,0,0,0,0],
   [0,0,0x60,0x30,0x18,0x0c,0x06,0x03,0x06,0x0c,0x18,0x30,0x60,0,0,0],
   [0,0,0x18,0,0,0x18,0x18,0x0c,0x06,0x03,0xc3,0xc3,0x7e,0,0,0],
   [0,0,0x3f,0x60,0xcf,0xdb,0xd3,0xdd,0xc3,0x7e,0,0,0,0,0,0],
   [0,0,0xc3,0xc3,0xc3,0xc3,0xff,0xc3,0xc3,0xc3,0x66,0x3c,0x18,0,0,0],
   [0,0,0xfe,0xc7,0xc3,0xc3,0xc7,0xfe,0xc7,0xc3,0xc3,0xc7,0xfe,0,0,0],
   [0,0,0x7e,0xe7,0xc0,0xc0,0xc0,0xc0,0xc0,0xc0,0xc0,0xe7,0x7e,0,0,0],
   [0,0,0xfc,0xce,0xc7,0xc3,0xc3,0xc3,0xc3,0xc3,0xc7,0xce,0xfc,0,0,0],
   [0,0,0xff,0xc0,0xc0,0xc0,0xc0,0xfc,0xc0,0xc0,0xc0,0xc0,0xff,0,0,0],
   [0,0,0xc0,0xc0,0xc0,0xc0,0xc0,0xc0,0xfc,0xc0,0xc0,0xc0,0xff,0,0,0],
   [0,0,0x7e,0xe7,0xc3,0xc3,0xcf,0xc0,0xc0,0xc0,0xc0,0xe7,0x7e,0,0,0],
   [0,0,0xc3,0xc3,0xc3,0xc3,0xc3,0xff,0xc3,0xc3,0xc3,0xc3,0xc3,0,0,0],
   [0,0,0x7e,0x18,0x18,0x18,0x18,0x18,0x18,0x18,0x18,0x18,0x7e,0,0,0],
   [0,0,0x7c,0xee,0xc6,0x06,0x06,0x06,0x06,0x06,0x06,0x06,0x06,0,0,0],
   [0,0,0xc3,0xc6,0xcc,0xd8,0xf0,0xe0,0xf0,0xd8,0xcc,0xc6,0xc3,0,0,0],
   [0,0,0xff,0xc0,0xc0,0xc0,0xc0,0xc0,0xc0,0xc0,0xc0,0xc0,0xc0,0,0,0],
   [0,0,0xc3,0xc3,0xc3,0xc3,0xc3,0xc3,0xdb,0xff,0xff,0xe7,0xc3,0,0,0],
   [0,0,0xc7,0xc7,0xcf,0xcf,0xdf,0xdb,0xfb,0xf3,0xf3,0xe3,0xe3,0,0,0],
   [0,0,0x7e,0xe7,0xc3,0xc3,0xc3,0xc3,0xc3,0xc3,0xc3,0xe7,0x7e,0,0,0],
   [0,0,0xc0,0xc0,0xc0,0xc0,0xc0,0xfe,0xc7,0xc3,0xc3,0xc7,0xfe,0,0,0],
   [0,0,0x3f,0x6e,0xdf,0xdb,0xc3,0xc3,0xc3,0xc3,0xc3,0x66,0x3c,0,0,0],
   [0,0,0xc3,0xc6,0xcc,0xd8,0xf0,0xfe,0xc7,0xc3,0xc3,0xc7,0xfe,0,0,0],
   [0,0,0x7e,0xe7,0x03,0x03,0x07,0x7e,0xe0,0xc0,0xc0,0xe7,0x7e,0,0,0],
   [0,0,0x18,0x18,0x18,0x18,0x18,0x18,0x18,0x18,0x18,0x18,0xff,0,0,0],
   [0,0,0x7e,0xe7,0xc3,0xc3,0xc3,0xc3,0xc3,0xc3,0xc3,0xc3,0xc3,0,0,0],
   [0,0,0x18,0x3c,0x3c,0x66,0x66,0xc3,0xc3,0xc3,0xc3,0xc3,0xc3,0,0,0],
   [0,0,0xc3,0xe7,0xff,0xff,0xdb,0xdb,0xc3,0xc3,0xc3,0xc3,0xc3,0,0,0],
   [0,0,0xc3,0x66,0x66,0x3c,0x3c,0x18,0x3c,0x3c,0x66,0x66,0xc3,0,0,0],
   [0,0,0x18,0x18,0x18,0x18,0x18,0x18,0x3c,0x3c,0x66,0x66,0xc3,0,0,0],
   [0,0,0xff,0xc0,0xc0,0x60,0x30,0x18,0x0c,0x06,0x03,0x03,0xff,0,0,0],
   [0,0,0x3c,0x30,0x30,0x30,0x30,0x30,0x30,0x30,0x30,0x30,0x3c,0,0,0],
   [0,0x03,0x03,0x06,0x06,0x0c,0x0c,0x18,0x18,0x30,0x30,0x60,0x60,0,0,0],
   [0,0,0x3c,0x0c,0x0c,0x0c,0x0c,0x0c,0x0c,0x0c,0x0c,0x0c,0x3c,0,0,0],
   [0,0,0,0,0,0,0,0,0,0xc3,0x66,0x3c,0x18,0,0,0],
   [0xff,0xff,0,0,0,0,0,0,0,0,0,0,0,0,0,0],
   [0,0,0,0,0,0,0,0,0,0x18,0x38,0x30,0x70,0,0,0],
   [0,0,0x7f,0xc3,0xc3,0x7f,0x03,0xc3,0x7e,0,0,0,0,0,0,0],
   [0,0,0xfe,0xc3,0xc3,0xc3,0xc3,0xfe,0xc0,0xc0,0xc0,0xc0,0xc0,0,0,0],
   [0,0,0x7e,0xc3,0xc0,0xc0,0xc0,0xc3,0x7e,0,0,0,0,0,0,0],
   [0,0,0x7f,0xc3,0xc3,0xc3,0xc3,0x7f,0x03,0x03,0x03,0x03,0x03,0,0,0],
   [0,0,0x7f,0xc0,0xc0,0xfe,0xc3,0xc3,0x7e,0,0,0,0,0,0,0],
   [0,0,0x30,0x30,0x30,0x30,0x30,0xfc,0x30,0x30,0x30,0x33,0x1e,0,0,0],
   [0x7e,0xc3,0x03,0x03,0x7f,0xc3,0xc3,0xc3,0x7e,0,0,0,0,0,0,0],
   [0,0,0xc3,0xc3,0xc3,0xc3,0xc3,0xc3,0xfe,0xc0,0xc0,0xc0,0xc0,0,0,0],
   [0,0,0x18,0x18,0x18,0x18,0x18,0x18,0x18,0,0,0x18,0,0,0,0],
   [0x38,0x6c,0x0c,0x0c,0x0c,0x0c,0x0c,0x0c,0x0c,0,0,0x0c,0,0,0,0],
   [0,0,0xc6,0xcc,0xf8,0xf0,0xd8,0xcc,0xc6,0xc0,0xc0,0xc0,0xc0,0,0,0],
   [0,0,0x7e,0x18,0x18,0x18,0x18,0x18,0x18,0x18,0x18,0x18,0x78,0,0,0],
   [0,0,0xdb,0xdb,0xdb,0xdb,0xdb,0xdb,0xfe,0,0,0,0,0,0,0],
   [0,0,0xc6,0xc6,0xc6,0xc6,0xc6,0xc6,0xfc,0,0,0,0,0,0,0],
   [0,0,0x7c,0xc6,0xc6,0xc6,0xc6,0xc6,0x7c,0,0,0,0,0,0,0],
   [0xc0,0xc0,0xc0,0xfe,0xc3,0xc3,0xc3,0xc3,0xfe,0,0,0,0,0,0,0],
   [0x03,0x03,0x03,0x7f,0xc3,0xc3,0xc3,0xc3,0x7f,0,0,0,0,0,0,0],
   [0,0,0xc0,0xc0,0xc0,0xc0,0xc0,0xe0,0xfe,0,0,0,0,0,0,0],
   [0,0,0xfe,0x03,0x03,0x7e,0xc0,0xc0,0x7f,0,0,0,0,0,0,0],
   [0,0,0x1c,0x36,0x30,0x30,0x30,0x30,0xfc,0x30,0x30,0x30,0,0,0,0],
   [0,0,0x7e,0xc6,0xc6,0xc6,0xc6,0xc6,0xc6,0,0,0,0,0,0,0],
   [0,0,0x18,0x3c,0x3c,0x66,0x66,0xc3,0xc3,0,0,0,0,0,0,0],
   [0,0,0xc3,0xe7,0xff,0xdb,0xc3,0xc3,0xc3,0,0,0,0,0,0,0],
   [0,0,0xc3,0x66,0x3c,0x18,0x3c,0x66,0xc3,0,0,0,0,0,0,0],
   [0xc0,0x60,0x60,0x30,0x18,0x3c,0x66,0x66,0xc3,0,0,0,0,0,0,0],
   [0,0,0xff,0x60,0x30,0x18,0x0c,0x06,0xff,0,0,0,0,0,0,0],
   [0,0,0x0f,0x18,0x18,0x18,0x38,0xf0,0x38,0x18,0x18,0x18,0x0f,0,0,0],
   [0x18,0x18,0x18,0x18,0x18,0x18,0x18,0x18,0x18,0x18,0x18,0x18,0x18,0,0,0],
   [0,0,0xf0,0x18,0x18,0x18,0x1c,0x0f,0x1c,0x18,0x18,0x18,0xf0,0,0,0],
   [0x00,0x00,0x00,0x00,0x00,0x00,0x06,0x8f,0xf1,0x60,0x00,0x00,0x00,0x00,0x00,0x00]]

/-- The rows of a glyph from the top; `char` is signed, so the bytes from 128 on are invalid. -/
def getChar (c : UInt8) : List UInt8 :=
  if c < 32 ∨ 126 < c then replicate 16 0 else (letters.getD (c.toNat - 32) []).reverse

def isCharValid (c : UInt8) : Bool := !(c < 32 || 126 < c)

abbrev Pixels := ℕ → UInt32

structure Screen where
  width : ℕ
  height : ℕ
  fgcolour : UInt32
  bgcolour : UInt32
  width_ge : 10 ≤ width
  height_ge : 16 ≤ height

structure State where
  x : ℕ
  y : ℕ
  frameBuffer : Pixels
  buffer : Pixels
  doubleBuffer : Bool

section Calls

variable (s : Screen)

def Screen.getScreenSizeBytes : ℕ := s.width * s.height * 4

def Screen.getAmountOfTextRows : ℕ := s.height / 16

def Screen.textHeight : ℕ := s.height / 16 * 16

def Screen.textWidth : ℕ := s.width / 10 * 10

def State.target (v : State) : Pixels := if v.doubleBuffer then v.buffer else v.frameBuffer

def State.setTarget (v : State) (pixels : Pixels) : State :=
  if v.doubleBuffer then { v with buffer := pixels } else { v with frameBuffer := pixels }

def plotPixel (x y : ℕ) (colour : UInt32) (v : State) : State :=
  v.setTarget (update v.target (s.width * y + x) colour)

def plotBlock (x y rows columns : ℕ) (colour : ℕ → ℕ → UInt32) (v : State) : State :=
  (range rows).foldl (fun v cy =>
    (range columns).foldl (fun v cx => plotPixel s (x + cx) (y + cy) (colour cx cy) v) v) v

def clearScreen (colour : UInt32) (v : State) : State :=
  plotBlock s 0 0 s.height s.width (fun _ _ => colour) v

/-- `fast_memcpy` inside a buffer, from `src` down to `dst`; `n` is in bytes. -/
def fastMemcpy (dst src n : ℕ) (pixels : Pixels) : Pixels :=
  copyWords 2 (fun memory => memory) dst src (n / 8) pixels

def fastMemset (dst n : ℕ) (pixels : Pixels) : Pixels := fillWords 2 (fun _ => 0) dst n pixels

/-- The loop that moves every row of text up by one: `rows` are left to be moved, the next one
is that at `y`. -/
def moveRows : ℕ → ℕ → Pixels → Pixels
  | 0, _, pixels => pixels
  | rows + 1, y, pixels =>
    moveRows rows (y + 16)
      (fastMemcpy ((y - 16) * s.width) (y * s.width) (4 * s.width * 16) pixels)

def scrollPixels (pixels : Pixels) : Pixels :=
  fastMemset (s.width * 16 * (s.getAmountOfTextRows - 1)) (4 * s.width * 16 / 8)
    (moveRows s (s.getAmountOfTextRows - 1) 16 pixels)

/-- The text is moved in the frame buffer, whether or not there is a second buffer. -/
def scrollText (v : State) : State :=
  { v with frameBuffer := scrollPixels s v.frameBuffer, y := v.y - 16 }

def newLine (v : State) : State :=
  let lower := { v with y := v.y + 16 }
  let scrolled := if s.textHeight ≤ lower.y then scrollText s lower else lower
  { scrolled with x := 0 }

def backspace (v : State) : State :=
  if v.x < 10 ∧ v.y < 16 then v
  else
    let back := if v.x < 10 then { v with x := s.textWidth - 10, y := v.y - 16 }
      else { v with x := v.x - 10 }
    plotBlock s back.x back.y 16 10 (fun _ _ => s.bgcolour) back

def glyphColour (c : UInt8) (cx cy : ℕ) : UInt32 :=
  if ((getChar c).getD cy 0).toNat / 2 ^ (7 - cx) % 2 = 1 then s.fgcolour else s.bgcolour

def putc (c : UInt8) (v : State) : State :=
  if c = '\n'.toUInt8 then newLine s v
  else if ¬ isCharValid c then v
  else
    let printed := plotBlock s v.x v.y 16 8 (glyphColour s c) v
    let moved := { printed with x := printed.x + 10 }
    if s.textWidth ≤ moved.x then newLine s moved else moved

def swapBuffers (v : State) : State :=
  if v.doubleBuffer then
    { v with
      frameBuffer := copyWords 2 (fun _ => v.buffer) 0 0 (s.getScreenSizeBytes / 8)
        v.frameBuffer }
  else v

inductive Call where
  | putc (c : UInt8)
  | newLine
  | backspace
  | clearScreen (colour : UInt32)
  deriving DecidableEq, Repr

def step (v : State) : Call → State
  | .putc c => BasicVGA.putc s c v
  | .newLine => BasicVGA.newLine s v
  | .backspace => BasicVGA.backspace s v
  | .clearScreen colour => BasicVGA.clearScreen s colour v

def run (v : State) (calls : List Call) : State := calls.foldl (step s) v

def blank : Pixels := fun _ => 0

def enableDoubleBuffering (pages : Pixels) : Pixels :=
  fastMemset 0 ((s.getScreenSizeBytes + 4095) / 4096 * 4096 / 8) pages

def start (pages : Pixels) (doubleBuffer : Bool) : State :=
  ⟨0, 0, blank, if doubleBuffer then enableDoubleBuffering s pages else pages, doubleBuffer⟩

end Calls

def paint (writes : List (ℕ × UInt32)) (pixels : Pixels) : Pixels :=
  writes.foldl (fun pixels w => update pixels w.1 w.2) pixels

def blockWrites (s : Screen) (x y rows columns : ℕ) (colour : ℕ → ℕ → UInt32) : List (ℕ × UInt32) :=
  (range rows).flatMap fun cy =>
    (range columns).map fun cx => (s.width * (y + cy) + (x + cx), colour cx cy)

variable {i : ℕ} (s : Screen) (writes : List (ℕ × UInt32)) (v : State) (pixels : Pixels)

theorem State.setTarget_target : (v.setTarget pixels).target = pixels := by
  obtain ⟨x, y, frame, buffer, double⟩ := v
  cases double <;> rfl

theorem State.setTarget_setTarget (first pixels : Pixels) :
    (v.setTarget first).setTarget pixels = v.setTarget pixels := by
  obtain ⟨x, y, frame, buffer, double⟩ := v
  cases double <;> rfl

theorem State.setTarget_self : v.setTarget v.target = v := by
  obtain ⟨x, y, frame, buffer, double⟩ := v
  cases double <;> rfl

@[simp] theorem State.setTarget_x : (v.setTarget pixels).x = v.x := by
  rw [State.setTarget]
  split <;> rfl

@[simp] theorem State.setTarget_y : (v.setTarget pixels).y = v.y := by
  rw [State.setTarget]
  split <;> rfl

@[simp] theorem State.setTarget_doubleBuffer :
    (v.setTarget pixels).doubleBuffer = v.doubleBuffer := by
  rw [State.setTarget]
  split <;> rfl

theorem State.target_moved (x y : ℕ) :
    (⟨x, y, v.frameBuffer, v.buffer, v.doubleBuffer⟩ : State).target = v.target := rfl

theorem State.setTarget_moved (x y : ℕ) (pixels : Pixels) :
    (⟨x, y, v.frameBuffer, v.buffer, v.doubleBuffer⟩ : State).setTarget pixels =
      ⟨x, y, (v.setTarget pixels).frameBuffer, (v.setTarget pixels).buffer, v.doubleBuffer⟩ := by
  obtain ⟨_, _, frame, buffer, double⟩ := v
  cases double <;> rfl

theorem paint_cons (w : ℕ × UInt32) (writes : List (ℕ × UInt32)) (pixels : Pixels) :
    paint (w :: writes) pixels = paint writes (update pixels w.1 w.2) := rfl

theorem foldl_plotPixel {β : Type} (at_x at_y : β → ℕ) (colour : β → UInt32) (cells : List β)
    (v : State) :
    cells.foldl (fun v b => plotPixel s (at_x b) (at_y b) (colour b) v) v =
      v.setTarget (paint (cells.map fun b => (s.width * at_y b + at_x b, colour b)) v.target) := by
  induction cells generalizing v with
  | nil => exact v.setTarget_self.symm
  | cons b cells ih =>
    rw [foldl_cons, ih, map_cons, paint_cons, plotPixel, State.setTarget_setTarget,
      State.setTarget_target]

theorem plotBlock_eq (x y rows columns : ℕ) (colour : ℕ → ℕ → UInt32) (v : State) :
    plotBlock s x y rows columns colour v =
      v.setTarget (paint (blockWrites s x y rows columns colour) v.target) := by
  rw [plotBlock, blockWrites]
  induction range rows generalizing v with
  | nil => exact v.setTarget_self.symm
  | cons cy rest ih =>
    have hrow := foldl_plotPixel s (fun cx => x + cx) (fun _ => y + cy)
      (fun cx => colour cx cy) (range columns) v
    rw [foldl_cons, ih, hrow, State.setTarget_setTarget, State.setTarget_target,
      flatMap_cons]
    simp only [paint, foldl_append]

theorem paint_of_not_mem (h : ∀ w ∈ writes, w.1 ≠ i) : paint writes pixels i = pixels i := by
  induction writes generalizing pixels with
  | nil => rfl
  | cons w writes ih =>
    rw [paint_cons, ih _ fun u hu => h u (mem_cons_of_mem _ hu)]
    exact update_of_ne (h w mem_cons_self).symm _ _

theorem paint_congr (other : Pixels) (h : pixels i = other i) :
    paint writes pixels i = paint writes other i := by
  induction writes generalizing pixels other with
  | nil => exact h
  | cons w writes ih =>
    rw [paint_cons, paint_cons]
    apply ih
    by_cases hi : i = w.1
    · rw [hi, update_self, update_self]
    · rw [update_of_ne hi, update_of_ne hi, h]

theorem paint_of_colour {colour} (hall : ∀ w ∈ writes, w.2 = colour) (h : ∃ w ∈ writes, w.1 = i) :
    paint writes pixels i = colour := by
  induction writes generalizing pixels with
  | nil =>
    obtain ⟨w, hw, _⟩ := h
    cases hw
  | cons w writes ih =>
    have hrest : ∀ u ∈ writes, u.2 = colour := fun u hu => hall u (mem_cons_of_mem _ hu)
    rw [paint_cons]
    by_cases hlater : ∃ u ∈ writes, u.1 = i
    · exact ih _ hrest hlater
    have hw : w.1 = i := by
      obtain ⟨u, hu, hi⟩ := h
      rcases mem_cons.mp hu with rfl | hu
      · exact hi
      · exact absurd ⟨u, hu, hi⟩ hlater
    rw [paint_of_not_mem _ _ fun u hu he => hlater ⟨u, hu, he⟩, ← hw, update_self]
    exact hall w mem_cons_self

theorem mem_blockWrites {s} {x y rows columns : ℕ} {colour} {w} :
    w ∈ blockWrites s x y rows columns colour ↔
      ∃ cy < rows, ∃ cx < columns, w = (s.width * (y + cy) + (x + cx), colour cx cy) := by
  simp only [blockWrites, mem_flatMap, mem_map, mem_range, eq_comm]

section Scroll

variable (s : Screen)

def Screen.textPixels : ℕ := s.width * 16 * s.getAmountOfTextRows

theorem fastMemcpy_apply {dst src n : ℕ} (h : dst + 2 * (n / 8) ≤ src) (pixels : Pixels) (j : ℕ) :
    fastMemcpy dst src n pixels j =
      if dst ≤ j ∧ j < dst + 2 * (n / 8) then pixels (src + (j - dst)) else pixels j :=
  copyWords_apply 2 _ dst src (n / 8) (apart_self h) pixels j

theorem quadwords_row : 2 * (4 * s.width * 16 / 8) = s.width * 16 := by omega

theorem moveRows_apply (rows k : ℕ) (pixels : Pixels) (j : ℕ) :
    moveRows s rows ((k + 1) * 16) pixels j =
      if s.width * 16 * k ≤ j ∧ j < s.width * 16 * (k + rows) then pixels (j + s.width * 16)
      else pixels j := by
  induction rows generalizing k pixels with
  | zero => rw [moveRows, if_neg (by rw [add_zero]; omega)]
  | succ rows ih =>
    have hnext : (k + 1) * 16 + 16 = (k + 1 + 1) * 16 := by omega
    have hdst : ((k + 1) * 16 - 16) * s.width = s.width * 16 * k := by
      rw [Nat.succ_mul, Nat.add_sub_cancel, Nat.mul_comm (k * 16), Nat.mul_comm k, Nat.mul_assoc]
    have hsrc : (k + 1) * 16 * s.width = s.width * 16 * k + s.width * 16 := by
      rw [mul_comm ((k + 1) * 16), mul_comm (k + 1), ← mul_assoc, Nat.mul_succ]
    have hrow : s.width * 16 * (k + 1) = s.width * 16 * k + s.width * 16 := Nat.mul_succ _ _
    have hend : s.width * 16 * (k + (rows + 1)) = s.width * 16 * (k + 1 + rows) := by
      congr 1
      omega
    have hle : s.width * 16 * (k + 1) ≤ s.width * 16 * (k + 1 + rows) :=
      Nat.mul_le_mul_left _ (Nat.le_add_right _ _)
    have hcopy : ∀ i, fastMemcpy (s.width * 16 * k) (s.width * 16 * k + s.width * 16)
        (4 * s.width * 16) pixels i =
          if s.width * 16 * k ≤ i ∧ i < s.width * 16 * k + s.width * 16 then
            pixels (i + s.width * 16) else pixels i := fun i => by
      rw [fastMemcpy_apply (Nat.le_of_eq (by rw [quadwords_row])), quadwords_row]
      split
      · congr 1
        omega
      · rfl
    rw [moveRows, hnext, ih, hdst, hsrc, hend]
    by_cases hlater : s.width * 16 * (k + 1) ≤ j ∧ j < s.width * 16 * (k + 1 + rows)
    · rw [if_pos hlater, if_pos (by omega), hcopy, if_neg (by omega)]
    · rw [if_neg hlater, hcopy]
      by_cases hhere : s.width * 16 * k ≤ j ∧ j < s.width * 16 * k + s.width * 16
      · rw [if_pos hhere, if_pos (by omega)]
      · rw [if_neg hhere, if_neg (by omega)]

theorem Screen.textRows_pos : 1 ≤ s.getAmountOfTextRows := by
  have h := s.height_ge
  rw [Screen.getAmountOfTextRows]
  omega

theorem Screen.textPixels_eq :
    s.textPixels = s.width * 16 * (s.getAmountOfTextRows - 1) + s.width * 16 := by
  have h := s.textRows_pos
  rw [Screen.textPixels, ← Nat.mul_succ]
  congr 1
  omega

theorem scrollPixels_apply (pixels : Pixels) (j : ℕ) :
    scrollPixels s pixels j =
      if j < s.textPixels then
        if j + s.width * 16 < s.textPixels then pixels (j + s.width * 16) else 0
      else pixels j := by
  have hmove := moveRows_apply s (s.getAmountOfTextRows - 1) 0 pixels j
  have htext := s.textPixels_eq
  rw [mul_zero, zero_add, zero_add, one_mul] at hmove
  rw [scrollPixels, fastMemset, fillWords_apply, quadwords_row, hmove]
  by_cases hlast : s.width * 16 * (s.getAmountOfTextRows - 1) ≤ j ∧
      j < s.width * 16 * (s.getAmountOfTextRows - 1) + s.width * 16
  · rw [if_pos hlast, if_pos (by omega), if_neg (by omega)]
  · rw [if_neg hlast]
    by_cases hupper : j < s.width * 16 * (s.getAmountOfTextRows - 1)
    · rw [if_pos ⟨Nat.zero_le _, hupper⟩, if_pos (by omega), if_pos (by omega)]
    · rw [if_neg (by omega), if_neg (by omega)]

theorem scrollPixels_eq_iff (pixels : Pixels) :
    (∀ j < s.textPixels, scrollPixels s pixels j = pixels j) ↔
      ∀ j < s.textPixels, pixels j = 0 := by
  have hwidth := s.width_ge
  constructor
  · intro h j hj
    -- from the last row upwards, by the number of pixels behind the pixel
    induction hk : s.textPixels - j using Nat.strong_induction_on generalizing j with
    | _ k ih =>
      have hscroll := h j hj
      rw [scrollPixels_apply, if_pos hj] at hscroll
      by_cases hlast : j + s.width * 16 < s.textPixels
      · rw [if_pos hlast] at hscroll
        rw [← hscroll]
        exact ih (s.textPixels - (j + s.width * 16)) (by omega) _ hlast rfl
      · rw [if_neg hlast] at hscroll
        exact hscroll.symm
  · intro h j hj
    rw [scrollPixels_apply, if_pos hj, h j hj]
    split
    · next hlast => exact h _ hlast
    · rfl

end Scroll

end BasicVGA
