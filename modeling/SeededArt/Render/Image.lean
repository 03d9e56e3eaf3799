import SeededArt.Render.Program
/-!
# Images

An expression is drawn by evaluating its program at the centre of every pixel. Expressions count
rows from the bottom, images from the top. The coordinates of a canvas reach from `-scale` to
`scale` in both directions.
-/

namespace SeededArt.Render

/-- A pixel. -/
structure Pixel where
  red : UInt8
  green : UInt8
  blue : UInt8
  alpha : UInt8
deriving DecidableEq, Repr

/-- An image: its rows from the top, each from the left. -/
structure Image where
  width : Nat
  height : Nat
  rows : List (List Pixel)
deriving DecidableEq, Repr

variable {ν : Type} [Scalar ν]

/-- The coordinate of the centre of the pixel at a position of an axis of the given extent. -/
def coordinate (scale : ν) (extent position : Nat) : ν :=
  (Scalar.ofNat position + Scalar.half) / Scalar.ofNat extent * Scalar.ofNat 2 * scale - scale

/-- The centre of a pixel, the row counted from the top. -/
def Fragment.ofPixel (scale : ν) (width height column row : Nat) : Fragment ν :=
  ⟨coordinate scale width column, coordinate scale height (height - 1 - row)⟩

/-- The colour of a program at a fragment. -/
def Program.shade (p : Program ν) (at_ : Fragment ν) : Pixel :=
  ⟨Scalar.level (p.red.eval at_), Scalar.level (p.green.eval at_),
    Scalar.level (p.blue.eval at_), 255⟩

def Program.draw (p : Program ν) (scale : ν) (width height : Nat) : Image :=
  ⟨width, height, (List.range height).map fun row =>
    (List.range width).map fun column => p.shade (.ofPixel scale width height column row)⟩

def render (expression : String) (scale : ν) (width height : Nat) :
    Except SoftwareFault Image := do
  if width = 0 ∨ height = 0 then throw (.emptyCanvas width height)
  return (← Program.compile expression).draw scale width height

end SeededArt.Render
