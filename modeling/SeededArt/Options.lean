import SeededArt.Decimal.Layout
/-!
# Options of a picture

What to draw, apart from the size of the canvas. Every option has a default.

A depth is a natural number, although texts can only say depths below `2 ^ 32`
(`Document.depthLimit`). No step computes with the depth of options: it is printed, and it is the
first depth of an expansion, as an integer.
-/

namespace SeededArt

/-- What to draw. -/
structure Options where
  /-- Equal seeds give equal expressions. -/
  seed : String := "default"
  /-- The identifier of the grammar. -/
  grammar : String := "perrig"
  /-- The depth that expansions start with. -/
  depth : Nat := 15
  /-- The coordinates of the canvas reach from `-scale` to `scale`. -/
  scale : Float32 := 2.0
  /-- Whether to announce the expression. -/
  debug : Bool := false

/-- Why an input cannot be drawn with. -/
inductive InputFault where
  | emptyCanvas (width height : Nat)
  | badScale (scale : Float32)

def InputFault.message : InputFault → String
  | emptyCanvas width height => s!"Canvas must be at least 1x1, got {width}x{height}"
  | badScale scale =>
    "Scale must be a positive finite number, got " ++ Decimal.Layout.plain.float32 scale

namespace Options

/-- The names of the options, in the order of their declaration. -/
def fieldNames : List String := ["seed", "grammar", "depth", "scale", "debug"]

/-- Refuses a scale that no canvas can have. -/
def check (o : Options) : Except InputFault Unit :=
  if o.scale.isFinite && 0.0 < o.scale then .ok () else .error (.badScale o.scale)

end Options

end SeededArt
