/-!
# Seed texts

A seed text is folded into one 32-bit word: the polynomial in 31 whose coefficients are the UTF-16
units of the text, modulo `2 ^ 32`.
-/

namespace SeededArt.Random

/-- The UTF-16 units of a character: one, or a surrogate pair above `0xFFFF`. -/
def units16 (c : Char) : List UInt32 :=
  if c.val ≤ 0xFFFF then [c.val]
  else
    let high : UInt32 := (c.val - 0x10000) / 0x400
    let low : UInt32 := (c.val - 0x10000) % 0x400
    [0xD800 + high, 0xDC00 + low]

def textUnits16 (text : String) : List UInt32 := text.toList.flatMap units16

/-- One more unit mixed into a hash. -/
def mixUnit (hash unit : UInt32) : UInt32 := hash * 31 + unit

/-- The word that a seed text stands for. -/
def seedHash (text : String) : UInt32 := (textUnits16 text).foldl mixUnit 0

@[simp] theorem textUnits16_append (s t : String) :
    textUnits16 (s ++ t) = textUnits16 s ++ textUnits16 t := by
  simp [textUnits16]

end SeededArt.Random
