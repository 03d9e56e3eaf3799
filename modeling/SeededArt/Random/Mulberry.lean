import SeededArt.Random.Seed
import SeededArt.Random.Source
/-!
# The Mulberry32 generator

One 32-bit word of state. Each draw adds a fixed odd constant to the state, so the states run
through all `2 ^ 32` words, and scrambles the new state into the output.
-/

namespace SeededArt.Random

/-- A generator. -/
structure Mulberry where
  state : UInt32
deriving DecidableEq, Repr

namespace Mulberry

/-- What every draw adds to the state. -/
def increment : UInt32 := 0x6D2B79F5

/-- The output that belongs to a state. -/
def scramble (state : UInt32) : UInt32 :=
  let mixed := (state ^^^ (state >>> 15)) * (state ||| 1)
  let mixed := mixed ^^^ (mixed + (mixed ^^^ (mixed >>> 7)) * (mixed ||| 61))
  mixed ^^^ (mixed >>> 14)

/-- The generator after one more draw. -/
def advance (g : Mulberry) : Mulberry := ⟨g.state + increment⟩

def next (g : Mulberry) : UInt32 × Mulberry := (scramble g.advance.state, g.advance)

/-- The generator that a seed text starts. -/
def ofSeed (seed : String) : Mulberry := ⟨seedHash seed⟩

end Mulberry

/-- Draws are the outputs divided by `2 ^ 32`, so all of them lie in `[0, 1)`. -/
instance (α : Type) [Arithmetic α] : Source Mulberry α where
  next g :=
    let (word, g) := g.next
    (Arithmetic.fraction word, g)
  strays _ := 0

end SeededArt.Random
