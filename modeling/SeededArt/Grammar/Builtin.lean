import SeededArt.Grammar.Draft
/-!
# The grammars of the library

Three grammars of growing vocabulary. All start with a colour of three channels, each channel a
tree of operations over coordinates and constants.
-/

namespace SeededArt.Builtin

variable {α : Type} [Arithmetic α]

def leaf (name : String) (weight : α) (emit : String) : Alternative α := ⟨name, [], weight, emit⟩

/-- One channel expression for each component of the colour. -/
def colourRule : Rule α := ⟨"E", [⟨"E", ["C", "C", "C"], 1.0, "E"⟩]⟩

/-- Coordinates, their distances from the axes and from the origin, and a constant. -/
def richLeaves : Rule α :=
  ⟨"A",
    [leaf "a" 0.20 "get_a", leaf "x" 0.16 "get_x", leaf "y" 0.16 "get_y",
      leaf "abs_x" 0.16 "get_abs_x", leaf "abs_y" 0.16 "get_abs_y",
      leaf "distance" 0.16 "get_distance"]⟩

/-- The rules of the grammar with coordinates, a constant, sums and products. -/
def perrigRules : List (Rule α) :=
  [⟨"A", [leaf "a" 0.34 "get_a", leaf "x" 0.33 "get_x", leaf "y" 0.33 "get_y"]⟩,
    ⟨"C", [⟨"A", ["A"], 0.25, "A"⟩, ⟨"add", ["C", "C"], 0.375, "add"⟩,
      ⟨"mul", ["C", "C"], 0.375, "mul"⟩]⟩,
    colourRule]

/-- The rules of the grammar with roots and sines. -/
def tsodingRules : List (Rule α) :=
  [richLeaves,
    ⟨"C", [⟨"A", ["A"], 0.2, "A"⟩, ⟨"add", ["C", "C"], 0.2, "add"⟩,
      ⟨"mul", ["C", "C"], 0.2, "mul"⟩, ⟨"sqrt", ["C"], 0.2, "sqrt_abs"⟩,
      ⟨"sin", ["C"], 0.2, "csin"⟩]⟩,
    colourRule]

/-- The rules of the grammar with cosines, tangents and reflection besides. -/
def oswaldRules : List (Rule α) :=
  [richLeaves,
    ⟨"C", [⟨"A", ["A"], 0.125, "A"⟩, ⟨"add", ["C", "C"], 0.125, "add"⟩,
      ⟨"mul", ["C", "C"], 0.125, "mul"⟩, ⟨"sqrt", ["C"], 0.125, "sqrt_abs"⟩,
      ⟨"sin", ["C"], 0.125, "csin"⟩, ⟨"cos", ["C"], 0.125, "ccos"⟩,
      ⟨"tan", ["C"], 0.125, "ctan"⟩, ⟨"refl", ["C"], 0.125, "refl"⟩]⟩,
    colourRule]

/-- The identifiers and rules of all grammars of the library. -/
def tables : List (String × List (Rule α)) :=
  [("perrig", perrigRules), ("tsoding", tsodingRules), ("oswald", oswaldRules)]

def names : List String := ["perrig", "tsoding", "oswald"]

/-- The grammar of an identifier and rules. -/
def assemble (name : String) (rules : List (Rule α)) : Except (GrammarFault α) (Grammar α) := do
  (← (Draft.new name).addRules rules).build

def all : Except (GrammarFault α) (List (Grammar α)) :=
  tables.mapM fun (name, rules) => assemble name rules

def get? (name : String) : Option (Except (GrammarFault α) (Grammar α)) :=
  (tables.find? (·.1 == name)).map fun (name, rules) => assemble name rules

end SeededArt.Builtin
