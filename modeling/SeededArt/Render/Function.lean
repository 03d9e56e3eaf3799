/-!
# The functions of expressions

The functions that an expression may call, with their names and numbers of arguments. All but
`colour` have a scalar value; `colour` joins three channels.
-/

namespace SeededArt.Render

/-- A function of expressions. -/
inductive Function where
  | x | y | absX | absY | distance
  | sine | cosine | tangent | reflect | add | mul | squareRoot | identity
  | colour
deriving DecidableEq, Repr

namespace Function

/-- Every function with its name. -/
def table : List (String × Function) :=
  [("get_x", x), ("get_y", y), ("get_abs_x", absX), ("get_abs_y", absY),
    ("get_distance", distance), ("csin", sine), ("ccos", cosine), ("ctan", tangent),
    ("refl", reflect), ("add", add), ("mul", mul), ("sqrt_abs", squareRoot), ("A", identity),
    ("E", colour)]

def ofName? (name : String) : Option Function := table.lookup name

def arity : Function → Nat
  | x | y | absX | absY | distance => 0
  | sine | cosine | tangent | reflect | squareRoot | identity => 1
  | add | mul => 2
  | colour => 3

end Function

end SeededArt.Render
