/-!
# Expressions

An expression is a number or a call of a named function on expressions. Its text separates
arguments by a comma and a space, and a call without arguments keeps its parentheses.
-/

namespace SeededArt

/-- An expression whose numbers have type `ν`. -/
inductive Expr (ν : Type) where
  | number (value : ν)
  | call (function : String) (arguments : List (Expr ν))

namespace Expr

variable {ν μ : Type}

mutual

/-- Whether two expressions are equal. -/
def decideEq [DecidableEq ν] : (e e' : Expr ν) → Decidable (e = e')
  | number a, number b => decidable_of_decidable_of_iff (Iff.of_eq (number.injEq a b).symm)
  | call f as, call g bs =>
    have := decideEqAll as bs
    decidable_of_decidable_of_iff (Iff.of_eq (call.injEq f as g bs).symm)
  | number _, call .. => isFalse nofun
  | call .., number _ => isFalse nofun

/-- Whether two lists of expressions are equal. -/
def decideEqAll [DecidableEq ν] : (es es' : List (Expr ν)) → Decidable (es = es')
  | [], [] => isTrue rfl
  | a :: as, b :: bs =>
    have := decideEq a b
    have := decideEqAll as bs
    decidable_of_decidable_of_iff (Iff.of_eq (List.cons.injEq a as b bs).symm)
  | [], _ :: _ => isFalse nofun
  | _ :: _, [] => isFalse nofun

end

instance [DecidableEq ν] : DecidableEq (Expr ν) := decideEq

/-- What stands between two arguments. -/
def separator : String := ", "

/-- The same expression with every number replaced. -/
def map (f : ν → μ) : Expr ν → Expr μ
  | number value => number (f value)
  | call function arguments => call function (arguments.map fun e => e.map f)

mutual

/-- Writes an expression after a text; `literal` writes a number. -/
def writeAfter (literal : ν → String) (before : String) : Expr ν → String
  | number value => before ++ literal value
  | call function arguments =>
    writeArgumentsAfter literal (before ++ function ++ "(") arguments ++ ")"

/-- Writes arguments after a text. -/
def writeArgumentsAfter (literal : ν → String) (before : String) : List (Expr ν) → String
  | [] => before
  | [e] => e.writeAfter literal before
  | e :: rest => writeArgumentsAfter literal (e.writeAfter literal before ++ separator) rest

end

def text (literal : ν → String) (e : Expr ν) : String := e.writeAfter literal ""

mutual

theorem writeAfter_eq_append (literal : ν → String) (before : String) (e : Expr ν) :
    e.writeAfter literal before = before ++ e.text literal := by
  match e with
  | number value => simp [writeAfter, text]
  | call function arguments =>
    rw [text, writeAfter, writeAfter, writeArgumentsAfter_eq_append literal (before ++ _ ++ _),
      writeArgumentsAfter_eq_append literal ("" ++ _ ++ _)]
    simp [String.append_assoc]

theorem writeArgumentsAfter_eq_append (literal : ν → String) (before : String)
    (arguments : List (Expr ν)) :
    writeArgumentsAfter literal before arguments =
      before ++ separator.intercalate (arguments.map fun e => e.text literal) := by
  match arguments with
  | [] => simp [writeArgumentsAfter]
  | [e] => simpa [writeArgumentsAfter] using writeAfter_eq_append literal before e
  | e :: next :: rest =>
    rw [writeArgumentsAfter, writeArgumentsAfter_eq_append literal _ (next :: rest),
      writeAfter_eq_append literal before e]
    · simp [String.append_assoc]
    · simp

end

@[simp] theorem text_number (literal : ν → String) (value : ν) :
    (number value).text literal = literal value := by
  simp [text, writeAfter]

/-- A call is its name and its arguments in parentheses. -/
@[simp] theorem text_call (literal : ν → String) (function : String) (arguments : List (Expr ν)) :
    (call function arguments).text literal =
      function ++ "(" ++ separator.intercalate (arguments.map fun e => e.text literal) ++ ")" := by
  simp [text, writeAfter, writeArgumentsAfter_eq_append]

/-- The number of nested calls and numbers, from the root to the deepest leaf. -/
def height : Expr ν → Nat
  | number _ => 1
  | call _ arguments => (arguments.map fun e => e.height).foldr max 0 + 1

end Expr

end SeededArt
