import SeededArt.Text.Blank
import SeededArt.Text.Search
/-!
# Shader templates

A template is a vertex source and a fragment source in which a placeholder stands for the
expression. `Template.new` accepts a fragment with exactly one occurrence of the placeholder,
counted from the left and without overlap, and `Template.emit` puts an expression in its place.
-/

namespace SeededArt

open Text

/-- A pair of shader sources, the fragment with a placeholder for the expression. -/
structure Template where
  vertex : String
  fragment : String
  placeholder : String
deriving DecidableEq, Repr

/-- Shader sources that are ready to be drawn, and the expression in them. -/
structure Shader where
  vertex : String
  fragment : String
  expression : String
deriving DecidableEq, Repr

/-- Why a template is refused. -/
inductive TemplateFault where
  | emptyPlaceholder
  | occurrences (placeholder : String) (found : Nat)
deriving DecidableEq, Repr

namespace TemplateFault

def message : TemplateFault → String
  | emptyPlaceholder => "Shader placeholder must not be empty"
  | occurrences placeholder found =>
    s!"Fragment template must contain {placeholder} exactly once, found {found}"

def help : TemplateFault → Option String
  | emptyPlaceholder => none
  | occurrences .. => some "Use a placeholder that appears nowhere else in the source"

end TemplateFault

namespace Template

/-- A template whose fragment has exactly one occurrence of a placeholder that is not empty.
Occurrences are counted from the left and without overlap. -/
def new (vertex fragment placeholder : String) : Except TemplateFault Template :=
  if placeholder = "" then .error .emptyPlaceholder
  else
    let found := Text.occurrences placeholder.toList fragment.toList
    if found = 1 then .ok ⟨vertex, fragment, placeholder⟩
    else .error (.occurrences placeholder found)

/-- Puts an expression in the place of the placeholder. -/
def emit (t : Template) (expression : String) : Shader :=
  ⟨t.vertex,
    String.ofList (replaceFirst t.placeholder.toList expression.toList t.fragment.toList),
    expression⟩

/-- Whether a line of the form `<type> name(...` that ends in an opening brace defines a function
of the name. -/
def lineDefines (name : List Char) (line : List Char) : Bool :=
  let line := trim line
  line.getLast? == some '\x7b' && line.contains '(' &&
    match words (line.takeWhile (· != '(')) with
    | [type, function] => type != "return".toList && function == name
    | _ => false

/-- Whether the fragment defines a function of the name on a line of its own. -/
def definesFunction (t : Template) (name : String) : Bool :=
  (lines t.fragment.toList).any (lineDefines name.toList)

end Template

end SeededArt
