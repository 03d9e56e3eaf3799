/-!
# Diagnostics

A diagnostic is a finding about a grammar: how severe it is, of which kind, and what it says. A
report is the list of findings in the order in which they were made.
-/

namespace SeededArt.Lint

/-- How severe a finding is; an error is more severe than a warning. -/
inductive Severity where
  | warning
  | error
deriving DecidableEq, Repr

namespace Severity

def text : Severity → String
  | warning => "warning"
  | error => "error"

/-- The more severe of two. -/
def max : Severity → Severity → Severity
  | warning, other => other
  | error, _ => error

end Severity

/-- The kinds of findings. -/
inductive Code where
  /-- A function that the grammar calls is not defined by the template. -/
  | missingFunction
  /-- No expansion reaches the rule. -/
  | unreachableRule
  /-- The alternative is never chosen. -/
  | zeroWeight
deriving DecidableEq, Repr

namespace Code

def all : List Code := [missingFunction, unreachableRule, zeroWeight]

/-- The last part of the name of a kind. -/
def shortName : Code → String
  | missingFunction => "missing-function"
  | unreachableRule => "unreachable-rule"
  | zeroWeight => "zero-weight"

def text (c : Code) : String := "randomart::validate::" ++ c.shortName

end Code

/-- A finding. -/
structure Diagnostic where
  severity : Severity
  code : Code
  message : String
  help : Option String := none
deriving DecidableEq, Repr

/-- A finding on one line. -/
def Diagnostic.text (d : Diagnostic) : String :=
  let finding := d.severity.text ++ "[" ++ d.code.text ++ "]: " ++ d.message
  match d.help with
  | some help => finding ++ " (help: " ++ help ++ ")"
  | none => finding

/-- The findings about a grammar, in order. -/
structure Report where
  diagnostics : List Diagnostic := []
deriving DecidableEq, Repr

namespace Report

def push (r : Report) (d : Diagnostic) : Report := ⟨r.diagnostics ++ [d]⟩

/-- Adds findings in order. -/
def extend (r : Report) (ds : List Diagnostic) : Report := ⟨r.diagnostics ++ ds⟩

def withSeverity (r : Report) (s : Severity) : List Diagnostic :=
  r.diagnostics.filter fun d => d.severity = s

def withCode (r : Report) (c : Code) : List Diagnostic :=
  r.diagnostics.filter fun d => d.code = c

/-- Whether a finding is an error. -/
def hasErrors (r : Report) : Bool := !(r.withSeverity .error).isEmpty

def errorCount (r : Report) : Nat := (r.withSeverity .error).length

def warningCount (r : Report) : Nat := (r.withSeverity .warning).length

/-- Whether there is no finding. -/
def isClean (r : Report) : Bool := r.diagnostics.isEmpty

/-- The greatest severity of the findings. -/
def severest? (r : Report) : Option Severity :=
  (r.diagnostics.map (·.severity)).foldl
    (fun worst s => some (match worst with | some w => w.max s | none => s)) none

end Report

end SeededArt.Lint
