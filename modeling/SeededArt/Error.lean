import SeededArt.Document.Definition
import SeededArt.Document.Options
import SeededArt.Grammar.Fault
import SeededArt.Shader.Template
import SeededArt.Synthesis
/-!
# Errors

`Error α ε` is every cause for which the library refuses to do something: `α` are the numbers of
weights and `ε` the errors of a rendering backend. `Error.kind` sorts the causes, and `message`,
`code` and `help` are their wording.
-/

namespace SeededArt

open Document

/-- What is in the way of reading a file. -/
inductive FileFault where
  | missing
  | directory
  | notText
deriving DecidableEq, Repr

/-- The words for what is in the way of reading a file. -/
def FileFault.text : FileFault → String
  | missing => "No such file or directory (os error 2)"
  | directory => "Is a directory (os error 21)"
  | notText => "stream did not contain valid UTF-8"

/-- Why the library refuses to do something. -/
inductive Error (α ε : Type) where
  | grammar (cause : GrammarFault α)
  | template (cause : TemplateFault)
  | repeatedGrammar (name : String)
  | unknownGrammar (name : String) (available : List String)
  | synthesis (cause : SynthesisFault α)
  | input (cause : InputFault)
  | definition (cause : DefinitionFault)
  | options (format : Format) (cause : Fault)
  | unsupportedFile (path : String)
  | unreadableFile (path : String) (cause : FileFault)
  | backend (cause : ε)

/-- The kinds of errors. -/
inductive ErrorKind where
  | config
  | unknownGrammar
  | unknownRule
  | invariant
  | invalidInput
  | parse
  | io
  | backend
deriving DecidableEq, Repr

def ErrorKind.code : ErrorKind → String
  | config => "randomart::config"
  | unknownGrammar => "randomart::lookup::grammar"
  | unknownRule => "randomart::lookup::rule"
  | invariant => "randomart::invariant"
  | invalidInput => "randomart::input"
  | parse => "randomart::parse"
  | io => "randomart::io"
  | backend => "randomart::backend"

/-- How YAML words what it holds. -/
def yamlWording : Wording := ⟨"unit value", .quoted⟩

/-- How JSON words what it holds: numbers have an exponent below `1e-5` and from `1e+16`. -/
def jsonWording : Wording :=
  ⟨"null", { positional := some (-5, 16), wholePoint := true, exponentPlus := true, tie := .even }⟩

namespace Error

variable {α ε : Type}

def kind : Error α ε → ErrorKind
  | grammar _ | template _ | repeatedGrammar _ => .config
  | unknownGrammar .. => .unknownGrammar
  | synthesis (.unknownRule ..) => .unknownRule
  | synthesis _ => .invariant
  | input _ => .invalidInput
  | definition _ | options .. | unsupportedFile _ => .parse
  | unreadableFile .. => .io
  | backend _ => .backend

def definitionText : DefinitionFault → String
  | .yaml cause => cause.after yamlWording "Invalid YAML in grammar definition"
  | .shape cause => cause.after yamlWording "Invalid grammar definition"
  | .json cause => cause.after jsonWording "Invalid JSON grammar definition"

/-- The message of an error; `backendText` words errors of the backend. -/
def message [Arithmetic α] (backendText : ε → String) : Error α ε → String
  | grammar cause => "Grammar configuration error: " ++ cause.message
  | template cause => "Grammar configuration error: " ++ cause.message
  | repeatedGrammar name => s!"Grammar configuration error: Grammar {name} is already registered"
  | unknownGrammar name _ => s!"Unknown grammar: {name}"
  | synthesis (.unknownRule rule owner) => s!"Rule {rule} not found in grammar {owner}"
  | synthesis (.nothingChosen cause) =>
    let target := Arithmetic.plain cause.target
    let total := Arithmetic.plain cause.total
    s!"Internal invariant violated: no alternative selected among {cause.count} " ++
      s!"(draw {target} of total weight {total})"
  | synthesis .tooManyLevels => "Internal invariant violated: too many levels of expansion"
  | input cause => "Invalid input: " ++ cause.message
  | definition cause => "Parse error: " ++ definitionText cause
  | options .yaml cause => "Parse error: " ++ cause.after yamlWording "Invalid options"
  | options .json cause => "Parse error: " ++ cause.after jsonWording "Invalid options"
  | unsupportedFile path => s!"Parse error: Unsupported grammar file: {path}"
  | unreadableFile path cause =>
    s!"IO error with {path}: Failed to read grammar definitions: " ++ cause.text
  | backend cause => backendText cause

def help : Error α ε → Option String
  | grammar cause => cause.help
  | template cause => cause.help
  | repeatedGrammar _ => some "Give the grammar a distinct name"
  | unknownGrammar _ available => some ("Available grammars: " ++ ", ".intercalate available)
  | synthesis (.unknownRule ..) => none
  | synthesis _ => some "this is a bug in randomart or in a grammar that bypassed validation"
  | definition (.shape _) => some "Expected name, rules and optional start/fallback"
  | definition (.json _) => some "Expected an object or an array of objects"
  | options .. => some ("Known fields: " ++ ", ".intercalate Options.fieldNames)
  | unsupportedFile _ => some "Use a .yaml, .yml or .json extension"
  | _ => none

end Error

end SeededArt
