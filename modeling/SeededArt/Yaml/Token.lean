import SeededArt.Yaml.Tag
/-!
# YAML tokens

The tokens of a YAML text. Indentation shows as the starts and ends of block collections, and a
key that is recognised only at its colon has its token before it all the same.
-/

namespace SeededArt.Yaml

/-- How a scalar is written. -/
inductive Style where
  | plain
  | singleQuoted
  | doubleQuoted
  | literal
  | folded
deriving DecidableEq, Repr

/-- A token. -/
inductive Token where
  | streamEnd
  | version (major minor : Nat)
  | tagHandle (handle : String) (expansion : Tag)
  | documentStart
  | documentEnd
  | blockSequenceStart
  | blockMappingStart
  | blockEnd
  | flowSequenceStart
  | flowSequenceEnd
  | flowMappingStart
  | flowMappingEnd
  | blockEntry
  | flowEntry
  | key
  | value
  | alias (anchor : String)
  | anchor (name : String)
  | tag (handle : String) (suffix : Tag)
  | scalar (style : Style) (text : String)
deriving DecidableEq, Repr

end SeededArt.Yaml
