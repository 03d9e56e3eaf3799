import SeededArt.Text.Names
/-!
# YAML tags

A tag says what a node is. Its escapes stand for octets, which need not be the UTF-8 form of a text,
so a tag is a list of octets. A NUL ends it, and what follows the NUL is lost. A tag that starts
with an exclamation mark is the document's own.
-/

namespace SeededArt.Yaml

/-- A tag, or a part of one. -/
abbrev Tag := List UInt8

namespace Tag

/-- The octets before the first NUL. -/
def ofOctets (octets : List UInt8) : Tag := octets.takeWhile (· != 0)

def ofText (text : String) : Tag := ofOctets (Text.bytes text)

/-- The octet of the exclamation mark. -/
def mark : UInt8 := 0x21

def lone : Tag := [mark]

/-- What precedes the name of a type of the core schema. -/
def corePrefix : String := "tag:yaml.org,2002:"

/-- The tag of a type of the core schema. -/
def core (type : String) : Tag := ofText (corePrefix ++ type)

/-- Whether a tag starts with an exclamation mark. -/
def isMarked (tag : Tag) : Bool := tag.head? == some mark

/-- A tag of the document's own without its exclamation mark, which stands alone, however, if
nothing follows. Octets that are not the UTF-8 form of a text are no tag of its own. -/
def own? : Tag → Option String
  | [] => none
  | octet :: rest =>
    if octet = mark then
      String.fromUTF8? (ByteArray.mk (if rest.isEmpty then lone else rest).toArray)
    else none

end Tag

end SeededArt.Yaml
