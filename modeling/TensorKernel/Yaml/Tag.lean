import TensorKernel.Text.Bytes
import TensorKernel.Yaml.Plain

/-!
# Tags

A tag in front of a scalar says what it stands for. The tags of the core schema are checked against
the spelling; a scalar with any other tag is a text.
-/

namespace TensorKernel.Yaml

/-- What a scalar is said to be. -/
inductive Tag where
  | text
  /-- A text given by its bytes, in base sixty-four. -/
  | binary
  | null
  | bool
  | int
  | float
  | timestamp
  /-- The key under which the entries of other mappings are taken over. -/
  | merge
  /-- A tag of no schema. -/
  | custom (name : String)
deriving DecidableEq, Repr, Inhabited

namespace Tag

/-- The namespace of the core schema. -/
def coreNamespace : String := "tag:yaml.org,2002:"

/-- The tag with a full name, in which two exclamation marks may stand for the core schema. -/
def ofName (name : String) : Tag :=
  let short := if name.startsWith coreNamespace then
    "!!" ++ (name.drop coreNamespace.length).toString else name
  match short with
  | "!!str" => text
  | "!!binary" => binary
  | "!!null" => null
  | "!!bool" => bool
  | "!!int" => int
  | "!!float" => float
  | "!!timestamp" => timestamp
  | "!!merge" => merge
  | _ => custom short

/-- The tag as it is written. -/
def mark : Tag → String
  | text => "!!str"
  | binary => "!!binary"
  | null => "!!null"
  | bool => "!!bool"
  | int => "!!int"
  | float => "!!float"
  | timestamp => "!!timestamp"
  | merge => "!!merge"
  | custom name => name

/-- The meaning of an integer as a number with a fraction. -/
def asFloat (n : Int) : Meaning :=
  .float (Plain.cutToInt64 (n < 0) (Plain.truncatedQuotient n.natAbs 1))

/-- The meaning of a spelling under a tag; none if the two contradict each other. An integer may be
given for a number with a fraction. -/
def meaning? (tag : Tag) (spelling : String) : Option Meaning :=
  match tag, Plain.meaning spelling (tag = timestamp) with
  | null, .null => some .null
  | bool, .bool b => some (.bool b)
  | int, .int n => some (.int n)
  | float, .float n => some (.float n)
  | float, .int n => if Text.fitsInt64 n then some (asFloat n) else none
  | timestamp, .timestamp => some .timestamp
  | binary, _ => (Text.bytesOfBase64? spelling).map fun _ => .text
  | text, _ | merge, _ | custom _, _ => some .text
  | _, _ => none

/-- Under the tag for texts every spelling is a text. -/
theorem meaning?_text (spelling : String) : meaning? .text spelling = some .text := rfl

end Tag

end TensorKernel.Yaml
