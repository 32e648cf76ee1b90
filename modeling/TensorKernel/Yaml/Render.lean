import TensorKernel.Yaml.Node
import TensorKernel.Yaml.Page

/-!
# Writing documents

Documents are written in blocks. What belongs to a key is indented to the next multiple of four
columns; what belongs to the dash of an item starts right behind the dash. Empty collections, and
keys, are written in brackets.
-/

namespace TensorKernel.Yaml

/-- The indentation below a key that is indented by `indent`. -/
def deeper (indent : Nat) : Nat := 4 * ((indent + 4) / 4)

namespace Page

mutual

/-- Write a node on the line. -/
def inline (p : Page) : Node → Page
  | .scalar s => p.line s
  | .sequence tag items => (inlineItems true ((p.tag tag).space.mark "[") items).mark "]"
  | .mapping tag entries =>
    (inlineEntries true ((p.tag tag).space.mark "\x7b") entries).mark "\x7d"
  | .reference _ name _ => p.space.mark ("*" ++ name)

/-- Write items on the line. -/
def inlineItems (first : Bool) (p : Page) : List Node → Page
  | [] => p
  | item :: rest =>
    let p := if first then { p with spaced := true } else p.mark ","
    inlineItems false (inline p item) rest

/-- Write entries on the line. -/
def inlineEntries (first : Bool) (p : Page) : List (Node × Node) → Page
  | [] => p
  | (key, value) :: rest =>
    let p := if first then { p with spaced := true } else p.mark ","
    inlineEntries false (inline ((inline p key).mark ":") value) rest

end

mutual

/-- Write a node whose scalars and collections are indented by `indent`. -/
def node (indent : Nat) (p : Page) : Node → Page
  | .scalar s => p.scalar indent s
  | .sequence tag [] => ((p.tag tag).space.mark "[").mark "]"
  | .mapping tag [] => ((p.tag tag).space.mark "\x7b").mark "\x7d"
  | .sequence tag (item :: items) => blockItems indent (p.tag tag) (item :: items)
  | .mapping tag (entry :: entries) => blockEntries indent (p.tag tag) (entry :: entries)
  | .reference _ name _ => p.space.mark ("*" ++ name)

/-- Write items whose dashes are indented by `indent`. -/
def blockItems (indent : Nat) (p : Page) : List Node → Page
  | [] => p
  | item :: rest => blockItems indent (node (indent + 2) (p.indentTo indent).dash item) rest

/-- Write entries whose keys are indented by `indent`. -/
def blockEntries (indent : Nat) (p : Page) : List (Node × Node) → Page
  | [] => p
  | (key, value) :: rest =>
    blockEntries indent (node (deeper indent) ((inline (p.indentTo indent) key).mark ":") value) rest

end

end Page

namespace Node

/-- The document as it is written. A scalar alone is indented like one below a key. -/
def page (n : Node) : Page :=
  let indent := match n with
    | .scalar _ => 4
    | _ => 0
  (Page.node indent {} n).indentTo 0

/-- The lines of a document. -/
def lines (n : Node) : List String := n.page.lines

end Node

end TensorKernel.Yaml
