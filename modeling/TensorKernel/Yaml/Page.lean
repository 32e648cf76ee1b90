import TensorKernel.Yaml.Scalar

/-!
# Pages

A page is a document as far as it is written. Besides its text it keeps what decides on the blanks and
line breaks to come: the column, whether a blank was written last, and whether the line holds nothing
but indentation and the dashes of items. A separator of lines that is not a line feed starts a line as
well, and is written as it is.
-/

namespace TensorKernel.Yaml

/-- A document as far as it is written. -/
structure Page where
  /-- The text. -/
  text : String := ""
  /-- The number of characters on the line. -/
  column : Nat := 0
  /-- Whether a blank was written last, or nothing at all. -/
  spaced : Bool := true
  /-- Whether the line is only indented so far. -/
  fresh : Bool := true
deriving DecidableEq, Repr, Inhabited

namespace Page

/-- Write characters on the line. -/
def put (p : Page) (s : String) : Page :=
  { p with text := p.text ++ s, column := p.column + s.length }

/-- Start a line by a separator. -/
def startLine (p : Page) (separator : Char := '\n') : Page :=
  { p with text := p.text.push separator, column := 0, fresh := true }

/-- Go to a column of a fresh line, which is the current one if nothing stands in the way. -/
def indentTo (p : Page) (indent : Nat) : Page :=
  let p := if !p.fresh ∨ indent < p.column ∨ (p.column = indent ∧ !p.spaced) then p.startLine else p
  { p.put (String.ofList (List.replicate (indent - p.column) ' ')) with spaced := true }

/-- Write a blank unless one was written last. -/
def space (p : Page) : Page := if p.spaced then p else p.put " "

/-- Write a mark. -/
def mark (p : Page) (s : String) : Page :=
  { p.put s with spaced := false, fresh := false }

/-- Write the dash of an item; the line is still fresh. -/
def dash (p : Page) : Page := { p.space.put "-" with spaced := false }

/-- Write text with line breaks as it is; text behind a break is indented by `indent`. `broken` says
whether a break came last. -/
def putLines (indent : Nat) (broken : Bool) (p : Page) : List Char → Page
  | [] => p
  | c :: rest =>
    if Scalar.isBreak c then putLines indent true (p.startLine c) rest
    else
      let p := if broken then p.indentTo indent else p
      putLines indent false { p.put c.toString with fresh := false } rest

/-- Write a plain scalar. -/
def plain (p : Page) (text : String) : Page :=
  if text = "" then { p with fresh := false } else p.space.mark text

/-- Write a text between double quotes. -/
def doubleQuoted (p : Page) (text : String) : Page :=
  (p.space.mark "\"").put (String.ofList (Scalar.doubleQuoted text)) |>.mark "\""

/-- Write a text between single quotes, with each of its own quotes twice. -/
def singleQuoted (p : Page) (indent : Nat) (text : String) : Page :=
  let cs := text.toList.flatMap fun c => if c = '\'' then ['\'', '\''] else [c]
  (putLines indent false (p.space.mark "'") cs).mark "'"

/-- Write a literal block. The first line break of the text is the one behind the bar. -/
def literal (p : Page) (indent : Nat) (text : String) : Page :=
  let p := p.space.mark ("|" ++ Scalar.literalHints 4 text)
  putLines indent true { p with spaced := true } text.toList

/-- Write a tag, if there is one. -/
def tag (p : Page) : Option Tag → Page
  | none => p
  | some tag => p.space.mark tag.mark

/-- Write a scalar whose further lines are indented by `indent`. -/
def scalar (p : Page) (indent : Nat) (s : Scalar) : Page :=
  let p := p.tag s.tag
  match s.style with
  | .plain => p.plain s.text
  | .singleQuoted => p.singleQuoted indent s.text
  | .doubleQuoted => p.doubleQuoted s.text
  | .literal | .folded => p.literal indent s.text

/-- Write a scalar on the line, between double quotes if it has several lines. -/
def line (p : Page) (s : Scalar) : Page :=
  let p := p.tag s.tag
  if s.text.toList.any Scalar.isBreak then p.doubleQuoted s.text
  else match s.style with
    | .plain => p.plain s.text
    | .singleQuoted => p.singleQuoted 0 s.text
    | _ => p.doubleQuoted s.text

/-- The lines of a page; a line break at its end starts no further line. -/
def lines (p : Page) : List String :=
  let lines := p.text.splitOn "\n"
  if 1 < lines.length ∧ lines.getLast? = some "" then lines.dropLast else lines

/-- What is written on a line follows what was written before. -/
@[simp] theorem text_put (p : Page) (s : String) : (p.put s).text = p.text ++ s := rfl

/-- Whoever goes to a column is there, on a line that is only indented. -/
theorem column_indentTo (p : Page) (indent : Nat) : (p.indentTo indent).column = indent := by
  unfold indentTo
  split
  · simp [put, startLine]
  · rename_i h
    simp only [put, String.length_ofList, List.length_replicate]
    omega

end Page

end TensorKernel.Yaml
