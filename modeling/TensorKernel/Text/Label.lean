import TensorKernel.Text.Bytes
import TensorKernel.Text.Quoted

/-!
# Labels

The names that a subgraph gives to its parts are texts, but a document may give a text by its bytes, and
those need not be the encoding of characters. So a label is a list of bytes: two labels are the same if
their bytes are. A label is shown with the replacement character in place of every byte that belongs to
no character; between quotes such bytes are written as escapes.

Main statements: a text gives a label that is shown and quoted like the text, and the labels of different
texts differ.
-/

namespace TensorKernel

/-- A name, given by its bytes. -/
structure Label where
  /-- The bytes. -/
  bytes : List UInt8 := []
deriving DecidableEq, Repr, Inhabited

namespace Label

/-- The label of a text: its encoding in UTF-8. -/
def ofString (text : String) : Label := ⟨text.toByteArray.data.toList⟩

instance : Coe String Label := ⟨ofString⟩

instance : Append Label := ⟨fun a b => ⟨a.bytes ++ b.bytes⟩⟩

/-- Whether the label has no bytes. -/
def isEmpty (l : Label) : Bool := l.bytes.isEmpty

/-- What follows a word at the start of the label, if it starts with it. -/
def after? (word : String) (l : Label) : Option Label :=
  let word := (ofString word).bytes
  if word.isPrefixOf l.bytes then some ⟨l.bytes.drop word.length⟩ else none

/-- The text with the bytes of the label, if there is one. -/
def string? (l : Label) : Option String := String.fromUTF8? ⟨l.bytes.toArray⟩

/-- The label as it is shown. -/
def shown (l : Label) : String :=
  match l.string? with
  | some text => text
  | none => String.ofList (Text.charsOfBytes l.bytes)

instance : ToString Label := ⟨shown⟩

/-- A piece of a label between double quotes. -/
def escapeGlyph : Text.Glyph → List Char
  | .char c => Text.escapeChar '"' c
  | .byte b => '\\' :: 'x' :: Text.hexPadded 2 b.toNat

/-- The label between double quotes. -/
def quoted (l : Label) : String :=
  match l.string? with
  | some text => Text.quoted text
  | none => String.ofList ('"' :: ((Text.glyphs l.bytes).flatMap escapeGlyph ++ ['"']))

/-- The bytes of two labels one behind the other. -/
@[simp] theorem bytes_append (a b : Label) : (a ++ b).bytes = a.bytes ++ b.bytes := rfl

/-- The label of two texts one behind the other. -/
theorem ofString_append (a b : String) : ofString (a ++ b) = ofString a ++ ofString b := by
  simp only [ofString, String.toByteArray_append, ByteArray.data_append, Array.toList_append]
  rfl

/-- A label behind a word follows that word. -/
@[simp] theorem after?_append (word : String) (l : Label) :
    after? word (ofString word ++ l) = some l := by
  simp [after?]

/-- The label of a text stands for that text. -/
@[simp] theorem string?_ofString (text : String) : (ofString text).string? = some text := by
  simp [string?, ofString, String.fromUTF8?, String.fromUTF8, text.isValidUTF8]

/-- Only the label of a text stands for it. -/
theorem ofString_of_string? {l : Label} {text : String} (h : l.string? = some text) :
    ofString text = l := by
  simp only [string?, String.fromUTF8?, Option.dite_none_right_eq_some, Option.some.injEq] at h
  obtain ⟨_, rfl⟩ := h
  simp [ofString, String.fromUTF8]

/-- Different texts have different labels. -/
theorem ofString_injective {a b : String} (h : ofString a = ofString b) : a = b := by
  simpa using congrArg string? h

/-- The label of a text is shown as the text. -/
@[simp] theorem shown_ofString (text : String) : (ofString text).shown = text := by simp [shown]

/-- The label of a text is quoted like the text. -/
@[simp] theorem quoted_ofString (text : String) : (ofString text).quoted = Text.quoted text := by
  simp [quoted]

end Label

end TensorKernel
