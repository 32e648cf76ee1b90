import TensorKernel.Machine.Basic
import TensorKernel.Toml.Document
import TensorKernel.Toml.Time

/-!
# Machine descriptions

A machine can be described by a TOML document with its name and its numbers. Keys are taken in any
case; keys and tables that mean nothing are ignored. A point in time has no place in a description,
and a field has no tables inside it: both break the reading off. A header of an element of the list of
preserved registers adds the first register to the list.
-/

namespace TensorKernel

namespace MachineTable

/-- The type of a value that a description can give. -/
inductive FieldType where
  | text
  | integer
  | integers
deriving DecidableEq, Repr

/-- The wording for a type. -/
def FieldType.name : FieldType → String
  | text => "string"
  | integer => "int"
  | integers => "[]int"

/-- The wording for a kind of time. -/
def timeTypeName : Toml.TimeKind → String
  | .date => "toml.LocalDate"
  | .clock => "toml.LocalTime"
  | .dateClock => "toml.LocalDateTime"
  | .instant => "time.Time"

/-- Why a text describes no machine. -/
inductive ParseError where
  /-- The text is no document, or a value has the wrong type. -/
  | malformed
  /-- A point in time is given where another type is expected. -/
  | time (kind : Toml.TimeKind) (expected : FieldType)
  /-- A table is opened inside something that is no table. -/
  | notTable (type : FieldType)
  /-- An element of an array is entered before there is one. -/
  | noElement
  /-- A register pool is empty. -/
  | pools (name : String) (gpr vec : Int)
  /-- The vector width is not a positive multiple of four bytes. -/
  | vecLen (name : String) (bytes : Int)
  /-- A register that is to be preserved is not in the pool. -/
  | calleeSaved (name : String) (index gpr : Int)
deriving DecidableEq, Repr

/-- The wording for a text that describes no machine. -/
def ParseError.message : ParseError → String
  | malformed => "failed to parse machine description"
  | time kind expected =>
    s!"reflect.Set: value of type {timeTypeName kind} is not assignable to type {expected.name}"
  | notTable type => s!"unhandled part: {type.name}"
  | noElement => "reflect: slice index out of range"
  | pools name gpr vec =>
    "machine " ++ Text.quoted name ++ s!": gp_regs and vec_regs must be positive, got {gpr} and {vec}"
  | vecLen name bytes => "machine " ++ Text.quoted name ++ s!": invalid vec_len {bytes}"
  | calleeSaved name index gpr =>
    "machine " ++ Text.quoted name ++ s!": callee-saved register {index} out of range [0, {gpr})"

/-- The values that a description can give. -/
inductive Field where
  | name
  | gpr
  | vec
  | mask
  | vecLen
  | calleeSaved
deriving DecidableEq, Repr

namespace Field

/-- Lower case of a character as far as it can meet a key: besides the ASCII letters, the Kelvin sign
has an ASCII lower case. -/
def lowerChar (c : Char) : Char := if c.toNat = 0x212a then 'k' else c.toLower

/-- The field with a key, in any case. -/
def ofKey? (key : String) : Option Field :=
  match String.ofList (key.toList.map lowerChar) with
  | "name" => some name
  | "gp_regs" => some gpr
  | "vec_regs" => some vec
  | "mask_regs" => some mask
  | "vec_len" => some vecLen
  | "callee_saved" => some calleeSaved
  | _ => none

/-- The type of a field. -/
def type : Field → FieldType
  | name => .text
  | calleeSaved => .integers
  | _ => .integer

/-- What is wrong with a value where another type is expected. -/
def mismatch (expected : FieldType) : Toml.Value → ParseError
  | .time kind spelling => if kind.accepts spelling then .time kind expected else .malformed
  | _ => .malformed

/-- The text that a value has to be. -/
def text (value : Toml.Value) : Except ParseError String :=
  value.text?.elim (.error (mismatch .text value)) .ok

/-- The integer that a value has to be. -/
def integer (value : Toml.Value) : Except ParseError Int :=
  value.integer?.elim (.error (mismatch .integer value)) .ok

/-- The integers that a value has to hold. -/
def integers : Toml.Value → Except ParseError (List Int)
  | .array items => items.mapM integer
  | value => .error (mismatch .integers value)

/-- Give a field a value, which must have its type. -/
def set (t : MachineTable) (value : Toml.Value) : Field → Except ParseError MachineTable
  | name => do return { t with name := ← text value }
  | gpr => do return { t with gpr := ← integer value }
  | vec => do return { t with vec := ← integer value }
  | mask => do return { t with mask := ← integer value }
  | vecLen => do return { t with vecLen := Int64.ofInt (← integer value) }
  | calleeSaved => do return { t with calleeSaved := ← integers value }

end Field

/-- What the keys of the open table mean. -/
inductive Scope where
  /-- They are the fields of the machine. -/
  | fields
  /-- They mean nothing. -/
  | ignored
  /-- They cannot be: the open table is a field. -/
  | field
deriving DecidableEq, Repr

/-- A description as far as it was followed. -/
structure Progress where
  /-- The machine. -/
  machine : MachineTable
  /-- The paths used so far. -/
  uses : Toml.Uses := {}
  /-- What the keys of the open table mean. -/
  scope : Scope := .fields
deriving DecidableEq, Repr

namespace Progress

/-- Take what must be there. -/
def require {α : Type} (a : Option α) : Except ParseError α := a.elim (.error .malformed) .ok

/-- Follow the header of a table. -/
def openTable (p : Progress) (path : List String) : Except ParseError Progress := do
  let uses ← require (p.uses.openTable path)
  match path.head?.bind Field.ofKey? with
  | none => return { p with uses, scope := .ignored }
  | some field =>
    if field = .calleeSaved ∧ p.machine.calleeSaved.isEmpty then throw .malformed
    if 1 < path.length then
      throw (.notTable (if field.type = .text then .text else .integer))
    return { p with uses, scope := .field }

/-- Follow the header of an element of an array of tables. -/
def addElement (p : Progress) (path : List String) : Except ParseError Progress := do
  let (uses, first) ← require (p.uses.addElement path)
  match path.head?.bind Field.ofKey? with
  | none => return { p with uses, scope := .ignored }
  | some field =>
    if 1 < path.length then
      if field = .calleeSaved ∧ p.machine.calleeSaved.isEmpty then throw .noElement
      throw (.notTable (if field.type = .text then .text else .integer))
    if field ≠ .calleeSaved then throw .malformed
    let before := if first then [] else p.machine.calleeSaved
    return { p with machine := { p.machine with calleeSaved := before ++ [0] }, uses, scope := .field }

/-- Follow a key with a value. -/
def assign (p : Progress) (key : List String) (value : Toml.Value) : Except ParseError Progress := do
  if p.scope = .ignored then return p
  let uses ← require (p.uses.assign key value)
  if p.scope = .field then throw .malformed
  match key.head?.bind Field.ofKey? with
  | none => return { p with uses }
  | some field =>
    if 1 < key.length then throw .malformed
    return { p with machine := ← field.set p.machine value, uses }

/-- Follow a statement. -/
def step (p : Progress) : Toml.Statement → Except ParseError Progress
  | .table path => p.openTable path
  | .element path => p.addElement path
  | .assign key value => p.assign key value

end Progress

/-- Whether the numbers of a description make sense. -/
def check (t : MachineTable) : Except ParseError MachineTable :=
  if t.gpr ≤ 0 ∨ t.vec ≤ 0 then .error (.pools t.name t.gpr t.vec)
  else if t.vecLen ≤ 0 ∨ t.vecLen % 4 ≠ 0 then .error (.vecLen t.name t.vecLen.toInt)
  else match t.calleeSaved.find? fun i => i < 0 ∨ t.gpr ≤ i with
    | some i => .error (.calleeSaved t.name i t.gpr)
    | none => .ok t

/-- Read a description. What it does not give has a default. -/
def parse (text : String) : Except ParseError MachineTable :=
  let start : Progress := { machine := { name := "custom", gpr := 0, vec := 0 } }
  match Toml.follow .malformed Progress.step start text with
  | .error cause => .error cause
  | .ok p => p.machine.check

end MachineTable

end TensorKernel
