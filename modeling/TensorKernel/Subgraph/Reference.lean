import TensorKernel.Expr

/-!
# References to ports

A port is written as the name of an operation, a dot, `in` or `out`, and a number. The bare name of an
operation means its output 0. A name ends at the first dot.
-/

namespace TensorKernel

/-- A reference to a port of a named operation. -/
structure Reference where
  /-- The name of the operation. -/
  name : Label
  /-- Whether an input or an output is meant. -/
  side : Side
  /-- Which one. -/
  index : Nat
deriving DecidableEq, Repr, Inhabited

namespace Reference

/-- Why a text is no reference. -/
inductive Error where
  /-- There is no name before the dot. -/
  | noName (text : Label)
  /-- What follows the dot is neither an input nor an output. -/
  | noSide (text : Label)
  /-- The number of the port is missing or malformed. -/
  | badIndex (text : Label)
deriving DecidableEq, Repr

/-- The wording for a text that is no reference. -/
def Error.message : Error → String
  | noName text => "invalid port reference " ++ text.quoted
  | noSide text =>
    "invalid port reference " ++ text.quoted ++ ": expected in<N> or out<N> after the dot"
  | badIndex text => "invalid port index in " ++ text.quoted

/-- The side that a port text starts with, and the number behind it. -/
def splitSide? (port : Label) : Option (Side × Label) :=
  ((port.after? "out").map fun digits => (.output, digits)).or
    ((port.after? "in").map fun digits => (.input, digits))

/-- Read a reference. -/
def parse (text : Label) : Except Error Reference :=
  let name := text.bytes.takeWhile (· ≠ '.'.toUInt8)
  if name.isEmpty then .error (.noName text)
  else match text.bytes.drop name.length with
    | [] => .ok ⟨⟨name⟩, .output, 0⟩
    | _ :: port =>
      match splitSide? ⟨port⟩ with
      | none => .error (.noSide text)
      | some (side, digits) =>
        match digits.string?.bind Text.decimalNat? with
        | some index => .ok ⟨⟨name⟩, side, index⟩
        | none => .error (.badIndex text)

end Reference

end TensorKernel
