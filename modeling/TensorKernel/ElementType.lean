/-!
# Element types

The type of the elements of a tensor, its name, its number and its size in memory.
-/

namespace TensorKernel

/-- The type of a tensor element. -/
inductive ElementType where
  | invalid
  | bool
  | int8
  | int16
  | int32
  | int64
  | uint8
  | uint16
  | uint32
  | uint64
  | float16
  | float32
  | float64
  | bfloat16
  | complex64
  | complex128
  | f8e5m2
  | f8e4m3fn
  | f8e4m3b11fnuz
  | f8e5m2fnuz
  | f8e4m3fnuz
  | s4
  | u4
  | token
  | s2
  | u2
  | f8e4m3
  | f8e3m4
  | f8e8m0fnu
  | f4e2m1fn
deriving DecidableEq, Repr, Inhabited

namespace ElementType

/-- Every element type, in the order of the numbers. -/
def all : List ElementType :=
  [invalid, bool, int8, int16, int32, int64, uint8, uint16, uint32, uint64, float16, float32,
    float64, bfloat16, complex64, complex128, f8e5m2, f8e4m3fn, f8e4m3b11fnuz, f8e5m2fnuz,
    f8e4m3fnuz, s4, u4, token, s2, u2, f8e4m3, f8e3m4, f8e8m0fnu, f4e2m1fn]

/-- The number of an element type. -/
def code (t : ElementType) : Nat := all.idxOf t

/-- The name of an element type. -/
def name : ElementType → String
  | invalid => "InvalidDType"
  | bool => "Bool"
  | int8 => "Int8"
  | int16 => "Int16"
  | int32 => "Int32"
  | int64 => "Int64"
  | uint8 => "Uint8"
  | uint16 => "Uint16"
  | uint32 => "Uint32"
  | uint64 => "Uint64"
  | float16 => "Float16"
  | float32 => "Float32"
  | float64 => "Float64"
  | bfloat16 => "BFloat16"
  | complex64 => "Complex64"
  | complex128 => "Complex128"
  | f8e5m2 => "F8E5M2"
  | f8e4m3fn => "F8E4M3FN"
  | f8e4m3b11fnuz => "F8E4M3B11FNUZ"
  | f8e5m2fnuz => "F8E5M2FNUZ"
  | f8e4m3fnuz => "F8E4M3FNUZ"
  | s4 => "S4"
  | u4 => "U4"
  | token => "TOKEN"
  | s2 => "S2"
  | u2 => "U2"
  | f8e4m3 => "F8E4M3"
  | f8e3m4 => "F8E3M4"
  | f8e8m0fnu => "F8E8M0FNU"
  | f4e2m1fn => "F4E2M1FN"

/-- The bytes of one element; types without a memory representation have none. -/
def byteSize? : ElementType → Option Int64
  | bool | int8 | uint8 => some 1
  | int16 | uint16 | float16 | bfloat16 => some 2
  | int32 | uint32 | float32 => some 4
  | int64 | uint64 | float64 | complex64 => some 8
  | complex128 => some 16
  | _ => none

/-- Lower case of a character as far as it can meet an ASCII name: besides the ASCII letters, the
Kelvin sign and the dotted capital I have ASCII lower cases. -/
def lowerChar (c : Char) : Char :=
  if c.toNat = 0x212a then 'k'
  else if c.toNat = 0x130 then 'i'
  else c.toLower

/-- The element type of a name, in any case. -/
def ofName? (text : String) : Option ElementType :=
  all.find? fun t => t.name.toList.map lowerChar = text.toList.map lowerChar

end ElementType

end TensorKernel
