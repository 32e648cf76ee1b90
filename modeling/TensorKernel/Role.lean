import TensorKernel.Register.Basic

/-!
# Roles

The role of an expression is what the passes look at instead of its operation kind: where values
enter and leave the kernel, which expressions delimit loops, and in which bank results live.
-/

namespace TensorKernel

/-- The structural role of an expression. -/
inductive Role where
  /-- Plain computation. -/
  | op
  /-- A data pointer the kernel is called with. -/
  | parameter
  /-- A data pointer the kernel writes its answer to. -/
  | result
  /-- Scratch memory. -/
  | buffer
  /-- Start of a loop body. -/
  | loopBegin
  /-- End of a loop body. -/
  | loopEnd
  /-- Another view of the memory of its producer, sharing its data pointer. -/
  | shapeInfer
  | load
  | broadcastLoad
  | store
  | scalar
  | fill
  | vectorBuffer
  | horizonMax
  | horizonSum
  /-- Leaves the kernel; live registers are saved around it. -/
  | externalCall
  | regSpillBegin
  | regSpillEnd
  /-- A role number without a meaning. -/
  | unnamed
deriving DecidableEq, Repr, Inhabited

namespace Role

/-- The text of a role. -/
def name : Role → String
  | op => "Op"
  | parameter => "Parameter"
  | result => "Result"
  | buffer => "Buffer"
  | loopBegin => "LoopBegin"
  | loopEnd => "LoopEnd"
  | shapeInfer => "ShapeInfer"
  | load => "Load"
  | broadcastLoad => "BroadcastLoad"
  | store => "Store"
  | scalar => "Scalar"
  | fill => "Fill"
  | vectorBuffer => "VectorBuffer"
  | horizonMax => "HorizonMax"
  | horizonSum => "HorizonSum"
  | externalCall => "ExternalCall"
  | regSpillBegin => "RegSpillBegin"
  | regSpillEnd => "RegSpillEnd"
  | unnamed => "Role?"

/-- The named roles in the order of their numbers. -/
def all : List Role :=
  [op, parameter, result, buffer, loopBegin, loopEnd, shapeInfer, load, broadcastLoad, store,
    scalar, fill, vectorBuffer, horizonMax, horizonSum, externalCall, regSpillBegin, regSpillEnd]

/-- The role with a given number. -/
def ofCode : Int → Role
  | .ofNat n => all.getD n unnamed
  | .negSucc _ => unnamed

/-- The role that a word stands for, as an operation kind. -/
def ofWord : String → Role
  | "Parameter" => parameter
  | "Result" => result
  | "Buffer" => buffer
  | "LoopBegin" => loopBegin
  | "LoopEnd" => loopEnd
  | "Reshape" => shapeInfer
  | "RankNormalization" => shapeInfer
  | "Load" => load
  | "BroadcastLoad" => broadcastLoad
  | "Store" => store
  | "Scalar" => scalar
  | "Fill" => fill
  | "VectorBuffer" => vectorBuffer
  | "HorizonMax" => horizonMax
  | "HorizonSum" => horizonSum
  | "Brgemm" => externalCall
  | "ExternalCall" => externalCall
  | "RegSpillBegin" => regSpillBegin
  | "RegSpillEnd" => regSpillEnd
  | _ => op

/-- The role of an operation kind. Kinds without an entry are plain computations. -/
def ofKind (kind : Label) : Role := (kind.string?.map ofWord).getD op

/-- A plain role gives way to the role of the operation kind. -/
def orOfKind (role : Role) (kind : Label) : Role :=
  if role = op then ofKind kind else role

/-- Horizontal reductions fold a vector into one element. -/
def isHorizontal (role : Role) : Bool := role = horizonMax ∨ role = horizonSum

/-- The two loop markers. -/
def isLoopMarker (role : Role) : Bool := role = loopBegin ∨ role = loopEnd

/-- The bank of the outputs: data pointers and loop counters are general-purpose, loaded and computed
values are vectors. -/
def bank : Role → Bank
  | parameter | result | buffer | shapeInfer | loopBegin | loopEnd | store | externalCall
  | regSpillBegin | regSpillEnd => .gpr
  | load | broadcastLoad | scalar | fill | vectorBuffer | horizonMax | horizonSum | op => .vec
  | unnamed => .undefined

end Role

end TensorKernel
