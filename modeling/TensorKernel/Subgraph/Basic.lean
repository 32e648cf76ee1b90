import TensorKernel.Text.Label

/-!
# Subgraphs

The description of a kernel: its operations in execution order, and loops over contiguous ranges of
them. Operations and ports are referred to by name.
-/

namespace TensorKernel

/-- The description of an operation. -/
structure OpSpec where
  /-- The name of the operation. -/
  name : Label := ""
  /-- The operation kind. -/
  kind : Label := ""
  /-- The name of the element type; empty for that of the first input. -/
  type : Label := ""
  /-- The shape of the outputs; none for that of the first input. -/
  shape : Option (List Int) := none
  /-- The values read: outputs of earlier operations. -/
  inputs : List Label := []
  /-- The number of outputs; none for the usual number. -/
  outputs : Option Int := none
  /-- The register group of a buffer. -/
  group : Int64 := 0
deriving DecidableEq, Repr, Inhabited

/-- The description of a loop port. -/
structure PortSpec where
  /-- The reference to the port. -/
  port : Label := ""
  /-- Whether the data pointer moves; it does if nothing is said. -/
  incremented : Option Bool := none
  /-- The dimension; that of the loop if nothing is said. -/
  dim : Option Int := none
deriving DecidableEq, Repr, Inhabited

/-- The description of a loop. -/
structure LoopSpec where
  /-- The first operation of the body. -/
  first : Label := ""
  /-- The last operation of the body. -/
  last : Label := ""
  /-- The amount of work. -/
  work : Int := 0
  /-- The work of one iteration. -/
  increment : Int := 0
  /-- The dimension that the loop runs over. -/
  dim : Int := 0
  /-- Ports through which data enters. -/
  entries : List PortSpec := []
  /-- Ports through which data leaves. -/
  exits : List PortSpec := []
deriving DecidableEq, Repr, Inhabited

/-- The description of a kernel. -/
structure Subgraph where
  /-- The name of the kernel. -/
  name : Label := ""
  /-- The operations in execution order. -/
  ops : List OpSpec := []
  /-- The loops, enclosing loops before those in them. -/
  loops : List LoopSpec := []
deriving DecidableEq, Repr, Inhabited

end TensorKernel
