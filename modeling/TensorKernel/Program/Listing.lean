import TensorKernel.Program.Basic

/-!
# Listings

A program is listed one expression a line, indented by loops, each with its execution number and the
registers of its ports. The names of registers are the reader's choice: abstract ones, or those of a
machine.
-/

namespace TensorKernel

/-- `text` padded on the left with blanks to at least `width` characters. -/
def padLeft (width : Nat) (text : String) : String :=
  String.ofList (List.replicate (width - text.length) ' ') ++ text

/-- `text` padded on the right with blanks to at least `width` characters. -/
def padRight (width : Nat) (text : String) : String :=
  text ++ String.ofList (List.replicate (width - text.length) ' ')

namespace Expr

/-- The line of an expression at an indentation depth; a negative depth counts as none. -/
def line (regName : Reg → String) (depth : Int) (e : Expr) : String :=
  let outs := String.intercalate ", " (e.outputs.map fun o => regName o.port.reg)
  let ins := String.intercalate ", " (e.inputs.map fun i => regName i.port.reg)
  "  " ++ padLeft 3 (toString e.exec) ++ ": " ++
    String.ofList (List.replicate (2 * depth.toNat) ' ') ++
    (if e.outputs.isEmpty then "" else outs ++ " = ") ++ e.kind.shown ++
    (if e.role.isLoopMarker then s!"#{e.loop}" else "") ++ " " ++ e.name.shown ++ "(" ++ ins ++ ")" ++
    (if e.role = .buffer then s!" group={e.group}" else "") ++
    (match e.spilled with
      | some regs => " regs=" ++ regs.textWith regName
      | none => "")

/-- The lines of expressions from an indentation depth on. A begin marker indents what follows, and
an end marker takes its own line back. -/
def lines (regName : Reg → String) (depth : Int) : List Expr → List String
  | [] => []
  | e :: rest =>
    let depth := if e.role = .loopEnd then depth - 1 else depth
    e.line regName depth ::
      lines regName (if e.role = .loopBegin then depth + 1 else depth) rest

end Expr

namespace LoopInfo

/-- The word for the kind of a loop. -/
def kindName : LoopInfo → String
  | unified _ => "unified"
  | expanded l => "expanded/" ++ l.iteration.name

end LoopInfo

namespace Program

/-- The text of a reference to a port. -/
def portText (p : Program) (r : PortRef) : String :=
  (p.expr r.expr).name.shown ++ "." ++ r.side.name ++ toString r.index

/-- The text of a value: the output port that it leaves its producer by. -/
def valueText (p : Program) (v : ValueRef) : String := p.portText ⟨v.producer, .output, v.output⟩

/-- The text of a use: the input port that it enters its consumer by. -/
def useText (p : Program) (u : UseRef) : String := p.portText ⟨u.consumer, .input, u.input⟩

/-- The listing of a program. -/
def lines (p : Program) (regName : Reg → String) : List String :=
  (p.name.shown ++ "() \x7b") ::
    ((if p.loops.size = 0 then [] else [s!"  ; loops = {p.loops.size}"]) ++
      Expr.lines regName 0 p.list ++ ["\x7d"])

/-- The lines of the ports of a loop, each with its part of the pointer arithmetic. -/
def loopPortLines (p : Program) (label : String) (ports : List LoopPort)
    (arithmetic : List (Int64 × Int64 × Int64)) : List String :=
  List.zipWith (fun port (increment, offset, size) =>
    s!"  {label} " ++ p.portText port.port ++
      s!" incremented={port.incremented} ptr_increment={increment}" ++
      s!" finalization_offset={offset} data_size={size}") ports arithmetic

/-- The description of a loop. -/
def loopInfoLines (p : Program) (id : LoopId) (info : LoopInfo) : List String :=
  let frame := info.frame
  let arithmetic :=
    info.ptrIncrements.zip (info.finalizationOffsets.zip info.dataSizes)
  (s!"loop {id} (" ++ info.kindName ++
    s!"): work_amount={frame.work} increment={frame.increment} dim={frame.dim}") ::
    (p.loopPortLines "entry" frame.entries arithmetic ++
      p.loopPortLines "exit" frame.exits (arithmetic.drop frame.entries.length))

/-- The description of all loops, in the order of their ids. -/
def loopLines (p : Program) : List String :=
  p.loops.bindings.flatMap fun (id, binding) => p.loopInfoLines id (p.loops.resolve binding)

end Program

end TensorKernel
