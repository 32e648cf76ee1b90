import TensorKernel.ElementType
import TensorKernel.Liveness.Interval
import TensorKernel.Register.Basic

/-!
# Faults

A fault is a broken contract: an operation was asked for something that its callers must never ask
for. Every fault names its cause, and one function gives the wording.
-/

namespace TensorKernel

/-- The way in which a contract was broken. Text arguments are names of programs and expressions. -/
inductive Fault where
  /-- A position outside a list was asked for. -/
  | outOfBounds
  /-- An expression was built on a missing input. -/
  | missingInput (expr : Label) (input : Nat)
  /-- An expression does not have this input. -/
  | noInput (expr : Label) (input : Int) (count : Nat)
  /-- An expression does not have this output. -/
  | noOutput (expr : Label) (output : Int) (count : Nat)
  /-- An expression has no port state for this input. -/
  | noInputPort (expr : Label) (input : Int) (count : Nat)
  /-- An expression has no port state for this output. -/
  | noOutputPort (expr : Label) (output : Int) (count : Nat)
  /-- A copy was asked for with the wrong number of inputs. -/
  | cloneArity (expr : Label) (given expected : Nat)
  /-- A value that is already in an alias group was made an alias. -/
  | alreadyAliased (expr other : Label)
  /-- Two expressions of one program would share a name. -/
  | duplicateName (program expr : Label)
  /-- Expressions cannot be inserted at this position. -/
  | insertPosition (program : Label) (position : Int) (length : Nat)
  /-- A loop step must be positive. -/
  | loopIncrement (increment : Int)
  /-- The per-port lists of an expanded loop do not match its ports. -/
  | denseArrays (iteration : String) (increments offsets sizes ports : Nat)
  /-- An expanded loop does not name the loop it comes from. -/
  | missingUnified (iteration : String)
  /-- A loop that is not registered cannot be replaced. -/
  | replaceUnknownLoop (id : Int)
  /-- No loop has this id. -/
  | unknownLoop (id : Int)
  /-- A loop was expected to be unified, but is expanded. -/
  | notUnified (id : Int)
  /-- A loop was expected to be expanded, but is unified. -/
  | notExpanded (id : Int)
  /-- A loop cannot enclose this range. -/
  | loopRange (begin stop : Int) (length : Nat)
  /-- Loop markers are placed by entry and exit points, and one kind is missing. -/
  | markersNeedPorts (id : Int)
  /-- An entry point is not in the program. -/
  | entryOutside (id : Int) (expr : Label)
  /-- An exit point is not in the program. -/
  | exitOutside (id : Int) (expr : Label)
  /-- The last exit comes before the first entry. -/
  | exitBeforeEntry (id : Int)
  /-- A loop has no pair of markers in the program. -/
  | markersNotFound (id : Int)
  /-- A loop can only be split by a positive step. -/
  | variantIncrement (increment : Int)
  /-- Elements of this type have no size. -/
  | elementSize (type : ElementType)
  /-- The numbering of a program does not follow its order. -/
  | notEnumerated (program expr : Label) (exec : Int) (position : Nat)
  /-- An output belongs to no register bank. -/
  | noRegisterType (program : Label) (output : Nat) (expr : Label)
  /-- A register was given a second live range. -/
  | liveRangeSet (reg : Reg)
  /-- A live range ends before it starts. -/
  | invalidRange (reg : Reg) (range : Interval)
  /-- A register has no live range. -/
  | liveRangeMissing (reg : Reg)
  /-- An expression was given a second live set. -/
  | liveSetSet (expr : Label)
  /-- An expression has no live set. -/
  | liveSetMissing (expr : Label)
  /-- A register pool holds a register of another bank. -/
  | poolBank (bank : Bank) (reg : Reg)
  /-- A register of another bank was to be allocated. -/
  | scanBank (bank : Bank) (reg : Reg)
  /-- Two registers live over the same interval. -/
  | sameInterval (bank : Bank) (first second : Reg) (range : Interval)
  /-- A register with a live range is in no bank that is allocated. -/
  | unsupportedBank (program : Label) (reg : Reg)
  /-- A value to be pinned has no abstract register yet. -/
  | pinUndefined (program expr : Label)
  /-- A value was to be pinned to a register of another bank. -/
  | pinBank (program : Label) (abstract : Reg) (expr : Label) (phys : Reg)
  /-- A value was to be pinned to two registers. -/
  | pinConflict (program : Label) (abstract : Reg) (expr : Label) (earlier later : Reg)
  /-- A port has no physical register. -/
  | portUnassigned (program expr : Label) (side : String) (index : Nat) (abstract : Reg)
  /-- A live register has no physical register. -/
  | liveUnassigned (program expr : Label) (abstract : Reg)
  /-- Spills were asked for before live sets were computed. -/
  | spillWithoutLiveSet (program call : Label)
deriving DecidableEq, Repr

namespace Fault

/-- The wording of a fault. -/
def message : Fault → String
  | outOfBounds => "index out of range"
  | missingInput expr input => s!"NewExpression({expr}): input #{input} is nil"
  | noInput expr input count =>
    s!"Expression({expr}).Input({input}): out of range, expression has {count} inputs"
  | noOutput expr output count =>
    s!"Expression({expr}).Output({output}): out of range, expression has {count} outputs"
  | noInputPort expr input count =>
    s!"Expression({expr}).InputDesc({input}): out of range, expression has {count} inputs"
  | noOutputPort expr output count =>
    s!"Expression({expr}).OutputDesc({output}): out of range, expression has {count} outputs"
  | cloneArity expr given expected =>
    s!"Expression({expr}).Clone: got {given} inputs, expected {expected}"
  | alreadyAliased expr other =>
    s!"PortConnector({expr}).AliasOf({other}): connector already belongs to an alias group"
  | duplicateName program expr =>
    s!"LinearIR({program}): duplicate expression name " ++ expr.quoted
  | insertPosition program position length =>
    s!"LinearIR({program}).InsertAt({position}): position out of range [0, {length}]"
  | loopIncrement increment =>
    s!"NewUnifiedLoopInfo: increment must be positive, got {increment}"
  | denseArrays iteration increments offsets sizes ports =>
    s!"ExpandedLoopInfo({iteration}): dense arrays ({increments} ptr increments, {offsets} " ++
      s!"finalization offsets, {sizes} data sizes) do not match {ports} loop ports"
  | missingUnified iteration => s!"ExpandedLoopInfo({iteration}): missing unified loop"
  | replaceUnknownLoop id => s!"LoopManager.Replace({id}): unknown loop"
  | unknownLoop id => s!"LoopManager.Loop({id}): unknown loop"
  | notUnified id => s!"LoopManager.Unified({id}): loop is *lir.ExpandedLoopInfo"
  | notExpanded id => s!"LoopManager.Expanded({id}): loop is *lir.UnifiedLoopInfo"
  | loopRange begin stop length =>
    s!"LoopManager.MarkLoop: invalid range [{begin}, {stop}) for {length} expressions"
  | markersNeedPorts id => s!"InsertLoopMarkers({id}): loop needs entry and exit points"
  | entryOutside id expr =>
    s!"InsertLoopMarkers({id}): entry expression {expr} is not in the program"
  | exitOutside id expr =>
    s!"InsertLoopMarkers({id}): exit expression {expr} is not in the program"
  | exitBeforeEntry id =>
    s!"InsertLoopMarkers({id}): last exit expression precedes the first entry expression"
  | markersNotFound id => s!"LoopBounds({id}): loop markers not found"
  | variantIncrement increment => s!"Variants: increment must be positive, got {increment}"
  | elementSize type =>
    "unknown dtype " ++ Text.quoted type.name ++ s!" ({type.code}) in DType.GoType"
  | notEnumerated program expr exec position =>
    s!"InitLiveRanges({program}): expression {expr} has exec number {exec} at position " ++
      s!"{position}, Linear IR is not enumerated"
  | noRegisterType program output expr =>
    s!"InitLiveRanges({program}): output {output} of {expr} has no register type"
  | liveRangeSet reg => "RegManager.SetLiveRange(" ++ reg.text ++ "): live range already set"
  | invalidRange reg range =>
    "RegManager.SetLiveRange(" ++ reg.text ++ "): invalid interval " ++ range.text
  | liveRangeMissing reg => "RegManager.LiveRange(" ++ reg.text ++ "): live range was not set"
  | liveSetSet expr => s!"RegManager.SetLiveRegs({expr}): live regs already set"
  | liveSetMissing expr => s!"RegManager.LiveRegs({expr}): live regs were not set"
  | poolBank bank reg =>
    "NewLinearScan(" ++ bank.name ++ "): pool register " ++ reg.text ++ " is in another bank"
  | scanBank bank reg =>
    "LinearScan(" ++ bank.name ++ "): register " ++ reg.text ++ " is in another bank"
  | sameInterval bank first second range =>
    "LinearScan(" ++ bank.name ++ "): " ++ first.text ++ " and " ++ second.text ++
      " have the same live interval " ++ range.text
  | unsupportedBank program reg =>
    s!"AssignRegisters({program}): unsupported register bank of " ++ reg.text
  | pinUndefined program expr =>
    s!"AssignRegisters({program}): {expr} has no abstract register, InitLiveRanges must run first"
  | pinBank program abstract expr phys =>
    s!"AssignRegisters({program}): cannot pin " ++ abstract.text ++ s!" of {expr} to " ++ phys.text
  | pinConflict program abstract expr earlier later =>
    s!"AssignRegisters({program}): " ++ abstract.text ++ s!" of {expr} pinned to both " ++
      earlier.text ++ " and " ++ later.text
  | portUnassigned program expr side index abstract =>
    s!"AssignRegisters({program}): {expr} {side}{index}: no physical register for " ++ abstract.text
  | liveUnassigned program expr abstract =>
    s!"AssignRegisters({program}): live regs of {expr}: no physical register for " ++ abstract.text
  | spillWithoutLiveSet program call =>
    s!"InsertRegSpills({program}): no live registers recorded for {call}, run InitLiveRanges first"

end Fault

end TensorKernel
