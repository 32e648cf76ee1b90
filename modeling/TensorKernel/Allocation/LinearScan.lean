import TensorKernel.Allocation.Shortage
import TensorKernel.Register.Table
import TensorKernel.Sorting

/-!
# Linear scan

The registers of one bank are handed out to live intervals in the order in which the intervals start.
An interval keeps its physical register until it stops; an interval that starts where another one
stops still conflicts with it. Free registers form a stack that is loaded so that the lowest register
is handed out first. The state survives from one allocation to the next, also after a shortage.
-/

namespace TensorKernel

/-- An abstract register with its live interval. -/
structure LiveReg where
  /-- The interval. -/
  range : Interval
  /-- The register. -/
  reg : Reg
deriving DecidableEq, Repr, Inhabited

namespace LiveReg

/-- Order of processing: by interval, then by register. -/
def precedes (a b : LiveReg) : Bool :=
  a.range < b.range ∨ (a.range = b.range ∧ ¬ b.reg < a.reg)

/-- Whether `a` stops before `b`; among equal stops, whether it starts before `b`. -/
def expiresBefore (a b : LiveReg) : Bool :=
  a.range.stop < b.range.stop ∨ (a.range.stop = b.range.stop ∧ a.range.start < b.range.start)

end LiveReg

/-- The state of a linear scan over one bank. -/
structure LinearScan where
  /-- The bank. -/
  bank : Bank
  /-- The physical registers that can be handed out, ascending. -/
  pool : List Reg
  /-- The intervals that hold a register, by stop and then by start. -/
  active : List LiveReg := []
  /-- The free registers, next one first. -/
  free : List Reg
  /-- What was handed out so far. -/
  assigned : RegTable Reg := ∅
deriving DecidableEq

namespace LinearScan

/-- A scan over a pool, all of whose registers must be in the bank. -/
def start (bank : Bank) (pool : List Reg) : Except Fault LinearScan :=
  let pool := sortBy (fun a b => !(b < a)) pool
  match pool.reverse.find? (·.bank ≠ bank) with
  | some r => .error (.poolBank bank r)
  | none => .ok { bank, pool, free := pool }

/-- Take back the registers of the intervals that stop before `position`. -/
def expire (s : LinearScan) (position : Int) : LinearScan :=
  let expired := s.active.takeWhile (·.range.stop < position)
  { s with
    active := s.active.drop expired.length
    free := expired.foldl (fun free l => (s.assigned.get? l.reg).getD .unassigned :: free) s.free }

/-- Put an interval behind the active ones that expire before it. -/
def insertActive (l : LiveReg) (active : List LiveReg) : List LiveReg :=
  active.takeWhile (·.expiresBefore l) ++ l :: active.dropWhile (·.expiresBefore l)

/-- Hand out a register to one interval. -/
def place (l : LiveReg) : EStateM Refusal LinearScan Unit := do
  modify (·.expire l.range.start)
  let s ← get
  if s.active.length = s.pool.length then
    throw (.shortage (.exhausted s.bank s.pool.length l.reg l.range))
  match s.free with
  | [] => throw (.fault .outOfBounds)
  | phys :: free =>
    set { s with
      free
      assigned := s.assigned.insert l.reg phys
      active := insertActive l s.active }

/-- Two neighbours with the same interval, if there are any. -/
def sameNeighbours? : List LiveReg → Option (LiveReg × LiveReg)
  | a :: b :: rest => if a.range = b.range then some (a, b) else sameNeighbours? (b :: rest)
  | _ => none

/-- The intervals in the order in which they are processed. -/
def queue (ranges : RegTable Interval) : List LiveReg :=
  sortBy LiveReg.precedes (ranges.entries.map fun (reg, range) => (⟨range, reg⟩ : LiveReg))

/-- Hand out a register of the bank to every interval and give all that was handed out so far. No two
registers may have the same interval. -/
def allocate (ranges : RegTable Interval) : EStateM Refusal LinearScan (RegTable Reg) := do
  let s ← get
  if let some r := ranges.keys.find? (·.bank ≠ s.bank) then
    throw (.fault (.scanBank s.bank r))
  if let some (a, b) := sameNeighbours? (queue ranges) then
    throw (.fault (.sameInterval s.bank a.reg b.reg b.range))
  (queue ranges).forM place
  return (← get).assigned

end LinearScan

end TensorKernel
