import TensorKernel.Fault

/-!
# Running out of registers

A kernel may need more registers than a machine has. This is not a broken contract: the caller is
expected to give up on the kernel.
-/

namespace TensorKernel

/-- The way in which registers ran out. -/
inductive Shortage where
  /-- A bank has no free register for another live value. -/
  | exhausted (bank : Bank) (size : Nat) (reg : Reg) (range : Interval)
  /-- A register that a convention fixes is not in its bank. -/
  | pinnedOutside (bank : Bank) (size : Int) (reg : Reg)
  /-- A shortage met while the registers of a program were assigned. -/
  | during (program : Label) (cause : Shortage)
deriving DecidableEq, Repr

/-- The wording of a shortage. -/
def Shortage.message : Shortage → String
  | exhausted bank size reg range =>
    bank.name ++ s!" pool of {size} registers exhausted allocating " ++ reg.text ++ " live over " ++
      range.text ++ ": not enough registers for a snippet"
  | pinnedOutside bank size reg =>
    bank.name ++ s!" pool of {size} registers cannot hold pinned register " ++ reg.text ++
      ": not enough registers for a snippet"
  | during program cause => s!"AssignRegisters({program}): " ++ cause.message

/-- Why registers could not be assigned. -/
inductive Refusal where
  /-- A contract was broken. -/
  | fault (fault : Fault)
  /-- There are not enough registers. -/
  | shortage (shortage : Shortage)
deriving DecidableEq, Repr

/-- The wording of a refusal. -/
def Refusal.message : Refusal → String
  | fault f => f.message
  | shortage s => s.message

end TensorKernel
