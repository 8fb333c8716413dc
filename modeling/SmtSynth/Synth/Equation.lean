import SmtSynth.Build.Source
import SmtSynth.Solve.Solver
/-!
# One-step equations

`solveEq op val target w` finds a `w`-bit unknown `x` with
`val op x = target`, where `op` is `+` or `-`. The unknown is the constant
named `x` of width `w`, so a formula that mentions a constant of that name
and width means the same unknown. The answer is the model's value of `x`:
absent when there is no solution, and also when simplification removed `x`
because every value of it is a solution.
-/

namespace SmtSynth

/-- The operators an equation step joins a known value and the unknown with. -/
def stepOp? : String → Option BinOp
  | "+" => some .add
  | "-" => some .sub
  | _ => none

/-- The value of `x` that makes `val op x` equal `target`, if the decision
procedure `check` finds one. -/
def solveEqWith (check : Checker) (op : String) (val target : Operand) (w : Int) : Except Fault Operand := do
  let x ← Term.bvConst "x" w
  let lhs ← match stepOp? op with
    | some o => Operand.binary o val (.term x)
    | none => throw .unsupportedOperator
  let goal ← (← Operand.binary .eq lhs target).asCondition
  match (check (Solver.add {} goal)).2 with
  | .sat m => m.read (.term x)
  | _ => return .none

/-- The value of `x` that makes `val op x` equal `target`, if one is found. -/
def solveEq (op : String) (val target : Operand) (w : Int) : Except Fault Operand :=
  solveEqWith Solver.check op val target w

end SmtSynth
