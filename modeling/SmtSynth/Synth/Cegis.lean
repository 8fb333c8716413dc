import SmtSynth.Synth.Table
import SmtSynth.Solve.Solver
/-!
# Counterexample-guided synthesis

`existsForAll` looks for values of the "exists" constants that make a
formula hold for every value of the "for all" constants. It keeps one solver
of candidate conditions, starting with the formula itself. Each round takes
a model of the candidates, puts its values for the exists constants into the
formula and asks whether the negation has a model: if not, those values are
the answer; if so, the counterexample's values for the for-all constants are
put into the formula, which joins the candidate conditions. When the
candidate conditions have no model, there is no answer, and one line says so.

The rounds are unbounded. `cegisRun` runs at most a given number of them
with any decision procedure, and says when they all went by without an
answer; `existsForAll` is that search with the solver of this library and a
bound far above what its inputs need.
-/

namespace SmtSynth

/-- The outcome of counterexample-guided synthesis: the values found (or
none), and the lines logged. -/
structure CegisResult where
  values : Option Table
  log : String

/-- The line logged when the candidate conditions run out. -/
def unsatisfiedLine (formula : Operand) : String :=
  "             main.py: Could not satisfy exists formula for " ++ formula.hostText ++ "\n"

/-- The most rounds a search runs. -/
def cegisRounds : Nat := 100000

/-- Reads a model at each of the operands, as a table. -/
def readAll (m : Model) (cs : List Operand) : Except Fault Table := do
  let mut t : Table := {}
  for c in cs do
    t := t.insert c (← m.read c)
  return t

/-- How a round of the search ends: with an outcome, or with the candidate
conditions of the next round. -/
inductive Round where
  | done (result : CegisResult)
  | next (cands : Solver)

/-- One round of the search from a solver of candidate conditions. -/
def cegisRound (check : Checker) (formula : Operand) (exists_ forAll : List Operand) (cands : Solver) :
    Except Fault Round := do
  let (cands, v) := check cands
  match v with
  | .sat m =>
    let vals ← readAll m exists_
    let inst ← formula.substitute vals.entries
    let refute ← (← Operand.unary .not (.term inst)).asCondition
    match (check (Solver.add {} refute)).2 with
    | .unsat => return .done { values := some vals, log := "" }
    | .sat fm =>
      let cex ← forAll.mapM fun f => do return (f, ← fm.read f)
      let next ← formula.substitute cex
      return .next (cands.add (← (Operand.term next).asCondition))
    | .unknown => throw .modelUnavailable
  | _ => return .done { values := none, log := unsatisfiedLine formula }

/-- At most `fuel` rounds of the search; `none` when they all go by without
an outcome. -/
def cegisRun (check : Checker) (formula : Operand) (exists_ forAll : List Operand) :
    Nat → Solver → Except Fault (Option CegisResult)
  | 0, _ => return none
  | fuel + 1, cands => do
    match ← cegisRound check formula exists_ forAll cands with
    | .done r => return some r
    | .next cands => cegisRun check formula exists_ forAll fuel cands

/-- At most `fuel` rounds of the search for values of `exists_` that make
`formula` hold for all values of `forAll`, with the decision procedure
`check`. -/
def existsForAllWith (check : Checker) (fuel : Nat) (formula : Operand) (exists_ forAll : List Operand) :
    Except Fault (Option CegisResult) := do
  cegisRun check formula exists_ forAll fuel (Solver.add {} (← formula.asCondition))

/-- Values of `exists_` that make `formula` hold for all values of `forAll`. -/
def existsForAll (formula : Operand) (exists_ forAll : List Operand) : Except Fault CegisResult := do
  let r ← existsForAllWith Solver.check cegisRounds formula exists_ forAll
  return r.getD { values := none, log := "" }

end SmtSynth
