import SmtSynth.Synth.Cegis
/-!
# Negative examples

Values of chosen constants under which a formula fails: models of its
negation, each read at the chosen constants. After each one, every chosen
constant is asserted to differ from the value just read, so the next model
differs in all of them. The search stops after the number of examples asked
for, or as soon as the assertions have no model.
-/

namespace SmtSynth

/-- The solver with a constant asserted to differ from a value. A constant
with no value is given the assertion `true`. -/
def blockEntry (s : Solver) (p : Operand × Operand) : Except Fault Solver := do
  return s.add (← (← Operand.binary .ne p.1 p.2).asCondition)

/-- The solver with each constant of an example asserted to differ from the
value the example gives it, in the example's order. -/
def blockExample (s : Solver) (ex : Table) : Except Fault Solver :=
  ex.entries.foldlM blockEntry s

/-- At most `count` more examples: each check that finds a model gives the
model read at `consts`, whose values are blocked before the next check. -/
def negativeRun (check : Checker) (consts : List Operand) : Nat → Solver → Except Fault (List Table)
  | 0, _ => pure []
  | count + 1, s =>
    match check s with
    | (s, .sat m) => do
      let ex ← readAll m consts
      let s ← blockExample s ex
      return ex :: (← negativeRun check consts count s)
    | (_, .unsat) => pure []
    | (_, .unknown) => throw .modelUnavailable

/-- Up to `count` tables of values under which `formula` fails, found with the
decision procedure `check`. -/
def negativeExamplesWith (check : Checker) (formula : Operand) (consts : List Operand) (count : Int) :
    Except Fault (List Table) := do
  negativeRun check consts count.toNat (Solver.add {} (← (← Operand.unary .not formula).asCondition))

/-- Up to `count` tables of values under which `formula` fails. -/
def negativeExamples (formula : Operand) (consts : List Operand) (count : Int) :
    Except Fault (List Table) :=
  negativeExamplesWith Solver.check formula consts count

end SmtSynth
