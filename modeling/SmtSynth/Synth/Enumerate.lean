import SmtSynth.Synth.Table
import SmtSynth.Synth.Choice
import SmtSynth.Synth.Equation
/-!
# Enumerative synthesis

A sketch over inputs and named constants is instantiated every way the
enumeration allows: each input takes one of the special values `0`, `1` and
`-1`, and the constants are renamed by every ordering of themselves. An
instance is kept, simplified, when it can equal the target while each
constant has its given value. Instances come in the order of input tuples
first, orderings second; equal instances are all kept.
-/

namespace SmtSynth

/-- The special values inputs take: zero, one and minus one. -/
def specialValues (w : Int) : Except Fault (List Operand) := do
  return [.term (← Term.bvVal 0 w), .term (← Term.bvVal 1 w), .term (← Term.bvVal (-1) w)]

/-- Whether the constants' values and `e = target` can hold together, as the
decision procedure `check` finds. -/
def admits (check : Checker) (constants : Table) (e : Term) (target : Operand) : Except Fault Bool := do
  let facts ← constants.entries.mapM fun entry => do (← Operand.binary .eq entry.1 entry.2).asCondition
  let goal ← (← Operand.binary .eq (.term e) target).asCondition
  match (check ((facts ++ [goal]).foldl Solver.add {})).2 with
  | .sat _ => return true
  | _ => return false

/-- The instances of `sketch` that `check` finds can equal `target`,
simplified by `simp`: every tuple of special values for the inputs, with
every ordering of the constants for each. -/
def enumerateWith (check : Checker) (simp : Term → Term) (sketch : Operand) (inputs : List Operand)
    (constants : Table) (target : Operand) (w : Int) : Except Fault (List Term) := do
  let specials ← specialValues w
  let keys := constants.keys
  let combos := (tuples specials inputs.length).flatMap fun values => (orderings keys).map (values, ·)
  combos.filterMapM fun combo => do
    let e ← sketch.substitute (inputs.zip combo.1 ++ keys.zip combo.2)
    if ← admits check constants e target then return some (simp e) else return none

/-- The simplified instances of `sketch` that can equal `target`. -/
def enumerate (sketch : Operand) (inputs : List Operand) (constants : Table) (target : Operand)
    (w : Int) : Except Fault (List Term) :=
  enumerateWith Solver.check Term.simplify sketch inputs constants target w

end SmtSynth
