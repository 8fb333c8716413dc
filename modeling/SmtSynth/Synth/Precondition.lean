import SmtSynth.Synth.Table
import SmtSynth.Synth.Choice
import SmtSynth.Synth.Sketch
import SmtSynth.Build.Source
import SmtSynth.Solve.Solver
/-!
# Precondition synthesis

Candidate preconditions for a formula over named constants are drawn from a
positive example (values under which the formula should hold) and negative
examples (values under which it should not):

* for each constant whose positive value is a power of two (or zero), the
  condition `c & (c - 1) == 0`;
* for each sign-pattern sketch over as many placeholders as the positive
  example has constants, and each way of filling the placeholders with those
  constants and the numerals `0` and `1` that uses at least two different
  fillers and not exactly `0` and `1`, each of the comparisons
  `≤ 0`, `≥ 0`, `= 0`, `> 0`, `< 0` (in that order) that holds for the
  positive example and fails for every negative one.

A candidate is valid when it implies the formula. Single candidates are
tried first; only if none is valid are conjunctions of two (then three, up
to the bound) different candidates tried, in tuple order.
-/

namespace SmtSynth
namespace Precondition

/-- The operands of a list with repetitions removed. -/
def distinct (xs : List Operand) : List Operand :=
  xs.foldl (fun acc x => if acc.any (·.sameKey x) then acc else acc ++ [x]) []

/-- Whether two lists hold the same operands, as sets. -/
def sameSet (xs ys : List Operand) : Bool :=
  let a := distinct xs
  let b := distinct ys
  a.length == b.length && a.all (fun x => b.any (·.sameKey x))

/-- Whether a check finds the assertions satisfiable. -/
def satisfiable (check : Checker) (facts : List Term) : Bool :=
  match (check (facts.foldl Solver.add {})).2 with
  | .sat _ => true
  | _ => false

/-- Whether a check finds the assertions unsatisfiable. -/
def refuted (check : Checker) (facts : List Term) : Bool :=
  match (check (facts.foldl Solver.add {})).2 with
  | .unsat => true
  | _ => false

/-- The condition `c & (c - 1) == 0` on an operand. -/
def powerOfTwo (c : Operand) : Except Fault Operand := do
  let pred ← Operand.binary .sub c (.int 1)
  let masked ← Operand.binary .band c pred
  Operand.binary .eq masked (.int 0)

/-- The comparisons with zero a candidate may make, each with the
comparison that a negative example must satisfy instead, in the order they
are tried. -/
def comparisons : List (BinOp × BinOp) :=
  [(.le, .gt), (.ge, .lt), (.eq, .ne), (.gt, .le), (.lt, .ge)]

/-- The power-of-two candidates: the condition on each constant whose
positive value a check finds can be a power of two. -/
def powerCandidates (check : Checker) (positive : Table) : Except Fault (List Operand) :=
  positive.entries.filterMapM fun (c, v) => do
    if satisfiable check [← (← powerOfTwo v).asCondition] then return some (← powerOfTwo c)
    else return none

/-- The candidates a filled sketch gives: each comparison with zero that a
check finds can hold for the positive example while the opposite comparison
holds for every negative one. -/
def sketchCandidates (check : Checker) (sketch : Operand) (positive : Table) (negatives : List Table) :
    Except Fault (List Operand) := do
  let pos ← sketch.substitute positive.entries
  let negs ← negatives.mapM fun n => sketch.substitute n.entries
  comparisons.filterMapM fun (keep, reject) => do
    let first ← (← Operand.binary keep (.term pos) (.int 0)).asCondition
    let rest ← negs.mapM fun n => do (← Operand.binary reject (.term n) (.int 0)).asCondition
    if satisfiable check (first :: rest) then return some (← Operand.binary keep sketch (.int 0))
    else return none

/-- The placeholders `symb_1 … symb_n` of the sketches, of width `w`. -/
def placeholders (n : Nat) (w : Int) : Except Fault (List Operand) :=
  (List.range n).mapM fun i => do
    return Operand.term (← Term.bvConst ("symb_" ++ toString (i + 1)) w)

/-- All candidates, in the order they are found. -/
def candidates (check : Checker) (positive : Table) (negatives : List Table) (w : Int) :
    Except Fault (List Operand) := do
  let n := positive.size
  let syms ← placeholders n w
  let sketches ← Sketch.ofOperands syms 0
  let zero := Operand.term (← Term.bvVal 0 w)
  let one := Operand.term (← Term.bvVal 1 w)
  let values := positive.keys ++ [zero, one]
  let fillings := (tuples values n).filter fun combo =>
    (distinct combo).length > 1 && !sameSet combo [zero, one]
  let powers ← powerCandidates check positive
  let filled ← sketches.mapM fun sketch => do
    let each ← fillings.mapM fun combo => do
      sketchCandidates check (.term (← sketch.substitute (syms.zip combo))) positive negatives
    return each.flatten
  return powers ++ filled.flatten

/-- Whether a candidate implies the formula. -/
def implies (check : Checker) (formula : Operand) (candidate : Operand) : Except Fault Bool := do
  let negated ← Operand.unary .not formula
  let both ← Operand.connective .and [candidate, negated]
  return refuted check [← both.asCondition]

/-- The tries of round `i`, counted from zero: the candidates themselves,
then the conjunctions of `i + 1` candidates that are not all one. -/
def roundTries (cands : List Operand) (i : Nat) : Except Fault (List Operand) :=
  if i = 0 then pure cands
  else ((tuples cands (i + 1)).filter fun combo => (distinct combo).length > 1).mapM
    (Operand.connective .and)

/-- The tries of a round that imply the formula, in order. -/
def validTries (check : Checker) (formula : Operand) (tries : List Operand) : Except Fault (List Operand) :=
  tries.filterMapM fun c => do
    if ← implies check formula c then return some c else return none

/-- The valid tries of the first of `rounds` that has any. -/
def firstValid (check : Checker) (formula : Operand) (cands : List Operand) :
    List Nat → Except Fault (List Operand)
  | [] => pure []
  | i :: rounds => do
    let valid ← validTries check formula (← roundTries cands i)
    if valid.isEmpty then firstValid check formula cands rounds else pure valid

/-- The valid candidates of the first round that has any, conjunctions of
`i` different candidates in round `i`, with the decision procedure `check`. -/
def synthesizeWith (check : Checker) (formula : Operand) (positive : Table) (negatives : List Table)
    (w : Int) (rounds : Int) : Except Fault (List Operand) := do
  let cands ← candidates check positive negatives w
  firstValid check formula cands (List.range rounds.toNat)

/-- The valid candidates of the first round that has any, conjunctions of
`i` different candidates in round `i`. -/
def synthesize (formula : Operand) (positive : Table) (negatives : List Table) (w : Int)
    (rounds : Int) : Except Fault (List Operand) :=
  synthesizeWith Solver.check formula positive negatives w rounds

end Precondition
end SmtSynth
