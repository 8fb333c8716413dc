import SmtSynth.Synth.Demo
/-!
# Benchmarks

Fixed workloads over the synthesis procedures, each with integer keyword
parameters that scale it. A benchmark answers a small structured outcome
(counts, texts, lists of them, or nothing) and the lines logged meanwhile.

* `bench_enumerative_synthesis(n_inputs)`: the simplified instances of the
  4-bit sketch `(x₀ + c1) - (x₁ + … + c2)` that reach `4` from
  `c1 = 1, c2 = 5`;
* `bench_exists_for_all(n_problems)`: the shift puzzle `n_problems + 1`
  times, the additive identity, and an unsatisfiable puzzle; each answer
  as the sorted names it found, or nothing;
* `bench_generate_expressions(n_vars)`: how many sign-pattern sketches
  `n_vars` placeholders have;
* `bench_get_negative_examples(n_examples)`: how many negative examples the
  32-bit shift identity and a valid identity have, up to the count;
* `bench_inductive_synthesis(depth)`: how many answers inductive synthesis
  finds at the depth, and the sorted answers of a depth-two run;
* `bench_solve_eq(n_targets)`: one-step equations for targets `0, 1, …`,
  with `err` for the operator that is refused;
* `bench_precondition_synthesis()`: the preconditions of a sum identity.
-/

namespace SmtSynth
namespace Bench

/-- What a benchmark answers. -/
inductive Outcome where
  | count (n : Int)
  | text (s : String)
  | nothing
  | list (items : List Outcome)
  deriving Inhabited

/-- A benchmark: its name, its keyword parameters with their defaults, and
the parameter settings it is meant to be run with, if it names any. -/
structure Spec where
  name : String
  keywords : List (String × Int)
  grid : Option (List (List (String × Int))) := none

/-- The benchmarks. -/
def specs : List Spec :=
  [ { name := "bench_enumerative_synthesis", keywords := [("n_inputs", 2)] },
    { name := "bench_exists_for_all", keywords := [("n_problems", 3)] },
    { name := "bench_generate_expressions", keywords := [("n_vars", 10)] },
    { name := "bench_get_negative_examples", keywords := [("n_examples", 30)] },
    { name := "bench_inductive_synthesis", keywords := [("depth", 3)],
      grid := some [[("depth", 2)], [("depth", 3)], [("depth", 4)]] },
    { name := "bench_solve_eq", keywords := [("n_targets", 10)] },
    { name := "bench_precondition_synthesis", keywords := [] } ]

/-- The benchmark of a name. -/
def find? (name : String) : Option Spec := specs.find? (·.name == name)

/-- The value of each keyword, given the arguments passed; an argument the
benchmark does not take is refused. -/
def bind (spec : Spec) (args : List (String × Int)) : Except Fault (String → Int) := do
  for (k, _) in args do
    if !spec.keywords.any (·.1 == k) then throw (.unexpectedKeyword spec.name k)
  return fun k => match args.lookup k with
    | some v => v
    | none => (spec.keywords.lookup k).getD 0

/-- A 4-bit constant. -/
def word4 (name : String) : Except Fault Source := Demo.word name 4

/-- The names of the inputs of the enumerative workload. -/
def inputName (i : Nat) : String :=
  match i with
  | 0 => "x" | 1 => "y" | 2 => "z"
  | i => "x" ++ toString i

/-- The enumerative workload. -/
def enumerative (nInputs : Int) : Except Fault Outcome := do
  let xs ← (List.range nInputs.toNat).mapM fun i => word4 (inputName i)
  let c1 ← word4 "c1"
  let c2 ← word4 "c2"
  let first ← match xs with
    | x :: _ => pure x
    | [] => throw .indexOutOfRange
  let rest := match xs.drop 1 with
    | [] => c2
    | y :: ys => Source.binary .add (ys.foldl (Source.binary .add) y) c2
  let e ← (Source.binary .sub (.binary .add first c1) rest).eval
  let consts := Table.ofList [(← c1.eval, ← (Source.word 1 4).eval), (← c2.eval, ← (Source.word 5 4).eval)]
  let found ← enumerate e (← xs.mapM Source.eval) consts (← (Source.word 4 4).eval) 4
  return .list (found.map fun t => .text t.toText)

/-- An answer of a puzzle as its sorted names. -/
def namesOf (r : CegisResult) : Outcome :=
  match r.values with
  | some t => .list ((t.keys.map Operand.hostText).mergeSort (fun a b => decide (a ≤ b)) |>.map .text)
  | none => .nothing

/-- The puzzle workload. -/
def puzzles (nProblems : Int) : Except Fault (Outcome × String) := do
  let mut out : Array Outcome := #[]
  let mut log := ""
  for _ in [0:(nProblems + 1).toNat] do
    let r ← Demo.solvePuzzle Demo.shiftPuzzle
    out := out.push (namesOf r)
    log := log ++ r.log
  let r ← Demo.solvePuzzle Demo.addConstPuzzle
  out := out.push (namesOf r)
  log := log ++ r.log
  let xi := Source.const (.var "xi" .int)
  let ci := Source.const (.var "ci" .int)
  let e ← (Source.conj [.binary .eq (.binary .add xi ci) xi, .binary .gt ci (.int 0)]).eval
  let r ← existsForAll e [← ci.eval] [← xi.eval]
  out := out.push (namesOf r)
  log := log ++ r.log
  return (.list out.toList, log)

/-- The sketch-counting workload. -/
def sketchCount (nVars : Int) : Except Fault Outcome := do
  let syms ← (List.range nVars.toNat).mapM fun i => do
    return Operand.term (← Term.bvConst ("symb_" ++ toString (i + 1)) 8)
  return .count (← Sketch.ofOperands syms 0).length

/-- The negative-example workload. -/
def negatives (n : Int) : Except Fault Outcome := do
  let x ← Demo.word "x" 32
  let y ← Demo.word "y" 32
  let c1 ← Demo.word "c1" 32
  let c2 ← Demo.word "c2" 32
  let c3 ← Demo.word "c3" 32
  let shifted := Source.binary .shl (.call .lshr (.binary .shl x c1) c2) c3
  let masked := Source.binary .band x
    (.binary .shl (.call .lshr (.binary .shl (.int (-1)) c1) c2) c3)
  let e ← (Source.binary .eq shifted masked).eval
  let a ← negativeExamples e (← [c1, c2, c3].mapM Source.eval) n
  let valid ← (Source.binary .eq (.binary .sub (.binary .add x c1) (.binary .add y c2))
    (.binary .add (.binary .sub x y) (.binary .sub c1 c2))).eval
  let b ← negativeExamples valid (← [c1, c2].mapM Source.eval) n
  return .list [.count a.length, .count b.length]

/-- The inductive workload. -/
def induction (depth : Int) : Except Fault Outcome := do
  let x ← word4 "x"
  let y ← word4 "y"
  let c1 ← word4 "c1"
  let c2 ← word4 "c2"
  let e ← (Source.binary .sub (.binary .add x c1) (.binary .add y c2)).eval
  let inputs ← [x, y].mapM Source.eval
  let target ← (Source.word 4 4).eval
  let a ← inductiveSynthesis e inputs
    (Table.ofList [(← c1.eval, ← (Source.word 1 4).eval), (← c2.eval, ← (Source.word 5 4).eval)])
    target 4 depth
  let b ← inductiveSynthesis e inputs
    (Table.ofList [(← c1.eval, ← (Source.word 4 4).eval), (← c2.eval, ← (Source.word 5 4).eval)])
    target 4 2
  let texts := (b.map Found.toText).mergeSort (fun p q => decide (p ≤ q))
  return .list [.count a.length, .list (texts.map .text)]

/-- The equation workload. -/
def equations (nTargets : Int) : Except Fault Outcome := do
  let mut out : Array Outcome := #[]
  for t in List.range nTargets.toNat do
    for (op, v) in [("+", (3 : Int)), ("-", 7), ("*", 1)] do
      match solveEq op (.int v) (.int t) 8 with
      | .ok r => out := out.push (.text r.hostText)
      | .error .unsupportedOperator => out := out.push (.text "err")
      | .error f => throw f
  return .list out.toList

/-- The precondition workload. -/
def preconditions : Except Fault Outcome := do
  let x ← word4 "x"
  let c1 ← word4 "c1"
  let c2 ← word4 "c2"
  let e ← (Source.binary .eq (.binary .add (.binary .add x c1) c2) x).eval
  let pos := Table.ofList [(← c1.eval, ← (Source.word 3 4).eval), (← c2.eval, ← (Source.word 13 4).eval)]
  let neg := Table.ofList [(← c1.eval, ← (Source.word 1 4).eval), (← c2.eval, ← (Source.word 3 4).eval)]
  let found ← Precondition.synthesize e pos [neg] 4 1
  return .list (found.map fun o => .text o.hostText)

/-- Runs a benchmark with bound keywords: its outcome and its log. -/
def run (name : String) (kw : String → Int) : Except Fault (Outcome × String) := do
  match name with
  | "bench_enumerative_synthesis" => return (← enumerative (kw "n_inputs"), "")
  | "bench_exists_for_all" => puzzles (kw "n_problems")
  | "bench_generate_expressions" => return (← sketchCount (kw "n_vars"), "")
  | "bench_get_negative_examples" => return (← negatives (kw "n_examples"), "")
  | "bench_inductive_synthesis" => return (← induction (kw "depth"), "")
  | "bench_solve_eq" => return (← equations (kw "n_targets"), "")
  | _ => return (← preconditions, "")

end Bench
end SmtSynth
