import SmtSynth.Solve.Reduce
import SmtSynth.Solve.Model
import SmtSynth.Solve.Blast
import SmtSynth.Solve.Sat
import SmtSynth.Cdcl.Search
/-!
# Solvers

A solver holds assertions and answers whether they have a model. A check
reduces the assertions (simplification and solved constants) and searches
what is left with a fresh incremental solver. Facts with integers, or with a
construct that solver does not handle, are blasted into clauses and
searched by deciding the bits of the constants in the order the facts
mention them, most significant bit first, false before true; integers are
searched at growing widths until a model is found or the widest one fails;
when unknowns are multiplied only the narrowest width is searched, and a
first check looks in a small box before that.

The model lists the constants of the facts that were searched and the solved
ones; a constant that simplification removed altogether is not in it.

Once a solver has been checked, a later check goes to an incremental solver
that has been given every assertion in turn, each simplified on its own, and
that keeps what it learnt from one check to the next. Its model lists the
constants it has met. Integer constants, and any construct it does not
handle, send the check back to the first kind of search.
-/

namespace SmtSynth

/-- The answer of a check. -/
inductive Verdict where
  | sat (model : Model)
  | unsat
  | unknown
  deriving Inhabited

/-- Assertions to be checked together. -/
structure Solver where
  assertions : Array Term := #[]
  /-- How many checks have run. -/
  checks : Nat := 0
  /-- The incremental solver for the checks after the first. -/
  incremental : Cdcl.Smt := {}
  /-- How many assertions the incremental solver has been given. -/
  given : Nat := 0
  deriving Inhabited

/-- A decision procedure: the verdict of a check of a solver's assertions,
and the solver as the check leaves it. -/
abbrev Checker := Solver → Solver × Verdict

namespace Solver

/-- Adds an assertion. -/
def add (s : Solver) (t : Term) : Solver := { s with assertions := s.assertions.push t }

/-- The unsigned number that little-endian bits spell. -/
def bitsValue (model : Array Bool) (bits : Array Int) : Nat :=
  bits.foldr (fun l acc => 2 * acc + (if l == 1 then 1 else if l == -1 then 0
    else if model[l.natAbs]! == (l > 0) then 1 else 0)) 0

/-- The value that the literals of a constant have in a model of the clauses. -/
def inputValue (model : Array Bool) (s : TermSort) (bits : Array Int) : Value :=
  let n := bitsValue model bits
  match s with
  | .bool => .bool (n == 1)
  | .int => .int (Word.toSigned bits.size n)
  | .bv w => .word w n

/-- Integer widths tried in turn. -/
def intWidths : List Nat := [8, 16, 32, 64, 128]

/-- Integer widths tried for facts that multiply two unknowns: a search
through wide multipliers costs too much, so only narrow models are sought. -/
def nonlinearWidths : List Nat := [8]

/-- The bound on search steps. -/
def searchFuel : Nat := 10000000

/-- Searches the facts at one integer width, with integer constants boxed
in `box` bits when that is not `0`; boxed facts have their constants
decided last met first. -/
def searchAt (facts : List Term) (w box : Nat) : Bool × Verdict :=
  let (lits, st) := (facts.mapM Blast.term).run { intWidth := w, intBox := box }
  let units := (lits.map fun l => #[l[0]!]).toArray ++ st.guards.map (#[·])
  let bitsOf := fun (acc : Array Nat) ((_, _, bits) : String × TermSort × Array Int) =>
    bits.reverse.foldl (fun acc l =>
      if l.natAbs > 1 && !acc.contains l.natAbs then acc.push l.natAbs else acc) acc
  let (fresh, named) := st.inputs.partition fun (n, _, _) => n.startsWith "!"
  let named := if box > 0 then named.reverse else named
  let order := fresh.foldl bitsOf (named.foldl bitsOf #[])
  match Sat.solve (st.circuit.next - 1) (st.circuit.clauses ++ units) order searchFuel with
  | .sat m =>
    let model := st.inputs.foldl (fun (acc : Model) (n, s, bits) =>
      acc.set (.var n s) (inputValue m s bits)) {}
    (st.usesInts, .sat model)
  | .unsat => (st.usesInts, .unsat)
  | .unknown => (st.usesInts, .unknown)

/-- Searches the facts, widening integers while that may help. -/
def search (facts : List Term) : List Nat → Verdict
  | [] => .unknown
  | w :: ws =>
    match searchAt facts w 0 with
    | (true, .unsat) => if ws.isEmpty then .unsat else search facts ws
    | (_, v) => v

/-- Whether a term multiplies two terms that are not numerals. -/
def multipliesTerms : Term → Bool
  | .app .mul args => (args.filter (!·.isValue)).length ≥ 2
      || args.attach.any (fun ⟨a, _⟩ => multipliesTerms a)
  | .app _ args => args.attach.any (fun ⟨a, _⟩ => multipliesTerms a)
  | _ => false

/-- Whether facts over integers and truth values alone are nonlinear. -/
def nonlinearInts (facts : List Term) : Bool :=
  facts.all (fun t => t.vars.all (fun x => x.sort == .int || x.sort == .bool))
    && facts.any (fun t => t.vars.any (·.sort == .int)) && facts.any multipliesTerms

/-- The bits of a boxed integer constant. -/
def boxBits : Nat := 4

/-- The width of arithmetic over boxed integer constants. -/
def boxArithWidth : Nat := 16

/-- Searches nonlinear integer facts with every integer constant boxed in
`[-8, 8)`, the least values first; `none` when the box holds no model. -/
def searchBoxed (facts : List Term) : Option Verdict :=
  match searchAt facts boxArithWidth boxBits with
  | (_, .sat m) => some (.sat m)
  | _ => none

/-- Recovers a model of the original facts, running the steps last first. -/
def recover (m : Model) (steps : Array Recovery) : Model :=
  steps.foldr (fun st m => match st with
    | .define x t => let (m, v) := m.complete t; m.set x v
    | .hide x => m.erase x) m

/-- The constants of the assertions, each once, in the order they first
appear. -/
def constants (s : Solver) : List Term :=
  s.assertions.foldl (fun acc t => t.vars.foldl (fun acc x => if acc.contains x then acc else acc ++ [x]) acc) []

/-- The model of the incremental solver after a satisfiable check: the value
of each constant of the assertions that it has met. -/
def incrementalModel (s : Solver) : Model :=
  s.constants.foldl (fun m x => match x with
    | .var n .bool => match Cdcl.Smt.boolOf s.incremental n with
      | some b => m.set x (.bool b)
      | none => m
    | .var _ (.bv w) => match Cdcl.Smt.wordOf s.incremental x with
      | some v => m.set x (.word w v)
      | none => m
    | _ => m) {}

/-- A check by the incremental solver: it is given the assertions it has not
seen yet and searches on from where it stopped. `none` when the assertions
hold integers or something it does not handle. -/
def checkIncremental (s : Solver) : Option (Solver × Verdict) :=
  if s.incremental.failed || s.constants.any (·.sort == .int) then none
  else
    let step : Cdcl.SmtM (Option Bool) := do
      for t in s.assertions.extract s.given s.assertions.size do
        Cdcl.Smt.assert t.simplify
      Cdcl.Smt.check
    let (r, smt) := step.run s.incremental
    let s := { s with incremental := smt, given := s.assertions.size, checks := s.checks + 1 }
    if smt.failed then none
    else match r with
      | some true => some (s, .sat s.incrementalModel)
      | some false => some (s, .unsat)
      | none => some (s, .unknown)

/-- Searches reduced facts with a fresh incremental solver; `none` when the
facts hold integers, use a construct it does not handle, or the search gave
up, so that the clause search takes them instead. -/
def searchFresh (facts : List Term) : Option Verdict :=
  if facts.any (fun t => t.vars.any (·.sort == .int)) then none
  else
    let step : Cdcl.SmtM (Option Bool) := do
      for t in facts do
        Cdcl.Smt.assert t
      Cdcl.Smt.check
    let (r, smt) := step.run {}
    if smt.failed then none
    else
      let s : Solver := { assertions := facts.toArray, incremental := smt }
      match r with
      | some true => some (.sat s.incrementalModel)
      | some false => some .unsat
      | none => none

/-- Checks the assertions together. The first check of a solver also
eliminates unconstrained constants; later ones go to the incremental solver
when it can take them. -/
def check (s : Solver) : Solver × Verdict :=
  match if s.checks == 0 then none else checkIncremental s with
  | some r => r
  | none =>
  let s' := { s with checks := s.checks + 1, incremental := { s.incremental with failed := s.checks != 0 } }
  match Reduced.ofFacts s.assertions.toList (s.checks == 0) with
  | none => (s', .unsat)
  | some r =>
    let boxed := if s.checks == 0 && nonlinearInts r.facts then searchBoxed r.facts else none
    let v := if r.facts.isEmpty then Verdict.sat {}
      else (boxed <|> searchFresh r.facts).getD
        (search r.facts (if r.facts.any multipliesTerms then nonlinearWidths else intWidths))
    match v with
    | .sat m => (s', .sat (recover m r.steps))
    | v => (s', v)

end Solver
end SmtSynth
