import SmtSynth.Rewrite.Simplify
import SmtSynth.Term.Subst
import SmtSynth.Solve.Unconstrained
/-!
# Reducing a set of facts

Before any search the facts are simplified, split into conjuncts and
cleared of constants that a fact defines: a fact `x = t` with `x` not in `t`
(and a boolean constant asserted true or false) gives the definition
`x := t` when `t` is a value or `x` occurs at most twice in all the facts;
`t` is put for `x` in every other fact, and the facts are simplified again.
Optionally, unconstrained constants are then eliminated and the facts
simplified once more. What is left is searched; the recovery steps give the
removed constants their values afterwards.
-/

namespace SmtSynth

/-- Facts left for search, and the steps that recover a model of the
original facts from a model of these. -/
structure Reduced where
  facts : List Term
  steps : Array Recovery
  deriving Inhabited

namespace Reduced

/-- The conjuncts of a simplified fact. -/
def conjuncts : Term → List Term
  | .app .and args => args
  | .lit true => []
  | t => [t]

/-- The definition a fact gives, if any: the left side first. -/
def definition? (t : Term) : Option (Term × Term) :=
  match t with
  | .var _ .bool => some (t, .tt)
  | .app .not [.var n .bool] => some (.var n .bool, .ff)
  | .app .eq [a, b] =>
    if a.isVar && !a.mentions b then some (a, b)
    else if b.isVar && !b.mentions a then some (b, a)
    else none
  | _ => none

/-- The most occurrences a constant may have and still be solved for a
term that is not a value. -/
def maxOccurrences : Nat := 2

/-- The first fact that defines a constant acceptably, with the other facts. -/
def pickDefinition (occ : Std.HashMap Term Nat) : List Term → Option ((Term × Term) × List Term)
  | [] => none
  | f :: fs =>
    let ok := match definition? f with
      | some (x, t) => t.isValue || occ.getD x 0 ≤ maxOccurrences
      | none => false
    match definition? f, ok with
    | some d, true => some (d, fs)
    | _, _ => (pickDefinition occ fs).map fun (d, rest) => (d, f :: rest)

/-- Simplifies and splits facts; `none` when one of them is false. -/
def normalize (facts : List Term) : Option (List Term) :=
  let fs := facts.flatMap (fun f => conjuncts f.simplify)
  if fs.contains .ff then none else some fs

/-- Solves defined constants one at a time while facts define them. -/
def solve : Nat → Reduced → Option Reduced
  | 0, r => some r
  | fuel + 1, r =>
    match pickDefinition (Unconstrained.occurrences r.facts) r.facts with
    | none => some r
    | some ((x, t), rest) =>
      match normalize (rest.map (Term.replace [(x, t)])) with
      | none => none
      | some facts => solve fuel { facts := facts, steps := r.steps.push (.define x t) }

/-- Reduces facts; `none` when they are found contradictory. With
`eliminate`, unconstrained constants are eliminated too. -/
def ofFacts (facts : List Term) (eliminate : Bool) : Option Reduced := do
  let fs ← normalize facts
  let r ← solve (fs.length + 1) { facts := fs, steps := #[] }
  if !eliminate then return r
  let (fs, steps, _) := Unconstrained.run (r.facts.length + 8) r.facts 0 r.steps
  let fs ← normalize fs
  return { facts := fs, steps := steps }

end Reduced
end SmtSynth
