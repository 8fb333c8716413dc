import Std.Data.HashMap
import Std.Data.HashSet
import SmtSynth.Rewrite.Compare
/-!
# Unconstrained constants

A constant that occurs only once in a set of facts can take any value, so
the application it occurs in can often take any value of its own sort as
well. Such an application is replaced by a fresh constant, and the
constant gets a definition in terms of the fresh one that gives the
application whatever value the fresh constant takes. For instance `x + t`
with `x` unconstrained becomes `u`, with `x := u - t`; `x = t` becomes a
fresh truth value `u`, with `x := if u then t else ¬t`.

Occurrences are counted over distinct subterms: once per argument position
of each distinct application, and once per fact that is the constant
itself. Rounds repeat while anything changes, since a fresh constant can
make its own parent unconstrained.

Recovering a model runs the recorded steps backwards: a definition gives
its constant the value of its right side, a hidden fresh constant leaves
the model.
-/

namespace SmtSynth

/-- A step of recovering a model of the original facts. -/
inductive Recovery where
  /-- The constant takes the value of the term. -/
  | define (x t : Term)
  /-- The fresh constant leaves the model. -/
  | hide (x : Term)
  deriving Inhabited

namespace Unconstrained

/-- Counts occurrences below a term, visiting each distinct application once. -/
def visit : Term → StateM (Std.HashSet Term × Std.HashMap Term Nat) Unit
  | .var n s => modify fun (seen, occ) => (seen, occ.insert (.var n s) ((occ.getD (.var n s) 0) + 1))
  | .app f args => do
    if (← get).1.contains (.app f args) then return
    modify fun (seen, occ) => (seen.insert (.app f args), occ)
    for ⟨a, _⟩ in args.attach do
      visit a
  | _ => pure ()

/-- How often each constant occurs in the facts. -/
def occurrences (facts : List Term) : Std.HashMap Term Nat :=
  ((facts.forM visit).run ({}, {})).2.2

/-- The state of one round. -/
structure Round where
  occ : Std.HashMap Term Nat
  next : Nat
  fresh : Std.HashMap Term Term := {}
  done : Std.HashMap Term Term := {}
  steps : Array Recovery := #[]

/-- A round of elimination. -/
abbrev RoundM := StateM Round

/-- Whether a term is a constant that occurs once. -/
def free (t : Term) : RoundM Bool := do
  return t.isVar && (← get).occ.get? t == some 1

/-- Whether all the terms are constants that occur once. -/
def allFree (ts : List Term) : RoundM Bool := ts.allM free

/-- The fresh constant that stands for an application, and whether it is new. -/
def freshFor (t : Term) : RoundM (Term × Bool) := do
  match (← get).fresh.get? t with
  | some u => return (u, false)
  | none =>
    let st ← get
    let u := Term.var ("!" ++ toString st.next) t.sort
    set { st with next := st.next + 1, fresh := st.fresh.insert t u,
                  steps := st.steps.push (.hide u) }
    return (u, true)

/-- Records a definition. -/
def define (x t : Term) : RoundM Unit :=
  modify fun st => { st with steps := st.steps.push (.define x t) }

/-- A term that differs from `t` in every model. -/
def differ (t : Term) : Term :=
  match t.sort with
  | .bool => .app .not [t]
  | .int => .app .add [t, .num 1]
  | .bv _ => .app .bnot [t]

/-- The bit-vector numeral `v` of the width of `t`. -/
def wordLike (t : Term) (v : Int) : Term := Term.ofInt t.width v

/-- Replaces `f args` by a fresh constant when an unconstrained argument
lets it take any value; `none` when no rule applies. -/
def eliminate (f : Fn) (args : List Term) : RoundM (Option Term) := do
  let app := Term.app f args
  let s := match args with
    | a :: _ => a.sort
    | [] => .bool
  match f, args with
  | .ite, [c, t, e] =>
    if (← free t) && (← free e) then
      let (u, new) ← freshFor app
      if new then define t u; define e u
      return some u
    else if (← free c) && (← free t) then
      let (u, new) ← freshFor app
      if new then define c .tt; define t u
      return some u
    else if (← free c) && (← free e) then
      let (u, new) ← freshFor app
      if new then define c .ff; define e u
      return some u
    else return none
  | .not, [a] | .bnot, [a] =>
    if ← free a then
      let (u, new) ← freshFor app
      if new then define a (.app f [u])
      return some u
    else return none
  | .and, a :: rest | .or, a :: rest | .bor, a :: rest =>
    if ← allFree (a :: rest) then
      let (u, new) ← freshFor app
      if new then
        define a u
        let unit := match f with
          | .and => Term.tt
          | .or => Term.ff
          | _ => wordLike a 0
        for b in rest do define b unit
      return some u
    else return none
  | .eq, [a, b] =>
    let fa ← free a
    let fb ← free b
    let pick : Option (Term × Term) :=
      if fa then some (a, b) else if fb then some (b, a) else none
    match pick with
    | none => return none
    | some (v, t) =>
      let (u, new) ← freshFor app
      if new then define v (.app .ite [u, t, differ t])
      return some u
  | .add, _ =>
    match ← args.findM? free with
    | none => return none
    | some v =>
      let (u, new) ← freshFor app
      if new then
        let rest := args.erase v
        match rest with
        | [] => define v u
        | [r] => define v (.app .sub [u, r])
        | rs => define v (.app .sub [u, .app .add rs])
      return some u
  | .mul, a :: rest =>
    if ← allFree (a :: rest) then
      let (u, new) ← freshFor app
      if new then
        define a u
        let one := if s.isBv then wordLike a 1 else .num 1
        for b in rest do define b one
      return some u
    else match args with
      | [.word w c, v] =>
        match Rewrite.inverse w c with
        | some inv =>
          if (← free v) && s.isBv then
            let (u, new) ← freshFor app
            if new then define v (.app .mul [.word w inv, u])
            return some u
          else return none
        | none => return none
      | _ => return none
  | .udiv, [a, b] | .div, [a, b] | .udivI, [a, b] | .sdivI, [a, b] =>
    if s.isBv && (← free a) && (← free b) then
      let (u, new) ← freshFor app
      if new then define a u; define b (wordLike b 1)
      return some u
    else return none
  | .ule, [a, b] | .le, [a, b] | .ge, [a, b] =>
    if s.isBv then
      let signed := f == Fn.le
      let w := s.width
      if f == Fn.ge then return none
      if ← free a then
        let top : Int := if signed then ((Nat.pow 2 (w - 1) : Nat) : Int) - 1 else ((Nat.pow 2 w : Nat) : Int) - 1
        let (u, new) ← freshFor app
        let r := Term.app .or [u, .app .eq [b, wordLike b top]]
        if new then define a (.app .ite [r, b, .app .add [b, wordLike b 1]])
        return some r
      else if ← free b then
        let bottom : Int := if signed then -((Nat.pow 2 (w - 1) : Nat) : Int) else 0
        let (u, new) ← freshFor app
        let r := Term.app .or [u, .app .eq [a, wordLike a bottom]]
        if new then define b (.app .ite [r, a, .app .sub [a, wordLike a 1]])
        return some r
      else return none
    else
      let fa ← free a
      let fb ← free b
      let isLe := f == Fn.le
      let pick : Option (Term × Term × Bool) :=
        if fa then some (a, b, isLe)
        else if fb then some (b, a, !isLe) else none
      match pick with
      | none => return none
      | some (v, t, le) =>
        let (u, new) ← freshFor app
        if new then define v (.app .ite [u, t, .app .add [t, .num (if le then 1 else -1)]])
        return some u
  | .concat, a :: rest =>
    if ← allFree (a :: rest) then
      let (u, new) ← freshFor app
      if new then
        let _ ← (a :: rest).reverse.foldlM (fun low x => do
          let sz := x.width
          define x (.app (.extract (low + sz - 1) low) [u])
          return low + sz) 0
      return some u
    else return none
  | .extract hi lo, [a] =>
    if ← free a then
      let (u, new) ← freshFor app
      if new then
        let sz := a.width
        if sz == hi - lo + 1 then define a u
        else
          let high := if hi < sz - 1 then [Term.word (sz - hi - 1) 0] else []
          let low := if lo > 0 then [Term.word lo 0] else []
          define a (.app .concat (high ++ [u] ++ low))
      return some u
    else return none
  | _, _ => return none

/-- Rewrites a term bottom-up, eliminating where a rule applies. -/
def rewrite : Term → RoundM Term
  | .app f args => do
    match (← get).done.get? (.app f args) with
    | some r => return r
    | none =>
      let args' ← args.attach.mapM fun ⟨a, _⟩ => rewrite a
      let r := (← eliminate f args').getD (.app f args')
      modify fun st => { st with done := st.done.insert (.app f args) r }
      return r
  | t => pure t

/-- Runs rounds while they change something; the facts after, the recovery
steps in the order made, and the next fresh number. -/
def run : Nat → List Term → Nat → Array Recovery → List Term × Array Recovery × Nat
  | 0, facts, next, steps => (facts, steps, next)
  | fuel + 1, facts, next, steps =>
    let (facts', st) := (facts.mapM rewrite).run { occ := occurrences facts, next := next }
    if st.steps.isEmpty then (facts, steps, next)
    else run fuel facts' st.next (steps ++ st.steps)

end Unconstrained
end SmtSynth
