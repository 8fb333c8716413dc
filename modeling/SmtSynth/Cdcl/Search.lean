import SmtSynth.Cdcl.Theory
/-!
# The incremental search

Assertions are split into conjuncts as they arrive (a conjunction into its
arguments, a negated disjunction into the negated arguments) and get their
clauses at the next check: a disjunction is one clause over its arguments,
an equivalence and a choice two clauses, anything else a unit clause.

A check returns to the base level, gives the new assertions their clauses
and searches: propagate to a fixed point (unit propagation, then the
theory's atoms, then its queued equations), analyse each conflict into a
learnt clause and jump back, and otherwise decide the next variable, until
every variable is assigned (satisfiable) or a conflict remains at the base
level (unsatisfiable). Clauses satisfied at the base level are cleaned up
before a decision made from it.

The solver keeps everything between checks: learnt clauses, activities,
remembered phases and the random generator, so a later check continues
where the earlier ones left off.
-/

namespace SmtSynth
namespace Cdcl
namespace Smt

/-- Leaves `n` decision levels in the core and the theory. -/
def popScopes (n : Nat) : SmtM Unit := do
  let (c, mark) := (← get).core.popScope n
  modify fun s => { s with core := c }
  if let some m := mark then popWords m

/-- Propagates to a fixed point; `false` on a conflict. -/
def propagate : SmtM Bool := do
  for _ in [0:(← get).core.numVars * 8 + 64] do
    if (← get).core.conflict.isSome then return false
    let (c, ok) := (← get).core.bcp
    modify fun s => { s with core := c }
    if !ok then return false
    let q := (← get).core.atomQueue
    onCore fun c => { c with atomQueue := #[] }
    for l in q do
      if (← get).core.isTrue l then
        assigned l
        if (← get).core.conflict.isSome then return false
    propagatePending
    let s ← get
    if s.core.conflict.isSome then return false
    if s.core.qhead == s.core.trail.size && s.core.atomQueue.isEmpty && !hasPending s then return true
  return true

/-- Resolves the recorded conflict: learns its clause and jumps back;
`false` when the conflict is at the base level. -/
def resolve : SmtM Bool := do
  let (c, res) := (← get).core.analyze
  modify fun s => { s with core := c }
  match res with
  | none => return false
  | some (learnt, lvl) =>
    popScopes ((← get).core.scopeLevel - lvl)
    onCore fun c => c.mkClause learnt true
    onCore fun c => { c with inc := c.inc * 1.052 }
    return true

/-- The most search steps one check takes. -/
def stepBound : Nat := 2000000

/-- Searches from the base level; `some true` when every variable is
assigned, `some false` for a conflict at the base level, `none` when the
step bound runs out. -/
def search : SmtM (Option Bool) := do
  popScopes (← get).core.scopeLevel
  onCore fun c => { c with searching := true }
  let mut result : Option Bool := none
  for _ in [0:stepBound] do
    if !(← propagate) then
      if !(← resolve) then
        result := some false
        break
      continue
    onCore Core.simplifyClauses
    let (c, more) := (← get).core.decide (← get).words.trail.size
    modify fun s => { s with core := c }
    if !more then
      result := some true
      break
  onCore fun c => { c with searching := false }
  return result

/-- Splits an asserted gate into the conjuncts the solver asserts. -/
def split : Nat → Nat → SmtM (Array Nat)
  | 0, g => return #[g]
  | fuel + 1, g => do
    if g == Gates.T then return #[]
    let node := (← get).gates.node g
    match node.kind with
    | .and =>
      let mut out := #[]
      for a in node.args do
        out := out ++ (← split fuel a)
      return out
    | .not =>
      let inner := (← get).gates.node node.args[0]!
      if inner.kind == .or then
        let mut out := #[]
        for a in inner.args do
          let na ← match (← get).gates.node a with
            | ⟨.not, args, _⟩ => pure args[0]!
            | _ => gate (Gates.make .not #[a])
          out := out ++ (← split fuel na)
        return out
      else return #[g]
    | _ => return #[g]

/-- Asserts a formula. -/
def assert (t : Term) : SmtM Unit := do
  popScopes (← get).core.scopeLevel
  let g ← formula depthBound t
  let parts ← split depthBound g
  modify fun s => { s with asserted := s.asserted ++ parts }

/-- Gives the new assertions their clauses. -/
def internalizeAssertions : SmtM Unit := do
  let s ← get
  for i in [s.assertedHead:s.asserted.size] do
    let g := (← get).asserted[i]!
    if g == Gates.F then
      onCore (·.setConflict .base)
      continue
    let node := (← get).gates.node g
    match node.kind with
    | .or =>
      let mut lits := #[]
      for a in node.args do
        internalize a
        lits := lits.push (← litOfGate a)
      clause lits
    | .iff =>
      internalize node.args[0]!
      internalize node.args[1]!
      let l1 ← litOfGate node.args[0]!
      let l2 ← litOfGate node.args[1]!
      clause #[l1, l2.neg]
      clause #[l1.neg, l2]
    | .ite =>
      for a in node.args do
        internalize a
      let c ← litOfGate node.args[0]!
      let t ← litOfGate node.args[1]!
      let e ← litOfGate node.args[2]!
      clause #[c.neg, t]
      clause #[c, e]
    | _ =>
      internalize g
      clause #[← litOfGate g]
  modify fun s => { s with assertedHead := s.asserted.size }

/-- Checks the assertions: `some true` for satisfiable, `some false` for
unsatisfiable, `none` when the search gave up. -/
def check : SmtM (Option Bool) := do
  popScopes (← get).core.scopeLevel
  internalizeAssertions
  let s ← get
  if s.core.conflict.isSome && s.core.scopeLevel == 0 then return some false
  search

/-- The value of a bit-vector constant after a satisfiable check, if the
constant has been met. -/
def wordOf (s : Smt) (t : Term) : Option Nat := do
  let v ← s.words.varOf.get? t
  let bits := s.words.bits[v]!
  return (List.range bits.size).foldl (fun acc i => if s.core.isTrue bits[i]! then acc + Nat.pow 2 i else acc) 0

/-- The value of a boolean constant after a satisfiable check, if the
constant has been met. -/
def boolOf (s : Smt) (name : String) : Option Bool := do
  let g ← s.gates.table.get? (.atom, #[], .name name)
  let v ← s.varOfGate.get? g
  return s.core.isTrue (Lit.ofVar v)

end Smt
end Cdcl
end SmtSynth
