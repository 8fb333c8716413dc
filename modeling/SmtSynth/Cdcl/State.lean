import Std.Data.HashMap
import SmtSynth.Cdcl.Core
import SmtSynth.Cdcl.Gate
/-!
# The state of the incremental solver

Three parts make up the solver: the clause core, the store of gates the
formulas are built from, and the bit-vector theory. The theory knows every
bit-vector term met so far as a theory variable with one literal per bit,
least significant first; a bit-vector constant's bits are fresh variables,
a numeral's are the constant literals, and any other term's bits are the
literals of the gates that compute it.

Theory variables found equal are joined in classes (a union-find, plus a
circular list through each class so that a bit can be copied to every member
at the same position). Besides, the theory keeps an equality graph over the
same variables, merged whenever an equation between two of them is learnt;
it decides which equation atoms hold. A table from values to theory
variables finds two terms whose bits are all assigned to the same value,
which are then equal.

Everything the theory changes is recorded on its own trail, and leaving a
decision level undoes the records made in it.
-/

namespace SmtSynth
namespace Cdcl

/-- One change to the theory, as it is undone. -/
inductive Undo where
  /-- Class root `r1` was joined under root `r2`. -/
  | union (r1 r2 : Nat)
  /-- The equality-graph class of root `ra`, the members `moved`, joined
  the class of root `rb`. -/
  | merge (ra rb : Nat) (moved : Array Nat)
  /-- The value table held `old` at `key`. -/
  | fixed (key : Nat × Nat) (old : Option Nat)
  /-- The watched position of a theory variable was `old`. -/
  | wpos (t old : Nat)
  deriving Inhabited

/-- The bit-vector theory. -/
structure Words where
  varOf : Std.HashMap Term Nat := {}
  terms : Array Term := #[]
  bits : Array (Array Lit) := #[]
  parent : Array Nat := #[]
  size : Array Nat := #[]
  next : Array Nat := #[]
  wpos : Array Nat := #[]
  /-- For each boolean variable, the theory variables and positions whose
  bit it is, the latest first. -/
  occs : Std.HashMap Nat (Array (Nat × Nat)) := {}
  fixed : Std.HashMap (Nat × Nat) Nat := {}
  /-- Equation atoms: boolean variable and the two theory variables, in the
  order they were made. -/
  eqAtoms : Array (Nat × Nat × Nat) := #[]
  eqAtomOf : Std.HashMap Nat (Nat × Nat) := {}
  root : Array Nat := #[]
  members : Array (Array Nat) := #[]
  propQueue : Array (Nat × Nat) := #[]
  pendingEqs : Array (Nat × Nat × Array Lit) := #[]
  pendingDiseqs : Array (Nat × Nat) := #[]
  trail : Array Undo := #[]
  deriving Inhabited

/-- The incremental solver. -/
structure Smt where
  core : Core := Core.init
  gates : Gates := {}
  words : Words := {}
  /-- The boolean variable of each gate that has one. -/
  varOfGate : Std.HashMap Nat Nat := {}
  /-- The gate of each boolean variable. -/
  gateOfVar : Array Nat := #[Gates.T]
  /-- Assertions split into conjuncts, as gates. -/
  asserted : Array Nat := #[]
  /-- How many assertions have clauses already. -/
  assertedHead : Nat := 0
  /-- Set when a formula uses something this solver does not handle. -/
  failed : Bool := false
  deriving Inhabited

/-- Steps of the incremental solver. -/
abbrev SmtM := StateM Smt

namespace Smt

/-- Runs a gate construction. -/
def gate {α : Type} (m : GateM α) : SmtM α :=
  modifyGet fun s => let (a, g) := m.run s.gates; (a, { s with gates := g })

/-- Updates the core. -/
def onCore (f : Core → Core) : SmtM Unit := modify fun s => { s with core := f s.core }

/-- Updates the theory. -/
def onWords (f : Words → Words) : SmtM Unit := modify fun s => { s with words := f s.words }

/-- Gives up on the formulas. -/
def fail : SmtM Unit := modify fun s => { s with failed := true }

/-- The value of a literal. -/
def value (l : Lit) : SmtM LBool := do return (← get).core.litValue l

/-- A fresh boolean variable for a gate. -/
def mkBoolVar (g : Nat) : SmtM Nat := modifyGet fun s =>
  let (v, c) := s.core.mkVar
  (v, { s with core := c, varOfGate := s.varOfGate.insert g v, gateOfVar := s.gateOfVar.push g })

/-- The literal of a gate that is not a negation and has a variable. -/
def litOfBase (s : Smt) (g : Nat) : Lit :=
  if g == Gates.T then Lit.tt
  else if g == Gates.F then Lit.ff
  else match s.varOfGate.get? g with
    | some v => Lit.ofVar v
    | none => Lit.ff

/-- The literal of a gate that has been given clauses: a negation gate has
the negated literal of its argument. -/
def litOfGate (g : Nat) : SmtM Lit := do
  let s ← get
  let node := s.gates.node g
  if node.kind == .not then return (litOfBase s node.args[0]!).neg
  return litOfBase s g

/-- The gate of a literal: the variable's gate, under a negation gate when
the literal is negated. -/
def gateOfLit (l : Lit) : SmtM Nat := do
  if l == Lit.tt then return Gates.T
  if l == Lit.ff then return Gates.F
  let n := (← get).gateOfVar[l.var]!
  if l.negated then gate (Gates.make .not #[n]) else return n

/-- Adds an auxiliary clause. -/
def clause (lits : Array Lit) : SmtM Unit := onCore (·.mkClause lits false)

end Smt
end Cdcl
end SmtSynth
