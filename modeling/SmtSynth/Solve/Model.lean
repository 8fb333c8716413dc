import SmtSynth.Term.Eval
import SmtSynth.Build.Operand
/-!
# Models

A model lists values for some named constants, in the order they were
fixed. A constant the model does not list has no value in it: reading it
answers `none`. Evaluating a term in a model with completion gives every
unlisted constant the default value of its sort and records it, so that
later readings agree with the evaluation.
-/

namespace SmtSynth

/-- Values of named constants. -/
structure Model where
  entries : Array (Term × Value) := #[]
  deriving Inhabited

namespace Model

/-- The value of a constant, if the model lists one. -/
def get? (m : Model) (x : Term) : Option Value :=
  (m.entries.find? (·.1 == x)).map (·.2)

/-- Lists a value for a constant (replacing an earlier one). -/
def set (m : Model) (x : Term) (v : Value) : Model :=
  match m.entries.findIdx? (·.1 == x) with
  | some i => { entries := m.entries.set! i (x, v) }
  | none => { entries := m.entries.push (x, v) }

/-- Drops a constant from the model. -/
def erase (m : Model) (x : Term) : Model := { entries := m.entries.filter (·.1 != x) }

/-- The model as an assignment. -/
def assignment (m : Model) : Assignment := fun n s => m.get? (.var n s)

/-- Evaluates a term, first listing the default value for each constant of
the term the model does not list yet. -/
def complete (m : Model) (t : Term) : Model × Value :=
  let m := t.vars.foldl (fun m x => match m.get? x with
    | some _ => m
    | none => m.set x (Value.default x.sort)) m
  (m, t.eval m.assignment)

/-- The model read at an operand: the value of a named constant (absent when
the model does not list it); other constant terms have no entry; anything
else cannot be read. -/
def read (m : Model) (c : Operand) : Except Fault Operand :=
  match c with
  | .term (.var n s) => .ok ((m.get? (.var n s)).elim .none (fun v => .term v.toTerm))
  | .term (.app _ []) | .term (.lit _) | .term (.num _) | .term (.word _ _) => .ok .none
  | .int _ | .bool _ => .error .modelIndex
  | _ => .error .constantExpected

end Model
end SmtSynth
