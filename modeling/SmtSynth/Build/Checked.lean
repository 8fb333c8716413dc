import SmtSynth.Fault
/-!
# Checked construction of terms

The solver's own checks when an application is built. A bit-vector
operation is declared at the sort of its first argument, and every other
argument must have that sort; an equation, a disequation and the branches of
a conditional need one sort on both sides; connectives need truth values.
Each check that fails reports the fault the solver reports.
-/

namespace SmtSynth
namespace Term

/-- A binary bit-vector operation (or comparison, when `pred` holds) of `a`
and `b`, declared at the sort of `a`. -/
def mkWordOp (f : Fn) (pred : Bool) (a b : Term) : Except Fault Term :=
  let s := a.sort
  if b.sort = s then .ok (.app f [a, b])
  else .error (.argMismatch b 1 f [s, s] (if pred then .bool else s))

/-- The equation `a = b`. -/
def mkEq (a b : Term) : Except Fault Term :=
  if a.sort = b.sort then .ok (.app .eq [a, b]) else .error (.sortsIncompatible a.sort b.sort)

/-- The disequation `a ≠ b`. -/
def mkDistinct (a b : Term) : Except Fault Term :=
  if a.sort = b.sort then .ok (.app .distinct [a, b]) else .error (.sortsIncompatible a.sort b.sort)

/-- The conditional `if c then a else b`. -/
def mkIte (c a b : Term) : Except Fault Term :=
  if a.sort = b.sort then .ok (.app .ite [c, a, b]) else .error (.sortsIncompatible a.sort b.sort)

/-- A connective over truth values; every argument must be one. -/
def mkConnective (f : Fn) (args : List Term) : Except Fault Term :=
  match (args.zipIdx).find? (fun p => p.1.sort != .bool) with
  | some (a, i) => .error (.argMismatch a i f (args.map (fun _ => .bool)) .bool)
  | none => .ok (.app f args)

end Term
end SmtSynth
