import SmtSynth.Term.Basic
/-!
# Substitution

`Term.replace` puts terms for terms, all at once: every subterm equal to the
left side of a pair is replaced by its right side, and what was put in is not
looked at again. When two pairs have the same left side, the later one
counts.
-/

namespace SmtSynth
namespace Term

/-- The replacement for a term, if a pair names it (the last such pair). -/
def lookupLast (pairs : List (Term × Term)) (t : Term) : Option Term :=
  pairs.foldl (fun acc p => if p.1 == t then some p.2 else acc) none

/-- Simultaneous replacement of terms. -/
def replace (pairs : List (Term × Term)) : Term → Term
  | app f args =>
    match lookupLast pairs (app f args) with
    | some r => r
    | none => app f (args.attach.map (fun ⟨a, _⟩ => replace pairs a))
  | t => (lookupLast pairs t).getD t

end Term
end SmtSynth
