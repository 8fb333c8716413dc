import SmtSynth.Build.Operand
import SmtSynth.Term.Subst
/-!
# Keyed tables of operands

A table maps operands to operands and keeps its keys in the order they were
first inserted; inserting a key that is already there replaces its value in
place. Two keys are the same key when they are the same term, or host
numbers of equal value (a truth value counts as `0` or `1`).

Beside tables sit the two readings of operands the synthesis procedures
need: whether an equation between operands holds as a host condition, and
simultaneous substitution with its checks.
-/

namespace SmtSynth

namespace Operand

/-- Whether two operands are the same table key. -/
def sameKey : Operand → Operand → Bool
  | term a, term b => a == b
  | none, none => true
  | a, b =>
    match a.hostInt?, b.hostInt? with
    | some x, some y => x == y
    | _, _ => false

/-- Whether `a == b` holds as a host condition: host values compare by
value, and an equation between terms holds when its two sides are the same
term. -/
def holdsEq (a b : Operand) : Except Fault Bool := do
  match ← binary .eq a b with
  | bool v => return v
  | term (.app .eq [l, r]) => return l == r
  | term (.lit v) => return v
  | int n => return n != 0
  | _ => return false

/-- `t` with each left side of `pairs` replaced by its right side, all at
once. The target must be a term, and each pair two terms of one sort. -/
def substitute (t : Operand) (pairs : List (Operand × Operand)) : Except Fault Term := do
  let t ← match t with
    | term t => pure t
    | _ => throw .termExpected
  let ps ← pairs.mapM termPair
  return Term.replace ps t
where
  /-- The two terms of a substitution pair, which must share a sort. -/
  termPair : Operand × Operand → Except Fault (Term × Term)
    | (term a, term b) => if a.sort = b.sort then .ok (a, b) else .error .badSubstitution
    | _ => .error .badSubstitution

end Operand

/-- Operands keyed by operands, in order of first insertion. -/
structure Table where
  entries : List (Operand × Operand) := []
  deriving Inhabited

namespace Table

/-- Replaces the value of `k`, or appends `k` with value `v`. -/
def insert (m : Table) (k v : Operand) : Table :=
  { entries := go m.entries }
where
  go : List (Operand × Operand) → List (Operand × Operand)
    | [] => [(k, v)]
    | (k', v') :: rest => if k'.sameKey k then (k', v) :: rest else (k', v') :: go rest

/-- The table of pairs inserted in order. -/
def ofList (ps : List (Operand × Operand)) : Table :=
  ps.foldl (fun m (k, v) => m.insert k v) {}

/-- The keys, in order. -/
def keys (m : Table) : List Operand := m.entries.map (·.1)

/-- Whether `k` is a key. -/
def contains (m : Table) (k : Operand) : Bool := m.entries.any (·.1.sameKey k)

/-- The number of keys. -/
def size (m : Table) : Nat := m.entries.length

end Table
end SmtSynth
