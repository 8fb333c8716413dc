import SmtSynth.Rewrite.Compare
/-!
# Connectives

Rules for negation, conjunction, disjunction, implication, conditionals and
the equations no theory rule settled.

* `¬¬p` is `p`; negations of truth values are computed.
* A conjunction is flattened, drops `true` and repeated operands, and is
  `false` when it holds `false` or a literal and its negation; disjunction
  dually. One operand left is the operand itself.
* `p → q` is `¬p ∨ q`.
* A conditional with a negated condition swaps its branches, with a truth
  value as condition picks a branch, with equal branches is that branch, and
  with truth-value branches becomes a connective.
* Equal sides make `true`, different values `false`; an equation between a
  conditional with value branches and a value is split by the condition.
* `a ≠ b` is `¬(a = b)`.
-/

namespace SmtSynth
namespace Rewrite

/-- The negation of a term, simplified one step. -/
def negation (t : Term) : Term :=
  match t with
  | .app .not [p] => p
  | .lit b => .lit (!b)
  | _ => .app .not [t]

/-- The rule for a negation. -/
def lnot (a : Term) : Step :=
  match a with
  | .app .not [p] => .done p
  | .lit b => .done (.lit (!b))
  | _ => .failed

/-- The rule for a conjunction (`isAnd`) or a disjunction. -/
def junction (isAnd : Bool) (args : List Term) : Step :=
  let f : Fn := if isAnd then .and else .or
  let flat := args.flatMap (fun a => (a.argsOf? f).getD [a])
  let flattened := args.any (·.isApp f)
  let unit := Term.lit isAnd
  let zero := Term.lit (!isAnd)
  let rec scan (xs : List Term) (pos neg out : List Term) (s : Bool) : Option (List Term × Bool) :=
    match xs with
    | [] => some (out, s)
    | x :: rest =>
      if x == unit then scan rest pos neg out true
      else if x == zero then none
      else match x with
        | .app .not [atom] =>
          if neg.contains atom then scan rest pos neg out true
          else if pos.contains atom then none
          else scan rest pos (neg ++ [atom]) (out ++ [x]) s
        | _ =>
          if pos.contains x then scan rest pos neg out true
          else if neg.contains x then none
          else scan rest (pos ++ [x]) neg (out ++ [x]) s
  match scan flat [] [] [] false with
  | none => .done zero
  | some (out, s) =>
    match out with
    | [] => .done unit
    | [t] => .done t
    | ts => if s || flattened then .done (.app f ts) else .failed

/-- A conjunction or disjunction built and simplified at once. -/
def mkJunction (isAnd : Bool) (args : List Term) : Term :=
  match junction isAnd args with
  | .done t => t
  | _ => .app (if isAnd then .and else .or) args

/-- The rule for an implication. -/
def implies (p q : Term) : Step := .done (mkJunction false [negation p, q])

/-- Whether `a` is the negation of `b`. -/
def complement (a b : Term) : Bool := a == .app .not [b]

/-- The rule for a conditional. -/
def ite (c t e : Term) : Step :=
  let (c, t, e, s) := match c with
    | .app .not [c'] => (c', e, t, true)
    | _ => (c, t, e, false)
  let (t, s) := match t with
    | .app .ite [c2, t1, _] => if c2 == c then (t1, true) else (t, s)
    | _ => (t, s)
  let (e, s) := match e with
    | .app .ite [c2, _, e2] => if c2 == c then (e2, true) else (e, s)
    | _ => (e, s)
  if c == .tt then .done t
  else if c == .ff then .done e
  else if t == e then .done t
  else if t.sort == .bool then
    if t == .tt then
      if e == .ff then .done c else .done (mkJunction false [c, e])
    else if t == .ff then
      if e == .tt then .done (negation c) else .done (mkJunction true [negation c, e])
    else if e == .tt then .done (mkJunction false [negation c, t])
    else if e == .ff then .done (mkJunction true [c, t])
    else if c == e then .done (mkJunction true [c, t])
    else if c == t then .done (mkJunction false [c, e])
    else if complement t e || complement e t then .done (.app .eq [c, t])
    else if s then .done (.app .ite [c, t, e]) else .failed
  else if s then .done (.app .ite [c, t, e]) else .failed

/-- An equation between a conditional and a value, split by the condition
when a branch settles it. -/
def iteValue (ite val : Term) : Step :=
  match ite with
  | .app .ite [c, t, e] =>
    let distinct (a b : Term) : Bool := a.isValue && b.isValue && a != b
    if distinct val e then .again 2 (.app .and [.app .eq [t, val], c])
    else if distinct val t then .again 2 (.app .and [.app .eq [e, val], .app .not [c]])
    else if val == t then
      if val == e then .done .tt else .again 2 (.app .or [.app .eq [e, val], c])
    else if val == e then .again 2 (.app .or [.app .eq [t, val], .app .not [c]])
    else .failed
  | _ => .failed

/-- The rule for an equation no theory rule settled. -/
def eq (lhs rhs : Term) : Step :=
  if lhs == rhs then .done .tt
  else if lhs.isValue && rhs.isValue then .done .ff
  else
    let st := if lhs.isApp .ite && rhs.isValue then iteValue lhs rhs
      else if rhs.isApp .ite && lhs.isValue then iteValue rhs lhs
      else .failed
    match st with
    | .failed =>
      if lhs.sort == .bool then
        let (l, r, unfolded) := match lhs, rhs with
          | .app .not [a], .app .not [b] => (a, b, true)
          | _, _ => (lhs, rhs, false)
        if l == .tt then .done r
        else if l == .ff then .done (negation r)
        else if r == .tt then .done l
        else if r == .ff then .done (negation l)
        else if complement l r || complement r l then .done .ff
        else if unfolded then .done (.app .eq [l, r])
        else .failed
      else .failed
    | st => st

/-- The rule for a disequation. -/
def distinct (args : List Term) : Step :=
  match args with
  | [] | [_] => .done .tt
  | [a, b] => .again 2 (.app .not [.app .eq [a, b]])
  | _ => .failed

end Rewrite
end SmtSynth
