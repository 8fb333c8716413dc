import SmtSynth.Rewrite.Logic
/-!
# Simplification

`Term.simplify` rewrites bottom-up: the arguments of an application are
simplified first, then one rule is asked about the application. A rule may
ask for its result to be simplified again to a given depth, which is how a
rule that builds new subterms gets them into simplified form. The recursion
carries fuel, far more than any term needs.
-/

namespace SmtSynth
namespace Rewrite

/-- Integer quotient and remainder of numerals, rounding so that the
remainder is never negative. -/
def intDivMod (isDiv : Bool) (a b : Term) : Step :=
  match value? a, value? b with
  | some x, some y => if y = 0 then .failed else .done (.num (if isDiv then x / y else x % y))
  | _, some 1 => if isDiv then .done a else .done (.num 0)
  | _, _ => .failed

/-- The one rule that applies to `f` over simplified arguments. -/
def step (f : Fn) (args : List Term) : Step :=
  let s := match args with
    | a :: _ => a.sort
    | [] => .bool
  let sz := s.width
  match f, args with
  | .add, _ => add s args
  | .sub, _ => sub s args
  | .mul, _ => mul s args
  | .neg, [a] => neg s a
  | .bnot, [a] => bnot a
  | .bor, _ => bor sz args
  | .bxor, _ => bxor sz args
  | .band, _ => band args
  | .concat, _ => concat args
  | .extract hi lo, [a] => extract hi lo a
  | .shl, [a, b] => shl sz a b
  | .lshr, [a, b] => lshr sz a b
  | .ashr, [a, b] => ashr sz a b
  | .udiv, [a, b] | .udivI, [a, b] => udiv sz a b
  | .urem, [a, b] | .uremI, [a, b] => urem sz a b
  | .div, [a, b] => if s.isBv then sdiv sz a b else intDivMod true a b
  | .sdivI, [a, b] => sdiv sz a b
  | .mod, [a, b] => if s.isBv then smod sz a b else intDivMod false a b
  | .smodI, [a, b] => smod sz a b
  | .ule, [a, b] => wordLe false sz a b
  | .uge, [a, b] => match wordLe false sz b a with
    | .failed => .done (.app .ule [b, a])
    | st => st
  | .ult, [a, b] => .again 2 (.app .not [.app .ule [b, a]])
  | .ugt, [a, b] => .again 2 (.app .not [.app .ule [a, b]])
  | .le, [a, b] => if s.isBv then wordLe true sz a b else intCompare .le a b
  | .ge, [a, b] =>
    if s.isBv then match wordLe true sz b a with
      | .failed => .done (.app .le [b, a])
      | st => st
    else intCompare .ge a b
  | .lt, [a, b] => .again 2 (.app .not [.app .le [b, a]])
  | .gt, [a, b] => .again 2 (.app .not [.app .le [a, b]])
  | .eq, [a, b] =>
    let st := match s with
      | .bv _ => wordEq sz a b
      | .int => intCompare .eq a b
      | .bool => .failed
    match st with
    | .failed => eq a b
    | st => st
  | .distinct, _ => distinct args
  | .not, [a] => lnot a
  | .and, _ => junction true args
  | .or, _ => junction false args
  | .implies, [p, q] => implies p q
  | .ite, [c, t, e] => ite c t e
  | _, _ => .failed

/-- Simplifies `t`; `budget` bounds the levels still to visit (`none`: all). -/
def run : Nat → Option Nat → Term → Term
  | 0, _, t => t
  | fuel + 1, budget, t =>
    if budget == some 0 then t else
    match t with
    | .app f args =>
      let args := args.map (run fuel (budget.map (· - 1)))
      match step f args with
      | .failed => .app f args
      | .done r => r
      | .again d r => run fuel (if d = 0 then none else some d) r
    | t => t

end Rewrite

/-- The simplified form of a term. -/
def Term.simplify (t : Term) : Term := Rewrite.run 100000 none t

end SmtSynth
