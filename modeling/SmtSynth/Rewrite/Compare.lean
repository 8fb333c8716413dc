import SmtSynth.Rewrite.Bits
/-!
# Comparisons and equations

Orderings reduce to `≤`: `a < b` is `¬(b ≤ a)`, `a ≥ b` is `b ≤ a`. A
bit-vector `≤` between numerals is decided; against the least or greatest
value of its signedness it becomes `true` or an equation. Integer
comparisons and equations cancel common monomials first.

A bit-vector equation is decided between numerals, keeps its numeral on the
right, splits concatenations into equations of their parts, solves
`c * x = d` for odd `c`, and cancels common monomials of sums.
-/

namespace SmtSynth
namespace Rewrite

/-- The rule for a bit-vector `a ≤ b`, signed or unsigned. -/
def wordLe (signedCmp : Bool) (sz : Nat) (a b : Term) : Step :=
  if a == b then .done .tt else
  let rd (t : Term) : Option Int := t.word?.map (fun v => if signedCmp then signed sz v else (v : Int))
  let lower : Int := if signedCmp then -((Nat.pow 2 (sz - 1) : Nat) : Int) else 0
  let upper : Int := if signedCmp then ((Nat.pow 2 (sz - 1) : Nat) : Int) - 1 else ((Nat.pow 2 sz - 1 : Nat) : Int)
  match rd a, rd b with
  | some x, some y => .done (.lit (decide (x ≤ y)))
  | _, some y =>
    if y = lower then .again 1 (.app .eq [a, b])
    else if y = upper then .done .tt
    else .failed
  | some x, _ =>
    if x = lower then .done .tt
    else if x = upper then .again 1 (.app .eq [a, b])
    else .failed
  | none, none => .failed

/-- The rule for an integer comparison `a ≤ b`, `a ≥ b` or equation. -/
def intCompare (f : Fn) (a b : Term) : Step :=
  match value? a, value? b with
  | some x, some y =>
    .done (.lit (match f with
      | .le => decide (x ≤ y)
      | .ge => decide (x ≥ y)
      | _ => decide (x = y)))
  | _, _ =>
    match cancel .int a b false with
    | some (l, r) => .done (.app f [l, r])
    | none => .failed

/-- Splits an equation between concatenations into equations of aligned
parts, from the low bits up. -/
def splitConcatEq (lhs rhs : Term) : List Term :=
  let ps1 := ((lhs.argsOf? .concat).getD [lhs]).reverse
  let ps2 := ((rhs.argsOf? .concat).getD [rhs]).reverse
  go ps1 ps2 0 0 (ps1.length + ps2.length + 1)
where
  go : List Term → List Term → Nat → Nat → Nat → List Term
    | a :: as, b :: bs, low1, low2, fuel + 1 =>
      let sz1 := a.width
      let sz2 := b.width
      let r1 := sz1 - low1
      let r2 := sz2 - low2
      if r1 = r2 then
        .app .eq [mkExtract (sz1 - 1) low1 a, mkExtract (sz2 - 1) low2 b] :: go as bs 0 0 fuel
      else if r1 < r2 then
        .app .eq [mkExtract (sz1 - 1) low1 a, mkExtract (r1 + low2 - 1) low2 b] :: go as (b :: bs) 0 (low2 + r1) fuel
      else
        .app .eq [mkExtract (r2 + low1 - 1) low1 a, mkExtract (sz2 - 1) low2 b] :: go (a :: as) bs (low1 + r2) 0 fuel
    | _, _, _, _, _ => []

/-- The inverse of an odd `c` modulo `2 ^ sz`. -/
def inverse (sz c : Nat) : Option Nat :=
  if c % 2 = 0 then none
  else
    -- Newton iteration doubles the number of correct low bits each step
    let m := Nat.pow 2 sz
    let rec iter (x : Nat) (fuel : Nat) : Nat :=
      match fuel with
      | 0 => x
      | fuel + 1 => iter ((x * (2 + m * m - c * x % (m * m))) % m) fuel
    some (iter 1 (Nat.log2 sz + 2) % m)

/-- `c * x = d` with `c` odd becomes `x = c⁻¹ * d`. -/
def mulEq (sz : Nat) (lhs rhs : Term) : Option Step :=
  match lhs with
  | .app .mul [.word _ c, x] =>
    match inverse sz c with
    | none => none
    | some ci =>
      match rhs with
      | .word _ d => some (.again 1 (.app .eq [x, wordOf sz (ci * d)]))
      | .app .mul [.word _ c2, x2] =>
        let k := (c2 * ci) % Nat.pow 2 sz
        if k = 1 then some (.again 1 (.app .eq [x, x2]))
        else some (.again 1 (.app .eq [x, .app .mul [wordOf sz k, x2]]))
      | .app .add ts =>
        some (.again 2 (.app .eq [x, .app .add (ts.map (fun t => .app .mul [wordOf sz ci, t]))]))
      | _ => none
  | _ => none

/-- The rule for a bit-vector equation. -/
def wordEq (sz : Nat) (lhs rhs : Term) : Step :=
  if lhs == rhs then .done .tt
  else if isNum lhs && isNum rhs then .done .ff
  else
    let swapped := isNum lhs
    let (lhs, rhs) := if swapped then (rhs, lhs) else (lhs, rhs)
    if lhs.isApp .concat || rhs.isApp .concat then
      .again 3 (.app .and (splitConcatEq lhs rhs))
    else match mulEq sz lhs rhs with
    | some st => st
    | none => match mulEq sz rhs lhs with
      | some st => st
      | none =>
        let arith := lhs.isApp .add || lhs.isApp .mul || rhs.isApp .add || rhs.isApp .mul
        match (if arith then cancel (.bv sz) lhs rhs false else none) with
        | some (l, r) =>
          if isNum l && isNum r then .done (.lit (l == r)) else .done (.app .eq [l, r])
        | none => if swapped then .done (.app .eq [lhs, rhs]) else .failed

end Rewrite
end SmtSynth
