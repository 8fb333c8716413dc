import SmtSynth.Build.Operand
/-!
# Sign-pattern sketches

From a list of operands `v₀ … vₙ₋₁` and a start position `i`, the sketches
are every right-nested chain `vᵢ ∘ (vᵢ₊₁ ∘ (… vₙ₋₁))` with each `∘` one of
`+` and `-`, outermost operator first and `+` before `-`: `2 ^ (n - i - 1)`
chains. A start position counts from the end when negative, as list
positions do in the host language; a start past the end is refused. The
last operand alone is the one sketch of a one-element tail.
-/

namespace SmtSynth
namespace Sketch

/-- The operand at a position of a list, counting from the end when the
position is negative. -/
def at? (xs : List Operand) (i : Int) : Option Operand :=
  if i < 0 then
    if (-i).toNat ≤ xs.length then xs[xs.length - (-i).toNat]? else Option.none
  else xs[i.toNat]?

/-- The sketches from position `i`, with `fuel` bounding the recursion by the
number of positions left. -/
def chains (xs : List Operand) : Nat → Int → Except Fault (List Operand)
  | 0, _ => .ok []
  | fuel + 1, i =>
    if i = xs.length then .ok []
    else match at? xs i with
      | Option.none => .error .indexOutOfRange
      | some v => do
        let rest ← chains xs fuel (i + 1)
        let plus ← rest.mapM (Operand.binary .add v)
        let minus ← rest.mapM (Operand.binary .sub v)
        let all := plus ++ minus
        return if all.isEmpty then [v] else all

/-- The sign-pattern sketches of `xs` from position `i`. -/
def ofOperands (xs : List Operand) (i : Int) : Except Fault (List Operand) :=
  chains xs (((xs.length : Int) - i).toNat + 1) i

end Sketch
end SmtSynth
