import SmtSynth.Term.Order
/-!
# Rewrite steps

A rewrite rule looks at one application whose arguments are already in
simplified form and answers with a `Step`: no rule applies, a final result,
or a result whose top `depth` levels are to be simplified again (`depth = 0`
asks for a full pass).

This module also holds the numeral arithmetic the rules share: numerals of a
sort (wrapping for bit-vectors), their values, and the builders of sums,
products and concatenations that collapse trivial cases.
-/

namespace SmtSynth

/-- The answer of a rewrite rule. -/
inductive Step where
  | failed
  | done (t : Term)
  | again (depth : Nat) (t : Term)
  deriving Inhabited

namespace Rewrite

/-- The numeral of sort `s` with value `v` (wrapped for bit-vectors). -/
def numeral (s : TermSort) (v : Int) : Term :=
  match s with
  | .bv w => Term.ofInt w v
  | _ => .num v

/-- The value of a numeral: unsigned for bit-vectors. -/
def value? : Term → Option Int
  | .word _ v => some v
  | .num n => some n
  | _ => none

/-- Whether a term is a numeral. -/
def isNum (t : Term) : Bool := (value? t).isSome

/-- Whether a term is the numeral zero. -/
def isZero (t : Term) : Bool := value? t == some 0

/-- A numeral value brought to its sort's range. -/
def normalize (s : TermSort) (v : Int) : Int :=
  match s with
  | .bv w => v % (Nat.pow 2 w : Nat)
  | _ => v

/-- The sum of `ts`: zero when empty, the term itself when single. -/
def mkAdd (s : TermSort) : List Term → Term
  | [] => numeral s 0
  | [t] => t
  | ts => .app .add ts

/-- The product of `ts`: one when empty, the term itself when single. -/
def mkMul (s : TermSort) : List Term → Term
  | [] => numeral s 1
  | [t] => t
  | ts => .app .mul ts

/-- The product `c * t`, or `t` itself when `c` is one. -/
def scale (s : TermSort) (c : Int) (t : Term) : Term :=
  if normalize s c = 1 then t else mkMul s [numeral s c, t]

/-- The concatenation of `ts`, or the term itself when single. -/
def mkConcat : List Term → Term
  | [t] => t
  | ts => .app .concat ts

/-- The bits `hi` down to `lo` of `t`, as an extraction. -/
def mkExtract (hi lo : Nat) (t : Term) : Term := .app (.extract hi lo) [t]

/-- The coefficient and the rest of a monomial `c * x`. -/
def monomial (t : Term) : Int × Term :=
  match t with
  | .app .mul [c, x] => match value? c with
    | some v => (v, x)
    | none => (1, t)
  | _ => (1, t)

/-- The power product of a monomial: `x` for `c * x`, the term itself
otherwise. -/
def powerProduct (t : Term) : Term := (monomial t).2

/-- The bit `i` of `v`. -/
def bit (v i : Nat) : Bool := (v >>> i) % 2 == 1

/-- The maximal runs of equal bits of a `sz`-bit value from bit 0 upward:
the bit, and the lowest and highest position of the run. -/
def runs (v sz : Nat) : List (Bool × Nat × Nat) :=
  go 0 []
where
  go (i : Nat) (acc : List (Bool × Nat × Nat)) : List (Bool × Nat × Nat) :=
    if h : i < sz then
      let b := bit v i
      let acc := match acc with
        | (b', lo, _) :: rest => if b' == b then (b, lo, i) :: rest else (b, i, i) :: acc
        | [] => [(b, i, i)]
      go (i + 1) acc
    else acc.reverse
  termination_by sz - i

end Rewrite
end SmtSynth
