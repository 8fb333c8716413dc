import SmtSynth.Term.Basic
/-!
# Meaning of terms

A value is a truth value, an integer, or a `w`-bit word (kept as its
unsigned residue). Under an assignment of values to named constants every
term has one value. Bit-vector arithmetic wraps modulo `2 ^ w`; `/`, `%`,
`>>` and the order comparisons `<`, `≤` on words are signed. Division by
zero is total, with the fixed results of the SMT-LIB bit-vector theory: an
unsigned quotient of all ones, a remainder equal to the dividend. Integer
`div` and `mod` round so that the remainder is never negative.
-/

namespace SmtSynth

/-- A value of a sort. -/
inductive Value where
  | bool (b : Bool)
  | int (i : Int)
  | word (w v : Nat)
  deriving DecidableEq, Repr, Inhabited

namespace Value

/-- The numeral or truth value that denotes a value. -/
def toTerm : Value → Term
  | bool b => .lit b
  | int i => .num i
  | word w v => .word w v

/-- The default value of a sort: false, zero. -/
def default : TermSort → Value
  | .bool => bool false
  | .int => int 0
  | .bv w => word w 0

/-- A value as a truth value (false for other values). -/
def asBool : Value → Bool
  | bool b => b
  | _ => false

/-- A value as an integer: words read unsigned. -/
def asInt : Value → Int
  | int i => i
  | word _ v => v
  | bool b => if b then 1 else 0

/-- A value's residue as a natural number. -/
def asNat : Value → Nat
  | word _ v => v
  | int i => i.toNat
  | bool b => if b then 1 else 0

end Value

/-- An assignment of values to named constants. -/
abbrev Assignment := String → TermSort → Option Value

namespace Word

/-- The `w`-bit residue of an integer. -/
def wrap (w : Nat) (i : Int) : Nat := (i % (Nat.pow 2 w : Nat)).toNat

/-- Unsigned quotient, all ones for a zero divisor. -/
def udiv (w a b : Nat) : Nat := if b = 0 then Nat.pow 2 w - 1 else a / b

/-- Unsigned remainder, the dividend for a zero divisor. -/
def urem (a b : Nat) : Nat := if b = 0 then a else a % b

/-- Signed quotient rounding toward zero. -/
def sdiv (w a b : Nat) : Nat :=
  let sa := toSigned w a
  let sb := toSigned w b
  if b = 0 then (if sa < 0 then 1 else Nat.pow 2 w - 1) else wrap w (sa.tdiv sb)

/-- Signed remainder with the sign of the divisor. -/
def smod (w a b : Nat) : Nat :=
  if b = 0 then a else
  let sa := toSigned w a
  let sb := toSigned w b
  let u : Int := (sa.natAbs % sb.natAbs : Nat)
  if u = 0 then 0
  else if sa ≥ 0 && sb > 0 then wrap w u
  else if sa < 0 && sb > 0 then wrap w (sb - u)
  else if sa ≥ 0 && sb < 0 then wrap w (u + sb)
  else wrap w (-u)

/-- Left shift, zero once the amount reaches the width. -/
def shl (w a b : Nat) : Nat := if b ≥ w then 0 else wrap w (a * Nat.pow 2 b)

/-- Logical right shift. -/
def lshr (w a b : Nat) : Nat := if b ≥ w then 0 else a / Nat.pow 2 b

/-- Arithmetic right shift: the sign fills the vacated bits. -/
def ashr (w a b : Nat) : Nat :=
  let sa := toSigned w a
  if b ≥ w then (if sa < 0 then Nat.pow 2 w - 1 else 0) else wrap w (Int.fdiv sa (Nat.pow 2 b : Nat))

end Word

namespace Term

/-- The value of a binary word operation. -/
def wordBinary (f : Fn) (w a b : Nat) : Value :=
  match f with
  | .add => .word w (Word.wrap w (a + b))
  | .sub => .word w (Word.wrap w ((a : Int) - b))
  | .mul => .word w (Word.wrap w (a * b))
  | .div | .sdivI => .word w (Word.sdiv w a b)
  | .mod | .smodI => .word w (Word.smod w a b)
  | .udiv | .udivI => .word w (Word.udiv w a b)
  | .urem | .uremI => .word w (Word.urem a b)
  | .band => .word w (a &&& b)
  | .bor => .word w (a ||| b)
  | .bxor => .word w (a ^^^ b)
  | .shl => .word w (Word.shl w a b)
  | .lshr => .word w (Word.lshr w a b)
  | .ashr => .word w (Word.ashr w a b)
  | .lt => .bool (decide (Word.toSigned w a < Word.toSigned w b))
  | .le => .bool (decide (Word.toSigned w a ≤ Word.toSigned w b))
  | .gt => .bool (decide (Word.toSigned w a > Word.toSigned w b))
  | .ge => .bool (decide (Word.toSigned w a ≥ Word.toSigned w b))
  | .ult => .bool (decide (a < b))
  | .ule => .bool (decide (a ≤ b))
  | .ugt => .bool (decide (a > b))
  | .uge => .bool (decide (a ≥ b))
  | _ => .word w 0

/-- The value of a binary integer operation. -/
def intBinary (f : Fn) (a b : Int) : Value :=
  match f with
  | .add => .int (a + b)
  | .sub => .int (a - b)
  | .mul => .int (a * b)
  | .div => .int (a / b)
  | .mod => .int (a % b)
  | .lt => .bool (decide (a < b))
  | .le => .bool (decide (a ≤ b))
  | .gt => .bool (decide (a > b))
  | .ge => .bool (decide (a ≥ b))
  | _ => .int 0

/-- The value of an operation applied to values. -/
def apply (f : Fn) (s : TermSort) (vs : List Value) : Value :=
  match f, vs with
  | .not, [a] => .bool (!a.asBool)
  | .and, vs => .bool (vs.all Value.asBool)
  | .or, vs => .bool (vs.any Value.asBool)
  | .implies, [a, b] => .bool (!a.asBool || b.asBool)
  | .ite, [c, a, b] => if c.asBool then a else b
  | .eq, [a, b] => .bool (a == b)
  | .distinct, vs => .bool (vs.length == vs.eraseDups.length)
  | .neg, [a] => match s with
    | .bv w => .word w (Word.wrap w (-(a.asNat : Int)))
    | _ => .int (-a.asInt)
  | .bnot, [a] => .word s.width (Nat.pow 2 s.width - 1 - a.asNat)
  | .concat, vs => .word s.width (vs.foldl (fun acc v => match v with
      | .word w x => acc * Nat.pow 2 w + x
      | _ => acc) 0)
  | .extract hi lo, [a] => .word (hi + 1 - lo) ((a.asNat / Nat.pow 2 lo) % Nat.pow 2 (hi + 1 - lo))
  | .add, v :: rest => rest.foldl (fun acc x => match s with
      | .bv w => wordBinary .add w acc.asNat x.asNat
      | _ => intBinary .add acc.asInt x.asInt) v
  | .mul, v :: rest => rest.foldl (fun acc x => match s with
      | .bv w => wordBinary .mul w acc.asNat x.asNat
      | _ => intBinary .mul acc.asInt x.asInt) v
  | .band, v :: rest => rest.foldl (fun acc x => wordBinary .band s.width acc.asNat x.asNat) v
  | .bor, v :: rest => rest.foldl (fun acc x => wordBinary .bor s.width acc.asNat x.asNat) v
  | .bxor, v :: rest => rest.foldl (fun acc x => wordBinary .bxor s.width acc.asNat x.asNat) v
  | .sub, v :: rest => rest.foldl (fun acc x => match s with
      | .bv w => wordBinary .sub w acc.asNat x.asNat
      | _ => intBinary .sub acc.asInt x.asInt) v
  | f, [a, b] => match s with
    | .bv w => wordBinary f w a.asNat b.asNat
    | _ => intBinary f a.asInt b.asInt
  | _, _ => Value.default s

/-- The value of a term under an assignment; unassigned constants take the
default value of their sort. -/
def eval (ρ : Assignment) : Term → Value
  | lit b => .bool b
  | num n => .int n
  | word w v => .word w v
  | var n s => (ρ n s).getD (Value.default s)
  | app f args =>
    let s := match f, args with
      | .ite, _ :: a :: _ => a.sort
      | _, a :: _ => a.sort
      | _, [] => .bool
    let s := match f with
      | .concat | .extract _ _ => (app f args).sort
      | _ => s
    apply f s (args.attach.map (fun ⟨a, _⟩ => eval ρ a))

end Term
end SmtSynth
