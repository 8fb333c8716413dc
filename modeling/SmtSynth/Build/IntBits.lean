/-!
# Bit operations on unbounded integers

Integers read as infinite two's-complement bit strings: a negative `-(n+1)`
is the complement of `n`. Conjunction, disjunction and exclusive or follow
from the natural-number operations through that complement.
-/

namespace SmtSynth
namespace IntBits

/-- Bitwise conjunction. -/
def and : Int → Int → Int
  | .ofNat a, .ofNat b => .ofNat (a &&& b)
  | .ofNat a, .negSucc m => .ofNat (a - (a &&& m))
  | .negSucc n, .ofNat b => .ofNat (b - (b &&& n))
  | .negSucc n, .negSucc m => .negSucc (n ||| m)

/-- Bitwise disjunction. -/
def or : Int → Int → Int
  | .ofNat a, .ofNat b => .ofNat (a ||| b)
  | .ofNat a, .negSucc m => .negSucc (m - (m &&& a))
  | .negSucc n, .ofNat b => .negSucc (n - (n &&& b))
  | .negSucc n, .negSucc m => .negSucc (n &&& m)

/-- Bitwise exclusive or. -/
def xor : Int → Int → Int
  | .ofNat a, .ofNat b => .ofNat (a ^^^ b)
  | .ofNat a, .negSucc m => .negSucc (a ^^^ m)
  | .negSucc n, .ofNat b => .negSucc (n ^^^ b)
  | .negSucc n, .negSucc m => .ofNat (n ^^^ m)

/-- Bitwise complement: `-x - 1`. -/
def not (x : Int) : Int := -x - 1

/-- Shift left by `k` places: multiplication by `2 ^ k`. -/
def shiftLeft (x : Int) (k : Nat) : Int := x * (Nat.pow 2 k : Nat)

/-- Arithmetic shift right by `k` places: division by `2 ^ k`, rounding
down. -/
def shiftRight (x : Int) (k : Nat) : Int := Int.fdiv x (Nat.pow 2 k : Nat)

end IntBits
end SmtSynth
