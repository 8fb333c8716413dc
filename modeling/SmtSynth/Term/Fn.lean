/-!
# Function symbols

The function symbols of the term language, named by meaning. Arithmetic
symbols (`add`, `mul`, `lt`, ...) serve both integers and bit-vectors; the sort
of their arguments decides which operation they denote, and which SMT-LIB
name they print with. Comparisons `lt`, `le`, `gt`, `ge` and the quotient
`div` and remainder `mod` are signed on bit-vectors.

The symbols `udivI`, `uremI`, `sdivI` and `smodI` are the division operations
after the simplifier has fixed the meaning of a zero divisor; they compute
the same values as `udiv`, `urem`, `div` and `mod` and print with their own
names.
-/

namespace SmtSynth

/-- A function symbol. -/
inductive Fn where
  | not | and | or | implies | ite | eq | distinct
  | add | sub | mul | neg | div | mod
  | lt | le | gt | ge
  | udiv | urem | udivI | uremI | sdivI | smodI
  | band | bor | bxor | bnot
  | shl | lshr | ashr
  | ult | ule | ugt | uge
  | concat
  | extract (hi lo : Nat)
  deriving DecidableEq, Repr, Inhabited, Hashable

namespace Fn

/-- The SMT-LIB name of a symbol applied to arguments of the given sort. -/
def smtName (f : Fn) (onWords : Bool) : String :=
  match f with
  | not => "not" | and => "and" | or => "or" | implies => "=>" | ite => "ite"
  | eq => "=" | distinct => "distinct"
  | add => if onWords then "bvadd" else "+"
  | sub => if onWords then "bvsub" else "-"
  | mul => if onWords then "bvmul" else "*"
  | neg => if onWords then "bvneg" else "-"
  | div => if onWords then "bvsdiv" else "div"
  | mod => if onWords then "bvsmod" else "mod"
  | lt => if onWords then "bvslt" else "<"
  | le => if onWords then "bvsle" else "<="
  | gt => if onWords then "bvsgt" else ">"
  | ge => if onWords then "bvsge" else ">="
  | udiv => "bvudiv" | urem => "bvurem" | udivI => "bvudiv_i" | uremI => "bvurem_i"
  | sdivI => "bvsdiv_i" | smodI => "bvsmod_i"
  | band => "bvand" | bor => "bvor" | bxor => "bvxor" | bnot => "bvnot"
  | shl => "bvshl" | lshr => "bvlshr" | ashr => "bvashr"
  | ult => "bvult" | ule => "bvule" | ugt => "bvugt" | uge => "bvuge"
  | concat => "concat"
  | extract _ _ => "extract"

/-- Symbols whose nested applications may be read as one application to all
the arguments: `(f a (f b c))` means `(f a b c)`. -/
def isAssociative : Fn → Bool
  | and | or | add | mul | band | bor | bxor | concat => true
  | _ => false

/-- Symbols whose value is a truth value whatever their arguments. -/
def isPredicate : Fn → Bool
  | not | and | or | implies | eq | distinct | lt | le | gt | ge
  | ult | ule | ugt | uge => true
  | _ => false

end Fn

end SmtSynth
