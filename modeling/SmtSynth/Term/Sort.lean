/-!
# Sorts

Every term has one of three sorts: truth values, unbounded integers, or
bit-vectors of a fixed positive width. Two terms can only be compared or
combined when their sorts agree, and the text of a sort appears in error
messages, so the sort carries its own SMT-LIB spelling.
-/

namespace SmtSynth

/-- The sort of a term. -/
inductive TermSort where
  | bool
  | int
  | bv (width : Nat)
  deriving DecidableEq, Repr, Inhabited, Hashable

namespace TermSort

/-- The SMT-LIB name of a sort, as in `(_ BitVec 8)`. -/
def smtName : TermSort → String
  | bool => "Bool"
  | int => "Int"
  | bv w => "(_ BitVec " ++ toString w ++ ")"

/-- The width of a bit-vector sort, and zero for the others. -/
def width : TermSort → Nat
  | bv w => w
  | _ => 0

/-- Whether the sort is a bit-vector sort. -/
def isBv : TermSort → Bool
  | bv _ => true
  | _ => false

@[simp] theorem width_bv (w : Nat) : (bv w).width = w := rfl

end TermSort

end SmtSynth
