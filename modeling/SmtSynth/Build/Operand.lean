import SmtSynth.Build.Checked
import SmtSynth.Build.IntBits
import SmtSynth.Text.Readable
/-!
# Operands and operators

The values a formula is built from: host integers, host truth values, the
absent value, and terms. Operators act on them the way the host language's
operator protocol over the solver's term classes does:

* two host values combine as host arithmetic;
* a term meets a host value by reading the host value as a numeral of the
  term's sort (wrapping modulo `2 ^ w` for bit-vectors);
* two terms are first brought to a common sort: a narrower bit-vector sort
  gives way to a wider one without any conversion (so the solver's own
  check then refuses the mismatch), a truth value gives way to an integer as
  `if b then 1 else 0`, and other pairs are refused;
* a comparison whose right operand is a numeral while the left is not is
  answered by the numeral, with the comparison turned around;
* an operator a class lacks (bitwise operators on integers, arithmetic on
  truth values) is a type fault naming both classes.

Bit-vector `/`, `%`, `>>`, `<`, `<=`, `>`, `>=` are the signed operations.
-/

namespace SmtSynth

/-- A value a formula is built from. -/
inductive Operand where
  | int (n : Int)
  | bool (b : Bool)
  | term (t : Term)
  | none
  deriving Repr, Inhabited

/-- A binary operator written between two operands. -/
inductive BinOp where
  | add | sub | mul | div | mod | band | bor | bxor | shl | shr
  | eq | ne | lt | le | gt | ge
  deriving DecidableEq, Repr

/-- A unary operator. -/
inductive UnOp where
  | neg | bnot | not
  deriving DecidableEq, Repr

/-- A named operation of the solver on two operands. -/
inductive Call where
  | lshr | ult | ule | ugt | uge | udiv | urem | implies
  deriving DecidableEq, Repr

namespace BinOp

/-- The operator's symbol. -/
def symbol : BinOp → String
  | add => "+" | sub => "-" | mul => "*" | div => "/" | mod => "%"
  | band => "&" | bor => "|" | bxor => "^" | shl => "<<" | shr => ">>"
  | eq => "==" | ne => "!=" | lt => "<" | le => "<=" | gt => ">" | ge => ">="

/-- Whether the operator is a comparison. -/
def isComparison : BinOp → Bool
  | eq | ne | lt | le | gt | ge => true
  | _ => false

/-- The comparison with its operands swapped: `a < b` is `b > a`. -/
def swapped : BinOp → BinOp
  | lt => gt | gt => lt | le => ge | ge => le | op => op

/-- The symbol an operator denotes on terms. -/
def fn : BinOp → Fn
  | add => .add | sub => .sub | mul => .mul | div => .div | mod => .mod
  | band => .band | bor => .bor | bxor => .bxor | shl => .shl | shr => .ashr
  | eq => .eq | ne => .distinct | lt => .lt | le => .le | gt => .gt | ge => .ge

end BinOp

namespace Operand

/-- The name of the class of an operand. -/
def className : Operand → String
  | int _ => "int"
  | bool _ => "bool"
  | none => "NoneType"
  | term (.word _ _) => "BitVecNumRef"
  | term (.num _) => "IntNumRef"
  | term (.lit _) => "BoolRef"
  | term t => match t.sort with
    | .bv _ => "BitVecRef"
    | .int => "ArithRef"
    | .bool => "BoolRef"

/-- The host text of an operand. -/
def hostText : Operand → String
  | int n => toString n
  | bool b => if b then "True" else "False"
  | none => "None"
  | term t => t.toText

/-- Whether the operand is a numeral term, whose class refines the class of
terms of its sort. -/
def isNumeral : Operand → Bool
  | term (.word _ _) | term (.num _) => true
  | _ => false

/-- Whether the operand is a term. -/
def isTerm : Operand → Bool
  | term _ => true
  | _ => false

/-- The term of an operand, for operations that take only terms. -/
def toTerm : Operand → Except Fault Term
  | term t => .ok t
  | _ => .error .termExpected

/-- The sort of a term operand. -/
def sort? : Operand → Option TermSort
  | term t => some t.sort
  | _ => Option.none

/-- Whether sort `a` gives way to sort `b` when operands meet. -/
def givesWay : TermSort → TermSort → Bool
  | .bool, .int => true
  | .bv m, .bv n => m < n
  | _, _ => false

/-- The common sort of operands met so far and one more. -/
def merge (s : Option TermSort) (a : Operand) : Except Fault (Option TermSort) :=
  match s, a.sort? with
  | Option.none, t => .ok t
  | some s, some t =>
    if s = t then .ok (some s)
    else if givesWay s t then .ok (some t)
    else if givesWay t s then .ok (some s)
    else .error .sortMismatch
  | some s, Option.none => .ok (some s)

/-- A host integer as a term of its own: an integer numeral; a host truth
value as a truth value. -/
def lift : Operand → Except Fault Operand
  | int n => .ok (term (.num n))
  | bool b => .ok (term (.lit b))
  | term t => .ok (term t)
  | none => .error .sortMismatch

/-- An operand read at sort `s`. -/
def cast (s : TermSort) : Operand → Except Fault Term
  | term t =>
    match s with
    | .bv _ => .ok t
    | .int =>
      if t.sort = .int then .ok t
      else if t.sort = .bool then .ok (.app .ite [t, .num 1, .num 0])
      else .error .intExpected
    | .bool => if t.sort = .bool then .ok t else .error .notBoolean
  | int n =>
    match s with
    | .bv w => .ok (Term.ofInt w n)
    | .int => .ok (.num n)
    | .bool => .error (.boolExpected (toString n) "<class 'int'>")
  | bool b =>
    match s with
    | .bv w => .ok (Term.ofInt w (if b then 1 else 0))
    | .int => .ok (.num (if b then 1 else 0))
    | .bool => .ok (.lit b)
  | none => .error (.boolExpected "None" "<class 'NoneType'>")

/-- A condition: a truth value term, or a host truth value. -/
def asCondition (a : Operand) : Except Fault Term := a.cast .bool

/-- Two operands brought to a common sort. -/
def coerce (a b : Operand) : Except Fault (Term × Term) := do
  let (a, b) ← if a.isTerm || b.isTerm then pure (a, b) else pure (← a.lift, ← b.lift)
  let s ← merge (← merge Option.none a) b
  match s with
  | some s => pure (← a.cast s, ← b.cast s)
  | Option.none => throw .sortMismatch

/-- A list of operands brought to a common sort. -/
def coerceAll (xs : List Operand) : Except Fault (List Term) := do
  let xs ← if xs.any isTerm then pure xs else xs.mapM lift
  let s ← xs.foldlM merge Option.none
  match s with
  | some s => xs.mapM (cast s)
  | Option.none => pure []

/-- The term of `f a b` at the sort the operands share. -/
def arith (f : Fn) (a b : Term) : Except Fault Term :=
  match a.sort with
  | .bv _ => Term.mkWordOp f f.isPredicate a b
  | _ => if b.sort = a.sort then .ok (.app f [a, b]) else .error .sortMismatch

/-- Whether terms of a sort support an operator. -/
def supports (s : TermSort) (op : BinOp) : Bool :=
  match s with
  | .bv _ => true
  | .int => !(op == .band || op == .bor || op == .bxor || op == .shl || op == .shr)
  | .bool => op == .mul || op == .eq || op == .ne

/-- The host truth value of a comparison of host integers. -/
def compareHost (op : BinOp) (a b : Int) : Bool :=
  match op with
  | .eq => a == b | .ne => a != b | .lt => a < b | .le => a ≤ b | .gt => a > b | .ge => a ≥ b
  | _ => false

/-- A host integer view of a host value, if it has one. -/
def hostInt? : Operand → Option Int
  | int n => some n
  | bool b => some (if b then 1 else 0)
  | _ => Option.none

/-- Host arithmetic on host values. -/
def host (op : BinOp) (a b : Operand) : Except Fault Operand :=
  match op, a, b with
  | .eq, none, none => .ok (bool true)
  | .ne, none, none => .ok (bool false)
  | .eq, none, _ | .eq, _, none => .ok (bool false)
  | .ne, none, _ | .ne, _, none => .ok (bool true)
  | .band, bool x, bool y => .ok (bool (x && y))
  | .bor, bool x, bool y => .ok (bool (x || y))
  | .bxor, bool x, bool y => .ok (bool (x != y))
  | op, a, b =>
    match a.hostInt?, b.hostInt? with
    | some x, some y =>
      match op with
      | .add => .ok (int (x + y))
      | .sub => .ok (int (x - y))
      | .mul => .ok (int (x * y))
      | .div => if y = 0 then .error .zeroDivision else .ok (int (Int.fdiv x y))
      | .mod => if y = 0 then .error .zeroDivision else .ok (int (Int.fmod x y))
      | .band => .ok (int (IntBits.and x y))
      | .bor => .ok (int (IntBits.or x y))
      | .bxor => .ok (int (IntBits.xor x y))
      | .shl => if y < 0 then .error .negativeShift else .ok (int (IntBits.shiftLeft x y.toNat))
      | .shr => if y < 0 then .error .negativeShift else .ok (int (IntBits.shiftRight x y.toNat))
      | op => .ok (bool (compareHost op x y))
    | _, _ =>
      if op.isComparison then .error (.comparisonTypes op.symbol a.className b.className)
      else .error (.operandTypes op.symbol a.className b.className)

/-- A truth value term times an operand: the term itself when the operand
reads as one, the host zero when it reads as zero, and otherwise
`if t then other else 0`. -/
def boolTimes (t : Term) (other : Operand) : Except Fault Operand := do
  let isOne ← match other with
    | term o => do let (x, y) ← coerce (term o) (int 1); pure (decide (x = y))
    | o => pure (o.hostInt? == some 1)
  if isOne then return term t
  let isZero ← match other with
    | term o => do let (x, y) ← coerce (term o) (int 0); pure (decide (x = y))
    | o => pure (o.hostInt? == some 0)
  if isZero then return int 0
  let (x, y) ← coerce other (int 0)
  return term (← Term.mkIte t x y)

/-- A term's own operator applied to another operand; `flip` applies it with
the other operand on the left, as a reflected operator does. -/
def method (op : BinOp) (self : Term) (other : Operand) (flip : Bool) : Except Fault Operand := do
  match op with
  | .eq =>
    match other with
    | none => return bool false
    | o => let (a, b) ← coerce (term self) o; return term (← Term.mkEq a b)
  | .ne =>
    match other with
    | none => return bool true
    | o => let (a, b) ← coerce (term self) o; return term (← Term.mkDistinct a b)
  | .mul =>
    if self.sort = .bool then boolTimes self other
    else
      let (a, b) ← coerce (term self) other
      return term (← if flip then arith .mul b a else arith .mul a b)
  | op =>
    let (a, b) ← coerce (term self) other
    if op == .mod && a.sort == .int && b.sort != .int then throw .intExpected
    return term (← if flip then arith op.fn b a else arith op.fn a b)

/-- Whether the class of term `b` refines the class of term `a`: a numeral
against a term of its kind that is not a numeral. -/
def refines (b a : Term) : Bool :=
  match b, a with
  | .word _ _, .word _ _ | .num _, .num _ => false
  | .word _ _, a => a.sort.isBv
  | .num _, a => a.sort == .int
  | _, _ => false

/-- Whether an operand has an operator, as left (or, with `flip`, right)
operand. -/
def hasMethod (a : Operand) (op : BinOp) : Bool :=
  match a with
  | term t => supports t.sort op
  | _ => false

/-- `a op b` under the operator protocol. -/
def binary (op : BinOp) (a b : Operand) : Except Fault Operand :=
  if !a.isTerm && !b.isTerm then host op a b
  else if op.isComparison then
    -- the right operand answers first when its class refines the left's
    match a, b with
    | term ta, term tb =>
      if refines tb ta && supports tb.sort op.swapped then
        method op.swapped tb (term ta) false
      else if supports ta.sort op then method op ta b false
      else if supports tb.sort op.swapped then method op.swapped tb a false
      else .error (.comparisonTypes op.symbol a.className b.className)
    | term ta, _ =>
      if supports ta.sort op then method op ta b false
      else .error (.comparisonTypes op.symbol a.className b.className)
    | _, term tb =>
      if op == .eq || op == .ne then method op tb a false
      else if supports tb.sort op.swapped then method op.swapped tb a false
      else .error (.comparisonTypes op.symbol a.className b.className)
    | _, _ => host op a b
  else
    match a, b with
    | term ta, _ =>
      if supports ta.sort op then method op ta b false
      else match b with
        | term tb => if supports tb.sort op then method op tb a true
          else .error (.operandTypes op.symbol a.className b.className)
        | _ => .error (.operandTypes op.symbol a.className b.className)
    | _, term tb =>
      if supports tb.sort op && (a.hostInt?.isSome || op == .mul) then method op tb a true
      else .error (.operandTypes op.symbol a.className b.className)
    | _, _ => host op a b

/-- A unary operator under the operator protocol; `not` is the solver's
negation of a condition. -/
def unary (op : UnOp) (a : Operand) : Except Fault Operand :=
  match op with
  | .not => do return term (.app .not [← a.asCondition])
  | .neg =>
    match a with
    | int n => .ok (int (-n))
    | bool b => .ok (int (if b then -1 else 0))
    | term t =>
      if t.sort = .bool then .error (.unaryOperandType "-" a.className)
      else .ok (term (.app .neg [t]))
    | none => .error (.unaryOperandType "-" a.className)
  | .bnot =>
    match a with
    | int n => .ok (int (IntBits.not n))
    | bool b => .ok (int (IntBits.not (if b then 1 else 0)))
    | term t =>
      if t.sort.isBv then .ok (term (.app .bnot [t]))
      else .error (.unaryOperandType "~" a.className)
    | none => .error (.unaryOperandType "~" a.className)

/-- One of the solver's named operations. The bit-vector ones need a
bit-vector operand; `implies` needs two conditions. -/
def call (c : Call) (a b : Operand) : Except Fault Operand := do
  match c with
  | .implies => return term (.app .implies [← a.asCondition, ← b.asCondition])
  | c =>
    let isWord : Operand → Bool := fun o => match o with
      | term t => t.sort.isBv
      | _ => false
    if !(isWord a || isWord b) then throw .wordExpected
    let (x, y) ← coerce a b
    let (f, pred) : Fn × Bool := match c with
      | .lshr => (.lshr, false) | .ult => (.ult, true) | .ule => (.ule, true)
      | .ugt => (.ugt, true) | .uge => (.uge, true) | .udiv => (.udiv, false)
      | .urem => (.urem, false) | .implies => (.implies, true)
    return term (← Term.mkWordOp f pred x y)

/-- A conjunction or disjunction of operands, at least one of them a term. -/
def connective (f : Fn) (xs : List Operand) : Except Fault Operand := do
  if !xs.any isTerm then throw .noTermArgument
  let ts ← coerceAll xs
  return term (← Term.mkConnective f ts)

/-- The conditional `if c then a else b`. -/
def cond (c a b : Operand) : Except Fault Operand := do
  let c ← c.asCondition
  let (x, y) ← coerce a b
  return term (← Term.mkIte c x y)

end Operand
end SmtSynth
