import SmtSynth.Text.Sexp
/-!
# Faults

Every way an operation of this library can refuse its input, one
constructor per cause. `Fault.message` holds the wording of each, and
`Fault.kind` the class of error it reports as.

Messages that come from the solver's core are quoted as a byte string
(`b'...'`); `Fault.byteText` is that quoting.
-/

namespace SmtSynth

/-- The class of error a fault reports as. -/
inductive FaultKind where
  | solver
  | value
  | type
  | index
  | zeroDivision
  | recursion
  deriving DecidableEq, Repr

/-- Why an operation refused its input. -/
inductive Fault where
  /-- A bit-vector sort of width zero. -/
  | widthZero
  /-- A bit-vector sort of negative width. -/
  | widthOverflow
  /-- The argument at `pos` of an application of `f` does not have the sort
  that the declaration, fixed by the first argument, asks for. -/
  | argMismatch (arg : Term) (pos : Nat) (f : Fn) (domain : List TermSort) (range : TermSort)
  /-- Two terms that must share a sort (sides of an equation, branches of a
  conditional) do not. -/
  | sortsIncompatible (a b : TermSort)
  /-- Operands whose sorts cannot be brought together. -/
  | sortMismatch
  /-- A term that is not a truth value where one is needed. -/
  | notBoolean
  /-- A host value that is not a truth value where one is needed. -/
  | boolExpected (shown cls : String)
  /-- A bit-vector operation with no bit-vector operand. -/
  | wordExpected
  /-- An integer operation on terms of another sort. -/
  | intExpected
  /-- A substitution pair whose sides are not terms of one sort. -/
  | badSubstitution
  /-- A host value where a term is needed. -/
  | termExpected
  /-- An equation operator other than `+` and `-`. -/
  | unsupportedOperator
  /-- A binary operator the operands' types do not support. -/
  | operandTypes (op left right : String)
  /-- An order comparison the operands' types do not support. -/
  | comparisonTypes (op left right : String)
  /-- A unary operator the operand's type does not support. -/
  | unaryOperandType (op cls : String)
  /-- A position past the end of a list. -/
  | indexOutOfRange
  /-- A keyword argument that a function does not take. -/
  | unexpectedKeyword (fn kw : String)
  /-- A shift of a host integer by a negative amount. -/
  | negativeShift
  /-- A host division or remainder by zero. -/
  | zeroDivision
  /-- A model read at a term that is not a named constant. -/
  | constantExpected
  /-- A model read at a position past its last entry. -/
  | modelIndex
  /-- Recursion nested deeper than the host allows. -/
  | recursionDepth
  /-- A conjunction or disjunction none of whose arguments is a term. -/
  | noTermArgument
  /-- A model asked of a solver whose last check found none. -/
  | modelUnavailable
  deriving Repr

namespace Fault

/-- A byte string as the host language writes it: single quotes unless the
text holds a single quote and no double quote, printable ASCII as is, and
every other byte escaped. -/
def byteText (s : String) : String :=
  let bytes := s.toUTF8.toList
  let q : Char := if bytes.contains 39 && !bytes.contains 34 then '"' else '\''
  let hex (b : UInt8) : String := Sexp.digitsPadded 16 b.toNat 2
  let body := bytes.map fun b =>
    if b = 92 then "\\\\"
    else if b = 9 then "\\t"
    else if b = 10 then "\\n"
    else if b = 13 then "\\r"
    else if b.toNat = q.toNat then "\\" ++ q.toString
    else if b ≥ 32 && b < 127 then (Char.ofNat b.toNat).toString
    else "\\x" ++ hex b
  "b" ++ q.toString ++ String.join body ++ q.toString

/-- The declaration text of a symbol, as in
`(declare-fun bvadd ((_ BitVec 4) (_ BitVec 4)) (_ BitVec 4))`. -/
def declText (f : Fn) (domain : List TermSort) (range : TermSort) : String :=
  let name := match domain with
    | s :: _ => f.smtName s.isBv
    | [] => f.smtName false
  "(declare-fun " ++ name ++ " (" ++ String.intercalate " " (domain.map TermSort.smtName) ++ ") " ++
    range.smtName ++ ")"

/-- The wording of a fault. -/
def message : Fault → String
  | widthZero => byteText "bit-vector size must be greater than zero"
  | widthOverflow => byteText "Overflow encountered when expanding vector"
  | argMismatch arg pos f dom rng =>
    byteText ("Argument " ++ arg.toSexp ++ " at position " ++ toString pos ++
      " does not match declaration " ++ declText f dom rng)
  | sortsIncompatible a b => byteText ("Sorts " ++ a.smtName ++ " and " ++ b.smtName ++ " are incompatible")
  | sortMismatch => "sort mismatch"
  | notBoolean => "Value cannot be converted into a Z3 Boolean value"
  | boolExpected shown cls =>
    "True, False or Z3 Boolean expression expected. Received " ++ shown ++ " of type " ++ cls
  | wordExpected => "First or second argument must be a Z3 bit-vector expression"
  | intExpected => "Z3 integer expression expected"
  | badSubstitution => "Z3 invalid substitution, expression pairs expected."
  | termExpected => "Z3 expression expected"
  | unsupportedOperator => "Unsupported operator"
  | operandTypes op l r => "unsupported operand type(s) for " ++ op ++ ": '" ++ l ++ "' and '" ++ r ++ "'"
  | comparisonTypes op l r => "'" ++ op ++ "' not supported between instances of '" ++ l ++ "' and '" ++ r ++ "'"
  | unaryOperandType op cls => "bad operand type for unary " ++ op ++ ": '" ++ cls ++ "'"
  | indexOutOfRange => "list index out of range"
  | unexpectedKeyword fn kw => fn ++ "() got an unexpected keyword argument '" ++ kw ++ "'"
  | negativeShift => "negative shift count"
  | zeroDivision => "integer division or modulo by zero"
  | constantExpected => "Integer, Z3 declaration, or Z3 constant expected"
  | modelIndex => ""
  | recursionDepth => "maximum recursion depth exceeded"
  | noTermArgument => "At least one of the arguments must be a Z3 expression or probe"
  | modelUnavailable => "model is not available"

/-- The class of error a fault reports as. -/
def kind : Fault → FaultKind
  | unsupportedOperator | negativeShift => .value
  | operandTypes .. | comparisonTypes .. | unaryOperandType .. | unexpectedKeyword .. => .type
  | indexOutOfRange | modelIndex => .index
  | zeroDivision => .zeroDivision
  | recursionDepth => .recursion
  | _ => .solver

end Fault

end SmtSynth
