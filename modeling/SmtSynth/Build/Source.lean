import SmtSynth.Build.Operand
/-!
# Formula sources

A formula as a request states it: a tree of operators over host integers,
truth values, numerals and declared constants. `Source.eval` builds it
bottom-up, operands left to right, so the first fault met is the one
reported.
-/

namespace SmtSynth

/-- A formula as stated, before it is built. -/
inductive Source where
  /-- A host integer, given a sort only when it meets a term. -/
  | int (n : Int)
  /-- A truth value term. -/
  | lit (b : Bool)
  /-- A declared constant, or any term given directly. -/
  | const (t : Term)
  /-- The `w`-bit numeral of `v`. -/
  | word (v w : Int)
  /-- The integer numeral `v`. -/
  | intval (v : Int)
  | binary (op : BinOp) (a b : Source)
  | call (c : Call) (a b : Source)
  | unary (op : UnOp) (a : Source)
  | conj (args : List Source)
  | disj (args : List Source)
  | cond (c a b : Source)
  deriving Repr, Inhabited

/-- The sort of bit-vectors of width `w`, refused unless `w` is positive. -/
def TermSort.ofWidth (w : Int) : Except Fault TermSort :=
  if w = 0 then .error .widthZero
  else if w < 0 then .error .widthOverflow
  else .ok (.bv w.toNat)

/-- A named bit-vector constant of width `w`. -/
def Term.bvConst (name : String) (w : Int) : Except Fault Term := do
  return .var name (← TermSort.ofWidth w)

/-- The `w`-bit numeral of `v`. -/
def Term.bvVal (v w : Int) : Except Fault Term := do
  let s ← TermSort.ofWidth w
  return Term.ofInt s.width v

namespace Source

/-- The operand a source builds. -/
def eval : Source → Except Fault Operand
  | int n => .ok (.int n)
  | lit b => .ok (.term (.lit b))
  | const t => .ok (.term t)
  | word v w => do return .term (← Term.bvVal v w)
  | intval v => .ok (.term (.num v))
  | binary op a b => do Operand.binary op (← a.eval) (← b.eval)
  | call c a b => do Operand.call c (← a.eval) (← b.eval)
  | unary op a => do Operand.unary op (← a.eval)
  | conj args => do Operand.connective .and (← args.attach.mapM (fun ⟨a, _⟩ => a.eval))
  | disj args => do Operand.connective .or (← args.attach.mapM (fun ⟨a, _⟩ => a.eval))
  | cond c a b => do Operand.cond (← c.eval) (← a.eval) (← b.eval)

end Source
end SmtSynth
