import SmtSynth.Cdcl.State
/-!
# Giving formulas clauses

Assertions become gates, and gates become boolean variables with the
clauses that define them. A gate gets its variable after its arguments, and
its defining clauses right after: for a disjunction first one binary clause
per argument, then the long clause; a conjunction likewise with the signs
turned; equivalence, choice, odd parity and majority by their full truth
tables. A negation never gets a variable of its own: it is the negated
literal of its argument.

Bit-vector terms become theory variables. The arguments of a term come
first, then its variable, then its bits: fresh variables for a constant, the
constant literals for a numeral, and otherwise the gates of its circuit,
given clauses one bit at a time. Associative operations combine their
arguments from the last one backwards. An equation between bit-vector
terms is an atom of the theory; a comparison is defined by the gate of its
circuit through two binary clauses.

A theory variable all of whose bits are assigned has a value; when another
variable already has that value, the two are equal, and the equation is
queued for the theory with the bits of both as its grounds.
-/

namespace SmtSynth
namespace Cdcl
namespace Smt

/-- A new theory variable for a term, without bits yet. -/
def newWordVar (t : Term) : SmtM Nat := modifyGet fun s =>
  let w := s.words
  let v := w.terms.size
  (v, { s with words := { w with
    varOf := w.varOf.insert t v
    terms := w.terms.push t
    bits := w.bits.push #[]
    parent := w.parent.push v
    size := w.size.push 1
    next := w.next.push v
    wpos := w.wpos.push 0
    root := w.root.push v
    members := w.members.push #[v] } })

/-- Adds the next bit of a theory variable; a bit that is not constant
records the occurrence and makes its variable one the theory hears about. -/
def addBit (t : Nat) (l : Lit) : SmtM Unit := do
  let idx := (← get).words.bits[t]!.size
  onWords fun w => { w with bits := w.bits.modify t (·.push l) }
  if l.var == 0 then return
  onWords fun w => { w with occs := w.occs.insert l.var (#[(t, idx)] ++ w.occs.getD l.var #[]) }
  onCore (·.markAtom l.var)

/-- The value of a theory variable, if all its bits are assigned. -/
def wordValue (s : Smt) (t : Nat) : Option Nat := Id.run do
  let bits := s.words.bits[t]!
  let mut v := 0
  for i in [0:bits.size] do
    match s.core.litValue bits[i]! with
    | .unset => return none
    | .tt => v := v + Nat.pow 2 i
    | .ff => pure ()
  return some v

/-- Records a change of the value table. -/
def setFixed (key : Nat × Nat) (t : Nat) : SmtM Unit :=
  onWords fun w => { w with trail := w.trail.push (.fixed key (w.fixed.get? key)), fixed := w.fixed.insert key t }

/-- A theory variable all of whose bits are assigned: if the value table
holds another variable with the same value in a different class of the
equality graph, their equation is queued; otherwise this variable goes into
the table. -/
def fixedWord (t : Nat) : SmtM Unit := do
  let s ← get
  let some val := wordValue s t | return
  let sz := s.words.bits[t]!.size
  let key := (val, sz)
  match s.words.fixed.get? key with
  | some t2 =>
    if t2 != t && wordValue s t2 == some val && s.words.bits[t2]!.size == sz then
      if s.words.root[t]! != s.words.root[t2]! then
        let ants := (s.words.bits[t]! ++ s.words.bits[t2]!).filterMap fun l =>
          if l.var == 0 then none else some (if s.core.isTrue l then l else l.neg)
        onWords fun w => { w with pendingEqs := w.pendingEqs.push (t, t2, ants) }
        setFixed key t2
    else setFixed key t
  | none => setFixed key t

/-- Moves the watched position of a theory variable to an unassigned bit,
searching onwards from the current one and wrapping around; when every bit
is assigned the variable has a value. -/
def findWpos (t : Nat) : SmtM Unit := do
  let s ← get
  let bits := s.words.bits[t]!
  let old := s.words.wpos[t]!
  let found := ((List.range (bits.size - old)).map (· + old) ++ List.range old).find?
    fun w => s.core.isUnset bits[w]!
  match found with
  | some w =>
    if w != old then
      onWords fun ws => { ws with trail := ws.trail.push (.wpos t old), wpos := ws.wpos.set! t w }
  | none =>
    if old != 0 then
      onWords fun ws => { ws with trail := ws.trail.push (.wpos t old), wpos := ws.wpos.set! t 0 }
    fixedWord t

/-- How deep gates and terms may nest. -/
def depthBound : Nat := 100000

/-- The gates of the bits of a theory variable. -/
def bitGates (t : Nat) : SmtM (Array Nat) := do
  (← get).words.bits[t]!.mapM gateOfLit

/-- The circuit of an operation on the bit gates of its arguments;
`none` for an operation without one. -/
def circuit (f : Fn) (args : Array (Array Nat)) : SmtM (Option (Array Nat)) := do
  let fold (op : Array Nat → Array Nat → GateM (Array Nat)) : SmtM (Option (Array Nat)) := do
    let mut acc := args.back!
    for k in [0:args.size - 1] do
      acc ← gate (op args[args.size - 2 - k]! acc)
    return some acc
  let zipped (op : Nat → Nat → GateM Nat) := fold fun a b =>
    (List.range a.size).toArray.mapM fun i => op a[i]! b[i]!
  match f with
  | .bnot => return some (← gate (args[0]!.mapM Gates.mkNot))
  | .bor => zipped fun x y => Gates.mkOr #[x, y]
  | .band => zipped fun x y => Gates.mkAnd #[x, y]
  | .bxor => zipped Gates.mkXor
  | .add => fold Gates.adder
  | .mul =>
    let mut acc := args.back!
    for k in [0:args.size - 1] do
      match ← gate (Gates.multiplier args[args.size - 2 - k]! acc) with
      | some r => acc := r
      | none => return none
    return some acc
  | .shl => return some (← gate (Gates.shifter .left args[0]! args[1]!))
  | .lshr => return some (← gate (Gates.shifter .logical args[0]! args[1]!))
  | .ashr => return some (← gate (Gates.shifter .arith args[0]! args[1]!))
  | .concat => return some (args.reverse.foldl (· ++ ·) #[])
  | .extract hi lo => return some (args[0]!.extract lo (hi + 1))
  | _ => return none

/-- What internalization works on: a gate, which gets a variable and its
defining clauses, or a bit-vector term, which gets a theory variable. -/
inductive Job where
  | gate (g : Nat)
  | term (t : Term)

/-- Internalizes a gate (answering `0`) or a term (answering its theory
variable), arguments first. -/
def intern : Nat → Job → SmtM Nat
  | 0, _ => do fail; return 0
  | fuel + 1, .gate g => do
    if g == Gates.T || g == Gates.F then return 0
    let s ← get
    let node := s.gates.node g
    if node.kind == .not then
      discard <| intern fuel (.gate node.args[0]!)
      return 0
    if s.varOfGate.contains g then return 0
    match node.kind, node.data with
    | .eq, .terms a b =>
      let ta ← intern fuel (.term a)
      let tb ← intern fuel (.term b)
      let v ← mkBoolVar g
      onWords fun w => { w with eqAtoms := w.eqAtoms.push (v, ta, tb), eqAtomOf := w.eqAtomOf.insert v (ta, tb) }
      onCore (·.markAtom v)
      return 0
    | .le, .cmp signed a b =>
      let ta ← intern fuel (.term a)
      let tb ← intern fuel (.term b)
      let ba ← bitGates ta
      let bb ← bitGates tb
      let le ← gate (Gates.mkLe ba bb signed)
      discard <| intern fuel (.gate le)
      let d ← litOfGate le
      let l := Lit.ofVar (← mkBoolVar g)
      clause #[l, d.neg]
      clause #[l.neg, d]
      return 0
    | .atom, _ | .bit, _ =>
      discard <| mkBoolVar g
      return 0
    | kind, _ =>
      for a in node.args do
        discard <| intern fuel (.gate a)
      if (← get).varOfGate.contains g then return 0
      let l := Lit.ofVar (← mkBoolVar g)
      let args ← node.args.mapM litOfGate
      match kind with
      | .or =>
        for a in args do
          clause #[l, a.neg]
        clause (#[l.neg] ++ args)
      | .and =>
        for a in args do
          clause #[l.neg, a]
        clause (#[l] ++ args.map Lit.neg)
      | .iff =>
        let (l1, l2) := (args[0]!, args[1]!)
        clause #[l.neg, l1, l2.neg]; clause #[l.neg, l1.neg, l2]
        clause #[l, l1, l2]; clause #[l, l1.neg, l2.neg]
      | .ite =>
        let (l1, l2, l3) := (args[0]!, args[1]!, args[2]!)
        clause #[l.neg, l1.neg, l2]; clause #[l.neg, l1, l3]
        clause #[l, l1.neg, l2.neg]; clause #[l, l1, l3.neg]
      | .carry =>
        let (l1, l2, l3) := (args[0]!, args[1]!, args[2]!)
        clause #[l.neg, l1, l2]; clause #[l.neg, l1, l3]; clause #[l.neg, l2, l3]
        clause #[l, l1.neg, l2.neg]; clause #[l, l1.neg, l3.neg]; clause #[l, l2.neg, l3.neg]
      | .xor3 =>
        let (l1, l2, l3) := (args[0]!, args[1]!, args[2]!)
        clause #[l.neg, l1, l2, l3]; clause #[l.neg, l1.neg, l2.neg, l3]
        clause #[l.neg, l1.neg, l2, l3.neg]; clause #[l.neg, l1, l2.neg, l3.neg]
        clause #[l, l1.neg, l2, l3]; clause #[l, l1, l2.neg, l3]
        clause #[l, l1, l2, l3.neg]; clause #[l, l1.neg, l2.neg, l3.neg]
      | _ => fail
      return 0
  | fuel + 1, .term t => do
    if let some v := (← get).words.varOf.get? t then return v
    match t with
    | .var _ (.bv w) =>
      let v ← newWordVar t
      for i in [0:w] do
        let g ← gate (Gates.make .bit #[] (.bit t i))
        let b ← mkBoolVar g
        onCore (·.markAtom b)
        addBit v (Lit.ofVar b)
      return v
    | .word w n =>
      let v ← newWordVar t
      for i in [0:w] do
        addBit v (if (n >>> i) % 2 == 1 then Lit.tt else Lit.ff)
      fixedWord v
      return v
    | .app f args =>
      if !t.sort.isBv then
        fail
        return 0
      let mut ids : Array Nat := #[]
      for a in args do
        ids := ids.push (← intern fuel (.term a))
      let v ← newWordVar t
      let argBits ← ids.mapM bitGates
      match ← circuit f argBits with
      | some out =>
        for g in out do
          discard <| intern fuel (.gate g)
          addBit v (← litOfGate g)
        findWpos v
      | none => fail
      return v
    | _ => do fail; return 0

/-- Gives a gate its variable and defining clauses. -/
def internalize (g : Nat) : SmtM Unit := discard <| intern depthBound (.gate g)

/-- The gate of a formula, built as it stands. -/
def formula : Nat → Term → SmtM Nat
  | 0, _ => do fail; return Gates.F
  | fuel + 1, t => do
    match t with
    | .lit true => return Gates.T
    | .lit false => return Gates.F
    | .var n .bool => gate (Gates.make .atom #[] (.name n))
    | .app .not [a] => do gate (Gates.make .not #[← formula fuel a])
    | .app .and args => do gate (Gates.make .and (← args.toArray.mapM (formula fuel)))
    | .app .or args => do gate (Gates.make .or (← args.toArray.mapM (formula fuel)))
    | .app .ite [c, a, b] => do
      gate (Gates.make .ite #[← formula fuel c, ← formula fuel a, ← formula fuel b])
    | .app .eq [a, b] =>
      if a.sort.isBv then gate (Gates.make .eq #[] (.terms a b))
      else if a.sort == .bool then do gate (Gates.make .iff #[← formula fuel a, ← formula fuel b])
      else do fail; return Gates.F
    | .app .ule [a, b] => gate (Gates.make .le #[] (.cmp false a b))
    | .app .le [a, b] =>
      if a.sort.isBv then gate (Gates.make .le #[] (.cmp true a b)) else do fail; return Gates.F
    | _ => do fail; return Gates.F

end Smt
end Cdcl
end SmtSynth
