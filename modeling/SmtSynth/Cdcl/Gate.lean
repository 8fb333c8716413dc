import Std.Data.HashMap
import SmtSynth.Term.Basic
/-!
# Shared boolean gates

Formulas handed to the incremental search are kept as gates in a store where
equal gates are one gate: a gate is its kind, the numbers of its argument
gates and its data, and making a gate that exists already answers the
existing number. Gate `0` is true and gate `1` is false. Numbers grow in the
order gates are first made, and some rules below order arguments by that
number, so the store is threaded through every construction.

The constructors simplify as they build: negation cancels and pushes into
equivalences, conjunctions and disjunctions flatten one level and drop
duplicates and units, and the three-input gates `xor3` (odd parity) and
`carry` (majority) fold away constant, repeated and complementary inputs
after sorting their inputs by number.

On top of single gates sit the word circuits over little-endian arrays of
gates: the ripple-carry adder, negation, the shift-and-add multiplier, the
barrel shifters and the unsigned and signed comparisons.
-/

namespace SmtSynth
namespace Cdcl

/-- The kind of a gate. -/
inductive GateKind where
  | tt | ff
  /-- A boolean constant of the formulas. -/
  | atom
  /-- Bit `i` of a bit-vector constant. -/
  | bit
  | not | and | or | iff | ite | xor3 | carry
  /-- An equation between two bit-vector terms. -/
  | eq
  /-- An unsigned or signed comparison of two bit-vector terms. -/
  | le
  deriving BEq, DecidableEq, Hashable, Inhabited, Repr

/-- What a gate carries besides its arguments. -/
inductive GateData where
  | none
  | name (n : String)
  | bit (t : Term) (i : Nat)
  | terms (a b : Term)
  | cmp (signed : Bool) (a b : Term)
  deriving BEq, Hashable, Inhabited

/-- A gate. -/
structure Gate where
  kind : GateKind
  args : Array Nat
  data : GateData
  deriving Inhabited

/-- A store of shared gates. -/
structure Gates where
  nodes : Array Gate := #[⟨.tt, #[], .none⟩, ⟨.ff, #[], .none⟩]
  table : Std.HashMap (GateKind × Array Nat × GateData) Nat :=
    (({} : Std.HashMap (GateKind × Array Nat × GateData) Nat).insert (.tt, #[], .none) 0).insert
      (.ff, #[], .none) 1
  deriving Inhabited

/-- Building gates. -/
abbrev GateM := StateM Gates

namespace Gates

/-- Gate true. -/
def T : Nat := 0
/-- Gate false. -/
def F : Nat := 1

/-- The gate with a number. -/
def node (g : Gates) (n : Nat) : Gate := g.nodes[n]!

/-- The gate of a kind, arguments and data, made if it is new. -/
def make (kind : GateKind) (args : Array Nat) (data : GateData := .none) : GateM Nat :=
  modifyGet fun g =>
    match g.table.get? (kind, args, data) with
    | some n => (n, g)
    | none =>
      let n := g.nodes.size
      (n, { nodes := g.nodes.push ⟨kind, args, data⟩, table := g.table.insert (kind, args, data) n })

/-- The kind of a gate. -/
def kindOf (n : Nat) : GateM GateKind := do return ((← get).node n).kind

/-- The arguments of a gate. -/
def argsOf (n : Nat) : GateM (Array Nat) := do return ((← get).node n).args

/-- The argument of a negation, if the gate is one. -/
def negated? (n : Nat) : GateM (Option Nat) := do
  let g := (← get).node n
  return if g.kind == .not then g.args[0]? else none

/-- Whether two gates are each other's negation. -/
def complementary (a b : Nat) : GateM Bool := do
  if (a == T && b == F) || (a == F && b == T) then return true
  if (← negated? a) == some b then return true
  return (← negated? b) == some a

/-- Negation (`neg`, of `a`) or equivalence (of `a` and `b`). A negated
equivalence negates its first side; `fuel` bounds that nesting, and when it
runs out the gate is built as it stands. -/
def notIff : Nat → Bool → Nat → Nat → GateM Nat
  | fuel, true, x, _ => do
    if x == T then return F
    if x == F then return T
    let g := (← get).node x
    match g.kind, fuel with
    | .not, _ => return g.args[0]!
    | .iff, fuel + 1 => notIff fuel false (← notIff fuel true g.args[0]! 0) g.args[1]!
    | _, _ => make .not #[x]
  | fuel, false, l, r => do
    if l == r then return T
    if (l == T && r == F) || (l == F && r == T) then return F
    let (l, r) ← match (← negated? l), (← negated? r) with
      | some a, some b => pure (a, b)
      | _, _ => pure (l, r)
    if l == T then return r
    if l == F then return (← notIff fuel true r 0)
    if r == T then return l
    if r == F then return (← notIff fuel true l 0)
    if ← complementary l r then return F
    make .iff #[l, r]
termination_by fuel b _ _ => (fuel, if b then 0 else 1)

/-- How deep negation pushes into nested equivalences. -/
def pushDepth : Nat := 64

/-- Negation. -/
def mkNot (x : Nat) : GateM Nat := notIff pushDepth true x 0

/-- Equivalence. -/
def mkIff (l r : Nat) : GateM Nat := notIff pushDepth false l r

/-- Conjunction or disjunction of gates already flattened: units drop,
a zero absorbs, repeated gates drop and complementary ones absorb. -/
def flat (kind : GateKind) (args : Array Nat) : GateM Nat := do
  let (unit, absorb) := if kind == .and then (T, F) else (F, T)
  let mut buf : Array Nat := #[]
  let mut pos : Array Nat := #[]
  let mut negs : Array Nat := #[]
  for a in args do
    if a == unit then continue
    if a == absorb then return absorb
    match ← negated? a with
    | some at_ =>
      if negs.contains at_ then continue
      if pos.contains at_ then return absorb
      negs := negs.push at_
    | none =>
      if pos.contains a then continue
      if negs.contains a then return absorb
      pos := pos.push a
    buf := buf.push a
  if buf.isEmpty then return unit
  if buf.size == 1 then return buf[0]!
  make kind buf

/-- The arguments after flattening one level of the same kind. -/
def flatten (kind : GateKind) (args : Array Nat) : GateM (Array Nat) := do
  let mut out : Array Nat := #[]
  for a in args do
    let g := (← get).node a
    if g.kind == kind then out := out ++ g.args else out := out.push a
  return out

/-- Conjunction. -/
def mkAnd (args : Array Nat) : GateM Nat := do flat .and (← flatten .and args)

/-- Disjunction. -/
def mkOr (args : Array Nat) : GateM Nat := do flat .or (← flatten .or args)

/-- Exclusive or. -/
def mkXor (a b : Nat) : GateM Nat := do mkIff (← mkNot a) b

/-- Choice: `t` when `c` holds, else `e`. -/
def mkIte (c t e : Nat) : GateM Nat := do
  if c == T then return t
  if c == F then return e
  if t == e then return t
  let (c, t, e) ← match ← negated? c with
    | some c' => pure (c', e, t)
    | none => pure (c, t, e)
  if t == T && e == F then return c
  if t == F && e == T then return (← mkNot c)
  if t == T then return (← mkOr #[c, e])
  if e == F then return (← mkAnd #[c, t])
  if t == F then return (← mkAnd #[← mkNot c, e])
  if e == T then return (← mkOr #[← mkNot c, t])
  if c == t then return (← mkOr #[c, e])
  if c == e then return (← mkAnd #[c, t])
  make .ite #[c, t, e]

/-- Three gates in order of their numbers. -/
def sort3 (a b c : Nat) : Nat × Nat × Nat :=
  let (a, b) := if b < a then (b, a) else (a, b)
  let (b, c) := if c < b then (c, b) else (b, c)
  let (a, b) := if b < a then (b, a) else (a, b)
  (a, b, c)

/-- Majority of three. -/
def mkCarry (a b c : Nat) : GateM Nat := do
  let (l1, l2, l3) := sort3 a b c
  if (l1 == F && l2 == F) || (l1 == F && l3 == F) || (l2 == F && l3 == F) then return F
  if (l1 == T && l2 == T) || (l1 == T && l3 == T) || (l2 == T && l3 == T) then return T
  if l1 == l2 && l1 == l3 then return l1
  if l1 == F then return (← mkAnd #[l2, l3])
  if l2 == F then return (← mkAnd #[l1, l3])
  if l3 == F then return (← mkAnd #[l1, l2])
  if l1 == T then return (← mkOr #[l2, l3])
  if l2 == T then return (← mkOr #[l1, l3])
  if l3 == T then return (← mkOr #[l1, l2])
  if ← complementary l1 l2 then return l3
  if ← complementary l1 l3 then return l2
  if ← complementary l2 l3 then return l1
  make .carry #[l1, l2, l3]

/-- Odd parity of three. -/
def mkXor3 (a b c : Nat) : GateM Nat := do
  let (l1, l2, l3) := sort3 a b c
  if l1 == l2 then return l3
  if l1 == l3 then return l2
  if l2 == l3 then return l1
  if ← complementary l1 l2 then return (← mkNot l3)
  if ← complementary l1 l3 then return (← mkNot l2)
  if ← complementary l2 l3 then return (← mkNot l1)
  if l1 == T then return (← mkIff l2 l3)
  if l1 == F then return (← mkXor l2 l3)
  if l2 == T then return (← mkIff l1 l3)
  if l2 == F then return (← mkXor l1 l3)
  if l3 == T then return (← mkIff l1 l2)
  if l3 == F then return (← mkXor l1 l2)
  make .xor3 #[l1, l2, l3]

/-- The constant gates of a `w`-bit value, least significant first. -/
def constBits (v w : Nat) : Array Nat :=
  (Array.range w).map fun i => if (v >>> i) % 2 == 1 then T else F

/-- The value a word of gates spells, if all of them are constant. -/
def constValue? (bits : Array Nat) : Option Nat := Id.run do
  let mut v := 0
  for i in [0:bits.size] do
    if bits[i]! == T then v := v + Nat.pow 2 i
    else if bits[i]! != F then return none
  return some v

/-- Whether `a ≤ b` as unsigned (or two's complement) words. -/
def mkLe (a b : Array Nat) (signed : Bool) : GateM Nat := do
  let sz := a.size
  let mut out ← mkOr #[← mkNot a[0]!, b[0]!]
  for i in [1:(if signed then sz - 1 else sz)] do
    out ← mkCarry (← mkNot a[i]!) b[i]! out
  if signed then
    out ← mkCarry (← mkNot b[sz - 1]!) a[sz - 1]! out
  return out

/-- The sum of two words. -/
def adder (a b : Array Nat) : GateM (Array Nat) := do
  let mut cin := F
  let mut out : Array Nat := #[]
  for i in [0:a.size] do
    out := out.push (← mkXor3 a[i]! b[i]! cin)
    if i + 1 < a.size then cin ← mkCarry a[i]! b[i]! cin
  return out

/-- The two's complement negation of a word. -/
def negate (a : Array Nat) : GateM (Array Nat) := do
  let mut cin := T
  let mut out : Array Nat := #[]
  for i in [0:a.size] do
    let na ← mkNot a[i]!
    out := out.push (← mkXor na cin)
    if i + 1 < a.size then cin ← mkAnd #[na, cin]
  return out

/-- The product of two words, when at most the second one's value is
`-1`, or neither is constant; `none` for a constant factor otherwise. -/
def multiplier (a b : Array Nat) : GateM (Option (Array Nat)) := do
  let sz := a.size
  let (a, b) := if (constValue? a).isSome then (b, a) else (a, b)
  match constValue? a, constValue? b with
  | _, some vb =>
    if vb == Nat.pow 2 sz - 1 then return some (← negate a)
    match constValue? a with
    | some va => return some (constBits ((va * vb) % Nat.pow 2 sz) sz)
    | none => return none
  | _, none =>
    let mut out : Array Nat := #[← mkAnd #[a[0]!, b[0]!]]
    let mut cins : Array Nat := #[]
    for i in [1:sz] do
      let mut couts : Array Nat := #[]
      let i1 ← mkAnd #[a[0]!, b[i]!]
      let i2 ← mkAnd #[a[1]!, b[i - 1]!]
      let mut o ← mkXor i1 i2
      if i + 1 < sz then
        couts := couts.push (← mkAnd #[i1, i2])
        for j in [2:i + 1] do
          let prev := o
          let i3 ← mkAnd #[a[j]!, b[i - j]!]
          o ← mkXor3 i3 prev cins[j - 2]!
          couts := couts.push (← mkCarry i3 prev cins[j - 2]!)
        cins := couts
      else
        for j in [2:i + 1] do
          let i3 ← mkAnd #[a[j]!, b[i - j]!]
          o ← mkXor3 i3 o cins[j - 2]!
      out := out.push o
    return some out

/-- A shift of `a` by `b`: left, logical right or arithmetic right. -/
inductive Shift where
  | left | logical | arith
  deriving BEq, Inhabited

/-- The barrel shifter. A constant amount shifts directly; otherwise the
word passes one stage per bit of the amount below the width, and a final
stage fills the word when a higher bit of the amount is set. -/
def shifter (op : Shift) (a b : Array Nat) : GateM (Array Nat) := do
  let sz := a.size
  let fill := if op == .arith then a[sz - 1]! else F
  match constValue? b with
  | some k =>
    let n := min k sz
    match op with
    | .left => return Array.replicate n F ++ a.extract 0 (sz - n)
    | _ => return a.extract n sz ++ Array.replicate n fill
  | none =>
    let mut out := a
    let mut i := 0
    for _ in [0:sz] do
      let sh := Nat.pow 2 i
      if sh ≥ sz then break
      let mut next : Array Nat := #[]
      for j in [0:sz] do
        let aj := match op with
          | .left => if sh ≤ j then out[j - sh]! else F
          | _ => if j + sh < sz then out[j + sh]! else fill
        next := next.push (← mkIte b[i]! aj out[j]!)
      out := next
      i := i + 1
    let mut large := F
    for k in [i:sz] do
      large ← mkOr #[large, b[k]!]
    let mut res : Array Nat := #[]
    for o in out do
      res := res.push (← mkIte large fill o)
    return res

end Gates
end Cdcl
end SmtSynth
