import Std.Data.HashMap
/-!
# Circuits as clauses

Boolean circuits built gate by gate into clauses. A literal is a nonzero
integer: variable `1` is the constant `true`, so `1` and `-1` are the two
constants. Each gate gets a fresh variable with the clauses that make it
equal to its function (both directions), gates with constant or equal inputs
collapse, and identical gates are shared.

On top of single gates sit the word circuits, on little-endian arrays of
literals: ripple-carry addition, shift-and-add multiplication, restoring
division, barrel shifters and comparisons.
-/

namespace SmtSynth

/-- A circuit under construction. -/
structure Circuit where
  next : Nat := 2
  clauses : Array (Array Int) := #[#[1]]
  gates : Std.HashMap (Nat × Int × Int) Int := {}

/-- Building a circuit. -/
abbrev CircuitM := StateM Circuit

namespace Circuit

/-- The constant literals. -/
def tt : Int := 1
/-- The constant literals. -/
def ff : Int := -1

/-- A fresh variable. -/
def fresh : CircuitM Int := modifyGet fun c => ((c.next : Int), { c with next := c.next + 1 })

/-- Adds a clause. -/
def clause (lits : Array Int) : CircuitM Unit :=
  modify fun c => { c with clauses := c.clauses.push lits }

/-- A shared gate: the output of gate `kind` on `a` and `b`, built by `make`
if it does not exist yet. -/
def shared (kind : Nat) (a b : Int) (make : Int → CircuitM Unit) : CircuitM Int := do
  match (← get).gates.get? (kind, a, b) with
  | some g => return g
  | none =>
    let g ← fresh
    make g
    modify fun c => { c with gates := c.gates.insert (kind, a, b) g }
    return g

/-- Conjunction. -/
def and2 (a b : Int) : CircuitM Int :=
  if a == ff || b == ff then pure ff
  else if a == tt then pure b
  else if b == tt then pure a
  else if a == b then pure a
  else if a == -b then pure ff
  else
    let (x, y) := if a < b then (a, b) else (b, a)
    shared 0 x y fun g => do
      clause #[-g, x]; clause #[-g, y]; clause #[g, -x, -y]

/-- Disjunction. -/
def or2 (a b : Int) : CircuitM Int := do return -(← and2 (-a) (-b))

/-- Exclusive or. -/
def xor2 (a b : Int) : CircuitM Int :=
  if a == ff then pure b
  else if a == tt then pure (-b)
  else if b == ff then pure a
  else if b == tt then pure (-a)
  else if a == b then pure ff
  else if a == -b then pure tt
  else
    let sign : Bool := (a < 0) != (b < 0)
    let x := min a.natAbs b.natAbs
    let y := max a.natAbs b.natAbs
    do
      let g ← shared 1 x y fun g => do
        clause #[-g, x, y]; clause #[-g, -x, -y]; clause #[g, -x, y]; clause #[g, x, -y]
      return if sign then -g else g

/-- Equivalence. -/
def iff2 (a b : Int) : CircuitM Int := do return -(← xor2 a b)

/-- Choice: `a` when `c` holds, else `b`. -/
def mux (c a b : Int) : CircuitM Int :=
  if c == tt then pure a
  else if c == ff then pure b
  else if a == b then pure a
  else if a == tt && b == ff then pure c
  else if a == ff && b == tt then pure (-c)
  else do
    match (← get).gates.get? (2, c, a) with
    | some g =>
      match (← get).gates.get? (3, g, b) with
      | some h => return h
      | none => build
    | none => build
where
  build : CircuitM Int := do
    let g ← fresh
    clause #[-c, -a, g]; clause #[-c, a, -g]; clause #[c, -b, g]; clause #[c, b, -g]
    clause #[-a, -b, g]; clause #[a, b, -g]
    let k ← fresh
    modify fun st => { st with gates := (st.gates.insert (2, c, a) k).insert (3, k, b) g }
    return g

/-- Conjunction of many. -/
def andN (ls : Array Int) : CircuitM Int := ls.foldlM and2 tt

/-- Disjunction of many. -/
def orN (ls : Array Int) : CircuitM Int := ls.foldlM or2 ff

/-- A word of constant bits, little-endian. -/
def const (w : Nat) (v : Int) : Array Int :=
  (Array.range w).map fun (i : Nat) => if (v >>> i) % 2 == 1 then tt else ff

/-- The sum of two words and a carry in; the carry out. -/
def adder (a b : Array Int) (cin : Int) : CircuitM (Array Int × Int) := do
  let mut out : Array Int := #[]
  let mut c := cin
  for i in [0:a.size] do
    let x := a[i]!
    let y := b[i]!
    let t ← xor2 x y
    out := out.push (← xor2 t c)
    c ← or2 (← and2 x y) (← and2 c t)
  return (out, c)

/-- The sum of two words. -/
def add (a b : Array Int) : CircuitM (Array Int) := do return (← adder a b ff).1

/-- The difference of two words. -/
def sub (a b : Array Int) : CircuitM (Array Int) := do return (← adder a (b.map (- ·)) tt).1

/-- The negation of a word. -/
def neg (a : Array Int) : CircuitM (Array Int) := do
  return (← adder (a.map (- ·)) (const a.size 0) tt).1

/-- The product of two words of one width, wrapping, by shift and add. -/
def mulRows (a b : Array Int) : CircuitM (Array Int) := do
  let w := a.size
  let mut acc := const w 0
  for i in [0:w] do
    let bi := b[i]!
    if bi == ff then continue
    let mut row : Array Int := #[]
    for j in [0:w] do
      if j < i then row := row.push ff
      else row := row.push (← and2 a[j - i]! bi)
    acc ← add acc row
  return acc

/-- Whether a word is a constant, and its value. -/
def constValue? (a : Array Int) : Option Nat :=
  a.foldr (fun l acc => acc.bind fun n =>
    if l == tt then some (2 * n + 1) else if l == ff then some (2 * n) else none) (some 0)

/-- The number of one bits of a natural number below `2 ^ w`. -/
def ones (w n : Nat) : Nat := ((List.range w).filter fun i => (n >>> i) % 2 == 1).length

/-- The product of two words of one width, wrapping. A constant factor with
more one bits than its negation is multiplied as the negation of the
product with that negation. -/
def mul (a b : Array Int) : CircuitM (Array Int) := do
  let w := a.size
  let (x, k?) := match constValue? a, constValue? b with
    | some ka, none => (b, some ka)
    | _, some kb => (a, some kb)
    | none, none => (a, none)
  match k? with
  | some k =>
    let negK := (Nat.pow 2 w - k) % Nat.pow 2 w
    if ones w negK < ones w k then neg (← mulRows x (const w negK))
    else mulRows x (const w k)
  | none => mulRows a b

/-- Whether two words are equal. -/
def eqw (a b : Array Int) : CircuitM Int := do
  let mut r := tt
  for i in [0:a.size] do
    r ← and2 r (← iff2 a[i]! b[i]!)
  return r

/-- Whether `a < b` as unsigned numbers. -/
def ult (a b : Array Int) : CircuitM Int := do
  let mut lt := ff
  for i in [0:a.size] do
    let x := a[i]!
    let y := b[i]!
    let here ← and2 (-x) y
    let same ← iff2 x y
    lt ← or2 here (← and2 same lt)
  return lt

/-- Whether `a < b` as signed numbers. -/
def slt (a b : Array Int) : CircuitM Int := do
  let n := a.size
  if n == 0 then return ff
  ult (a.set! (n - 1) (-a[n - 1]!)) (b.set! (n - 1) (-b[n - 1]!))

/-- Choice between words. -/
def muxw (c : Int) (a b : Array Int) : CircuitM (Array Int) := do
  let mut out : Array Int := #[]
  for i in [0:a.size] do
    out := out.push (← mux c a[i]! b[i]!)
  return out

/-- Unsigned quotient and remainder by restoring division; a zero divisor
gives a quotient of all ones and the dividend as remainder. -/
def udivrem (a b : Array Int) : CircuitM (Array Int × Array Int) := do
  let w := a.size
  let mut rem := const w 0
  let mut q := const w 0
  for step in [0:w] do
    let i := w - 1 - step
    -- shift the remainder left and bring in bit i of the dividend; keep the
    -- bit shifted out, since the true remainder may exceed w bits
    let top := rem[w - 1]!
    let shifted := #[a[i]!] ++ rem.extract 0 (w - 1)
    let lt ← ult shifted b
    let fits ← or2 top (-lt)
    let diff ← sub shifted b
    rem ← muxw fits diff shifted
    q := q.set! i fits
  return (q, rem)

/-- A barrel shifter: shifts `a` by the amount `b`, filling with `fill`;
`left` shifts towards the high bits. Amounts of the width or more give all
`fill`. -/
def shift (a b : Array Int) (left : Bool) (fill : Int) : CircuitM (Array Int) := do
  let w := a.size
  let mut cur := a
  let mut k := 0
  let mut big := ff
  for i in [0:b.size] do
    let amount := Nat.pow 2 i
    if amount ≥ w then
      big ← or2 big b[i]!
      continue
    let mut nxt : Array Int := #[]
    for j in [0:w] do
      let src : Int := if left then (if j ≥ amount then cur[j - amount]! else fill)
        else (if j + amount < w then cur[j + amount]! else fill)
      nxt := nxt.push (← mux b[i]! src cur[j]!)
    cur := nxt
    k := k + 1
  muxw big (Array.replicate w fill) cur

end Circuit
end SmtSynth
