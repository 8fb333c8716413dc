import Std.Data.HashMap
import SmtSynth.Term.Basic
import SmtSynth.Solve.Circuit
/-!
# Terms as circuits

Every term becomes a little-endian array of literals: one literal for a
truth value, `w` for a `w`-bit word. Integers are represented as words of a
fixed width in two's complement; each integer operation adds a guard
literal that holds exactly when its result fits in that width, so a model
that satisfies the guards is a model over the integers. A caller that finds
no model at one width and used an integer tries a wider one.

An integer constant may instead be boxed: it then has only a few bits of its
own, read as an offset from the least value of the box, and is sign-extended
to the integer width. The offset reading is two's complement with the top
bit negated, so deciding that bit false first tries the negative half first.

Constants get fresh literals the first time they are met, and
`Blast.inputs` keeps them in that order: the solver decides their bits in
this order, most significant bit first.
-/

namespace SmtSynth

open Circuit

/-- The state of blasting terms into one circuit. -/
structure Blast where
  circuit : Circuit := {}
  /-- Named constants met so far, with their literals. -/
  inputs : Array (String × TermSort × Array Int) := #[]
  /-- Literals already built for compound terms. -/
  built : Std.HashMap Term (Array Int) := {}
  /-- The width of integers. -/
  intWidth : Nat := 16
  /-- Literals that must hold for integer results to fit. -/
  guards : Array Int := #[]
  /-- Whether an integer term was met. -/
  usesInts : Bool := false
  /-- The bits of a boxed integer constant; `0` leaves integer constants
  unboxed. -/
  intBox : Nat := 0

/-- Blasting terms. -/
abbrev BlastM := StateM Blast

namespace Blast

/-- Runs a circuit step. -/
def lift {α : Type} (m : CircuitM α) : BlastM α :=
  modifyGet fun b => let (a, c) := m.run b.circuit; (a, { b with circuit := c })

/-- Adds a guard. -/
def guard (l : Int) : BlastM Unit :=
  modify fun b => { b with guards := b.guards.push l, usesInts := true }

/-- The literals of a named constant, fresh on first use. -/
def input (name : String) (s : TermSort) : BlastM (Array Int) := do
  let st ← get
  match st.inputs.find? (fun (n, s', _) => n == name && s' == s) with
  | some (_, _, bits) => return bits
  | none =>
    let boxed := s == .int && st.intBox > 0
    let w := match s with
      | .bool => 1
      | .int => if boxed then st.intBox else st.intWidth
      | .bv w => w
    let mut bits : Array Int := #[]
    for _ in [0:w] do
      bits := bits.push (← lift fresh)
    if boxed then
      let top := -(bits[w - 1]!)
      bits := bits.pop.push top ++ Array.replicate (st.intWidth - w) top
    modify fun b => { b with inputs := b.inputs.push (name, s, bits),
                             usesInts := b.usesInts || s == .int }
    return bits

/-- An integer numeral; it must fit in the integer width. -/
def intConst (n : Int) : BlastM (Array Int) := do
  let w := (← get).intWidth
  let half : Int := (Nat.pow 2 (w - 1) : Nat)
  if n < -half || n ≥ half then guard ff else guard tt
  return const w n

/-- The top bit of a word. -/
def top (a : Array Int) : Int := a[a.size - 1]!

/-- Integer sum, guarded against overflow. -/
def intAdd (a b : Array Int) : BlastM (Array Int) := do
  let s ← lift (add a b)
  let sameSign ← lift (iff2 (top a) (top b))
  let flipped ← lift (xor2 (top s) (top a))
  guard (-(← lift (and2 sameSign flipped)))
  return s

/-- Integer difference, guarded against overflow. -/
def intSub (a b : Array Int) : BlastM (Array Int) := do
  let s ← lift (sub a b)
  let differ ← lift (xor2 (top a) (top b))
  let flipped ← lift (xor2 (top s) (top a))
  guard (-(← lift (and2 differ flipped)))
  return s

/-- Sign extension to a width. -/
def signExtend (a : Array Int) (w : Nat) : Array Int :=
  a ++ Array.replicate (w - a.size) (top a)

/-- Integer product, guarded: the double-width product must be the sign
extension of its low half. -/
def intMul (a b : Array Int) : BlastM (Array Int) := do
  let w := a.size
  let p ← lift (mul (signExtend a (2 * w)) (signExtend b (2 * w)))
  let mut ok := tt
  for i in [w:2 * w] do
    ok ← lift (and2 ok (← lift (iff2 p[i]! p[w - 1]!)))
  guard ok
  return p.extract 0 w

/-- Integer negation, guarded against the least value. -/
def intNeg (a : Array Int) : BlastM (Array Int) := do
  let r ← lift (neg a)
  let rest ← lift (orN (a.extract 0 (a.size - 1)))
  guard (← lift (or2 (-(top a)) rest))
  return r

/-- Magnitude of a signed word. -/
def magnitude (a : Array Int) : CircuitM (Array Int) := do muxw (top a) (← neg a) a

/-- Signed quotient rounding toward zero. -/
def sdiv (a b : Array Int) : CircuitM (Array Int) := do
  let (q, _) ← udivrem (← magnitude a) (← magnitude b)
  let s ← xor2 (top a) (top b)
  muxw s (← neg q) q

/-- Signed remainder taking the divisor's sign. -/
def smod (a b : Array Int) : CircuitM (Array Int) := do
  let (_, u) ← udivrem (← magnitude a) (← magnitude b)
  let zero ← eqw u (const u.size 0)
  let negU ← neg u
  let sa := top a
  let sb := top b
  let both ← neg u
  let r3 ← muxw (← and2 (-sa) sb) (← add u b) both
  let r2 ← muxw (← and2 sa (-sb)) (← add negU b) r3
  let r1 ← muxw (← and2 (-sa) (-sb)) u r2
  muxw zero u r1

/-- Integer quotient and remainder with a remainder in `[0, |b|)`, by fresh
literals tied to the dividend when the divisor is not zero. -/
def intDivMod (a b : Array Int) : BlastM (Array Int × Array Int) := do
  let w := a.size
  let mut q : Array Int := #[]
  let mut r : Array Int := #[]
  for _ in [0:w] do
    q := q.push (← lift fresh)
    r := r.push (← lift fresh)
  let bq ← intMul b q
  let back ← intAdd bq r
  let isZero ← lift (eqw b (const w 0))
  let same ← lift (eqw back a)
  let rNonNeg := -(top r)
  let rBelow ← lift (ult r (← lift (magnitude b)))
  let ok ← lift (andN #[same, rNonNeg, rBelow])
  guard (← lift (or2 isZero ok))
  return (q, r)

/-- Whether all the words are pairwise different. -/
def distinctWords (xs : List (Array Int)) : CircuitM Int := do
  let mut r := tt
  let arr := xs.toArray
  for i in [0:arr.size] do
    for j in [i + 1:arr.size] do
      r ← and2 r (-(← eqw arr[i]! arr[j]!))
  return r

/-- Folds a binary word operation over the arguments from the left. -/
def foldWords (op : Array Int → Array Int → BlastM (Array Int)) :
    List (Array Int) → BlastM (Array Int)
  | [] => pure #[]
  | x :: xs => xs.foldlM op x

/-- The literals of an operation applied to the literals of its arguments;
`s` is the sort of the first argument. -/
def gate (f : Fn) (s : TermSort) (xs : List (Array Int)) : BlastM (Array Int) := do
  let x := xs.headD #[]
  let y := (xs.drop 1).headD #[]
  let z := (xs.drop 2).headD #[]
  let bit (m : CircuitM Int) : BlastM (Array Int) := do return #[← lift m]
  let word (m : CircuitM (Array Int)) : BlastM (Array Int) := lift m
  let isInt := s == .int
  match f with
  | .not => return #[-(x[0]!)]
  | .and => bit (andN (xs.toArray.map (·[0]!)))
  | .or => bit (orN (xs.toArray.map (·[0]!)))
  | .implies => bit (or2 (-(x[0]!)) y[0]!)
  | .ite => word (muxw x[0]! y z)
  | .eq => bit (eqw x y)
  | .distinct => bit (distinctWords xs)
  | .add => foldWords (fun a b => if isInt then intAdd a b else lift (add a b)) xs
  | .sub => foldWords (fun a b => if isInt then intSub a b else lift (Circuit.sub a b)) xs
  | .mul => foldWords (fun a b => if isInt then intMul a b else lift (mul a b)) xs
  | .neg => if isInt then intNeg x else word (neg x)
  | .div | .sdivI => if isInt then return (← intDivMod x y).1 else word (sdiv x y)
  | .mod | .smodI => if isInt then return (← intDivMod x y).2 else word (smod x y)
  | .udiv | .udivI => word (return (← udivrem x y).1)
  | .urem | .uremI => word (return (← udivrem x y).2)
  | .band => foldWords (fun a b => lift (a.zipWithM and2 b)) xs
  | .bor => foldWords (fun a b => lift (a.zipWithM or2 b)) xs
  | .bxor => foldWords (fun a b => lift (a.zipWithM xor2 b)) xs
  | .bnot => return x.map (- ·)
  | .shl => word (shift x y true ff)
  | .lshr => word (shift x y false ff)
  | .ashr => word (shift x y false (top x))
  | .lt => bit (slt x y)
  | .le => bit (return -(← slt y x))
  | .gt => bit (slt y x)
  | .ge => bit (return -(← slt x y))
  | .ult => bit (ult x y)
  | .ule => bit (return -(← ult y x))
  | .ugt => bit (ult y x)
  | .uge => bit (return -(← ult x y))
  | .concat => return xs.reverse.foldl (· ++ ·) #[]
  | .extract hi lo => return x.extract lo (hi + 1)

/-- The literals of a term. -/
def term : Term → BlastM (Array Int)
  | .lit b => return #[if b then tt else ff]
  | .num n => intConst n
  | .word w v => return const w v
  | .var n s => input n s
  | .app f args => do
    match (← get).built.get? (.app f args) with
    | some bits => return bits
    | none =>
      let xs ← args.attach.mapM (fun ⟨a, _⟩ => term a)
      let s := match f, args with
        | .ite, _ :: a :: _ => a.sort
        | _, a :: _ => a.sort
        | _, [] => .bool
      let bits ← gate f s xs
      modify fun b => { b with built := b.built.insert (.app f args) bits }
      return bits

end Blast
end SmtSynth
