import SmtSynth.Rewrite.Poly
/-!
# Bit-vector rules

Rules for the bitwise operations, shifts, divisions, concatenation and
extraction of bit-vectors.

* `~~x` is `x`; complements of numerals are computed; a complement of a
  concatenation is the concatenation of complements.
* `x & y` is `~(~x | ~y)`.
* A disjunction is flattened, its numerals or-ed together, repeated operands
  dropped; `x | ~x` is all ones. A disjunction of one term with a numeral
  mask becomes a concatenation of numeral runs and extractions; two
  concatenations whose nonzero bits never meet become one concatenation.
* An exclusive or works the same way; one term with a numeral mask becomes a
  concatenation of extractions of the term (where the mask is zero) and of
  its complement (where it is one).
* A shift by a numeral becomes a concatenation with zeros (a left or logical
  right shift), or zero when the amount is at least the width. An arithmetic
  right shift by a numeral is only computed on numerals.
* A division by a nonzero numeral becomes the division that assumes a
  nonzero divisor (`bvudiv_i`), or a shift or extraction for powers of two.
* Extractions of numerals, extractions, concatenations, complements, sums
  and products are pushed inward.
-/

namespace SmtSynth
namespace Rewrite

/-- The all-ones value of width `w`. -/
def allOnes (w : Nat) : Nat := Nat.pow 2 w - 1

/-- The `w`-bit numeral of a natural number. -/
def wordOf (w v : Nat) : Term := Term.ofInt w v

/-- The rule for an extraction of bits `hi` down to `lo`. -/
def extract (hi lo : Nat) (a : Term) : Step :=
  let sz := a.width
  if lo = 0 && hi + 1 = sz then .done a else
  match a with
  | .word _ v => .done (wordOf (hi + 1 - lo) (v / Nat.pow 2 lo))
  | .app (.extract _ lo2) [x] => .done (mkExtract (hi + lo2) (lo + lo2) x)
  | .app .concat parts => concatPart parts sz
  | .app .bnot [x] => .again 2 (.app .bnot [mkExtract hi lo x])
  | .app .bor xs => .again 2 (.app .bor (xs.map (mkExtract hi lo)))
  | .app .bxor xs => .again 2 (.app .bxor (xs.map (mkExtract hi lo)))
  | .app .add xs => if lo = 0 then .again 2 (.app .add (xs.map (mkExtract hi lo))) else .failed
  | .app .mul xs => if lo = 0 then .again 2 (.app .mul (xs.map (mkExtract hi lo))) else .failed
  | .app .ite [c, x, y] => .again 2 (.app .ite [c, mkExtract hi lo x, mkExtract hi lo y])
  | _ => .failed
where
  /-- The extraction from a concatenation, whose bits start at `top`. -/
  concatPart (parts : List Term) (top : Nat) : Step :=
    match parts with
    | [] => .failed
    | p :: ps =>
      let w := p.width
      let idx := top - w
      if idx > hi then concatPart ps idx
      else if idx ≤ lo then
        if lo = idx && hi - idx + 1 = w then .done p
        else .again 1 (mkExtract (hi - idx) (lo - idx) p)
      else
        let first := if hi - idx + 1 = w then p else mkExtract (hi - idx) 0 p
        let (rest, usedExtract) := collect ps idx
        let used := usedExtract || hi - idx + 1 != w
        let t := mkConcat (first :: rest)
        if used then .again 2 t else .done t
  /-- The parts after the first, down to bit `lo`. -/
  collect : List Term → Nat → List Term × Bool
    | [], _ => ([], false)
    | p :: ps, idx =>
      let w := p.width
      let idx := idx - w
      if idx > lo then let (r, u) := collect ps idx; (p :: r, u)
      else if idx = lo then ([p], false)
      else ([mkExtract (w - 1) (lo - idx) p], true)

/-- The rule for a concatenation: adjacent numerals fuse, nested
concatenations are spliced, and adjacent extractions of neighbouring bits of
one term fuse. -/
def concat (args : List Term) : Step :=
  let (out, fusedNum, expanded, fusedExt) := args.foldl (fun (acc : List Term × Bool × Bool × Bool) a =>
    let (out, fn, ex, fe) := acc
    match a, out.getLast? with
    | .word w1 v1, some (.word w2 v2) => (out.dropLast ++ [wordOf (w1 + w2) (v2 * Nat.pow 2 w1 + v1)], true, ex, fe)
    | .app .concat ps, _ => (out ++ ps, fn, true, fe)
    | .app (.extract h1 l1) [x], some (.app (.extract h2 l2) [y]) =>
      if x == y && l2 = h1 + 1 then (out.dropLast ++ [mkExtract h2 l1 x], fn, ex, true)
      else (out ++ [a], fn, ex, fe)
    | _, _ => (out ++ [a], fn, ex, fe)) ([], false, false, false)
  if !fusedNum && !expanded && !fusedExt then .failed
  else match out with
    | [t] => if fusedExt then .again 1 t else .done t
    | _ => let t := mkConcat out
      if fusedExt then .again 2 t else if expanded then .again 1 t else .done t

/-- The rule for a bitwise complement. -/
def bnot (a : Term) : Step :=
  match a with
  | .app .bnot [x] => .done x
  | .word w v => .done (wordOf w (allOnes w - v))
  | .app .concat ps => .again 2 (mkConcat (ps.map (fun p => .app .bnot [p])))
  | _ => .failed

/-- The numeral runs and term extractions of a mask: where `v` has ones the
run is `ones` of the run, where it has zeros it is `zeros` of the run. -/
def maskParts (v sz : Nat) (ones zeros : Nat → Nat → Term) : List Term :=
  ((runs v sz).map (fun (b, lo, hi) => if b then ones hi lo else zeros hi lo)).reverse

/-- Disjunction of two concatenations whose nonzero bits never meet. -/
def mergeConcats (c1 c2 : Term) (sz : Nat) : Option Term :=
  if !(List.range sz).all (fun i => zeroBit c1 i || zeroBit c2 i) then none else
  let rec go (j : Nat) (acc : List Term) (fuel : Nat) : List Term :=
    match fuel with
    | 0 => acc
    | fuel + 1 =>
      if j = 0 then acc else
      let high := j
      let j1 := skip c1 j
      let acc := if j1 != high then acc ++ [mkExtract (high - 1) j1 c2] else acc
      let j2 := skip c2 j1
      let acc := if j2 != j1 then acc ++ [mkExtract (j1 - 1) j2 c1] else acc
      go j2 acc fuel
  some (mkConcat (go sz [] (sz + 1)))
where
  /-- The position below the run of known zero bits of `c` under `j`. -/
  skip (c : Term) (j : Nat) : Nat :=
    let rec down (j : Nat) (fuel : Nat) : Nat :=
      match fuel with
      | 0 => j
      | fuel + 1 => if j > 0 && zeroBit c (j - 1) then down (j - 1) fuel else j
    down j (j + 1)

/-- The rule for a bitwise disjunction. -/
def bor (sz : Nat) (args : List Term) : Step :=
  let flat := args.flatMap (fun a => (a.argsOf? .bor).getD [a])
  let flattened := flat.length != args.length || args.any (·.isApp .bor)
  let full := allOnes sz
  let rec scan (xs : List Term) (v : Nat) (nums : Nat) (pos neg : List Term) (out : List Term)
      (merged : Bool) : Option (Nat × Nat × List Term × Bool) :=
    match xs with
    | [] => some (v, nums, out, merged)
    | x :: rest =>
      match x with
      | .word _ u => scan rest (v ||| u) (nums + 1) pos neg out merged
      | .app .bnot [atom] =>
        if pos.contains atom then none
        else if neg.contains atom then scan rest v nums pos neg out true
        else scan rest v nums pos (neg ++ [atom]) (out ++ [x]) merged
      | _ =>
        if pos.contains x then scan rest v nums pos neg out true
        else if neg.contains x then none
        else scan rest v nums (pos ++ [x]) neg (out ++ [x]) merged
  match scan flat 0 0 [] [] [] false with
  | none => .done (wordOf sz full)
  | some (v, nums, out, merged) =>
    if v = full then .done (wordOf sz v)
    else match out, nums with
      | [c1, c2], 0 =>
        if c1.isApp .concat && c2.isApp .concat then
          match mergeConcats c1 c2 sz with
          | some t => .again 2 t
          | none => rest v nums out merged flattened
        else rest v nums out merged flattened
      | _, _ => rest v nums out merged flattened
where
  rest (v nums : Nat) (out : List Term) (merged flattened : Bool) : Step :=
    match out with
    | [t] =>
      if v != 0 then
        .again 2 (mkConcat (maskParts v sz (fun hi lo => wordOf (hi + 1 - lo) (allOnes (hi + 1 - lo)))
          (fun hi lo => mkExtract hi lo t)))
      else finish v nums out merged flattened
    | _ => finish v nums out merged flattened
  finish (v nums : Nat) (out : List Term) (merged flattened : Bool) : Step :=
    if !flattened && !merged && (nums = 0 || (nums = 1 && v != 0 && v != allOnes sz)) then .failed
    else
      let out := if v != 0 then out ++ [wordOf sz v] else out
      match out with
      | [] => .done (wordOf sz 0)
      | [t] => .done t
      | ts => .done (.app .bor ts)

/-- The rule for a bitwise exclusive or. -/
def bxor (sz : Nat) (args : List Term) : Step :=
  let flat := args.flatMap (fun a => (a.argsOf? .bxor).getD [a])
  let flattened := args.any (·.isApp .bxor)
  let full := allOnes sz
  -- marks: the atoms standing alone, plain or negated; a plain atom meeting its
  -- negation leaves all ones in the numeral part
  let (v, nums, pos, neg, merged) := flat.foldl
    (fun (acc : Nat × Nat × List Term × List Term × Bool) x =>
      let (v, nums, pos, neg, merged) := acc
      match x with
      | .word _ u => (v ^^^ u, nums + 1, pos, neg, merged)
      | .app .bnot [atom] =>
        if neg.contains atom then (v, nums, pos, neg.erase atom, true)
        else if pos.contains atom then (v ^^^ full, nums, pos.erase atom, neg, true)
        else (v, nums, pos, neg ++ [atom], merged)
      | _ =>
        if pos.contains x then (v, nums, pos.erase x, neg, true)
        else if neg.contains x then (v ^^^ full, nums, pos, neg.erase x, true)
        else (v, nums, pos ++ [x], neg, merged)) (0, 0, [], [], false)
  if v != 0 && nums + 1 = flat.length then
    let t := (flat.find? (!isNum ·)).getD (wordOf sz 0)
    let parts := maskParts v sz (fun hi lo => mkExtract hi lo (.app .bnot [t])) (fun hi lo => mkExtract hi lo t)
    .again 3 (mkConcat parts)
  else if !merged && !flattened && (nums = 0 || (nums = 1 && v != 0 && v != full)) then .failed
  else
    let (kept, _, _) := flat.foldl (fun (acc : List Term × List Term × List Term) x =>
      let (out, pos, neg) := acc
      match x with
      | .word _ _ => acc
      | .app .bnot [atom] =>
        if neg.contains atom then (out ++ [x], pos, neg.erase atom) else acc
      | _ => if pos.contains x then (out ++ [x], pos.erase x, neg) else acc) ([], pos, neg)
    let out := (if v != 0 then [wordOf sz v] else []) ++ kept
    match out with
    | [] => .done (wordOf sz 0)
    | [t] => .done t
    | [a, b] => if a == wordOf sz full then .done (.app .bnot [b]) else .done (.app .bxor out)
    | _ => .done (.app .bxor out)

/-- The rule for a bitwise conjunction: `~(~a | ~b | ...)`. -/
def band (args : List Term) : Step :=
  .again 3 (.app .bnot [.app .bor (args.map (fun a => .app .bnot [a]))])

/-- The rule for a left shift. -/
def shl (sz : Nat) (a b : Term) : Step :=
  match b.word? with
  | some 0 => .done a
  | some k =>
    if k ≥ sz then .done (wordOf sz 0)
    else match a.word? with
      | some v => .done (wordOf sz (v * Nat.pow 2 k))
      | none => .again 2 (mkConcat [mkExtract (sz - k - 1) 0 a, wordOf k 0])
  | none => match a with
    | .app .shl [x, y] =>
      let sum := Term.app .add [y, b]
      .again 3 (.app .ite [.app .ule [y, sum], .app .shl [x, sum], wordOf sz 0])
    | _ => .failed

/-- The rule for a logical right shift. -/
def lshr (sz : Nat) (a b : Term) : Step :=
  match b.word? with
  | some 0 => .done a
  | some k =>
    if k ≥ sz then .done (wordOf sz 0)
    else match a.word? with
      | some v => .done (wordOf sz (v / Nat.pow 2 k))
      | none => .again 2 (mkConcat [wordOf k 0, mkExtract (sz - 1) k a])
  | none =>
    if a.word? == some 0 then .done a
    else match a with
      | .app .lshr [x, y] =>
        let sum := Term.app .add [y, b]
        .again 3 (.app .ite [.app .ule [y, sum], .app .lshr [x, sum], wordOf sz 0])
      | _ => .failed

/-- The value of an arithmetic right shift of a `sz`-bit numeral. -/
def ashrValue (sz v k : Nat) : Nat :=
  let neg := bit v (sz - 1)
  if k ≥ sz then (if neg then allOnes sz else 0)
  else
    let r := v / Nat.pow 2 k
    if neg then r ||| (allOnes sz - (Nat.pow 2 (sz - k) - 1)) else r

/-- The rule for an arithmetic right shift. -/
def ashr (sz : Nat) (a b : Term) : Step :=
  match b.word? with
  | some 0 => .done a
  | some k =>
    match a.word? with
    | some v => .done (wordOf sz (ashrValue sz v k))
    | none => match a with
      | .app .ashr [x, .word _ k1] => .again 1 (.app .ashr [x, wordOf sz (min (k1 + k) sz)])
      | _ => .failed
  | none => .failed

/-- The rule for an unsigned quotient. -/
def udiv (sz : Nat) (a b : Term) : Step :=
  match b.word? with
  | some 0 => .done (wordOf sz (allOnes sz))
  | some 1 => .done a
  | some d =>
    match a.word? with
    | some v => .done (wordOf sz (v / d))
    | none =>
      if d &&& (d - 1) = 0 then .again 1 (.app .lshr [a, wordOf sz (Nat.log2 d)])
      else .done (.app .udivI [a, b])
  | none => .done (.app .udivI [a, b])

/-- The rule for an unsigned remainder. -/
def urem (sz : Nat) (a b : Term) : Step :=
  match b.word? with
  | some 0 => .done a
  | some 1 => .done (wordOf sz 0)
  | some d =>
    match a.word? with
    | some v => .done (wordOf sz (v % d))
    | none =>
      if d &&& (d - 1) = 0 then
        let k := Nat.log2 d
        .again 2 (mkConcat [wordOf (sz - k) 0, mkExtract (k - 1) 0 a])
      else .done (.app .uremI [a, b])
  | none => .done (.app .uremI [a, b])

/-- The signed value of a `sz`-bit residue. -/
def signed (sz v : Nat) : Int := Word.toSigned sz v

/-- The rule for a signed quotient. -/
def sdiv (sz : Nat) (a b : Term) : Step :=
  match b.word? with
  | some 0 =>
    .again 2 (.app .ite [.app .lt [a, wordOf sz 0], wordOf sz 1, wordOf sz (allOnes sz)])
  | some d =>
    if signed sz d = 1 then .done a
    else match a.word? with
      | some v => .done (Term.ofInt sz ((signed sz v).tdiv (signed sz d)))
      | none => .done (.app .sdivI [a, b])
  | none => .done (.app .sdivI [a, b])

/-- The signed remainder with the sign of the divisor. -/
def smodValue (sz v d : Nat) : Int :=
  let a := signed sz v
  let b := signed sz d
  let u := (a.natAbs % b.natAbs : Nat)
  if u = 0 then 0
  else if a ≥ 0 && b > 0 then u
  else if a < 0 && b > 0 then b - u
  else if a ≥ 0 && b < 0 then u + b
  else -(u : Int)

/-- The rule for a signed remainder with the sign of the divisor. -/
def smod (sz : Nat) (a b : Term) : Step :=
  if a.word? == some 0 then .done a else
  match b.word? with
  | some 0 => .done a
  | some d =>
    match a.word? with
    | some v => .done (Term.ofInt sz (smodValue sz v d))
    | none => if signed sz d = 1 then .again 2 (wordOf sz 0) else .done (.app .smodI [a, b])
  | none => .done (.app .smodI [a, b])

end Rewrite
end SmtSynth
