import SmtSynth.Rewrite.Core
/-!
# Sums and products

Rules for `+`, `-`, `*` and unary minus, shared by integers and bit-vectors
(where numerals wrap). A sum is kept flat: nested sums are spliced in, its
numerals are added into one leading numeral, and monomials `c * x` over the
same `x` are merged into the first of them; otherwise the summands keep
their order. A difference `a - b` becomes `a + (-1) * b`, and `-a` becomes
`(-1) * a`. A product multiplies its numerals into one leading coefficient,
distributes a coefficient over a single sum, and orders two or more other
factors by the term order.

`cancel` brings an equation between two sums to a canonical form: common
monomials cancel and the numerals meet on one side.
-/

namespace SmtSynth
namespace Rewrite

/-- The summands of nested sums spliced into one list, if there are any. -/
def spliceSums (args : List Term) : Option (List Term) :=
  if args.any (·.isApp .add) then some (args.flatMap (fun a => (a.argsOf? .add).getD [a])) else none

/-- The factors of nested products, left to right, all the way down. -/
def factors : Term → List Term
  | .app .mul args => args.attach.flatMap (fun ⟨a, _⟩ => factors a)
  | t => [t]

/-- Power products met more than once among `ts`. -/
def repeated (ts : List Term) : List Term :=
  (ts.foldl (fun (acc : List Term × List Term) t =>
    if acc.1.contains t then (acc.1, if acc.2.contains t then acc.2 else acc.2 ++ [t])
    else (acc.1 ++ [t], acc.2)) ([], [])).2

/-- The summed coefficient of power product `p` among monomials `ts`. -/
def coefficient (s : TermSort) (p : Term) (ts : List Term) : Int :=
  normalize s (((ts.filter (fun t => !isNum t && powerProduct t == p)).map (fun t => (monomial t).1)).foldl (· + ·) (0 : Int))

/-- The monomials of `ts` (numerals left out) with repeated power products
merged into their first occurrence; merged monomials with coefficient zero
disappear. -/
def mergeMonomials (s : TermSort) (multi : List Term) (ts : List Term) : List Term :=
  let rest := ts.filter (!isNum ·)
  (rest.foldl (fun (acc : List Term × List Term) t =>
    let p := powerProduct t
    if !multi.contains p then (acc.1 ++ [t], acc.2)
    else if acc.2.contains p then acc
    else
      let c := coefficient s p rest
      (if c = 0 then acc.1 else acc.1 ++ [scale s c p], acc.2 ++ [p])) ([], [])).1

/-- A flat sum: numerals added up in front, repeated monomials merged. -/
def addFlat (s : TermSort) (args : List Term) : Step :=
  let nums := args.filterMap value?
  let c := normalize s (nums.foldl (· + ·) (0 : Int))
  let lead := if c = 0 then [] else [numeral s c]
  let multi := repeated ((args.filter (!isNum ·)).map powerProduct)
  if !multi.isEmpty then .done (mkAdd s (lead ++ mergeMonomials s multi args))
  else if nums.isEmpty then .failed
  else if nums.length = 1 && (match args with | a :: _ => isNum a && !isZero a | [] => false) then .failed
  else .done (mkAdd s (lead ++ args.filter (!isNum ·)))

/-- Whether bit `i` of a bit-vector term is known to be zero: a numeral's
bit, or a bit of a concatenation that falls in a numeral part. -/
def zeroBit : Term → Nat → Bool
  | .word _ v, i => !bit v i
  | .app .concat parts, i => go parts.reverse i
  | _, _ => false
where
  go : List Term → Nat → Bool
    | [], _ => false
    | p :: ps, i =>
      let w := p.width
      if i < w then (match p with
        | .word _ v => !bit v i
        | _ => false)
      else go ps (i - w)

/-- A sum of two bit-vector terms, one a concatenation, whose nonzero bits
never meet is their disjunction. -/
def sumAsOr (x y : Term) : Option Term :=
  if (x.isApp .concat || y.isApp .concat) &&
      (List.range x.width).all (fun i => zeroBit x i || zeroBit y i) then
    some (.app .bor [x, y])
  else none

/-- The rule for a sum. -/
def add (s : TermSort) (args : List Term) : Step :=
  let st := match spliceSums args with
    | some flat => match addFlat s flat with
      | .failed => .done (mkAdd s flat)
      | st => st
    | none => addFlat s args
  if !s.isBv then st else
  match st, args with
  | .failed, [x, y] => match sumAsOr x y with
    | some t => .again 1 t
    | none => st
  | .done (.app .add [x, y]), _ => match sumAsOr x y with
    | some t => .again 1 t
    | none => st
  | _, _ => st

/-- Whether a term belongs to the same theory as the numerals of `s`. -/
def sameTheory (t : Term) : Bool :=
  match t with
  | .word _ _ | .num _ => true
  | .app f _ => !(f == .ite || f == .eq || f == .distinct || f == .not || f == .and ||
      f == .or || f == .implies)
  | _ => false

/-- A product without nested products to splice. -/
def mulFlat (s : TermSort) (args : List Term) : Step :=
  let cheap := match args with
    | [a, b] => match value? a with
      | some v => normalize s v != 0 && normalize s v != 1 && !sameTheory b
      | none => false
    | _ => false
  if cheap then .failed else
  let nums := args.filterMap value?
  let c := normalize s (nums.foldl (· * ·) 1)
  let others := args.filter (!isNum ·)
  if others.isEmpty then .done (numeral s c)
  else if c = 0 then .done (numeral s 0)
  else match others with
    | [v] =>
      if c = 1 then .done v
      else match v with
        | .app .mul [k, x] => match value? k with
          | some k => .again 1 (scale s (c * k) x)
          | none => .failed
        | .app .mul _ => .failed
        | .app .add ts => .again 2 (mkAdd s (ts.map (scale s c)))
        | _ => if args.length = 2 && (match args with | [_, b] => b == v | _ => false) then .failed
          else .done (scale s c v)
    | _ =>
      let ordered := (others.zip others.tail).all (fun (p, q) => !Term.lt q p)
      let sorted := if ordered then others else others.mergeSort (fun a b => !Term.lt b a)
      .done (scale s c (mkMul s sorted))

/-- The rule for a product. -/
def mul (s : TermSort) (args : List Term) : Step :=
  let flatForm := match args with
    | [a, b] => isNum a && !(match b with
      | .app .mul (k :: _) => isNum k
      | _ => false)
    | _ => false
  if !flatForm && args.any (·.isApp .mul) then
    let flat := args.flatMap factors
    match mulFlat s flat with
    | .failed => .done (mkMul s flat)
    | st => st
  else mulFlat s args

/-- The rule for a difference: `a - b - c` is `a + (-1)*b + (-1)*c`, zero
subtrahends dropped. -/
def sub (s : TermSort) (args : List Term) : Step :=
  match args with
  | [] => .failed
  | [a] => .done a
  | a :: bs =>
    .again 2 (mkAdd s (a :: (bs.filter (!isZero ·)).map (fun b => .app .mul [numeral s (-1), b])))

/-- The rule for unary minus. -/
def neg (s : TermSort) (a : Term) : Step :=
  match value? a with
  | some v => .done (numeral s (-v))
  | none => .again 1 (.app .mul [numeral s (-1), a])

/-- The summands of a term: its arguments when it is a sum. -/
def summands (t : Term) : List Term := (t.argsOf? .add).getD [t]

/-- An equation or inequation between two sums with common monomials
cancelled and the numerals brought to one side. With `move`, every monomial
goes to the left. -/
def cancel (s : TermSort) (lhs rhs : Term) (move : Bool) : Option (Term × Term) :=
  let ls := summands lhs
  let rs := summands rhs
  let lnums := ls.filterMap value?
  let rnums := rs.filterMap value?
  let numCoeffs := lnums.length + rnums.length
  let c0 := normalize s (lnums.foldl (· + ·) (0 : Int) - rnums.foldl (· + ·) (0 : Int))
  let lpp := (ls.filter (!isNum ·)).map powerProduct
  let rpp := (rs.filter (!isNum ·)).map powerProduct
  let multi := repeated (lpp ++ rpp)
  if move && lnums.isEmpty && isNum rhs then none
  else if multi.isEmpty && numCoeffs ≤ 1 &&
      (if move then isNum rhs else numCoeffs == 0 || isNum rhs) then none
  else
    let coef (p : Term) : Int :=
      normalize s (((ls.filter (fun t => !isNum t && powerProduct t == p)).map (fun t => (monomial t).1)).foldl (· + ·) (0 : Int) -
        ((rs.filter (fun t => !isNum t && powerProduct t == p)).map (fun t => (monomial t).1)).foldl (· + ·) (0 : Int))
    let newL : List Term := ((ls.filter (!isNum ·)).foldl (fun (acc : List Term × List Term) t =>
      let p := powerProduct t
      if !multi.contains p then (acc.1 ++ [t], acc.2)
      else if acc.2.contains p then acc
      else (if coef p = 0 then acc.1 else acc.1 ++ [scale s (coef p) p], acc.2 ++ [p])) ([], [])).1
    let (newL, newR) : List Term × List Term := (rs.filter (!isNum ·)).foldl (fun (acc : List Term × List Term) t =>
      let (a, p) := monomial t
      if multi.contains p then acc
      else if move then
        let a := normalize s a
        if a = 0 then acc
        else if normalize s (a + 1) = 0 then (acc.1 ++ [p], acc.2)
        else (acc.1 ++ [.app .mul [numeral s (-a), p]], acc.2)
      else (acc.1, acc.2 ++ [t])) (newL, [])
    let cAtRhs := move || newR.isEmpty || !newL.isEmpty
    let c := if cAtRhs then normalize s (-c0) else c0
    let insL := !cAtRhs && (newL.isEmpty || c != 0)
    let insR := cAtRhs && (newR.isEmpty || c != 0)
    some (mkAdd s ((if insL then [numeral s c] else []) ++ newL),
          mkAdd s ((if insR then [numeral s c] else []) ++ newR))

end Rewrite
end SmtSynth
