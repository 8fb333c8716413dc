import SmtSynth.Term.Basic
/-!
# A total order on terms

Terms are ordered first by their number of arguments, then by depth, then by
the head symbol (its name, then its indices: a numeral's value and width),
and last by their arguments from left to right. Products whose factors are
out of this order are reordered by it.
-/

namespace SmtSynth
namespace Term

/-- The name a term's head is known by in the order. -/
def headName : Term → String
  | lit b => if b then "true" else "false"
  | num _ => "Int"
  | word _ _ => "bv"
  | var n _ => n
  | app f args => f.smtName (match args with | a :: _ => a.sort.isBv | [] => false)

/-- The indices of a term's head, compared after the name. -/
def headIndices : Term → List Int
  | num n => [n]
  | word w v => [v, w]
  | app (.extract hi lo) _ => [hi, lo]
  | _ => []

/-- The arguments of a term (none for a leaf). -/
def args : Term → List Term
  | app _ as => as
  | _ => []

/-- Lexicographic comparison of integer lists. -/
def cmpInts : List Int → List Int → Ordering
  | [], [] => .eq
  | [], _ => .lt
  | _, [] => .gt
  | a :: as, b :: bs => if a < b then .lt else if b < a then .gt else cmpInts as bs

mutual
/-- Compares two terms. -/
def cmp (a b : Term) : Ordering :=
  if a = b then .eq else
  let c1 := compare a.args.length b.args.length
  if c1 != .eq then c1 else
  let c2 := compare a.depth b.depth
  if c2 != .eq then c2 else
  let c3 := compare a.headName b.headName
  if c3 != .eq then c3 else
  let c4 := cmpInts a.headIndices b.headIndices
  if c4 != .eq then c4 else
  match a, b with
  | app _ as, app _ bs => cmpList as bs
  | _, _ => .eq
  termination_by (sizeOf a, 0)
  decreasing_by all_goals (simp_wf; omega)
/-- Compares two term lists from left to right. -/
def cmpList : List Term → List Term → Ordering
  | [], [] => .eq
  | [], _ => .lt
  | _, [] => .gt
  | a :: as, b :: bs => match cmp a b with
    | .eq => cmpList as bs
    | o => o
  termination_by l => (sizeOf l, 1)
end

/-- Whether `a` comes strictly before `b`. -/
def lt (a b : Term) : Bool := cmp a b == .lt

end Term
end SmtSynth
