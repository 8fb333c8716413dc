import SmtSynth.Term.Basic
/-!
# Readable text of a term

The readable rendering of a term: operators written between their operands
with the usual precedences, numerals in decimal (bit-vectors unsigned),
truth values as `True` and `False`, and every other symbol in call form such
as `ULT(x, c)`, `Concat(a, b)` or `Extract(3, 1, x)`.

Parentheses follow precedence levels (unary `-` and `~` bind tightest, then
`* / %`, `+ -`, shifts, `&`, `^`, `|`, comparisons). An operand with the same
associative operator is written without parentheses, as is the left operand
of `-`; a `-` directly under `+` is not parenthesised either, so
`(bvadd a (bvsub b c))` reads `a + b - c`.

Past twenty levels of nesting, or past 128 operands of one operator, the
text is cut short with `...`.
-/

namespace SmtSynth
namespace Readable

/-- How a symbol is written. -/
inductive Form where
  | between (op : String) (compact : Bool)
  | unary (op : String)
  | call (name : String)

/-- How a symbol applied to the given arguments is written. -/
def form (f : Fn) (args : List Term) : Form :=
  match f with
  | .eq => .between "==" false
  | .distinct => if args.length = 2 then .between "!=" false else .call "Distinct"
  | .add => .between "+" false
  | .sub => .between "-" false
  | .mul => .between "*" true
  | .div => .between "/" true
  | .mod => .between "%" true
  | .lt => .between "<" false
  | .le => .between "<=" false
  | .gt => .between ">" false
  | .ge => .between ">=" false
  | .band => .between "&" false
  | .bor => .between "|" false
  | .bxor => .between "^" false
  | .shl => .between "<<" false
  | .ashr => .between ">>" false
  | .neg => .unary "-"
  | .bnot => .unary "~"
  | .not => .call "Not" | .and => .call "And" | .or => .call "Or"
  | .implies => .call "Implies" | .ite => .call "If"
  | .udiv => .call "UDiv" | .urem => .call "URem" | .lshr => .call "LShR"
  | .ult => .call "ULT" | .ule => .call "ULE" | .ugt => .call "UGT" | .uge => .call "UGE"
  | .concat => .call "Concat" | .extract _ _ => .call "Extract"
  | .udivI => .call "bvudiv_i" | .uremI => .call "bvurem_i"
  | .sdivI => .call "bvsdiv_i" | .smodI => .call "bvsmod_i"

/-- Binding strength of an operator symbol: smaller binds tighter. Symbols
written in call form have none. -/
def precedence : Fn → Option Nat
  | .neg | .bnot => some 1
  | .mul | .div | .mod => some 2
  | .add | .sub => some 3
  | .shl | .ashr => some 4
  | .band => some 5
  | .bxor => some 6
  | .bor => some 7
  | .eq | .lt | .le | .gt | .ge => some 8
  | _ => none

/-- Operators whose operands of the same operator need no parentheses. -/
def isAssoc : Fn → Bool
  | .add | .mul | .band | .bor | .bxor => true
  | _ => false

/-- The symbol at the head of a term, if it is an application with
arguments. -/
def head? : Term → Option Fn
  | .app f (_ :: _) => some f
  | _ => none

/-- Whether a term is written with an operator (infix or unary). -/
def isOperator (t : Term) : Bool :=
  match t with
  | .app f args@(_ :: _) => match form f args with
    | .call _ => false
    | _ => true
  | _ => false

/-- Text cut short. -/
def ellipsis : String := "..."

/-- The most nesting levels written out. -/
def maxDepth : Nat := 20
/-- The most operands of one operator written out. -/
def maxArgs : Nat := 128

/-- The text of a leaf. -/
def leafText : Term → String
  | .lit b => if b then "True" else "False"
  | .num n => toString n
  | .word _ v => toString v
  | .var n _ => n
  | .app f args => match form f args with
    | .call name => name ++ "()"
    | .between op _ => op
    | .unary op => op

/-- Keeps the first `maxArgs + 1` items and marks a cut with `...`. -/
def capArgs (items : List String) : List String :=
  if items.length > maxArgs + 1 then items.take (maxArgs + 1) ++ [ellipsis] else items

mutual
/-- The text of a term at nesting level `d`. -/
def render (d : Nat) (t : Term) : String :=
  if d > maxDepth then ellipsis else
  match t with
  | .app f (a :: as) =>
    match f, form f (a :: as) with
    | .extract hi lo, _ => "Extract(" ++ toString hi ++ ", " ++ toString lo ++ ", " ++ render (d + 1) a ++ ")"
    | _, .call name => name ++ "(" ++ String.intercalate ", " (capArgs (renderAll (d + 1) (a :: as))) ++ ")"
    | _, .unary op =>
      let inner := render (d + 1) a
      let paren := match head? a with
        | some g => g != f && isOperator a && (precedence g).getD 100000 ≥ (precedence f).getD 100000
        | none => false
      op ++ (if paren then "(" ++ inner ++ ")" else inner)
    | _, .between op compact =>
      let sep := if compact then op else " " ++ op ++ " "
      String.intercalate sep (capArgs (operands d f true (a :: as)))
  | t => leafText t
  termination_by sizeOf t
/-- The texts of a list of terms. -/
def renderAll (d : Nat) : List Term → List String
  | [] => []
  | a :: as => render d a :: renderAll d as
  termination_by l => sizeOf l
/-- The operand texts of an infix application of `f`, folding operands that
are applications of the same associative operator (or the leftmost operand
of a left-associative one) into the list. -/
def operands (d : Nat) (f : Fn) (first : Bool) : List Term → List String
  | [] => []
  | .app g (x :: xs) :: cs =>
    let c := Term.app g (x :: xs)
    let here : List String :=
      if g = f && (isAssoc f || (first && (f = .sub))) then
        operands d f true (x :: xs)
      else if isOperator c then
        let p := (precedence f).getD 100000
        let cp := (precedence g).getD 100000
        let s := render (d + 1) c
        if p > cp || (f = .add && g = .sub) || (f = .sub && first && g = .add) then [s]
        else ["(" ++ s ++ ")"]
      else [render (d + 1) c]
    here ++ operands d f false cs
  | c :: cs => render (d + 1) c :: operands d f false cs
  termination_by l => sizeOf l
end

end Readable

/-- The readable text of a term. -/
def Term.toText (t : Term) : String := Readable.render 0 t

end SmtSynth
