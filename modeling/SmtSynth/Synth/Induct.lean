import SmtSynth.Synth.Enumerate
import SmtSynth.Text.Quoted
/-!
# Inductive synthesis

To reach a target at depth `d > 1`, each named constant is tried in turn: a
constant whose value already equals the target is itself an answer;
otherwise, for `+` and `-`, the one-step equation `value op x = target` is
solved and every answer that reaches `x` at depth `d - 1` is joined to the
constant with the operator, as text. At depth `1` the answers are those of
enumerative synthesis.

Each level below the first costs one unit of a depth budget; a depth that
never reaches `1` exhausts it.
-/

namespace SmtSynth

/-- An answer of inductive synthesis: a term, or the text of a join. -/
inductive Found where
  | term (t : Operand)
  | text (s : String)
  deriving Inhabited

namespace Found

/-- The text of an answer. -/
def toText : Found → String
  | term t => t.hostText
  | text s => s

/-- An answer as an element of a printed list: texts are quoted. -/
def listed : Found → String
  | term t => t.hostText
  | text s => Quoted.literal s

end Found

/-- The operators a join may use, in the order they are tried. -/
def joinOps : List String := ["+", "-"]

/-- The deepest nesting of levels inductive synthesis may reach. -/
def depthBudget : Nat := 990

/-- An answer `e` for the rest of the target joined to the constant `c` by
`op`, as text: the answer stands in parentheses unless it is one of the
constants. -/
def Found.join (constants : Table) (c : Operand) (op : String) (e : Found) : Found :=
  let shown := match e with
    | .term t => if constants.contains t then t.hostText else "(" ++ t.hostText ++ ")"
    | .text s => "(" ++ s ++ ")"
  .text (c.hostText ++ " " ++ op ++ " " ++ shown)

/-- Answers that reach `target` from the constants at depth `depth`, with the
decision procedure `check` and the simplifier `simp`. -/
def inductWith (check : Checker) (simp : Term → Term) (sketch : Operand) (inputs : List Operand)
    (constants : Table) (w : Int) : Nat → Int → Operand → Except Fault (List Found)
  | budget, depth, target =>
    if depth = 1 then do
      return (← enumerateWith check simp sketch inputs constants target w).map (Found.term ∘ .term)
    else match budget with
      | 0 => throw .recursionDepth
      | budget + 1 =>
        constants.entries.flatMapM fun entry => do
          if ← Operand.holdsEq entry.2 target then return [.term entry.1]
          joinOps.flatMapM fun op => do
            let x ← solveEqWith check op entry.2 target w
            if ← Operand.holdsEq x .none then return []
            return (← inductWith check simp sketch inputs constants w budget (depth - 1) x).map
              (Found.join constants entry.1 op)

/-- Inductive synthesis from depth `depth`, with the decision procedure
`check` and the simplifier `simp`. -/
def inductiveSynthesisWith (check : Checker) (simp : Term → Term) (sketch : Operand) (inputs : List Operand)
    (constants : Table) (target : Operand) (w : Int) (depth : Int) : Except Fault (List Found) :=
  inductWith check simp sketch inputs constants w depthBudget depth target

/-- Inductive synthesis from depth `depth`. -/
def inductiveSynthesis (sketch : Operand) (inputs : List Operand) (constants : Table)
    (target : Operand) (w : Int) (depth : Int) : Except Fault (List Found) :=
  inductiveSynthesisWith Solver.check Term.simplify sketch inputs constants target w depth

/-- The report of a synthesis run at depth three: the constants, the target
and the answers, as one line. -/
def synthesisReport (sketch : Operand) (inputs : List Operand) (constants : Table)
    (target : Operand) (w : Int) : Except Fault String := do
  let found ← inductiveSynthesis sketch inputs constants target w 3
  let table := ", ".intercalate (constants.entries.map fun (k, v) => k.hostText ++ ": " ++ v.hostText)
  return "Constants: \x7b" ++ table ++ "\x7d, Target: " ++ target.hostText ++ ", Results: [" ++
    ", ".intercalate (found.map Found.listed) ++ "]\n"

end SmtSynth
