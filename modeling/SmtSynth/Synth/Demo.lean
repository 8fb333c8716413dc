import SmtSynth.Synth.Induct
import SmtSynth.Synth.Precondition
import SmtSynth.Synth.Negative
import SmtSynth.Build.Source
/-!
# Demonstrations

The fixed problems the command lines run, and the text they print.

* The shift puzzle: 4-bit constants `c1 … c4` with
  `((x << c1) >> c2) << c3 = x & c4` for every `x`.
* The additive identity: an integer `cst` with `x + cst = x` for every `x`.
* Three synthesis runs of 4-bit and 8-bit sums and products.
* A precondition search for a shift identity, which stops with a type fault
  when its second formula joins two conditions with `&`.
-/

namespace SmtSynth
namespace Demo

/-- A table as a printed dictionary: `{c1: 9, c2: 0}`. -/
def tableText (t : Table) : String :=
  "\x7b" ++ ", ".intercalate (t.entries.map fun (k, v) => k.hostText ++ ": " ++ v.hostText) ++ "\x7d"

/-- The text of a search result that may be absent. -/
def resultText : Option Table → String
  | some t => tableText t
  | none => "None"

/-- A named constant of width `w`. -/
def word (name : String) (w : Int) : Except Fault Source := do
  return .const (← Term.bvConst name w)

/-- A run that prints: the text printed so far survives a fault. -/
abbrev Printing := ExceptT Fault (StateM String)

/-- Prints text. -/
def say (text : String) : Printing Unit := modify (· ++ text)

/-- Runs a step that may fault. -/
def step {α : Type} (x : Except Fault α) : Printing α := ExceptT.mk (pure x)

/-- The printed text of a run, and the fault that stopped it, if any. -/
def transcript (p : Printing Unit) : String × Option Fault :=
  let (r, out) := p.run.run ""
  match r with
  | .ok () => (out, none)
  | .error f => (out, some f)

/-- The shift puzzle: the formula, the exists constants, the for-all ones. -/
def shiftPuzzle : Except Fault (Operand × List Operand × List Operand) := do
  let x ← word "x" 4
  let c1 ← word "c1" 4
  let c2 ← word "c2" 4
  let c3 ← word "c3" 4
  let c4 ← word "c4" 4
  let lhs := Source.binary .shl (.binary .shr (.binary .shl x c1) c2) c3
  let e ← (Source.binary .eq lhs (.binary .band x c4)).eval
  let cs ← [c1, c2, c3, c4].mapM Source.eval
  return (e, cs, [← x.eval])

/-- The additive identity puzzle over integers. -/
def addConstPuzzle : Except Fault (Operand × List Operand × List Operand) := do
  let x := Source.const (.var "x" .int)
  let cst := Source.const (.var "cst" .int)
  let e ← (Source.binary .eq (.binary .add x cst) x).eval
  return (e, [← cst.eval], [← x.eval])

/-- Solves a puzzle. -/
def solvePuzzle (p : Except Fault (Operand × List Operand × List Operand)) : Except Fault CegisResult := do
  let (e, ex, fa) ← p
  existsForAll e ex fa

/-- The puzzle demonstration: the solutions of the two puzzles, one per
line, after whatever the searches logged. -/
def puzzleRun : Printing Unit := do
  let a ← step (solvePuzzle shiftPuzzle)
  say (a.log ++ resultText a.values ++ "\n")
  let b ← step (solvePuzzle addConstPuzzle)
  say (b.log ++ resultText b.values ++ "\n")

/-- The synthesis demonstration: three synthesis reports. -/
def synthesisRun : Printing Unit := do
  let x4 ← step (word "x" 4)
  let y4 ← step (word "y" 4)
  let c14 ← step (word "c1" 4)
  let c24 ← step (word "c2" 4)
  say (← step do
    synthesisReport (← (Source.binary .sub (.binary .add x4 c14) (.binary .add y4 c24)).eval)
      [← x4.eval, ← y4.eval]
      (Table.ofList [(← c14.eval, ← (Source.word 1 4).eval), (← c24.eval, ← (Source.word 5 4).eval)])
      (← (Source.word 4 4).eval) 4)
  let x ← step (word "x" 8)
  let y ← step (word "y" 8)
  let c1 ← step (word "c1" 8)
  let c2 ← step (word "c2" 8)
  let c3 ← step (word "c3" 8)
  say (← step do
    synthesisReport (← (Source.binary .add (.binary .add x c1) (.binary .add y c2)).eval)
      [← x.eval, ← y.eval]
      (Table.ofList [(← c1.eval, ← (Source.word 10 8).eval), (← c2.eval, ← (Source.word 14 8).eval)])
      (← (Source.word 24 8).eval) 8)
  say (← step do
    synthesisReport
      (← (Source.binary .add (.binary .sub (.binary .mul x c1) (.binary .sub (.binary .mul x y) c2))
        (.binary .add y c3)).eval)
      [← x.eval, ← y.eval]
      (Table.ofList [(← c1.eval, ← (Source.word 1 8).eval), (← c2.eval, ← (Source.word 5 8).eval),
        (← c3.eval, ← (Source.word 10 8).eval)])
      (← (Source.word 6 8).eval) 8)

/-- A list printed with each item's text. -/
def listText (items : List String) : String := "[" ++ ", ".intercalate items ++ "]"

/-- The precondition demonstration: negative examples of a shift identity,
its preconditions, then a second formula that joins two conditions with
`&`, which truth values do not support. -/
def preconditionRun : Printing Unit := do
  let x ← step (word "x" 8)
  let c1 ← step (word "c1" 8)
  let c2 ← step (word "c2" 8)
  let c3 ← step (word "c3" 8)
  let shifted := Source.binary .shl (.call .lshr (.binary .shl x c1) c2) c3
  let masked := Source.binary .band x
    (.binary .shl (.call .lshr (.binary .shl (.int (-1)) c1) c2) c3)
  let e ← step (Source.binary .eq shifted masked).eval
  let consts ← step ([c1, c2, c3].mapM Source.eval)
  let negs ← step (negativeExamples e consts 3)
  say ("negative examples: " ++ listText (negs.map tableText) ++ "\n")
  let pos ← step do
    return Table.ofList [(← c1.eval, ← (Source.word 8 8).eval),
      (← c2.eval, ← (Source.word 16 8).eval), (← c3.eval, ← (Source.word 8 8).eval)]
  let found ← step (Precondition.synthesize e pos negs 8 2)
  say (listText (found.map Operand.hostText) ++ "\n")
  let left := Source.binary .band (.binary .ne c2 (.binary .band c2 x)) (.call .ult x c1)
  let _ ← step (Source.binary .eq left (.call .ult x c2)).eval

end Demo
end SmtSynth
