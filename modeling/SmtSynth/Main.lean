import SmtSynth.Synth.Demo
/-!
# Command line

Prints the solutions of the shift puzzle and of the additive identity, one
per line.
-/

open SmtSynth

/-- Runs the puzzle demonstration and prints what it prints; a fault is
reported after the text. -/
def main : IO Unit := do
  let (out, fault) := Demo.transcript Demo.puzzleRun
  IO.print out
  match fault with
  | some f => IO.eprintln f.message
  | none => pure ()
