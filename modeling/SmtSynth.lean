import SmtSynth.Term.Basic
import SmtSynth.Text.Sexp
import SmtSynth.Text.Readable
import SmtSynth.Fault
import SmtSynth.Build.Source
import SmtSynth.Synth.Sketch
import SmtSynth.Text.Quoted
import SmtSynth.Rewrite.Simplify
import SmtSynth.Term.Eval
import SmtSynth.Term.Subst
import SmtSynth.Solve.Sat
import SmtSynth.Solve.Blast
import SmtSynth.Solve.Model
import SmtSynth.Solve.Reduce
import SmtSynth.Cdcl.Basic
import SmtSynth.Cdcl.Gate
import SmtSynth.Cdcl.Core
import SmtSynth.Cdcl.State
import SmtSynth.Cdcl.Internalize
import SmtSynth.Cdcl.Theory
import SmtSynth.Cdcl.Search
import SmtSynth.Solve.Solver
import SmtSynth.Synth.Table
import SmtSynth.Synth.Choice
import SmtSynth.Synth.Equation
import SmtSynth.Synth.Enumerate
import SmtSynth.Synth.Induct
import SmtSynth.Synth.Precondition
import SmtSynth.Synth.Cegis
import SmtSynth.Synth.Negative
import SmtSynth.Solve.Unconstrained
import SmtSynth.Synth.Demo
import SmtSynth.Bench
import SmtSynth.Main
import SmtSynth.Proofs.Terms
import SmtSynth.Proofs.Checker
import SmtSynth.Proofs.Operands
import SmtSynth.Proofs.Choice
import SmtSynth.Proofs.Words
import SmtSynth.Proofs.Cegis.Rounds
import SmtSynth.Proofs.Cegis.Soundness
import SmtSynth.Proofs.Cegis.Termination
import SmtSynth.Proofs.Precondition.Candidates
import SmtSynth.Proofs.Precondition.Soundness
import SmtSynth.Proofs.Precondition.Rounds
import SmtSynth.Proofs.Synthesis.Enumeration
import SmtSynth.Proofs.Synthesis.Chains
import SmtSynth.Proofs.Precondition.Pool
import SmtSynth.Proofs.Precondition.NegativeExamples
import SmtSynth.Proofs.Precondition.Sketches
import SmtSynth.Proofs.Synthesis.Equations
import SmtSynth.Proofs.Precondition.PowerTest
import SmtSynth.Proofs.Precondition.Products
