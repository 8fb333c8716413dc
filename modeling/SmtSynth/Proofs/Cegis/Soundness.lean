import Mathlib
import SmtSynth.Proofs.Cegis.Rounds
/-!
# Counterexample-guided synthesis is sound, and complete relative to its solver

Soundness (`existsForAllWith_values_valid`): values found are numerals of the
right sorts for exactly the exists constants, and the formula with them put
in holds under every well-sorted assignment. It rests only on the solver
being right when it answers unsatisfiable.

Completeness (`existsForAllWith_none_no_witness`): when the candidate
conditions run out, no values of the exists constants make the formula hold
for all values of the other constants. The candidate conditions are always
the formula and instances of it at the for-all constants (`Instances`), and
a witness would satisfy them all.
-/

namespace SmtSynth

variable {check : Checker} {fuel : Nat} {φ : Term} {ex fa : List Operand}

/-! ## Soundness -/

/-- Values found for the exists constants make the formula hold under every
well-sorted assignment of the other constants: its negation at those values
was found unsatisfiable. -/
theorem existsForAllWith_values_valid (hunsat : check.RefutesSoundly) {D : Table} {log : String}
    (h : existsForAllWith check fuel (.term φ) ex fa = .ok (some ⟨some D, log⟩)) :
    D.keys.Nodup ∧ (∀ c, c ∈ D.keys ↔ c ∈ ex) ∧
      (∀ p ∈ D.entries, ∃ n s, ∃ v : Value, p = (.term (.var n s), .term v.toTerm) ∧ v.toTerm.sort = s) ∧
      ∃ ψ, (Operand.term φ).substitute D.entries = .ok ψ ∧
        ∀ ρ : Assignment, ρ.Sorted → ψ.eval ρ = .bool true := by
  obtain ⟨-, hrun⟩ := existsForAllWith_eq h
  obtain ⟨s, -, hdone⟩ := cegisRun_done (fun _ => True) (fun _ _ _ _ => trivial) fuel _ trivial hrun
  rcases cegisRound_done hdone with ⟨hr, -⟩ | ⟨m, vals, ps, -, hvals, hps, hrefuted, hr⟩
  · simp at hr
  · simp only [CegisResult.mk.injEq, Option.some.injEq] at hr
    obtain ⟨rfl, -⟩ := hr
    obtain ⟨hnd, hkeys, -⟩ := readAll_ok hvals
    have hreads := Model.reads_of_readAll hvals hps
    refine ⟨hnd, hkeys, fun p hp => ?_, Term.replace ps φ, Operand.substitute_eq_ok.2 ⟨φ, ps, rfl, hps, rfl⟩,
      fun ρ hρ => ?_⟩
    · obtain ⟨q, hq, rfl⟩ := (Operand.pairs_of_substitute hps).2 p hp
      obtain ⟨-, n, s, v, h1, -, h2, h3⟩ := hreads.reads q hq
      exact ⟨n, s, v, by rw [h1, h2], h3⟩
    · have hne := hunsat.eval_ne hrefuted hρ
      rw [Ne, Term.eval_not_eq_true, not_not] at hne
      exact hne

/-- Over 2-bit `c` and `x`, the formula `x & c = 0` holds for every `x` only
at `c = 0`. A checker that offers first `c = 1`, then `c = 2`, meets the
counter-examples `x = 1` and `x = 2` before the candidates leave `c = 0`. -/
theorem values_valid_after_two_counterexamples :
    existsForAllWith
        (Checker.preferring
          [Assignment.replace (fun _ _ => none) [(.var "c" (.bv 2), .word 2 1), (.var "x" (.bv 2), .word 2 0)],
            Assignment.replace (fun _ _ => none) [(.var "c" (.bv 2), .word 2 2), (.var "x" (.bv 2), .word 2 1)],
            Assignment.replace (fun _ _ => none) [(.var "c" (.bv 2), .word 2 0), (.var "x" (.bv 2), .word 2 1)],
            Assignment.replace (fun _ _ => none) [(.var "c" (.bv 2), .word 2 0), (.var "x" (.bv 2), .word 2 2)]])
        3 (.term (.app .eq [.app .band [.var "x" (.bv 2), .var "c" (.bv 2)], .word 2 0]))
        [.term (.var "c" (.bv 2))] [.term (.var "x" (.bv 2))] =
      .ok (some ⟨some ⟨[(.term (.var "c" (.bv 2)), .term (.word 2 0))]⟩, ""⟩) ∧
      (Table.keys ⟨[(.term (.var "c" (.bv 2)), .term (.word 2 0))]⟩).Nodup ∧
      (∀ c, c ∈ Table.keys ⟨[(.term (.var "c" (.bv 2)), .term (.word 2 0))]⟩ ↔ c ∈ [.term (.var "c" (.bv 2))]) ∧
      (∀ p ∈ [(Operand.term (.var "c" (.bv 2)), Operand.term (.word 2 0))],
        ∃ n s, ∃ v : Value, p = (.term (.var n s), .term v.toTerm) ∧ v.toTerm.sort = s) ∧
      ∃ ψ, (Operand.term (.app .eq [.app .band [.var "x" (.bv 2), .var "c" (.bv 2)], .word 2 0])).substitute
          [(.term (.var "c" (.bv 2)), .term (.word 2 0))] = .ok ψ ∧
        ∀ ρ : Assignment, ρ.Sorted → ψ.eval ρ = .bool true := by
  have hrun : existsForAllWith
      (Checker.preferring
        [Assignment.replace (fun _ _ => none) [(.var "c" (.bv 2), .word 2 1), (.var "x" (.bv 2), .word 2 0)],
          Assignment.replace (fun _ _ => none) [(.var "c" (.bv 2), .word 2 2), (.var "x" (.bv 2), .word 2 1)],
          Assignment.replace (fun _ _ => none) [(.var "c" (.bv 2), .word 2 0), (.var "x" (.bv 2), .word 2 1)],
          Assignment.replace (fun _ _ => none) [(.var "c" (.bv 2), .word 2 0), (.var "x" (.bv 2), .word 2 2)]])
      3 (.term (.app .eq [.app .band [.var "x" (.bv 2), .var "c" (.bv 2)], .word 2 0]))
      [.term (.var "c" (.bv 2))] [.term (.var "x" (.bv 2))] =
      .ok (some ⟨some ⟨[(.term (.var "c" (.bv 2)), .term (.word 2 0))]⟩, ""⟩) := by
    set ρA : Assignment :=
      Assignment.replace (fun _ _ => none) [(.var "c" (.bv 2), .word 2 1), (.var "x" (.bv 2), .word 2 0)] with hA
    set ρB : Assignment :=
      Assignment.replace (fun _ _ => none) [(.var "c" (.bv 2), .word 2 2), (.var "x" (.bv 2), .word 2 1)] with hB
    set ρC : Assignment :=
      Assignment.replace (fun _ _ => none) [(.var "c" (.bv 2), .word 2 0), (.var "x" (.bv 2), .word 2 1)] with hC
    set ρD : Assignment :=
      Assignment.replace (fun _ _ => none) [(.var "c" (.bv 2), .word 2 0), (.var "x" (.bv 2), .word 2 2)] with hD
    have hsA : ρA.Sorted := Assignment.Sorted.replace Assignment.sorted_none (by simp [Value.HasSort])
    have hsB : ρB.Sorted := Assignment.Sorted.replace Assignment.sorted_none (by simp [Value.HasSort])
    have hsC : ρC.Sorted := Assignment.Sorted.replace Assignment.sorted_none (by simp [Value.HasSort])
    have hsD : ρD.Sorted := Assignment.Sorted.replace Assignment.sorted_none (by simp [Value.HasSort])
    have hAc : ρA "c" (.bv 2) = some (.word 2 1) := by simp [hA, Assignment.replace, Term.lookupLast]
    have hAx : ρA "x" (.bv 2) = some (.word 2 0) := by simp [hA, Assignment.replace, Term.lookupLast]
    have hBc : ρB "c" (.bv 2) = some (.word 2 2) := by simp [hB, Assignment.replace, Term.lookupLast]
    have hBx : ρB "x" (.bv 2) = some (.word 2 1) := by simp [hB, Assignment.replace, Term.lookupLast]
    have hCc : ρC "c" (.bv 2) = some (.word 2 0) := by simp [hC, Assignment.replace, Term.lookupLast]
    have hCx : ρC "x" (.bv 2) = some (.word 2 1) := by simp [hC, Assignment.replace, Term.lookupLast]
    have hDx : ρD "x" (.bv 2) = some (.word 2 2) := by simp [hD, Assignment.replace, Term.lookupLast]
    set φ : Term := .app .eq [.app .band [.var "x" (.bv 2), .var "c" (.bv 2)], .word 2 0] with hφ
    have hsort : φ.sort = .bool := by simp [hφ, Term.sort_app, Term.appSort, Fn.isPredicate]
    have hN : ∀ v, Term.replace [(.var "c" (.bv 2), .word 2 v)] φ =
        .app .eq [.app .band [.var "x" (.bv 2), .word 2 v], .word 2 0] := by
      intro v
      simp [hφ, Term.replace, Term.lookupLast]
    have hI : ∀ v, Term.replace [(.var "x" (.bv 2), .word 2 v)] φ =
        .app .eq [.app .band [.word 2 v, .var "c" (.bv 2)], .word 2 0] := by
      intro v
      simp [hφ, Term.replace, Term.lookupLast]
    set s₀ := Solver.add {} φ with hs₀
    set n₁ := Solver.add {} (.app .not [Term.replace [(.var "c" (.bv 2), .word 2 1)] φ]) with hn₁
    have h₁ : Checker.preferring [ρA, ρB, ρC, ρD] s₀ =
        (s₀, .sat (Model.ofAssignment ρA (s₀.assertions.toList.flatMap Term.vars))) :=
      Checker.preferring_cons_of_model hsA
        (by simp [hs₀, hφ, Term.eval_eq, Term.eval_band _ _ (Term.sort_var _ _), hAc, hAx, Value.asNat])
    have hf₁ : (Checker.preferring [ρA, ρB, ρC, ρD] n₁).2 =
        .sat (Model.ofAssignment ρB (n₁.assertions.toList.flatMap Term.vars)) := by
      rw [show [ρA, ρB, ρC, ρD] = [ρA] ++ ρB :: [ρC, ρD] from rfl, Checker.preferring_append_of_model]
      · simp [hn₁, hN, Term.eval_eq, Term.eval_band _ _ (Term.sort_var _ _), hAx, Value.asNat]
      · exact hsB
      · simp [hn₁, hN, Term.eval_eq, Term.eval_band _ _ (Term.sort_var _ _), hBx, Value.asNat]
    have hround₁ := cegisRound_of_assignments [.var "c" (.bv 2)] [.var "x" (.bv 2)] hsort hsA hsB h₁ (by simp)
      (by simp [hs₀, hφ]) (by simp) (by simp [hAc, Value.toTerm]) hf₁ (by simp) (by simp [hn₁, hN])
    simp only [List.map_cons, List.map_nil, Term.eval_var, hBx, Option.getD_some, Value.toTerm, hI] at hround₁
    set s₁ := s₀.add (.app .eq [.app .band [.word 2 1, .var "c" (.bv 2)], .word 2 0]) with hs₁
    set n₂ := Solver.add {} (.app .not [Term.replace [(.var "c" (.bv 2), .word 2 2)] φ]) with hn₂
    have h₂ : Checker.preferring [ρA, ρB, ρC, ρD] s₁ =
        (s₁, .sat (Model.ofAssignment ρB (s₁.assertions.toList.flatMap Term.vars))) := by
      rw [show [ρA, ρB, ρC, ρD] = [ρA] ++ ρB :: [ρC, ρD] from rfl, Checker.preferring_append_of_model]
      · simp [hs₁, hs₀, hφ, Term.eval_eq, Term.eval_band _ _ (Term.sort_var _ _),
          Term.eval_band _ _ (Term.sort_word _ _), hAc, hAx, Value.asNat]
      · exact hsB
      · simp [hs₁, hs₀, hφ, Term.eval_eq, Term.eval_band _ _ (Term.sort_var _ _),
          Term.eval_band _ _ (Term.sort_word _ _), hBc, hBx, Value.asNat]
    have hf₂ : (Checker.preferring [ρA, ρB, ρC, ρD] n₂).2 =
        .sat (Model.ofAssignment ρD (n₂.assertions.toList.flatMap Term.vars)) := by
      rw [show [ρA, ρB, ρC, ρD] = [ρA, ρB, ρC] ++ ρD :: [] from rfl, Checker.preferring_append_of_model]
      · simp [hn₂, hN, Term.eval_eq, Term.eval_band _ _ (Term.sort_var _ _), hAx, hBx, hCx, Value.asNat]
      · exact hsD
      · simp [hn₂, hN, Term.eval_eq, Term.eval_band _ _ (Term.sort_var _ _), hDx, Value.asNat]
    have hround₂ := cegisRound_of_assignments [.var "c" (.bv 2)] [.var "x" (.bv 2)] hsort hsB hsD h₂ (by simp)
      (by simp [hs₁, hs₀, hφ]) (by simp) (by simp [hBc, Value.toTerm]) hf₂ (by simp) (by simp [hn₂, hN])
    simp only [List.map_cons, List.map_nil, Term.eval_var, hDx, Option.getD_some, Value.toTerm, hI] at hround₂
    set s₂ := s₁.add (.app .eq [.app .band [.word 2 2, .var "c" (.bv 2)], .word 2 0]) with hs₂
    set n₃ := Solver.add {} (.app .not [Term.replace [(.var "c" (.bv 2), .word 2 0)] φ]) with hn₃
    have h₃ : Checker.preferring [ρA, ρB, ρC, ρD] s₂ =
        (s₂, .sat (Model.ofAssignment ρC (s₂.assertions.toList.flatMap Term.vars))) := by
      rw [show [ρA, ρB, ρC, ρD] = [ρA, ρB] ++ ρC :: [ρD] from rfl, Checker.preferring_append_of_model]
      · simp [hs₂, hs₁, hs₀, hφ, Term.eval_eq, Term.eval_band _ _ (Term.sort_var _ _),
          Term.eval_band _ _ (Term.sort_word _ _), hAc, hAx, hBc, hBx, Value.asNat]
      · exact hsC
      · simp [hs₂, hs₁, hs₀, hφ, Term.eval_eq, Term.eval_band _ _ (Term.sort_var _ _),
          Term.eval_band _ _ (Term.sort_word _ _), hCc, hCx, Value.asNat]
    have hf₃ : (Checker.preferring [ρA, ρB, ρC, ρD] n₃).2 = .unsat := by
      rw [hn₃, hN, Checker.preferring_of_no_model, Checker.exact_of_not_satisfiable]
      · rintro ⟨ρ, hρ, hall⟩
        obtain ⟨y, -, hy⟩ := (hρ.eval_var "x" (.bv 2)).eq_word
        simp only [Solver.add_empty_toList, List.mem_singleton, forall_eq] at hall
        simp [Term.eval_eq, Term.eval_band _ _ (Term.sort_var _ _), hy, Value.asNat, -Term.eval_var] at hall
      · simp [Term.eval_eq, Term.eval_band _ _ (Term.sort_var _ _), Value.asNat]
    rw [existsForAllWith_eq_cegisRun hsort, cegisRun_of_next hround₁, cegisRun_of_next hround₂]
    refine (cegisRun_of_done (cegisRound_of_assignment_refuted [.var "c" (.bv 2)] hsort hsC h₃ (by simp)
      (by simp [hs₂, hs₁, hs₀, hφ]) (by simp) (by simp [hCc, Value.toTerm]) hf₃)).trans ?_
    simp [hCc, Value.toTerm]
  exact ⟨hrun, existsForAllWith_values_valid Checker.preferring_refutesSoundly hrun⟩

/-! ## Completeness relative to the solver -/

/-- The candidate conditions are the formula, and instances of it with
for-all constants replaced by the numerals of a well-sorted model. -/
def Instances (φ : Term) (fa : List Operand) (s : Solver) : Prop :=
  ∀ t ∈ s.assertions.toList, t = φ ∨ ∃ (m : Model) (τ : List (Term × Term)), m.assignment.Sorted ∧ m.Reads fa τ ∧ t = Term.replace τ φ

theorem instances_next (hkeeps : check.Keeps) (hmodels : check.ModelsSoundly) {s s' : Solver}
    (hinv : Instances φ fa s) (h : cegisRound check (.term φ) ex fa s = .ok (.next s')) :
    Instances φ fa s' := by
  obtain ⟨m, ps, fm, τ, -, -, hfm, hτ, rfl⟩ := cegisRound_next h
  intro t ht
  rw [Solver.add_assertions, hkeeps, Array.toList_push, List.mem_append, List.mem_singleton] at ht
  rcases ht with ht | rfl
  · exact hinv t ht
  · exact .inr ⟨fm, τ, (hmodels _ _ hfm).1, hτ, rfl⟩

/-- Values of the exists constants that make the formula hold for all values
of the others make every instance of it hold. -/
theorem Instances.satisfiable {s : Solver} (hinv : Instances φ fa s) (hdisj : ∀ c ∈ ex, c ∉ fa)
    {σ : Assignment} (hσ : σ.Sorted)
    (hwit : ∀ ρ : Assignment, ρ.Sorted → (∀ n s, .term (.var n s) ∈ ex → ρ n s = σ n s) →
      φ.eval ρ = .bool true) :
    Satisfiable s.assertions.toList := by
  refine ⟨σ, hσ, fun t ht => ?_⟩
  rcases hinv t ht with rfl | ⟨m, τ, hm, hτ, rfl⟩
  · exact hwit σ hσ fun _ _ _ => rfl
  · rw [Term.eval_replace hτ.sortedPairs]
    exact hwit _ (hτ.sorted_replace hm hσ) fun n s hx => hτ.replace_of_not_mem σ (hdisj _ hx)

/-- When the candidate conditions run out, no values of the exists constants
make the formula hold under every well-sorted assignment of the others. -/
theorem existsForAllWith_none_no_witness (hkeeps : check.Keeps) (hdec : check.Decides)
    (hunsat : check.RefutesSoundly) (hmodels : check.ModelsSoundly) (hdisj : ∀ c ∈ ex, c ∉ fa)
    {log : String} (h : existsForAllWith check fuel (.term φ) ex fa = .ok (some ⟨none, log⟩)) :
    ¬ ∃ σ : Assignment, σ.Sorted ∧ ∀ ρ : Assignment, ρ.Sorted →
      (∀ n s, .term (.var n s) ∈ ex → ρ n s = σ n s) → φ.eval ρ = .bool true := by
  rintro ⟨σ, hσ, hwit⟩
  obtain ⟨-, hrun⟩ := existsForAllWith_eq h
  have hinit : Instances φ fa (Solver.add {} φ) := by
    intro t ht
    rw [Solver.add_empty_toList, List.mem_singleton] at ht
    exact .inl ht
  obtain ⟨s, hinv, hdone⟩ :=
    cegisRun_done (Instances φ fa) (fun _ _ => instances_next hkeeps hmodels) fuel _ hinit hrun
  rcases cegisRound_done hdone with ⟨-, hnone⟩ | ⟨_, _, _, -, -, -, -, hr⟩
  · have hu : (check s).2 = .unsat := by
      cases hv : (check s).2 with
      | sat m => exact absurd hv (hnone m)
      | unsat => rfl
      | unknown => exact absurd hv (hdec s)
    exact hunsat s hu (hinv.satisfiable hdisj hσ hwit)
  · simp at hr

/-- Over 1-bit `c` and `x`, no `c` equals every `x`: the counter-examples
`x = 1` and `x = 0` to the candidates `c = 0` and `c = 1` leave none. -/
theorem no_witness_after_two_counterexamples :
    existsForAllWith
        (Checker.preferring
          [Assignment.replace (fun _ _ => none) [(.var "c" (.bv 1), .word 1 0), (.var "x" (.bv 1), .word 1 0)],
            Assignment.replace (fun _ _ => none) [(.var "c" (.bv 1), .word 1 0), (.var "x" (.bv 1), .word 1 1)],
            Assignment.replace (fun _ _ => none) [(.var "c" (.bv 1), .word 1 1), (.var "x" (.bv 1), .word 1 1)]])
        3 (.term (.app .eq [.var "c" (.bv 1), .var "x" (.bv 1)])) [.term (.var "c" (.bv 1))] [.term (.var "x" (.bv 1))] =
      .ok (some ⟨none, unsatisfiedLine (.term (.app .eq [.var "c" (.bv 1), .var "x" (.bv 1)]))⟩) ∧
    (∀ c ∈ [Operand.term (.var "c" (.bv 1))], c ∉ [Operand.term (.var "x" (.bv 1))]) ∧
    ¬ ∃ σ : Assignment, σ.Sorted ∧ ∀ ρ : Assignment, ρ.Sorted →
      (∀ n s, .term (.var n s) ∈ [Operand.term (.var "c" (.bv 1))] → ρ n s = σ n s) →
      (Term.app .eq [.var "c" (.bv 1), .var "x" (.bv 1)]).eval ρ = .bool true := by
  have hrun : existsForAllWith
      (Checker.preferring
        [Assignment.replace (fun _ _ => none) [(.var "c" (.bv 1), .word 1 0), (.var "x" (.bv 1), .word 1 0)],
          Assignment.replace (fun _ _ => none) [(.var "c" (.bv 1), .word 1 0), (.var "x" (.bv 1), .word 1 1)],
          Assignment.replace (fun _ _ => none) [(.var "c" (.bv 1), .word 1 1), (.var "x" (.bv 1), .word 1 1)]])
      3 (.term (.app .eq [.var "c" (.bv 1), .var "x" (.bv 1)])) [.term (.var "c" (.bv 1))] [.term (.var "x" (.bv 1))] =
      .ok (some ⟨none, unsatisfiedLine (.term (.app .eq [.var "c" (.bv 1), .var "x" (.bv 1)]))⟩) := by
    set ρA : Assignment :=
      Assignment.replace (fun _ _ => none) [(.var "c" (.bv 1), .word 1 0), (.var "x" (.bv 1), .word 1 0)] with hA
    set ρB : Assignment :=
      Assignment.replace (fun _ _ => none) [(.var "c" (.bv 1), .word 1 0), (.var "x" (.bv 1), .word 1 1)] with hB
    set ρC : Assignment :=
      Assignment.replace (fun _ _ => none) [(.var "c" (.bv 1), .word 1 1), (.var "x" (.bv 1), .word 1 1)] with hC
    have hsA : ρA.Sorted := Assignment.Sorted.replace Assignment.sorted_none (by simp [Value.HasSort])
    have hsB : ρB.Sorted := Assignment.Sorted.replace Assignment.sorted_none (by simp [Value.HasSort])
    have hsC : ρC.Sorted := Assignment.Sorted.replace Assignment.sorted_none (by simp [Value.HasSort])
    have hAc : ρA "c" (.bv 1) = some (.word 1 0) := by simp [hA, Assignment.replace, Term.lookupLast]
    have hAx : ρA "x" (.bv 1) = some (.word 1 0) := by simp [hA, Assignment.replace, Term.lookupLast]
    have hBc : ρB "c" (.bv 1) = some (.word 1 0) := by simp [hB, Assignment.replace, Term.lookupLast]
    have hBx : ρB "x" (.bv 1) = some (.word 1 1) := by simp [hB, Assignment.replace, Term.lookupLast]
    have hCc : ρC "c" (.bv 1) = some (.word 1 1) := by simp [hC, Assignment.replace, Term.lookupLast]
    have hCx : ρC "x" (.bv 1) = some (.word 1 1) := by simp [hC, Assignment.replace, Term.lookupLast]
    set φ : Term := .app .eq [.var "c" (.bv 1), .var "x" (.bv 1)] with hφ
    have hsort : φ.sort = .bool := by simp [hφ, Term.sort_app, Term.appSort, Fn.isPredicate]
    have hN : ∀ v, Term.replace [(.var "c" (.bv 1), .word 1 v)] φ = .app .eq [.word 1 v, .var "x" (.bv 1)] := by
      intro v
      simp [hφ, Term.replace, Term.lookupLast]
    have hI : ∀ v, Term.replace [(.var "x" (.bv 1), .word 1 v)] φ = .app .eq [.var "c" (.bv 1), .word 1 v] := by
      intro v
      simp [hφ, Term.replace, Term.lookupLast]
    set s₀ := Solver.add {} φ with hs₀
    set n₁ := Solver.add {} (.app .not [Term.replace [(.var "c" (.bv 1), .word 1 0)] φ]) with hn₁
    have h₁ : Checker.preferring [ρA, ρB, ρC] s₀ =
        (s₀, .sat (Model.ofAssignment ρA (s₀.assertions.toList.flatMap Term.vars))) :=
      Checker.preferring_cons_of_model hsA (by simp [hs₀, hφ, Term.eval_eq, hAc, hAx])
    have hf₁ : (Checker.preferring [ρA, ρB, ρC] n₁).2 =
        .sat (Model.ofAssignment ρB (n₁.assertions.toList.flatMap Term.vars)) := by
      rw [show [ρA, ρB, ρC] = [ρA] ++ ρB :: [ρC] from rfl, Checker.preferring_append_of_model]
      · simp [hn₁, hN, Term.eval_eq, hAx]
      · exact hsB
      · simp [hn₁, hN, Term.eval_eq, hBx]
    have hround₁ := cegisRound_of_assignments [.var "c" (.bv 1)] [.var "x" (.bv 1)] hsort hsA hsB h₁ (by simp)
      (by simp [hs₀, hφ]) (by simp) (by simp [hAc, Value.toTerm]) hf₁ (by simp) (by simp [hn₁, hN])
    simp only [List.map_cons, List.map_nil, Term.eval_var, hBx, Option.getD_some, Value.toTerm, hI] at hround₁
    set s₁ := s₀.add (.app .eq [.var "c" (.bv 1), .word 1 1]) with hs₁
    set n₂ := Solver.add {} (.app .not [Term.replace [(.var "c" (.bv 1), .word 1 1)] φ]) with hn₂
    have h₂ : Checker.preferring [ρA, ρB, ρC] s₁ =
        (s₁, .sat (Model.ofAssignment ρC (s₁.assertions.toList.flatMap Term.vars))) := by
      rw [show [ρA, ρB, ρC] = [ρA, ρB] ++ ρC :: [] from rfl, Checker.preferring_append_of_model]
      · simp [hs₁, hs₀, hφ, Term.eval_eq, hAc, hBc]
      · exact hsC
      · simp [hs₁, hs₀, hφ, Term.eval_eq, hCc, hCx]
    have hf₂ : (Checker.preferring [ρA, ρB, ρC] n₂).2 =
        .sat (Model.ofAssignment ρA (n₂.assertions.toList.flatMap Term.vars)) :=
      congrArg Prod.snd (Checker.preferring_cons_of_model hsA (by simp [hn₂, hN, Term.eval_eq, hAx]))
    have hround₂ := cegisRound_of_assignments [.var "c" (.bv 1)] [.var "x" (.bv 1)] hsort hsC hsA h₂ (by simp)
      (by simp [hs₁, hs₀, hφ]) (by simp) (by simp [hCc, Value.toTerm]) hf₂ (by simp) (by simp [hn₂, hN])
    simp only [List.map_cons, List.map_nil, Term.eval_var, hAx, Option.getD_some, Value.toTerm, hI] at hround₂
    set s₂ := s₁.add (.app .eq [.var "c" (.bv 1), .word 1 0]) with hs₂
    have h₃ : Checker.preferring [ρA, ρB, ρC] s₂ = (s₂, .unsat) := by
      rw [Checker.preferring_of_no_model, Checker.exact_of_not_satisfiable]
      · rintro ⟨ρ, -, hall⟩
        simp [hs₂, hs₁, hs₀, Term.eval_eq, -Term.eval_var] at hall
        exact absurd (hall.2.1.symm.trans hall.2.2) (by simp)
      · simp [hs₂, hs₁, hs₀, hφ, Term.eval_eq, hAc, hBc, hCc]
    rw [existsForAllWith_eq_cegisRun hsort, cegisRun_of_next hround₁, cegisRun_of_next hround₂,
      cegisRun_of_done (cegisRound_of_unsat h₃)]
  have hdisj : ∀ c ∈ [Operand.term (.var "c" (.bv 1))], c ∉ [Operand.term (.var "x" (.bv 1))] := by simp
  exact ⟨hrun, hdisj, existsForAllWith_none_no_witness Checker.preferring_keeps Checker.preferring_decides
    Checker.preferring_refutesSoundly Checker.preferring_modelsSoundly hdisj hrun⟩

end SmtSynth
