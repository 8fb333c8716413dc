import Mathlib
import SmtSynth.Proofs.Synthesis.Chains
import SmtSynth.Proofs.Precondition.Sketches
/-!
# One-step equations

`solveEqWith check op val target w` asks the checker for a `w`-bit constant
`x` with `val op x = target`, `op` a sum or a difference, and answers with
the model's value of `x`. On words the step is one to one, so the equation
has exactly one root: `target - val` for a sum and `val - target` for a
difference, both modulo `2 ^ w` (`step_eval_eq_iff`).

The root makes the query satisfiable, so a checker that always answers, with
right models and refutations, finds a model; one that leaves a constant out
of a model only when its value does not matter (`Checker.OmitsOnlyFree`)
must list `x`, as `0` and `1` are not both roots. So the answer is the root,
never the host's `None` (`solveEqWith_root`, `solveEqWith_eq_roots`).
-/

namespace SmtSynth

/-- The integer a word value stands for: a host integer itself, a numeral
its residue. -/
def Operand.wordInt : Operand → Int
  | .int n => n
  | .term (.word _ v) => v
  | _ => 0

theorem Operand.IsWordValue.cast_eq {w : Nat} {a : Operand} (h : a.IsWordValue w) :
    a.cast (.bv w) = .ok (Term.ofInt w a.wordInt) := by
  cases h with
  | int n => rfl
  | @word v hv =>
    show Except.ok (Term.word w v) = .ok (.word w (Word.wrap w v))
    rw [Word.wrap_of_lt hv]

/-! ## The equation and its root -/

section Step

variable {w : Nat} {o : BinOp}

/-- The step from `a` by `x` reaches `b` exactly when `x` is the root
`s * (b - a)`, `s` the sign of the step. -/
theorem step_eval_eq_iff (ho : o = .add ∨ o = .sub) {ρ : Assignment} {y : Nat} (hy : y < 2 ^ w)
    (hx : (Term.var "x" (.bv w)).eval ρ = .word w y) (a b : Int) :
    (Term.app o.fn [Term.ofInt w a, .var "x" (.bv w)]).eval ρ = (Term.ofInt w b).eval ρ ↔
      y = Word.wrap w (o.sign * (b - a)) := by
  rw [Term.ofInt_eq_word, Term.ofInt_eq_word,
    Sketch.eval_join_word ho (Term.sort_word w _) (Term.eval_word ρ w _) hx, Term.eval_word, Value.word.injEq,
    Word.wrap_wrap_add, Word.wrap_add_mul_eq_iff o.sign_mul_self hy]
  simp

variable {op : String} {val target : Operand}

/-- The query of `solveEqWith` for word values: one assertion that holds
exactly where the step from the value by `x` reaches the target, answered
with the model's value of `x` when there is a model. -/
theorem solveEqWith_of_sat (check : Checker) (hw : 1 ≤ w) (hop : stepOp? op = some o) (hval : val.IsWordValue w)
    (htarget : target.IsWordValue w) :
    ∃ g : Term, (∀ ρ, g.eval ρ = .bool true ↔
        (Term.app o.fn [Term.ofInt w val.wordInt, .var "x" (.bv w)]).eval ρ = (Term.ofInt w target.wordInt).eval ρ) ∧
      ∀ m, (check (Solver.add {} g)).2 = .sat m →
        solveEqWith check op val target w = m.read (.term (.var "x" (.bv w))) := by
  obtain ⟨hoas, -⟩ := stepOp?_eq_some hop
  have hsort : (Term.ofInt w val.wordInt).sort = .bv w := by rw [Term.ofInt_eq_word, Term.sort_word]
  have hes : (Term.app o.fn [Term.ofInt w val.wordInt, .var "x" (.bv w)]).sort = .bv w := by
    rw [sort_join hoas, hsort]
  obtain ⟨g, hg, hgb, hiff⟩ := eq_condition (hes ▸ htarget.cast_eq) (by rw [hes, Term.ofInt_eq_word, Term.sort_word])
  refine ⟨g, hiff, fun m hm => ?_⟩
  have hx : Term.bvConst "x" (w : Int) = .ok (.var "x" (.bv w)) := by
    rw [Term.bvConst, Precondition.ofWidth_pos (by omega : 0 < w)]
    rfl
  have hlhs : Operand.binary o val (.term (.var "x" (.bv w))) =
      .ok (.term (.app o.fn [Term.ofInt w val.wordInt, .var "x" (.bv w)])) :=
    Operand.binary_step hoas (Term.sort_var "x" (.bv w)) hval.cast_eq hsort
  rw [solveEqWith, hx, ok_bind]
  simp only [hop]
  rw [hlhs, ok_bind, hg, ok_bind, Operand.asCondition_term.2 ⟨hgb, rfl⟩, ok_bind, hm]

variable {check : Checker}

/-- A one-step equation between word values, put to a checker that always
answers, with right models and refutations, that leaves a constant out of a
model only when its value does not matter, is answered with its root
`s * (target - val)` modulo `2 ^ w`, `s` the sign of the step. -/
theorem solveEqWith_root (hdec : check.Decides) (hunsat : check.RefutesSoundly) (hmodels : check.ModelsSoundly)
    (hfree : check.OmitsOnlyFree) (hw : 1 ≤ w) (hop : stepOp? op = some o) (hval : val.IsWordValue w)
    (htarget : target.IsWordValue w) :
    solveEqWith check op val target w = .ok (.term (Term.ofInt w (o.sign * (target.wordInt - val.wordInt)))) := by
  obtain ⟨hoas, -⟩ := stepOp?_eq_some hop
  obtain ⟨g, hiff, hread⟩ := solveEqWith_of_sat check hw hop hval htarget
  have hroots : ∀ ρ : Assignment, ∀ y, y < 2 ^ w → (Term.var "x" (.bv w)).eval ρ = .word w y →
      (g.eval ρ = .bool true ↔ y = Word.wrap w (o.sign * (target.wordInt - val.wordInt))) :=
    fun ρ y hy hx => (hiff ρ).trans (step_eval_eq_iff hoas hy hx _ _)
  have hsat : Satisfiable (Solver.add {} g).assertions.toList := by
    have hlt := Word.wrap_lt (w := w) (o.sign * (target.wordInt - val.wordInt))
    refine ⟨_, Assignment.sorted_none.replace_word "x" hlt, ?_⟩
    simp only [Solver.add_empty_toList, List.mem_singleton, forall_eq]
    exact (hroots _ _ hlt ((Assignment.eval_replace_self _ _ _ _).trans (Term.eval_word _ _ _))).2 rfl
  obtain ⟨m, hm⟩ := (Checker.sat_iff hdec hunsat hmodels _).2 hsat
  obtain ⟨hsorted, htrue⟩ := hmodels _ m hm
  have hg : g.eval m.assignment = .bool true := htrue g (by simp)
  rw [hread m hm]
  cases hx : m.get? (.var "x" (.bv w)) with
  | some v =>
    obtain ⟨y, hy, rfl⟩ := (hsorted "x" (.bv w) v hx).eq_word
    have hxv : (Term.var "x" (.bv w)).eval m.assignment = .word w y := by simp [Model.assignment, hx]
    simp [Model.read, hx, Value.toTerm, Term.ofInt_eq_word, (hroots _ y hy hxv).1 hg]
  | none =>
    -- were `x` left out, every word would be a root, `0` and `1` among them
    exfalso
    have hany : ∀ y, y < 2 ^ w → y = Word.wrap w (o.sign * (target.wordInt - val.wordInt)) := by
      intro y hy
      have hagree : ∀ n' s', Term.var n' s' ≠ .var "x" (.bv w) →
          m.assignment.replace [(.var "x" (.bv w), .word w y)] n' s' = m.assignment n' s' :=
        fun n' s' hne => Assignment.replace_other _ _ hne
      have htrue' := hfree _ m "x" (.bv w) hm hx _ (hsorted.replace_word "x" hy) hagree g (by simp)
      exact (hroots _ y hy ((Assignment.eval_replace_self _ _ _ _).trans (Term.eval_word _ _ _))).1 htrue'
    have h0 := hany 0 (Nat.two_pow_pos w)
    have h1 := hany 1 (Nat.one_lt_two_pow (by omega))
    omega

end Step

/-- For a sum and for a difference: `val + x = target` has the root
`target - val` and `val - x = target` the root `val - target`, both modulo
`2 ^ w`, and each is the answer. -/
theorem solveEqWith_eq_roots {check : Checker} (hdec : check.Decides) (hunsat : check.RefutesSoundly)
    (hmodels : check.ModelsSoundly) (hfree : check.OmitsOnlyFree) {w : Nat} (hw : 1 ≤ w) {val target : Operand}
    (hval : val.IsWordValue w) (htarget : target.IsWordValue w) :
    solveEqWith check "+" val target w = .ok (.term (Term.ofInt w (target.wordInt - val.wordInt))) ∧
      solveEqWith check "-" val target w = .ok (.term (Term.ofInt w (val.wordInt - target.wordInt))) := by
  constructor
  · rw [solveEqWith_root hdec hunsat hmodels hfree hw rfl hval htarget]
    simp [BinOp.sign]
  · rw [solveEqWith_root hdec hunsat hmodels hfree hw rfl hval htarget]
    simp [BinOp.sign]

/-- `3 + x = 1` and `3 - x = 1` at width `4`: the roots `14` and `2`. -/
theorem roots_of_three_and_one :
    Checker.exact.Decides ∧ Checker.exact.RefutesSoundly ∧ Checker.exact.ModelsSoundly ∧
      Checker.exact.OmitsOnlyFree ∧ 1 ≤ 4 ∧ (Operand.int 3).IsWordValue 4 ∧ (Operand.term (.word 4 1)).IsWordValue 4 ∧
      solveEqWith Checker.exact "+" (.int 3) (.term (.word 4 1)) 4 =
          .ok (.term (Term.ofInt 4 ((Operand.term (.word 4 1)).wordInt - (Operand.int 3).wordInt))) ∧
        solveEqWith Checker.exact "-" (.int 3) (.term (.word 4 1)) 4 =
          .ok (.term (Term.ofInt 4 ((Operand.int 3).wordInt - (Operand.term (.word 4 1)).wordInt))) :=
  ⟨Checker.exact_decides, Checker.exact_refutesSoundly, Checker.exact_modelsSoundly, Checker.exact_omitsOnlyFree,
    by norm_num, .int 3, .word (by norm_num),
    solveEqWith_eq_roots Checker.exact_decides Checker.exact_refutesSoundly Checker.exact_modelsSoundly
      Checker.exact_omitsOnlyFree (by norm_num) (.int 3) (.word (by norm_num))⟩

/-- At depth two, with `c = 1` at two bits, the target `3` is not `c`, so
`c + x = 3` and `c - x = 3` are solved, both at `x = 2`, and the sketch
`c + c` answers `2` at the last level: two chains of one step each, with the
leaf in parentheses. -/
theorem chains_through_solved_step :
    inductiveSynthesisWith Checker.exact id (.term (.app .add [.var "c" (.bv 2), .var "c" (.bv 2)])) []
        (Table.ofTerms [(.var "c" (.bv 2), .int 1)]) (.int 3) 2 2 =
      .ok [.text "c + (c + c)", .text "c - (c + c)"] ∧
    ∀ item ∈ [Found.text "c + (c + c)", .text "c - (c + c)"],
      Chained Checker.exact id (.term (.app .add [.var "c" (.bv 2), .var "c" (.bv 2)])) [] 2
        [(.var "c" (.bv 2), .int 1)] 2 (.int 3) item := by
  have hrun : inductiveSynthesisWith Checker.exact id (.term (.app .add [.var "c" (.bv 2), .var "c" (.bv 2)])) []
      (Table.ofTerms [(.var "c" (.bv 2), .int 1)]) (.int 3) 2 2 =
      .ok [.text "c + (c + c)", .text "c - (c + c)"] := by
    obtain ⟨hplus, hminus⟩ := solveEqWith_eq_roots Checker.exact_decides Checker.exact_refutesSoundly
      Checker.exact_modelsSoundly Checker.exact_omitsOnlyFree (show 1 ≤ 2 by norm_num) (.int 1) (.int 3)
    have hroot₁ : Term.ofInt 2 ((Operand.int 3).wordInt - (Operand.int 1).wordInt) = .word 2 2 := rfl
    have hroot₂ : Term.ofInt 2 ((Operand.int 1).wordInt - (Operand.int 3).wordInt) = .word 2 2 := rfl
    rw [hroot₁] at hplus
    rw [hroot₂] at hminus
    have hc : Operand.ClosedWord 2 (.int 1) (.word 2 1) :=
      ⟨rfl, Term.sort_word 2 1, Term.vars_word 2 1, fun _ => by simp [Value.HasSort]⟩
    have h : Enumerable 2 [] [(.var "c" (.bv 2), .int 1)] :=
      { keys := by simp
        values := by simpa using ⟨_, hc⟩
        nodup := by simp
        inputs := by simp
        inputs_nodup := List.nodup_nil
        disjoint := by simp }
    have hleaf : enumerateWith Checker.exact id (.term (.app .add [.var "c" (.bv 2), .var "c" (.bv 2)])) []
        (Table.ofTerms [(.var "c" (.bv 2), .int 1)]) (.term (.word 2 2)) 2 = .ok [.app .add [.var "c" (.bv 2), .var "c" (.bv 2)]] := by
      have hsort : (Term.app .add [.var "c" (.bv 2), .var "c" (.bv 2)]).sort = .bv 2 := by
        simp [Term.sort_app, Term.appSort, Fn.isPredicate]
      have hT : (Operand.term (.word 2 2)).cast (Term.app .add [.var "c" (.bv 2), .var "c" (.bv 2)]).sort =
          .ok (.word 2 2) := by
        rw [hsort]
        rfl
      have hrun := enumerateWith_eq_admitted Checker.exact_decides Checker.exact_refutesSoundly
        Checker.exact_modelsSoundly id (by norm_num) h (.app .add [.var "c" (.bv 2), .var "c" (.bv 2)]) hT
        (by rw [hsort, Term.sort_word])
      simp only [List.map_nil, Nat.cast_ofNat] at hrun
      rw [hrun]
      have hcombos : combos 2 [] [Term.var "c" (.bv 2)] = [([], [.var "c" (.bv 2)])] := by
        simp [combos, tuples, orderings_cons, picks]
      have hrep : Term.replace ([].zip [] ++ [Term.var "c" (.bv 2)].zip [.var "c" (.bv 2)])
          (.app .add [.var "c" (.bv 2), .var "c" (.bv 2)]) = .app .add [.var "c" (.bv 2), .var "c" (.bv 2)] := by
        simp [Term.replace, Term.lookupLast]
      have hadm : Admitted 2 [(.var "c" (.bv 2), .int 1)] (.app .add [.var "c" (.bv 2), .var "c" (.bv 2)]) (.word 2 2) := by
        refine ⟨Assignment.replace (fun _ _ => none) [(.var "c" (.bv 2), .word 2 1)],
          Assignment.sorted_none.replace_word "c" (by norm_num), ?_, ?_⟩
        · intro q hq V hV
          rw [List.mem_singleton.1 hq] at hV ⊢
          rw [← hc.unique hV]
          simp [Assignment.replace, Term.lookupLast]
        · simp [Term.eval_app, Term.apply, Term.evalSort, Term.wordBinary, Assignment.replace, Term.lookupLast, Value.asNat]
          rfl
      simp only [List.map_cons, List.map_nil, hcombos, List.filter_cons, List.filter_nil, hrep, hadm, decide_true,
        if_true, id]
    have htext : (Term.app .add [.var "c" (.bv 2), .var "c" (.bv 2)]).toText = "c + c" := by
      simp [Term.toText, Readable.render.eq_def, Readable.operands.eq_def, Readable.maxDepth, Readable.form,
        Readable.leafText, Readable.capArgs, Readable.maxArgs]
    rw [inductiveSynthesisWith, show depthBudget = 989 + 1 from rfl, inductWith, if_neg (by norm_num)]
    have hne : Operand.holdsEq (.int 1) (.int 3) = .ok false := rfl
    simp only [Nat.cast_ofNat] at hplus hminus
    simp only [Table.ofTerms, List.map_cons, List.map_nil] at hleaf
    simp only [Table.ofTerms, List.map_cons, List.map_nil, List.flatMapM, List.flatMapM.loop, joinOps, hne, hplus,
      hminus, (Operand.IsWordValue.word (show 2 < 2 ^ 2 by norm_num)).holdsEq_none, show (2 : Int) - 1 = 1 from rfl,
      inductWith_one, hleaf, ok_bind, Bool.false_eq_true, if_false]
    simp only [pure_bind, List.map_cons, List.map_nil, Function.comp_apply, List.reverse_cons, List.reverse_nil,
      List.flatten_cons, List.flatten_nil, List.nil_append, List.cons_append, List.append_nil]
    have hctext : (Term.var "c" (.bv 2)).toText = "c" := by
      simp [Term.toText, Readable.render.eq_def, Readable.maxDepth, Readable.leafText]
    simp [Found.join, Table.contains, Operand.hostText, htext, hctext, pure, Except.pure]
  have hcs : NumeralTable 2 [(.var "c" (.bv 2), .int 1)] :=
    { keys := by simp
      values := by
        intro p hp
        rw [List.mem_singleton.1 hp]
        exact .int 1
      nodup := by simp }
  exact ⟨hrun, inductiveSynthesisWith_chains Checker.exact_modelsSoundly keepsMeaning_id _ _ hcs (.int 3)
    (by norm_num) hrun⟩

end SmtSynth
