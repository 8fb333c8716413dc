import Mathlib
import SmtSynth.Proofs.Terms
import SmtSynth.Solve.Solver
/-!
# Decision procedures, and what the synthesis procedures assume of them

The synthesis procedures take the solver's checks as given, so every theorem
about them is stated for any decision procedure `check : Checker` with the
properties it needs, each stated apart: a check keeps the assertions
(`Checker.Keeps`), an unsatisfiable verdict is right
(`Checker.RefutesSoundly`), a model is a well-sorted assignment under which
every assertion holds (`Checker.ModelsSoundly`), and there is always a verdict
(`Checker.Decides`). Satisfiability is over well-sorted assignments: a word of
width `w` below `2 ^ w`, a truth value for a truth-valued constant. A model
may leave a constant out; `Checker.OmitsOnlyFree` asks that it does so only
when any value of the constant's sort keeps the assertions true.

`Checker.exact` answers every check right, and has all five properties.
-/

namespace SmtSynth

/-- Whether a value is one of the values of a sort. -/
def Value.HasSort : Value → TermSort → Prop
  | .bool _, .bool => True
  | .int _, .int => True
  | .word w v, .bv w' => w = w' ∧ v < 2 ^ w
  | _, _ => False

theorem Value.hasSort_default (s : TermSort) : (Value.default s).HasSort s := by
  cases s <;> simp [Value.default, Value.HasSort]

theorem Value.HasSort.eq_word {v : Value} {w : Nat} (h : v.HasSort (.bv w)) : ∃ y, y < 2 ^ w ∧ v = .word w y := by
  cases v with
  | word w' y =>
    obtain ⟨rfl, hlt⟩ := h
    exact ⟨y, hlt, rfl⟩
  | _ => simp [Value.HasSort] at h

theorem Value.HasSort.sort_toTerm {v : Value} {s : TermSort} (h : v.HasSort s) : v.toTerm.sort = s := by
  cases v <;> cases s <;> simp_all [Value.HasSort, Value.toTerm, Term.sort]

/-- An assignment gives each named constant it assigns a value of its sort. -/
def Assignment.Sorted (ρ : Assignment) : Prop :=
  ∀ n s v, ρ n s = some v → v.HasSort s

theorem Assignment.Sorted.eval_var {ρ : Assignment} (hρ : ρ.Sorted) (n : String) (s : TermSort) :
    ((Term.var n s).eval ρ).HasSort s := by
  rw [Term.eval_var]
  cases h : ρ n s with
  | none => exact Value.hasSort_default s
  | some v => exact hρ n s v h

theorem Assignment.sorted_none : Assignment.Sorted fun _ _ => none := fun _ _ _ h => by cases h

/-- Putting in values of the constants' own sorts keeps an assignment well
sorted. -/
theorem Assignment.Sorted.replace {ρ : Assignment} {ps : List (Term × Term)} (hρ : ρ.Sorted)
    (hps : ∀ p ∈ ps, ∃ n s, p.1 = .var n s ∧ (p.2.eval ρ).HasSort s) :
    (ρ.replace ps).Sorted := by
  intro n s v hv
  simp only [Assignment.replace] at hv
  split at hv
  · rename_i r hl
    obtain ⟨n', s', h1, h2⟩ := hps _ (Term.lookupLast_mem hl)
    simp only [Term.var.injEq] at h1
    obtain ⟨rfl, rfl⟩ := h1
    rw [Option.some.injEq] at hv
    exact hv ▸ h2
  · exact hρ n s v hv

/-- Terms that one well-sorted assignment makes all true. -/
def Satisfiable (facts : List Term) : Prop :=
  ∃ ρ : Assignment, ρ.Sorted ∧ ∀ t ∈ facts, t.eval ρ = .bool true

@[simp] theorem Solver.add_assertions (s : Solver) (t : Term) :
    (s.add t).assertions = s.assertions.push t := rfl

@[simp] theorem Solver.empty_assertions : ({} : Solver).assertions = #[] := rfl

@[simp] theorem Solver.add_empty_toList (t : Term) : (Solver.add {} t).assertions.toList = [t] := rfl

@[simp] theorem Solver.foldl_add_toList (facts : List Term) (s : Solver) :
    (facts.foldl Solver.add s).assertions.toList = s.assertions.toList ++ facts := by
  induction facts generalizing s with
  | nil => simp
  | cons t facts ih => simp [ih]

namespace Checker

/-- A check leaves the assertions as they were. -/
def Keeps (check : Checker) : Prop :=
  ∀ s, (check s).1.assertions = s.assertions

/-- An unsatisfiable verdict is only given to assertions that no well-sorted
assignment makes all true. -/
def RefutesSoundly (check : Checker) : Prop :=
  ∀ s, (check s).2 = .unsat → ¬ Satisfiable s.assertions.toList

/-- A model is a well-sorted assignment that makes every assertion true;
constants it does not list take the default values of their sorts. -/
def ModelsSoundly (check : Checker) : Prop :=
  ∀ s m, (check s).2 = .sat m →
    m.assignment.Sorted ∧ ∀ t ∈ s.assertions.toList, t.eval m.assignment = .bool true

/-- Every check ends in a model or in unsatisfiability. -/
def Decides (check : Checker) : Prop :=
  ∀ s, (check s).2 ≠ .unknown

/-- A model leaves a constant out only when the assertions hold under every
well-sorted assignment that agrees with the model on the other constants. -/
def OmitsOnlyFree (check : Checker) : Prop :=
  ∀ s m n srt, (check s).2 = .sat m → m.get? (.var n srt) = none →
    ∀ ρ : Assignment, ρ.Sorted → (∀ n' s', Term.var n' s' ≠ .var n srt → ρ n' s' = m.assignment n' s') →
      ∀ t ∈ s.assertions.toList, t.eval ρ = .bool true

/-- Under a right unsatisfiable verdict on one assertion, no well-sorted
assignment makes it true. -/
theorem RefutesSoundly.eval_ne {check : Checker} (h : check.RefutesSoundly) {t : Term}
    (hu : (check (Solver.add {} t)).2 = .unsat) {ρ : Assignment} (hρ : ρ.Sorted) :
    t.eval ρ ≠ .bool true := by
  intro ht
  apply h _ hu
  exact ⟨ρ, hρ, by simpa using ht⟩

/-- A check that always answers, with right models and right refutations,
finds a model exactly when the assertions are satisfiable. -/
theorem sat_iff {check : Checker} (hdec : check.Decides) (hunsat : check.RefutesSoundly)
    (hmodels : check.ModelsSoundly) (s : Solver) :
    (∃ m, (check s).2 = .sat m) ↔ Satisfiable s.assertions.toList := by
  constructor
  · rintro ⟨m, hm⟩
    exact ⟨m.assignment, (hmodels s m hm).1, (hmodels s m hm).2⟩
  · intro hs
    cases hv : (check s).2 with
    | sat m => exact ⟨m, rfl⟩
    | unsat => exact absurd hs (hunsat s hv)
    | unknown => exact absurd hv (hdec s)

end Checker

/-! ## A decision procedure that is always right -/

/-- The model that lists, for each of `xs`, the value `ρ` gives it. -/
def Model.ofAssignment (ρ : Assignment) (xs : List Term) : Model :=
  { entries := (xs.map fun x => (x, x.eval ρ)).toArray }

theorem Model.get?_ofAssignment {ρ : Assignment} {xs : List Term} {x : Term} {v : Value}
    (h : (Model.ofAssignment ρ xs).get? x = some v) : v = x.eval ρ := by
  simp only [Model.get?, Model.ofAssignment, List.find?_toArray, Option.map_eq_some_iff] at h
  obtain ⟨p, hp, rfl⟩ := h
  obtain ⟨y, -, rfl⟩ := List.mem_map.1 (List.mem_of_find?_eq_some hp)
  have hy : y = x := by simpa using List.find?_some hp
  rw [hy]

theorem Model.get?_ofAssignment_of_mem {ρ : Assignment} {xs : List Term} {x : Term} (hx : x ∈ xs) :
    (Model.ofAssignment ρ xs).get? x = some (x.eval ρ) := by
  cases h : (Model.ofAssignment ρ xs).get? x with
  | some v => rw [Model.get?_ofAssignment h]
  | none =>
    simp only [Model.get?, Model.ofAssignment, List.find?_toArray, Option.map_eq_none_iff,
      List.find?_eq_none] at h
    exact absurd (beq_self_eq_true x) (by simpa using h (x, x.eval ρ) (List.mem_map_of_mem hx))

theorem Model.eval_ofAssignment {ρ : Assignment} {xs : List Term} {t : Term} (ht : ∀ x ∈ t.vars, x ∈ xs) :
    t.eval (Model.ofAssignment ρ xs).assignment = t.eval ρ := by
  apply Term.eval_congr
  intro x hx
  obtain ⟨n, s, rfl⟩ := Term.exists_var_of_mem_vars t hx
  simp [Model.assignment, Model.get?_ofAssignment_of_mem (ht _ hx)]

theorem Model.sorted_ofAssignment {ρ : Assignment} (hρ : ρ.Sorted) (xs : List Term) :
    (Model.ofAssignment ρ xs).assignment.Sorted := by
  intro n s v h
  rw [Model.get?_ofAssignment h]
  exact hρ.eval_var n s

/-- The model of a well-sorted assignment that makes the assertions true,
listing their constants, is a right model. -/
theorem Model.right_ofAssignment {s : Solver} {ρ : Assignment} (hρ : ρ.Sorted)
    (hsat : ∀ t ∈ s.assertions.toList, t.eval ρ = .bool true) :
    (Model.ofAssignment ρ (s.assertions.toList.flatMap Term.vars)).assignment.Sorted ∧
      ∀ t ∈ s.assertions.toList,
        t.eval (Model.ofAssignment ρ (s.assertions.toList.flatMap Term.vars)).assignment = .bool true := by
  refine ⟨Model.sorted_ofAssignment hρ _, fun t ht => ?_⟩
  rw [Model.eval_ofAssignment (fun x hx => List.mem_flatMap.2 ⟨t, ht, hx⟩)]
  exact hsat t ht

/-- Such a model leaves a constant out only when it occurs in no assertion,
so any value of it keeps the assertions true. -/
theorem Model.omitsOnlyFree_ofAssignment {s : Solver} {ρ : Assignment}
    (hsat : ∀ t ∈ s.assertions.toList, t.eval ρ = .bool true) {n : String} {srt : TermSort}
    (hnone : (Model.ofAssignment ρ (s.assertions.toList.flatMap Term.vars)).get? (.var n srt) = none)
    (ρ' : Assignment) (hagree : ∀ n' s', Term.var n' s' ≠ .var n srt →
      ρ' n' s' = (Model.ofAssignment ρ (s.assertions.toList.flatMap Term.vars)).assignment n' s') :
    ∀ t ∈ s.assertions.toList, t.eval ρ' = .bool true := by
  intro t ht
  have htvars : ∀ x ∈ t.vars, x ∈ s.assertions.toList.flatMap Term.vars := fun x hx =>
    List.mem_flatMap.2 ⟨t, ht, hx⟩
  have hsame : ∀ x ∈ t.vars,
      x.eval ρ' = x.eval (Model.ofAssignment ρ (s.assertions.toList.flatMap Term.vars)).assignment := by
    intro x hx
    obtain ⟨n', s', rfl⟩ := Term.exists_var_of_mem_vars t hx
    have hne : Term.var n' s' ≠ .var n srt := by
      rintro heq
      rw [heq] at hx
      rw [Model.get?_ofAssignment_of_mem (htvars _ hx)] at hnone
      cases hnone
    rw [Term.eval_var, Term.eval_var, hagree n' s' hne]
  calc t.eval ρ'
      = t.eval (Model.ofAssignment ρ (s.assertions.toList.flatMap Term.vars)).assignment :=
        Term.eval_congr t hsame
    _ = t.eval ρ := Model.eval_ofAssignment htvars
    _ = .bool true := hsat t ht

open Classical in
/-- The decision procedure that answers every check right: a model of a
well-sorted assignment that makes the assertions true, listing their
constants, or unsatisfiability. -/
noncomputable def Checker.exact : Checker := fun s =>
  if h : Satisfiable s.assertions.toList then
    (s, .sat (Model.ofAssignment (Classical.choose h) (s.assertions.toList.flatMap Term.vars)))
  else (s, .unsat)

namespace Checker

theorem exact_keeps : Checker.exact.Keeps := by
  intro s
  unfold Checker.exact
  split <;> rfl

theorem exact_refutesSoundly : Checker.exact.RefutesSoundly := by
  intro s h
  unfold Checker.exact at h
  split at h
  · cases h
  · assumption

theorem exact_modelsSoundly : Checker.exact.ModelsSoundly := by
  intro s m h
  unfold Checker.exact at h
  split at h
  · rename_i hs
    obtain ⟨hρ, htrue⟩ := Classical.choose_spec hs
    simp only [Verdict.sat.injEq] at h
    subst h
    exact Model.right_ofAssignment hρ htrue
  · cases h

theorem exact_decides : Checker.exact.Decides := by
  intro s h
  unfold Checker.exact at h
  split at h <;> cases h

theorem exact_omitsOnlyFree : Checker.exact.OmitsOnlyFree := by
  intro s m n srt h hnone ρ _ hagree
  unfold Checker.exact at h
  split at h
  · rename_i hs
    simp only [Verdict.sat.injEq] at h
    subst h
    exact Model.omitsOnlyFree_ofAssignment (Classical.choose_spec hs).2 hnone ρ hagree
  · cases h

open Classical in
theorem exact_of_satisfiable {s : Solver} (h : Satisfiable s.assertions.toList) :
    ∃ m, (Checker.exact s).2 = .sat m := by
  simp [Checker.exact, h]

open Classical in
theorem exact_of_not_satisfiable {s : Solver} (h : ¬ Satisfiable s.assertions.toList) :
    Checker.exact s = (s, .unsat) := by
  simp [Checker.exact, h]

end Checker

/-! ## A decision procedure with named models -/

open Classical in
/-- The decision procedure that answers every check right and, when one of
the assignments `ρs` is a well-sorted model of the assertions, answers with
the first such. -/
noncomputable def Checker.preferring (ρs : List Assignment) : Checker := fun s =>
  match ρs.find? fun ρ => decide (ρ.Sorted ∧ ∀ t ∈ s.assertions.toList, t.eval ρ = .bool true) with
  | some ρ => (s, .sat (Model.ofAssignment ρ (s.assertions.toList.flatMap Term.vars)))
  | none => Checker.exact s

namespace Checker

variable {ρs : List Assignment} {ρ : Assignment} {s : Solver}

theorem preferring_nil (s : Solver) : Checker.preferring [] s = Checker.exact s := rfl

open Classical in
theorem preferring_cons_of_model (hρ : ρ.Sorted) (hsat : ∀ t ∈ s.assertions.toList, t.eval ρ = .bool true) :
    Checker.preferring (ρ :: ρs) s = (s, .sat (Model.ofAssignment ρ (s.assertions.toList.flatMap Term.vars))) := by
  have hp : decide (ρ.Sorted ∧ ∀ t ∈ s.assertions.toList, t.eval ρ = .bool true) = true := decide_eq_true ⟨hρ, hsat⟩
  simp only [Checker.preferring, List.find?_cons, hp]

open Classical in
theorem preferring_cons_of_fails {t : Term} (ht : t ∈ s.assertions.toList) (hne : t.eval ρ ≠ .bool true) :
    Checker.preferring (ρ :: ρs) s = Checker.preferring ρs s := by
  have hno : ¬ (ρ.Sorted ∧ ∀ t ∈ s.assertions.toList, t.eval ρ = .bool true) := fun h => hne (h.2 t ht)
  have hp : decide (ρ.Sorted ∧ ∀ t ∈ s.assertions.toList, t.eval ρ = .bool true) = false := decide_eq_false hno
  simp only [Checker.preferring, List.find?_cons, hp]

theorem preferring_append_of_model {pre : List Assignment}
    (hpre : ∀ ρ' ∈ pre, ∃ t ∈ s.assertions.toList, t.eval ρ' ≠ .bool true) (hρ : ρ.Sorted)
    (hsat : ∀ t ∈ s.assertions.toList, t.eval ρ = .bool true) :
    Checker.preferring (pre ++ ρ :: ρs) s =
      (s, .sat (Model.ofAssignment ρ (s.assertions.toList.flatMap Term.vars))) := by
  induction pre with
  | nil => exact preferring_cons_of_model hρ hsat
  | cons ρ' pre ih =>
    obtain ⟨t, ht, hne⟩ := hpre ρ' List.mem_cons_self
    rw [List.cons_append, preferring_cons_of_fails ht hne]
    exact ih fun ρ'' h => hpre ρ'' (List.mem_cons_of_mem _ h)

theorem preferring_of_no_model (hall : ∀ ρ' ∈ ρs, ∃ t ∈ s.assertions.toList, t.eval ρ' ≠ .bool true) :
    Checker.preferring ρs s = Checker.exact s := by
  induction ρs with
  | nil => rfl
  | cons ρ' ρs ih =>
    obtain ⟨t, ht, hne⟩ := hall ρ' List.mem_cons_self
    rw [preferring_cons_of_fails ht hne]
    exact ih fun ρ'' h => hall ρ'' (List.mem_cons_of_mem _ h)

open Classical in
/-- What the decision procedure answers: the first listed model, or the
exact answer. -/
theorem preferring_cases (ρs : List Assignment) (s : Solver) :
    (∃ ρ, ρ.Sorted ∧ (∀ t ∈ s.assertions.toList, t.eval ρ = .bool true) ∧
      Checker.preferring ρs s = (s, .sat (Model.ofAssignment ρ (s.assertions.toList.flatMap Term.vars)))) ∨
    Checker.preferring ρs s = Checker.exact s := by
  unfold Checker.preferring
  split
  · rename_i ρ hfind
    have hp := List.find?_some hfind
    obtain ⟨hρ, hsat⟩ := of_decide_eq_true hp
    exact .inl ⟨ρ, hρ, hsat, rfl⟩
  · exact .inr rfl

theorem preferring_keeps : (Checker.preferring ρs).Keeps := by
  intro s
  rcases preferring_cases ρs s with ⟨ρ, -, -, h⟩ | h <;> rw [h]
  exact exact_keeps s

theorem preferring_refutesSoundly : (Checker.preferring ρs).RefutesSoundly := by
  intro s hu
  rcases preferring_cases ρs s with ⟨ρ, -, -, h⟩ | h <;> rw [h] at hu
  · cases hu
  · exact exact_refutesSoundly s hu

theorem preferring_modelsSoundly : (Checker.preferring ρs).ModelsSoundly := by
  intro s m hm
  rcases preferring_cases ρs s with ⟨ρ, hρ, hsat, h⟩ | h <;> rw [h] at hm
  · cases hm
    exact Model.right_ofAssignment hρ hsat
  · exact exact_modelsSoundly s m hm

theorem preferring_decides : (Checker.preferring ρs).Decides := by
  intro s hv
  rcases preferring_cases ρs s with ⟨ρ, -, -, h⟩ | h <;> rw [h] at hv
  · cases hv
  · exact exact_decides s hv

theorem preferring_omitsOnlyFree : (Checker.preferring ρs).OmitsOnlyFree := by
  intro s m n srt hm hnone ρ' hρ' hagree
  rcases preferring_cases ρs s with ⟨ρ, -, hsat, h⟩ | h <;> rw [h] at hm
  · cases hm
    exact Model.omitsOnlyFree_ofAssignment hsat hnone ρ' hagree
  · exact exact_omitsOnlyFree s m n srt hm hnone ρ' hρ' hagree

end Checker

end SmtSynth
