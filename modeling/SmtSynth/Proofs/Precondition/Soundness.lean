import Mathlib
import SmtSynth.Proofs.Precondition.Candidates
/-!
# Precondition synthesis is sound

Every precondition found (`synthesizeWith_sound`) is a conjunction of at most
as many atoms as the bound on conjunctions allows, each an `Atom` over the
constants of the positive example; it holds at the positive example; and it
implies the formula under every well-sorted assignment.

The rounds are peeled apart by three lemmas: what a round tries
(`mem_roundTries`), what it keeps (`mem_validTries`), and which round's
tries are returned (`mem_firstValid`). Validity comes from the verifier's
unsatisfiable verdict alone (`implies_sound`).
-/

namespace SmtSynth
namespace Precondition

variable {check : Checker}

/-! ## The verifier -/

/-- Facts found unsatisfiable, rightly, are never all true under a
well-sorted assignment. -/
theorem refuted_eval (hunsat : check.RefutesSoundly) {facts : List Term} (h : refuted check facts = true)
    {ρ : Assignment} (hρ : ρ.Sorted) : ¬ ∀ t ∈ facts, t.eval ρ = .bool true := by
  unfold refuted at h
  split at h
  · rename_i hu
    intro hall
    exact hunsat _ hu ⟨ρ, hρ, by simpa using hall⟩
  · cases h

/-- Whether a truth-valued candidate implies a truth-valued formula is
whether the candidate and the formula's negation are found unsatisfiable. -/
theorem implies_eq {φ t : Term} (hφ : φ.sort = .bool) (ht : t.sort = .bool) :
    implies check (.term φ) (.term t) = .ok (refuted check [.app .and [t, .app .not [φ]]]) := by
  have hnot : (Term.app .not [φ]).sort = .bool := by simp [Term.sort_app, Term.appSort, Fn.isPredicate]
  have hand : Operand.connective .and ([t, .app .not [φ]].map .term) =
      .ok (.term (.app .and [t, .app .not [φ]])) :=
    Operand.connective_and_terms (by simp) (by simp [ht, hnot])
  have hsort : (Term.app .and [t, .app .not [φ]]).sort = .bool := by
    simp [Term.sort_app, Term.appSort, Fn.isPredicate]
  simp only [List.map_cons, List.map_nil] at hand
  simp only [implies, Operand.unary_not.2 ⟨φ, Operand.asCondition_term.2 ⟨hφ, rfl⟩, rfl⟩, hand,
    Operand.asCondition_term.2 ⟨hsort, rfl⟩, bind, Except.bind, pure, Except.pure]

/-- A candidate found to imply the formula does so under every well-sorted
assignment. -/
theorem implies_sound (hunsat : check.RefutesSoundly) {φ t : Term} (ht : t.sort = .bool)
    (h : implies check (.term φ) (.term t) = .ok true) :
    ∀ ρ : Assignment, ρ.Sorted → t.eval ρ = .bool true → φ.eval ρ = .bool true := by
  have hφ : φ.sort = .bool := by
    obtain ⟨_, hneg, -⟩ := bind_eq_ok.1 h
    obtain ⟨_, hφ', -⟩ := Operand.unary_not.1 hneg
    exact (Operand.asCondition_term.1 hφ').1
  rw [implies_eq hφ ht, Except.ok.injEq] at h
  intro ρ hρ htrue
  by_contra hfalse
  apply refuted_eval hunsat h hρ
  have hφ' : (φ.eval ρ).asBool = false := by
    rw [← Bool.not_eq_true, Value.asBool_eq_true]
    exact hfalse
  simp [Term.eval_and, htrue, hφ']

/-! ## Rounds -/

/-- Round `0` tries the candidates; a later round `i` tries conjunctions of
`i + 1` of them. -/
theorem mem_roundTries {cands tries : List Operand} {i : Nat} (h : roundTries cands i = .ok tries)
    {P : Operand} (hP : P ∈ tries) :
    (i = 0 ∧ P ∈ cands) ∨ (i ≠ 0 ∧ ∃ combo ∈ tuples cands (i + 1), Operand.connective .and combo = .ok P) := by
  unfold roundTries at h
  split at h
  · rename_i hi
    simp only [pure, Except.pure, Except.ok.injEq] at h
    subst h
    exact .inl ⟨hi, hP⟩
  · rename_i hi
    obtain ⟨combo, hcombo, hconn⟩ := (mem_of_mapM h).1 P hP
    exact .inr ⟨hi, combo, (List.mem_filter.1 hcombo).1, hconn⟩

theorem mem_validTries {formula : Operand} {tries valid : List Operand}
    (h : validTries check formula tries = .ok valid) {P : Operand} (hP : P ∈ valid) :
    P ∈ tries ∧ implies check formula P = .ok true := by
  obtain ⟨c, hc, hbody⟩ := mem_of_filterMapM h P hP
  obtain ⟨b, hb, hbody⟩ := bind_eq_ok.1 hbody
  cases b with
  | true =>
    simp only [↓reduceIte, pure, Except.pure, Except.ok.injEq, Option.some.injEq] at hbody
    subst hbody
    exact ⟨hc, hb⟩
  | false => simp [pure, Except.pure] at hbody

theorem mem_firstValid {formula : Operand} {cands : List Operand} :
    ∀ {rounds : List Nat} {Ps : List Operand}, firstValid check formula cands rounds = .ok Ps →
      ∀ P ∈ Ps, ∃ i ∈ rounds, ∃ tries, roundTries cands i = .ok tries ∧ P ∈ tries ∧
        implies check formula P = .ok true
  | [], Ps, h, P, hP => by
    simp only [firstValid, pure, Except.pure, Except.ok.injEq] at h
    subst h
    cases hP
  | i :: rounds, Ps, h, P, hP => by
    simp only [firstValid] at h
    obtain ⟨tries, htries, h⟩ := bind_eq_ok.1 h
    obtain ⟨valid, hvalid, h⟩ := bind_eq_ok.1 h
    split at h
    · obtain ⟨j, hj, rest⟩ := mem_firstValid h P hP
      exact ⟨j, List.mem_cons_of_mem _ hj, rest⟩
    · simp only [pure, Except.pure, Except.ok.injEq] at h
      subst h
      obtain ⟨hPt, himp⟩ := mem_validTries hvalid hP
      exact ⟨i, List.mem_cons_self, tries, htries, hPt, himp⟩

/-! ## Soundness -/

/-- Every precondition found is a conjunction of atoms over the positive
example's constants, no more of them than the bound allows; it holds at the
positive example, and implies the formula under every well-sorted
assignment. -/
theorem synthesizeWith_sound (hunsat : check.RefutesSoundly) (hmodels : check.ModelsSoundly) {φ : Term}
    {positive : Table} {negatives : List Table} {w : Nat} {rounds : Int} {Ps : List Operand}
    (hex : WordExample w positive) (h : synthesizeWith check (.term φ) positive negatives w rounds = .ok Ps) :
    ∀ P ∈ Ps, ∃ t atoms, P = .term t ∧ atoms.length ≤ rounds.toNat ∧
      (atoms = [t] ∨ (2 ≤ atoms.length ∧ t = .app .and atoms)) ∧
      (∀ a ∈ atoms, Atom positive.keys w a) ∧ HoldsAt positive t ∧
      ∀ ρ : Assignment, ρ.Sorted → t.eval ρ = .bool true → φ.eval ρ = .bool true := by
  obtain ⟨cands, hcands, h⟩ := bind_eq_ok.1 h
  have hgood := candidates_atoms hmodels hex hcands
  intro P hP
  obtain ⟨i, hi, tries, htries, hPt, himp⟩ := mem_firstValid h P hP
  have hround : i + 1 ≤ rounds.toNat := List.mem_range.1 hi
  rcases mem_roundTries htries hPt with ⟨rfl, hPc⟩ | ⟨hi0, combo, hcombo, hconn⟩
  · obtain ⟨t, rfl, hsort, hatom, hholds⟩ := hgood P hPc
    exact ⟨t, [t], rfl, by simpa using hround, .inl rfl, by simpa using hatom, hholds,
      implies_sound hunsat hsort himp⟩
  · obtain ⟨hlen, hmem⟩ := mem_tuples hcombo
    obtain ⟨ts, rfl, hts⟩ := Operand.exists_eq_map_term fun c hc => hgood c (hmem c hc)
    have hne : ts ≠ [] := by
      intro hnil
      simp [hnil] at hlen
    rw [Operand.connective_and_terms hne fun t ht => (hts t ht).1] at hconn
    cases hconn
    have hsort : (Term.app .and ts).sort = .bool := by
      obtain ⟨t, rest, rfl⟩ := List.exists_cons_of_ne_nil hne
      simp [Term.sort_app, Term.appSort, Fn.isPredicate]
    have hholds : HoldsAt positive (.app .and ts) := by
      intro ρ hagree
      rw [Term.eval_and]
      simp only [Value.bool.injEq, List.all_eq_true]
      exact fun t ht => Value.asBool_eq_true.2 ((hts t ht).2.2 ρ hagree)
    simp only [List.length_map] at hlen
    exact ⟨_, ts, rfl, by omega, .inr ⟨by omega, rfl⟩, fun a ha => (hts a ha).2.1, hholds,
      implies_sound hunsat hsort himp⟩

end Precondition
end SmtSynth
