import Mathlib
import SmtSynth.Proofs.Cegis.Rounds
/-!
# Counterexample-guided synthesis over finite sorts takes few rounds

When every exists constant is a truth value or a word, and every constant of
the formula is an exists or a for-all constant, the search ends (with values,
with none, or with a fault) within one round more than there are assignments
of the exists constants (`existsForAllWith_rounds_bounded`).

Each round that goes on adds the formula with the for-all constants set to a
counter-model's numerals; that instance is false wherever the exists
constants take the values of the round's candidate
(`eval_instance_ne_of_agree`), so the candidate is ruled out for good, while
every candidate a model gives is one not ruled out yet. The candidates not
ruled out (`openCandidates`) are then a measure that every round lowers.
-/

namespace SmtSynth

/-! ## Finitely many values -/

/-- The values of a sort with finitely many: both truth values, or every word
of the width. An integer sort has infinitely many, and none are listed. -/
def TermSort.values : TermSort → List Value
  | .bool => [.bool false, .bool true]
  | .bv w => (List.range (2 ^ w)).map (.word w)
  | .int => []

@[simp] theorem TermSort.length_values_bv (w : Nat) : (TermSort.bv w).values.length = 2 ^ w := by
  simp [TermSort.values]

theorem TermSort.mem_values {v : Value} {s : TermSort} (hv : v.HasSort s) (hs : s ≠ .int) :
    v ∈ s.values := by
  match v, s, hv with
  | .bool b, .bool, _ => cases b <;> simp [TermSort.values]
  | .word w n, .bv _, ⟨rfl, hn⟩ => simp [TermSort.values, hn]
  | .int _, .int, _ => exact absurd rfl hs

/-- The number of ways to give each of the constants `xs`, duplicates merged,
a value of its sort. -/
def assignmentCount (xs : List Term) : Nat :=
  (xs.dedup.map fun x => x.sort.values.length).prod

example : assignmentCount [.var "c" (.bv 2), .var "b" .bool, .var "c" (.bv 2)] = 8 := by
  simp [assignmentCount, TermSort.values]

theorem length_sections {α : Type} (L : List (List α)) : L.sections.length = (L.map List.length).prod := by
  induction L with
  | nil => simp [List.sections]
  | cons l L ih => simp [List.sections, List.length_flatMap, ih, mul_comm]

/-! ## Candidates ruled out -/

/-- An assertion of `s` is false wherever the constants `K` take the values
`c`. -/
def Excludes (K : List Term) (s : Solver) (c : List Value) : Prop :=
  ∃ t ∈ s.assertions.toList, ∀ ρ : Assignment, K.map (·.eval ρ) = c → t.eval ρ ≠ .bool true

theorem Excludes.mono {K : List Term} {s s' : Solver} {c : List Value}
    (hs : ∀ t ∈ s.assertions.toList, t ∈ s'.assertions.toList) (h : Excludes K s c) : Excludes K s' c := by
  obtain ⟨t, ht, hne⟩ := h
  exact ⟨t, hs t ht, hne⟩

theorem not_excludes_of_model {K : List Term} {s : Solver} {ρ : Assignment}
    (hρ : ∀ t ∈ s.assertions.toList, t.eval ρ = .bool true) : ¬ Excludes K s (K.map (·.eval ρ)) := by
  rintro ⟨t, ht, hne⟩
  exact hne ρ rfl (hρ t ht)

open Classical in
/-- How many assignments of the constants `xs` the candidate conditions `s`
have not ruled out yet. -/
noncomputable def openCandidates (xs : List Term) (s : Solver) : Nat :=
  ((xs.dedup.map (·.sort.values)).sections.filter fun c => ¬ Excludes xs.dedup s c).length

theorem openCandidates_le (xs : List Term) (s : Solver) : openCandidates xs s ≤ assignmentCount xs := by
  unfold openCandidates assignmentCount
  calc _ ≤ (xs.dedup.map (·.sort.values)).sections.length := List.length_filter_le _ _
    _ = _ := by rw [length_sections, List.map_map]; rfl

/-- Ruling out one more candidate, and keeping those ruled out, lowers the
count of open ones. -/
theorem openCandidates_lt {xs : List Term} {s s' : Solver} {c : List Value}
    (hmono : ∀ c, Excludes xs.dedup s c → Excludes xs.dedup s' c)
    (hc : c ∈ (xs.dedup.map (·.sort.values)).sections) (hopen : ¬ Excludes xs.dedup s c)
    (hshut : Excludes xs.dedup s' c) : openCandidates xs s' < openCandidates xs s := by
  classical
  unfold openCandidates
  have hsub : List.Sublist ((xs.dedup.map (·.sort.values)).sections.filter fun c => ¬ Excludes xs.dedup s' c)
      ((xs.dedup.map (·.sort.values)).sections.filter fun c => ¬ Excludes xs.dedup s c) := by
    apply List.monotone_filter_right
    intro c hc
    simp only [decide_eq_true_eq] at hc ⊢
    exact fun hs => hc (hmono c hs)
  apply lt_of_le_of_ne hsub.length_le
  intro heq
  have hin : c ∈ (xs.dedup.map (·.sort.values)).sections.filter fun c => ¬ Excludes xs.dedup s c :=
    List.mem_filter.2 ⟨hc, by simpa using hopen⟩
  rw [← hsub.eq_of_length heq, List.mem_filter] at hin
  simp only [decide_not, Bool.not_eq_eq_eq_not, Bool.not_true, decide_eq_false_iff_not] at hin
  exact hin.2 hshut

/-! ## One round rules out its candidate -/

section Round

variable {check : Checker} {φ : Term} {xs : List Term} {fa : List Operand}

/-- The instance a round adds is false wherever the exists constants take the
values the round's model gave them: there it evaluates as the refuted formula
does under the counter-model. -/
theorem eval_instance_ne_of_agree {m fm : Model} {ps τ : List (Term × Term)}
    (hvars : ∀ x ∈ φ.vars, x ∈ xs ∨ .term x ∈ fa) (hdisj : ∀ x ∈ xs, .term x ∉ fa)
    (hps : m.Reads (xs.map .term) ps) (hτ : fm.Reads fa τ)
    (hrefuted : (Term.replace ps φ).eval fm.assignment ≠ .bool true)
    {ρ : Assignment} (hagree : ∀ x ∈ xs, x.eval ρ = x.eval m.assignment) :
    (Term.replace τ φ).eval ρ ≠ .bool true := by
  rw [Term.eval_replace hτ.sortedPairs]
  rw [Term.eval_replace hps.sortedPairs] at hrefuted
  convert hrefuted using 1
  apply Term.eval_congr
  intro x hx
  obtain ⟨n, s, rfl⟩ := Term.exists_var_of_mem_vars φ hx
  rcases hvars _ hx with hex | hfa
  · have hex' : Operand.term (.var n s) ∈ xs.map .term := List.mem_map_of_mem hex
    rw [hps.eval_replace_of_mem _ hex', Term.eval_var, hτ.replace_of_not_mem ρ (hdisj _ hex), ← Term.eval_var,
      hagree _ hex]
  · have hnot : Operand.term (.var n s) ∉ xs.map .term := by
      intro hm
      obtain ⟨y, hy, he⟩ := List.mem_map.1 hm
      cases he
      exact hdisj _ hy hfa
    rw [hτ.eval_replace_of_mem _ hfa, Term.eval_var, Term.eval_var, hps.replace_of_not_mem _ hnot]

/-- The candidate of a well-sorted model is an assignment of values of their
sorts to the exists constants. -/
theorem candidate_mem_sections {m : Model} {ps : List (Term × Term)} (hm : m.assignment.Sorted)
    (hsorts : ∀ x ∈ xs, x.sort ≠ .int) (hps : m.Reads (xs.map .term) ps) :
    xs.dedup.map (·.eval m.assignment) ∈ (xs.dedup.map (·.sort.values)).sections := by
  rw [List.mem_sections, List.forall₂_map_left_iff, List.forall₂_map_right_iff, List.forall₂_same]
  intro x hx
  have hx' := List.mem_dedup.1 hx
  obtain ⟨p, hp, hpx⟩ := hps.covers _ (List.mem_map_of_mem hx')
  obtain ⟨-, n, s, -, h1, -⟩ := hps.reads p hp
  simp only [Operand.term.injEq] at hpx
  have hsort := hsorts x hx'
  rw [hpx, h1, Term.sort_var] at hsort
  rw [hpx, h1, Term.sort_var]
  exact TermSort.mem_values (hm.eval_var n s) hsort

/-- A round that goes on rules out the candidate of its model, which was
open, and keeps ruled out what was. -/
theorem openCandidates_next (hkeeps : check.Keeps) (hmodels : check.ModelsSoundly)
    (hsorts : ∀ x ∈ xs, x.sort ≠ .int) (hvars : ∀ x ∈ φ.vars, x ∈ xs ∨ .term x ∈ fa)
    (hdisj : ∀ x ∈ xs, .term x ∉ fa) {s s' : Solver}
    (h : cegisRound check (.term φ) (xs.map .term) fa s = .ok (.next s')) :
    openCandidates xs s' < openCandidates xs s := by
  obtain ⟨m, ps, fm, τ, hm, hps, hfm, hτ, rfl⟩ := cegisRound_next h
  obtain ⟨hmsorted, hmtrue⟩ := hmodels _ _ hm
  have hgrow : ∀ t ∈ s.assertions.toList, t ∈ ((check s).1.add (Term.replace τ φ)).assertions.toList := by
    intro t ht
    rw [Solver.add_assertions, hkeeps, Array.toList_push]
    exact List.mem_append_left _ ht
  have hrefuted : (Term.replace ps φ).eval fm.assignment ≠ .bool true :=
    (Term.eval_not_eq_true _ _).1 ((hmodels _ _ hfm).2 _ (List.mem_singleton_self _))
  apply openCandidates_lt (fun c => Excludes.mono hgrow) (candidate_mem_sections hmsorted hsorts hps)
    (not_excludes_of_model hmtrue)
  refine ⟨Term.replace τ φ, by simp, fun ρ hρ => ?_⟩
  have hagree : ∀ x ∈ xs, x.eval ρ = x.eval m.assignment := by
    intro x hx
    exact (List.map_inj_left.1 hρ) x (List.mem_dedup.2 hx)
  exact eval_instance_ne_of_agree hvars hdisj hps hτ hrefuted hagree

end Round

/-! ## The bound -/

/-- Over exists constants of finite sorts, with every constant of the formula
an exists or a for-all constant, the search ends within one round more than
there are assignments of the exists constants. -/
theorem existsForAllWith_rounds_bounded {check : Checker} (hkeeps : check.Keeps)
    (hmodels : check.ModelsSoundly) {φ : Term} {xs : List Term} {fa : List Operand}
    (hsorts : ∀ x ∈ xs, x.sort ≠ .int) (hvars : ∀ x ∈ φ.vars, x ∈ xs ∨ .term x ∈ fa)
    (hdisj : ∀ x ∈ xs, .term x ∉ fa) :
    existsForAllWith check (assignmentCount xs + 1) (.term φ) (xs.map .term) fa ≠ .ok none := by
  intro h
  obtain ⟨-, hrun⟩ := existsForAllWith_eq h
  refine cegisRun_ne_none (fun _ => True) (openCandidates xs)
    (fun s s' _ hs => ⟨trivial, openCandidates_next hkeeps hmodels hsorts hvars hdisj hs⟩)
    _ _ trivial ?_ hrun
  exact Nat.lt_succ_of_le (openCandidates_le xs _)

/-- Values of a 2-bit `c` equal to every 2-bit `x` are looked for in at most
five rounds (there are none). -/
theorem rounds_bounded_of_eq_var :
    (∀ x ∈ [Term.var "c" (.bv 2)], x.sort ≠ .int) ∧
    (∀ x ∈ (Term.app .eq [.var "c" (.bv 2), .var "x" (.bv 2)]).vars,
      x ∈ [Term.var "c" (.bv 2)] ∨ .term x ∈ [Operand.term (.var "x" (.bv 2))]) ∧
    (∀ x ∈ [Term.var "c" (.bv 2)], .term x ∉ [Operand.term (.var "x" (.bv 2))]) ∧
    existsForAllWith Checker.exact (assignmentCount [.var "c" (.bv 2)] + 1)
      (.term (.app .eq [.var "c" (.bv 2), .var "x" (.bv 2)])) ([Term.var "c" (.bv 2)].map .term)
      [.term (.var "x" (.bv 2))] ≠ .ok none := by
  have hsorts : ∀ x ∈ [Term.var "c" (.bv 2)], x.sort ≠ .int := by simp
  have hvars : ∀ x ∈ (Term.app .eq [.var "c" (.bv 2), .var "x" (.bv 2)]).vars,
      x ∈ [Term.var "c" (.bv 2)] ∨ .term x ∈ [Operand.term (.var "x" (.bv 2))] := by
    intro x hx
    simp at hx
    rcases hx with rfl | rfl <;> simp
  have hdisj : ∀ x ∈ [Term.var "c" (.bv 2)], .term x ∉ [Operand.term (.var "x" (.bv 2))] := by simp
  exact ⟨hsorts, hvars, hdisj,
    existsForAllWith_rounds_bounded Checker.exact_keeps Checker.exact_modelsSoundly hsorts hvars hdisj⟩

end SmtSynth
