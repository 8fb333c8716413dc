import Mathlib
import SmtSynth.Proofs.Precondition.Soundness
/-!
# Precondition synthesis returns the least round that has a valid try

Round `1` tries the atoms of the pool in order; a round `k ≥ 2` tries the
conjunction of each sequence of `k` atoms, in tuple order, that holds two
different atoms (`conjunctions`). A try is valid when it entails the formula
(`Entails`), which is what the verifier's unsatisfiable verdict on the try
and the negated formula decides (`entails_iff_not_satisfiable`,
`refuted_iff`).

The search returns the valid tries of the least round among `1, …, r` that
has any, and nothing when none has (`synthesizeWith_least_round`). One round
is computed exactly by `roundTries_eq` and `validTries_eq`; the rounds are run
by `firstValid_range'`, by induction on the number of rounds left, with
`FirstNonempty` as what is carried from one round to the next.
-/

namespace SmtSynth
namespace Precondition

variable {check : Checker}

/-! ## Repetitions among terms -/

/-- The step of `distinct`, run over terms from a list of different terms,
keeps a list of different terms holding both. -/
theorem foldl_distinct_terms :
    ∀ (ts as : List Term), as.Nodup → ∃ us : List Term,
      (ts.map Operand.term).foldl (fun acc x => if acc.any (·.sameKey x) then acc else acc ++ [x])
        (as.map Operand.term) = us.map Operand.term ∧ us.Nodup ∧ ∀ u, u ∈ us ↔ u ∈ as ∨ u ∈ ts
  | [], as, has => ⟨as, rfl, has, by simp⟩
  | t :: ts, as, has => by
    have hany : ((as.map Operand.term).any fun y => y.sameKey (.term t)) = decide (t ∈ as) := by
      rw [Bool.eq_iff_iff]
      simp [List.any_map, Function.comp_def]
    by_cases ht : t ∈ as
    · obtain ⟨us, hus, hnodup, hmem⟩ := foldl_distinct_terms ts as has
      refine ⟨us, by simpa [hany, ht] using hus, hnodup, fun u => ?_⟩
      rw [hmem, List.mem_cons]
      constructor
      · rintro (hu | hu)
        · exact .inl hu
        · exact .inr (.inr hu)
      · rintro (hu | rfl | hu)
        · exact .inl hu
        · exact .inl ht
        · exact .inr hu
    · have has' : (as ++ [t]).Nodup := List.nodup_append.2 ⟨has, List.nodup_singleton t, by simp_all⟩
      obtain ⟨us, hus, hnodup, hmem⟩ := foldl_distinct_terms ts (as ++ [t]) has'
      refine ⟨us, by simpa [hany, ht] using hus, hnodup, fun u => ?_⟩
      rw [hmem]
      simp only [List.mem_append, List.mem_cons]
      tauto

theorem distinct_terms (ts : List Term) :
    ∃ us : List Term, distinct (ts.map .term) = us.map .term ∧ us.Nodup ∧ ∀ u, u ∈ us ↔ u ∈ ts := by
  obtain ⟨us, hus, hnodup, hmem⟩ := foldl_distinct_terms ts [] List.nodup_nil
  exact ⟨us, hus, hnodup, fun u => by simpa using hmem u⟩

/-- A sequence of terms holds two different terms exactly when removing its
repetitions leaves more than one. -/
theorem one_lt_distinct_terms (ts : List Term) :
    1 < (distinct (ts.map .term)).length ↔ ∃ a ∈ ts, ∃ b ∈ ts, a ≠ b := by
  obtain ⟨us, hus, hnodup, hmem⟩ := distinct_terms ts
  rw [hus, List.length_map, ← List.toFinset_card_of_nodup hnodup, Finset.one_lt_card]
  simp only [List.mem_toFinset, hmem]

/-! ## The rounds -/

/-- The tries of round `k ≥ 1`: the atoms themselves in round `1`, and in a
later round the conjunction of each sequence of `k` atoms, in tuple order,
that holds two different atoms. -/
def conjunctions (pool : List Term) (k : Nat) : List Term :=
  if k = 1 then pool
  else ((tuples pool k).filter fun combo => decide (∃ a ∈ combo, ∃ b ∈ combo, a ≠ b)).map (.app .and)

theorem sort_conjunctions {pool : List Term} (hpool : ∀ a ∈ pool, a.sort = .bool) {k : Nat} :
    ∀ c ∈ conjunctions pool k, c.sort = .bool := by
  unfold conjunctions
  split
  · exact hpool
  · intro c hc
    obtain ⟨combo, hcombo, rfl⟩ := List.mem_map.1 hc
    obtain ⟨a, ha, -⟩ := of_decide_eq_true (List.mem_filter.1 hcombo).2
    obtain ⟨t, rest, rfl⟩ := List.exists_cons_of_ne_nil (List.ne_nil_of_mem ha)
    simp [Term.sort_app, Term.appSort, Fn.isPredicate]

/-- Over two different atoms, round `2` tries their conjunction in both
orders: the sequences that repeat one atom are dropped. -/
theorem conjunctions_pair {a b : Term} (hab : a ≠ b) :
    conjunctions [a, b] 2 = [.app .and [a, b], .app .and [b, a]] := by
  simp [conjunctions, tuples, hab, Ne.symm hab]

theorem roundTries_eq {pool : List Term} (hpool : ∀ a ∈ pool, a.sort = .bool) (i : Nat) :
    roundTries (pool.map .term) i = .ok ((conjunctions pool (i + 1)).map .term) := by
  unfold roundTries conjunctions
  split
  · rename_i hi
    simp [hi, pure, Except.pure]
  · rename_i hi
    have hfilter : (tuples pool (i + 1)).filter ((fun combo => decide ((distinct combo).length > 1)) ∘ List.map .term) =
        (tuples pool (i + 1)).filter fun combo => decide (∃ a ∈ combo, ∃ b ∈ combo, a ≠ b) :=
      List.filter_congr fun combo _ => decide_eq_decide.2 (one_lt_distinct_terms combo)
    have hconj : ∀ combo ∈ (tuples pool (i + 1)).filter fun combo => decide (∃ a ∈ combo, ∃ b ∈ combo, a ≠ b),
        (Operand.connective .and ∘ List.map .term) combo = .ok (Operand.term (.app .and combo)) := by
      intro combo hcombo
      obtain ⟨hlen, hmem⟩ := mem_tuples (List.mem_filter.1 hcombo).1
      have hne : combo ≠ [] := by
        intro hnil
        simp [hnil] at hlen
      exact Operand.connective_and_terms hne fun t ht => hpool t (hmem t ht)
    rw [tuples_map, List.filter_map, List.mapM_map, hfilter, if_neg (by omega), mapM_eq_ok hconj]
    simp [Function.comp_def]

/-- A condition entails a formula when every well-sorted assignment that
makes the condition true makes the formula true. -/
def Entails (c φ : Term) : Prop :=
  ∀ ρ : Assignment, ρ.Sorted → c.eval ρ = .bool true → φ.eval ρ = .bool true

/-- A condition entails a formula exactly when the condition and the
formula's negation never hold together. -/
theorem entails_iff_not_satisfiable {c φ : Term} :
    Entails c φ ↔ ¬ Satisfiable [.app .and [c, .app .not [φ]]] := by
  have hboth : ∀ ρ : Assignment, (Term.app .and [c, .app .not [φ]]).eval ρ = .bool true ↔
      c.eval ρ = .bool true ∧ φ.eval ρ ≠ .bool true := by
    intro ρ
    rw [Term.eval_and, ← Term.eval_not_eq_true, ← Value.asBool_eq_true, ← Value.asBool_eq_true]
    simp
  constructor
  · rintro h ⟨ρ, hρ, hall⟩
    obtain ⟨hc, hφ⟩ := (hboth ρ).1 (hall _ List.mem_cons_self)
    exact hφ (h ρ hρ hc)
  · intro h ρ hρ hc
    by_contra hφ
    exact h ⟨ρ, hρ, by simpa using (hboth ρ).2 ⟨hc, hφ⟩⟩

theorem entails_and_swap {a b φ : Term} : Entails (.app .and [a, b]) φ ↔ Entails (.app .and [b, a]) φ := by
  simp [Entails, Term.eval_and, Bool.and_comm]

/-- A checker that always answers, with right models and right refutations,
finds satisfiable exactly the facts that a well-sorted assignment makes all
true. -/
theorem satisfiable_iff (hdec : check.Decides) (hunsat : check.RefutesSoundly) (hmodels : check.ModelsSoundly)
    (facts : List Term) : satisfiable check facts = true ↔ Satisfiable facts := by
  have hsat := Checker.sat_iff hdec hunsat hmodels (facts.foldl Solver.add {})
  simp only [Solver.foldl_add_toList, List.nil_append] at hsat
  unfold satisfiable
  rw [← hsat]
  cases hv : (check (facts.foldl Solver.add {})).2 with
  | sat m => simp
  | unsat => simp
  | unknown => exact absurd hv (hdec _)

theorem refuted_eq_not_satisfiable (hdec : check.Decides) (facts : List Term) :
    refuted check facts = !satisfiable check facts := by
  unfold refuted satisfiable
  cases hv : (check (facts.foldl Solver.add {})).2 with
  | sat m => rfl
  | unsat => rfl
  | unknown => exact absurd hv (hdec _)

theorem refuted_iff (hdec : check.Decides) (hunsat : check.RefutesSoundly) (hmodels : check.ModelsSoundly)
    (facts : List Term) : refuted check facts = true ↔ ¬ Satisfiable facts := by
  rw [refuted_eq_not_satisfiable hdec, Bool.not_eq_true', ← Bool.not_eq_true, satisfiable_iff hdec hunsat hmodels]

open Classical in
/-- The valid tries of round `k`, in the order they are tried. -/
noncomputable def validRound (φ : Term) (pool : List Term) (k : Nat) : List Term :=
  (conjunctions pool k).filter fun c => decide (Entails c φ)

open Classical in
theorem validTries_eq (hdec : check.Decides) (hunsat : check.RefutesSoundly) (hmodels : check.ModelsSoundly)
    {φ : Term} (hφ : φ.sort = .bool) {cs : List Term} (hcs : ∀ c ∈ cs, c.sort = .bool) :
    validTries check (.term φ) (cs.map .term) = .ok ((cs.filter fun c => decide (Entails c φ)).map .term) := by
  unfold validTries
  rw [filterMapM_map, ← filterMap_ite]
  refine filterMapM_eq_ok fun c hc => ?_
  have hverdict : refuted check [.app .and [c, .app .not [φ]]] = decide (Entails c φ) := by
    rw [Bool.eq_iff_iff, refuted_iff hdec hunsat hmodels, decide_eq_true_iff, entails_iff_not_satisfiable]
  have himp : implies check (.term φ) (.term c) = .ok (decide (Entails c φ)) := by
    rw [implies_eq hφ (hcs c hc), hverdict]
  simp only [Function.comp_apply, himp, bind, Except.bind]
  split <;> simp_all [pure, Except.pure]

/-! ## The run over the rounds -/

/-- `Ps` is the first nonempty one of `V (s + 1), …, V (s + n)`, or empty
when all of them are. -/
def FirstNonempty {α : Type} (V : Nat → List α) (s n : Nat) (Ps : List α) : Prop :=
  (∃ k, s < k ∧ k ≤ s + n ∧ V k ≠ [] ∧ (∀ j, s < j → j < k → V j = []) ∧ Ps = V k) ∨
  ((∀ k, s < k → k ≤ s + n → V k = []) ∧ Ps = [])

namespace FirstNonempty

variable {α : Type} {V : Nat → List α} {s n : Nat} {Ps : List α}

theorem nil (V : Nat → List α) (s : Nat) : FirstNonempty V s 0 [] :=
  .inr ⟨fun k hs hk => absurd hk (by omega), rfl⟩

theorem head (h : V (s + 1) ≠ []) (n : Nat) : FirstNonempty V s (n + 1) (V (s + 1)) :=
  .inl ⟨s + 1, by omega, by omega, h, fun j hs hj => absurd hj (by omega), rfl⟩

theorem tail (h : V (s + 1) = []) (hrest : FirstNonempty V (s + 1) n Ps) : FirstNonempty V s (n + 1) Ps := by
  rcases hrest with ⟨k, hsk, hkn, hk, hbefore, rfl⟩ | ⟨hnone, rfl⟩
  · refine .inl ⟨k, by omega, by omega, hk, fun j hsj hjk => ?_, rfl⟩
    -- round `s + 1` is the one the rest of the run does not cover
    rcases Nat.lt_or_ge (s + 1) j with hj | hj
    · exact hbefore j hj hjk
    · rwa [show j = s + 1 by omega]
  · refine .inr ⟨fun k hsk hkn => ?_, rfl⟩
    rcases Nat.lt_or_ge (s + 1) k with hk | hk
    · exact hnone k hk (by omega)
    · rwa [show k = s + 1 by omega]

theorem eq_second (h : FirstNonempty V 0 n Ps) (hn : 2 ≤ n) (h1 : V 1 = []) (h2 : V 2 ≠ []) : Ps = V 2 := by
  rcases h with ⟨k, hk0, hkn, hk, hbefore, rfl⟩ | ⟨hnone, -⟩
  · rcases Nat.lt_or_ge k 3 with hk3 | hk3
    · interval_cases k
      · exact absurd h1 hk
      · rfl
    · exact absurd (hbefore 2 (by omega) (by omega)) h2
  · exact absurd (hnone 2 (by omega) (by omega)) h2

end FirstNonempty

/-- Run over the rounds `s, …, s + n - 1` (counted from zero), the search
returns the first round's valid tries that are not empty, given what each
round keeps. -/
theorem firstValid_range' {formula : Operand} {cands : List Operand} {V : Nat → List Term}
    (hround : ∀ i, (roundTries cands i >>= validTries check formula) = .ok ((V (i + 1)).map .term)) :
    ∀ n s, ∃ Ps, firstValid check formula cands (List.range' s n) = .ok (Ps.map .term) ∧
      FirstNonempty V s n Ps
  | 0, s => ⟨[], rfl, .nil V s⟩
  | n + 1, s => by
    obtain ⟨tries, htries, hvalid⟩ := bind_eq_ok.1 (hround s)
    by_cases hV : V (s + 1) = []
    · obtain ⟨Ps, hrun, hPs⟩ := firstValid_range' hround n (s + 1)
      refine ⟨Ps, ?_, hPs.tail hV⟩
      simp [List.range'_succ, firstValid, htries, hvalid, hV, hrun, bind, Except.bind]
    · refine ⟨V (s + 1), ?_, .head hV n⟩
      simp [List.range'_succ, firstValid, htries, hvalid, hV, bind, Except.bind, pure, Except.pure]

theorem roundTries_validTries (hdec : check.Decides) (hunsat : check.RefutesSoundly)
    (hmodels : check.ModelsSoundly) {φ : Term} (hφ : φ.sort = .bool) {pool : List Term}
    (hpool : ∀ a ∈ pool, a.sort = .bool) (i : Nat) :
    (roundTries (pool.map .term) i >>= validTries check (.term φ)) = .ok ((validRound φ pool (i + 1)).map .term) := by
  rw [roundTries_eq hpool i]
  exact validTries_eq hdec hunsat hmodels hφ (sort_conjunctions hpool)

theorem synthesizeWith_firstNonempty (hdec : check.Decides) (hunsat : check.RefutesSoundly)
    (hmodels : check.ModelsSoundly) (rounds : Int) {φ : Term} (hφ : φ.sort = .bool) {positive : Table}
    {negatives : List Table} {w : Nat} {pool : List Term} (hpool : ∀ a ∈ pool, a.sort = .bool)
    (hcands : candidates check positive negatives w = .ok (pool.map .term)) :
    ∃ Ps, synthesizeWith check (.term φ) positive negatives w rounds = .ok (Ps.map .term) ∧
      FirstNonempty (validRound φ pool) 0 rounds.toNat Ps := by
  obtain ⟨Ps, hrun, hfirst⟩ :=
    firstValid_range' (roundTries_validTries hdec hunsat hmodels hφ hpool) rounds.toNat 0
  refine ⟨Ps, ?_, hfirst⟩
  simpa [synthesizeWith, hcands, List.range_eq_range', bind, Except.bind] using hrun

/-! ## The least round -/

/-- The preconditions found are the valid tries of the least round among
`1, …, rounds` that has any, in the order they are tried, and none when no
round has one. Round `1` tries the candidates built from the positive example;
round `k ≥ 2` their conjunctions of `k`, in tuple order, each holding two
different candidates. -/
theorem synthesizeWith_least_round (hdec : check.Decides) (hunsat : check.RefutesSoundly)
    (hmodels : check.ModelsSoundly) {φ : Term} (hφ : φ.sort = .bool) {positive : Table}
    {negatives : List Table} {w : Nat} {rounds : Int} {cands : List Operand}
    (hex : WordExample w positive) (hcands : candidates check positive negatives w = .ok cands) :
    ∃ pool Ps, cands = pool.map .term ∧
      synthesizeWith check (.term φ) positive negatives w rounds = .ok (Ps.map .term) ∧
      FirstNonempty (validRound φ pool) 0 rounds.toNat Ps := by
  obtain ⟨pool, rfl, hpool⟩ :=
    Operand.exists_eq_map_term fun c hc => candidates_atoms hmodels hex hcands c hc
  obtain ⟨Ps, hrun, hfirst⟩ :=
    synthesizeWith_firstNonempty hdec hunsat hmodels rounds hφ (fun a ha => (hpool a ha).1) hcands
  exact ⟨pool, Ps, rfl, hrun, hfirst⟩

end Precondition
end SmtSynth
