import Mathlib
import SmtSynth.Synth.Cegis
import SmtSynth.Proofs.Operands
import SmtSynth.Proofs.Checker
/-!
# One round of counterexample-guided synthesis, and runs of rounds

A round reads a model of the candidate conditions at the exists constants,
puts the numerals read into the formula, and checks the negation. What it
can do is said once, by two inversion lemmas: a round that ends
(`cegisRound_done`) found no model of the candidates, or found values whose
instance has an unsatisfiable negation; a round that goes on
(`cegisRound_next`) adds the formula with the for-all constants set to the
counter-model's numerals. Both describe the numerals read by `Model.Reads`.

Two run lemmas lift rounds to runs: an invariant that every round keeps holds
of the round that ends a run (`cegisRun_done`), and a measure that every
round lowers bounds the number of rounds (`cegisRun_ne_none`).
-/

namespace SmtSynth

/-! ## Reading models into tables -/

theorem readAll_eq_foldlM (m : Model) (cs : List Operand) :
    readAll m cs = cs.foldlM (fun t c => do return t.insert c (← m.read c)) {} := by
  simp [readAll]

theorem Table.insert_read {m : Model} {t : Table} {c v : Operand} (hnd : t.keys.Nodup)
    (ht : ∀ p ∈ t.entries, m.read p.1 = .ok p.2) (hv : m.read c = .ok v) :
    (t.insert c v).keys.Nodup ∧ (∀ k, k ∈ (t.insert c v).keys ↔ k ∈ t.keys ∨ k = c) ∧
      ∀ p ∈ (t.insert c v).entries, m.read p.1 = .ok p.2 := by
  obtain ⟨x, rfl, -⟩ := Model.read_eq_ok hv
  refine ⟨?_, fun k => ?_, fun p hp => ?_⟩
  · rw [Table.keys_insert_term]
    split
    · exact hnd
    · rename_i hx
      exact hnd.append (List.nodup_singleton _) (by simpa [Table.contains_term] using hx)
  · rw [Table.keys_insert_term]
    split
    · rename_i hx
      exact ⟨.inl, fun hk => hk.elim id fun e => e ▸ Table.contains_term.1 hx⟩
    · simp
  · rcases Table.mem_insert_term hp with hp | rfl
    · exact ht p hp
    · exact hv

theorem Table.entries_insert_new {t : Table} {k v : Operand} (h : ∀ p ∈ t.entries, p.1.sameKey k = false) :
    (t.insert k v).entries = t.entries ++ [(k, v)] := by
  obtain ⟨es⟩ := t
  simp only [Table.insert]
  induction es with
  | nil => rfl
  | cons e es ih =>
    simp only [List.mem_cons, forall_eq_or_imp] at h
    simp only [Table.insert.go, h.1, Bool.false_eq_true, if_false, ih h.2, List.cons_append]


/-- A table read from a model lists each operand read once, each with the
value the model gives it. -/
theorem readAll_ok {m : Model} {cs : List Operand} {t : Table} (h : readAll m cs = .ok t) :
    t.keys.Nodup ∧ (∀ c, c ∈ t.keys ↔ c ∈ cs) ∧ ∀ p ∈ t.entries, m.read p.1 = .ok p.2 := by
  rw [readAll_eq_foldlM] at h
  suffices ∀ (cs : List Operand) (t₀ : Table), t₀.keys.Nodup → (∀ p ∈ t₀.entries, m.read p.1 = .ok p.2) →
      cs.foldlM (fun t c => do return t.insert c (← m.read c)) t₀ = .ok t →
      t.keys.Nodup ∧ (∀ c, c ∈ t.keys ↔ c ∈ t₀.keys ∨ c ∈ cs) ∧ ∀ p ∈ t.entries, m.read p.1 = .ok p.2 by
    obtain ⟨hnd, hmem, hread⟩ := this cs {} (by simp) (by simp) h
    exact ⟨hnd, fun c => by simpa using hmem c, hread⟩
  intro cs
  induction cs with
  | nil =>
    intro t₀ hnd hread h
    cases h
    exact ⟨hnd, by simp, hread⟩
  | cons c cs ih =>
    intro t₀ hnd hread h
    rw [List.foldlM_cons] at h
    obtain ⟨t₁, h₁, h⟩ := bind_eq_ok.1 h
    obtain ⟨v, hv, h₁⟩ := bind_eq_ok.1 h₁
    cases h₁
    obtain ⟨hnd₁, hmem₁, hread₁⟩ := Table.insert_read hnd hread hv
    obtain ⟨hnd', hmem', hread'⟩ := ih _ hnd₁ hread₁ h
    refine ⟨hnd', fun k => ?_, hread'⟩
    rw [hmem', hmem₁]
    simp only [List.mem_cons]
    tauto

/-! ## Numerals read from a model -/

theorem Model.read_ofAssignment_var {ρ : Assignment} {xs : List Term} {n : String} {s : TermSort}
    (hx : .var n s ∈ xs) :
    (Model.ofAssignment ρ xs).read (.term (.var n s)) = .ok (.term ((Term.var n s).eval ρ).toTerm) := by
  simp [Model.read, Model.get?_ofAssignment_of_mem hx]

/-- Reading the model of `ρ` at different named constants it lists gives the
table of their values under `ρ`, in order. -/
theorem readAll_ofAssignment {ρ : Assignment} {xs cs : List Term} (hcs : ∀ c ∈ cs, ∃ n s, c = .var n s)
    (hmem : ∀ c ∈ cs, c ∈ xs) (hnd : cs.Nodup) :
    readAll (Model.ofAssignment ρ xs) (cs.map .term) = .ok ⟨cs.map fun c => (.term c, .term (c.eval ρ).toTerm)⟩ := by
  rw [readAll_eq_foldlM]
  suffices ∀ (cs : List Term) (t₀ : Table), (∀ c ∈ cs, ∃ n s, c = .var n s) → (∀ c ∈ cs, c ∈ xs) → cs.Nodup →
      (∀ p ∈ t₀.entries, ∀ c ∈ cs, p.1.sameKey (.term c) = false) →
      (cs.map Operand.term).foldlM (fun t c => do return t.insert c (← (Model.ofAssignment ρ xs).read c)) t₀ =
        .ok ⟨t₀.entries ++ cs.map fun c => (.term c, .term (c.eval ρ).toTerm)⟩ by
    simpa using this cs {} hcs hmem hnd (by simp)
  intro cs
  induction cs with
  | nil =>
    intro t₀ _ _ _ _
    simp [pure, Except.pure]
  | cons c cs ih =>
    intro t₀ hcs hmem hnd hnew
    obtain ⟨n, s, rfl⟩ := hcs _ List.mem_cons_self
    have hins := Table.entries_insert_new (v := .term ((Term.var n s).eval ρ).toTerm)
      fun p hp => hnew p hp _ List.mem_cons_self
    rw [List.map_cons, List.foldlM_cons, Model.read_ofAssignment_var (hmem _ List.mem_cons_self)]
    simp only [ok_bind, pure_bind]
    rw [ih _ (fun c hc => hcs c (List.mem_cons_of_mem _ hc)) (fun c hc => hmem c (List.mem_cons_of_mem _ hc))
      (List.nodup_cons.1 hnd).2 ?_]
    · rw [hins]
      simp
    · intro p hp c hc
      rw [hins] at hp
      rcases List.mem_append.1 hp with hp | hp
      · exact hnew p hp c (List.mem_cons_of_mem _ hc)
      · rw [List.mem_singleton] at hp
        subst hp
        have hne : Term.var n s ≠ c := fun h => (List.nodup_cons.1 hnd).1 (h ▸ hc)
        simpa using hne


theorem mapM_read_ofAssignment {ρ : Assignment} {xs cs : List Term} (hcs : ∀ c ∈ cs, ∃ n s, c = .var n s)
    (hmem : ∀ c ∈ cs, c ∈ xs) :
    (cs.map .term).mapM (fun f => do return (f, ← (Model.ofAssignment ρ xs).read f)) =
      .ok (cs.map fun c => (.term c, .term (c.eval ρ).toTerm)) := by
  induction cs with
  | nil => rfl
  | cons c cs ih =>
    obtain ⟨n, s, rfl⟩ := hcs c List.mem_cons_self
    rw [List.map_cons, List.mapM_cons, Model.read_ofAssignment_var (hmem _ List.mem_cons_self)]
    simp only [ok_bind, pure_bind]
    rw [ih (fun c hc => hcs c (List.mem_cons_of_mem _ hc)) (fun c hc => hmem c (List.mem_cons_of_mem _ hc))]
    rfl

/-- Named constants paired with the values a well-sorted assignment gives
them pass as substitution pairs. -/
theorem termPairs_of_values {ρ : Assignment} {cs : List Term} (hρ : ρ.Sorted)
    (hcs : ∀ c ∈ cs, ∃ n s, c = .var n s) :
    (cs.map fun c => (Operand.term c, Operand.term (c.eval ρ).toTerm)).mapM Operand.substitute.termPair =
      .ok (cs.map fun c => (c, (c.eval ρ).toTerm)) := by
  have hsorts : ∀ q ∈ cs.map (fun c => (c, (c.eval ρ).toTerm)), q.1.sort = q.2.sort := by
    intro q hq
    obtain ⟨c, hc, rfl⟩ := List.mem_map.1 hq
    obtain ⟨n, s, rfl⟩ := hcs c hc
    rw [(hρ.eval_var n s).sort_toTerm, Term.sort_var]
  simpa [List.map_map, Function.comp_def] using Operand.mapM_termPair_terms hsorts

/-- `ps` replaces each of the operands `cs`, and nothing else, by the numeral
of its sort that the model `m` gives it. -/
structure Model.Reads (m : Model) (cs : List Operand) (ps : List (Term × Term)) : Prop where
  covers : ∀ c ∈ cs, ∃ p ∈ ps, c = .term p.1
  reads : ∀ p ∈ ps, .term p.1 ∈ cs ∧
    ∃ n s v, p.1 = .var n s ∧ m.get? p.1 = some v ∧ p.2 = v.toTerm ∧ v.toTerm.sort = s

/-- Substitution pairs made of each of `cs` and what `m` reads there replace
`cs` by the numerals of `m`. -/
theorem Model.reads_of_pairs {m : Model} {cs : List Operand} {prs : List (Operand × Operand)}
    {ps : List (Term × Term)} (hcov : ∀ c ∈ cs, ∃ q ∈ prs, q.1 = c)
    (hprs : ∀ q ∈ prs, q.1 ∈ cs ∧ m.read q.1 = .ok q.2) (h : prs.mapM Operand.substitute.termPair = .ok ps) :
    m.Reads cs ps := by
  obtain ⟨hback, hforth⟩ := Operand.pairs_of_substitute h
  constructor
  · intro c hc
    obtain ⟨q, hq, rfl⟩ := hcov c hc
    obtain ⟨p, hp, rfl⟩ := hforth q hq
    exact ⟨p, hp, rfl⟩
  · rintro ⟨a, b⟩ hp
    obtain ⟨hq, hsort⟩ := hback _ hp
    obtain ⟨hc, hread⟩ := hprs _ hq
    refine ⟨hc, ?_⟩
    obtain ⟨x, hx, hv | ⟨n, s, v, rfl, hget, hval⟩⟩ := Model.read_eq_ok hread
    · cases hv
    · cases hx
      cases hval
      exact ⟨n, s, v, rfl, hget, rfl, hsort.symm.trans (Term.sort_var n s)⟩

theorem Model.reads_of_readAll {m : Model} {cs : List Operand} {t : Table} {ps : List (Term × Term)}
    (ht : readAll m cs = .ok t) (h : t.entries.mapM Operand.substitute.termPair = .ok ps) :
    m.Reads cs ps := by
  obtain ⟨-, hkeys, hread⟩ := readAll_ok ht
  apply Model.reads_of_pairs _ _ h
  · intro c hc
    obtain ⟨q, hq, rfl⟩ := List.mem_map.1 ((hkeys c).2 hc)
    exact ⟨q, hq, rfl⟩
  · exact fun q hq => ⟨(hkeys q.1).1 (List.mem_map_of_mem hq), hread q hq⟩

theorem Model.reads_of_mapM {m : Model} {cs : List Operand} {prs : List (Operand × Operand)}
    {ps : List (Term × Term)} (hprs : cs.mapM (fun c => do return (c, ← m.read c)) = .ok prs)
    (h : prs.mapM Operand.substitute.termPair = .ok ps) : m.Reads cs ps := by
  obtain ⟨hback, hforth⟩ := mem_of_mapM hprs
  apply Model.reads_of_pairs _ _ h
  · intro c hc
    obtain ⟨q, hq, hcq⟩ := hforth c hc
    obtain ⟨v, -, hv⟩ := bind_eq_ok.1 hcq
    cases hv
    exact ⟨_, hq, rfl⟩
  · intro q hq
    obtain ⟨c, hc, hcq⟩ := hback q hq
    obtain ⟨v, hv, hq'⟩ := bind_eq_ok.1 hcq
    cases hq'
    exact ⟨hc, hv⟩

namespace Model.Reads

variable {m : Model} {cs : List Operand} {ps : List (Term × Term)}

theorem sortedPairs (h : m.Reads cs ps) : Term.SortedPairs ps := by
  intro p hp
  obtain ⟨-, n, s, v, h1, -, h2, h3⟩ := h.reads p hp
  exact ⟨n, s, h1, h2 ▸ h3⟩

theorem eval_replace_of_mem (h : m.Reads cs ps) (ρ : Assignment) {n : String} {s : TermSort}
    (hx : .term (.var n s) ∈ cs) : (Term.var n s).eval (ρ.replace ps) = (Term.var n s).eval m.assignment := by
  obtain ⟨⟨a, b⟩, hp, hpx⟩ := h.covers _ hx
  cases hpx
  cases hl : Term.lookupLast ps (.var n s) with
  | none => exact absurd hl (Term.lookupLast_ne_none hp)
  | some r =>
    obtain ⟨-, n', s', v, h1, hget, h2, -⟩ := h.reads _ (Term.lookupLast_mem hl)
    simp only at h1 hget h2
    simp [Assignment.replace, hl, h2, Model.assignment, hget]

theorem replace_of_not_mem (h : m.Reads cs ps) (ρ : Assignment) {n : String} {s : TermSort}
    (hx : .term (.var n s) ∉ cs) : ρ.replace ps n s = ρ n s := by
  have hl : Term.lookupLast ps (.var n s) = none := by
    apply Term.lookupLast_eq_none
    intro p hp e
    exact hx (e ▸ (h.reads p hp).1)
  simp [Assignment.replace, hl]

/-- The numerals of a well-sorted model are values of their sorts, so the
replacement keeps an assignment well sorted. -/
theorem sorted_replace (h : m.Reads cs ps) (hm : m.assignment.Sorted) {ρ : Assignment}
    (hρ : ρ.Sorted) : (ρ.replace ps).Sorted := by
  intro n s v hv
  simp only [Assignment.replace] at hv
  split at hv
  · rename_i r hl
    obtain ⟨-, n', s', w, h1, hget, h2, -⟩ := h.reads _ (Term.lookupLast_mem hl)
    simp only [Term.var.injEq] at h1 hget h2
    obtain ⟨rfl, rfl⟩ := h1
    rw [h2, Value.eval_toTerm, Option.some.injEq] at hv
    exact hv ▸ hm n s w hget
  · exact hρ n s v hv

end Model.Reads

/-! ## One round -/

section Round

variable {check : Checker} {φ : Term} {ex fa : List Operand} {s : Solver}

/-- What a round that goes through did: it found no model of the candidate
conditions; or it read numerals `vals` for `ex` from a model `m`, and the
negation of the formula at them had no model (the round is done) or had a
counter-model `fm`, whose numerals for `fa` put in the formula give the next
candidate condition. -/
theorem cegisRound_ok {rd : Round} (h : cegisRound check (.term φ) ex fa s = .ok rd) :
    (rd = .done ⟨none, unsatisfiedLine (.term φ)⟩ ∧ ∀ m, (check s).2 ≠ .sat m) ∨
    ∃ m vals ps, (check s).2 = .sat m ∧ readAll m ex = .ok vals ∧
      vals.entries.mapM Operand.substitute.termPair = .ok ps ∧
      ((check (Solver.add {} (.app .not [Term.replace ps φ]))).2 = .unsat ∧ rd = .done ⟨some vals, ""⟩ ∨
        ∃ fm τ, (check (Solver.add {} (.app .not [Term.replace ps φ]))).2 = .sat fm ∧ fm.Reads fa τ ∧
          rd = .next ((check s).1.add (Term.replace τ φ))) := by
  unfold cegisRound at h
  rcases hcs : check s with ⟨s₁, v⟩
  rw [hcs] at h
  cases v with
  | sat m =>
    simp only at h
    obtain ⟨vals, hvals, h⟩ := bind_eq_ok.1 h
    obtain ⟨inst, hinst, h⟩ := bind_eq_ok.1 h
    obtain ⟨neg, hneg, h⟩ := bind_eq_ok.1 h
    obtain ⟨refute, hrefute, h⟩ := bind_eq_ok.1 h
    obtain ⟨_, ps, ⟨⟩, hps, rfl⟩ := Operand.substitute_eq_ok.1 hinst
    obtain ⟨t, ht, rfl⟩ := Operand.unary_not.1 hneg
    obtain ⟨-, rfl⟩ := Operand.asCondition_term.1 ht
    obtain ⟨-, rfl⟩ := Operand.asCondition_term.1 hrefute
    refine .inr ⟨m, vals, ps, rfl, hvals, hps, ?_⟩
    split at h
    · rename_i hv
      simp only [pure, Except.pure, Except.ok.injEq] at h
      exact .inl ⟨hv, h.symm⟩
    · rename_i fm hv
      obtain ⟨cex, hcex, h⟩ := bind_eq_ok.1 h
      obtain ⟨next, hnext, h⟩ := bind_eq_ok.1 h
      obtain ⟨cond, hcond, h⟩ := bind_eq_ok.1 h
      obtain ⟨_, τ, ⟨⟩, hτ, rfl⟩ := Operand.substitute_eq_ok.1 hnext
      obtain ⟨-, rfl⟩ := Operand.asCondition_term.1 hcond
      simp only [pure, Except.pure, Except.ok.injEq] at h
      exact .inr ⟨fm, τ, hv, Model.reads_of_mapM hcex hτ, h.symm⟩
    · cases h
  | unsat | unknown =>
    simp only [pure, Except.pure, Except.ok.injEq] at h
    exact .inl ⟨h.symm, fun m hm => by cases hm⟩

/-- A round ends when its candidate conditions have no model, or when the
negation of the formula at the numerals read is unsatisfiable; then those
numerals are the outcome. -/
theorem cegisRound_done {r : CegisResult} (h : cegisRound check (.term φ) ex fa s = .ok (.done r)) :
    (r = ⟨none, unsatisfiedLine (.term φ)⟩ ∧ ∀ m, (check s).2 ≠ .sat m) ∨
    ∃ m vals ps, (check s).2 = .sat m ∧ readAll m ex = .ok vals ∧
      vals.entries.mapM Operand.substitute.termPair = .ok ps ∧
      (check (Solver.add {} (.app .not [Term.replace ps φ]))).2 = .unsat ∧ r = ⟨some vals, ""⟩ := by
  rcases cegisRound_ok h with ⟨hr, hnone⟩ | ⟨m, vals, ps, hm, hvals, hps, ⟨hu, hr⟩ | ⟨_, _, -, -, hr⟩⟩
  · exact .inl ⟨Round.done.inj hr, hnone⟩
  · exact .inr ⟨m, vals, ps, hm, hvals, hps, hu, Round.done.inj hr⟩
  · cases hr

/-- A round goes on when a counter-model refutes the formula at the numerals
read; the next candidate conditions add the formula with the for-all
constants set to the counter-model's numerals. -/
theorem cegisRound_next {s' : Solver} (h : cegisRound check (.term φ) ex fa s = .ok (.next s')) :
    ∃ m ps fm τ, (check s).2 = .sat m ∧ m.Reads ex ps ∧
      (check (Solver.add {} (.app .not [Term.replace ps φ]))).2 = .sat fm ∧ fm.Reads fa τ ∧
      s' = (check s).1.add (Term.replace τ φ) := by
  rcases cegisRound_ok h with ⟨hr, -⟩ | ⟨m, vals, ps, hm, hvals, hps, ⟨-, hr⟩ | ⟨fm, τ, hfm, hτ, hr⟩⟩
  · cases hr
  · cases hr
  · exact ⟨m, ps, fm, τ, hm, Model.reads_of_readAll hvals hps, hfm, hτ, Round.next.inj hr⟩

/-! The same three outcomes, read forwards: what a round returns once the
checks it makes are known. -/

theorem cegisRound_of_unsat {s₁ : Solver} (h : check s = (s₁, .unsat)) :
    cegisRound check (.term φ) ex fa s = .ok (.done ⟨none, unsatisfiedLine (.term φ)⟩) := by
  unfold cegisRound
  rw [h]
  rfl

section Model

variable {s₁ : Solver} {m : Model} {D : Table} {ps : List (Term × Term)}

theorem cegisRound_of_refuted (hsort : φ.sort = .bool) (hm : check s = (s₁, .sat m))
    (hD : readAll m ex = .ok D) (hps : D.entries.mapM Operand.substitute.termPair = .ok ps)
    (h : (check (Solver.add {} (.app .not [Term.replace ps φ]))).2 = .unsat) :
    cegisRound check (.term φ) ex fa s = .ok (.done ⟨some D, ""⟩) := by
  have hsort' : (Term.replace ps φ).sort = .bool := by
    rw [Term.sort_replace (Model.reads_of_readAll hD hps).sortedPairs, hsort]
  have hnot : (Term.app .not [Term.replace ps φ]).sort = .bool := by simp [Term.sort_app, Term.appSort, hsort']
  unfold cegisRound
  simp only [hm, hD, Operand.substitute_eq_ok.2 ⟨φ, ps, rfl, hps, rfl⟩,
    Operand.unary_not.2 ⟨_, Operand.asCondition_term.2 ⟨hsort', rfl⟩, rfl⟩,
    Operand.asCondition_term.2 ⟨hnot, rfl⟩, h, ok_bind]
  rfl

theorem cegisRound_of_countered {fm : Model} {prs : List (Operand × Operand)} {τ : List (Term × Term)}
    (hsort : φ.sort = .bool) (hm : check s = (s₁, .sat m))
    (hD : readAll m ex = .ok D) (hps : D.entries.mapM Operand.substitute.termPair = .ok ps)
    (hfm : (check (Solver.add {} (.app .not [Term.replace ps φ]))).2 = .sat fm)
    (hprs : fa.mapM (fun f => do return (f, ← fm.read f)) = .ok prs)
    (hτ : prs.mapM Operand.substitute.termPair = .ok τ) :
    cegisRound check (.term φ) ex fa s = .ok (.next (s₁.add (Term.replace τ φ))) := by
  have hsort' : (Term.replace ps φ).sort = .bool := by
    rw [Term.sort_replace (Model.reads_of_readAll hD hps).sortedPairs, hsort]
  have hnot : (Term.app .not [Term.replace ps φ]).sort = .bool := by simp [Term.sort_app, Term.appSort, hsort']
  have hnext : (Term.replace τ φ).sort = .bool := by
    rw [Term.sort_replace (Model.reads_of_mapM hprs hτ).sortedPairs, hsort]
  unfold cegisRound
  simp only [hm, hD, Operand.substitute_eq_ok.2 ⟨φ, ps, rfl, hps, rfl⟩,
    Operand.unary_not.2 ⟨_, Operand.asCondition_term.2 ⟨hsort', rfl⟩, rfl⟩,
    Operand.asCondition_term.2 ⟨hnot, rfl⟩, hfm, hprs, Operand.substitute_eq_ok.2 ⟨φ, τ, rfl, hτ, rfl⟩,
    Operand.asCondition_term.2 ⟨hnext, rfl⟩, ok_bind]
  rfl

/-! ### Rounds on the models of assignments -/

variable {ρ ρ' : Assignment} {vs vs' : List Term}

/-- A round whose candidate is the model of `ρ` at the existential constants
`cs`, and whose counter-example is the model of `ρ'` at the for-all constants
`xs`, adds the instance of the formula at the values of `ρ'`. -/
theorem cegisRound_of_assignments (cs xs : List Term) (hsort : φ.sort = .bool) (hρ : ρ.Sorted)
    (hρ' : ρ'.Sorted) (hm : check s = (s₁, .sat (Model.ofAssignment ρ vs)))
    (hcs : ∀ c ∈ cs, ∃ n s, c = .var n s) (hmem : ∀ c ∈ cs, c ∈ vs) (hnd : cs.Nodup)
    (hps : cs.map (fun c => (c, (c.eval ρ).toTerm)) = ps)
    (hfm : (check (Solver.add {} (.app .not [Term.replace ps φ]))).2 = .sat (Model.ofAssignment ρ' vs'))
    (hxs : ∀ x ∈ xs, ∃ n s, x = .var n s) (hxmem : ∀ x ∈ xs, x ∈ vs') :
    cegisRound check (.term φ) (cs.map .term) (xs.map .term) s =
      .ok (.next (s₁.add (Term.replace (xs.map fun x => (x, (x.eval ρ').toTerm)) φ))) := by
  subst hps
  exact cegisRound_of_countered hsort hm (readAll_ofAssignment hcs hmem hnd) (termPairs_of_values hρ hcs) hfm
    (mapM_read_ofAssignment hxs hxmem) (termPairs_of_values hρ' hxs)

/-- A round whose candidate is the model of `ρ` at the existential constants
`cs`, and whose instance has no counter-example, answers with the values of
`ρ`. -/
theorem cegisRound_of_assignment_refuted (cs : List Term) (hsort : φ.sort = .bool) (hρ : ρ.Sorted)
    (hm : check s = (s₁, .sat (Model.ofAssignment ρ vs)))
    (hcs : ∀ c ∈ cs, ∃ n s, c = .var n s) (hmem : ∀ c ∈ cs, c ∈ vs) (hnd : cs.Nodup)
    (hps : cs.map (fun c => (c, (c.eval ρ).toTerm)) = ps)
    (h : (check (Solver.add {} (.app .not [Term.replace ps φ]))).2 = .unsat) :
    cegisRound check (.term φ) (cs.map .term) fa s =
      .ok (.done ⟨some ⟨cs.map fun c => (.term c, .term (c.eval ρ).toTerm)⟩, ""⟩) := by
  subst hps
  exact cegisRound_of_refuted hsort hm (readAll_ofAssignment hcs hmem hnd) (termPairs_of_values hρ hcs) h

end Model

end Round

/-! ## Runs of rounds -/

section Run

variable {check : Checker} {formula : Operand} {ex fa : List Operand}

/-- Invariant rule: if every round that goes on keeps `Inv`, a run that ends
does so in a round from candidate conditions with `Inv`. -/
theorem cegisRun_done (Inv : Solver → Prop)
    (hstep : ∀ s s', Inv s → cegisRound check formula ex fa s = .ok (.next s') → Inv s') :
    ∀ (fuel : Nat) (s : Solver) {r : CegisResult}, Inv s →
      cegisRun check formula ex fa fuel s = .ok (some r) →
      ∃ s', Inv s' ∧ cegisRound check formula ex fa s' = .ok (.done r) := by
  intro fuel
  induction fuel with
  | zero =>
    intro s r _ h
    cases h
  | succ fuel ih =>
    intro s r hinv h
    simp only [cegisRun] at h
    obtain ⟨round, hround, h⟩ := bind_eq_ok.1 h
    cases round with
    | done r' =>
      cases h
      exact ⟨s, hinv, hround⟩
    | next s' => exact ih s' (hstep s s' hinv hround) h

/-- Variant rule: if every round that goes on keeps `Inv` and lowers `μ`,
a run from `s` with more rounds than `μ s` does not run out of them. -/
theorem cegisRun_ne_none (Inv : Solver → Prop) (μ : Solver → Nat)
    (hstep : ∀ s s', Inv s → cegisRound check formula ex fa s = .ok (.next s') → Inv s' ∧ μ s' < μ s) :
    ∀ (fuel : Nat) (s : Solver), Inv s → μ s < fuel →
      cegisRun check formula ex fa fuel s ≠ .ok none := by
  intro fuel
  induction fuel with
  | zero =>
    intro s _ hμ
    omega
  | succ fuel ih =>
    intro s hinv hμ h
    simp only [cegisRun] at h
    obtain ⟨round, hround, h⟩ := bind_eq_ok.1 h
    cases round with
    | done r => cases h
    | next s' =>
      obtain ⟨hinv', hlt⟩ := hstep s s' hinv hround
      exact ih s' hinv' (by omega) h

theorem existsForAllWith_eq {fuel : Nat} {φ : Term} {r : Option CegisResult}
    (h : existsForAllWith check fuel (.term φ) ex fa = .ok r) :
    φ.sort = .bool ∧ cegisRun check (.term φ) ex fa fuel (Solver.add {} φ) = .ok r := by
  obtain ⟨φ', hφ, h⟩ := bind_eq_ok.1 h
  obtain ⟨hsort, rfl⟩ := Operand.asCondition_term.1 hφ
  exact ⟨hsort, h⟩

theorem existsForAllWith_eq_cegisRun {fuel : Nat} {φ : Term} (hsort : φ.sort = .bool) :
    existsForAllWith check fuel (.term φ) ex fa = cegisRun check (.term φ) ex fa fuel (Solver.add {} φ) := by
  simp only [existsForAllWith, Operand.asCondition_term.2 ⟨hsort, rfl⟩, ok_bind]

theorem cegisRun_of_done {fuel : Nat} {s : Solver} {r : CegisResult}
    (h : cegisRound check formula ex fa s = .ok (.done r)) :
    cegisRun check formula ex fa (fuel + 1) s = .ok (some r) := by
  simp only [cegisRun, h, ok_bind]
  rfl

theorem cegisRun_of_next {fuel : Nat} {s s' : Solver} (h : cegisRound check formula ex fa s = .ok (.next s')) :
    cegisRun check formula ex fa (fuel + 1) s = cegisRun check formula ex fa fuel s' := by
  simp only [cegisRun, h, ok_bind]

end Run

end SmtSynth
