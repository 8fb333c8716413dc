import Mathlib
import SmtSynth.Proofs.Precondition.Rounds
import SmtSynth.Proofs.Synthesis.Enumeration
/-!
# The atom pool of precondition synthesis

With a decision procedure that is right, the candidates built before the
conjunction rounds are exactly the atoms that separate the examples
(`candidates_eq_atomPool`), given as dictionaries give them: different named
constants with closed values (`ClosedPairs`), every negative example giving
a value to each constant of the positive one. The pool is, in order:

* the power-of-two test `c & (c - 1) == 0` of each constant whose positive
  value passes it (`powerAtoms`);
* for each sign-pattern sketch over the placeholders (`sketchTerms`), each
  filling of the placeholders with constants, `0` and `1` that holds a
  constant and two different entries (`fillings`), and each relation
  `≤`, `≥`, `=`, `>`, `<` in that order, the filled sketch compared with `0`
  by it, when that comparison holds at the positive example and fails at
  every negative one (`Separates`).

The solver checks a comparison together with the opposite comparison at each
negative example; `satisfiable_facts_iff` says that this is separation.
-/

namespace SmtSynth

/-- The table of the pairs `ps`, keys and values both terms. -/
def Table.ofPairs (ps : List (Term × Term)) : Table := { entries := ps.map fun q => (.term q.1, .term q.2) }

@[simp] theorem Table.entries_ofPairs (ps : List (Term × Term)) :
    (Table.ofPairs ps).entries = ps.map fun q => (.term q.1, .term q.2) := rfl

@[simp] theorem Table.keys_ofPairs (ps : List (Term × Term)) :
    (Table.ofPairs ps).keys = (ps.map Prod.fst).map .term := by
  simp [Table.ofPairs, Table.keys]

@[simp] theorem Table.size_ofPairs (ps : List (Term × Term)) : (Table.ofPairs ps).size = ps.length := by
  simp [Table.ofPairs, Table.size]

namespace Precondition

variable {check : Checker}

/-! ## Examples -/

/-- An example as a dictionary gives one: different named constants, each
with a closed value of its own sort. -/
structure ClosedPairs (ps : List (Term × Term)) : Prop where
  sorted : Term.SortedPairs ps
  closed : ∀ q ∈ ps, q.2.vars = []
  nodup : (ps.map Prod.fst).Nodup

/-- `ρ` gives the constants of an example their values. -/
def Agrees (ex : Table) (ρ : Assignment) : Prop :=
  ∀ n s v, (.term (.var n s), .term v) ∈ ex.entries → (Term.var n s).eval ρ = v.eval ρ

/-- `t` fails wherever the constants of the example take their values. -/
def FailsAt (ex : Table) (t : Term) : Prop :=
  ∀ ρ : Assignment, Agrees ex ρ → t.eval ρ ≠ .bool true

/-- An atom separates the examples when it holds at the positive one and
fails at every negative one. -/
def Separates (positive : Table) (negatives : List Table) (t : Term) : Prop :=
  HoldsAt positive t ∧ ∀ n ∈ negatives, FailsAt n t

namespace ClosedPairs

variable {ps : List (Term × Term)}

theorem eval_value (h : ClosedPairs ps) {q : Term × Term} (hq : q ∈ ps) (ρ ρ' : Assignment) :
    q.2.eval ρ = q.2.eval ρ' :=
  Term.eval_congr q.2 fun x hx => by simp [h.closed q hq] at hx

theorem termPairs (h : ClosedPairs ps) :
    (Table.ofPairs ps).entries.mapM Operand.substitute.termPair = .ok ps := by
  have hsorts : ∀ q ∈ ps, q.1.sort = q.2.sort := by
    intro q hq
    obtain ⟨n, s, h1, h2⟩ := h.sorted q hq
    rw [h1, h2, Term.sort_var]
  exact Operand.mapM_termPair_terms hsorts

/-- Putting an example's values in for its constants gives an assignment
that agrees with it. -/
theorem agrees_replace (h : ClosedPairs ps) (ρ : Assignment) : Agrees (Table.ofPairs ps) (ρ.replace ps) := by
  intro n s v hv
  have hq : (Term.var n s, v) ∈ ps := by simpa using hv
  rw [Term.eval_var, Assignment.replace_of_mem h.nodup hq rfl, Option.getD_some]
  exact h.eval_value hq ρ _

/-- With an example's values put in, a term over its constants evaluates,
under any assignment, as it does wherever the constants take those values. -/
theorem eval_replace (h : ClosedPairs ps) {t : Term} (ht : ∀ x ∈ t.vars, x ∈ ps.map Prod.fst)
    {ρ : Assignment} (hρ : Agrees (Table.ofPairs ps) ρ) (ρ' : Assignment) :
    (Term.replace ps t).eval ρ' = t.eval ρ := by
  rw [Term.eval_replace h.sorted]
  apply Term.eval_congr
  intro x hx
  obtain ⟨q, hq, rfl⟩ := List.mem_map.1 (ht x hx)
  obtain ⟨n, s, hqx, -⟩ := h.sorted q hq
  have hmem : (Operand.term (.var n s), Operand.term q.2) ∈ (Table.ofPairs ps).entries := by
    rw [← hqx]
    exact List.mem_map_of_mem hq
  rw [hqx, hρ n s q.2 hmem, Term.eval_var, Assignment.replace_of_mem h.nodup hq hqx, Option.getD_some]
  exact h.eval_value hq ρ' ρ

theorem keys_var (h : ClosedPairs ps) : ∀ c ∈ ps.map Prod.fst, ∃ n s, c = .var n s := by
  intro c hc
  obtain ⟨q, hq, rfl⟩ := List.mem_map.1 hc
  obtain ⟨n, s, h1, -⟩ := h.sorted q hq
  exact ⟨n, s, h1⟩

theorem wordExample {w : Nat} (h : ClosedPairs ps) (hwidth : ∀ q ∈ ps, q.1.sort = .bv w) :
    WordExample w (Table.ofPairs ps) := by
  intro p hp
  obtain ⟨q, hq, rfl⟩ := List.mem_map.1 hp
  obtain ⟨n, s, h1, h2⟩ := h.sorted q hq
  have hs : s = .bv w := by rw [← hwidth q hq, h1, Term.sort_var]
  exact ⟨n, q.2, by rw [h1, hs], h2.trans hs, h.closed q hq⟩

theorem holdsAt_iff (h : ClosedPairs ps) {t : Term} (ht : ∀ x ∈ t.vars, x ∈ ps.map Prod.fst) (ρ' : Assignment) :
    HoldsAt (Table.ofPairs ps) t ↔ (Term.replace ps t).eval ρ' = .bool true := by
  constructor
  · intro hholds
    rw [h.eval_replace ht (h.agrees_replace ρ') ρ']
    exact hholds _ (h.agrees_replace ρ')
  · intro htrue ρ hρ
    rwa [← h.eval_replace ht hρ ρ']

theorem failsAt_iff (h : ClosedPairs ps) {t : Term} (ht : ∀ x ∈ t.vars, x ∈ ps.map Prod.fst) (ρ' : Assignment) :
    FailsAt (Table.ofPairs ps) t ↔ (Term.replace ps t).eval ρ' ≠ .bool true := by
  constructor
  · intro hfails
    rw [h.eval_replace ht (h.agrees_replace ρ') ρ']
    exact hfails _ (h.agrees_replace ρ')
  · intro hfalse ρ hρ
    rwa [← h.eval_replace ht hρ ρ']

end ClosedPairs

/-! ## What the solver is asked -/

theorem satisfiable_closed {t : Term} (ht : t.vars = []) :
    Satisfiable [t] ↔ t.eval (fun _ _ => none) = .bool true := by
  constructor
  · rintro ⟨ρ, -, hall⟩
    rw [← hall t List.mem_cons_self]
    exact Term.eval_congr t fun x hx => by simp [ht] at hx
  · intro htrue
    exact ⟨_, Assignment.sorted_none, by simpa using htrue⟩

/-- The comparison a negative example is checked on is the negation of the
one kept. -/
theorem eval_reject {keep reject : BinOp} (hkr : (keep, reject) ∈ comparisons) (a b : Term) (ρ : Assignment) :
    (Term.app reject.fn [a, b]).eval ρ = .bool true ↔ (Term.app keep.fn [a, b]).eval ρ ≠ .bool true := by
  simp only [comparisons, List.mem_cons, Prod.mk.injEq, List.not_mem_nil, or_false] at hkr
  rcases hkr with ⟨rfl, rfl⟩ | ⟨rfl, rfl⟩ | ⟨rfl, rfl⟩ | ⟨rfl, rfl⟩ | ⟨rfl, rfl⟩ <;>
    simp only [Term.eval_app, Term.apply, Term.evalSort, BinOp.fn, List.map_cons, List.map_nil]
  case inr.inr.inl =>
    by_cases h : a.eval ρ = b.eval ρ
    · simp [h, List.eraseDups_cons]
    · simp [h, Ne.symm h, List.eraseDups_cons]
  all_goals cases a.sort <;> simp [Term.wordBinary, Term.intBinary]

/-! ## The atoms of one filled sketch -/

theorem sort_reject {keep reject : BinOp} (hkr : (keep, reject) ∈ comparisons) (a b : Term) :
    (Term.app reject.fn [a, b]).sort = .bool := by
  simp only [comparisons, List.mem_cons, Prod.mk.injEq, List.not_mem_nil, or_false] at hkr
  rcases hkr with ⟨-, rfl⟩ | ⟨-, rfl⟩ | ⟨-, rfl⟩ | ⟨-, rfl⟩ | ⟨-, rfl⟩ <;>
    simp [Term.sort_app, Term.appSort, Fn.isPredicate, BinOp.fn]

/-- The relations a filled sketch is compared with `0` by, in the order they
are tried. -/
def relations : List BinOp := [.le, .ge, .eq, .gt, .lt]

open Classical in
/-- The comparisons `e R 0`, for the relations `R` in order, that separate
the examples. -/
noncomputable def separatingComparisons (w : Nat) (positive : Table) (negatives : List Table) (e : Term) :
    List Term :=
  (relations.filter fun R => decide (Separates positive negatives (.app R.fn [e, Term.ofInt w 0]))).map
    fun R => .app R.fn [e, Term.ofInt w 0]

section Separation

variable {es : List (Term × Term)} {ns : List (List (Term × Term))}

/-- The facts a comparison of a filled sketch is checked on, at the positive
example and with the opposite comparison at each negative one, can hold
together exactly when the comparison separates the examples. -/
theorem satisfiable_facts_iff (hes : ClosedPairs es) (hns : ∀ n ∈ ns, ClosedPairs n)
    (hcover : ∀ n ∈ ns, ∀ c ∈ es.map Prod.fst, c ∈ n.map Prod.fst) {e : Term}
    (he : ∀ x ∈ e.vars, x ∈ es.map Prod.fst) {keep reject : BinOp} (hkr : (keep, reject) ∈ comparisons)
    (w : Nat) :
    Satisfiable (.app keep.fn [Term.replace es e, Term.ofInt w 0] ::
        ns.map fun n => .app reject.fn [Term.replace n e, Term.ofInt w 0]) ↔
      Separates (Table.ofPairs es) (ns.map Table.ofPairs) (.app keep.fn [e, Term.ofInt w 0]) := by
  have hrep : ∀ ps, ClosedPairs ps → ∀ f : Fn,
      Term.replace ps (.app f [e, Term.ofInt w 0]) = .app f [Term.replace ps e, Term.ofInt w 0] := by
    intro ps hps f
    rw [Term.replace_app_of_sorted hps.sorted]
    simp [replace_ofInt hps.sorted]
  have hvars : ∀ f : Fn, ∀ x ∈ (Term.app f [e, Term.ofInt w 0]).vars, x ∈ es.map Prod.fst := by
    intro f x hx
    simp only [Term.mem_vars_app, List.mem_cons, List.not_mem_nil, or_false, exists_eq_or_imp,
      exists_eq_left, Term.ofInt, Term.vars_word, List.not_mem_nil, or_false] at hx
    exact he x hx
  have hnvars : ∀ n ∈ ns, ∀ f : Fn, ∀ x ∈ (Term.app f [e, Term.ofInt w 0]).vars, x ∈ n.map Prod.fst :=
    fun n hn f x hx => hcover n hn x (hvars f x hx)
  constructor
  · rintro ⟨ρ, -, hall⟩
    refine ⟨(hes.holdsAt_iff (hvars _) ρ).2 ?_, ?_⟩
    · rw [hrep es hes]
      exact hall _ List.mem_cons_self
    · intro n' hn'
      obtain ⟨n, hn, rfl⟩ := List.mem_map.1 hn'
      rw [(hns n hn).failsAt_iff (hnvars n hn _) ρ, hrep n (hns n hn), ← eval_reject hkr]
      exact hall _ (List.mem_cons_of_mem _ (List.mem_map_of_mem hn))
  · rintro ⟨hholds, hfails⟩
    refine ⟨_, Assignment.sorted_none, ?_⟩
    intro t ht
    rcases List.mem_cons.1 ht with rfl | ht
    · rw [← hrep es hes]
      exact (hes.holdsAt_iff (hvars _) _).1 hholds
    · obtain ⟨n, hn, rfl⟩ := List.mem_map.1 ht
      rw [eval_reject hkr, ← hrep n (hns n hn)]
      exact ((hns n hn).failsAt_iff (hnvars n hn _) _).1 (hfails _ (List.mem_map_of_mem hn))

open Classical in
/-- The atoms a filled `w`-bit sketch over the positive example's constants
gives are its comparisons with `0` that separate the examples, in order. -/
theorem sketchCandidates_eq (hdec : check.Decides) (hunsat : check.RefutesSoundly)
    (hmodels : check.ModelsSoundly) (hes : ClosedPairs es) (hns : ∀ n ∈ ns, ClosedPairs n)
    (hcover : ∀ n ∈ ns, ∀ c ∈ es.map Prod.fst, c ∈ n.map Prod.fst) {w : Nat} {e : Term}
    (hsort : e.sort = .bv w) (he : ∀ x ∈ e.vars, x ∈ es.map Prod.fst) :
    sketchCandidates check (.term e) (Table.ofPairs es) (ns.map Table.ofPairs) =
      .ok ((separatingComparisons w (Table.ofPairs es) (ns.map Table.ofPairs) e).map .term) := by
  have hpos : (Operand.term e).substitute (Table.ofPairs es).entries = .ok (Term.replace es e) :=
    Operand.substitute_eq_ok.2 ⟨e, es, rfl, hes.termPairs, rfl⟩
  have hnegs : (ns.map Table.ofPairs).mapM (fun n => (Operand.term e).substitute n.entries) =
      .ok (ns.map fun n => Term.replace n e) := by
    rw [List.mapM_map]
    exact mapM_eq_ok fun n hn => Operand.substitute_eq_ok.2 ⟨e, n, rfl, (hns n hn).termPairs, rfl⟩
  have hpsort : (Term.replace es e).sort = .bv w := by rw [Term.sort_replace hes.sorted, hsort]
  have hnsort : ∀ t ∈ ns.map fun n => Term.replace n e, t.sort = .bv w := by
    intro t ht
    obtain ⟨n, hn, rfl⟩ := List.mem_map.1 ht
    rw [Term.sort_replace (hns n hn).sorted, hsort]
  unfold sketchCandidates
  simp only [hpos, hnegs, ok_bind]
  refine (@filterMapM_eq_ok _ _ _ _ (fun kr : BinOp × BinOp =>
    if Separates (Table.ofPairs es) (ns.map Table.ofPairs) (.app kr.1.fn [e, Term.ofInt w 0])
    then some (Operand.term (.app kr.1.fn [e, Term.ofInt w 0])) else none) _ ?_).trans ?_
  · rintro ⟨keep, reject⟩ hkr
    have hfirst : (Operand.term (.app keep.fn [Term.replace es e, Term.ofInt w 0])).asCondition =
        .ok (.app keep.fn [Term.replace es e, Term.ofInt w 0]) :=
      Operand.asCondition_term.2 ⟨sort_compare hkr _ _, rfl⟩
    have hrest : (ns.map fun n => Term.replace n e).mapM
        (fun n => Operand.binary reject (.term n) (.int 0) >>= Operand.asCondition) =
          .ok ((ns.map fun n => Term.replace n e).map fun n => .app reject.fn [n, Term.ofInt w 0]) := by
      refine mapM_eq_ok fun t ht => ?_
      rw [Operand.binary_term_int reject (hnsort t ht)]
      exact Operand.asCondition_term.2 ⟨sort_reject hkr _ _, rfl⟩
    have hsat : satisfiable check (.app keep.fn [Term.replace es e, Term.ofInt w 0] ::
        (ns.map fun n => Term.replace n e).map fun n => .app reject.fn [n, Term.ofInt w 0]) =
        decide (Separates (Table.ofPairs es) (ns.map Table.ofPairs) (.app keep.fn [e, Term.ofInt w 0])) := by
      rw [Bool.eq_iff_iff, satisfiable_iff hdec hunsat hmodels, decide_eq_true_iff, List.map_map,
        ← satisfiable_facts_iff hes hns hcover he hkr w]
      rfl
    simp only [Operand.binary_term_int keep hpsort, Operand.binary_term_int keep hsort, ok_bind, hfirst, hrest,
      hsat]
    by_cases hsep : Separates (Table.ofPairs es) (ns.map Table.ofPairs) (.app keep.fn [e, Term.ofInt w 0]) <;>
      simp [hsep, pure, Except.pure]
  · rw [filterMap_ite]
    simp [separatingComparisons, show relations = comparisons.map Prod.fst from rfl, List.filter_map,
      Function.comp_def]

end Separation

/-! ## Sketches and their placeholders -/

/-- The sign-pattern sketches over placeholders `s₁ … sₙ`: every
right-nested chain `s₁ ∘ (s₂ ∘ (… ∘ sₙ))`, each `∘` a sum or a difference,
the outermost operator varying slowest and sums before differences. -/
def sketchTerms : List Term → List Term
  | [] => []
  | [s] => [s]
  | s :: t :: rest =>
    (sketchTerms (t :: rest)).map (fun e => .app .add [s, e]) ++
      (sketchTerms (t :: rest)).map fun e => .app .sub [s, e]

theorem sketchTerms_ne_nil : ∀ {ss : List Term}, ss ≠ [] → sketchTerms ss ≠ []
  | [], h => absurd rfl h
  | [_], _ => by simp [sketchTerms]
  | _ :: t :: rest, _ => by simp [sketchTerms, sketchTerms_ne_nil (List.cons_ne_nil t rest)]

theorem sort_sketchTerms {w : Nat} :
    ∀ {ss : List Term}, (∀ s ∈ ss, s.sort = .bv w) → ∀ e ∈ sketchTerms ss, e.sort = .bv w
  | [], _, e, he => by simp [sketchTerms] at he
  | [s], hss, e, he => by
    simp only [sketchTerms, List.mem_singleton] at he
    exact he ▸ hss s List.mem_cons_self
  | s :: t :: rest, hss, e, he => by
    have hrest := sort_sketchTerms fun x hx => hss x (List.mem_cons_of_mem s hx)
    have hs : s.sort = .bv w := hss s List.mem_cons_self
    simp only [sketchTerms, List.mem_append, List.mem_map] at he
    rcases he with ⟨e', he', rfl⟩ | ⟨e', he', rfl⟩ <;>
      simp [Term.sort_app, Term.appSort, Fn.isPredicate, hs, hrest e' he']

theorem chains_eq {w : Nat} {ss : List Term} (hss : ∀ s ∈ ss, s.sort = .bv w) :
    ∀ (fuel i : Nat), i ≤ ss.length → ss.length - i < fuel →
      Sketch.chains (ss.map .term) fuel i = .ok ((sketchTerms (ss.drop i)).map .term) := by
  intro fuel
  induction fuel with
  | zero => intro i _ hfuel; omega
  | succ fuel ih =>
    intro i hi hfuel
    simp only [Sketch.chains, List.length_map]
    split
    · rename_i hend
      have hend : i = ss.length := by exact_mod_cast hend
      subst hend
      simp [sketchTerms]
    · rename_i hend
      have hlt : i < ss.length := by
        have : i ≠ ss.length := fun e => hend (by rw [e])
        omega
      have hat : Sketch.at? (ss.map .term) i = some (.term ss[i]) := by simp [Sketch.at?, hlt]
      have hrest : Sketch.chains (ss.map .term) fuel (↑i + 1) =
          .ok ((sketchTerms (ss.drop (i + 1))).map .term) := by
        simpa using ih (i + 1) (by omega) (by omega)
      have hsym : ss[i].sort = .bv w := hss _ (List.getElem_mem hlt)
      have hsorts : ∀ e ∈ sketchTerms (ss.drop (i + 1)), e.sort = .bv w :=
        sort_sketchTerms fun x hx => hss x (List.mem_of_mem_drop hx)
      have hop : ∀ op : BinOp, op.isComparison = false →
          ((sketchTerms (ss.drop (i + 1))).map Operand.term).mapM (Operand.binary op (.term ss[i])) =
            .ok ((sketchTerms (ss.drop (i + 1))).map fun e => .term (.app op.fn [ss[i], e])) := by
        intro op hop
        rw [List.mapM_map]
        exact mapM_eq_ok fun e he => Operand.binary_term_term hop hsym (hsorts e he)
      rw [hat]
      simp only [hrest, hop .add rfl, hop .sub rfl, ok_bind]
      rw [List.drop_eq_getElem_cons hlt]
      cases hdrop : ss.drop (i + 1) with
      | nil => simp [sketchTerms, pure, Except.pure]
      | cons t rest =>
        have hne := sketchTerms_ne_nil (List.cons_ne_nil t rest)
        simp [sketchTerms, BinOp.fn, pure, Except.pure, hne, Function.comp_def]

theorem ofOperands_eq {w : Nat} {ss : List Term} (hss : ∀ s ∈ ss, s.sort = .bv w) :
    Sketch.ofOperands (ss.map .term) 0 = .ok ((sketchTerms ss).map .term) := by
  have h := chains_eq hss (ss.length + 1) 0 (Nat.zero_le _) (by omega)
  simpa [Sketch.ofOperands] using h

/-- The placeholders `symb_1 … symb_k` of width `w`. -/
def placeholderTerms (k w : Nat) : List Term :=
  (List.range k).map fun i => .var ("symb_" ++ toString (i + 1)) (.bv w)

theorem sort_placeholderTerms (k w : Nat) : ∀ s ∈ placeholderTerms k w, s.sort = .bv w := by
  intro s hs
  obtain ⟨i, -, rfl⟩ := List.mem_map.1 hs
  exact Term.sort_var _ _

theorem ofWidth_pos {w : Nat} (hw : 0 < w) : TermSort.ofWidth w = .ok (.bv w) := by
  unfold TermSort.ofWidth
  rw [if_neg (by omega), if_neg (by omega)]
  simp

theorem placeholders_eq {w : Nat} (hw : 0 < w) (k : Nat) :
    placeholders k w = .ok ((placeholderTerms k w).map .term) := by
  unfold placeholders placeholderTerms
  rw [List.map_map]
  exact mapM_eq_ok fun i _ => by simp [Term.bvConst, ofWidth_pos hw, ok_bind, pure, Except.pure]

theorem bvVal_eq {w : Nat} (hw : 0 < w) (v : Int) : Term.bvVal v w = .ok (Term.ofInt w v) := by
  simp [Term.bvVal, ofWidth_pos hw, ok_bind, TermSort.width, pure, Except.pure]

/-! ## Fillings -/

/-- A list of different terms holds the same terms as `[z, o]`, for
`z ≠ o`, exactly when it has two of them, each `z` or `o`. -/
theorem nodup_pair_iff {us : List Term} (hnodup : us.Nodup) {z o : Term} (hzo : z ≠ o) :
    (us.length = 2 ∧ ∀ x ∈ us, x = z ∨ x = o) ↔ ∀ a, a ∈ us ↔ a = z ∨ a = o := by
  have hpair : [z, o].Nodup := by simp [hzo]
  constructor
  · rintro ⟨hlen, hsub⟩
    have hperm : us.Perm [z, o] :=
      (hnodup.subperm fun x hx => by rcases hsub x hx with rfl | rfl <;> simp).perm_of_length_le
        (by simp [hlen])
    intro a
    rw [hperm.mem_iff]
    simp
  · intro hmem
    have hperm : us.Perm [z, o] := (List.perm_ext_iff_of_nodup hnodup hpair).2 fun a => by simp [hmem a]
    exact ⟨by simpa using hperm.length_eq, fun x hx => (hmem x).1 hx⟩

/-- Terms hold the same terms as `[z, o]`, for `z ≠ o`, exactly when those
are their terms. -/
theorem sameSet_pair {κ : List Term} {z o : Term} (hzo : z ≠ o) :
    sameSet (κ.map .term) [.term z, .term o] = true ↔ ∀ a, a ∈ κ ↔ a = z ∨ a = o := by
  obtain ⟨us, hus, hnodup, hmem⟩ := distinct_terms κ
  have hpair : distinct [Operand.term z, .term o] = [.term z, .term o] := by
    simp [distinct, hzo]
  have hiff : (∀ a, a ∈ κ ↔ a = z ∨ a = o) ↔ ∀ a, a ∈ us ↔ a = z ∨ a = o :=
    forall_congr' fun a => by rw [hmem]
  rw [hiff, ← nodup_pair_iff hnodup hzo]
  simp [sameSet, hus, hpair, @eq_comm _ z, @eq_comm _ o]

/-- A sequence of constants, `0` and `1` with two different entries holds
other terms than `0` and `1` exactly when it holds a constant. -/
theorem filling_iff {keys κ : List Term} {z o : Term} (hz : z ∉ keys) (ho : o ∉ keys)
    (hκ : ∀ a ∈ κ, a ∈ keys ∨ a = z ∨ a = o) (htwo : ∃ a ∈ κ, ∃ b ∈ κ, a ≠ b) :
    ¬ (∀ a, a ∈ κ ↔ a = z ∨ a = o) ↔ ∃ a ∈ κ, a ∈ keys := by
  constructor
  · intro hne
    by_contra hnone
    apply hne
    have hzo : ∀ x ∈ κ, x = z ∨ x = o := fun x hx => (hκ x hx).resolve_left fun hk => hnone ⟨x, hx, hk⟩
    -- with no constant, the two different entries are `0` and `1`
    obtain ⟨a, ha, b, hb, hab⟩ := htwo
    have hboth : z ∈ κ ∧ o ∈ κ := by
      rcases hzo a ha with rfl | rfl <;> rcases hzo b hb with rfl | rfl
      · exact absurd rfl hab
      · exact ⟨ha, hb⟩
      · exact ⟨hb, ha⟩
      · exact absurd rfl hab
    intro x
    refine ⟨hzo x, ?_⟩
    rintro (rfl | rfl)
    · exact hboth.1
    · exact hboth.2
  · rintro ⟨a, ha, hkey⟩ hall
    rcases (hall a).1 ha with rfl | rfl
    · exact hz hkey
    · exact ho hkey

theorem ofInt_zero_ne_one {w : Nat} (hw : 0 < w) : Term.ofInt w 0 ≠ Term.ofInt w 1 := by
  rw [Term.ofInt_eq_word, Term.ofInt_eq_word, Word.wrap_zero, Word.wrap_one hw]
  simp

/-- The fillings of `k` placeholders: the sequences of `k` of the constants,
`0` and `1`, in tuple order, that hold a constant and two different
entries. -/
def fillings (keys : List Term) (w k : Nat) : List (List Term) :=
  (tuples (keys ++ [Term.ofInt w 0, Term.ofInt w 1]) k).filter fun κ =>
    decide ((∃ a ∈ κ, a ∈ keys) ∧ ∃ a ∈ κ, ∃ b ∈ κ, a ≠ b)

/-- Keeping the sequences of constants, `0` and `1` with two different
entries that are not just `0` and `1` keeps the fillings. -/
theorem filter_fillings {keys : List Term} {w : Nat} (hw : 0 < w) (hkeys : ∀ c ∈ keys, ∃ n s, c = .var n s)
    (k : Nat) :
    (tuples (keys.map .term ++ [.term (Term.ofInt w 0), .term (Term.ofInt w 1)]) k).filter (fun combo =>
        decide ((distinct combo).length > 1) && !sameSet combo [.term (Term.ofInt w 0), .term (Term.ofInt w 1)]) =
      (fillings keys w k).map (List.map .term) := by
  have hvalues : keys.map Operand.term ++ [.term (Term.ofInt w 0), .term (Term.ofInt w 1)] =
      (keys ++ [Term.ofInt w 0, Term.ofInt w 1]).map .term := by simp
  have hnum : ∀ v, Term.ofInt w v ∉ keys := by
    intro v hv
    obtain ⟨n, s, he⟩ := hkeys _ hv
    cases he
  rw [hvalues, tuples_map, List.filter_map]
  congr 1
  apply List.filter_congr
  intro κ hκ
  have hmem : ∀ a ∈ κ, a ∈ keys ∨ a = Term.ofInt w 0 ∨ a = Term.ofInt w 1 := by
    simpa using (mem_tuples hκ).2
  rw [Function.comp_apply, Bool.eq_iff_iff]
  simp only [Bool.and_eq_true, decide_eq_true_eq, gt_iff_lt, one_lt_distinct_terms, Bool.not_eq_true',
    ← Bool.not_eq_true, sameSet_pair (ofInt_zero_ne_one hw)]
  constructor
  · rintro ⟨htwo, hne⟩
    exact ⟨(filling_iff (hnum 0) (hnum 1) hmem htwo).1 hne, htwo⟩
  · rintro ⟨hkey, htwo⟩
    exact ⟨htwo, (filling_iff (hnum 0) (hnum 1) hmem htwo).2 hkey⟩

/-! ## Power-of-two atoms -/

/-- The power-of-two atoms: the test `c & (c - 1) == 0` of each constant
`c` whose value passes it, in order. -/
def powerAtoms (w : Nat) (es : List (Term × Term)) : List Term :=
  (es.filter fun q => decide ((powerTerm w q.2).eval (fun _ _ => none) = .bool true)).map
    fun q => powerTerm w q.1

theorem powerCandidates_eq (hdec : check.Decides) (hunsat : check.RefutesSoundly)
    (hmodels : check.ModelsSoundly) {w : Nat} {es : List (Term × Term)} (hes : ClosedPairs es)
    (hwidth : ∀ q ∈ es, q.1.sort = .bv w) :
    powerCandidates check (Table.ofPairs es) = .ok ((powerAtoms w es).map .term) := by
  unfold powerCandidates
  rw [Table.entries_ofPairs, filterMapM_map]
  refine (@filterMapM_eq_ok _ _ _ _ (fun q : Term × Term =>
    if (powerTerm w q.2).eval (fun _ _ => none) = .bool true then some (Operand.term (powerTerm w q.1))
    else none) _ ?_).trans ?_
  · intro q hq
    obtain ⟨n, s, h1, h2⟩ := hes.sorted q hq
    have hc : q.1.sort = .bv w := hwidth q hq
    have hv : q.2.sort = .bv w := by rw [h2, ← hc, h1, Term.sort_var]
    have hclosed : (powerTerm w q.2).vars = [] := vars_powerTerm (hes.closed q hq)
    have hsat : satisfiable check [powerTerm w q.2] =
        decide ((powerTerm w q.2).eval (fun _ _ => none) = .bool true) := by
      rw [Bool.eq_iff_iff, satisfiable_iff hdec hunsat hmodels, decide_eq_true_iff, satisfiable_closed hclosed]
    have hcond : (Operand.term (powerTerm w q.2)).asCondition = .ok (powerTerm w q.2) :=
      Operand.asCondition_term.2 ⟨sort_powerTerm w q.2, rfl⟩
    simp only [Function.comp_apply, powerOfTwo_term hv, powerOfTwo_term hc, ok_bind, hcond, hsat]
    by_cases hp : (powerTerm w q.2).eval (fun _ _ => none) = .bool true <;> simp [hp, pure, Except.pure]
  · rw [filterMap_ite]
    simp [powerAtoms, Function.comp_def]

/-! ## The pool -/

section Pool

variable {w : Nat} {es : List (Term × Term)} {ns : List (List (Term × Term))}

open Classical in
/-- The sketch atoms: for each sketch over the placeholders, each filling
and each relation in order, the filled sketch compared with `0` by the
relation when that separates the examples. -/
noncomputable def sketchAtoms (w : Nat) (es : List (Term × Term)) (ns : List (List (Term × Term))) :
    List Term :=
  (sketchTerms (placeholderTerms es.length w)).flatMap fun s =>
    (fillings (es.map Prod.fst) w es.length).flatMap fun κ =>
      separatingComparisons w (Table.ofPairs es) (ns.map Table.ofPairs)
        (Term.replace ((placeholderTerms es.length w).zip κ) s)

/-- The atoms that separate a positive example from negative ones: the
power-of-two atoms, then the sketch atoms. -/
noncomputable def atomPool (w : Nat) (es : List (Term × Term)) (ns : List (List (Term × Term))) :
    List Term :=
  powerAtoms w es ++ sketchAtoms w es ns

/-- A sketch filled in with a filling is a `w`-bit term over the constants
of the positive example. -/
theorem filled_sketch (hex : WordExample w (Table.ofPairs es)) {s : Term}
    (hs : s ∈ sketchTerms (placeholderTerms es.length w)) {κ : List Term}
    (hκ : κ ∈ fillings (es.map Prod.fst) w es.length) :
    (Operand.term s).substitute (((placeholderTerms es.length w).map .term).zip (κ.map .term)) =
        .ok (Term.replace ((placeholderTerms es.length w).zip κ) s) ∧
      (Term.replace ((placeholderTerms es.length w).zip κ) s).sort = .bv w ∧
      ∀ x ∈ (Term.replace ((placeholderTerms es.length w).zip κ) s).vars, x ∈ es.map Prod.fst := by
  set ss := placeholderTerms es.length w
  obtain ⟨hlen, hmem⟩ := mem_tuples (List.mem_filter.1 hκ).1
  have hss : ∀ s ∈ ss, ∃ name, s = .var name (.bv w) := by
    intro s hs
    obtain ⟨i, -, rfl⟩ := List.mem_map.1 hs
    exact ⟨_, rfl⟩
  have hfiller : ∀ a ∈ κ, Filler (Table.ofPairs es).keys w a := by
    intro a ha
    rcases List.mem_append.1 (hmem a ha) with hk | hk
    · exact .inl (by simpa using hk)
    · exact .inr (by simpa using hk)
  have hsorts : ∀ p ∈ ss.zip κ, p.1.sort = p.2.sort := by
    intro p hp
    obtain ⟨name, hname⟩ := hss p.1 (List.of_mem_zip hp).1
    rw [hname, Term.sort_var, (hfiller p.2 (List.of_mem_zip hp).2).sort hex]
  have hsub : (Operand.term s).substitute ((ss.map .term).zip (κ.map .term)) = .ok (Term.replace (ss.zip κ) s) := by
    rw [List.zip_map]
    exact substitute_terms hsorts
  have hchain : Chain (· ∈ ss) ss.length s := by
    obtain ⟨e, he, hc, -⟩ := ofOperands_ok (sort_placeholderTerms _ _) (ofOperands_eq (sort_placeholderTerms _ _))
      _ (List.mem_map_of_mem hs)
    cases he
    exact hc
  have hfill : Chain (Filler (Table.ofPairs es).keys w) ss.length (Term.replace (ss.zip κ) s) :=
    fill_chain hss hchain (by simp [ss, placeholderTerms, hlen])
      (fun a ha => by
        obtain ⟨b, hb, rfl⟩ := List.mem_map.1 ha
        rcases hfiller b hb with hk | rfl | rfl
        · exact List.mem_append_left _ hk
        · simp
        · simp) hsub
  refine ⟨hsub, hfill.sort_eq fun a ha => ha.sort hex, fun x hx => ?_⟩
  obtain ⟨a, ha, hxa⟩ := hfill.vars_sub hx
  simpa using ha.vars hex hxa

/-- With a decision procedure that is right, the candidates built before the
conjunction rounds are exactly the atoms that separate the examples: the
power-of-two atoms, then the sketch atoms, in order. -/
theorem candidates_eq_atomPool (hdec : check.Decides) (hunsat : check.RefutesSoundly)
    (hmodels : check.ModelsSoundly) (hw : 0 < w) (hes : ClosedPairs es) (hwidth : ∀ q ∈ es, q.1.sort = .bv w)
    (hns : ∀ n ∈ ns, ClosedPairs n) (hcover : ∀ n ∈ ns, ∀ c ∈ es.map Prod.fst, c ∈ n.map Prod.fst) :
    candidates check (Table.ofPairs es) (ns.map Table.ofPairs) w = .ok ((atomPool w es ns).map .term) := by
  have hex := hes.wordExample hwidth
  unfold candidates
  simp only [Table.size_ofPairs, placeholders_eq hw, ofOperands_eq (sort_placeholderTerms _ _), bvVal_eq hw,
    Table.keys_ofPairs, filter_fillings hw hes.keys_var, powerCandidates_eq hdec hunsat hmodels hes hwidth, ok_bind]
  rw [List.mapM_map]
  refine (@mapM_bind_eq_ok _ _ _ _ _ (fun s => ((fillings (es.map Prod.fst) w es.length).flatMap fun κ =>
    separatingComparisons w (Table.ofPairs es) (ns.map Table.ofPairs)
      (Term.replace ((placeholderTerms es.length w).zip κ) s)).map Operand.term) _ _ ?_).trans ?_
  · intro s hs
    rw [Function.comp_apply, List.mapM_map]
    refine (@mapM_bind_eq_ok _ _ _ _ _ (fun κ => (separatingComparisons w (Table.ofPairs es)
      (ns.map Table.ofPairs) (Term.replace ((placeholderTerms es.length w).zip κ) s)).map Operand.term) _ _ ?_).trans ?_
    · intro κ hκ
      obtain ⟨hsub, hsort, hvars⟩ := filled_sketch hex hs hκ
      rw [Function.comp_apply, hsub, ok_bind]
      exact sketchCandidates_eq hdec hunsat hmodels hes hns hcover hsort hvars
    · rw [List.map_flatMap, List.flatMap_def]
      rfl
  · rw [atomPool, sketchAtoms, List.map_append, List.map_flatMap, List.flatMap_def]
    rfl

/-- Two 3-bit constants `c` and `d`, positive at `4` and `1`, negative at `3`
and `2`: the checks of the pool hold of these examples. -/
theorem pool_of_two_constants :
    ClosedPairs [(.var "c" (.bv 3), .word 3 4), (.var "d" (.bv 3), .word 3 1)] ∧
    ClosedPairs [(.var "c" (.bv 3), .word 3 3), (.var "d" (.bv 3), .word 3 2)] ∧
    candidates Checker.exact (Table.ofPairs [(.var "c" (.bv 3), .word 3 4), (.var "d" (.bv 3), .word 3 1)])
        ([[(.var "c" (.bv 3), .word 3 3), (.var "d" (.bv 3), .word 3 2)]].map Table.ofPairs) 3 =
      .ok ((atomPool 3 [(.var "c" (.bv 3), .word 3 4), (.var "d" (.bv 3), .word 3 1)]
        [[(.var "c" (.bv 3), .word 3 3), (.var "d" (.bv 3), .word 3 2)]]).map .term) := by
  have hclosed : ∀ u v : Nat, ClosedPairs [(.var "c" (.bv 3), .word 3 u), (.var "d" (.bv 3), .word 3 v)] := by
    intro u v
    refine ⟨?_, by simp, by simp⟩
    intro p hp
    simp only [List.mem_cons, List.not_mem_nil, or_false] at hp
    rcases hp with rfl | rfl
    · exact ⟨"c", .bv 3, rfl, Term.sort_word 3 u⟩
    · exact ⟨"d", .bv 3, rfl, Term.sort_word 3 v⟩
  refine ⟨hclosed 4 1, hclosed 3 2, candidates_eq_atomPool Checker.exact_decides Checker.exact_refutesSoundly
    Checker.exact_modelsSoundly (by decide) (hclosed 4 1) (by simp) (by simp [hclosed 3 2]) (by simp)⟩

/-- An example given both as the positive one and as a negative one leaves
no sketch atom: none holds at it and fails at it. -/
theorem sketchAtoms_eq_nil_of_mem (hes : ClosedPairs es) (hmem : es ∈ ns) : sketchAtoms w es ns = [] := by
  have hnone : ∀ t, ¬ Separates (Table.ofPairs es) (ns.map Table.ofPairs) t := by
    rintro t ⟨hholds, hfails⟩
    have hagree := hes.agrees_replace (fun _ _ => none)
    exact hfails _ (List.mem_map_of_mem hmem) _ hagree (hholds _ hagree)
  simp [sketchAtoms, separatingComparisons, hnone]

theorem candidates_eq_powerAtoms_of_mem (hdec : check.Decides) (hunsat : check.RefutesSoundly)
    (hmodels : check.ModelsSoundly) (hw : 0 < w) (hes : ClosedPairs es) (hwidth : ∀ q ∈ es, q.1.sort = .bv w)
    (hns : ∀ n ∈ ns, ClosedPairs n) (hcover : ∀ n ∈ ns, ∀ c ∈ es.map Prod.fst, c ∈ n.map Prod.fst)
    (hmem : es ∈ ns) :
    candidates check (Table.ofPairs es) (ns.map Table.ofPairs) w = .ok ((powerAtoms w es).map .term) := by
  rw [candidates_eq_atomPool hdec hunsat hmodels hw hes hwidth hns hcover, atomPool,
    sketchAtoms_eq_nil_of_mem hes hmem, List.append_nil]

end Pool

end Precondition
end SmtSynth
