import Mathlib
import SmtSynth.Synth.Precondition
import SmtSynth.Proofs.Operands
import SmtSynth.Proofs.Checker
import SmtSynth.Proofs.Choice
/-!
# The candidate preconditions

What precondition synthesis can propose, said once as the predicate `Atom`:
over the constants of a positive example at width `w`, a candidate is
`c & (c - 1) == 0` for one of them (`powerTerm`), or a sign-pattern chain of
as many terms as there are constants (`Chain`), each a constant, `0` or `1`
(`Filler`), compared with `0` by one of the five comparisons.

`candidates_atoms` says that every candidate found is such an atom, and
holds wherever the constants take their positive values (`HoldsAt`), when
the positive example gives closed `w`-bit values to `w`-bit constants
(`WordExample`) and the decision procedure's models are right.
-/

namespace SmtSynth
namespace Precondition

/-! ## The shape of a candidate -/

/-- The condition `c & (c - 1) == 0` on a `w`-bit term. -/
def powerTerm (w : Nat) (c : Term) : Term :=
  .app .eq [.app .band [c, .app .sub [c, Term.ofInt w 1]], Term.ofInt w 0]

/-- Right-nested sums and differences `a₁ ∘ (a₂ ∘ (… ∘ aₙ))` of `n` terms
that satisfy `F`. -/
inductive Chain (F : Term → Prop) : Nat → Term → Prop where
  | one {a : Term} : F a → Chain F 1 a
  | add {a e : Term} {n : Nat} : F a → Chain F n e → Chain F (n + 1) (.app .add [a, e])
  | sub {a e : Term} {n : Nat} : F a → Chain F n e → Chain F (n + 1) (.app .sub [a, e])

/-- What a placeholder of a sketch is filled with: a constant of the positive
example, `0` or `1`. -/
def Filler (keys : List Operand) (w : Nat) (a : Term) : Prop :=
  .term a ∈ keys ∨ a = Term.ofInt w 0 ∨ a = Term.ofInt w 1

/-- The conditions proposed over the constants `keys` of a positive example at
width `w`: the power-of-two test of one constant, or a chain of as many
fillers as there are constants compared with `0`. -/
inductive Atom (keys : List Operand) (w : Nat) : Term → Prop where
  | power {c : Term} : .term c ∈ keys → Atom keys w (powerTerm w c)
  | compare {keep reject : BinOp} {e : Term} : (keep, reject) ∈ comparisons →
      Chain (Filler keys w) keys.length e → Atom keys w (.app keep.fn [e, Term.ofInt w 0])

theorem sort_compare {keep reject : BinOp} (hkr : (keep, reject) ∈ comparisons) (a b : Term) :
    (Term.app keep.fn [a, b]).sort = .bool := by
  simp only [comparisons, List.mem_cons, Prod.mk.injEq, List.not_mem_nil, or_false] at hkr
  rcases hkr with ⟨rfl, -⟩ | ⟨rfl, -⟩ | ⟨rfl, -⟩ | ⟨rfl, -⟩ | ⟨rfl, -⟩ <;>
    simp [Term.sort_app, Term.appSort, Fn.isPredicate, BinOp.fn]

/-- A positive example at width `w`: named `w`-bit constants with closed
`w`-bit values. -/
def WordExample (w : Nat) (positive : Table) : Prop :=
  ∀ p ∈ positive.entries, ∃ n v, p = (.term (.var n (.bv w)), .term v) ∧ v.sort = .bv w ∧ v.vars = []

/-- `t` holds wherever the constants of the positive example take their
values. -/
def HoldsAt (positive : Table) (t : Term) : Prop :=
  ∀ ρ : Assignment, (∀ n s v, (.term (.var n s), .term v) ∈ positive.entries →
    (Term.var n s).eval ρ = v.eval ρ) → t.eval ρ = .bool true

/-! ## Chains -/

namespace Chain

variable {F : Term → Prop} {n : Nat} {e : Term}

theorem sort_eq {w : Nat} (h : Chain F n e) (hF : ∀ a, F a → a.sort = .bv w) : e.sort = .bv w := by
  induction h with
  | one ha => exact hF _ ha
  | add ha _ _ | sub ha _ _ => simp [Term.sort_app, Term.appSort, Fn.isPredicate, hF _ ha]

theorem vars_sub (h : Chain F n e) {x : Term} (hx : x ∈ e.vars) : ∃ a, F a ∧ x ∈ a.vars := by
  induction h with
  | one ha => exact ⟨_, ha, hx⟩
  | add ha _ ih | sub ha _ ih =>
    simp only [Term.mem_vars_app, List.mem_cons, List.not_mem_nil, or_false, exists_eq_or_imp,
      exists_eq_left] at hx
    rcases hx with hx | hx
    · exact ⟨_, ha, hx⟩
    · exact ih hx

/-- Replacing constants by terms of their sorts maps a chain to the chain of
the replaced terms. -/
theorem replace {F' : Term → Prop} {ps : List (Term × Term)} (hps : Term.SortedPairs ps) (h : Chain F n e)
    (hF : ∀ a, F a → F' (Term.replace ps a)) : Chain F' n (Term.replace ps e) := by
  induction h with
  | one ha => exact .one (hF _ ha)
  | add ha _ ih =>
    rw [Term.replace_app_of_sorted hps]
    exact .add (hF _ ha) ih
  | sub ha _ ih =>
    rw [Term.replace_app_of_sorted hps]
    exact .sub (hF _ ha) ih

/-- A sum or a difference with a `w`-bit term satisfying `F` in front of a
`w`-bit chain is a chain one longer. -/
theorem binary_ok {w : Nat} (hF : ∀ a, F a → a.sort = .bv w) {op : BinOp} (hop : op = .add ∨ op = .sub)
    {a : Term} (ha : F a) (he : Chain F n e) (hsort : e.sort = .bv w) {sk : Operand}
    (h : Operand.binary op (.term a) (.term e) = .ok sk) :
    ∃ e', sk = .term e' ∧ Chain F (n + 1) e' ∧ e'.sort = .bv w := by
  have hsa := hF a ha
  rcases hop with rfl | rfl
  · rw [Operand.binary_term_term rfl hsa hsort] at h
    cases h
    exact ⟨_, rfl, .add ha he, (Chain.add ha he).sort_eq hF⟩
  · rw [Operand.binary_term_term rfl hsa hsort] at h
    cases h
    exact ⟨_, rfl, .sub ha he, (Chain.sub ha he).sort_eq hF⟩

end Chain

/-! ## Sketches -/

/-- The sketches over `w`-bit placeholders from position `i` on are chains of
the placeholders left, and there is one unless none is left. -/
theorem chains_ok {w : Nat} {syms : List Term} (hsyms : ∀ s ∈ syms, s.sort = .bv w) :
    ∀ (fuel i : Nat) {l : List Operand}, i ≤ syms.length → syms.length - i < fuel →
      Sketch.chains (syms.map .term) fuel i = .ok l →
      (i < syms.length → l ≠ []) ∧
      ∀ sk ∈ l, ∃ e, sk = .term e ∧ Chain (· ∈ syms) (syms.length - i) e ∧ e.sort = .bv w := by
  intro fuel
  induction fuel with
  | zero => intro i l _ hfuel; omega
  | succ fuel ih =>
    intro i l hi hfuel h
    simp only [Sketch.chains, List.length_map] at h
    split at h
    · rename_i hend
      have hend : i = syms.length := by exact_mod_cast hend
      cases h
      exact ⟨by omega, by simp⟩
    · rename_i hend
      have hlt : i < syms.length := by
        have : i ≠ syms.length := fun e => hend (by rw [e])
        omega
      have hat : Sketch.at? (syms.map .term) i = some (.term syms[i]) := by
        simp [Sketch.at?, hlt]
      rw [hat] at h
      simp only at h
      obtain ⟨rest, hrest, h⟩ := bind_eq_ok.1 h
      obtain ⟨plus, hplus, h⟩ := bind_eq_ok.1 h
      obtain ⟨minus, hminus, h⟩ := bind_eq_ok.1 h
      simp only [pure, Except.pure, Except.ok.injEq] at h
      subst h
      have hrest' : Sketch.chains (syms.map .term) fuel (↑(i + 1)) = .ok rest := by
        simpa using hrest
      obtain ⟨hne, hrest⟩ := ih (i + 1) (by omega) (by omega) hrest'
      have hsym : syms[i] ∈ syms := List.getElem_mem hlt
      have hstep : ∀ op : BinOp, op = .add ∨ op = .sub → ∀ ys,
          rest.mapM (Operand.binary op (.term syms[i])) = .ok ys →
          ∀ sk ∈ ys, ∃ e, sk = .term e ∧ Chain (· ∈ syms) (syms.length - i) e ∧ e.sort = .bv w := by
        intro op hop ys hys sk hsk
        obtain ⟨r, hr, hsk⟩ := (mem_of_mapM hys).1 sk hsk
        obtain ⟨e, rfl, he, hsort⟩ := hrest r hr
        rw [show syms.length - i = syms.length - (i + 1) + 1 by omega]
        exact he.binary_ok hsyms hop hsym hsort hsk
      split
      · rename_i hnil
        have hrest_nil : rest = [] := by
          have := congrArg List.length (List.isEmpty_iff.1 hnil)
          simpa [length_of_mapM hplus, length_of_mapM hminus] using this
        have hlast : i + 1 = syms.length := by
          by_contra hne'
          exact hne (by omega) hrest_nil
        refine ⟨by simp, ?_⟩
        intro sk hsk
        simp only [List.mem_singleton] at hsk
        subst hsk
        exact ⟨_, rfl, by rw [show syms.length - i = 1 by omega]; exact .one hsym, hsyms _ hsym⟩
      · rename_i hnil
        refine ⟨fun _ h => hnil (by simp [h]), ?_⟩
        intro sk hsk
        rcases List.mem_append.1 hsk with hsk | hsk
        · exact hstep .add (.inl rfl) plus hplus sk hsk
        · exact hstep .sub (.inr rfl) minus hminus sk hsk

theorem ofOperands_ok {w : Nat} {syms : List Term} (hsyms : ∀ s ∈ syms, s.sort = .bv w) {l : List Operand}
    (h : Sketch.ofOperands (syms.map .term) 0 = .ok l) :
    ∀ sk ∈ l, ∃ e, sk = .term e ∧ Chain (· ∈ syms) syms.length e ∧ e.sort = .bv w := by
  have h' : Sketch.chains (syms.map .term) (syms.length + 1) ((0 : Nat) : Int) = .ok l := by
    simpa [Sketch.ofOperands] using h
  simpa using (chains_ok hsyms (syms.length + 1) 0 (Nat.zero_le _) (by omega) h').2

theorem placeholders_ok {n w : Nat} {syms : List Operand} (h : placeholders n w = .ok syms) :
    ∃ ss : List Term, syms = ss.map .term ∧ ss.length = n ∧ ∀ s ∈ ss, ∃ name, s = .var name (.bv w) := by
  obtain ⟨ss, rfl, hss⟩ := Operand.exists_eq_map_term (P := fun s => ∃ name, s = .var name (.bv w)) (by
    intro c hc
    obtain ⟨i, -, hi⟩ := (mem_of_mapM h).1 c hc
    obtain ⟨t, ht, hc⟩ := bind_eq_ok.1 hi
    cases hc
    exact ⟨t, rfl, _, bvConst_eq_ok ht⟩)
  exact ⟨ss, rfl, by simpa using length_of_mapM h, hss⟩

/-! ## Truth at the positive example -/

/-- A check that finds facts satisfiable, with right models, shows an
assignment under which they all hold. -/
theorem satisfiable_eval {check : Checker} (hmodels : check.ModelsSoundly) {facts : List Term}
    (h : satisfiable check facts = true) : ∃ ρ : Assignment, ∀ t ∈ facts, t.eval ρ = .bool true := by
  unfold satisfiable at h
  split at h
  · rename_i m hm
    exact ⟨m.assignment, fun t ht => (hmodels _ _ hm).2 t (by simpa using ht)⟩
  · cases h

theorem eval_of_closed {t : Term} (ht : ∀ x, x ∉ t.vars) {ρ₀ : Assignment} (h : t.eval ρ₀ = .bool true)
    (ρ : Assignment) : t.eval ρ = .bool true :=
  (Term.eval_congr t fun x hx => absurd hx (ht x)).trans h

section Example

variable {w : Nat} {positive : Table}

/-- The values of a positive example replace its constants by closed terms
of their sorts. -/
theorem WordExample.pairs {pe : List (Term × Term)} (hex : WordExample w positive)
    (hpe : positive.entries.mapM Operand.substitute.termPair = .ok pe) :
    ∀ q ∈ pe, (.term q.1, .term q.2) ∈ positive.entries ∧ (∃ n, q.1 = .var n (.bv w)) ∧
      q.2.sort = .bv w ∧ q.2.vars = [] := by
  intro q hq
  obtain ⟨hmem, -⟩ := (Operand.pairs_of_substitute hpe).1 q hq
  obtain ⟨n, v, heq, hsort, hvars⟩ := hex _ hmem
  simp only [Prod.mk.injEq, Operand.term.injEq] at heq
  obtain ⟨h1, h2⟩ := heq
  exact ⟨hmem, ⟨n, h1⟩, h2 ▸ hsort, h2 ▸ hvars⟩

theorem WordExample.sortedPairs {pe : List (Term × Term)} (hex : WordExample w positive)
    (hpe : positive.entries.mapM Operand.substitute.termPair = .ok pe) : Term.SortedPairs pe := by
  intro q hq
  obtain ⟨-, ⟨n, h1⟩, h2, -⟩ := hex.pairs hpe q hq
  exact ⟨n, .bv w, h1, h2⟩

/-- A term over the constants of the positive example holds there when, with
the example's values put in, it holds under some assignment. -/
theorem WordExample.holdsAt {pe : List (Term × Term)} (hex : WordExample w positive)
    (hpe : positive.entries.mapM Operand.substitute.termPair = .ok pe) {t : Term}
    (hvars : ∀ x ∈ t.vars, .term x ∈ positive.keys) {ρ₀ : Assignment}
    (h : (Term.replace pe t).eval ρ₀ = .bool true) : HoldsAt positive t := by
  intro ρ hagree
  have hsorted := hex.sortedPairs hpe
  have hclosed : ∀ x, x ∉ (Term.replace pe t).vars := by
    intro x hx
    rcases Term.mem_vars_replace hsorted t hx with ⟨hx, hnone⟩ | ⟨q, hq, hx⟩
    · obtain ⟨p, hp, hpx⟩ := (Operand.pairs_of_substitute hpe).2 _ (List.mem_map.1 (hvars x hx)).choose_spec.1
      have hkey := (List.mem_map.1 (hvars x hx)).choose_spec.2
      rw [hpx] at hkey
      simp only [Operand.term.injEq] at hkey
      exact Term.lookupLast_ne_none hp (hkey ▸ hnone)
    · rw [(hex.pairs hpe q hq).2.2.2] at hx
      cases hx
  rw [← eval_of_closed hclosed h ρ, Term.eval_replace hsorted]
  apply Term.eval_congr
  intro x hx
  obtain ⟨n, s, rfl⟩ := Term.exists_var_of_mem_vars t hx
  cases hl : Term.lookupLast pe (.var n s) with
  | none => simp [Assignment.replace, hl]
  | some r =>
    obtain ⟨hmem, -⟩ := hex.pairs hpe _ (Term.lookupLast_mem hl)
    simp [Assignment.replace, hl, hagree n s r hmem]

/-! ## Power-of-two candidates -/

theorem sort_powerTerm (w : Nat) (c : Term) : (powerTerm w c).sort = .bool := by
  simp [powerTerm, Term.sort_app, Term.appSort, Fn.isPredicate]

theorem vars_powerTerm {c : Term} (hc : c.vars = []) : (powerTerm w c).vars = [] :=
  List.eq_nil_iff_forall_not_mem.2 fun x hx => by simp [powerTerm, Term.ofInt, hc] at hx

theorem powerOfTwo_term {c : Term} (hc : c.sort = .bv w) :
    powerOfTwo (.term c) = .ok (.term (powerTerm w c)) := by
  have hsub : (Term.app .sub [c, Term.ofInt w 1]).sort = .bv w := by
    simp [Term.sort_app, Term.appSort, Fn.isPredicate, hc]
  have hband : (Term.app .band [c, .app .sub [c, Term.ofInt w 1]]).sort = .bv w := by
    simp [Term.sort_app, Term.appSort, Fn.isPredicate, hc]
  simp only [powerOfTwo, Operand.binary_term_int .sub hc,
    Operand.binary_term_term (show BinOp.band.isComparison = false from rfl) hc hsub,
    Operand.binary_term_int .eq hband, bind, Except.bind, powerTerm, BinOp.fn]

theorem eval_powerTerm_congr {c v : Term} (hs : c.sort = v.sort) {ρ : Assignment} (he : c.eval ρ = v.eval ρ) :
    (powerTerm w c).eval ρ = (powerTerm w v).eval ρ := by
  simp [powerTerm, Term.eval_app, Term.sort_app, hs, he]

/-- Each power-of-two candidate tests a constant of the positive example, and
holds there. -/
theorem powerCandidates_atoms {check : Checker} (hmodels : check.ModelsSoundly) (hex : WordExample w positive)
    {ps : List Operand} (h : powerCandidates check positive = .ok ps) :
    ∀ p ∈ ps, ∃ t, p = .term t ∧ t.sort = .bool ∧ Atom positive.keys w t ∧ HoldsAt positive t := by
  intro p hp
  obtain ⟨⟨c, v⟩, hcv, hbody⟩ := mem_of_filterMapM h p hp
  obtain ⟨n, v, heq, hvsort, hvvars⟩ := hex _ hcv
  simp only [Prod.mk.injEq] at heq
  obtain ⟨rfl, rfl⟩ := heq
  simp only [powerOfTwo_term hvsort, powerOfTwo_term (Term.sort_var n (.bv w)),
    Operand.asCondition_term.2 ⟨sort_powerTerm w v, rfl⟩, bind, Except.bind] at hbody
  split at hbody
  · rename_i hsat
    simp only [pure, Except.pure, Except.ok.injEq, Option.some.injEq] at hbody
    subst hbody
    refine ⟨_, rfl, sort_powerTerm w _, .power (List.mem_map_of_mem hcv), fun ρ hagree => ?_⟩
    obtain ⟨ρ₀, hρ₀⟩ := satisfiable_eval hmodels hsat
    have hclosed : ∀ x, x ∉ (powerTerm w v).vars := by simp [vars_powerTerm hvvars]
    rw [eval_powerTerm_congr (by simp [hvsort]) (hagree n (.bv w) v hcv)]
    exact eval_of_closed hclosed (hρ₀ _ List.mem_cons_self) ρ
  · cases hbody

/-! ## Sketch candidates -/

theorem replace_ofInt {ps : List (Term × Term)} (hps : Term.SortedPairs ps) (w : Nat) (n : Int) :
    Term.replace ps (Term.ofInt w n) = Term.ofInt w n := by
  rw [Term.replace_leaf (fun _ _ h => by cases h), Term.lookupLast_of_not_var hps (fun _ _ h => by cases h)]
  rfl

/-- Each candidate of a filled sketch over the positive example's constants
compares it with `0`, and holds at the positive example. -/
theorem sketchCandidates_atoms {check : Checker} (hmodels : check.ModelsSoundly) (hex : WordExample w positive)
    {negatives : List Table} {e : Term} (he : e.sort = .bv w) (hvars : ∀ x ∈ e.vars, .term x ∈ positive.keys)
    {cs : List Operand} (h : sketchCandidates check (.term e) positive negatives = .ok cs) :
    ∀ c ∈ cs, ∃ keep reject, (keep, reject) ∈ comparisons ∧
      c = .term (.app keep.fn [e, Term.ofInt w 0]) ∧ HoldsAt positive (.app keep.fn [e, Term.ofInt w 0]) := by
  unfold sketchCandidates at h
  obtain ⟨pos, hpos, h⟩ := bind_eq_ok.1 h
  obtain ⟨_, pe, ⟨⟩, hpe, rfl⟩ := Operand.substitute_eq_ok.1 hpos
  obtain ⟨_, -, h⟩ := bind_eq_ok.1 h
  have hsorted := hex.sortedPairs hpe
  have hpsort : (Term.replace pe e).sort = .bv w := by rw [Term.sort_replace hsorted, he]
  intro c hc
  obtain ⟨⟨keep, reject⟩, hkr, hbody⟩ := mem_of_filterMapM h c hc
  simp only [Operand.binary_term_int keep hpsort, Operand.binary_term_int keep he] at hbody
  obtain ⟨_, ⟨⟩, hbody⟩ := bind_eq_ok.1 hbody
  obtain ⟨first, hfirst, hbody⟩ := bind_eq_ok.1 hbody
  obtain ⟨-, rfl⟩ := Operand.asCondition_term.1 hfirst
  obtain ⟨_, -, hbody⟩ := bind_eq_ok.1 hbody
  split at hbody
  · rename_i hsat
    simp only [pure, Except.pure, bind, Except.bind, Except.ok.injEq, Option.some.injEq] at hbody
    subst hbody
    refine ⟨keep, reject, hkr, rfl, ?_⟩
    obtain ⟨ρ₀, hρ₀⟩ := satisfiable_eval hmodels hsat
    have hfirst : (Term.replace pe (.app keep.fn [e, Term.ofInt w 0])).eval ρ₀ = .bool true := by
      rw [Term.replace_app_of_sorted hsorted]
      simpa [replace_ofInt hsorted] using hρ₀ _ List.mem_cons_self
    have hcmp : ∀ x ∈ (Term.app keep.fn [e, Term.ofInt w 0]).vars, .term x ∈ positive.keys := by
      intro x hx
      simp only [Term.mem_vars_app, List.mem_cons, List.not_mem_nil, or_false, exists_eq_or_imp,
        exists_eq_left, Term.ofInt, Term.vars_word, List.not_mem_nil, or_false] at hx
      exact hvars x hx
    exact hex.holdsAt hpe hcmp hfirst
  · cases hbody

/-! ## Filling sketches -/

theorem Filler.sort {a : Term} (hex : WordExample w positive) (ha : Filler positive.keys w a) :
    a.sort = .bv w := by
  rcases ha with ha | rfl | rfl
  · obtain ⟨p, hp, hpa⟩ := List.mem_map.1 ha
    obtain ⟨n, v, rfl, -, -⟩ := hex p hp
    simp only [Operand.term.injEq] at hpa
    rw [← hpa, Term.sort_var]
  · simp [Term.ofInt]
  · simp [Term.ofInt]

theorem Filler.vars {a x : Term} (hex : WordExample w positive) (ha : Filler positive.keys w a)
    (hx : x ∈ a.vars) : .term x ∈ positive.keys := by
  rcases ha with ha | rfl | rfl
  · obtain ⟨p, hp, hpa⟩ := List.mem_map.1 ha
    obtain ⟨n, v, rfl, -, -⟩ := hex p hp
    simp only [Operand.term.injEq] at hpa
    subst hpa
    rwa [Term.mem_vars_var.1 hx]
  · simp [Term.ofInt] at hx
  · simp [Term.ofInt] at hx

/-- Filling the placeholders of a sketch with constants of the positive
example, `0` and `1` gives a chain of fillers. -/
theorem fill_chain {ss : List Term} (hss : ∀ s ∈ ss, ∃ name, s = .var name (.bv w)) {e : Term}
    (he : Chain (· ∈ ss) ss.length e) {combo : List Operand} (hlen : combo.length = ss.length)
    (hcombo : ∀ a ∈ combo, a ∈ positive.keys ++ [.term (Term.ofInt w 0), .term (Term.ofInt w 1)])
    {filled : Term} (h : (Operand.term e).substitute ((ss.map .term).zip combo) = .ok filled) :
    Chain (Filler positive.keys w) ss.length filled := by
  obtain ⟨_, ps, ⟨⟩, hps, rfl⟩ := Operand.substitute_eq_ok.1 h
  obtain ⟨hback, hforth⟩ := Operand.pairs_of_substitute hps
  have hsorted : Term.SortedPairs ps := by
    intro q hq
    obtain ⟨hmem, hsort⟩ := hback q hq
    obtain ⟨s, hs, hsq⟩ := List.mem_map.1 (List.of_mem_zip hmem).1
    obtain ⟨name, rfl⟩ := hss s hs
    simp only [Operand.term.injEq] at hsq
    exact ⟨name, .bv w, hsq.symm, by rw [← hsort, ← hsq, Term.sort_var]⟩
  apply he.replace hsorted
  intro a ha
  obtain ⟨y, -, hy⟩ := exists_mem_zip (show (ss.map Operand.term).length ≤ combo.length by simp [hlen])
    (List.mem_map_of_mem ha)
  obtain ⟨q, hq, hqa⟩ := hforth _ hy
  simp only [Prod.mk.injEq, Operand.term.injEq] at hqa
  obtain ⟨name, rfl⟩ := hss a ha
  cases hl : Term.lookupLast ps (.var name (.bv w)) with
  | none => exact absurd (hqa.1 ▸ hl) (Term.lookupLast_ne_none hq)
  | some r =>
    rw [Term.replace_leaf (fun _ _ h => by cases h), hl, Option.getD_some]
    have hr := (List.of_mem_zip (hback _ (Term.lookupLast_mem hl)).1).2
    rcases List.mem_append.1 (hcombo _ hr) with hr | hr
    · exact .inl hr
    · simp only [List.mem_cons, Operand.term.injEq, List.not_mem_nil, or_false] at hr
      exact .inr hr

/-! ## All candidates -/

/-- The candidates from a sketch filled in with fillers are atoms that hold at
the positive example. -/
theorem filledCandidates_atoms {check : Checker} (hmodels : check.ModelsSoundly)
    (hex : WordExample w positive) {negatives : List Table} {e : Term}
    (hfill : Chain (Filler positive.keys w) positive.keys.length e) {cs : List Operand}
    (h : sketchCandidates check (.term e) positive negatives = .ok cs) :
    ∀ c ∈ cs, ∃ t, c = .term t ∧ t.sort = .bool ∧ Atom positive.keys w t ∧ HoldsAt positive t := by
  have hsort : e.sort = .bv w := hfill.sort_eq fun a ha => ha.sort hex
  have hvars : ∀ x ∈ e.vars, .term x ∈ positive.keys := by
    intro x hx
    obtain ⟨a, ha, hx⟩ := hfill.vars_sub hx
    exact ha.vars hex hx
  intro c hc
  obtain ⟨keep, reject, hkr, rfl, hholds⟩ := sketchCandidates_atoms hmodels hex hsort hvars h c hc
  exact ⟨_, rfl, sort_compare hkr _ _, .compare hkr hfill, hholds⟩

/-- Every candidate is an atom over the positive example's constants that
holds at the positive example. -/
theorem candidates_atoms {check : Checker} (hmodels : check.ModelsSoundly) (hex : WordExample w positive)
    {negatives : List Table} {cands : List Operand} (h : candidates check positive negatives w = .ok cands) :
    ∀ c ∈ cands, ∃ t, c = .term t ∧ t.sort = .bool ∧ Atom positive.keys w t ∧ HoldsAt positive t := by
  unfold candidates at h
  obtain ⟨syms, hsyms, h⟩ := bind_eq_ok.1 h
  obtain ⟨ss, rfl, hsslen, hss⟩ := placeholders_ok hsyms
  have hsssort : ∀ s ∈ ss, s.sort = .bv w := fun s hs => by
    obtain ⟨name, rfl⟩ := hss s hs
    exact Term.sort_var _ _
  obtain ⟨sketches, hsketches, h⟩ := bind_eq_ok.1 h
  obtain ⟨zero, hzero, h⟩ := bind_eq_ok.1 h
  obtain ⟨one, hone, h⟩ := bind_eq_ok.1 h
  rw [bvVal_eq_ok hzero, bvVal_eq_ok hone] at h
  obtain ⟨powers, hpowers, h⟩ := bind_eq_ok.1 h
  obtain ⟨filled, hfilled, h⟩ := bind_eq_ok.1 h
  simp only [pure, Except.pure, Except.ok.injEq] at h
  subst h
  intro c hc
  rcases List.mem_append.1 hc with hc | hc
  · exact powerCandidates_atoms hmodels hex hpowers c hc
  obtain ⟨l, hl, hc⟩ := List.mem_flatten.1 hc
  obtain ⟨sketch, hsketch, hl⟩ := (mem_of_mapM hfilled).1 l hl
  obtain ⟨each, heach, hl⟩ := bind_eq_ok.1 hl
  simp only [pure, Except.pure, Except.ok.injEq] at hl
  subst hl
  obtain ⟨l', hl', hc⟩ := List.mem_flatten.1 hc
  obtain ⟨combo, hcombo, hfilling⟩ := (mem_of_mapM heach).1 l' hl'
  obtain ⟨e, rfl, hchain, -⟩ := ofOperands_ok hsssort hsketches sketch hsketch
  obtain ⟨e', he', hcands⟩ := bind_eq_ok.1 hfilling
  obtain ⟨hcombolen, hcombomem⟩ := mem_tuples (List.mem_filter.1 hcombo).1
  have hfill := fill_chain hss hchain (by rw [hcombolen, hsslen]) hcombomem he'
  have hkeys : ss.length = positive.keys.length := by rw [hsslen]; simp [Table.size, Table.keys]
  rw [hkeys] at hfill
  exact filledCandidates_atoms hmodels hex hfill hcands c hc

end Example

end Precondition
end SmtSynth
