import Mathlib
import SmtSynth.Synth.Enumerate
import SmtSynth.Proofs.Operands
import SmtSynth.Proofs.Checker
import SmtSynth.Proofs.Choice
import SmtSynth.Proofs.Words
/-!
# Enumerative synthesis

Enumerative synthesis tries every tuple of special values `0`, `1`,
`2 ^ w - 1` for the inputs and, for each, every ordering of the named
constants; each constant is renamed to the one its ordering puts in its
place, all at once, and the instance is kept, simplified, when the solver
finds that it can equal the target while every constant has its own value.

`enumerateWith_eq` gives the result exactly, for a decision procedure that
is right: the instances, in that order, at exactly those tuples and
orderings where the sketch itself can equal the target when the inputs take
the tuple's values and each constant the value of the constant put in its
place (`Reaches`). A renaming that swaps two constants swaps their values.
-/

namespace SmtSynth

/-! ## Closed values and tables of them -/

/-- The table of the pairs `cs`, keyed by their terms. -/
def Table.ofTerms (cs : List (Term × Operand)) : Table := { entries := cs.map fun p => (.term p.1, p.2) }

@[simp] theorem Table.entries_ofTerms (cs : List (Term × Operand)) :
    (Table.ofTerms cs).entries = cs.map fun p => (.term p.1, p.2) := rfl

@[simp] theorem Table.keys_ofTerms (cs : List (Term × Operand)) :
    (Table.ofTerms cs).keys = (cs.map Prod.fst).map .term := by
  simp [Table.ofTerms, Table.keys]

/-- A closed `w`-bit value, as the operators read one next to a `w`-bit
term: the closed term `V` of that sort, whose value is a `w`-bit word. -/
structure Operand.ClosedWord (w : Nat) (o : Operand) (V : Term) : Prop where
  cast : o.cast (.bv w) = .ok V
  sort : V.sort = .bv w
  closed : V.vars = []
  word : ∀ ρ, (V.eval ρ).HasSort (.bv w)

/-- A table of distinct named `w`-bit constants, each with a closed `w`-bit
value. -/
structure WordTable (w : Nat) (cs : List (Term × Operand)) : Prop where
  keys : ∀ p ∈ cs, ∃ n, p.1 = .var n (.bv w)
  values : ∀ p ∈ cs, ∃ V, p.2.ClosedWord w V
  nodup : (cs.map Prod.fst).Nodup

namespace Operand.ClosedWord

variable {w : Nat} {o : Operand} {V : Term}

theorem unique {V' : Term} (h : o.ClosedWord w V) (h' : o.ClosedWord w V') : V = V' := by
  have := h.cast.symm.trans h'.cast
  simpa using this

theorem eval_eq (h : o.ClosedWord w V) (ρ ρ' : Assignment) : V.eval ρ = V.eval ρ' :=
  Term.eval_congr V fun x hx => by simp [h.closed] at hx

end Operand.ClosedWord

/-! ## Assignments that put values in -/

namespace Assignment

variable {ρ : Assignment} {ps : List (Term × Term)}

/-- A constant named once on the left of the pairs takes the value of its
right side. -/
theorem replace_of_mem (hnd : (ps.map Prod.fst).Nodup) {p : Term × Term} (hp : p ∈ ps) {n : String}
    {s : TermSort} (hpx : p.1 = .var n s) : ρ.replace ps n s = some (p.2.eval ρ) := by
  cases hl : Term.lookupLast ps (.var n s) with
  | none => exact absurd (hpx ▸ hl) (Term.lookupLast_ne_none hp)
  | some r =>
    have hr : (p.1, r) = p := List.inj_on_of_nodup_map hnd (hpx ▸ Term.lookupLast_mem hl) hp rfl
    have hr : r = p.2 := by rw [← hr]
    simp [Assignment.replace, hl, hr]

theorem replace_of_not_mem {n : String} {s : TermSort} (hx : .var n s ∉ ps.map Prod.fst) :
    ρ.replace ps n s = ρ n s := by
  have hl : Term.lookupLast ps (.var n s) = none :=
    Term.lookupLast_eq_none fun p hp e => hx (e ▸ List.mem_map_of_mem hp)
  simp [Assignment.replace, hl]

/-! Setting one constant. -/

theorem eval_replace_self (ρ : Assignment) (n : String) (s : TermSort) (t : Term) :
    (Term.var n s).eval (ρ.replace [(.var n s, t)]) = t.eval ρ := by
  rw [Term.eval_var, replace_of_mem (by simp) List.mem_cons_self rfl]
  rfl

theorem replace_other (ρ : Assignment) {n n' : String} {s s' : TermSort} (t : Term) (h : Term.var n' s' ≠ .var n s) :
    ρ.replace [(.var n s, t)] n' s' = ρ n' s' :=
  replace_of_not_mem (by simpa using h)

theorem Sorted.replace_word (hρ : ρ.Sorted) (n : String) {w y : Nat} (hy : y < 2 ^ w) :
    (ρ.replace [(.var n (.bv w), .word w y)]).Sorted :=
  hρ.replace (by simp [Value.HasSort, hy])

end Assignment

/-! ## Equations against a value -/

/-- The equation `a == b`, for an operand `b` that reads as `B` at the sort
of `a`: a truth-valued term that holds exactly when `a` and `B` have one
value. -/
theorem eq_condition {a B : Term} {b : Operand} (hb : b.cast a.sort = .ok B) (hs : B.sort = a.sort) :
    ∃ t, Operand.binary .eq (.term a) b = .ok (.term t) ∧ t.sort = .bool ∧
      ∀ ρ, t.eval ρ = .bool true ↔ a.eval ρ = B.eval ρ := by
  have hbool : ∀ l r : Term, (Term.app .eq [l, r]).sort = .bool := fun l r => by
    simp [Term.sort_app, Term.appSort, Fn.isPredicate]
  rcases Operand.binary_eq_of_cast hb hs with h | h
  · exact ⟨_, h, hbool _ _, fun ρ => by simp [Term.eval_eq]⟩
  · exact ⟨_, h, hbool _ _, fun ρ => by simp [Term.eval_eq, eq_comm]⟩

/-! ## Special values -/

/-- The special values an input takes: `0`, `1` and `2 ^ w - 1`, the word of
all ones. -/
def specialWords (w : Nat) : List Term := [.word w 0, .word w 1, .word w (2 ^ w - 1)]

theorem specialValues_eq {w : Nat} (hw : 0 < w) : specialValues w = .ok ((specialWords w).map .term) := by
  have hnn : ¬ ((w : Int) < 0) := by omega
  simp [specialValues, specialWords, Term.bvVal, TermSort.ofWidth, Term.ofInt_eq_word, Word.wrap_one hw,
    Word.wrap_neg_one, hw.ne', hnn, bind, Except.bind, pure, Except.pure]

/-! ## One instance -/

/-- Substituting terms for terms of their sorts, all given as operands, is the
simultaneous replacement of the pairs. -/
theorem substitute_terms {φ : Term} {ps : List (Term × Term)} (hps : ∀ p ∈ ps, p.1.sort = p.2.sort) :
    (Operand.term φ).substitute (ps.map (Prod.map .term .term)) = .ok (Term.replace ps φ) :=
  Operand.substitute_eq_ok.2 ⟨φ, ps, rfl, Operand.mapM_termPair_terms hps, rfl⟩

/-- What the solver is asked about an instance `e`: some well-sorted
assignment gives every constant its value and `e` the value of `T`. -/
def Admitted (w : Nat) (cs : List (Term × Operand)) (e T : Term) : Prop :=
  ∃ ρ : Assignment, ρ.Sorted ∧ (∀ q ∈ cs, ∀ V, q.2.ClosedWord w V → q.1.eval ρ = V.eval ρ) ∧ e.eval ρ = T.eval ρ

section Check

variable {check : Checker} {w : Nat} {cs : List (Term × Operand)}

/-- The equations a table puts to the solver, one for each constant, hold
exactly when every constant has its value. -/
theorem WordTable.facts (hcs : WordTable w cs) :
    ∃ facts, (Table.ofTerms cs).entries.mapM
        (fun (entry : Operand × Operand) => do (← Operand.binary .eq entry.1 entry.2).asCondition) = .ok facts ∧
      ∀ ρ : Assignment, (∀ t ∈ facts, t.eval ρ = .bool true) ↔
        ∀ q ∈ cs, ∀ V, q.2.ClosedWord w V → q.1.eval ρ = V.eval ρ := by
  have hentry : ∀ q ∈ (Table.ofTerms cs).entries, ∃ t,
      (do (← Operand.binary .eq q.1 q.2).asCondition : Except Fault Term) = .ok t ∧
      ∃ c V, q = (.term c, q.2) ∧ q.2.ClosedWord w V ∧ ∀ ρ, t.eval ρ = .bool true ↔ c.eval ρ = V.eval ρ := by
    intro q hq
    obtain ⟨p, hp, rfl⟩ := List.mem_map.1 hq
    obtain ⟨n, hn⟩ := hcs.keys p hp
    obtain ⟨V, hV⟩ := hcs.values p hp
    have hsort : p.1.sort = .bv w := by rw [hn, Term.sort_var]
    obtain ⟨t, ht, htb, hiff⟩ := eq_condition (hsort ▸ hV.cast) (hV.sort.trans hsort.symm)
    refine ⟨t, ?_, p.1, V, rfl, hV, hiff⟩
    simp [ht, Operand.asCondition_term.2 ⟨htb, rfl⟩, bind, Except.bind]
  obtain ⟨facts, hfacts, hback, hforth⟩ := mapM_ok_of_forall
    (f := fun (entry : Operand × Operand) => do (← Operand.binary .eq entry.1 entry.2).asCondition) hentry
  refine ⟨facts, hfacts, fun ρ => ⟨fun htrue q hq V hV => ?_, fun hkeys t ht => ?_⟩⟩
  · obtain ⟨t, ht, c, V', hc, hV', hiff⟩ := hforth _ (List.mem_map_of_mem hq)
    simp only [Prod.mk.injEq, Operand.term.injEq, and_true] at hc
    rw [hc, hV.unique hV']
    exact (hiff ρ).1 (htrue t ht)
  · obtain ⟨q, hq, c, V, hc, hV, hiff⟩ := hback t ht
    obtain ⟨p, hp, rfl⟩ := List.mem_map.1 hq
    simp only [Prod.mk.injEq, Operand.term.injEq, and_true] at hc
    exact (hiff ρ).2 (hc ▸ hkeys p hp V hV)

open Classical in
/-- With a decision procedure that is right, an instance is admitted exactly
when the question put to the solver has an answer. -/
theorem admits_eq (hdec : check.Decides) (hunsat : check.RefutesSoundly) (hmodels : check.ModelsSoundly)
    (hcs : WordTable w cs) {e T : Term} {target : Operand}
    (hT : target.cast e.sort = .ok T) (hTs : T.sort = e.sort) :
    admits check (Table.ofTerms cs) e target = .ok (decide (Admitted w cs e T)) := by
  obtain ⟨facts, hfacts, hiff⟩ := hcs.facts
  obtain ⟨goal, hgoal, hgb, hgiff⟩ := eq_condition hT hTs
  have hrun : admits check (Table.ofTerms cs) e target =
      .ok (decide (∃ m, (check ((facts ++ [goal]).foldl Solver.add {})).2 = .sat m)) := by
    unfold admits
    rw [hfacts]
    simp only [hgoal, Operand.asCondition_term.2 ⟨hgb, rfl⟩, bind, Except.bind]
    cases (check ((facts ++ [goal]).foldl Solver.add {})).2 <;> simp [pure, Except.pure]
  rw [hrun, Checker.sat_iff hdec hunsat hmodels, Solver.foldl_add_toList]
  congr 1
  rw [decide_eq_decide, Admitted]
  simp only [List.nil_append]
  constructor
  · rintro ⟨ρ, hρ, htrue⟩
    exact ⟨ρ, hρ, (hiff ρ).1 fun t ht => htrue t (List.mem_append_left _ ht),
      (hgiff ρ).1 (htrue goal (by simp))⟩
  · rintro ⟨ρ, hρ, hkeys, he⟩
    refine ⟨ρ, hρ, fun t ht => ?_⟩
    rcases List.mem_append.1 ht with ht | ht
    · exact (hiff ρ).2 hkeys t ht
    · rw [List.mem_singleton.1 ht]
      exact (hgiff ρ).2 he

/-- An admitted instance, with right models, has a well-sorted assignment
that gives every constant its value and makes its equation with the target
true, whatever the sorts of the two. -/
theorem admits_sound (hmodels : check.ModelsSoundly) (hcs : WordTable w cs) {e : Term} {target : Operand}
    (h : admits check (Table.ofTerms cs) e target = .ok true) :
    ∃ ρ : Assignment, ρ.Sorted ∧ (∀ q ∈ cs, ∀ V, q.2.ClosedWord w V → q.1.eval ρ = V.eval ρ) ∧
      ∃ r g, Operand.binary .eq (.term e) target = .ok r ∧ r.asCondition = .ok g ∧ g.eval ρ = .bool true := by
  obtain ⟨facts, hfacts, hiff⟩ := hcs.facts
  unfold admits at h
  rw [hfacts] at h
  obtain ⟨_, hfs, h⟩ := bind_eq_ok.1 h
  cases hfs
  obtain ⟨r, hr, h⟩ := bind_eq_ok.1 h
  obtain ⟨goal, hg, h⟩ := bind_eq_ok.1 h
  split at h
  · rename_i m hm
    obtain ⟨hρ, htrue⟩ := hmodels _ m hm
    rw [Solver.foldl_add_toList, List.nil_append] at htrue
    exact ⟨m.assignment, hρ, (hiff _).1 fun t ht => htrue t (List.mem_append_left _ ht),
      r, goal, hr, hg, htrue goal (by simp)⟩
  · simp [pure, Except.pure] at h

end Check

/-- Each answer of enumerative synthesis is the simplified form of an
instance the solver admits. -/
theorem mem_enumerateWith {check : Checker} {simp : Term → Term} {sketch target : Operand}
    {inputs : List Operand} {cs : List (Term × Operand)} {w : Int} {ls : List Term} {L : Term}
    (h : enumerateWith check simp sketch inputs (Table.ofTerms cs) target w = .ok ls) (hL : L ∈ ls) :
    ∃ e, L = simp e ∧ admits check (Table.ofTerms cs) e target = .ok true := by
  unfold enumerateWith at h
  obtain ⟨_, -, h⟩ := bind_eq_ok.1 h
  obtain ⟨combo, -, hcombo⟩ := mem_of_filterMapM h L hL
  obtain ⟨e, -, h⟩ := bind_eq_ok.1 hcombo
  obtain ⟨b, hb, h⟩ := bind_eq_ok.1 h
  cases b with
  | true =>
    simp only [↓reduceIte, pure, Except.pure, Except.ok.injEq, Option.some.injEq] at h
    exact ⟨e, h.symm, hb⟩
  | false => simp [pure, Except.pure] at h

/-! ## Reaching the target -/

/-- Inputs and constants as enumerative synthesis takes them: distinct named
`w`-bit inputs, and a table of distinct named `w`-bit constants, none of them
an input, with closed `w`-bit values. -/
structure Enumerable (w : Nat) (ins : List Term) (cs : List (Term × Operand)) : Prop extends WordTable w cs where
  inputs : ∀ x ∈ ins, ∃ n, x = .var n (.bv w)
  inputs_nodup : ins.Nodup
  disjoint : ∀ x ∈ ins, x ∉ cs.map Prod.fst

/-- The sketch `φ` can take the value of `T` when each input of `ins` takes the
value at its place in `a` and each constant of `cs`, in order, the value of
the constant that `π` puts in its place; the other constants may take any
values. -/
def Reaches (w : Nat) (cs : List (Term × Operand)) (ins : List Term) (φ T : Term) (a π : List Term) : Prop :=
  ∃ σ : Assignment, σ.Sorted ∧ (∀ p ∈ ins.zip a, p.1.eval σ = p.2.eval σ) ∧
    (∀ p ∈ (cs.map Prod.fst).zip π, ∀ q ∈ cs, q.1 = p.2 → ∀ V, q.2.ClosedWord w V → p.1.eval σ = V.eval σ) ∧
    φ.eval σ = T.eval σ

theorem WordTable.exists_values {w : Nat} {cs : List (Term × Operand)} (h : ∀ p ∈ cs, ∃ V, p.2.ClosedWord w V) :
    ∃ kv : List (Term × Term), kv.map Prod.fst = cs.map Prod.fst ∧
      ∀ p ∈ kv, ∃ q ∈ cs, q.1 = p.1 ∧ q.2.ClosedWord w p.2 := by
  induction cs with
  | nil => exact ⟨[], rfl, by simp⟩
  | cons q cs ih =>
    obtain ⟨V, hV⟩ := h q List.mem_cons_self
    obtain ⟨kv, hkeys, hkv⟩ := ih fun p hp => h p (List.mem_cons_of_mem _ hp)
    refine ⟨(q.1, V) :: kv, by simp [hkeys], ?_⟩
    rintro p (_ | ⟨_, hp⟩)
    · exact ⟨q, List.mem_cons_self, rfl, hV⟩
    · obtain ⟨q', hq', hq'p, hV'⟩ := hkv p hp
      exact ⟨q', List.mem_cons_of_mem _ hq', hq'p, hV'⟩

/-- Any well-sorted assignment, with every constant set to its value, gives
the constants of a table their values and leaves the rest alone. -/
theorem WordTable.exists_assignment {w : Nat} {cs : List (Term × Operand)} (h : WordTable w cs)
    {σ : Assignment} (hσ : σ.Sorted) :
    ∃ ρ : Assignment, ρ.Sorted ∧ (∀ q ∈ cs, ∀ V, q.2.ClosedWord w V → q.1.eval ρ = V.eval ρ) ∧
      ∀ n s, Term.var n s ∉ cs.map Prod.fst → ρ n s = σ n s := by
  obtain ⟨kv, hkvkeys, hkv⟩ := WordTable.exists_values h.values
  have hkvnd : (kv.map Prod.fst).Nodup := hkvkeys ▸ h.nodup
  refine ⟨σ.replace kv, hσ.replace fun p hp => ?_, fun q hq V hV => ?_,
    fun n s hx => Assignment.replace_of_not_mem (hkvkeys ▸ hx)⟩
  · obtain ⟨q, hq, hqp, hV⟩ := hkv p hp
    obtain ⟨n, hn⟩ := h.keys q hq
    exact ⟨n, _, hqp ▸ hn, hV.word σ⟩
  · obtain ⟨p, hp, hpq⟩ := List.mem_map.1 (hkvkeys ▸ List.mem_map_of_mem hq : q.1 ∈ kv.map Prod.fst)
    obtain ⟨q', hq', hq'p, hV'⟩ := hkv p hp
    have hqq : q' = q := List.inj_on_of_nodup_map h.nodup hq' hq (hq'p.trans hpq)
    subst hqq
    obtain ⟨n, hn⟩ := h.keys q' hq
    rw [hn, Term.eval_var, Assignment.replace_of_mem hkvnd hp (hpq.trans hn), Option.getD_some,
      hV.unique hV']
    exact hV'.eval_eq σ _

section Instances

variable {w : Nat} {ins : List Term} {cs : List (Term × Operand)} {a π : List Term}

/-- The pairs an instance puts in: each input with its special value, each
constant with the constant the ordering puts in its place. -/
theorem instance_pairs (h : Enumerable w ins cs) (hw : 0 < w) (ha : a ∈ tuples (specialWords w) ins.length)
    (hπ : π ∈ orderings (cs.map Prod.fst)) :
    ((ins.zip a ++ (cs.map Prod.fst).zip π).map Prod.fst).Nodup ∧
      (∀ p ∈ ins.zip a, ∃ n v, p.1 = .var n (.bv w) ∧ p.2 = .word w v ∧ v < 2 ^ w) ∧
      ∀ p ∈ (cs.map Prod.fst).zip π, (∃ n, p.1 = .var n (.bv w)) ∧ p.2 ∈ cs.map Prod.fst ∧
        ∃ n, p.2 = .var n (.bv w) := by
  obtain ⟨hlen, hmem⟩ := mem_tuples ha
  have hperm := perm_of_mem_orderings hπ
  have hkey : ∀ k ∈ cs.map Prod.fst, ∃ n, k = .var n (.bv w) := by
    intro k hk
    obtain ⟨q, hq, rfl⟩ := List.mem_map.1 hk
    exact h.keys q hq
  refine ⟨?_, ?_, ?_⟩
  · rw [List.map_append, List.map_fst_zip (by omega), List.map_fst_zip (by rw [hperm.length_eq])]
    exact List.nodup_append.2 ⟨h.inputs_nodup, h.nodup, fun x hx y hy e => h.disjoint x hx (e ▸ hy)⟩
  · intro p hp
    obtain ⟨n, hn⟩ := h.inputs p.1 (List.of_mem_zip hp).1
    have hs := hmem p.2 (List.of_mem_zip hp).2
    have hpow : 1 < 2 ^ w := Nat.one_lt_two_pow hw.ne'
    simp only [specialWords, List.mem_cons, List.not_mem_nil, or_false] at hs
    rcases hs with hs | hs | hs <;> exact ⟨n, _, hn, hs, by omega⟩
  · intro p hp
    have h2 := hperm.mem_iff.1 (List.of_mem_zip hp).2
    exact ⟨hkey p.1 (List.of_mem_zip hp).1, h2, hkey p.2 h2⟩

/-- The pairs an instance puts in replace named constants by terms of their
sorts. -/
theorem instance_sortedPairs (h : Enumerable w ins cs) (hw : 0 < w) (ha : a ∈ tuples (specialWords w) ins.length)
    (hπ : π ∈ orderings (cs.map Prod.fst)) : Term.SortedPairs (ins.zip a ++ (cs.map Prod.fst).zip π) := by
  obtain ⟨-, hin, hks⟩ := instance_pairs h hw ha hπ
  intro p hp
  rcases List.mem_append.1 hp with hp | hp
  · obtain ⟨n, v, h1, h2, -⟩ := hin p hp
    exact ⟨n, _, h1, by rw [h2, Term.sort_word]⟩
  · obtain ⟨⟨n, h1⟩, -, m, h2⟩ := hks p hp
    exact ⟨n, _, h1, by rw [h2, Term.sort_var]⟩

/-- From an assignment that gives every constant its own value and the
instance the target's value: with the inputs and constants put in, the
sketch itself reaches the target. -/
theorem reaches_of_solution (h : Enumerable w ins cs) (hw : 0 < w) (ha : a ∈ tuples (specialWords w) ins.length)
    (hπ : π ∈ orderings (cs.map Prod.fst)) {φ T : Term} (hTv : ∀ x ∈ T.vars, x ∉ ins ∧ x ∉ cs.map Prod.fst)
    {ρ : Assignment} (hρ : ρ.Sorted) (hkeys : ∀ q ∈ cs, ∀ V, q.2.ClosedWord w V → q.1.eval ρ = V.eval ρ)
    (he : (Term.replace (ins.zip a ++ (cs.map Prod.fst).zip π) φ).eval ρ = T.eval ρ) :
    Reaches w cs ins φ T a π := by
  obtain ⟨hnd, hin, hks⟩ := instance_pairs h hw ha hπ
  have hsorted := instance_sortedPairs h hw ha hπ
  set ps := ins.zip a ++ (cs.map Prod.fst).zip π
  refine ⟨ρ.replace ps, hρ.replace fun p hp => ?_, fun p hp => ?_, fun p hp q hq hqp V hV => ?_, ?_⟩
  · rcases List.mem_append.1 hp with hp | hp
    · obtain ⟨n, v, h1, h2, hv⟩ := hin p hp
      exact ⟨n, _, h1, by simp [h2, Value.HasSort, hv]⟩
    · obtain ⟨⟨n, h1⟩, -, m, h2⟩ := hks p hp
      exact ⟨n, _, h1, h2 ▸ hρ.eval_var m _⟩
  · obtain ⟨n, v, h1, h2, -⟩ := hin p hp
    rw [h1, Term.eval_var, Assignment.replace_of_mem hnd (List.mem_append_left _ hp) h1, h2]
    simp
  · obtain ⟨⟨n, h1⟩, -, -⟩ := hks p hp
    rw [h1, Term.eval_var, Assignment.replace_of_mem hnd (List.mem_append_right _ hp) h1, Option.getD_some,
      ← hqp, hkeys q hq V hV]
    exact hV.eval_eq ρ _
  · rw [← Term.eval_replace hsorted, he]
    apply Term.eval_congr
    intro x hx
    obtain ⟨n, s, rfl⟩ := Term.exists_var_of_mem_vars T hx
    have hout : Term.var n s ∉ ps.map Prod.fst := by
      rw [List.map_append, List.map_fst_zip (by rw [(mem_tuples ha).1]),
        List.map_fst_zip (by rw [(perm_of_mem_orderings hπ).length_eq])]
      exact fun hm => (List.mem_append.1 hm).elim (hTv _ hx).1 (hTv _ hx).2
    simp [Assignment.replace_of_not_mem hout]

/-- Back from the sketch reaching the target: giving each constant its own
value instead, whatever the renaming, makes the instance reach it. -/
theorem solution_of_reaches (h : Enumerable w ins cs) (hw : 0 < w) (ha : a ∈ tuples (specialWords w) ins.length)
    (hπ : π ∈ orderings (cs.map Prod.fst)) {φ T : Term} (hTv : ∀ x ∈ T.vars, x ∉ ins ∧ x ∉ cs.map Prod.fst)
    (hr : Reaches w cs ins φ T a π) : Admitted w cs (Term.replace (ins.zip a ++ (cs.map Prod.fst).zip π) φ) T := by
  obtain ⟨σ, hσ, hin, hkey, hφ⟩ := hr
  obtain ⟨hnd, hins, hks⟩ := instance_pairs h hw ha hπ
  obtain ⟨hlen, -⟩ := mem_tuples ha
  have hperm := perm_of_mem_orderings hπ
  have hsorted := instance_sortedPairs h hw ha hπ
  set ps := ins.zip a ++ (cs.map Prod.fst).zip π
  have hlefts : ps.map Prod.fst = ins ++ cs.map Prod.fst := by
    rw [List.map_append, List.map_fst_zip (by omega), List.map_fst_zip (by rw [hperm.length_eq])]
  obtain ⟨ρ, hρ, hkeys, hoff⟩ := h.exists_assignment hσ
  refine ⟨ρ, hρ, hkeys, ?_⟩
  rw [Term.eval_replace hsorted]
  calc φ.eval (ρ.replace ps) = φ.eval σ := by
        apply Term.eval_congr
        intro x hx
        obtain ⟨n, s, rfl⟩ := Term.exists_var_of_mem_vars φ hx
        by_cases hxi : Term.var n s ∈ ins
        · obtain ⟨y, -, hy⟩ := exists_mem_zip (show ins.length ≤ a.length by omega) hxi
          obtain ⟨-, v, -, hyv, -⟩ := hins _ hy
          rw [Term.eval_var, Assignment.replace_of_mem hnd (List.mem_append_left _ hy) rfl, hin _ hy, hyv]
          simp
        by_cases hxk : Term.var n s ∈ cs.map Prod.fst
        · obtain ⟨y, -, hy⟩ := exists_mem_zip (show (cs.map Prod.fst).length ≤ π.length by rw [hperm.length_eq]) hxk
          obtain ⟨q, hq, hqy⟩ := List.mem_map.1 (hks _ hy).2.1
          obtain ⟨V, hV⟩ := h.values q hq
          rw [Term.eval_var, Assignment.replace_of_mem hnd (List.mem_append_right _ hy) rfl, Option.getD_some,
            hkey _ hy q hq hqy V hV, ← hqy, hkeys q hq V hV]
          exact hV.eval_eq _ σ
        · have hout : Term.var n s ∉ ps.map Prod.fst := by
            rw [hlefts]
            exact fun hm => (List.mem_append.1 hm).elim hxi hxk
          simp [Assignment.replace_of_not_mem hout, hoff n s hxk]
    _ = T.eval σ := hφ
    _ = T.eval ρ := by
        apply Term.eval_congr
        intro x hx
        obtain ⟨n, s, rfl⟩ := Term.exists_var_of_mem_vars T hx
        simp [hoff n s (hTv _ hx).2]

/-- What the solver is asked about an instance holds exactly when the sketch,
with the inputs and constants put in, reaches the target. -/
theorem solution_iff_reaches (h : Enumerable w ins cs) (hw : 0 < w) (ha : a ∈ tuples (specialWords w) ins.length)
    (hπ : π ∈ orderings (cs.map Prod.fst)) {φ T : Term} (hTv : ∀ x ∈ T.vars, x ∉ ins ∧ x ∉ cs.map Prod.fst) :
    Admitted w cs (Term.replace (ins.zip a ++ (cs.map Prod.fst).zip π) φ) T ↔ Reaches w cs ins φ T a π := by
  constructor
  · rintro ⟨ρ, hρ, hkeys, he⟩
    exact reaches_of_solution h hw ha hπ hTv hρ hkeys he
  · exact solution_of_reaches h hw ha hπ hTv

end Instances

/-! ## The whole enumeration -/

/-- The tuples of special values for the inputs, each with every ordering of
the constants. -/
def combos (w : Nat) (ins : List Term) (ks : List Term) : List (List Term × List Term) :=
  (tuples (specialWords w) ins.length).flatMap fun a => (orderings ks).map (a, ·)

theorem combos_map_term (w : Nat) (ins ks : List Term) :
    (tuples ((specialWords w).map Operand.term) (ins.map Operand.term).length).flatMap
        (fun a => (orderings (ks.map Operand.term)).map (a, ·)) =
      (combos w ins ks).map (Prod.map (List.map .term) (List.map .term)) := by
  simp [combos, tuples_map, orderings_map, List.flatMap_map, List.map_flatMap, Function.comp_def]

theorem mem_combos {w : Nat} {ins ks : List Term} {p : List Term × List Term} (h : p ∈ combos w ins ks) :
    p.1 ∈ tuples (specialWords w) ins.length ∧ p.2 ∈ orderings ks := by
  simp only [combos, List.mem_flatMap, List.mem_map] at h
  obtain ⟨a, ha, π, hπ, rfl⟩ := h
  exact ⟨ha, hπ⟩

open Classical in
/-- Enumerative synthesis over named `w`-bit inputs and constants, with a
decision procedure that is right, keeps the simplified instances the solver
admits, one for each tuple of special values and ordering of the constants,
in that order. -/
theorem enumerateWith_eq_admitted {check : Checker} (hdec : check.Decides) (hunsat : check.RefutesSoundly)
    (hmodels : check.ModelsSoundly) (simp : Term → Term) {w : Nat} (hw : 0 < w)
    {ins : List Term} {cs : List (Term × Operand)} (h : Enumerable w ins cs) (φ : Term)
    {target : Operand} {T : Term} (hT : target.cast φ.sort = .ok T) (hTs : T.sort = φ.sort) :
    enumerateWith check simp (.term φ) (ins.map .term) (Table.ofTerms cs) target w =
      .ok (((combos w ins (cs.map Prod.fst)).filter fun p =>
          Admitted w cs (Term.replace (ins.zip p.1 ++ (cs.map Prod.fst).zip p.2) φ) T).map
        fun p => simp (Term.replace (ins.zip p.1 ++ (cs.map Prod.fst).zip p.2) φ)) := by
  unfold enumerateWith
  rw [specialValues_eq hw]
  simp only [Table.keys_ofTerms, bind, Except.bind]
  rw [combos_map_term, filterMapM_map, filterMapM_eq_ok (g := fun p =>
    if Admitted w cs (Term.replace (ins.zip p.1 ++ (cs.map Prod.fst).zip p.2) φ) T then
      some (simp (Term.replace (ins.zip p.1 ++ (cs.map Prod.fst).zip p.2) φ))
    else none), filterMap_ite]
  rintro ⟨a, π⟩ hp
  obtain ⟨ha, hπ⟩ := mem_combos hp
  have hsorted := instance_sortedPairs h hw ha hπ
  have hps : ∀ p ∈ ins.zip a ++ (cs.map Prod.fst).zip π, p.1.sort = p.2.sort := fun p hp => by
    obtain ⟨n, s, h1, h2⟩ := hsorted p hp
    rw [h1, Term.sort_var, h2]
  have hsort := Term.sort_replace hsorted φ
  have hT' : target.cast (Term.replace (ins.zip a ++ (cs.map Prod.fst).zip π) φ).sort = .ok T := by
    rw [hsort]; exact hT
  simp only [Function.comp_apply, Prod.map, List.zip_map, ← List.map_append, substitute_terms hps,
    admits_eq hdec hunsat hmodels h.toWordTable hT' (hsort ▸ hTs), decide_eq_true_eq]
  split_ifs <;> rfl

open Classical in
/-- Enumerative synthesis over named `w`-bit inputs and constants, with a
decision procedure that is right, gives the simplified instances of the
sketch, one for each tuple of special values and ordering of the constants,
in that order, at exactly those where the sketch reaches the target. The
target is read at the sketch's sort and names no input or constant. -/
theorem enumerateWith_eq {check : Checker} (hdec : check.Decides) (hunsat : check.RefutesSoundly)
    (hmodels : check.ModelsSoundly) (simp : Term → Term) {w : Nat} (hw : 0 < w)
    {ins : List Term} {cs : List (Term × Operand)} (h : Enumerable w ins cs) (φ : Term)
    {target : Operand} {T : Term} (hT : target.cast φ.sort = .ok T) (hTs : T.sort = φ.sort)
    (hTv : ∀ x ∈ T.vars, x ∉ ins ∧ x ∉ cs.map Prod.fst) :
    enumerateWith check simp (.term φ) (ins.map .term) (Table.ofTerms cs) target w =
      .ok (((combos w ins (cs.map Prod.fst)).filter fun p => Reaches w cs ins φ T p.1 p.2).map
        fun p => simp (Term.replace (ins.zip p.1 ++ (cs.map Prod.fst).zip p.2) φ)) := by
  rw [enumerateWith_eq_admitted hdec hunsat hmodels simp hw h φ hT hTs]
  congr 2
  apply List.filter_congr
  rintro ⟨a, π⟩ hp
  obtain ⟨ha, hπ⟩ := mem_combos hp
  simp only [decide_eq_decide]
  exact solution_iff_reaches h hw ha hπ hTv

open Classical in
/-- The sketch `c1 - c2` with `c1 = 1` and `c2 = 2` reaches the target `1`
only under the ordering that swaps the two constants, which puts in `2 - 1`;
the identity gives `1 - 2`, which is `15` at four bits. -/
theorem enumerate_swapped_constants :
    enumerateWith Checker.exact id (.term (.app .sub [.var "c1" (.bv 4), .var "c2" (.bv 4)])) []
        (Table.ofTerms [(.var "c1" (.bv 4), .int 1), (.var "c2" (.bv 4), .int 2)]) (.int 1) 4 =
      .ok (((combos 4 [] [.var "c1" (.bv 4), .var "c2" (.bv 4)]).filter fun p =>
          Reaches 4 [(.var "c1" (.bv 4), .int 1), (.var "c2" (.bv 4), .int 2)] []
            (.app .sub [.var "c1" (.bv 4), .var "c2" (.bv 4)]) (.word 4 1) p.1 p.2).map
        fun p => id (Term.replace ([].zip p.1 ++ [.var "c1" (.bv 4), .var "c2" (.bv 4)].zip p.2)
          (.app .sub [.var "c1" (.bv 4), .var "c2" (.bv 4)]))) ∧
    ((combos 4 [] [.var "c1" (.bv 4), .var "c2" (.bv 4)]).filter fun p =>
        Reaches 4 [(.var "c1" (.bv 4), .int 1), (.var "c2" (.bv 4), .int 2)] []
          (.app .sub [.var "c1" (.bv 4), .var "c2" (.bv 4)]) (.word 4 1) p.1 p.2) =
      [([], [.var "c2" (.bv 4), .var "c1" (.bv 4)])] := by
  have h1 : Operand.ClosedWord 4 (.int 1) (.word 4 1) :=
    ⟨rfl, Term.sort_word 4 1, Term.vars_word 4 1, fun _ => by simp [Value.HasSort]⟩
  have h2 : Operand.ClosedWord 4 (.int 2) (.word 4 2) :=
    ⟨rfl, Term.sort_word 4 2, Term.vars_word 4 2, fun _ => by simp [Value.HasSort]⟩
  have h : Enumerable 4 [] [(.var "c1" (.bv 4), .int 1), (.var "c2" (.bv 4), .int 2)] :=
    { keys := by simp
      values := by simpa using ⟨⟨_, h1⟩, ⟨_, h2⟩⟩
      nodup := by simp
      inputs := by simp
      inputs_nodup := List.nodup_nil
      disjoint := by simp }
  have hsort : (Term.app .sub [.var "c1" (.bv 4), .var "c2" (.bv 4)]).sort = .bv 4 := by
    simp [Term.sort_app, Term.appSort, Fn.isPredicate]
  have hT : (Operand.int 1).cast (Term.app .sub [.var "c1" (.bv 4), .var "c2" (.bv 4)]).sort = .ok (.word 4 1) := by
    rw [hsort]
    rfl
  refine ⟨enumerateWith_eq Checker.exact_decides Checker.exact_refutesSoundly Checker.exact_modelsSoundly id
    (by norm_num) h _ hT (by rw [hsort, Term.sort_word]) (by simp), ?_⟩
  have hcombos : combos 4 [] [Term.var "c1" (.bv 4), .var "c2" (.bv 4)] =
      [([], [.var "c1" (.bv 4), .var "c2" (.bv 4)]), ([], [.var "c2" (.bv 4), .var "c1" (.bv 4)])] := by
    simp [combos, tuples, orderings_cons, picks]
  have hsub : ∀ (σ : Assignment) (a b : Nat), (Term.var "c1" (.bv 4)).eval σ = .word 4 a →
      (Term.var "c2" (.bv 4)).eval σ = .word 4 b →
      (Term.app .sub [.var "c1" (.bv 4), .var "c2" (.bv 4)]).eval σ = .word 4 (Word.wrap 4 ((a : Int) - b)) := by
    intro σ a b ha hb
    simp [Term.eval_app, Term.apply, Term.evalSort, Term.wordBinary, ha, hb, Value.asNat, -Term.eval_var]
  have hid : ¬ Reaches 4 [(.var "c1" (.bv 4), .int 1), (.var "c2" (.bv 4), .int 2)] []
      (.app .sub [.var "c1" (.bv 4), .var "c2" (.bv 4)]) (.word 4 1) [] [.var "c1" (.bv 4), .var "c2" (.bv 4)] := by
    rintro ⟨σ, -, -, hkeys, heval⟩
    have e1 := hkeys (.var "c1" (.bv 4), .var "c1" (.bv 4)) (by simp) (.var "c1" (.bv 4), .int 1) (by simp) rfl _ h1
    have e2 := hkeys (.var "c2" (.bv 4), .var "c2" (.bv 4)) (by simp) (.var "c2" (.bv 4), .int 2) (by simp) rfl _ h2
    rw [Term.eval_word] at e1 e2
    rw [hsub σ 1 2 e1 e2, Term.eval_word] at heval
    revert heval
    decide
  have hswap : Reaches 4 [(.var "c1" (.bv 4), .int 1), (.var "c2" (.bv 4), .int 2)] []
      (.app .sub [.var "c1" (.bv 4), .var "c2" (.bv 4)]) (.word 4 1) [] [.var "c2" (.bv 4), .var "c1" (.bv 4)] := by
    have e1 : (Term.var "c1" (.bv 4)).eval (Assignment.replace (fun _ _ => none)
        [(.var "c1" (.bv 4), .word 4 2), (.var "c2" (.bv 4), .word 4 1)]) = .word 4 2 := by
      simp [Assignment.replace, Term.lookupLast]
    have e2 : (Term.var "c2" (.bv 4)).eval (Assignment.replace (fun _ _ => none)
        [(.var "c1" (.bv 4), .word 4 2), (.var "c2" (.bv 4), .word 4 1)]) = .word 4 1 := by
      simp [Assignment.replace, Term.lookupLast]
    refine ⟨Assignment.replace (fun _ _ => none) [(.var "c1" (.bv 4), .word 4 2), (.var "c2" (.bv 4), .word 4 1)],
      Assignment.Sorted.replace Assignment.sorted_none (by simp [Value.HasSort]), by simp, ?_, ?_⟩
    · intro p hp q hq hqp V hV
      simp only [List.map_cons, List.map_nil, List.zip_cons_cons, List.zip_nil_right, List.mem_cons,
        List.not_mem_nil, or_false] at hp hq
      rcases hp with rfl | rfl <;> rcases hq with rfl | rfl <;> simp at hqp
      · rw [← h2.unique hV, e1, Term.eval_word]
      · rw [← h1.unique hV, e2, Term.eval_word]
    · rw [hsub _ 2 1 e1 e2, Term.eval_word]
      rfl
  simp [hcombos, hid, hswap]

open Classical in
/-- A target that names a constant is renamed with the sketch's constants.
With `c1 = 1` and `c2 = 2`, the sketch `c1` has no ordering of the constants
under which it takes the value of `c2`, yet the ordering that swaps them
turns the sketch into `c2`, which equals the target. -/
theorem enumerate_target_naming_constant :
    enumerateWith Checker.exact Term.simplify (.term (.var "c1" (.bv 4))) []
        (Table.ofTerms [(.var "c1" (.bv 4), .int 1), (.var "c2" (.bv 4), .int 2)]) (.term (.var "c2" (.bv 4))) 4 =
      .ok [.var "c2" (.bv 4)] ∧
    ∀ π ∈ orderings [.var "c1" (.bv 4), .var "c2" (.bv 4)],
      ¬ Reaches 4 [(.var "c1" (.bv 4), .int 1), (.var "c2" (.bv 4), .int 2)] [] (.var "c1" (.bv 4))
        (.var "c2" (.bv 4)) [] π := by
  have h1 : Operand.ClosedWord 4 (.int 1) (.word 4 1) :=
    ⟨rfl, Term.sort_word 4 1, Term.vars_word 4 1, fun _ => by simp [Value.HasSort]⟩
  have h2 : Operand.ClosedWord 4 (.int 2) (.word 4 2) :=
    ⟨rfl, Term.sort_word 4 2, Term.vars_word 4 2, fun _ => by simp [Value.HasSort]⟩
  have h : Enumerable 4 [] [(.var "c1" (.bv 4), .int 1), (.var "c2" (.bv 4), .int 2)] :=
    { keys := by simp
      values := by simpa using ⟨⟨_, h1⟩, ⟨_, h2⟩⟩
      nodup := by simp
      inputs := by simp
      inputs_nodup := List.nodup_nil
      disjoint := by simp }
  have hπ : orderings [Term.var "c1" (.bv 4), .var "c2" (.bv 4)] =
      [[.var "c1" (.bv 4), .var "c2" (.bv 4)], [.var "c2" (.bv 4), .var "c1" (.bv 4)]] := by
    simp [orderings_cons, picks]
  have hvals : ∀ ρ : Assignment, (∀ q ∈ [(Term.var "c1" (.bv 4), Operand.int 1), (.var "c2" (.bv 4), .int 2)],
      ∀ V, q.2.ClosedWord 4 V → q.1.eval ρ = V.eval ρ) →
      (Term.var "c1" (.bv 4)).eval ρ = .word 4 1 ∧ (Term.var "c2" (.bv 4)).eval ρ = .word 4 2 := by
    intro ρ hkeys
    have e1 := hkeys (.var "c1" (.bv 4), .int 1) (by simp) _ h1
    have e2 := hkeys (.var "c2" (.bv 4), .int 2) (by simp) _ h2
    rw [Term.eval_word] at e1 e2
    exact ⟨e1, e2⟩
  refine ⟨?_, ?_⟩
  · have hT : Operand.cast (Term.var "c1" (.bv 4)).sort (.term (.var "c2" (.bv 4))) = .ok (.var "c2" (.bv 4)) := by
      rw [Term.sort_var]; rfl
    have hrun := enumerateWith_eq_admitted Checker.exact_decides Checker.exact_refutesSoundly
      Checker.exact_modelsSoundly Term.simplify (by decide) h (.var "c1" (.bv 4)) hT
      (by rw [Term.sort_var, Term.sort_var])
    simp only [List.map_nil, Nat.cast_ofNat] at hrun
    rw [hrun]
    have hid : ¬ Admitted 4 [(.var "c1" (.bv 4), .int 1), (.var "c2" (.bv 4), .int 2)] (.var "c1" (.bv 4))
        (.var "c2" (.bv 4)) := by
      rintro ⟨ρ, -, hkeys, he⟩
      obtain ⟨e1, e2⟩ := hvals ρ hkeys
      rw [e1, e2] at he
      simp at he
    have hswap : Admitted 4 [(.var "c1" (.bv 4), .int 1), (.var "c2" (.bv 4), .int 2)] (.var "c2" (.bv 4))
        (.var "c2" (.bv 4)) := by
      obtain ⟨ρ, hρ, hkeys, -⟩ := h.exists_assignment (show Assignment.Sorted fun _ _ => none from
        fun _ _ _ h => by cases h)
      exact ⟨ρ, hρ, hkeys, rfl⟩
    simp [combos, tuples, hπ, Term.replace, Term.lookupLast, hid, hswap]
    rfl
  · rw [hπ]
    simp only [List.mem_cons, List.not_mem_nil, or_false]
    rintro π (rfl | rfl) ⟨σ, -, -, hkey, he⟩
    · have e1 := hkey (.var "c1" (.bv 4), .var "c1" (.bv 4)) (by simp) (.var "c1" (.bv 4), .int 1) (by simp) rfl _ h1
      have e2 := hkey (.var "c2" (.bv 4), .var "c2" (.bv 4)) (by simp) (.var "c2" (.bv 4), .int 2) (by simp) rfl _ h2
      rw [e1, e2] at he
      simp at he
    · have e1 := hkey (.var "c1" (.bv 4), .var "c2" (.bv 4)) (by simp) (.var "c2" (.bv 4), .int 2) (by simp) rfl _ h2
      have e2 := hkey (.var "c2" (.bv 4), .var "c1" (.bv 4)) (by simp) (.var "c1" (.bv 4), .int 1) (by simp) rfl _ h1
      rw [e1, e2] at he
      simp at he

end SmtSynth
