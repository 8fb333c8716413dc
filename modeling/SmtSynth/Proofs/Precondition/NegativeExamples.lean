import Mathlib
import SmtSynth.Synth.Negative
import SmtSynth.Proofs.Cegis.Rounds
import SmtSynth.Proofs.Precondition.Pool
/-!
# Negative examples

A negative example is a model of the negated formula, read at the chosen
constants. After each one the search asserts, constant by constant, that the
value read is not taken again, so what the assertions admit after some
examples is said by one invariant (`Searched.blocks`): an assignment makes
them all true exactly when the formula fails under it and no constant takes
the value some example gives it (`Differs`).

Each round keeps the invariant (`Searched.next`), and the run lemma
`negativeRun_end` lifts rounds to a whole search. From it:

* every example is a counter-example keyed by the chosen constants, and two
  examples never give one constant the same value
  (`negativeExamplesWith_counterexamples`);
* a search that stops short of the number asked for has met every
  counter-example in at least one constant (`negativeExamplesWith_meets_every`).
  It need not have met it in all of them: blocking each value on its own rules
  out every assignment that shares one value with an example, counter-examples
  among them.
-/

namespace SmtSynth

/-! ## Disequations with values -/

theorem Term.eval_distinct (ρ : Assignment) (a b : Term) :
    (Term.app .distinct [a, b]).eval ρ = .bool (decide (a.eval ρ ≠ b.eval ρ)) := by
  simp only [Term.eval_app, apply, List.map_cons, List.map_nil]
  by_cases h : a.eval ρ = b.eval ρ
  · simp [h, List.eraseDups, List.eraseDupsBy, List.eraseDupsBy.loop]
  · have h' : (b.eval ρ == a.eval ρ) = false := beq_false_of_ne (Ne.symm h)
    simp [h, h', List.eraseDups, List.eraseDupsBy, List.eraseDupsBy.loop]

theorem Value.toTerm_injective : Function.Injective Value.toTerm := by
  intro v v' h
  have := congrArg (Term.eval fun _ _ => none) h
  simpa using this

namespace Operand

/-- A disequation of a named constant with a value of its sort is a
disequation of the two terms; a numeral answers it with the sides turned
around, a truth value leaves them. -/
theorem binary_ne_value {n : String} {srt : TermSort} {v : Value} (hv : v.HasSort srt) :
    ∃ a b, binary .ne (.term (.var n srt)) (.term v.toTerm) = .ok (.term (.app .distinct [a, b])) ∧
      ((a, b) = (.var n srt, v.toTerm) ∨ (a, b) = (v.toTerm, .var n srt)) := by
  cases srt <;> cases v <;> simp only [Value.HasSort] at hv
  case bool.bool b =>
    exact ⟨_, _, by simp [binary, isTerm, BinOp.isComparison, refines, Value.toTerm, supports, method, coerce,
      merge, sort?, cast, Term.mkDistinct, Term.sort, bind, Except.bind, pure, Except.pure], .inl rfl⟩
  case int.int i =>
    exact ⟨_, _, by simp [binary, isTerm, BinOp.isComparison, refines, Value.toTerm, supports, method, coerce,
      merge, sort?, cast, Term.mkDistinct, Term.sort, BinOp.swapped, bind, Except.bind, pure, Except.pure], .inr rfl⟩
  case bv.word w w' x =>
    obtain ⟨rfl, -⟩ := hv
    exact ⟨_, _, by simp [binary, isTerm, BinOp.isComparison, refines, Value.toTerm, supports, method, coerce,
      merge, sort?, cast, Term.mkDistinct, TermSort.isBv, BinOp.swapped, bind, Except.bind, pure, Except.pure],
      .inr rfl⟩

theorem binary_ne_none (t : Term) : binary .ne (.term t) .none = .ok (.bool true) := by
  cases h : t.sort <;> simp [binary, isTerm, BinOp.isComparison, supports, method, h, pure, Except.pure]

end Operand

/-! ## Examples and what blocks them -/

/-- An entry of an example read from the model `m`: a named constant, with
the numeral `m` gives it, or the host's `None` when `m` lists none. -/
def Model.Entry (m : Model) (p : Operand × Operand) : Prop :=
  ∃ n s, p.1 = .term (.var n s) ∧ (p.2 = .none ∨ ∃ v, m.get? (.var n s) = some v ∧ p.2 = .term v.toTerm)

/-- `ρ` gives no constant of an example the value the example gives it. -/
def Differs (ex : Table) (ρ : Assignment) : Prop :=
  ∀ n s v, (.term (.var n s), .term v) ∈ ex.entries → (Term.var n s).eval ρ ≠ v.eval ρ

/-- Two examples never give one constant the same value. -/
def Apart (E F : Table) : Prop :=
  ∀ c a b, (c, a) ∈ E.entries → (c, b) ∈ F.entries → a ≠ .none → b ≠ .none → a ≠ b

theorem differs_singleton {n : String} {s : TermSort} {v : Term} {ρ : Assignment} :
    Differs ⟨[(.term (.var n s), .term v)]⟩ ρ ↔ (Term.var n s).eval ρ ≠ v.eval ρ := by
  constructor
  · intro h
    exact h n s v List.mem_cons_self
  · intro h n' s' v' hmem
    simp only [List.mem_singleton, Prod.mk.injEq, Operand.term.injEq, Term.var.injEq] at hmem
    obtain ⟨⟨rfl, rfl⟩, rfl⟩ := hmem
    exact h

theorem differs_cons {p : Operand × Operand} {es : List (Operand × Operand)} {ρ : Assignment} :
    Differs ⟨p :: es⟩ ρ ↔ Differs ⟨[p]⟩ ρ ∧ Differs ⟨es⟩ ρ := by
  simp only [Differs, List.mem_cons, List.not_mem_nil, or_false, or_imp, forall_and]

theorem blockEntry_word (s : Solver) (n : String) (w x : Nat) :
    blockEntry s (.term (.var n (.bv w)), .term (.word w x)) =
      .ok (s.add (.app .distinct [.word w x, .var n (.bv w)])) := by
  simp [blockEntry, Operand.binary, Operand.isTerm, BinOp.isComparison, Operand.refines, Operand.supports,
    Operand.method, Operand.coerce, Operand.merge, Operand.sort?, Operand.cast, Term.mkDistinct, TermSort.isBv,
    BinOp.swapped, Operand.asCondition, Term.sort_app, Term.appSort, Fn.isPredicate, bind, Except.bind, pure, Except.pure]


/-- The assertion that blocks one entry read from a well-sorted model holds
exactly where the constant avoids the entry's value. -/
theorem blockEntry_ok {m : Model} (hm : m.assignment.Sorted) {p : Operand × Operand} (hp : m.Entry p)
    {s s' : Solver} (h : blockEntry s p = .ok s') :
    ∃ t, s' = s.add t ∧ ∀ ρ, t.eval ρ = .bool true ↔ Differs ⟨[p]⟩ ρ := by
  obtain ⟨n, srt, h1, hnone | ⟨v, hget, h2⟩⟩ := hp
  · obtain ⟨a, b⟩ := p
    simp only at h1 hnone
    subst h1 hnone
    rw [blockEntry, Operand.binary_ne_none, ok_bind] at h
    obtain ⟨t, ht, h⟩ := bind_eq_ok.1 h
    simp only [Operand.asCondition, Operand.cast, Except.ok.injEq] at ht
    subst ht
    cases h
    exact ⟨_, rfl, fun ρ => by simp [Differs]⟩
  · obtain ⟨a, b, hab, hshape⟩ := Operand.binary_ne_value (hm n srt v hget)
    obtain ⟨c, d⟩ := p
    simp only at h1 h2
    subst h1 h2
    have hsort : (Term.app .distinct [a, b]).sort = .bool := by
      simp [Term.sort_app, Term.appSort, Fn.isPredicate]
    rw [blockEntry, hab, ok_bind, Operand.asCondition_term.2 ⟨hsort, rfl⟩, ok_bind] at h
    cases h
    refine ⟨_, rfl, fun ρ => ?_⟩
    rw [Term.eval_distinct, differs_singleton, Value.bool.injEq, decide_eq_true_iff]
    rcases hshape with h | h <;> simp only [Prod.mk.injEq] at h <;> obtain ⟨rfl, rfl⟩ := h
    · rfl
    · exact ne_comm

/-- Blocking an example read from a well-sorted model adds assertions that
hold exactly where no constant takes the example's value. -/
theorem blockExample_ok {m : Model} (hm : m.assignment.Sorted) {ex : Table} (hex : ∀ p ∈ ex.entries, m.Entry p)
    {s s' : Solver} (h : blockExample s ex = .ok s') :
    ∃ ts, s'.assertions.toList = s.assertions.toList ++ ts ∧
      ∀ ρ, (∀ t ∈ ts, t.eval ρ = .bool true) ↔ Differs ex ρ := by
  obtain ⟨es⟩ := ex
  simp only [blockExample] at h hex
  induction es generalizing s with
  | nil =>
    cases h
    exact ⟨[], by simp, fun ρ => by simp [Differs]⟩
  | cons p es ih =>
    rw [List.foldlM_cons] at h
    obtain ⟨s₁, h₁, h⟩ := bind_eq_ok.1 h
    obtain ⟨t, rfl, ht⟩ := blockEntry_ok hm (hex p List.mem_cons_self) h₁
    obtain ⟨ts, hts, hmeaning⟩ := ih (fun q hq => hex q (List.mem_cons_of_mem p hq)) h
    refine ⟨t :: ts, by simp [hts], fun ρ => ?_⟩
    rw [differs_cons, List.forall_mem_cons, ht, hmeaning]

/-! ## Reading a model at the constants -/

section Read

variable {m : Model} {consts : List Operand} {ex : Table}

/-- Each entry read from a model at named constants is one of them, with the
model's numeral or `None`. -/
theorem readAll_entries (hconsts : ∀ c ∈ consts, ∃ n s, c = .term (.var n s)) (h : readAll m consts = .ok ex) :
    ∀ p ∈ ex.entries, m.Entry p := by
  obtain ⟨-, hkeys, hread⟩ := readAll_ok h
  intro p hp
  obtain ⟨n, s, hc⟩ := hconsts p.1 ((hkeys p.1).1 (List.mem_map_of_mem hp))
  obtain ⟨x, hx, hnone | ⟨n', s', v, rfl, hget, hv⟩⟩ := Model.read_eq_ok (hread p hp)
  · exact ⟨n, s, hc, .inl hnone⟩
  · rw [hc, Operand.term.injEq, Term.var.injEq] at hx
    obtain ⟨rfl, rfl⟩ := hx
    exact ⟨n, s, hc, .inr ⟨v, hget, hv⟩⟩

/-- Reading a model at different named constants keys the example by them,
in order. -/
theorem readAll_keys (hconsts : ∀ c ∈ consts, ∃ n s, c = .term (.var n s)) (hnodup : consts.Nodup)
    (h : readAll m consts = .ok ex) : ex.keys = consts := by
  rw [readAll_eq_foldlM] at h
  suffices ∀ (cs : List Operand) (t₀ : Table), (∀ c ∈ cs, ∃ n s, c = .term (.var n s)) → (t₀.keys ++ cs).Nodup →
      cs.foldlM (fun t c => do return t.insert c (← m.read c)) t₀ = .ok ex → ex.keys = t₀.keys ++ cs by
    simpa using this consts {} hconsts (by simpa using hnodup) h
  intro cs
  induction cs with
  | nil =>
    intro t₀ _ _ h
    cases h
    simp
  | cons c cs ih =>
    intro t₀ hcs hnd h
    rw [List.foldlM_cons] at h
    obtain ⟨t₁, h₁, h⟩ := bind_eq_ok.1 h
    obtain ⟨v, -, h₁⟩ := bind_eq_ok.1 h₁
    cases h₁
    obtain ⟨n, s, rfl⟩ := hcs c List.mem_cons_self
    have hnew : (t₀.contains (.term (.var n s))) = false := by
      rw [Bool.eq_false_iff, Ne, Table.contains_term]
      intro hmem
      exact (List.nodup_append.1 hnd).2.2 _ hmem _ List.mem_cons_self rfl
    have hkeys : (t₀.insert (.term (.var n s)) v).keys = t₀.keys ++ [.term (.var n s)] := by
      rw [Table.keys_insert_term, hnew]
      rfl
    rw [ih _ (fun c hc => hcs c (List.mem_cons_of_mem _ hc)) (by simpa [hkeys] using hnd) h, hkeys]
    simp

theorem agrees_of_entries (hex : ∀ p ∈ ex.entries, m.Entry p) : Precondition.Agrees ex m.assignment := by
  intro n s v hv
  obtain ⟨n', s', h1, hnone | ⟨v', hget, h2⟩⟩ := hex _ hv
  · cases hnone
  · simp only [Operand.term.injEq, Term.var.injEq] at h1 h2
    obtain ⟨rfl, rfl⟩ := h1
    simp [Model.assignment, hget, h2]

/-- An example read from a model that avoids the values of an earlier one
never repeats one of them. -/
theorem apart_of_differs {m' : Model} {E : Table} (hE : ∀ p ∈ E.entries, m'.Entry p)
    (hex : ∀ p ∈ ex.entries, m.Entry p) (hd : Differs E m.assignment) : Apart E ex := by
  intro c a b ha hb hna hnb hab
  obtain ⟨n, s, hc, hnone | ⟨v, hget, hbv⟩⟩ := hex _ hb
  · exact hnb hnone
  obtain ⟨n', s', hc', hnone' | ⟨v', -, hav⟩⟩ := hE _ ha
  · exact hna hnone'
  simp only at hc hbv hc' hav
  rw [hc] at hc'
  simp only [Operand.term.injEq, Term.var.injEq] at hc'
  obtain ⟨rfl, rfl⟩ := hc'
  have hvv : v' = v := Value.toTerm_injective (by simpa [hav, hbv] using hab)
  apply hd n s v'.toTerm (by rw [← hc, ← hav]; exact ha)
  simp [Model.assignment, hget, hvv]

end Read

/-! ## Rounds and runs -/

section Run

variable {check : Checker} {consts : List Operand}

theorem negativeRun_of_sat {count : Nat} {s s₁ s₂ : Solver} {m : Model} {ex : Table}
    (hm : check s = (s₁, .sat m)) (hex : readAll m consts = .ok ex) (hblock : blockExample s₁ ex = .ok s₂) :
    negativeRun check consts (count + 1) s = negativeRun check consts count s₂ >>= fun exs => pure (ex :: exs) := by
  simp only [negativeRun, hm, hex, hblock, ok_bind]

theorem negativeRun_of_unsat {count : Nat} {s s₁ : Solver} (hm : check s = (s₁, .unsat)) :
    negativeRun check consts (count + 1) s = .ok [] := by
  simp only [negativeRun, hm]
  rfl

/-- A run of rounds ends after the number of rounds asked for, or earlier at a
solver that has no model; an invariant that every round keeps holds of all
examples found, with the solver the run ends with. -/
theorem negativeRun_end (Inv : List Table → Solver → Prop)
    (hstep : ∀ found s s₁ m ex s₂, Inv found s → check s = (s₁, .sat m) → readAll m consts = .ok ex →
      blockExample s₁ ex = .ok s₂ → Inv (found ++ [ex]) s₂) :
    ∀ (count : Nat) (s : Solver) (found exs : List Table), Inv found s →
      negativeRun check consts count s = .ok exs →
      ∃ s', Inv (found ++ exs) s' ∧ (exs.length = count ∨ exs.length < count ∧ (check s').2 = .unsat) := by
  intro count
  induction count with
  | zero =>
    intro s found exs hinv h
    cases h
    exact ⟨s, by simpa using hinv, .inl rfl⟩
  | succ count ih =>
    intro s found exs hinv h
    rcases hc : check s with ⟨s₁, m | _ | _⟩ <;> simp only [negativeRun, hc] at h
    · obtain ⟨ex, hex, h⟩ := bind_eq_ok.1 h
      obtain ⟨s₂, hs₂, h⟩ := bind_eq_ok.1 h
      obtain ⟨rest, hrest, h⟩ := bind_eq_ok.1 h
      cases h
      obtain ⟨s', hinv', hlen⟩ := ih s₂ (found ++ [ex]) rest (hstep found s s₁ m ex s₂ hinv hc hex hs₂) hrest
      refine ⟨s', by simpa using hinv', ?_⟩
      rcases hlen with hlen | ⟨hlen, hstop⟩
      · exact .inl (by simp [hlen])
      · exact .inr ⟨by simp [hlen], hstop⟩
    · cases h
      exact ⟨s, by simpa using hinv, .inr ⟨by simp, by simp [hc]⟩⟩
    · cases h

end Run

/-! ## The invariant of a search -/

/-- What a search for counter-examples of `φ` keyed by `consts` has
established once it has found `found` and goes on with the solver `s`. -/
structure Searched (φ : Term) (consts : List Operand) (found : List Table) (s : Solver) : Prop where
  /-- The assertions hold exactly where the formula fails and each constant
  avoids the value every example gives it. -/
  blocks : ∀ ρ : Assignment, ρ.Sorted → ((∀ t ∈ s.assertions.toList, t.eval ρ = .bool true) ↔
    (Term.app .not [φ]).eval ρ = .bool true ∧ ∀ E ∈ found, Differs E ρ)
  /-- Each example is keyed by the constants and read from a well-sorted
  model where the formula fails. -/
  read : ∀ E ∈ found, E.keys = consts ∧ ∃ m : Model, m.assignment.Sorted ∧
    (Term.app .not [φ]).eval m.assignment = .bool true ∧ ∀ p ∈ E.entries, m.Entry p
  apart : found.Pairwise Apart

namespace Searched

variable {check : Checker} {φ : Term} {consts : List Operand}

theorem init : Searched φ consts [] (Solver.add {} (.app .not [φ])) where
  blocks ρ _ := by simp
  read := by simp
  apart := List.Pairwise.nil

/-- A round that finds a model adds a counter-example that avoids every
earlier value, and blocks its own values. -/
theorem next (hkeeps : check.Keeps) (hmodels : check.ModelsSoundly)
    (hconsts : ∀ c ∈ consts, ∃ n s, c = .term (.var n s)) (hnodup : consts.Nodup)
    {found : List Table} {s s₁ s₂ : Solver} {m : Model} {ex : Table} (hinv : Searched φ consts found s)
    (hc : check s = (s₁, .sat m)) (hex : readAll m consts = .ok ex) (hs₂ : blockExample s₁ ex = .ok s₂) :
    Searched φ consts (found ++ [ex]) s₂ := by
  have hv : (check s).2 = .sat m := by rw [hc]
  obtain ⟨hm, htrue⟩ := hmodels s m hv
  obtain ⟨hfails, hdiffers⟩ := (hinv.blocks _ hm).1 htrue
  have hentries := readAll_entries hconsts hex
  obtain ⟨ts, hts, hmeaning⟩ := blockExample_ok hm hentries hs₂
  have hkept : s₁.assertions = s.assertions := by rw [← hkeeps s, hc]
  refine ⟨fun ρ hρ => ?_, fun E hE => ?_, ?_⟩
  · rw [hts, hkept, List.forall_mem_append, hinv.blocks ρ hρ, hmeaning]
    simp only [List.mem_append, List.mem_singleton, or_imp, forall_and, forall_eq, and_assoc]
  · rcases List.mem_append.1 hE with hE | hE
    · exact hinv.read E hE
    · rw [List.mem_singleton.1 hE]
      exact ⟨readAll_keys hconsts hnodup hex, m, hm, hfails, hentries⟩
  · refine List.pairwise_append.2 ⟨hinv.apart, List.pairwise_singleton _ _, fun E hE F hF => ?_⟩
    rw [List.mem_singleton.1 hF]
    obtain ⟨-, m', -, -, hE'⟩ := hinv.read E hE
    exact apart_of_differs hE' hentries (hdiffers E hE)

end Searched

theorem negativeExamplesWith_eq {check : Checker} {formula : Operand} {φ : Term} (hφ : formula.asCondition = .ok φ)
    (consts : List Operand) (count : Int) :
    negativeExamplesWith check formula consts count =
      negativeRun check consts count.toNat (Solver.add {} (.app .not [φ])) := by
  have hnot : (Operand.term (.app .not [φ])).asCondition = .ok (.app .not [φ]) :=
    Operand.asCondition_term.2 ⟨by simp [Term.sort_app, Term.appSort, Fn.isPredicate], rfl⟩
  simp only [negativeExamplesWith, Operand.unary, hφ, ok_bind, pure, Except.pure, hnot]

/-! ## What a search finds -/

section Search

variable {check : Checker} {formula : Operand} {φ : Term} {consts : List Operand} {num : Int} {exs : List Table}

theorem negativeExamplesWith_searched (hkeeps : check.Keeps) (hmodels : check.ModelsSoundly)
    (hφ : formula.asCondition = .ok φ) (hconsts : ∀ c ∈ consts, ∃ n s, c = .term (.var n s)) (hnodup : consts.Nodup)
    (h : negativeExamplesWith check formula consts num = .ok exs) :
    ∃ s, Searched φ consts exs s ∧ (exs.length = num.toNat ∨ exs.length < num.toNat ∧ (check s).2 = .unsat) := by
  rw [negativeExamplesWith_eq hφ] at h
  simpa using negativeRun_end (Searched φ consts)
    (fun _ _ _ _ _ _ hinv hc hex hs₂ => Searched.next hkeeps hmodels hconsts hnodup hinv hc hex hs₂)
    num.toNat _ [] exs Searched.init h

/-- Negative examples are counter-examples: there are at most as many as
asked for, each keyed by the constants and giving each either nothing or a
value of its sort, with the formula failing wherever the constants take those
values; and no two of them give one constant the same value. -/
theorem negativeExamplesWith_counterexamples (hkeeps : check.Keeps) (hmodels : check.ModelsSoundly)
    (hφ : formula.asCondition = .ok φ) (hconsts : ∀ c ∈ consts, ∃ n s, c = .term (.var n s)) (hnodup : consts.Nodup)
    (h : negativeExamplesWith check formula consts num = .ok exs) :
    exs.length ≤ num.toNat ∧
      (∀ E ∈ exs, E.keys = consts ∧
        (∀ p ∈ E.entries, p.2 = .none ∨ ∃ n s, ∃ v : Value, p.1 = .term (.var n s) ∧ v.HasSort s ∧ p.2 = .term v.toTerm) ∧
        ∃ ρ : Assignment, ρ.Sorted ∧ (Term.app .not [φ]).eval ρ = .bool true ∧ Precondition.Agrees E ρ) ∧
      exs.Pairwise Apart := by
  obtain ⟨s, hinv, hlen⟩ := negativeExamplesWith_searched hkeeps hmodels hφ hconsts hnodup h
  refine ⟨by omega, fun E hE => ?_, hinv.apart⟩
  obtain ⟨hkeys, m, hm, hfails, hentries⟩ := hinv.read E hE
  refine ⟨hkeys, fun p hp => ?_, m.assignment, hm, hfails, agrees_of_entries hentries⟩
  obtain ⟨n, s, h1, hnone | ⟨v, hget, h2⟩⟩ := hentries p hp
  · exact .inl hnone
  · exact .inr ⟨n, s, v, h1, hm n s v hget, h2⟩

/-- Over two 1-bit constants the formula `c1 = c2` fails at `(0, 1)` and at
`(1, 0)`; a checker that offers these two models in turn finds both, blocks
each, and stops with two examples of the three asked for. -/
theorem counterexamples_of_unequal_bits :
    negativeExamplesWith
        (Checker.preferring
          [Assignment.replace (fun _ _ => none) [(.var "c1" (.bv 1), .word 1 0), (.var "c2" (.bv 1), .word 1 1)],
            Assignment.replace (fun _ _ => none) [(.var "c1" (.bv 1), .word 1 1), (.var "c2" (.bv 1), .word 1 0)]])
        (.term (.app .eq [.var "c1" (.bv 1), .var "c2" (.bv 1)]))
        [.term (.var "c1" (.bv 1)), .term (.var "c2" (.bv 1))] 3 =
      .ok [(⟨[(.term (.var "c1" (.bv 1)), .term (.word 1 0)), (.term (.var "c2" (.bv 1)), .term (.word 1 1))]⟩ : Table),
        (⟨[(.term (.var "c1" (.bv 1)), .term (.word 1 1)), (.term (.var "c2" (.bv 1)), .term (.word 1 0))]⟩ : Table)] ∧
      (∀ E ∈ [(⟨[(.term (.var "c1" (.bv 1)), .term (.word 1 0)), (.term (.var "c2" (.bv 1)), .term (.word 1 1))]⟩ : Table),
          (⟨[(.term (.var "c1" (.bv 1)), .term (.word 1 1)), (.term (.var "c2" (.bv 1)), .term (.word 1 0))]⟩ : Table)],
        E.keys = [.term (.var "c1" (.bv 1)), .term (.var "c2" (.bv 1))] ∧
        (∀ p ∈ E.entries, p.2 = .none ∨
          ∃ n s, ∃ v : Value, p.1 = .term (.var n s) ∧ v.HasSort s ∧ p.2 = .term v.toTerm) ∧
        ∃ ρ : Assignment, ρ.Sorted ∧
          (Term.app .not [.app .eq [.var "c1" (.bv 1), .var "c2" (.bv 1)]]).eval ρ = .bool true ∧
          Precondition.Agrees E ρ) ∧
      [(⟨[(.term (.var "c1" (.bv 1)), .term (.word 1 0)), (.term (.var "c2" (.bv 1)), .term (.word 1 1))]⟩ : Table),
        (⟨[(.term (.var "c1" (.bv 1)), .term (.word 1 1)), (.term (.var "c2" (.bv 1)), .term (.word 1 0))]⟩ : Table)].Pairwise Apart := by
  set ρA : Assignment :=
    Assignment.replace (fun _ _ => none) [(.var "c1" (.bv 1), .word 1 0), (.var "c2" (.bv 1), .word 1 1)] with hA
  set ρB : Assignment :=
    Assignment.replace (fun _ _ => none) [(.var "c1" (.bv 1), .word 1 1), (.var "c2" (.bv 1), .word 1 0)] with hB
  have hsA : ρA.Sorted := Assignment.Sorted.replace Assignment.sorted_none (by simp [Value.HasSort])
  have hsB : ρB.Sorted := Assignment.Sorted.replace Assignment.sorted_none (by simp [Value.HasSort])
  have hA1 : (Term.var "c1" (.bv 1)).eval ρA = .word 1 0 := by simp [hA, Assignment.replace, Term.lookupLast]
  have hA2 : (Term.var "c2" (.bv 1)).eval ρA = .word 1 1 := by simp [hA, Assignment.replace, Term.lookupLast]
  have hB1 : (Term.var "c1" (.bv 1)).eval ρB = .word 1 1 := by simp [hB, Assignment.replace, Term.lookupLast]
  have hB2 : (Term.var "c2" (.bv 1)).eval ρB = .word 1 0 := by simp [hB, Assignment.replace, Term.lookupLast]
  have hsort : (Term.app .eq [.var "c1" (.bv 1), .var "c2" (.bv 1)]).sort = .bool := by
    simp [Term.sort_app, Term.appSort, Fn.isPredicate]
  have hφ := Operand.asCondition_term.2 ⟨hsort, rfl⟩
  set d₁ : Term := .app .distinct [.word 1 0, .var "c1" (.bv 1)] with hd₁
  set d₂ : Term := .app .distinct [.word 1 1, .var "c2" (.bv 1)] with hd₂
  set d₃ : Term := .app .distinct [.word 1 1, .var "c1" (.bv 1)] with hd₃
  set d₄ : Term := .app .distinct [.word 1 0, .var "c2" (.bv 1)] with hd₄
  set s₁ := Solver.add {} (.app .not [.app .eq [.var "c1" (.bv 1), .var "c2" (.bv 1)]]) with hs₁
  have h₁ := @Checker.preferring_cons_of_model [ρB] ρA s₁ hsA (by simp [hs₁, Term.eval_eq, hA1, hA2])
  have hr₁ := @readAll_ofAssignment ρA (s₁.assertions.toList.flatMap Term.vars)
    [.var "c1" (.bv 1), .var "c2" (.bv 1)] (by simp) (by simp [hs₁]) (by simp)
  simp only [List.map_cons, List.map_nil, hA1, hA2, Value.toTerm] at hr₁
  have hb₁ : blockExample s₁ ⟨[(.term (.var "c1" (.bv 1)), .term (.word 1 0)),
      (.term (.var "c2" (.bv 1)), .term (.word 1 1))]⟩ = .ok ((s₁.add d₁).add d₂) := by
    simp only [blockExample, List.foldlM_cons, List.foldlM_nil, blockEntry_word, ok_bind]
    rfl
  have h₂ : Checker.preferring [ρA, ρB] ((s₁.add d₁).add d₂) =
      ((s₁.add d₁).add d₂, .sat (Model.ofAssignment ρB
        (((s₁.add d₁).add d₂).assertions.toList.flatMap Term.vars))) := by
    rw [@Checker.preferring_cons_of_fails [ρB] ρA _ d₁ (by simp [hs₁]) (by simp [hd₁, Term.eval_distinct, hA1])]
    exact Checker.preferring_cons_of_model hsB (by simp [hs₁, hd₁, hd₂, Term.eval_eq, Term.eval_distinct, hB1, hB2])
  have hr₂ := @readAll_ofAssignment ρB (((s₁.add d₁).add d₂).assertions.toList.flatMap Term.vars)
    [.var "c1" (.bv 1), .var "c2" (.bv 1)] (by simp) (by simp [hs₁]) (by simp)
  simp only [List.map_cons, List.map_nil, hB1, hB2, Value.toTerm] at hr₂
  have hb₂ : blockExample ((s₁.add d₁).add d₂) ⟨[(.term (.var "c1" (.bv 1)), .term (.word 1 1)),
      (.term (.var "c2" (.bv 1)), .term (.word 1 0))]⟩ = .ok ((((s₁.add d₁).add d₂).add d₃).add d₄) := by
    simp only [blockExample, List.foldlM_cons, List.foldlM_nil, blockEntry_word, ok_bind]
    rfl
  have hnone : ¬ Satisfiable (((((s₁.add d₁).add d₂).add d₃).add d₄)).assertions.toList := by
    rintro ⟨ρ, hρ, hall⟩
    obtain ⟨x, hx, hc⟩ := (hρ.eval_var "c1" (.bv 1)).eq_word
    have e₁ := hall d₁ (by simp)
    have e₃ := hall d₃ (by simp)
    simp only [hd₁, hd₃, Term.eval_distinct, hc, Term.eval_word, Value.bool.injEq, decide_eq_true_eq, ne_eq,
      Value.word.injEq, true_and] at e₁ e₃
    omega
  have h₃ : Checker.preferring [ρA, ρB] ((((s₁.add d₁).add d₂).add d₃).add d₄) =
      ((((s₁.add d₁).add d₂).add d₃).add d₄, .unsat) := by
    rw [@Checker.preferring_cons_of_fails [ρB] ρA _ d₁ (by simp) (by simp [hd₁, Term.eval_distinct, hA1]),
      @Checker.preferring_cons_of_fails [] ρB _ d₃ (by simp) (by simp [hd₃, Term.eval_distinct, hB1]),
      Checker.preferring_nil, Checker.exact_of_not_satisfiable hnone]
  have hrun : negativeExamplesWith (Checker.preferring [ρA, ρB])
      (.term (.app .eq [.var "c1" (.bv 1), .var "c2" (.bv 1)]))
      [.term (.var "c1" (.bv 1)), .term (.var "c2" (.bv 1))] 3 =
      .ok [(⟨[(.term (.var "c1" (.bv 1)), .term (.word 1 0)), (.term (.var "c2" (.bv 1)), .term (.word 1 1))]⟩ : Table),
        (⟨[(.term (.var "c1" (.bv 1)), .term (.word 1 1)), (.term (.var "c2" (.bv 1)), .term (.word 1 0))]⟩ : Table)] := by
    rw [negativeExamplesWith_eq hφ, show (3 : Int).toNat = 2 + 1 from rfl, negativeRun_of_sat h₁ hr₁ hb₁,
      negativeRun_of_sat h₂ hr₂ hb₂, negativeRun_of_unsat h₃]
    rfl
  refine ⟨hrun, ?_⟩
  have hc := negativeExamplesWith_counterexamples Checker.preferring_keeps Checker.preferring_modelsSoundly hφ
    (by simp) (by simp) hrun
  exact ⟨hc.2.1, hc.2.2⟩

/-- A search that stops with fewer examples than asked for has met every
counter-example: each well-sorted assignment under which the formula fails
gives some constant the value some example gives it. -/
theorem negativeExamplesWith_meets_every (hkeeps : check.Keeps) (hunsat : check.RefutesSoundly)
    (hmodels : check.ModelsSoundly) (hφ : formula.asCondition = .ok φ)
    (hconsts : ∀ c ∈ consts, ∃ n s, c = .term (.var n s)) (hnodup : consts.Nodup)
    (h : negativeExamplesWith check formula consts num = .ok exs) (hfew : exs.length < num.toNat)
    (ρ : Assignment) (hρ : ρ.Sorted) (hfails : (Term.app .not [φ]).eval ρ = .bool true) :
    ∃ E ∈ exs, ∃ n s v, (Operand.term (.var n s), Operand.term v) ∈ E.entries ∧ (Term.var n s).eval ρ = v.eval ρ := by
  obtain ⟨s, hinv, hlen⟩ := negativeExamplesWith_searched hkeeps hmodels hφ hconsts hnodup h
  have hstop : (check s).2 = .unsat := by
    rcases hlen with hlen | ⟨-, hstop⟩
    · omega
    · exact hstop
  -- an assignment that avoided every example would satisfy the assertions
  by_contra hnone
  apply hunsat s hstop
  exact ⟨ρ, hρ, (hinv.blocks ρ hρ).2 ⟨hfails, fun E hE n s v hv heq => hnone ⟨E, hE, n, s, v, hv, heq⟩⟩⟩

end Search

end SmtSynth
