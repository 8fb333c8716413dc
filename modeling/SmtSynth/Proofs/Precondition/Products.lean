import Mathlib
import SmtSynth.Proofs.Precondition.PowerTest
/-!
# Conjunctions of power tests

When the positive example is also given as a negative one, no sketch atom
separates them (`sketchAtoms_eq_nil_of_mem`), so the pool holds only the
power-of-two tests. For two named `w`-bit constants whose values pass the
test, the pool is their two tests (`candidates_of_powers`).

Take the formula that says the product `c₁ * c₂` passes the test. Zero and the
powers of two are closed under products modulo `2 ^ w`
(`wrap_mul_zero_or_pow`), so both tests together imply the formula. Neither
test does alone: with one constant at `1` and the other at `3`, the product
is `3` (`not_entails_product`). The search therefore finds nothing in round `1`.
In round `2` it keeps both orders of the conjunction of the two tests, and the
sequences that repeat one test are dropped
(`synthesizeWith_product_of_powers`).
-/

namespace SmtSynth
namespace Precondition

variable {check : Checker} {w : Nat} {n₁ n₂ : String}

/-! ## Products of powers of two -/

/-- Zero and the powers of two below `2 ^ w` stay so under products modulo
`2 ^ w`. -/
theorem wrap_mul_zero_or_pow {x y : Nat} (hx : x = 0 ∨ ∃ i < w, x = 2 ^ i) (hy : y = 0 ∨ ∃ j < w, y = 2 ^ j) :
    Word.wrap w ((x * y : Nat) : Int) = 0 ∨ ∃ k < w, Word.wrap w ((x * y : Nat) : Int) = 2 ^ k := by
  rcases hx with rfl | ⟨i, -, rfl⟩
  · simp
  rcases hy with rfl | ⟨j, -, rfl⟩
  · simp
  rw [← pow_add]
  by_cases hij : i + j < w
  · exact .inr ⟨i + j, hij, Word.wrap_of_lt (Nat.pow_lt_pow_right (by norm_num) hij)⟩
  · exact .inl (Word.wrap_pow_of_le (by omega))

theorem eval_mul_words {a b : Term} (ha : a.sort = .bv w) {ρ : Assignment} {x y : Nat}
    (hx : a.eval ρ = .word w x) (hy : b.eval ρ = .word w y) :
    (Term.app .mul [a, b]).eval ρ = .word w (Word.wrap w ((x * y : Nat) : Int)) := by
  simp [Term.eval_app, Term.apply, Term.evalSort, ha, hx, hy, Term.wordBinary, Value.asNat]

theorem powerTerm_eval_three (hw : 2 ≤ w) {t : Term} (ht : t.sort = .bv w) {ρ : Assignment}
    (h3 : t.eval ρ = .word w 3) : (powerTerm w t).eval ρ ≠ .bool true := by
  have hlt : 3 < 2 ^ w := lt_of_lt_of_le (by norm_num) (Nat.pow_le_pow_right (by norm_num) hw)
  rw [Ne, powerTerm_eval_iff ht h3 hlt]
  rintro (h | ⟨i, -, h⟩)
  · omega
  · rcases i with _ | _ | i
    · simp at h
    · simp at h
    · have : 4 ≤ 2 ^ (i + 2) := by
        rw [pow_add]
        exact Nat.le_mul_of_pos_left 4 (by positivity)
      omega

theorem entails_product (n₁ n₂ : String) :
    Entails (.app .and [powerTerm w (.var n₁ (.bv w)), powerTerm w (.var n₂ (.bv w))])
      (powerTerm w (.app .mul [.var n₁ (.bv w), .var n₂ (.bv w)])) := by
  intro ρ hρ h
  rw [Term.eval_and] at h
  simp only [List.all_cons, List.all_nil, Bool.and_true, Bool.and_eq_true, Value.bool.injEq] at h
  obtain ⟨x, hx, hcx⟩ := (hρ.eval_var n₁ (.bv w)).eq_word
  obtain ⟨y, hy, hcy⟩ := (hρ.eval_var n₂ (.bv w)).eq_word
  have hsort : (Term.app .mul [.var n₁ (.bv w), .var n₂ (.bv w)]).sort = .bv w := by
    simp [Term.sort_app, Term.appSort, Fn.isPredicate]
  rw [powerTerm_eval_iff hsort (eval_mul_words (Term.sort_var _ _) hcx hcy) (Word.wrap_lt _)]
  exact wrap_mul_zero_or_pow ((powerTerm_eval_iff (Term.sort_var _ _) hcx hx).1 (Value.asBool_eq_true.1 h.1))
    ((powerTerm_eval_iff (Term.sort_var _ _) hcy hy).1 (Value.asBool_eq_true.1 h.2))

/-- Neither test alone makes the product pass: with one constant at `1` and
the other at `3`, the product is `3`. -/
theorem not_entails_product (hw : 2 ≤ w) (hn : n₁ ≠ n₂) :
    ¬ Entails (powerTerm w (.var n₁ (.bv w))) (powerTerm w (.app .mul [.var n₁ (.bv w), .var n₂ (.bv w)])) ∧
      ¬ Entails (powerTerm w (.var n₂ (.bv w))) (powerTerm w (.app .mul [.var n₁ (.bv w), .var n₂ (.bv w)])) := by
  have h3 : 3 < 2 ^ w := lt_of_lt_of_le (by norm_num) (Nat.pow_le_pow_right (by norm_num) hw)
  have hsort : (Term.app .mul [.var n₁ (.bv w), .var n₂ (.bv w)]).sort = .bv w := by
    simp [Term.sort_app, Term.appSort, Fn.isPredicate]
  have hcounter : ∀ u v : Nat, u * v = 3 → u < 2 ^ w → v < 2 ^ w → ∃ ρ : Assignment, ρ.Sorted ∧
      (Term.var n₁ (.bv w)).eval ρ = .word w u ∧ (Term.var n₂ (.bv w)).eval ρ = .word w v ∧
      (powerTerm w (.app .mul [.var n₁ (.bv w), .var n₂ (.bv w)])).eval ρ ≠ .bool true := by
    intro u v huv hu hv
    set ρ := Assignment.replace (fun _ _ => none) [(.var n₁ (.bv w), .word w u), (.var n₂ (.bv w), .word w v)]
    have h1 : (Term.var n₁ (.bv w)).eval ρ = .word w u := by
      simp [ρ, Assignment.replace, Term.lookupLast, Ne.symm hn]
    have h2 : (Term.var n₂ (.bv w)).eval ρ = .word w v := by simp [ρ, Assignment.replace, Term.lookupLast, hn]
    refine ⟨ρ, Assignment.Sorted.replace Assignment.sorted_none (by simp [Value.HasSort, hu, hv]), h1, h2, ?_⟩
    apply powerTerm_eval_three hw hsort
    rw [eval_mul_words (Term.sort_var _ _) h1 h2, huv, Word.wrap_of_lt h3]
  have hone : ∀ (n : String) (ρ : Assignment), (Term.var n (.bv w)).eval ρ = .word w 1 →
      (powerTerm w (.var n (.bv w))).eval ρ = .bool true := fun n ρ h =>
    (powerTerm_eval_iff (Term.sort_var _ _) h (Nat.one_lt_two_pow (by omega))).2 (.inr ⟨0, by omega, rfl⟩)
  constructor
  · intro h
    obtain ⟨ρ, hρ, h1, -, hne⟩ := hcounter 1 3 rfl (Nat.one_lt_two_pow (by omega)) h3
    exact hne (h ρ hρ (hone n₁ ρ h1))
  · intro h
    obtain ⟨ρ, hρ, -, h2, hne⟩ := hcounter 3 1 rfl h3 (Nat.one_lt_two_pow (by omega))
    exact hne (h ρ hρ (hone n₂ ρ h2))

/-! ## The search -/

theorem closedPairs_two (hn : n₁ ≠ n₂) (a b : Nat) :
    ClosedPairs [(.var n₁ (.bv w), .word w a), (.var n₂ (.bv w), .word w b)] := by
  refine ⟨?_, by simp, by simp [hn]⟩
  intro q hq
  simp only [List.mem_cons, List.not_mem_nil, or_false] at hq
  rcases hq with rfl | rfl
  · exact ⟨n₁, .bv w, rfl, Term.sort_word w a⟩
  · exact ⟨n₂, .bv w, rfl, Term.sort_word w b⟩

/-- Two constants whose values pass the power test, in an example that is
both positive and negative, give a pool of their two tests. -/
theorem candidates_of_powers (hdec : check.Decides) (hunsat : check.RefutesSoundly)
    (hmodels : check.ModelsSoundly) (hw : 0 < w) (hn : n₁ ≠ n₂) {a b : Nat}
    (ha : a = 0 ∨ ∃ i < w, a = 2 ^ i) (hb : b = 0 ∨ ∃ j < w, b = 2 ^ j) :
    candidates check (Table.ofPairs [(.var n₁ (.bv w), .word w a), (.var n₂ (.bv w), .word w b)])
        [Table.ofPairs [(.var n₁ (.bv w), .word w a), (.var n₂ (.bv w), .word w b)]] w =
      .ok [.term (powerTerm w (.var n₁ (.bv w))), .term (powerTerm w (.var n₂ (.bv w)))] := by
  have hlt : ∀ {x : Nat}, (x = 0 ∨ ∃ i < w, x = 2 ^ i) → x < 2 ^ w := by
    rintro x (rfl | ⟨i, hi, rfl⟩)
    · positivity
    · exact Nat.pow_lt_pow_right (by norm_num) hi
  have hpass : ∀ {x : Nat}, (x = 0 ∨ ∃ i < w, x = 2 ^ i) →
      (powerTerm w (.word w x)).eval (fun _ _ => none) = .bool true := fun hx =>
    (powerTerm_eval_iff (Term.sort_word w _) (Term.eval_word _ w _) (hlt hx)).2 hx
  have hes := closedPairs_two (w := w) hn a b
  rw [show [Table.ofPairs [(.var n₁ (.bv w), .word w a), (.var n₂ (.bv w), .word w b)]] =
      [[(Term.var n₁ (.bv w), Term.word w a), (.var n₂ (.bv w), .word w b)]].map Table.ofPairs from rfl,
    candidates_eq_powerAtoms_of_mem hdec hunsat hmodels hw hes (by simp) (by simpa using hes)
      (fun n hn c hc => by rwa [List.mem_singleton.1 hn]) (List.mem_singleton_self _)]
  simp [powerAtoms, hpass ha, hpass hb]

/-- Two named `w`-bit constants, each at zero or a power of two, form a
positive example that is also the one negative example. For the formula
"the product passes the test", the search finds no single test, and in
round `2` both orders of the conjunction of the two tests. -/
theorem synthesizeWith_product_of_powers (hdec : check.Decides) (hunsat : check.RefutesSoundly)
    (hmodels : check.ModelsSoundly) (hw : 2 ≤ w) (hn : n₁ ≠ n₂) {a b : Nat}
    (ha : a = 0 ∨ ∃ i < w, a = 2 ^ i) (hb : b = 0 ∨ ∃ j < w, b = 2 ^ j) {rounds : Int} (hrounds : 2 ≤ rounds) :
    synthesizeWith check (.term (powerTerm w (.app .mul [.var n₁ (.bv w), .var n₂ (.bv w)])))
        (Table.ofPairs [(.var n₁ (.bv w), .word w a), (.var n₂ (.bv w), .word w b)])
        [Table.ofPairs [(.var n₁ (.bv w), .word w a), (.var n₂ (.bv w), .word w b)]] w rounds =
      .ok [.term (.app .and [powerTerm w (.var n₁ (.bv w)), powerTerm w (.var n₂ (.bv w))]),
        .term (.app .and [powerTerm w (.var n₂ (.bv w)), powerTerm w (.var n₁ (.bv w))])] := by
  have hpool : ∀ t ∈ [powerTerm w (.var n₁ (.bv w)), powerTerm w (.var n₂ (.bv w))], t.sort = .bool := by
    simp [sort_powerTerm]
  obtain ⟨Ps, hrun, hfirst⟩ := synthesizeWith_firstNonempty hdec hunsat hmodels rounds
    (sort_powerTerm w _) hpool (candidates_of_powers hdec hunsat hmodels (by omega) hn ha hb)
  have hne : powerTerm w (.var n₁ (.bv w)) ≠ powerTerm w (.var n₂ (.bv w)) := by
    simp [powerTerm, hn]
  obtain ⟨hleft, hright⟩ := not_entails_product (w := w) hw hn
  have hV1 : validRound (powerTerm w (.app .mul [.var n₁ (.bv w), .var n₂ (.bv w)]))
      [powerTerm w (.var n₁ (.bv w)), powerTerm w (.var n₂ (.bv w))] 1 = [] := by
    simp [validRound, conjunctions, hleft, hright]
  have hV2 : validRound (powerTerm w (.app .mul [.var n₁ (.bv w), .var n₂ (.bv w)]))
      [powerTerm w (.var n₁ (.bv w)), powerTerm w (.var n₂ (.bv w))] 2 =
      [.app .and [powerTerm w (.var n₁ (.bv w)), powerTerm w (.var n₂ (.bv w))],
        .app .and [powerTerm w (.var n₂ (.bv w)), powerTerm w (.var n₁ (.bv w))]] := by
    have hboth := entails_product (w := w) n₁ n₂
    rw [validRound, conjunctions_pair hne]
    simp [hboth, entails_and_swap.1 hboth]
  rw [hrun, hfirst.eq_second (by omega) hV1 (by simp [hV2]), hV2]
  rfl

/-- At three bits with `c1 = 4` and `c2 = 2`, each found precondition is a
conjunction of both tests, holds at the example, and implies that the
product passes the test. -/
theorem sound_conjunctions_of_product :
    WordExample 3 (Table.ofPairs [(.var "c1" (.bv 3), .word 3 4), (.var "c2" (.bv 3), .word 3 2)]) ∧
    synthesizeWith Checker.exact (.term (powerTerm 3 (.app .mul [.var "c1" (.bv 3), .var "c2" (.bv 3)])))
        (Table.ofPairs [(.var "c1" (.bv 3), .word 3 4), (.var "c2" (.bv 3), .word 3 2)])
        [Table.ofPairs [(.var "c1" (.bv 3), .word 3 4), (.var "c2" (.bv 3), .word 3 2)]] 3 2 =
      .ok [.term (.app .and [powerTerm 3 (.var "c1" (.bv 3)), powerTerm 3 (.var "c2" (.bv 3))]),
        .term (.app .and [powerTerm 3 (.var "c2" (.bv 3)), powerTerm 3 (.var "c1" (.bv 3))])] ∧
    ∀ P ∈ [Operand.term (.app .and [powerTerm 3 (.var "c1" (.bv 3)), powerTerm 3 (.var "c2" (.bv 3))]),
        .term (.app .and [powerTerm 3 (.var "c2" (.bv 3)), powerTerm 3 (.var "c1" (.bv 3))])],
      ∃ t atoms, P = .term t ∧ atoms.length ≤ (2 : Int).toNat ∧
        (atoms = [t] ∨ (2 ≤ atoms.length ∧ t = .app .and atoms)) ∧
        (∀ a ∈ atoms,
          Atom (Table.keys (Table.ofPairs [(.var "c1" (.bv 3), .word 3 4), (.var "c2" (.bv 3), .word 3 2)])) 3 a) ∧
        HoldsAt (Table.ofPairs [(.var "c1" (.bv 3), .word 3 4), (.var "c2" (.bv 3), .word 3 2)]) t ∧
        ∀ ρ : Assignment, ρ.Sorted → t.eval ρ = .bool true →
          (powerTerm 3 (.app .mul [.var "c1" (.bv 3), .var "c2" (.bv 3)])).eval ρ = .bool true := by
  have hex : WordExample 3 (Table.ofPairs [(.var "c1" (.bv 3), .word 3 4), (.var "c2" (.bv 3), .word 3 2)]) :=
    (closedPairs_two (by decide) 4 2).wordExample (by simp)
  have hrun := synthesizeWith_product_of_powers Checker.exact_decides Checker.exact_refutesSoundly
    Checker.exact_modelsSoundly (w := 3) (by norm_num) (show "c1" ≠ "c2" by decide) (a := 4) (b := 2)
    (.inr ⟨2, by norm_num, rfl⟩) (.inr ⟨1, by norm_num, rfl⟩) (show (2 : Int) ≤ 2 by norm_num)
  exact ⟨hex, hrun, synthesizeWith_sound Checker.exact_refutesSoundly Checker.exact_modelsSoundly hex hrun⟩

/-- With up to three rounds at the same example, round `1` has no valid
test and the search stops at round `2`, with both orders of the
conjunction. -/
theorem least_round_of_product :
    candidates Checker.exact (Table.ofPairs [(.var "c1" (.bv 3), .word 3 4), (.var "c2" (.bv 3), .word 3 2)])
        [Table.ofPairs [(.var "c1" (.bv 3), .word 3 4), (.var "c2" (.bv 3), .word 3 2)]] 3 =
      .ok [.term (powerTerm 3 (.var "c1" (.bv 3))), .term (powerTerm 3 (.var "c2" (.bv 3)))] ∧
    synthesizeWith Checker.exact (.term (powerTerm 3 (.app .mul [.var "c1" (.bv 3), .var "c2" (.bv 3)])))
        (Table.ofPairs [(.var "c1" (.bv 3), .word 3 4), (.var "c2" (.bv 3), .word 3 2)])
        [Table.ofPairs [(.var "c1" (.bv 3), .word 3 4), (.var "c2" (.bv 3), .word 3 2)]] 3 3 =
      .ok [.term (.app .and [powerTerm 3 (.var "c1" (.bv 3)), powerTerm 3 (.var "c2" (.bv 3))]),
        .term (.app .and [powerTerm 3 (.var "c2" (.bv 3)), powerTerm 3 (.var "c1" (.bv 3))])] ∧
    ∃ pool Ps, [Operand.term (powerTerm 3 (.var "c1" (.bv 3))), .term (powerTerm 3 (.var "c2" (.bv 3)))] = pool.map .term ∧
      synthesizeWith Checker.exact (.term (powerTerm 3 (.app .mul [.var "c1" (.bv 3), .var "c2" (.bv 3)])))
          (Table.ofPairs [(.var "c1" (.bv 3), .word 3 4), (.var "c2" (.bv 3), .word 3 2)])
          [Table.ofPairs [(.var "c1" (.bv 3), .word 3 4), (.var "c2" (.bv 3), .word 3 2)]] 3 3 =
        .ok (Ps.map .term) ∧
      FirstNonempty (validRound (powerTerm 3 (.app .mul [.var "c1" (.bv 3), .var "c2" (.bv 3)])) pool) 0
        (3 : Int).toNat Ps := by
  have hex : WordExample 3 (Table.ofPairs [(.var "c1" (.bv 3), .word 3 4), (.var "c2" (.bv 3), .word 3 2)]) :=
    (closedPairs_two (by decide) 4 2).wordExample (by simp)
  have hcands := candidates_of_powers Checker.exact_decides Checker.exact_refutesSoundly
    Checker.exact_modelsSoundly (w := 3) (by norm_num) (show "c1" ≠ "c2" by decide) (a := 4) (b := 2)
    (.inr ⟨2, by norm_num, rfl⟩) (.inr ⟨1, by norm_num, rfl⟩)
  have hrun := synthesizeWith_product_of_powers Checker.exact_decides Checker.exact_refutesSoundly
    Checker.exact_modelsSoundly (w := 3) (by norm_num) (show "c1" ≠ "c2" by decide) (a := 4) (b := 2)
    (.inr ⟨2, by norm_num, rfl⟩) (.inr ⟨1, by norm_num, rfl⟩) (show (2 : Int) ≤ 3 by norm_num)
  exact ⟨hcands, hrun, synthesizeWith_least_round Checker.exact_decides Checker.exact_refutesSoundly
    Checker.exact_modelsSoundly (sort_powerTerm 3 _) hex hcands⟩

end Precondition
end SmtSynth
