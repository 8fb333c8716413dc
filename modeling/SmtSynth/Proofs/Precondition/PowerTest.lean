import Mathlib
import SmtSynth.Proofs.Precondition.Pool
import SmtSynth.Proofs.Words
/-!
# The power-of-two test

Precondition synthesis proposes `c & (c - 1) == 0` for each constant `c` of
the positive example whose own value passes that test. The value is tested as
it is given (`Operand.TestedAs`): a host integer by the host, in unbounded
two's complement, and a closed `w`-bit term by the solver, on its word.

Both tests pass zero and the powers of two and nothing else
(`IntBits.and_sub_one_eq_zero_iff`, `and_wrap_pred_eq_zero_iff`), so the
power-of-two stage keeps, in order, the test of each constant whose value is
one of them (`powerCandidates_eq_filter`). For a nonzero value that means a
host integer that is a power of two of any size, or a word `2 ^ i` with `i < w`;
on a `w`-bit constant the test holds at a nonzero word exactly when the word
is such a power (`powerCandidates_mem_iff_power`). A host integer is not read
modulo `2 ^ w` first: at width `4`, `17` fails although its word `1` is a
power of two (`candidates_int_not_wrapped`).
-/

namespace SmtSynth

theorem natCast_zero_or_two_pow_iff (x : Nat) :
    ((x : Int) = 0 ∨ ∃ k : Nat, (x : Int) = 2 ^ k) ↔ x = 0 ∨ x.isPowerOfTwo := by
  rw [Nat.cast_eq_zero, Nat.isPowerOfTwo]
  constructor
  · rintro (h0 | ⟨k, hk⟩)
    · exact .inl h0
    · exact .inr ⟨k, by exact_mod_cast hk⟩
  · rintro (h0 | ⟨k, hk⟩)
    · exact .inl h0
    · exact .inr ⟨k, by exact_mod_cast hk⟩

/-- `n & (n - 1) == 0` on unbounded integers holds of zero and the powers of
two only: a positive `n` loses its lowest bit, a negative one stays
negative. -/
theorem IntBits.and_sub_one_eq_zero_iff (n : Int) :
    IntBits.and n (n - 1) = 0 ↔ n = 0 ∨ ∃ k : Nat, n = 2 ^ k := by
  cases n with
  | ofNat a =>
    cases a with
    | zero =>
      simp only [show IntBits.and (Int.ofNat 0) (Int.ofNat 0 - 1) = 0 from rfl, true_iff]
      exact .inl rfl
    | succ a =>
      have hsub : Int.ofNat (a + 1) - 1 = Int.ofNat a := by
        rw [Int.ofNat_eq_natCast, Int.ofNat_eq_natCast]
        omega
      have hand : IntBits.and (Int.ofNat (a + 1)) (Int.ofNat a) = Int.ofNat ((a + 1) &&& a) := rfl
      have hbits := Nat.and_sub_one_eq_zero_iff_isPowerOfTwo (n := a + 1) (by omega)
      rw [Nat.add_sub_cancel] at hbits
      rw [hsub, hand, Int.ofNat_eq_natCast, Int.ofNat_eq_natCast, Nat.cast_eq_zero, hbits,
        natCast_zero_or_two_pow_iff]
      simp
  | negSucc m =>
    rw [show Int.negSucc m - 1 = Int.negSucc (m + 1) by omega,
      show IntBits.and (Int.negSucc m) (Int.negSucc (m + 1)) = Int.negSucc (m ||| (m + 1)) from rfl]
    have hneg := Int.negSucc_lt_zero m
    constructor
    · intro h0
      exact absurd h0 (Int.negSucc_ne_zero _)
    · rintro (h0 | ⟨k, hk⟩)
      · omega
      · have hpos : (0 : Int) < 2 ^ k := by positivity
        omega

/-! ## Values as the test reads them -/

/-- A positive value as the power-of-two test reads it, as the integer `n`:
a host integer as itself, tested by the host; a closed `w`-bit term as its
word, tested by the solver. -/
inductive Operand.TestedAs (w : Nat) : Operand → Int → Prop
  | int (n : Int) : TestedAs w (.int n) n
  | word {t : Term} {x : Nat} : (Operand.term t).ClosedWord w t → t.eval (fun _ _ => Option.none) = .word w x →
      TestedAs w (.term t) x

theorem Operand.ClosedWord.word_lt {w : Nat} {t : Term} {x : Nat} (ht : (Operand.term t).ClosedWord w t)
    (hx : t.eval (fun _ _ => Option.none) = .word w x) : x < 2 ^ w := by
  have hsort := ht.word (fun _ _ => Option.none)
  rw [hx] at hsort
  exact hsort.2

theorem Operand.TestedAs.unique {w : Nat} {v : Operand} {n m : Int} (hn : v.TestedAs w n) (hm : v.TestedAs w m) :
    n = m := by
  cases hn with
  | int => cases hm; rfl
  | word _ hx =>
    cases hm with
    | word _ hy =>
      rw [hx, Value.word.injEq] at hy
      rw [hy.2]

namespace Precondition

variable {w : Nat} {check : Checker}

/-! ## The test on words -/

/-- The test on a `w`-bit term reads its word `x` as `x &&& (x - 1)` modulo
`2 ^ w`. -/
theorem powerTerm_eval_iff_and {c : Term} (hc : c.sort = .bv w) {ρ : Assignment} {x : Nat}
    (hx : c.eval ρ = .word w x) :
    (powerTerm w c).eval ρ = .bool true ↔ x &&& Word.wrap w ((x : Int) - Word.wrap w 1) = 0 := by
  simp [powerTerm, Term.ofInt_eq_word, Term.eval_app, Term.apply, Term.sort_app, Term.appSort, Term.evalSort,
    Fn.isPredicate, Term.wordBinary, Value.asNat, hc, hx]

theorem and_wrap_pred_eq_zero_iff {x : Nat} (hx : x < 2 ^ w) :
    x &&& Word.wrap w ((x : Int) - Word.wrap w 1) = 0 ↔ x = 0 ∨ x.isPowerOfTwo := by
  rcases Nat.eq_zero_or_pos x with rfl | hpos
  · simp
  · have hw : 0 < w := by
      rcases Nat.eq_zero_or_pos w with rfl | hw
      · simp at hx
        omega
      · exact hw
    have hpred : Word.wrap w ((x : Int) - Word.wrap w 1) = x - 1 := by
      rw [Word.wrap_one hw, show (x : Int) - ((1 : Nat) : Int) = ((x - 1 : Nat) : Int) by omega]
      exact Word.wrap_of_lt (by omega)
    rw [hpred, Nat.and_sub_one_eq_zero_iff_isPowerOfTwo hpos.ne']
    simp [hpos.ne']

theorem isPowerOfTwo_iff_lt {x : Nat} (hx : x < 2 ^ w) : x.isPowerOfTwo ↔ ∃ i < w, x = 2 ^ i := by
  constructor
  · rintro ⟨i, rfl⟩
    exact ⟨i, (Nat.pow_lt_pow_iff_right (by norm_num)).1 hx, rfl⟩
  · rintro ⟨i, -, rfl⟩
    exact ⟨i, rfl⟩

/-- The test holds at a word exactly when the word is zero or `2 ^ i` with
`i < w`. -/
theorem powerTerm_eval_iff {c : Term} (hc : c.sort = .bv w) {ρ : Assignment} {x : Nat}
    (hx : c.eval ρ = .word w x) (hlt : x < 2 ^ w) :
    (powerTerm w c).eval ρ = .bool true ↔ x = 0 ∨ ∃ i < w, x = 2 ^ i := by
  rw [powerTerm_eval_iff_and hc hx, and_wrap_pred_eq_zero_iff hlt, isPowerOfTwo_iff_lt hlt]

/-! ## Asking whether a value passes -/

theorem satisfiable_lit (hdec : check.Decides) (hunsat : check.RefutesSoundly) (hmodels : check.ModelsSoundly)
    (b : Bool) : satisfiable check [.lit b] = b := by
  rw [Bool.eq_iff_iff, satisfiable_iff hdec hunsat hmodels, satisfiable_closed (Term.vars_lit b), Term.eval_lit,
    Value.bool.injEq]

/-- The condition that asks whether a value passes the test, made by the host
for a host integer and left to the solver for a term, is satisfiable exactly
when the value is tested as zero or a power of two. -/
theorem powerOfTwo_condition (hdec : check.Decides) (hunsat : check.RefutesSoundly)
    (hmodels : check.ModelsSoundly) {v : Operand} {n : Int} (hv : v.TestedAs w n) :
    ∃ o t, powerOfTwo v = .ok o ∧ o.asCondition = .ok t ∧
      (satisfiable check [t] = true ↔ n = 0 ∨ ∃ k : Nat, n = 2 ^ k) := by
  cases hv with
  | int n =>
    refine ⟨_, _, rfl, rfl, ?_⟩
    rw [satisfiable_lit hdec hunsat hmodels, Operand.compareHost, beq_iff_eq, IntBits.and_sub_one_eq_zero_iff]
  | @word t x ht hx =>
    refine ⟨_, _, powerOfTwo_term ht.sort, Operand.asCondition_term.2 ⟨sort_powerTerm w t, rfl⟩, ?_⟩
    rw [satisfiable_iff hdec hunsat hmodels, satisfiable_closed (vars_powerTerm ht.closed),
      powerTerm_eval_iff_and ht.sort hx, and_wrap_pred_eq_zero_iff (ht.word_lt hx), natCast_zero_or_two_pow_iff]

/-! ## The power-of-two stage -/

section Stage

variable {cs : List (Term × Operand)}

open Classical in
/-- The power-of-two stage keeps, in order, the test of each `w`-bit key whose
value is tested as zero or a power of two. -/
theorem powerCandidates_eq_filter (hdec : check.Decides) (hunsat : check.RefutesSoundly)
    (hmodels : check.ModelsSoundly) (hkeys : ∀ p ∈ cs, p.1.sort = .bv w)
    (hvals : ∀ p ∈ cs, ∃ n, p.2.TestedAs w n) :
    powerCandidates check (Table.ofTerms cs) =
      .ok ((cs.filter fun p => decide (∃ n, p.2.TestedAs w n ∧ (n = 0 ∨ ∃ k : Nat, n = 2 ^ k))).map
        fun p => .term (powerTerm w p.1)) := by
  unfold powerCandidates
  rw [Table.entries_ofTerms, filterMapM_map]
  refine (@filterMapM_eq_ok _ _ _ _ (fun p : Term × Operand =>
    if ∃ n, p.2.TestedAs w n ∧ (n = 0 ∨ ∃ k : Nat, n = 2 ^ k) then some (Operand.term (powerTerm w p.1))
    else none) _ ?_).trans ?_
  · intro p hp
    obtain ⟨n, hn⟩ := hvals p hp
    obtain ⟨o, t, ho, ht, hsat⟩ := powerOfTwo_condition hdec hunsat hmodels hn
    have hpass : (∃ m, p.2.TestedAs w m ∧ (m = 0 ∨ ∃ k : Nat, m = 2 ^ k)) ↔ satisfiable check [t] = true := by
      rw [hsat]
      exact ⟨fun ⟨m, hm, hpow⟩ => hn.unique hm ▸ hpow, fun hpow => ⟨n, hn, hpow⟩⟩
    simp only [Function.comp_apply, ho, ht, ok_bind, powerOfTwo_term (hkeys p hp)]
    by_cases hs : satisfiable check [t] = true <;> simp [hs, hpass, pure, Except.pure]
  · rw [filterMap_ite]

open Classical in
/-- With keys all different, the test of a key is kept exactly when its own
value passes. -/
theorem mem_powerCandidates_iff (hnodup : (cs.map Prod.fst).Nodup) {c : Term} {v : Operand} {n : Int}
    (hcv : (c, v) ∈ cs) (hv : v.TestedAs w n) :
    Operand.term (powerTerm w c) ∈
        (cs.filter fun p => decide (∃ n, p.2.TestedAs w n ∧ (n = 0 ∨ ∃ k : Nat, n = 2 ^ k))).map
          (fun p => Operand.term (powerTerm w p.1)) ↔ n = 0 ∨ ∃ k : Nat, n = 2 ^ k := by
  simp only [List.mem_map, List.mem_filter, decide_eq_true_eq, Operand.term.injEq]
  constructor
  · rintro ⟨p, ⟨hp, m, hm, hpow⟩, hpc⟩
    have hkey : p.1 = c := by simpa [powerTerm] using hpc
    obtain rfl := List.inj_on_of_nodup_map hnodup hp hcv hkey
    exact hv.unique hm ▸ hpow
  · intro hpow
    exact ⟨(c, v), ⟨hcv, n, hv, hpow⟩, rfl⟩

/-- The power-of-two stage of the pool, value by value. The test of a
constant is proposed for a nonzero host integer exactly when the integer is a
power of two, of any size, and for a nonzero `w`-bit word exactly when the
word is `2 ^ i` with `i < w`; on a `w`-bit constant the test holds at a
nonzero word exactly when the word is such a power. -/
theorem powerCandidates_mem_iff_power (hdec : check.Decides) (hunsat : check.RefutesSoundly)
    (hmodels : check.ModelsSoundly) (hkeys : ∀ p ∈ cs, ∃ name, p.1 = .var name (.bv w))
    (hnodup : (cs.map Prod.fst).Nodup) (hvals : ∀ p ∈ cs, ∃ n, p.2.TestedAs w n) :
    ∃ ps, powerCandidates check (Table.ofTerms cs) = .ok ps ∧
      (∀ c n, (c, .int n) ∈ cs → n ≠ 0 → (.term (powerTerm w c) ∈ ps ↔ ∃ k : Nat, n = 2 ^ k)) ∧
      (∀ c t x, (c, .term t) ∈ cs → t.eval (fun _ _ => none) = .word w x → x ≠ 0 →
        (.term (powerTerm w c) ∈ ps ↔ ∃ i < w, x = 2 ^ i)) ∧
      ∀ p ∈ cs, ∀ ρ : Assignment, ρ.Sorted → ∀ x, p.1.eval ρ = .word w x → x ≠ 0 →
        ((powerTerm w p.1).eval ρ = .bool true ↔ ∃ i < w, x = 2 ^ i) := by
  have hsorts : ∀ p ∈ cs, p.1.sort = .bv w := fun p hp => by
    obtain ⟨name, hname⟩ := hkeys p hp
    rw [hname, Term.sort_var]
  classical
  refine ⟨_, powerCandidates_eq_filter hdec hunsat hmodels hsorts hvals, ?_, ?_, ?_⟩
  · intro c n hcn hn
    rw [mem_powerCandidates_iff hnodup hcn (.int n)]
    simp [hn]
  · intro c t x hct hx hx0
    obtain ⟨n, hn⟩ := hvals _ hct
    have ht : (Operand.term t).ClosedWord w t := by
      cases hn with
      | word ht _ => exact ht
    rw [mem_powerCandidates_iff hnodup hct (.word ht hx), natCast_zero_or_two_pow_iff,
      isPowerOfTwo_iff_lt (ht.word_lt hx)]
    simp [hx0]
  · intro p hp ρ hρ x hx hx0
    obtain ⟨name, hname⟩ := hkeys p hp
    have hlt : x < 2 ^ w := by
      have hsort := hρ.eval_var name (.bv w)
      rw [← hname, hx] at hsort
      exact hsort.2
    rw [powerTerm_eval_iff (hsorts p hp) hx hlt]
    simp [hx0]

end Stage

/-- A 4-bit `c1` positive at the host integer `17` and a 4-bit `c2` positive
at the word `8`. -/
theorem powers_of_int_and_word :
    (∀ p ∈ [(Term.var "c1" (.bv 4), Operand.int 17), (.var "c2" (.bv 4), .term (.word 4 8))],
      ∃ name, p.1 = .var name (.bv 4)) ∧
    ([(Term.var "c1" (.bv 4), Operand.int 17), (.var "c2" (.bv 4), .term (.word 4 8))].map Prod.fst).Nodup ∧
    (∀ p ∈ [(Term.var "c1" (.bv 4), Operand.int 17), (.var "c2" (.bv 4), .term (.word 4 8))],
      ∃ n, p.2.TestedAs 4 n) ∧
    ∃ ps, powerCandidates Checker.exact
        (Table.ofTerms [(.var "c1" (.bv 4), .int 17), (.var "c2" (.bv 4), .term (.word 4 8))]) = .ok ps ∧
      (∀ c n, (c, .int n) ∈ [(Term.var "c1" (.bv 4), Operand.int 17), (.var "c2" (.bv 4), .term (.word 4 8))] →
        n ≠ 0 → (.term (powerTerm 4 c) ∈ ps ↔ ∃ k : Nat, n = 2 ^ k)) ∧
      (∀ c t x, (c, .term t) ∈ [(Term.var "c1" (.bv 4), Operand.int 17), (.var "c2" (.bv 4), .term (.word 4 8))] →
        t.eval (fun _ _ => none) = .word 4 x → x ≠ 0 → (.term (powerTerm 4 c) ∈ ps ↔ ∃ i < 4, x = 2 ^ i)) ∧
      ∀ p ∈ [(Term.var "c1" (.bv 4), Operand.int 17), (.var "c2" (.bv 4), .term (.word 4 8))],
        ∀ ρ : Assignment, ρ.Sorted → ∀ x, p.1.eval ρ = .word 4 x → x ≠ 0 →
          ((powerTerm 4 p.1).eval ρ = .bool true ↔ ∃ i < 4, x = 2 ^ i) := by
  have hkeys : ∀ p ∈ [(Term.var "c1" (.bv 4), Operand.int 17), (.var "c2" (.bv 4), .term (.word 4 8))],
      ∃ name, p.1 = .var name (.bv 4) := by simp
  have hnodup : ([(Term.var "c1" (.bv 4), Operand.int 17), (.var "c2" (.bv 4), .term (.word 4 8))].map
      Prod.fst).Nodup := by simp
  have hvals : ∀ p ∈ [(Term.var "c1" (.bv 4), Operand.int 17), (.var "c2" (.bv 4), .term (.word 4 8))],
      ∃ n, p.2.TestedAs 4 n := by
    intro p hp
    simp only [List.mem_cons, List.not_mem_nil, or_false] at hp
    rcases hp with rfl | rfl
    · exact ⟨17, .int 17⟩
    · exact ⟨8, .word ⟨rfl, Term.sort_word 4 8, Term.vars_word 4 8, fun _ => by simp [Value.HasSort]⟩
        (Term.eval_word _ 4 8)⟩
  exact ⟨hkeys, hnodup, hvals, powerCandidates_mem_iff_power Checker.exact_decides Checker.exact_refutesSoundly
    Checker.exact_modelsSoundly hkeys hnodup hvals⟩

/-- A host integer is tested as it is, not modulo `2 ^ w`: at width `4` the
word of `17` is `1 = 2 ^ 0`, yet the pool of a constant positive at `17` is
empty. -/
theorem candidates_int_not_wrapped :
    Word.wrap 4 17 = 2 ^ 0 ∧
      candidates Checker.exact (Table.ofTerms [(.var "c1" (.bv 4), .int 17)]) [] 4 = .ok [] := by
  have htest : powerOfTwo (.int 17) = .ok (.bool false) := rfl
  have hsat := satisfiable_lit Checker.exact_decides Checker.exact_refutesSoundly Checker.exact_modelsSoundly false
  refine ⟨by decide, ?_⟩
  simp [candidates, placeholders, Sketch.ofOperands, Sketch.chains, Sketch.at?, Term.bvConst, TermSort.ofWidth,
    Term.bvVal, tuples, distinct, powerCandidates, htest, hsat, Table.size, Table.keys, Operand.asCondition,
    Operand.cast, bind, Except.bind, pure, Except.pure]

end Precondition
end SmtSynth
