import Mathlib
import SmtSynth.Proofs.Precondition.Pool
import SmtSynth.Proofs.Words
/-!
# Sign patterns of the sketches

The sketches over `v₀ … vₖ` are the right-nested chains
`v₀ ∘₁ (v₁ ∘₂ (… ∘ₖ vₖ))` with each `∘` a sum or a difference, listed with
the outermost operator varying slowest and sums first (`sketchTerms_cons`).

A difference flips the sign of everything to its right, so the chain with
operators `o₁ … oₖ` is the signed sum `v₀ + ε₁ v₁ + … + εₖ vₖ` modulo
`2 ^ w`, where `εⱼ` is the product of the signs of `o₁ … oⱼ` (`signs`,
`eval_chain`). These prefix products take the `2 ^ k` operator sequences
one to one onto the sign vectors in `{1, -1} ^ k` (`nodup_map_signs`,
`mem_map_signs`). From width `2` on, `1` and `-1` are different words, so two
different sketches over different constants differ at some assignment
(`chain_separates`). The main statement is `ofOperands_sign_patterns`.
-/

namespace SmtSynth

/-- The sign an operator of a chain puts on what follows it. -/
def BinOp.sign : BinOp → Int
  | .sub => -1
  | _ => 1

theorem BinOp.sign_mul_self (o : BinOp) : o.sign * o.sign = 1 := by
  cases o <;> simp [BinOp.sign]

namespace Sketch

/-- The right-nested chain `v₀ ∘₁ (v₁ ∘₂ (… ∘ₖ vₖ))` of a first term and
operator–term pairs. -/
def chain : Term → List (BinOp × Term) → Term
  | v, [] => v
  | v, (o, u) :: rest => .app o.fn [v, chain u rest]

/-- The signs `ε₁ … εₖ` the operators `o₁ … oₖ` of a right-nested chain give
the terms after the first: each is the product of the signs of the operators
up to it. -/
def signs : List BinOp → List Int
  | [] => []
  | o :: os => o.sign :: (signs os).map (o.sign * ·)

/-- The operator sequences of the sketches over `k + 1` terms. -/
abbrev patterns (k : Nat) : List (List BinOp) := tuples [.add, .sub] k

/-! ## The sketches are the chains -/

theorem sketchTerms_cons (v : Term) (vs : List Term) :
    Precondition.sketchTerms (v :: vs) = (patterns vs.length).map fun os => chain v (os.zip vs) := by
  induction vs generalizing v with
  | nil => simp [Precondition.sketchTerms, tuples, chain]
  | cons u rest ih =>
    rw [Precondition.sketchTerms, ih u, List.length_cons]
    simp [patterns, tuples_pair_succ, Function.comp_def, chain, BinOp.fn]

/-- The sketches from position `i` on are the chains from the term there,
one per operator sequence. -/
theorem ofOperands_eq_chains {w : Nat} {vs : List Term} (hsorts : ∀ v ∈ vs, v.sort = .bv w) {i : Nat} {v : Term}
    {rest : List Term} (hsplit : vs.drop i = v :: rest) :
    ofOperands (vs.map .term) i = .ok ((patterns rest.length).map fun os => .term (chain v (os.zip rest))) := by
  have hi : i < vs.length := by
    have := congrArg List.length hsplit
    simp at this
    omega
  have h := Precondition.chains_eq hsorts (((vs.length : Int) - i).toNat + 1) i hi.le (by omega)
  rw [ofOperands, List.length_map, h, hsplit, sketchTerms_cons, List.map_map]
  rfl

/-! ## Signs -/

@[simp] theorem signs_add (os : List BinOp) : signs (.add :: os) = 1 :: signs os := by
  simp [signs, BinOp.sign]

@[simp] theorem signs_sub (os : List BinOp) : signs (.sub :: os) = -1 :: (signs os).map Neg.neg := by
  simp [signs, BinOp.sign]

theorem map_signs_succ (k : Nat) :
    (patterns (k + 1)).map signs =
      ((patterns k).map signs).map (1 :: ·) ++ ((patterns k).map signs).map fun e => -1 :: e.map Neg.neg := by
  simp [patterns, tuples_pair_succ, Function.comp_def]

/-- The sign vectors of the sketches are exactly the vectors of `1` and `-1`
of their length. -/
theorem mem_map_signs {k : Nat} {eps : List Int} :
    eps ∈ (patterns k).map signs ↔ eps.length = k ∧ ∀ e ∈ eps, e = 1 ∨ e = -1 := by
  induction k generalizing eps with
  | zero =>
    simp only [patterns, tuples, List.map_singleton, signs, List.mem_singleton, List.length_eq_zero_iff]
    constructor
    · rintro rfl
      simp
    · exact fun h => h.1
  | succ k ih =>
    rw [map_signs_succ, List.mem_append, List.mem_map, List.mem_map]
    constructor
    · rintro (⟨es, hes, rfl⟩ | ⟨es, hes, rfl⟩) <;> obtain ⟨hlen, hpm⟩ := ih.1 hes
      · exact ⟨by simp [hlen], by simpa using hpm⟩
      · refine ⟨by simp [hlen], fun e he => ?_⟩
        simp only [List.mem_cons, List.mem_map] at he
        rcases he with rfl | ⟨e', he', rfl⟩
        · simp
        · rcases hpm e' he' with rfl | rfl <;> simp
    · rintro ⟨hlen, hpm⟩
      obtain ⟨e, es, rfl⟩ := List.exists_cons_of_length_eq_add_one hlen
      rcases hpm e List.mem_cons_self with rfl | rfl
      · -- a leading sum keeps the signs after it
        exact .inl ⟨es, ih.2 ⟨by simpa using hlen, fun e he => hpm e (List.mem_cons_of_mem _ he)⟩, rfl⟩
      · -- a leading difference flips them
        refine .inr ⟨es.map Neg.neg, ih.2 ⟨by simpa using hlen, fun e he => ?_⟩, by simp⟩
        obtain ⟨e', he', rfl⟩ := List.mem_map.1 he
        rcases hpm e' (List.mem_cons_of_mem _ he') with rfl | rfl <;> simp

theorem nodup_map_signs (k : Nat) : ((patterns k).map signs).Nodup := by
  induction k with
  | zero => simp [patterns, tuples]
  | succ k ih =>
    rw [map_signs_succ]
    refine List.nodup_append.2 ⟨ih.map fun _ _ h => (List.cons.inj h).2,
      ih.map fun _ _ h => List.map_injective_iff.2 neg_injective (List.cons.inj h).2, ?_⟩
    · intro x hx y hy hxy
      obtain ⟨a, -, rfl⟩ := List.mem_map.1 hx
      obtain ⟨b, -, rfl⟩ := List.mem_map.1 hy
      simp at hxy

/-! ## The value of a chain -/

section Value

variable {w : Nat} {ρ : Assignment}

theorem eval_join_word {o : BinOp} (ho : o = .add ∨ o = .sub) {a b : Term} (ha : a.sort = .bv w) {x y : Nat}
    (hx : a.eval ρ = .word w x) (hy : b.eval ρ = .word w y) :
    (Term.app o.fn [a, b]).eval ρ = .word w (Word.wrap w (x + o.sign * y)) := by
  rw [Term.eval_app]
  rcases ho with rfl | rfl <;>
    simp [Term.evalSort, BinOp.fn, BinOp.sign, ha, hx, hy, Term.apply, Term.wordBinary, Value.asNat, sub_eq_add_neg]

theorem eval_word_var (hρ : ρ.Sorted) (n : String) : ∃ x, x < 2 ^ w ∧ (Term.var n (.bv w)).eval ρ = .word w x :=
  (hρ.eval_var n (.bv w)).eq_word

theorem sum_zipWith_map_mul (s : Int) (eps xs : List Int) :
    (List.zipWith (· * ·) (eps.map (s * ·)) xs).sum = s * (List.zipWith (· * ·) eps xs).sum := by
  induction eps generalizing xs with
  | nil => simp
  | cons e eps ih =>
    cases xs with
    | nil => simp
    | cons x xs => simp [ih, mul_add, mul_assoc]

/-- A chain of `w`-bit constants is the signed sum of their values modulo
`2 ^ w`, each later constant with the sign its operators give it. -/
theorem eval_chain (hρ : ρ.Sorted) : ∀ (v : Term) (vs : List Term) (os : List BinOp),
    (∀ u ∈ v :: vs, ∃ n, u = .var n (.bv w)) → (∀ o ∈ os, o = .add ∨ o = .sub) → os.length = vs.length →
    (chain v (os.zip vs)).eval ρ =
      .word w (Word.wrap w ((v.eval ρ).asInt +
        (List.zipWith (· * ·) (signs os) (vs.map fun u => (u.eval ρ).asInt)).sum)) := by
  intro v vs
  induction vs generalizing v with
  | nil =>
    intro os hvars _ hlen
    obtain rfl : os = [] := List.eq_nil_of_length_eq_zero hlen
    obtain ⟨n, rfl⟩ := hvars v List.mem_cons_self
    obtain ⟨x, hx, hv⟩ : ∃ x, x < 2 ^ w ∧ (Term.var n (.bv w)).eval ρ = .word w x := eval_word_var hρ n
    simp [chain, hv, Value.asInt, Word.wrap_of_lt hx]
  | cons u rest ih =>
    intro os hvars hops hlen
    obtain ⟨o, r, rfl⟩ := List.exists_cons_of_length_eq_add_one hlen
    obtain ⟨n, rfl⟩ := hvars v List.mem_cons_self
    obtain ⟨x, -, hv⟩ : ∃ x, x < 2 ^ w ∧ (Term.var n (.bv w)).eval ρ = .word w x := eval_word_var hρ n
    have hrest := ih u r (fun t ht => hvars t (List.mem_cons_of_mem _ ht))
      (fun o' ho' => hops o' (List.mem_cons_of_mem _ ho')) (by simpa using hlen)
    rw [List.zip_cons_cons, chain, eval_join_word (hops o List.mem_cons_self) (Term.sort_var _ _) hv hrest,
      Word.wrap_add_mul_wrap]
    simp only [hv, Value.asInt, signs, List.map_cons, List.zipWith_cons_cons, List.sum_cons,
      sum_zipWith_map_mul]
    congr 2
    ring

end Value

/-! ## Different sketches differ -/

section Separation

variable {w : Nat}

theorem sum_zipWith_zeros (eps xs : List Int) (hxs : ∀ x ∈ xs, x = 0) :
    (List.zipWith (· * ·) eps xs).sum = 0 := by
  induction eps generalizing xs with
  | nil => simp
  | cons e eps ih =>
    cases xs with
    | nil => simp
    | cons x xs =>
      simp only [List.forall_mem_cons] at hxs
      simp [hxs.1, ih xs hxs.2]

/-- Each operator sequence of the sketches is a sum or a difference in front
of a sequence one shorter. -/
theorem mem_patterns_succ {k : Nat} {p : List BinOp} (hp : p ∈ patterns (k + 1)) :
    ∃ o r, p = o :: r ∧ (o = .add ∨ o = .sub) ∧ r ∈ patterns k := by
  simp only [patterns, tuples_pair_succ, List.mem_append, List.mem_map] at hp
  rcases hp with ⟨r, hr, rfl⟩ | ⟨r, hr, rfl⟩
  · exact ⟨_, r, rfl, .inl rfl, hr⟩
  · exact ⟨_, r, rfl, .inr rfl, hr⟩

theorem ops_of_mem_patterns {k : Nat} {p : List BinOp} (hp : p ∈ patterns k) :
    (∀ o ∈ p, o = .add ∨ o = .sub) ∧ p.length = k := by
  obtain ⟨hlen, hmem⟩ := mem_tuples hp
  exact ⟨fun o ho => by simpa using hmem o ho, hlen⟩

/-- Where the constant after the first operator is `1` and every other
constant is `0`, a chain of different constants comes to the sign of its
first operator. -/
theorem eval_chain_indicator (hw : 1 ≤ w) {n nu : String} {rest : List Term} {q : BinOp} {t : List BinOp}
    (hvars : ∀ u ∈ Term.var n (.bv w) :: .var nu (.bv w) :: rest, ∃ m, u = .var m (.bv w))
    (hnd : (Term.var n (.bv w) :: .var nu (.bv w) :: rest).Nodup) (hp : q :: t ∈ patterns (rest.length + 1)) :
    (chain (.var n (.bv w)) ((q :: t).zip (.var nu (.bv w) :: rest))).eval
        (Assignment.replace (fun _ _ => none) [(.var nu (.bv w), .word w 1)]) = .word w (Word.wrap w q.sign) := by
  have hzero : ∀ u ∈ Term.var n (.bv w) :: rest,
      (u.eval (Assignment.replace (fun _ _ => none) [(.var nu (.bv w), .word w 1)])).asInt = 0 := by
    intro u hu
    obtain ⟨m, rfl⟩ := hvars u (by simp at hu ⊢; tauto)
    have hne : Term.var m (.bv w) ≠ .var nu (.bv w) := by
      rintro heq
      rw [heq] at hu
      simp only [List.nodup_cons, List.mem_cons, not_or] at hnd
      rcases List.mem_cons.1 hu with h | h
      · exact hnd.1.1 h.symm
      · exact hnd.2.1 h
    rw [Term.eval_var, Assignment.replace_other _ _ hne]
    simp [Value.default, Value.asInt]
  have hu : ((Term.var nu (.bv w)).eval
      (Assignment.replace (fun _ _ => none) [(.var nu (.bv w), .word w 1)])).asInt = 1 := by
    rw [Assignment.eval_replace_self, Term.eval_word]
    rfl
  have hrest : ∀ x ∈ rest.map fun u => (u.eval
      (Assignment.replace (fun _ _ => none) [(.var nu (.bv w), .word w 1)])).asInt, x = 0 := by
    intro x hx
    obtain ⟨u, hu', rfl⟩ := List.mem_map.1 hx
    exact hzero u (List.mem_cons_of_mem _ hu')
  rw [eval_chain (Assignment.sorted_none.replace_word nu (Nat.one_lt_two_pow (by omega))) _ _ _ hvars
    (ops_of_mem_patterns hp).1 (ops_of_mem_patterns hp).2]
  simp only [List.map_cons, signs, List.zipWith_cons_cons, List.sum_cons, hzero _ List.mem_cons_self, hu,
    sum_zipWith_zeros _ _ hrest]
  simp

/-- From width `2` on, two chains of different constants with different
operators take different values under some well-sorted assignment: where the
operators first differ, set the constant after them to `1` and all others to
`0`, and the two chains end in `1` and `-1`. -/
theorem chain_separates (hw : 2 ≤ w) : ∀ (v : Term) (vs : List Term) (os os' : List BinOp),
    (∀ u ∈ v :: vs, ∃ n, u = .var n (.bv w)) → (v :: vs).Nodup →
    os ∈ patterns vs.length → os' ∈ patterns vs.length → os ≠ os' →
    ∃ ρ : Assignment, ρ.Sorted ∧ (chain v (os.zip vs)).eval ρ ≠ (chain v (os'.zip vs)).eval ρ := by
  intro v vs
  induction vs generalizing v with
  | nil =>
    intro os os' _ _ hos hos' hne
    simp only [patterns, tuples, List.length_nil, List.mem_singleton] at hos hos'
    exact absurd (hos.trans hos'.symm) hne
  | cons u rest ih =>
    intro os os' hvars hnd hos hos' hne
    obtain ⟨o, r, rfl, ho, hr⟩ := mem_patterns_succ hos
    obtain ⟨o', r', rfl, ho', hr'⟩ := mem_patterns_succ hos'
    have hvars' : ∀ t ∈ u :: rest, ∃ n, t = .var n (.bv w) := fun t ht => hvars t (List.mem_cons_of_mem _ ht)
    obtain ⟨n, rfl⟩ := hvars v List.mem_cons_self
    obtain ⟨nu, rfl⟩ := hvars' u List.mem_cons_self
    by_cases hoo : o = o'
    · subst hoo
      obtain ⟨ρ, hρ, hdiff⟩ := ih _ r r' hvars' hnd.of_cons hr hr' (fun h => hne (by rw [h]))
      refine ⟨ρ, hρ, ?_⟩
      have hA := eval_chain hρ _ rest r hvars' (ops_of_mem_patterns hr).1 (ops_of_mem_patterns hr).2
      have hB := eval_chain hρ _ rest r' hvars' (ops_of_mem_patterns hr').1 (ops_of_mem_patterns hr').2
      obtain ⟨x, -, hx⟩ : ∃ x, x < 2 ^ w ∧ (Term.var n (.bv w)).eval ρ = .word w x := eval_word_var hρ n
      rw [List.zip_cons_cons, List.zip_cons_cons, chain, chain, eval_join_word ho (Term.sort_var _ _) hx hA,
        eval_join_word ho (Term.sort_var _ _) hx hB]
      intro heq
      apply hdiff
      rw [hA, hB, Word.wrap_add_mul_injective o.sign_mul_self (Word.wrap_lt _) (Word.wrap_lt _)
        (Value.word.inj heq).2]
    · refine ⟨Assignment.replace (fun _ _ => none) [(.var nu (.bv w), .word w 1)],
        Assignment.sorted_none.replace_word nu (Nat.one_lt_two_pow (by omega)), ?_⟩
      rw [eval_chain_indicator (by omega) hvars hnd hos, eval_chain_indicator (by omega) hvars hnd hos']
      intro heq
      have hne1 : Word.wrap w 1 ≠ Word.wrap w (-1) := by
        rw [Word.wrap_neg_one, Word.wrap_one (by omega)]
        have : 4 ≤ 2 ^ w := by
          calc 4 = 2 ^ 2 := by norm_num
            _ ≤ 2 ^ w := Nat.pow_le_pow_right (by norm_num) hw
        omega
      rcases ho with rfl | rfl <;> rcases ho' with rfl | rfl
      · exact hoo rfl
      · exact hne1 (by simpa [BinOp.sign] using heq)
      · exact hne1 (by simpa [BinOp.sign] using heq.symm)
      · exact hoo rfl

end Separation

/-! ## The sketches from a position on -/

/-- The sketches over different `w`-bit constants from a position `i` that
holds `v`, followed by `rest`: there are `2 ^ k` of them for the `k`
constants of `rest`, the chains from `v` with the operator sequences in
order, outermost first and sums first. Each is, modulo `2 ^ w`, the sum of
`v` and the constants of `rest` with the signs its operators give them; these
sign vectors are the vectors of `1` and `-1` of length `k`, each once; and
from width `2` on, no two sketches take the same value everywhere. -/
theorem ofOperands_sign_patterns {w : Nat} (hw : 2 ≤ w) {vs : List Term} (hvars : ∀ v ∈ vs, ∃ n, v = .var n (.bv w))
    (hnodup : vs.Nodup) {i : Nat} {v : Term} {rest : List Term} (hsplit : vs.drop i = v :: rest) :
    ∃ sks, ofOperands (vs.map .term) i = .ok sks ∧ sks.length = 2 ^ rest.length ∧
      sks = (patterns rest.length).map (fun os => .term (chain v (os.zip rest))) ∧
      (∀ os ∈ patterns rest.length, ∀ ρ : Assignment, ρ.Sorted →
        (chain v (os.zip rest)).eval ρ = .word w (Word.wrap w ((v.eval ρ).asInt +
          (List.zipWith (· * ·) (signs os) (rest.map fun u => (u.eval ρ).asInt)).sum))) ∧
      ((patterns rest.length).map signs).Nodup ∧
      (∀ eps, eps ∈ (patterns rest.length).map signs ↔ eps.length = rest.length ∧ ∀ e ∈ eps, e = 1 ∨ e = -1) ∧
      (∀ os ∈ patterns rest.length, ∀ os' ∈ patterns rest.length, os ≠ os' →
        ∃ ρ : Assignment, ρ.Sorted ∧ (chain v (os.zip rest)).eval ρ ≠ (chain v (os'.zip rest)).eval ρ) := by
  have hsub : ∀ u ∈ v :: rest, u ∈ vs := fun u hu => List.mem_of_mem_drop (by rw [hsplit]; exact hu)
  have hvars' : ∀ u ∈ v :: rest, ∃ n, u = .var n (.bv w) := fun u hu => hvars u (hsub u hu)
  have hnodup' : (v :: rest).Nodup := hsplit ▸ hnodup.sublist (List.drop_sublist i vs)
  have hsorts : ∀ u ∈ vs, u.sort = .bv w := by
    intro u hu
    obtain ⟨n, rfl⟩ := hvars u hu
    exact Term.sort_var n _
  refine ⟨_, ofOperands_eq_chains hsorts hsplit, by simp [length_tuples], rfl, ?_, nodup_map_signs _,
    fun eps => mem_map_signs, fun os hos os' hos' hne => chain_separates hw v rest os os' hvars' hnodup' hos hos' hne⟩
  intro os hos ρ hρ
  exact eval_chain hρ v rest os hvars' (ops_of_mem_patterns hos).1 (ops_of_mem_patterns hos).2

/-- Three 2-bit constants have the four sketches `a ± (b ± c)`. -/
theorem sign_patterns_of_three_constants :
    2 ≤ 2 ∧ (∀ v ∈ [Term.var "a" (.bv 2), .var "b" (.bv 2), .var "c" (.bv 2)], ∃ n, v = .var n (.bv 2)) ∧
      [Term.var "a" (.bv 2), .var "b" (.bv 2), .var "c" (.bv 2)].Nodup ∧
      [Term.var "a" (.bv 2), .var "b" (.bv 2), .var "c" (.bv 2)].drop 0 =
        .var "a" (.bv 2) :: [.var "b" (.bv 2), .var "c" (.bv 2)] ∧
      ∃ sks, ofOperands ([Term.var "a" (.bv 2), .var "b" (.bv 2), .var "c" (.bv 2)].map .term) ((0 : Nat) : Int) =
          .ok sks ∧ sks.length = 2 ^ [Term.var "b" (.bv 2), .var "c" (.bv 2)].length ∧
        sks = (patterns 2).map (fun os => .term (chain (.var "a" (.bv 2))
          (os.zip [.var "b" (.bv 2), .var "c" (.bv 2)]))) ∧
        (∀ os ∈ patterns 2, ∀ ρ : Assignment, ρ.Sorted →
          (chain (.var "a" (.bv 2)) (os.zip [.var "b" (.bv 2), .var "c" (.bv 2)])).eval ρ =
            .word 2 (Word.wrap 2 (((Term.var "a" (.bv 2)).eval ρ).asInt + (List.zipWith (· * ·) (signs os)
              ([Term.var "b" (.bv 2), .var "c" (.bv 2)].map fun u => (u.eval ρ).asInt)).sum))) ∧
        ((patterns 2).map signs).Nodup ∧
        (∀ eps, eps ∈ (patterns 2).map signs ↔ eps.length = 2 ∧ ∀ e ∈ eps, e = 1 ∨ e = -1) ∧
        (∀ os ∈ patterns 2, ∀ os' ∈ patterns 2, os ≠ os' →
          ∃ ρ : Assignment, ρ.Sorted ∧ (chain (.var "a" (.bv 2)) (os.zip [.var "b" (.bv 2), .var "c" (.bv 2)])).eval ρ ≠
            (chain (.var "a" (.bv 2)) (os'.zip [.var "b" (.bv 2), .var "c" (.bv 2)])).eval ρ) := by
  have hvars : ∀ v ∈ [Term.var "a" (.bv 2), .var "b" (.bv 2), .var "c" (.bv 2)], ∃ n, v = .var n (.bv 2) := by
    simp
  have hnodup : [Term.var "a" (.bv 2), .var "b" (.bv 2), .var "c" (.bv 2)].Nodup := by simp
  exact ⟨le_rfl, hvars, hnodup, rfl, ofOperands_sign_patterns le_rfl hvars hnodup rfl⟩

end Sketch
end SmtSynth
