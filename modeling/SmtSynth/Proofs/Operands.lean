import Mathlib
import SmtSynth.Proofs.Terms
import SmtSynth.Synth.Table
import SmtSynth.Solve.Model
import SmtSynth.Build.Source
/-!
# What the operand builders make

The synthesis procedures build their formulas through the host operator
protocol (`Operand.binary`, `Operand.unary`, `Operand.connective`) and
substitution. On the operands they use, terms of one bit-vector sort, host
integers and truth-valued terms, each builder makes one application, and the
lemmas here say which. Substitution succeeds exactly when every pair is two
terms of one sort, and then it is `Term.replace`.

On a table keyed by terms, inserting a term overwrites its entry or appends
one (`Table.keys_insert_term`, `Table.mem_insert_term`).
-/

namespace SmtSynth

theorem bind_eq_ok {ε α β : Type} {x : Except ε α} {f : α → Except ε β} {b : β} :
    x >>= f = .ok b ↔ ∃ a, x = .ok a ∧ f a = .ok b := by
  cases x <;> simp [bind, Except.bind]

theorem ok_bind {ε α β : Type} (a : α) (f : α → Except ε β) : (Except.ok a : Except ε α) >>= f = f a := rfl

/-- Each result of a successful `mapM` is the result of `f` on an element,
and each element has its result among them. -/
theorem mem_of_mapM {ε α β : Type} {f : α → Except ε β} :
    ∀ {xs : List α} {ys : List β}, xs.mapM f = .ok ys →
      (∀ y ∈ ys, ∃ x ∈ xs, f x = .ok y) ∧ ∀ x ∈ xs, ∃ y ∈ ys, f x = .ok y
  | [], ys, h => by
    simp only [List.mapM_nil, pure, Except.pure, Except.ok.injEq] at h
    subst h
    simp
  | x :: xs, ys, h => by
    rw [List.mapM_cons] at h
    obtain ⟨y, hy, h⟩ := bind_eq_ok.1 h
    obtain ⟨zs, hzs, h⟩ := bind_eq_ok.1 h
    simp only [pure, Except.pure, Except.ok.injEq] at h
    subst h
    obtain ⟨hback, hforth⟩ := mem_of_mapM hzs
    constructor
    · rintro z (_ | ⟨_, hz⟩)
      · exact ⟨x, List.mem_cons_self, hy⟩
      · obtain ⟨x', hx', hz⟩ := hback z hz
        exact ⟨x', List.mem_cons_of_mem _ hx', hz⟩
    · rintro x' (_ | ⟨_, hx'⟩)
      · exact ⟨y, List.mem_cons_self, hy⟩
      · obtain ⟨z, hz, hx'⟩ := hforth x' hx'
        exact ⟨z, List.mem_cons_of_mem _ hz, hx'⟩

theorem length_of_mapM {ε α β : Type} {f : α → Except ε β} :
    ∀ {xs : List α} {ys : List β}, xs.mapM f = .ok ys → ys.length = xs.length
  | [], ys, h => by
    simp only [List.mapM_nil, pure, Except.pure, Except.ok.injEq] at h
    subst h
    rfl
  | x :: xs, ys, h => by
    rw [List.mapM_cons] at h
    obtain ⟨y, -, h⟩ := bind_eq_ok.1 h
    obtain ⟨zs, hzs, h⟩ := bind_eq_ok.1 h
    simp only [pure, Except.pure, Except.ok.injEq] at h
    subst h
    simp [length_of_mapM hzs]

theorem mem_of_filterMapM {ε α β : Type} {f : α → Except ε (Option β)} :
    ∀ {xs : List α} {ys : List β}, xs.filterMapM f = .ok ys → ∀ y ∈ ys, ∃ x ∈ xs, f x = .ok (some y)
  | [], ys, h, y, hy => by
    simp only [List.filterMapM_nil, pure, Except.pure, Except.ok.injEq] at h
    subst h
    cases hy
  | x :: xs, ys, h, y, hy => by
    rw [List.filterMapM_cons] at h
    obtain ⟨o, ho, h⟩ := bind_eq_ok.1 h
    cases o with
    | none =>
      obtain ⟨x', hx', hf⟩ := mem_of_filterMapM h y hy
      exact ⟨x', List.mem_cons_of_mem _ hx', hf⟩
    | some b =>
      obtain ⟨zs, hzs, h⟩ := bind_eq_ok.1 h
      simp only [pure, Except.pure, Except.ok.injEq] at h
      subst h
      rcases List.mem_cons.1 hy with rfl | hy
      · exact ⟨x, List.mem_cons_self, ho⟩
      · obtain ⟨x', hx', hf⟩ := mem_of_filterMapM hzs y hy
        exact ⟨x', List.mem_cons_of_mem _ hx', hf⟩

/-- A `mapM` whose function succeeds on every element, each time with a
result related to the element, succeeds with results so related. -/
theorem mapM_ok_of_forall {ε α β : Type} {f : α → Except ε β} {P : α → β → Prop} :
    ∀ {xs : List α}, (∀ x ∈ xs, ∃ y, f x = .ok y ∧ P x y) →
      ∃ ys, xs.mapM f = .ok ys ∧ (∀ y ∈ ys, ∃ x ∈ xs, P x y) ∧ ∀ x ∈ xs, ∃ y ∈ ys, P x y
  | [], _ => ⟨[], rfl, by simp, by simp⟩
  | x :: xs, h => by
    obtain ⟨y, hy, hP⟩ := h x List.mem_cons_self
    obtain ⟨ys, hys, hback, hforth⟩ := mapM_ok_of_forall fun x' hx' => h x' (List.mem_cons_of_mem _ hx')
    refine ⟨y :: ys, by simp [List.mapM_cons, hy, hys, bind, Except.bind, pure, Except.pure], ?_, ?_⟩
    · rintro z (_ | ⟨_, hz⟩)
      · exact ⟨x, List.mem_cons_self, hP⟩
      · obtain ⟨x', hx', hz⟩ := hback z hz
        exact ⟨x', List.mem_cons_of_mem _ hx', hz⟩
    · rintro x' (_ | ⟨_, hx'⟩)
      · exact ⟨y, List.mem_cons_self, hP⟩
      · obtain ⟨z, hz, hx'⟩ := hforth x' hx'
        exact ⟨z, List.mem_cons_of_mem _ hz, hx'⟩

/-- A `filterMapM` whose function succeeds on every element gives the
`filterMap` of the results. -/
theorem filterMapM_eq_ok {ε α β : Type} {f : α → Except ε (Option β)} {g : α → Option β} :
    ∀ {xs : List α}, (∀ x ∈ xs, f x = .ok (g x)) → xs.filterMapM f = .ok (xs.filterMap g)
  | [], _ => rfl
  | x :: xs, h => by
    rw [List.filterMapM_cons, h x List.mem_cons_self,
      filterMapM_eq_ok fun y hy => h y (List.mem_cons_of_mem _ hy)]
    cases hg : g x <;> simp [hg, bind, Except.bind, pure, Except.pure]

/-- A `mapM` whose function succeeds on every element gives the `map` of
the results. -/
theorem mapM_eq_ok {ε α β : Type} {f : α → Except ε β} {g : α → β} :
    ∀ {xs : List α}, (∀ x ∈ xs, f x = .ok (g x)) → xs.mapM f = .ok (xs.map g)
  | [], _ => rfl
  | x :: xs, h => by
    rw [List.mapM_cons, h x List.mem_cons_self, mapM_eq_ok fun y hy => h y (List.mem_cons_of_mem _ hy)]
    rfl

theorem mapM_bind_eq_ok {ε α β γ : Type} {f : α → Except ε β} {g : α → β} {k : List β → Except ε γ}
    {xs : List α} (h : ∀ x ∈ xs, f x = .ok (g x)) : xs.mapM f >>= k = k (xs.map g) := by
  rw [mapM_eq_ok h]
  rfl

theorem filterMapM_map {ε α β γ : Type} (F : α → β) (g : β → Except ε (Option γ)) :
    ∀ xs : List α, (xs.map F).filterMapM g = xs.filterMapM (g ∘ F)
  | [] => rfl
  | x :: xs => by simp [List.filterMapM_cons, filterMapM_map F g xs]

/-- Keeping `f p` for the elements that pass a test is mapping `f` over the
elements kept. -/
theorem filterMap_ite {α β : Type} (P : α → Prop) [DecidablePred P] (f : α → β) :
    ∀ xs : List α, xs.filterMap (fun p => if P p then some (f p) else none) = (xs.filter fun p => P p).map f
  | [] => rfl
  | x :: xs => by by_cases hx : P x <;> simp [hx, filterMap_ite P f xs]

/-- Each result of a successful `flatMapM` comes from the results of `f` on
one element. -/
theorem mem_of_flatMapM {ε α β : Type} {f : α → Except ε (List β)} :
    ∀ {xs : List α} {ys : List β}, xs.flatMapM f = .ok ys → ∀ y ∈ ys, ∃ x ∈ xs, ∃ zs, f x = .ok zs ∧ y ∈ zs
  | [], ys, h, y, hy => by
    simp only [List.flatMapM_nil, pure, Except.pure, Except.ok.injEq] at h
    subst h
    cases hy
  | x :: xs, ys, h, y, hy => by
    rw [List.flatMapM_cons] at h
    obtain ⟨zs, hzs, h⟩ := bind_eq_ok.1 h
    obtain ⟨rest, hrest, h⟩ := bind_eq_ok.1 h
    simp only [pure, Except.pure, Except.ok.injEq] at h
    subst h
    rcases List.mem_append.1 hy with hy | hy
    · exact ⟨x, List.mem_cons_self, zs, hzs, hy⟩
    · obtain ⟨x', hx', hf⟩ := mem_of_flatMapM hrest y hy
      exact ⟨x', List.mem_cons_of_mem _ hx', hf⟩

/-! ## Named constants and numerals of a width -/

theorem ofWidth_eq_ok {w : Nat} {s : TermSort} (h : TermSort.ofWidth w = .ok s) : s = .bv w := by
  unfold TermSort.ofWidth at h
  split_ifs at h
  cases h
  simp

theorem bvConst_eq_ok {name : String} {w : Nat} {t : Term} (h : Term.bvConst name w = .ok t) :
    t = .var name (.bv w) := by
  obtain ⟨s, hs, ht⟩ := bind_eq_ok.1 h
  cases ht
  rw [ofWidth_eq_ok hs]

theorem bvVal_eq_ok {v : Int} {w : Nat} {t : Term} (h : Term.bvVal v w = .ok t) : t = Term.ofInt w v := by
  obtain ⟨s, hs, ht⟩ := bind_eq_ok.1 h
  cases ht
  rw [ofWidth_eq_ok hs]
  rfl

namespace Operand

theorem exists_eq_map_term {P : Term → Prop} :
    ∀ {cs : List Operand}, (∀ c ∈ cs, ∃ t, c = term t ∧ P t) → ∃ ts : List Term, cs = ts.map term ∧ ∀ t ∈ ts, P t
  | [], _ => ⟨[], rfl, by simp⟩
  | c :: cs, h => by
    obtain ⟨t, rfl, ht⟩ := h c List.mem_cons_self
    obtain ⟨ts, rfl, hts⟩ := exists_eq_map_term fun c hc => h c (List.mem_cons_of_mem _ hc)
    refine ⟨t :: ts, rfl, ?_⟩
    rintro u (_ | ⟨_, hu⟩)
    · exact ht
    · exact hts u hu

theorem asCondition_term {t r : Term} : (term t).asCondition = .ok r ↔ t.sort = .bool ∧ r = t := by
  simp only [asCondition, cast]
  split <;> simp_all [eq_comm]

theorem unary_not {a r : Operand} :
    unary .not a = .ok r ↔ ∃ t, a.asCondition = .ok t ∧ r = term (.app .not [t]) := by
  simp only [unary, bind_eq_ok, pure, Except.pure, Except.ok.injEq]
  exact exists_congr fun _ => and_congr_right fun _ => eq_comm

/-- A term of a bit-vector sort meets a host integer as the integer's numeral
of that sort. -/
theorem coerce_term_int {a : Term} {w : Nat} (ha : a.sort = .bv w) (n : Int) :
    coerce (term a) (int n) = .ok (a, Term.ofInt w n) := by
  simp [coerce, isTerm, merge, sort?, cast, ha, bind, Except.bind, pure, Except.pure]

theorem coerce_term_term {a b : Term} {w : Nat} (ha : a.sort = .bv w) (hb : b.sort = .bv w) :
    coerce (term a) (term b) = .ok (a, b) := by
  simp [coerce, isTerm, merge, sort?, cast, ha, hb, bind, Except.bind, pure, Except.pure]

/-- A term of a bit-vector sort with a host integer on the right: the symbol
of the operator applied to the term and the integer's numeral. -/
theorem binary_term_int (op : BinOp) {a : Term} {w : Nat} (ha : a.sort = .bv w) (n : Int) :
    binary op (term a) (int n) = .ok (term (.app op.fn [a, Term.ofInt w n])) := by
  have hw : (Term.ofInt w n).sort = .bv w := by simp [Term.ofInt]
  cases op <;>
    simp [binary, method, supports, isTerm, ha, coerce_term_int ha, arith, Term.mkWordOp, Term.mkEq,
      Term.mkDistinct, BinOp.fn, BinOp.isComparison, hw, bind, Except.bind, pure, Except.pure]

/-- Two terms of one bit-vector sort under an arithmetic or bitwise operator:
the operator's symbol applied to both. -/
theorem binary_term_term {op : BinOp} (hop : op.isComparison = false) {a b : Term} {w : Nat}
    (ha : a.sort = .bv w) (hb : b.sort = .bv w) :
    binary op (term a) (term b) = .ok (term (.app op.fn [a, b])) := by
  cases op <;> simp_all [binary, method, supports, isTerm, coerce_term_term ha hb, arith, Term.mkWordOp,
    BinOp.fn, BinOp.isComparison, bind, Except.bind, pure, Except.pure]

theorem connective_and_terms {ts : List Term} (hne : ts ≠ []) (h : ∀ t ∈ ts, t.sort = .bool) :
    connective .and (ts.map term) = .ok (term (.app .and ts)) := by
  obtain ⟨t, rest, rfl⟩ := List.exists_cons_of_ne_nil hne
  have hmerge : ∀ (l : List Term), (∀ u ∈ l, u.sort = .bool) →
      (l.map term).foldlM merge (some .bool) = .ok (some .bool) := by
    intro l hl
    induction l with
    | nil => rfl
    | cons u l ih =>
      simp only [List.map_cons, List.foldlM_cons, merge, sort?, hl u (by simp), ↓reduceIte]
      exact ih (fun v hv => hl v (by simp [hv]))
  have hcast : ∀ (l : List Term), (∀ u ∈ l, u.sort = .bool) → l.mapM (cast .bool ∘ term) = .ok l := by
    intro l hl
    induction l with
    | nil => rfl
    | cons u l ih =>
      rw [List.mapM_cons, ih (fun v hv => hl v (by simp [hv]))]
      simp [cast, hl u (by simp), bind, Except.bind, pure, Except.pure]
  have hmk : Term.mkConnective .and (t :: rest) = .ok (.app .and (t :: rest)) := by
    have hfind : ((t :: rest).zipIdx.find? fun p => p.1.sort != .bool) = Option.none := by
      rw [List.find?_eq_none]
      intro p hp
      have := h p.1 (List.fst_mem_of_mem_zipIdx hp)
      simp [this]
    simp only [Term.mkConnective, hfind]
  have hrest : ∀ u ∈ rest, u.sort = .bool := fun u hu => h u (by simp [hu])
  simp [connective, coerceAll, isTerm, List.foldlM_cons, merge, sort?, h t (by simp), hmerge rest hrest,
    cast, hcast rest hrest, hmk, bind, Except.bind, pure, Except.pure]

/-! ## Equations and steps against a value -/

theorem isBv_eq_true {s : TermSort} : s.isBv = true ↔ ∃ w, s = .bv w := by
  cases s <;> simp [TermSort.isBv]

/-- Only a numeral refines a term: a word numeral a term of bit-vector sort,
an integer numeral an integer term. -/
theorem refines_eq_true {b a : Term} (h : refines b a = true) :
    (∃ w v, b = .word w v ∧ ∃ w', a.sort = .bv w') ∨ (∃ n, b = .num n ∧ a.sort = .int) := by
  revert h
  unfold refines
  split <;> intro h <;> simp_all [isBv_eq_true]

theorem cast_term_self (a : Term) : (term a).cast a.sort = .ok a := by
  cases h : a.sort <;> simp [cast, h]

theorem supports_eq (s : TermSort) : supports s .eq = true := by
  cases s <;> rfl

@[simp] theorem merge_none_term (a : Term) : merge Option.none (term a) = .ok (some a.sort) := rfl

theorem merge_of_cast {s : TermSort} {b : Operand} {B : Term} (hb : b.cast s = .ok B) (hs : B.sort = s) :
    merge (some s) b = .ok (some s) := by
  cases b with
  | term T => cases s <;> cases hT : T.sort <;> simp_all [cast, merge, sort?, givesWay]
  | _ => simp [merge, sort?]

/-- A term meets an operand that reads at the term's sort as a term `B` of
that sort: both are brought to that sort, the term unchanged. -/
theorem coerce_of_cast {a B : Term} {b : Operand} (hb : b.cast a.sort = .ok B) (hs : B.sort = a.sort) :
    coerce (term a) b = .ok (a, B) := by
  simp [coerce, isTerm, merge_of_cast hb hs, cast_term_self, hb, bind, Except.bind, pure, Except.pure]

/-- An equation between a term and an operand that reads, at the term's
sort, as a term `B` of that sort: the equation of the two, one way round or
the other. -/
theorem binary_eq_of_cast {a B : Term} {b : Operand} (hb : b.cast a.sort = .ok B) (hs : B.sort = a.sort) :
    binary .eq (term a) b = .ok (term (.app .eq [a, B])) ∨
      binary .eq (term a) b = .ok (term (.app .eq [B, a])) := by
  have hmk : Term.mkEq a B = .ok (.app .eq [a, B]) := by simp [Term.mkEq, hs]
  cases b with
  | none => simp [cast] at hb
  | int n | bool x =>
    left
    simp [binary, isTerm, BinOp.isComparison, supports_eq, method, coerce_of_cast hb hs, hmk, bind,
      Except.bind, pure, Except.pure]
  | term T =>
    by_cases hr : refines T a = true
    · right
      have hTs : T.sort = a.sort ∧ B = T := by
        rcases refines_eq_true hr with ⟨w, v, rfl, w', ha⟩ | ⟨n, rfl, ha⟩ <;> simp_all [cast, Term.sort]
      obtain ⟨hTs, rfl⟩ := hTs
      have hc : coerce (term B) (term a) = .ok (B, a) := coerce_of_cast (hTs ▸ cast_term_self a) hTs.symm
      simp [binary, isTerm, BinOp.isComparison, BinOp.swapped, hr, supports_eq, method, hc, Term.mkEq, hTs,
        bind, Except.bind, pure, Except.pure]
    · left
      simp [binary, isTerm, BinOp.isComparison, BinOp.swapped, hr, supports_eq, method, coerce_of_cast hb hs,
        hmk, bind, Except.bind, pure, Except.pure]

/-- `val + x` or `val - x` for a `w`-bit term `x` and an operand that reads
as a `w`-bit term `V`: the operator's symbol applied to `V` and `x`. -/
theorem binary_step {op : BinOp} (hop : op = .add ∨ op = .sub) {x V : Term} {val : Operand} {w : Nat}
    (hx : x.sort = .bv w) (hval : val.cast (.bv w) = .ok V) (hV : V.sort = .bv w) :
    binary op val (term x) = .ok (term (.app op.fn [V, x])) := by
  have hmk : ∀ p, Term.mkWordOp op.fn p V x = .ok (.app op.fn [V, x]) := fun p => by
    simp [Term.mkWordOp, hx, hV]
  cases val with
  | none => simp [cast] at hval
  | int n | bool b =>
    have hc : coerce (term x) _ = .ok (x, V) := coerce_of_cast (hx ▸ hval) (hV.trans hx.symm)
    rcases hop with rfl | rfl <;>
      simp [binary, isTerm, BinOp.isComparison, supports, hx, hostInt?, method, hc, arith, hV, hmk, bind,
        Except.bind, pure, Except.pure]
  | term T =>
    have hT : T = V := by simpa [cast] using hval
    subst hT
    have hc : coerce (term T) (term x) = .ok (T, x) := coerce_of_cast (by rw [hV]; rfl) (hx.trans hV.symm)
    rcases hop with rfl | rfl <;>
      simp [binary, isTerm, BinOp.isComparison, supports, hV, method, hc, arith, hmk, bind, Except.bind, pure,
        Except.pure]

/-- A bit-vector term meets a term only of a bit-vector sort, and both are
kept as they are. -/
theorem coerce_of_word {a b A B : Term} {m : Nat} (hm : a.sort = .bv m ∨ b.sort = .bv m)
    (h : coerce (term a) (term b) = .ok (A, B)) : A = a ∧ B = b := by
  simp only [coerce, isTerm, Bool.true_or, ↓reduceIte, merge, sort?, bind, Except.bind, pure,
    Except.pure] at h
  rcases hm with hm | hm
  · cases hb : b.sort <;> simp only [hm, hb, givesWay] at h <;> split_ifs at h <;> simp_all [cast]
  · cases ha : a.sort <;> simp only [hm, ha, givesWay] at h <;> split_ifs at h <;> simp_all [cast]

theorem method_eq_term {a b : Term} {r : Operand} (h : method .eq a (term b) false = .ok r) :
    ∃ A B g, coerce (term a) (term b) = .ok (A, B) ∧ Term.mkEq A B = .ok g := by
  simp only [method] at h
  obtain ⟨⟨A, B⟩, hc, h⟩ := bind_eq_ok.1 h
  obtain ⟨g, hg, -⟩ := bind_eq_ok.1 h
  exact ⟨A, B, g, hc, hg⟩

theorem sort_of_eq_word {e : Term} {w v : Nat} {r : Operand}
    (h : binary .eq (term e) (term (.word w v)) = .ok r) : e.sort = .bv w := by
  simp only [binary, isTerm, BinOp.isComparison, BinOp.swapped, Bool.not_true, Bool.false_and,
    Bool.false_eq_true, ↓reduceIte, supports_eq, Bool.and_true] at h
  have hsame : ∀ a b : Term, (a = e ∧ b = .word w v ∨ a = .word w v ∧ b = e) →
      method .eq a (term b) false = .ok r → e.sort = .bv w := by
    intro a b hab hm
    obtain ⟨A, B, g, hc, hg⟩ := method_eq_term hm
    have hsort : A.sort = B.sort := by
      by_contra hne
      simp [Term.mkEq, hne] at hg
    rcases hab with ⟨rfl, rfl⟩ | ⟨rfl, rfl⟩
    · obtain ⟨rfl, rfl⟩ := coerce_of_word (.inr (Term.sort_word w v)) hc
      simpa using hsort
    · obtain ⟨rfl, rfl⟩ := coerce_of_word (.inl (Term.sort_word w v)) hc
      simpa using hsort.symm
  by_cases hr : refines (.word w v) e = true
  · rw [if_pos hr] at h
    exact hsame _ _ (.inr ⟨rfl, rfl⟩) h
  · rw [if_neg hr] at h
    exact hsame _ _ (.inl ⟨rfl, rfl⟩) h

theorem sort_of_eq_int {e : Term} {n : Int} {r : Operand} (h : binary .eq (term e) (int n) = .ok r) :
    e.sort ≠ .bool := by
  intro he
  simp [binary, isTerm, BinOp.isComparison, supports_eq, method, coerce, merge, sort?, cast, he, bind,
    Except.bind, pure, Except.pure] at h

theorem termPair_eq_ok {p : Operand × Operand} {q : Term × Term} :
    substitute.termPair p = .ok q ↔ p = (term q.1, term q.2) ∧ q.1.sort = q.2.sort := by
  obtain ⟨a, b⟩ := p
  obtain ⟨x, y⟩ := q
  cases a <;> cases b <;> simp [substitute.termPair]
  split <;> simp_all [eq_comm]

/-- Pairs of terms of one sort, given as operands, all pass as substitution
pairs. -/
theorem mapM_termPair_terms {qs : List (Term × Term)} (h : ∀ q ∈ qs, q.1.sort = q.2.sort) :
    (qs.map (Prod.map term term)).mapM substitute.termPair = .ok qs := by
  have hq : ∀ q ∈ qs, (substitute.termPair ∘ Prod.map term term) q = .ok (id q) :=
    fun q hq => termPair_eq_ok.2 ⟨rfl, h q hq⟩
  rw [List.mapM_map, mapM_eq_ok hq, List.map_id]

/-- Substitution succeeds on a term exactly when every pair is two terms of
one sort, and then replaces them all at once. -/
theorem substitute_eq_ok {t : Operand} {pairs : List (Operand × Operand)} {r : Term} :
    t.substitute pairs = .ok r ↔
      ∃ φ ps, t = term φ ∧ pairs.mapM substitute.termPair = .ok ps ∧ r = Term.replace ps φ := by
  cases t with
  | term φ =>
    simp only [substitute, bind_eq_ok, pure, Except.pure, Except.ok.injEq, term.injEq]
    constructor
    · rintro ⟨_, rfl, ps, hps, rfl⟩
      exact ⟨φ, ps, rfl, hps, rfl⟩
    · rintro ⟨_, ps, rfl, hps, rfl⟩
      exact ⟨φ, rfl, ps, hps, rfl⟩
  | _ => simp [substitute, bind, Except.bind, throw, throwThe, MonadExceptOf.throw]

/-- The pairs of a successful substitution are the pairs given, as two terms
of one sort each. -/
theorem pairs_of_substitute {pairs : List (Operand × Operand)} {ps : List (Term × Term)}
    (h : pairs.mapM substitute.termPair = .ok ps) :
    (∀ q ∈ ps, (term q.1, term q.2) ∈ pairs ∧ q.1.sort = q.2.sort) ∧
      ∀ p ∈ pairs, ∃ q ∈ ps, p = (term q.1, term q.2) := by
  obtain ⟨hback, hforth⟩ := mem_of_mapM h
  constructor
  · intro q hq
    obtain ⟨p, hp, hpq⟩ := hback q hq
    obtain ⟨rfl, hsort⟩ := termPair_eq_ok.1 hpq
    exact ⟨hp, hsort⟩
  · intro p hp
    obtain ⟨q, hq, hpq⟩ := hforth p hp
    exact ⟨q, hq, (termPair_eq_ok.1 hpq).1⟩

@[simp] theorem sameKey_term (a b : Term) : (term a).sameKey (term b) = (a == b) := rfl

@[simp] theorem sameKey_self (k : Operand) : k.sameKey k = true := by
  cases k <;> simp [sameKey, hostInt?]

theorem sameKey_term_iff {k : Operand} {x : Term} : k.sameKey (term x) = true ↔ k = term x := by
  cases k <;> simp [sameKey, hostInt?]

end Operand

/-! ## Models and tables -/

/-- A model read at an operand answers only for a term, and a term it
answers with is the value of a named constant it lists. -/
theorem Model.read_eq_ok {m : Model} {c o : Operand} (h : m.read c = .ok o) :
    ∃ x, c = .term x ∧ (o = .none ∨ ∃ n s v, x = .var n s ∧ m.get? x = some v ∧ o = .term v.toTerm) := by
  unfold Model.read at h
  split at h
  · rename_i n s
    refine ⟨_, rfl, ?_⟩
    cases hv : m.get? (.var n s) with
    | none => simp [hv] at h; exact .inl h.symm
    | some v => simp [hv] at h; exact .inr ⟨n, s, v, rfl, rfl, h.symm⟩
  all_goals first
    | (simp only [Except.ok.injEq] at h; exact ⟨_, rfl, .inl h.symm⟩)
    | cases h

namespace Table

@[simp] theorem keys_empty : ({} : Table).keys = [] := rfl

theorem keys_insert (t : Table) (k v : Operand) :
    (t.insert k v).keys = if t.keys.any (·.sameKey k) then t.keys else t.keys ++ [k] := by
  obtain ⟨es⟩ := t
  simp only [insert, keys]
  induction es with
  | nil => simp [insert.go]
  | cons e es ih =>
    simp only [insert.go]
    by_cases he : e.1.sameKey k = true
    · simp [he]
    · simp only [he, Bool.false_eq_true, ↓reduceIte, List.map_cons, ih, List.any_cons, Bool.false_or]
      by_cases hk : (es.map (·.1)).any (·.sameKey k) = true <;> simp [hk]

theorem mem_insert {t : Table} {k v : Operand} {p : Operand × Operand} (h : p ∈ (t.insert k v).entries) :
    p ∈ t.entries ∨ (p.1.sameKey k = true ∧ p.2 = v) := by
  obtain ⟨es⟩ := t
  simp only [insert] at h ⊢
  induction es with
  | nil => simp [insert.go] at h; exact .inr ⟨by simp [h], by simp [h]⟩
  | cons e es ih =>
    simp only [insert.go] at h
    split at h
    · rename_i he
      rcases List.mem_cons.1 h with rfl | h
      · exact .inr ⟨he, rfl⟩
      · exact .inl (List.mem_cons_of_mem _ h)
    · rcases List.mem_cons.1 h with rfl | h
      · exact .inl List.mem_cons_self
      · exact (ih h).imp (List.mem_cons_of_mem _) id

theorem contains_term {t : Table} {x : Term} : t.contains (.term x) = true ↔ .term x ∈ t.keys := by
  simp [contains, keys, Operand.sameKey_term_iff]

theorem keys_insert_term (t : Table) (x : Term) (v : Operand) :
    (t.insert (.term x) v).keys = if t.contains (.term x) then t.keys else t.keys ++ [.term x] := by
  rw [keys_insert]
  congr 1
  simp only [contains, keys, List.any_map, Function.comp_def]

theorem mem_insert_term {t : Table} {x : Term} {v : Operand} {p : Operand × Operand}
    (h : p ∈ (t.insert (.term x) v).entries) : p ∈ t.entries ∨ p = (.term x, v) := by
  rcases mem_insert h with h | ⟨hk, hv⟩
  · exact .inl h
  · exact .inr (Prod.ext (Operand.sameKey_term_iff.1 hk) hv)

end Table
end SmtSynth
