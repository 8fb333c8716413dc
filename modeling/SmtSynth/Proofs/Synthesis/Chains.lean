import Mathlib
import SmtSynth.Synth.Induct
import SmtSynth.Proofs.Synthesis.Enumeration
/-!
# Inductive synthesis

An answer of inductive synthesis at depth `d` is a chain
`c₁ op₁ (c₂ op₂ (… (cₖ opₖ L)))` of `k < d` named constants, each joined by
`+` or `-`, that ends in a leaf `L`, what is left of the target: a constant
whose value it is, above the last level, or an answer of enumerative
synthesis for it, at the last. With every constant at its value, the chain
takes the value of the target read at the chain's sort; for a chain of
`w`-bit arithmetic that is the target modulo `2 ^ w`
(`inductiveSynthesisWith_chains`).

The one-step equations are solved soundly (`solveEqWith_sound`), and the
printed answer puts the rest of a chain in parentheses unless it is a single
constant (`join_chainFound`). At depth `1` an answer is a leaf of the
sketch's own sort, so a sketch narrower than the target's width meets the
target only at its own width (`induct_narrow_sketch`).
-/

namespace SmtSynth

/-! ## Word values -/

/-- A closed `w`-bit value as inductive synthesis takes a constant's value or
a target: a host integer, read modulo `2 ^ w`, or a `w`-bit numeral. -/
inductive Operand.IsWordValue (w : Nat) : Operand → Prop
  | int (n : Int) : IsWordValue w (.int n)
  | word {v : Nat} (hv : v < 2 ^ w) : IsWordValue w (.term (.word w v))

namespace Operand.IsWordValue

variable {w : Nat} {a b : Operand}

theorem exists_word (h : a.IsWordValue w) : ∃ v, v < 2 ^ w ∧ a.cast (.bv w) = .ok (.word w v) := by
  cases h with
  | int n => exact ⟨Word.wrap w n, Word.wrap_lt n, rfl⟩
  | word hv => exact ⟨_, hv, rfl⟩

theorem closedWord (h : a.IsWordValue w) : ∃ v, v < 2 ^ w ∧ a.ClosedWord w (.word w v) := by
  obtain ⟨v, hv, hcast⟩ := h.exists_word
  exact ⟨v, hv, hcast, Term.sort_word w v, Term.vars_word w v, fun _ => by simp [Value.HasSort, hv]⟩

theorem cast_eq_of_holdsEq (ha : a.IsWordValue w) (hb : b.IsWordValue w) (h : holdsEq a b = .ok true) :
    a.cast (.bv w) = b.cast (.bv w) := by
  cases ha with
  | int n =>
    cases hb with
    | int m =>
      simp [holdsEq, binary, isTerm, host, hostInt?, compareHost, bind, Except.bind, pure, Except.pure] at h
      rw [h]
    | @word v hv =>
      have hc : coerce (term (.word w v)) (.int n) = .ok (.word w v, Term.ofInt w n) :=
        coerce_of_cast (by rw [Term.sort_word]; rfl) (by simp [Term.ofInt, Term.sort_word])
      simp [holdsEq, binary, isTerm, BinOp.isComparison, method, hc, Term.mkEq, Term.ofInt, Term.sort_word, bind,
        Except.bind, pure, Except.pure] at h
      simp [cast, Term.ofInt, h]
  | @word v hv =>
    obtain ⟨v', -, hB⟩ := hb.exists_word
    rcases binary_eq_of_cast (a := .word w v) (by rw [Term.sort_word]; exact hB)
        (by rw [Term.sort_word, Term.sort_word]) with hr | hr <;>
      simp [holdsEq, hr, bind, Except.bind, pure, Except.pure] at h <;> rw [hB] <;> simp [cast, h]

theorem holdsEq_none (h : a.IsWordValue w) : holdsEq a .none = .ok false := by
  cases h <;> simp [holdsEq, binary, isTerm, host, BinOp.isComparison, supports_eq, method, bind, Except.bind,
    pure, Except.pure]

/-- The equation of a term with a word value, as the solver is given it,
holds exactly when the term has the value read at the term's own sort. -/
theorem eq_condition_of_ok (h : b.IsWordValue w) {e g : Term} {r : Operand}
    (hr : binary .eq (.term e) b = .ok r) (hg : r.asCondition = .ok g) :
    ∃ B, b.cast e.sort = .ok B ∧ ∀ ρ, g.eval ρ = .bool true ↔ e.eval ρ = B.eval ρ := by
  have hB : ∃ B, b.cast e.sort = .ok B ∧ B.sort = e.sort := by
    cases h with
    | int n =>
      have hne := sort_of_eq_int hr
      cases hs : e.sort with
      | bv w' => exact ⟨_, rfl, by simp [Term.ofInt, Term.sort_word]⟩
      | int => exact ⟨_, rfl, by simp [Term.sort]⟩
      | bool => exact absurd hs hne
    | word hv =>
      rw [sort_of_eq_word hr]
      exact ⟨_, rfl, Term.sort_word _ _⟩
  obtain ⟨B, hcast, hsort⟩ := hB
  obtain ⟨t, ht, htb, hiff⟩ := eq_condition hcast hsort
  rw [ht] at hr
  cases hr
  rw [asCondition_term.2 ⟨htb, rfl⟩] at hg
  cases hg
  exact ⟨B, hcast, hiff⟩

end Operand.IsWordValue

/-- A table of distinct named `w`-bit constants whose values are word values. -/
structure NumeralTable (w : Nat) (cs : List (Term × Operand)) : Prop where
  keys : ∀ p ∈ cs, ∃ n, p.1 = .var n (.bv w)
  values : ∀ p ∈ cs, p.2.IsWordValue w
  nodup : (cs.map Prod.fst).Nodup

theorem NumeralTable.toWordTable {w : Nat} {cs : List (Term × Operand)} (h : NumeralTable w cs) :
    WordTable w cs where
  keys := h.keys
  values p hp := by
    obtain ⟨v, -, hv⟩ := (h.values p hp).closedWord
    exact ⟨_, hv⟩
  nodup := h.nodup

/-- A simplifier that keeps every term's sort and, under every well-sorted
assignment, its value. -/
def KeepsMeaning (simp : Term → Term) : Prop :=
  ∀ t, (simp t).sort = t.sort ∧ ∀ ρ : Assignment, ρ.Sorted → (simp t).eval ρ = t.eval ρ

theorem keepsMeaning_id : KeepsMeaning id := fun _ => ⟨rfl, fun _ _ => rfl⟩

theorem Operand.cast_word_eq {w v : Nat} {s : TermSort} {X : Term} (h : (Operand.term (.word w v)).cast s = .ok X) :
    X = .word w v := by
  cases s <;> simp [Operand.cast, Term.sort_word] at h
  exact h.symm

/-- An answer of enumerative synthesis for a word value, with right models
and a simplifier that keeps meaning, takes the value, read at the answer's
own sort, under an assignment that gives every constant its value. -/
theorem leaf_of_mem_enumerateWith {check : Checker} (hmodels : check.ModelsSoundly) {simp : Term → Term}
    (hsimp : KeepsMeaning simp) {w : Nat} {cs : List (Term × Operand)} (hcs : WordTable w cs)
    {sketch rest : Operand} {inputs : List Operand} (hrest : rest.IsWordValue w) {w' : Int} {ls : List Term}
    (h : enumerateWith check simp sketch inputs (Table.ofTerms cs) rest w' = .ok ls) {L : Term} (hL : L ∈ ls) :
    ∃ ρ : Assignment, ρ.Sorted ∧ (∀ q ∈ cs, ∀ V, q.2.ClosedWord w V → q.1.eval ρ = V.eval ρ) ∧
      ∃ R, rest.cast L.sort = .ok R ∧ L.eval ρ = R.eval ρ := by
  obtain ⟨e, rfl, he⟩ := mem_enumerateWith h hL
  obtain ⟨ρ, hρ, hkeys, r, g, hr, hg, htrue⟩ := admits_sound hmodels hcs he
  obtain ⟨R, hR, hiff⟩ := hrest.eq_condition_of_ok hr hg
  obtain ⟨hsort, hval⟩ := hsimp e
  refine ⟨ρ, hρ, hkeys, R, by rw [hsort]; exact hR, ?_⟩
  rw [hval ρ hρ]
  exact (hiff ρ).1 htrue

/-! ## Joins -/

section Joins

variable {o : BinOp}

theorem stepOp?_eq_some {op : String} (h : stepOp? op = some o) : (o = .add ∨ o = .sub) ∧ o.symbol = op := by
  unfold stepOp? at h
  split at h <;> cases h <;> simp [BinOp.symbol]

theorem sort_join (ho : o = .add ∨ o = .sub) (a b : Term) : (Term.app o.fn [a, b]).sort = a.sort := by
  rw [Term.sort_app]
  rcases ho with rfl | rfl <;> simp [Term.appSort, BinOp.fn, Fn.isPredicate]

/-- A join's value is fixed by the sort of its first term and the values of
both. -/
theorem eval_join (ho : o = .add ∨ o = .sub) {ρ ρ' : Assignment} {a b a' b' : Term} (hs : a.sort = a'.sort)
    (ha : a.eval ρ = a'.eval ρ') (hb : b.eval ρ = b'.eval ρ') :
    (Term.app o.fn [a, b]).eval ρ = (Term.app o.fn [a', b']).eval ρ' := by
  rw [Term.eval_app, Term.eval_app]
  rcases ho with rfl | rfl <;> simp [Term.evalSort, BinOp.fn, hs, ha, hb]

end Joins

/-- A one-step equation `val op x = target` between `w`-bit values, solved
with right models, gives `x` as a `w`-bit numeral that makes the step reach
the target, unless the answer is the host's `None`. -/
theorem solveEqWith_sound {check : Checker} (hmodels : check.ModelsSoundly) {w : Nat} {op : String}
    {val target x : Operand} {V T : Term} (hV : val.ClosedWord w V) (hT : target.ClosedWord w T)
    (h : solveEqWith check op val target w = .ok x) (hx : x ≠ .none) :
    ∃ o m, stepOp? op = some o ∧ x = .term (.word w m) ∧ m < 2 ^ w ∧
      ∀ ρ, (Term.app o.fn [V, .word w m]).eval ρ = T.eval ρ := by
  unfold solveEqWith at h
  obtain ⟨xv, hxv, h⟩ := bind_eq_ok.1 h
  rw [bvConst_eq_ok hxv] at h
  cases hop : stepOp? op with
  | none => simp [hop, throw, throwThe, MonadExceptOf.throw, bind, Except.bind] at h
  | some o =>
    obtain ⟨hoas, -⟩ := stepOp?_eq_some hop
    simp only [hop] at h
    obtain ⟨lhs, hl, h⟩ := bind_eq_ok.1 h
    rw [Operand.binary_step hoas (Term.sort_var "x" (.bv w)) hV.cast hV.sort] at hl
    cases hl
    have hes : (Term.app o.fn [V, .var "x" (.bv w)]).sort = .bv w := by rw [sort_join hoas, hV.sort]
    obtain ⟨t, ht, htb, hiff⟩ := eq_condition (hes ▸ hT.cast) (hT.sort.trans hes.symm)
    obtain ⟨r, hr, h⟩ := bind_eq_ok.1 h
    obtain ⟨goal, hg, h⟩ := bind_eq_ok.1 h
    rw [ht] at hr
    cases hr
    rw [Operand.asCondition_term.2 ⟨htb, rfl⟩] at hg
    cases hg
    split at h
    · rename_i m hm
      obtain ⟨hρ, htrue⟩ := hmodels _ m hm
      obtain ⟨_, hxt, hread⟩ := Model.read_eq_ok h
      cases hxt
      rcases hread with rfl | ⟨n, s, v, hvar, hget, rfl⟩
      · exact absurd rfl hx
      cases hvar
      obtain ⟨m', hlt, rfl⟩ := (hρ "x" (.bv w) v hget).eq_word
      refine ⟨o, m', rfl, rfl, hlt, fun ρ => ?_⟩
      have hstep := (hiff m.assignment).1 (htrue t (by simp))
      calc (Term.app o.fn [V, .word w m']).eval ρ
          = (Term.app o.fn [V, .var "x" (.bv w)]).eval m.assignment :=
            eval_join hoas rfl (hV.eval_eq ρ _) (by simp [Model.assignment, hget])
        _ = T.eval ρ := hstep.trans (hT.eval_eq _ ρ)
    · simp only [pure, Except.pure, Except.ok.injEq] at h
      exact absurd h.symm hx

/-! ## Chains -/

/-- The term of the chain `c₁ op₁ (c₂ op₂ (… (cₖ opₖ L)))`. -/
def chainTerm : List (Term × BinOp) → Term → Term
  | [], L => L
  | (c, o) :: js, L => .app o.fn [c, chainTerm js L]

/-- The printed chain: each constant, its operator's symbol and the rest of
the chain, which stands in parentheses unless it is one of `keys`. -/
def chainText (keys : List Term) : List (Term × BinOp) → Term → String
  | [], L => L.toText
  | (c, o) :: js, L =>
    c.toText ++ " " ++ o.symbol ++ " " ++
      (if js = [] ∧ L ∈ keys then L.toText else "(" ++ chainText keys js L ++ ")")

/-- A chain as inductive synthesis answers it: the leaf itself, or the
chain's text. -/
def chainFound (keys : List Term) : List (Term × BinOp) → Term → Found
  | [], L => .term (.term L)
  | j :: js, L => .text (chainText keys (j :: js) L)

theorem join_chainFound (cs : List (Term × Operand)) (c : Term) (o : BinOp) (js : List (Term × BinOp))
    (L : Term) :
    Found.join (Table.ofTerms cs) (.term c) o.symbol (chainFound (cs.map Prod.fst) js L) =
      chainFound (cs.map Prod.fst) ((c, o) :: js) L := by
  cases js with
  | nil =>
    have hmem : (Table.ofTerms cs).contains (.term L) = true ↔ L ∈ cs.map Prod.fst := by
      simp [Table.contains_term]
    by_cases hL : L ∈ cs.map Prod.fst
    · simp [Found.join, chainFound, chainText, Operand.hostText, hmem.2 hL, hL]
    · have hc : (Table.ofTerms cs).contains (.term L) = false := Bool.eq_false_iff.2 fun h => hL (hmem.1 h)
      simp [Found.join, chainFound, chainText, Operand.hostText, hc, hL]
  | cons j js => simp [Found.join, chainFound, chainText, Operand.hostText]

/-- At the last level inductive synthesis gives the answers of enumerative
synthesis, whatever the budget left. -/
theorem inductWith_one (check : Checker) (simp : Term → Term) (sketch : Operand) (inputs : List Operand)
    (constants : Table) (w : Int) (budget : Nat) (target : Operand) :
    inductWith check simp sketch inputs constants w budget 1 target =
      (enumerateWith check simp sketch inputs constants target w >>= fun ls =>
        pure (ls.map (Found.term ∘ Operand.term))) := by
  cases budget <;> rw [inductWith, if_pos rfl]

section Chained

variable (check : Checker) (simp : Term → Term) (sketch : Operand) (inputs : List Operand) (w : Nat)
  (cs : List (Term × Operand))

/-- `item` answers `target` at depth `d` as a chain: `k < d` named constants
of `cs`, each joined by `+` or `-`, end in a leaf `L` for what is left of
the target, `rest`: a constant of `cs` above the last level, an answer of
enumerative synthesis for `rest` at the last. With every constant at its
value, the leaf takes the value of `rest` and the chain that of `target`,
each read at the leaf's or the chain's sort. -/
def Chained (d : Int) (target : Operand) (item : Found) : Prop :=
  ∃ (js : List (Term × BinOp)) (L : Term) (rest : Operand),
    item = chainFound (cs.map Prod.fst) js L ∧ (js.length : Int) < d ∧
    (∀ j ∈ js, j.1 ∈ cs.map Prod.fst ∧ (j.2 = .add ∨ j.2 = .sub)) ∧ rest.IsWordValue w ∧
    ((1 < d - js.length ∧ L ∈ cs.map Prod.fst) ∨
      (d - js.length = 1 ∧ ∃ ls, enumerateWith check simp sketch inputs (Table.ofTerms cs) rest w = .ok ls ∧
        L ∈ ls)) ∧
    ∃ ρ : Assignment, ρ.Sorted ∧ (∀ q ∈ cs, ∀ V, q.2.ClosedWord w V → q.1.eval ρ = V.eval ρ) ∧
      (∃ R, rest.cast L.sort = .ok R ∧ L.eval ρ = R.eval ρ) ∧
      ∃ T, target.cast (chainTerm js L).sort = .ok T ∧ (chainTerm js L).eval ρ = T.eval ρ

variable {check simp sketch inputs w cs}

/-- A constant whose value the host finds equal to the target answers it,
alone, at every depth above the last. -/
theorem chained_key (hcs : NumeralTable w cs) {d : Int} (hd : 1 < d) {target : Operand}
    (htarget : target.IsWordValue w) {p : Term × Operand} (hp : p ∈ cs) (hh : Operand.holdsEq p.2 target = .ok true) :
    Chained check simp sketch inputs w cs d target (.term (.term p.1)) := by
  obtain ⟨n, hn⟩ := hcs.keys p hp
  obtain ⟨v, -, hV⟩ := (hcs.values p hp).closedWord
  have hT : target.cast p.1.sort = .ok (.word w v) := by
    rw [hn, Term.sort_var, ← (hcs.values p hp).cast_eq_of_holdsEq htarget hh]
    exact hV.cast
  obtain ⟨ρ, hρ, hkeys, -⟩ := hcs.toWordTable.exists_assignment
    (show Assignment.Sorted fun _ _ => none from fun _ _ _ h => by cases h)
  have hval : p.1.eval ρ = (Term.word w v).eval ρ := hkeys p hp _ hV
  refine ⟨[], p.1, target, rfl, by simp; omega, by simp, htarget, .inl ⟨by simpa using hd, List.mem_map_of_mem hp⟩,
    ρ, hρ, hkeys, ⟨_, hT, hval⟩, _, hT, hval⟩

/-- An answer of enumerative synthesis for the target answers it at the
last level. -/
theorem chained_enumerate (hmodels : check.ModelsSoundly) (hsimp : KeepsMeaning simp) (hcs : NumeralTable w cs)
    {target : Operand} (htarget : target.IsWordValue w) {ls : List Term}
    (h : enumerateWith check simp sketch inputs (Table.ofTerms cs) target w = .ok ls) {L : Term} (hL : L ∈ ls) :
    Chained check simp sketch inputs w cs 1 target (.term (.term L)) := by
  obtain ⟨ρ, hρ, hkeys, R, hR, hLR⟩ := leaf_of_mem_enumerateWith hmodels hsimp hcs.toWordTable htarget h hL
  exact ⟨[], L, target, rfl, by simp, by simp, htarget, .inr ⟨by simp, ls, h, hL⟩, ρ, hρ, hkeys, ⟨R, hR, hLR⟩,
    R, hR, hLR⟩

/-- A step `c op m` that reaches the target, joined to an answer for `m` one
level down, answers the target. -/
theorem chained_join (hcs : NumeralTable w cs) {d : Int} {target : Operand} {T : Term}
    (hT : target.ClosedWord w T) {p : Term × Operand} (hp : p ∈ cs) {V : Term} (hV : p.2.ClosedWord w V)
    {o : BinOp} (ho : o = .add ∨ o = .sub) {m : Nat} (hstep : ∀ ρ, (Term.app o.fn [V, .word w m]).eval ρ = T.eval ρ)
    {e : Found} (he : Chained check simp sketch inputs w cs (d - 1) (.term (.word w m)) e) :
    Chained check simp sketch inputs w cs d target (Found.join (Table.ofTerms cs) (.term p.1) o.symbol e) := by
  obtain ⟨js, L, rest, rfl, hlen, hjs, hrest, hleaf, ρ, hρ, hkeys, hLR, X, hX, hchain⟩ := he
  obtain ⟨n, hn⟩ := hcs.keys p hp
  have hsort : p.1.sort = .bv w := by rw [hn, Term.sort_var]
  have hlevel : d - (((p.1, o) :: js).length : Int) = d - 1 - js.length := by
    rw [List.length_cons]
    push_cast
    ring
  refine ⟨(p.1, o) :: js, L, rest, join_chainFound cs p.1 o js L, by rw [List.length_cons]; push_cast; omega,
    ?_, hrest, hlevel ▸ hleaf, ρ, hρ, hkeys, hLR, T, ?_, ?_⟩
  · rintro j (_ | ⟨_, hj⟩)
    · exact ⟨List.mem_map_of_mem hp, ho⟩
    · exact hjs j hj
  · rw [chainTerm, sort_join ho, hsort]
    exact hT.cast
  · rw [Operand.cast_word_eq hX] at hchain
    calc (chainTerm ((p.1, o) :: js) L).eval ρ = (Term.app o.fn [V, .word w m]).eval ρ :=
          eval_join ho (hsort.trans hV.sort.symm) (hkeys p hp V hV) hchain
      _ = T.eval ρ := hstep ρ

theorem chained_last (hmodels : check.ModelsSoundly) (hsimp : KeepsMeaning simp) (hcs : NumeralTable w cs)
    {target : Operand} (htarget : target.IsWordValue w) {items : List Found}
    (h : (enumerateWith check simp sketch inputs (Table.ofTerms cs) target w >>= fun ls =>
      pure (ls.map (Found.term ∘ Operand.term)) : Except Fault (List Found)) = .ok items) :
    ∀ item ∈ items, Chained check simp sketch inputs w cs 1 target item := by
  obtain ⟨ls, hls, h⟩ := bind_eq_ok.1 h
  simp only [pure, Except.pure, Except.ok.injEq] at h
  subst h
  intro item hitem
  obtain ⟨L, hL, rfl⟩ := List.mem_map.1 hitem
  exact chained_enumerate hmodels hsimp hcs htarget hls hL

/-- Every answer of inductive synthesis, from a word-value target at a depth
of at least one, answers it as a chain. The induction is on the budget, with
the depth and the target what is left at each level. -/
theorem inductWith_chained (hmodels : check.ModelsSoundly) (hsimp : KeepsMeaning simp) (hcs : NumeralTable w cs) :
    ∀ (budget : Nat) (d : Int) (target : Operand) (items : List Found), target.IsWordValue w → 1 ≤ d →
      inductWith check simp sketch inputs (Table.ofTerms cs) w budget d target = .ok items →
      ∀ item ∈ items, Chained check simp sketch inputs w cs d target item := by
  intro budget
  induction budget with
  | zero =>
    intro d target items htarget hd h
    rw [inductWith] at h
    -- with the budget spent, only the last level answers; any other throws
    split_ifs at h with hd1
    subst hd1
    exact chained_last hmodels hsimp hcs htarget h
  | succ budget ih =>
    intro d target items htarget hd h item hitem
    rw [inductWith] at h
    split_ifs at h with hd1
    · subst hd1
      exact chained_last hmodels hsimp hcs htarget h item hitem
    have hd' : 1 < d := lt_of_le_of_ne hd (Ne.symm hd1)
    obtain ⟨entry, hentry, zs, hzs, hitem⟩ := mem_of_flatMapM h item hitem
    obtain ⟨p, hp, rfl⟩ := List.mem_map.1 hentry
    obtain ⟨b, hb, hzs⟩ := bind_eq_ok.1 hzs
    cases b with
    | true =>
      simp only [↓reduceIte, pure, Except.pure, Except.ok.injEq] at hzs
      subst hzs
      rw [List.mem_singleton.1 hitem]
      exact chained_key hcs hd' htarget hp hb
    | false =>
      simp only [Bool.false_eq_true, ↓reduceIte] at hzs
      obtain ⟨op, -, zs, hzs, hitem⟩ := mem_of_flatMapM hzs item hitem
      obtain ⟨x, hx, hzs⟩ := bind_eq_ok.1 hzs
      obtain ⟨b, hb, hzs⟩ := bind_eq_ok.1 hzs
      cases b with
      | true =>
        simp only [↓reduceIte, pure, Except.pure, Except.ok.injEq] at hzs
        subst hzs
        cases hitem
      | false =>
        simp only [Bool.false_eq_true, ↓reduceIte] at hzs
        obtain ⟨results, hres, hzs⟩ := bind_eq_ok.1 hzs
        simp only [pure, Except.pure, Except.ok.injEq] at hzs
        subst hzs
        obtain ⟨e, he, rfl⟩ := List.mem_map.1 hitem
        have hxne : x ≠ .none := by
          rintro rfl
          simp [Operand.holdsEq, Operand.binary, Operand.isTerm, Operand.host, bind, Except.bind, pure,
            Except.pure] at hb
        obtain ⟨v, -, hV⟩ := (hcs.values p hp).closedWord
        obtain ⟨t, -, hT⟩ := htarget.closedWord
        obtain ⟨o, m, hso, rfl, hm, hstep⟩ := solveEqWith_sound hmodels hV hT hx hxne
        obtain ⟨ho, rfl⟩ := stepOp?_eq_some hso
        exact chained_join hcs hT hp hV ho hstep (ih (d - 1) _ results (.word hm) (by omega) hres e he)

end Chained

/-! ## Inductive synthesis -/

/-- Every answer of inductive synthesis, with right models and a simplifier
that keeps meaning, from a word-value target at a depth of at least one over
a table of named `w`-bit constants with word values, is a chain that reaches
the target. -/
theorem inductiveSynthesisWith_chains {check : Checker} (hmodels : check.ModelsSoundly) {simp : Term → Term}
    (hsimp : KeepsMeaning simp) (sketch : Operand) (inputs : List Operand) {w : Nat} {cs : List (Term × Operand)}
    (hcs : NumeralTable w cs) {target : Operand} (htarget : target.IsWordValue w) {d : Int} (hd : 1 ≤ d)
    {items : List Found}
    (h : inductiveSynthesisWith check simp sketch inputs (Table.ofTerms cs) target w d = .ok items) :
    ∀ item ∈ items, Chained check simp sketch inputs w cs d target item :=
  inductWith_chained hmodels hsimp hcs depthBudget d target items htarget hd h

/-- At depth one, a `2`-bit sketch answers the target `5` with the `2`-bit
numeral `1`: `5` read at two bits, but not `5` modulo `16`, so no reading of
the answer as a chain reaches the target at the constants' width `4`. -/
theorem induct_narrow_sketch :
    inductiveSynthesisWith Checker.exact Term.simplify (.term (.word 2 1)) [] (Table.ofTerms []) (.int 5) 4 1 =
      .ok [.term (.term (.word 2 1))] ∧
    ∀ js L, chainFound [] js L = .term (.term (.word 2 1)) →
      ∀ ρ : Assignment, (chainTerm js L).eval ρ ≠ (Term.ofInt 4 5).eval ρ := by
  have h : Enumerable 4 [] [] :=
    { keys := by simp
      values := by simp
      nodup := List.nodup_nil
      inputs := by simp
      inputs_nodup := List.nodup_nil
      disjoint := by simp }
  have hT : (Operand.int 5).cast (Term.word 2 1).sort = .ok (.word 2 1) := by
    rw [Term.sort_word]
    rfl
  have hadm : Admitted 4 [] (.word 2 1) (.word 2 1) :=
    ⟨fun _ _ => none, (fun _ _ _ h => by cases h), by simp, rfl⟩
  have hcombos : combos 4 [] ([] : List Term) = [([], [])] := by simp [combos, tuples]
  refine ⟨?_, ?_⟩
  · have hrun := enumerateWith_eq_admitted Checker.exact_decides Checker.exact_refutesSoundly
      Checker.exact_modelsSoundly Term.simplify (by norm_num) h (.word 2 1) hT rfl
    simp only [List.map_nil, Nat.cast_ofNat, hcombos] at hrun
    rw [inductiveSynthesisWith, inductWith_one, hrun]
    simp [hadm, bind, Except.bind, pure, Except.pure]
    rfl
  · intro js L hL ρ
    cases js with
    | nil =>
      simp only [chainFound, Found.term.injEq, Operand.term.injEq] at hL
      subst hL
      simp [chainTerm, Term.ofInt]
    | cons j js => simp [chainFound] at hL

end SmtSynth
