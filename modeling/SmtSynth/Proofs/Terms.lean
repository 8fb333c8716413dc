import Mathlib
import SmtSynth.Term.Eval
import SmtSynth.Term.Subst
/-!
# What the value of a term depends on

The value of a term is fixed by the values of its named constants
(`eval_congr`), and replacing named constants by terms of their sorts, all at
once, gives the value the term has when each constant takes the value of its
replacement (`eval_replace`). Both rest on `eval_app`: an application's value
depends only on its symbol, the sorts of its arguments and their values.
-/

namespace SmtSynth
namespace Term

/-! ## Applications -/

/-- The sort of an application of `f` to arguments of sorts `ss`. -/
def appSort (f : Fn) (ss : List TermSort) : TermSort :=
  match f, ss with
  | .ite, _ :: s :: _ => s
  | .concat, ss => .bv ((ss.map TermSort.width).foldl (· + ·) 0)
  | .extract hi lo, _ => .bv (hi + 1 - lo)
  | f, s :: _ => if f.isPredicate then .bool else s
  | f, [] => if f.isPredicate then .bool else .int

/-- The sort at which an application of `f` to arguments of sorts `ss` is
evaluated. -/
def evalSort (f : Fn) (ss : List TermSort) : TermSort :=
  match f, ss with
  | .concat, ss | .extract _ _, ss => appSort f ss
  | .ite, _ :: s :: _ => s
  | _, s :: _ => s
  | _, [] => .bool

theorem sort_app (f : Fn) (args : List Term) : (app f args).sort = appSort f (args.map sort) := by
  rw [sort.eq_def]
  rcases args with _ | ⟨a, _ | ⟨b, r⟩⟩ <;> cases f <;> simp [appSort, Function.comp_def]

theorem eval_app (ρ : Assignment) (f : Fn) (args : List Term) :
    (app f args).eval ρ = apply f (evalSort f (args.map sort)) (args.map (eval ρ)) := by
  rw [eval.eq_def]
  have hm : (args.attach.map fun a => eval ρ a.val) = args.map (eval ρ) := by simp
  simp only [hm, sort_app]
  rcases args with _ | ⟨a, _ | ⟨b, r⟩⟩ <;> cases f <;> rfl

@[simp] theorem eval_lit (ρ : Assignment) (b : Bool) : (lit b).eval ρ = .bool b := by simp [eval]

@[simp] theorem eval_num (ρ : Assignment) (n : Int) : (num n).eval ρ = .int n := by simp [eval]

@[simp] theorem eval_word (ρ : Assignment) (w v : Nat) : (word w v).eval ρ = .word w v := by simp [eval]

@[simp] theorem eval_var (ρ : Assignment) (n : String) (s : TermSort) :
    (var n s).eval ρ = (ρ n s).getD (Value.default s) := by
  simp [eval]

@[simp] theorem eval_not (ρ : Assignment) (t : Term) :
    (app .not [t]).eval ρ = .bool (!(t.eval ρ).asBool) := by
  simp [eval_app, apply]

theorem eval_and (ρ : Assignment) (ts : List Term) :
    (app .and ts).eval ρ = .bool (ts.all fun t => (t.eval ρ).asBool) := by
  simp [eval_app, apply, List.all_map, Function.comp_def]

theorem eval_eq (ρ : Assignment) (a b : Term) :
    (app .eq [a, b]).eval ρ = .bool (decide (a.eval ρ = b.eval ρ)) := by
  simp only [eval_app, apply, List.map_cons, List.map_nil]
  rfl

theorem eval_band (ρ : Assignment) {w : Nat} {a : Term} (b : Term) (ha : a.sort = .bv w) :
    (app .band [a, b]).eval ρ = .word w ((a.eval ρ).asNat &&& (b.eval ρ).asNat) := by
  simp [eval_app, apply, evalSort, ha, wordBinary, TermSort.width]

/-! ## Named constants -/

theorem mem_vars_go (x : Term) (t : Term) (acc : List Term) :
    x ∈ vars.go t acc ↔ x ∈ acc ∨ x ∈ vars.go t [] := by
  match t with
  | lit b => simp [vars.go]
  | num n => simp [vars.go]
  | word w v => simp [vars.go]
  | var n s =>
    rw [vars.go.eq_def, vars.go.eq_def]
    by_cases h : var n s ∈ acc
    · simp only [List.contains_iff_mem, h, ↓reduceIte, List.not_mem_nil, List.mem_singleton]
      exact ⟨.inl, fun h' => h'.elim id (fun e => e ▸ h)⟩
    · simp [h, or_comm]
  | app f args =>
    rw [vars.go.eq_def, vars.go.eq_def]
    -- the fold's step, written with the projection rather than a pattern
    show x ∈ args.attach.foldl (fun acc a => vars.go a.1 acc) acc ↔
      x ∈ acc ∨ x ∈ args.attach.foldl (fun acc a => vars.go a.1 acc) []
    suffices key : ∀ (l : List {a // a ∈ args}) (acc : List Term),
        x ∈ l.foldl (fun acc a => vars.go a.1 acc) acc ↔ x ∈ acc ∨ ∃ a ∈ l, x ∈ vars.go a.1 [] by
      simp only [key, List.not_mem_nil, false_or]
    intro l
    induction l with
    | nil => simp
    | cons a l ih =>
      intro acc
      have := List.sizeOf_lt_of_mem a.2
      simp only [List.foldl_cons, ih, List.mem_cons, mem_vars_go x a.1 acc]
      constructor
      · rintro ((h | h) | ⟨b, hb, h⟩)
        · exact .inl h
        · exact .inr ⟨a, .inl rfl, h⟩
        · exact .inr ⟨b, .inr hb, h⟩
      · rintro (h | ⟨b, rfl | hb, h⟩)
        · exact .inl (.inl h)
        · exact .inl (.inr h)
        · exact .inr ⟨b, hb, h⟩
termination_by sizeOf t
decreasing_by simp_wf; omega

@[simp] theorem vars_lit (b : Bool) : (lit b).vars = [] := by simp [vars, vars.go]

@[simp] theorem vars_num (n : Int) : (num n).vars = [] := by simp [vars, vars.go]

@[simp] theorem vars_word (w v : Nat) : (word w v).vars = [] := by simp [vars, vars.go]

@[simp] theorem mem_vars_var {x : Term} {n : String} {s : TermSort} :
    x ∈ (var n s).vars ↔ x = var n s := by
  simp [vars, vars.go]

@[simp] theorem mem_vars_app {x : Term} {f : Fn} {args : List Term} :
    x ∈ (app f args).vars ↔ ∃ a ∈ args, x ∈ a.vars := by
  simp only [vars, List.mem_reverse]
  rw [vars.go.eq_def]
  simp only
  rw [List.foldl_attach (f := fun acc a => vars.go a acc)]
  suffices key : ∀ (l : List Term) (acc : List Term),
      x ∈ l.foldl (fun acc a => vars.go a acc) acc ↔ x ∈ acc ∨ ∃ a ∈ l, x ∈ vars.go a [] by
    simp [key]
  intro l
  induction l with
  | nil => simp
  | cons a l ih =>
    intro acc
    simp only [List.foldl_cons, ih, mem_vars_go x a acc, List.mem_cons]
    constructor
    · rintro ((h | h) | ⟨b, hb, h⟩)
      · exact .inl h
      · exact .inr ⟨a, .inl rfl, h⟩
      · exact .inr ⟨b, .inr hb, h⟩
    · rintro (h | ⟨b, rfl | hb, h⟩)
      · exact .inl (.inl h)
      · exact .inl (.inr h)
      · exact .inr ⟨b, hb, h⟩

theorem exists_var_of_mem_vars {x : Term} (t : Term) (h : x ∈ t.vars) : ∃ n s, x = var n s := by
  match t with
  | lit b => simp at h
  | num n => simp at h
  | word w v => simp at h
  | var n s => exact ⟨n, s, mem_vars_var.1 h⟩
  | app f args =>
    obtain ⟨a, ha, hx⟩ := mem_vars_app.1 h
    have := List.sizeOf_lt_of_mem ha
    exact exists_var_of_mem_vars a hx
termination_by sizeOf t
decreasing_by simp_wf; omega

/-- Assignments that agree on the named constants of a term give it one
value. -/
theorem eval_congr {ρ ρ' : Assignment} (t : Term) (h : ∀ x ∈ t.vars, x.eval ρ = x.eval ρ') :
    t.eval ρ = t.eval ρ' := by
  match t with
  | lit b => simp
  | num n => simp
  | word w v => simp
  | var n s => exact h _ (by simp)
  | app f args =>
    rw [eval_app, eval_app]
    congr 1
    apply List.map_congr_left
    intro a ha
    have := List.sizeOf_lt_of_mem ha
    exact eval_congr a (fun x hx => h x (mem_vars_app.2 ⟨a, ha, hx⟩))
termination_by sizeOf t
decreasing_by simp_wf; omega

/-! ## Substitution -/

/-- Pairs that replace named constants by terms of their sorts, as a
substitution does once its checks pass. -/
def SortedPairs (ps : List (Term × Term)) : Prop :=
  ∀ p ∈ ps, ∃ n s, p.1 = var n s ∧ p.2.sort = s

theorem lookupLast_mem {ps : List (Term × Term)} {t r : Term} (h : lookupLast ps t = some r) :
    (t, r) ∈ ps := by
  suffices key : ∀ acc, ps.foldl (fun acc p => if p.1 == t then some p.2 else acc) acc = some r →
      (t, r) ∈ ps ∨ acc = some r by
    rcases key none h with h | h
    · exact h
    · cases h
  clear h
  induction ps with
  | nil => simp
  | cons p ps ih =>
    intro acc hf
    rw [List.foldl_cons] at hf
    rcases ih _ hf with h | h
    · exact .inl (List.mem_cons_of_mem _ h)
    · split at h
      · rename_i hp
        have e : p = (t, r) := Prod.ext (beq_iff_eq.1 hp) (Option.some.inj h)
        exact .inl (e ▸ List.mem_cons_self)
      · exact .inr h

theorem lookupLast_eq_none {ps : List (Term × Term)} {t : Term} (h : ∀ p ∈ ps, p.1 ≠ t) :
    lookupLast ps t = none := by
  cases hl : lookupLast ps t with
  | none => rfl
  | some r => exact absurd rfl (h _ (lookupLast_mem hl))

theorem lookupLast_ne_none {ps : List (Term × Term)} {p : Term × Term} (hp : p ∈ ps) :
    lookupLast ps p.1 ≠ none := by
  have keep : ∀ (qs : List (Term × Term)) acc, acc ≠ none →
      qs.foldl (fun acc q => if q.1 == p.1 then some q.2 else acc) acc ≠ none := by
    intro qs
    induction qs with
    | nil => exact fun _ h => h
    | cons q qs ih =>
      intro acc h
      rw [List.foldl_cons]
      apply ih
      split <;> simp_all
  obtain ⟨l₁, l₂, rfl⟩ := List.append_of_mem hp
  simp only [lookupLast, List.foldl_append, List.foldl_cons, beq_self_eq_true, ↓reduceIte]
  exact keep l₂ _ (by simp)

theorem lookupLast_of_not_var {ps : List (Term × Term)} (hps : SortedPairs ps) {t : Term}
    (ht : ∀ n s, t ≠ var n s) : lookupLast ps t = none := by
  apply lookupLast_eq_none
  intro p hp e
  obtain ⟨n, s, h1, -⟩ := hps p hp
  exact ht n s (e ▸ h1)

theorem sort_of_lookupLast {ps : List (Term × Term)} (hps : SortedPairs ps) {t r : Term}
    (h : lookupLast ps t = some r) : r.sort = t.sort := by
  obtain ⟨n, s, h1, h2⟩ := hps _ (lookupLast_mem h)
  simp only at h1 h2
  rw [h2, h1, sort_var]

theorem replace_app_of_sorted {ps : List (Term × Term)} (hps : SortedPairs ps) (f : Fn) (args : List Term) :
    replace ps (app f args) = app f (args.map (replace ps)) := by
  rw [replace.eq_1, lookupLast_of_not_var hps (fun _ _ h => by cases h)]
  simp

theorem replace_leaf {ps : List (Term × Term)} {t : Term} (ht : ∀ f args, t ≠ app f args) :
    replace ps t = (lookupLast ps t).getD t :=
  replace.eq_2 _ _ (fun f args h => ht f args h)

theorem sort_replace {ps : List (Term × Term)} (hps : SortedPairs ps) (t : Term) :
    (replace ps t).sort = t.sort := by
  match t with
  | app f args =>
    rw [replace_app_of_sorted hps, sort_app, sort_app, List.map_map]
    congr 1
    apply List.map_congr_left
    intro a ha
    have := List.sizeOf_lt_of_mem ha
    exact sort_replace hps a
  | var n s =>
    rw [replace_leaf (fun _ _ h => by cases h)]
    cases hl : lookupLast ps (var n s) with
    | none => rfl
    | some r => exact sort_of_lookupLast hps hl
  | lit b | num n | word w v =>
    rw [replace_leaf (fun _ _ h => by cases h), lookupLast_of_not_var hps (fun _ _ h => by cases h)]
    rfl
termination_by sizeOf t
decreasing_by simp_wf; omega

end Term

/-- `ρ` after the constants on the left of `ps` take the values, under `ρ`,
of the terms on their right; the last pair for a constant counts. -/
def Assignment.replace (ρ : Assignment) (ps : List (Term × Term)) : Assignment :=
  fun n s => match Term.lookupLast ps (.var n s) with
    | some r => some (r.eval ρ)
    | none => ρ n s

namespace Term

/-- Substitution lemma: replacing constants by terms of their sorts, all at
once, evaluates as the term does under the assignment those terms give the
constants. -/
theorem eval_replace {ps : List (Term × Term)} (hps : SortedPairs ps) (ρ : Assignment) (t : Term) :
    (replace ps t).eval ρ = t.eval (ρ.replace ps) := by
  match t with
  | app f args =>
    rw [replace_app_of_sorted hps, eval_app, eval_app, List.map_map, List.map_map]
    have hs : (sort ∘ replace ps) = sort := funext (sort_replace hps)
    rw [hs]
    congr 1
    apply List.map_congr_left
    intro a ha
    have := List.sizeOf_lt_of_mem ha
    exact eval_replace hps ρ a
  | var n s =>
    rw [replace_leaf (fun _ _ h => by cases h), eval_var]
    simp only [Assignment.replace]
    cases lookupLast ps (var n s) <;> simp
  | lit b | num n | word w v =>
    rw [replace_leaf (fun _ _ h => by cases h), lookupLast_of_not_var hps (fun _ _ h => by cases h)]
    simp
termination_by sizeOf t
decreasing_by simp_wf; omega

/-- The named constants after a replacement: those of the term that no pair
replaces, and those of the terms put in. -/
theorem mem_vars_replace {ps : List (Term × Term)} (hps : SortedPairs ps) {x : Term} (t : Term)
    (h : x ∈ (replace ps t).vars) : (x ∈ t.vars ∧ lookupLast ps x = none) ∨ ∃ p ∈ ps, x ∈ p.2.vars := by
  match t with
  | app f args =>
    rw [replace_app_of_sorted hps, mem_vars_app] at h
    obtain ⟨a', ha', hx⟩ := h
    obtain ⟨a, ha, rfl⟩ := List.mem_map.1 ha'
    have := List.sizeOf_lt_of_mem ha
    rcases mem_vars_replace hps a hx with ⟨hx, hl⟩ | hp
    · exact .inl ⟨mem_vars_app.2 ⟨a, ha, hx⟩, hl⟩
    · exact .inr hp
  | var n s =>
    rw [replace_leaf (fun _ _ h => by cases h)] at h
    cases hl : lookupLast ps (var n s) with
    | none =>
      rw [hl] at h
      have hx := mem_vars_var.1 h
      exact .inl ⟨h, hx ▸ hl⟩
    | some r =>
      rw [hl] at h
      exact .inr ⟨_, lookupLast_mem hl, h⟩
  | lit b | num n | word w v =>
    rw [replace_leaf (fun _ _ h => by cases h), lookupLast_of_not_var hps (fun _ _ h => by cases h)] at h
    simp at h
termination_by sizeOf t
decreasing_by simp_wf; omega

@[simp] theorem replace_nil (t : Term) : replace [] t = t := by
  match t with
  | app f args =>
    rw [replace_app_of_sorted (by simp [SortedPairs])]
    congr 1
    conv => rhs; rw [← List.map_id args]
    apply List.map_congr_left
    intro a ha
    have := List.sizeOf_lt_of_mem ha
    exact replace_nil a
  | var n s | lit n | num n | word n s => rw [replace_leaf (fun _ _ h => by cases h)]; rfl
termination_by sizeOf t
decreasing_by simp_wf; omega

end Term

namespace Value

@[simp] theorem eval_toTerm (ρ : Assignment) (v : Value) : v.toTerm.eval ρ = v := by
  cases v <;> simp [toTerm]

@[simp] theorem vars_toTerm (v : Value) : v.toTerm.vars = [] := by
  cases v <;> simp [toTerm]

@[simp] theorem asBool_bool (b : Bool) : (Value.bool b).asBool = b := rfl

theorem asBool_eq_true {v : Value} : v.asBool = true ↔ v = .bool true := by
  cases v <;> simp [asBool]

end Value

theorem Term.eval_not_eq_true (ρ : Assignment) (t : Term) :
    (Term.app .not [t]).eval ρ = .bool true ↔ t.eval ρ ≠ .bool true := by
  rw [Term.eval_not, Ne, ← Value.asBool_eq_true (v := t.eval ρ)]
  simp

end SmtSynth
