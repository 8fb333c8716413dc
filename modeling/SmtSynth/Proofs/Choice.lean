import Mathlib
import SmtSynth.Synth.Choice
/-!
# Tuples and orderings

What the two enumerations of the synthesis procedures list: `tuples xs n`
lists sequences of `n` elements of `xs` (`mem_tuples`), and `orderings xs`
lists rearrangements of `xs` (`perm_of_mem_orderings`). Both commute with
renaming the elements (`tuples_map`, `orderings_map`), so an enumeration of
operands is the enumeration of the terms they wrap.
-/

namespace SmtSynth

variable {α β : Type}

theorem mem_tuples {xs combo : List α} :
    ∀ {n : Nat}, combo ∈ tuples xs n → combo.length = n ∧ ∀ a ∈ combo, a ∈ xs
  | 0, h => by
    simp only [tuples, List.mem_singleton] at h
    subst h
    simp
  | n + 1, h => by
    simp only [tuples, List.mem_flatMap, List.mem_map] at h
    obtain ⟨x, hx, rest, hrest, rfl⟩ := h
    obtain ⟨hlen, hmem⟩ := mem_tuples hrest
    refine ⟨by simp [hlen], ?_⟩
    rintro a (_ | ⟨_, ha⟩)
    · exact hx
    · exact hmem a ha

theorem tuples_map (f : α → β) (xs : List α) : ∀ n, tuples (xs.map f) n = (tuples xs n).map (List.map f)
  | 0 => rfl
  | n + 1 => by simp [tuples, tuples_map f xs n, List.flatMap_map, List.map_flatMap, Function.comp_def]

theorem length_tuples (xs : List α) : ∀ n, (tuples xs n).length = xs.length ^ n
  | 0 => rfl
  | n + 1 => by simp [tuples, List.length_flatMap, length_tuples xs n, pow_succ, Nat.mul_comm]

/-- Sequences over two elements: those that start with the first, then those
that start with the second. -/
theorem tuples_pair_succ (a b : α) (n : Nat) :
    tuples [a, b] (n + 1) = (tuples [a, b] n).map (a :: ·) ++ (tuples [a, b] n).map (b :: ·) := by
  simp [tuples]

/-- Each element of a list has a partner when it is zipped with a list at
least as long. -/
theorem exists_mem_zip {xs : List α} {ys : List β} (hlen : xs.length ≤ ys.length) {x : α}
    (hx : x ∈ xs) : ∃ y ∈ ys, (x, y) ∈ xs.zip ys := by
  obtain ⟨i, hi, rfl⟩ := List.mem_iff_getElem.1 hx
  refine ⟨ys[i], List.getElem_mem _, ?_⟩
  have hz : i < (xs.zip ys).length := by simp; omega
  rw [← List.getElem_zip (h := hz)]
  exact List.getElem_mem hz

/-! ## Orderings -/

theorem picks_map (f : α → β) (xs : List α) :
    picks (xs.map f) = (picks xs).map fun p => (f p.1, p.2.map f) := by
  induction xs with
  | nil => rfl
  | cons x xs ih => simp [picks, ih]

theorem perm_of_mem_picks {xs : List α} {p : α × List α} (h : p ∈ picks xs) : (p.1 :: p.2).Perm xs := by
  induction xs generalizing p with
  | nil => simp [picks] at h
  | cons x xs ih =>
    simp only [picks, List.mem_cons, List.mem_map] at h
    rcases h with rfl | ⟨q, hq, rfl⟩
    · exact List.Perm.refl _
    · exact (List.Perm.swap x q.1 q.2).trans ((ih hq).cons x)

theorem orderings_eq (xs : List α) :
    orderings xs = if xs.isEmpty then [[]] else (picks xs).flatMap fun p => (orderings p.2).map (p.1 :: ·) := by
  rw [orderings]
  split
  · rfl
  · simp only [List.flatMap_def]
    rw [List.attach_map_val (f := fun (p : α × List α) => (orderings p.2).map (p.1 :: ·))]

@[simp] theorem orderings_nil : orderings ([] : List α) = [[]] := by
  rw [orderings_eq]
  rfl

theorem orderings_cons (x : α) (xs : List α) :
    orderings (x :: xs) = (picks (x :: xs)).flatMap fun p => (orderings p.2).map (p.1 :: ·) := by
  rw [orderings_eq]
  rfl

theorem orderings_map (f : α → β) (xs : List α) : orderings (xs.map f) = (orderings xs).map (List.map f) := by
  induction h : xs.length using Nat.strong_induction_on generalizing xs with
  | _ n ih =>
    rw [orderings_eq, orderings_eq xs]
    by_cases hxs : xs.isEmpty
    · simp [hxs]
    · have hstep : ∀ p ∈ picks xs, orderings (p.2.map f) = (orderings p.2).map (List.map f) := by
        intro p hp
        have hlen := (perm_of_mem_picks hp).length_eq
        exact ih p.2.length (by simp at hlen; omega) p.2 rfl
      simp only [List.isEmpty_map, hxs, Bool.false_eq_true, ↓reduceIte, picks_map, List.flatMap_map,
        List.map_flatMap]
      apply List.flatMap_congr
      intro p hp
      simp [hstep p hp, Function.comp_def]

theorem perm_of_mem_orderings {xs π : List α} (h : π ∈ orderings xs) : π.Perm xs := by
  induction hlen : xs.length using Nat.strong_induction_on generalizing xs π with
  | _ n ih =>
    rw [orderings_eq] at h
    split at h
    · rename_i hxs
      simp only [List.mem_singleton] at h
      subst h
      simp_all
    · simp only [List.mem_flatMap, List.mem_map] at h
      obtain ⟨p, hp, ρ, hρ, rfl⟩ := h
      have hperm := perm_of_mem_picks hp
      have hlt : p.2.length < n := by have := hperm.length_eq; simp at this; omega
      exact ((ih _ hlt hρ rfl).cons p.1).trans hperm

end SmtSynth
