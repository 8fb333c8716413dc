/-!
# Tuples and orderings

The two ways synthesis enumerates candidates. `tuples xs n` lists every
length-`n` sequence of elements of `xs` in lexicographic order of positions,
the last position varying fastest; `orderings xs` lists every arrangement of
`xs`, again lexicographically by the positions chosen.
-/

namespace SmtSynth

/-- All length-`n` sequences over `xs`, the last position varying fastest. -/
def tuples {α : Type} (xs : List α) : Nat → List (List α)
  | 0 => [[]]
  | n + 1 => xs.flatMap fun x => (tuples xs n).map (x :: ·)

/-- The ways to pick one element, with the others in order. -/
def picks {α : Type} : List α → List (α × List α)
  | [] => []
  | x :: xs => (x, xs) :: (picks xs).map fun (y, ys) => (y, x :: ys)

theorem picks_length {α : Type} (xs : List α) :
    ∀ p ∈ picks xs, p.2.length + 1 = xs.length := by
  induction xs with
  | nil => simp [picks]
  | cons x xs ih =>
    intro p hp
    simp only [picks, List.mem_cons, List.mem_map] at hp
    rcases hp with rfl | ⟨q, hq, rfl⟩
    · simp
    · simp [ih q hq]

/-- All arrangements of `xs`, in lexicographic order of positions. -/
def orderings {α : Type} (xs : List α) : List (List α) :=
  if xs.isEmpty then [[]]
  else (picks xs).attach.flatMap fun ⟨(y, ys), h⟩ =>
    have : ys.length < xs.length := by have := picks_length xs _ h; simp at this; omega
    (orderings ys).map (y :: ·)
termination_by xs.length

end SmtSynth
