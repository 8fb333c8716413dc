import Mathlib
import SmtSynth.Term.Eval
/-!
# Residues modulo `2 ^ w`

A `w`-bit word keeps the residue of an integer modulo `2 ^ w` (`Word.wrap`).
Two integers wrap to one word exactly when they agree modulo `2 ^ w`
(`Word.wrap_eq_iff`), and a word below `2 ^ w` is its own residue
(`Word.wrap_of_lt`). Since `1` and `-1` are their own inverses, the step
`a + s * x` with `s` one of them takes every word `x` to a different word: the
equation `a + s * x = b` has the one root `x = s * (b - a)`
(`Word.wrap_add_mul_eq_iff`).
-/

namespace SmtSynth

theorem Term.ofInt_eq_word (w : Nat) (i : Int) : Term.ofInt w i = .word w (Word.wrap w i) := rfl

namespace Word

variable {w : Nat}

theorem wrap_eq (i : Int) : wrap w i = (i % ((2 ^ w : Nat) : Int)).toNat := by
  rw [wrap, Nat.pow_eq]

theorem wrap_cast (i : Int) : (wrap w i : Int) = i % ((2 ^ w : Nat) : Int) := by
  have hpos : (0 : Int) < ((2 ^ w : Nat) : Int) := by positivity
  rw [wrap_eq, Int.toNat_of_nonneg (Int.emod_nonneg i hpos.ne')]

theorem wrap_lt (i : Int) : wrap w i < 2 ^ w := by
  have hpos : (0 : Int) < ((2 ^ w : Nat) : Int) := by positivity
  have hlt := Int.emod_lt_of_pos i hpos
  have hcast := wrap_cast (w := w) i
  omega

theorem wrap_of_lt {x : Nat} (hx : x < 2 ^ w) : wrap w x = x := by
  rw [wrap_eq, Int.emod_eq_of_lt (by omega) (by exact_mod_cast hx)]
  simp

theorem wrap_pow_of_le {k : Nat} (h : w ≤ k) : wrap w ((2 ^ k : Nat) : Int) = 0 := by
  rw [wrap_eq, ← Int.natCast_mod, Nat.mod_eq_zero_of_dvd (Nat.pow_dvd_pow 2 h)]
  rfl

@[simp] theorem wrap_zero : wrap w 0 = 0 := by
  simpa using wrap_of_lt (w := w) (x := 0) (Nat.two_pow_pos w)

theorem wrap_one (hw : 0 < w) : wrap w 1 = 1 := by
  simpa using wrap_of_lt (x := 1) (Nat.one_lt_two_pow hw.ne')

theorem wrap_eq_iff {i j : Int} : wrap w i = wrap w j ↔ i ≡ j [ZMOD ((2 ^ w : Nat) : Int)] := by
  rw [Int.ModEq, ← wrap_cast, ← wrap_cast, Nat.cast_inj]

theorem wrap_wrap_add (a c : Int) : wrap w ((wrap w a : Int) + c) = wrap w (a + c) := by
  rw [wrap_eq_iff, wrap_cast]
  exact (Int.mod_modEq a _).add_right c

theorem wrap_add_mul_wrap (a s b : Int) : wrap w (a + s * (wrap w b : Int)) = wrap w (a + s * b) := by
  rw [wrap_eq_iff, wrap_cast]
  exact ((Int.mod_modEq b _).mul_left s).add_left a

theorem wrap_neg_one : wrap w (-1) = 2 ^ w - 1 := by
  have hpos : 0 < 2 ^ w := Nat.two_pow_pos w
  have hsplit : (-1 : Int) = ((2 ^ w : Nat) : Int) - 1 + (-1) * ((2 ^ w : Nat) : Int) := by ring
  rw [wrap_eq, hsplit, Int.add_mul_emod_self_right, Int.emod_eq_of_lt (by omega) (by omega)]
  omega

/-- The step `a + s * x = b` on words, with `s` its own inverse, has the one
root `s * (b - a)`. -/
theorem wrap_add_mul_eq_iff {s : Int} (hs : s * s = 1) {a b : Int} {x : Nat} (hx : x < 2 ^ w) :
    wrap w (a + s * x) = wrap w b ↔ x = wrap w (s * (b - a)) := by
  have hroot : x = wrap w (s * (b - a)) ↔ wrap w x = wrap w (s * (b - a)) := by rw [wrap_of_lt hx]
  rw [hroot, wrap_eq_iff, wrap_eq_iff]
  constructor
  · intro h
    calc (x : Int) = s * (a + s * x - a) := by rw [add_sub_cancel_left, ← mul_assoc, hs, one_mul]
      _ ≡ s * (b - a) [ZMOD _] := (h.sub_right a).mul_left s
  · intro h
    calc a + s * x ≡ a + s * (s * (b - a)) [ZMOD _] := (h.mul_left s).add_left a
      _ = b := by rw [← mul_assoc, hs, one_mul, add_sub_cancel]

/-- Adding a word times `s`, its own inverse, to a fixed value gives
different words for different words. -/
theorem wrap_add_mul_injective {x s : Int} (hs : s * s = 1) {a b : Nat} (ha : a < 2 ^ w) (hb : b < 2 ^ w)
    (h : wrap w (x + s * a) = wrap w (x + s * b)) : a = b := by
  rw [wrap_add_mul_eq_iff hs ha, add_sub_cancel_left, ← mul_assoc, hs, one_mul] at h
  rw [h, wrap_of_lt hb]

end Word

end SmtSynth
