import SmtSynth.Term.Sort
import SmtSynth.Term.Fn
/-!
# Terms

A term is a truth value, an integer numeral, a bit-vector numeral, a named
constant of a sort, or a function symbol applied to a list of terms. Terms
are compared structurally: two terms are the same term exactly when they are
built the same way, which is what every identity test in this library means.

A bit-vector numeral `word w v` keeps its value as the unsigned residue
`v < 2 ^ w`; `Term.ofInt` is the one way numerals are made from integers, and
it wraps modulo `2 ^ w`.
-/

namespace SmtSynth

/-- A term of the solver's language. -/
inductive Term where
  | lit (b : Bool)
  | num (n : Int)
  | word (width value : Nat)
  | var (name : String) (sort : TermSort)
  | app (f : Fn) (args : List Term)
  deriving Repr, Inhabited, Hashable

namespace Term

mutual
/-- Structural equality of terms is decidable. -/
def decEq : (a b : Term) → Decidable (a = b)
  | lit a, lit b =>
    if h : a = b then isTrue (by rw [h]) else isFalse (by intro e; cases e; exact h rfl)
  | num a, num b =>
    if h : a = b then isTrue (by rw [h]) else isFalse (by intro e; cases e; exact h rfl)
  | word w v, word w2 v2 =>
    if h : w = w2 ∧ v = v2 then isTrue (by rw [h.1, h.2])
    else isFalse (by intro e; cases e; exact h ⟨rfl, rfl⟩)
  | var n s, var n2 s2 =>
    if h : n = n2 ∧ s = s2 then isTrue (by rw [h.1, h.2])
    else isFalse (by intro e; cases e; exact h ⟨rfl, rfl⟩)
  | app f as, app g bs =>
    if h : f = g then
      match decEqList as bs with
      | isTrue h2 => isTrue (by rw [h, h2])
      | isFalse h2 => isFalse (by intro e; cases e; exact h2 rfl)
    else isFalse (by intro e; cases e; exact h rfl)
  | lit _, num _ | lit _, word _ _ | lit _, var _ _ | lit _, app _ _
  | num _, lit _ | num _, word _ _ | num _, var _ _ | num _, app _ _
  | word _ _, lit _ | word _ _, num _ | word _ _, var _ _ | word _ _, app _ _
  | var _ _, lit _ | var _ _, num _ | var _ _, word _ _ | var _ _, app _ _
  | app _ _, lit _ | app _ _, num _ | app _ _, word _ _ | app _ _, var _ _ =>
    isFalse (by intro e; cases e)
/-- Structural equality of term lists is decidable. -/
def decEqList : (a b : List Term) → Decidable (a = b)
  | [], [] => isTrue rfl
  | a :: as, b :: bs =>
    match decEq a b, decEqList as bs with
    | isTrue h1, isTrue h2 => isTrue (by rw [h1, h2])
    | isFalse h1, _ => isFalse (by intro e; cases e; exact h1 rfl)
    | _, isFalse h2 => isFalse (by intro e; cases e; exact h2 rfl)
  | [], _ :: _ => isFalse (by intro e; cases e)
  | _ :: _, [] => isFalse (by intro e; cases e)
end

instance : DecidableEq Term := decEq

/-- The truth values as terms. -/
def tt : Term := lit true
/-- The truth values as terms. -/
def ff : Term := lit false

/-- The `w`-bit numeral of an integer: its residue modulo `2 ^ w`. -/
def ofInt (w : Nat) (i : Int) : Term :=
  word w (i % (Nat.pow 2 w : Nat)).toNat

/-- The largest `w`-bit numeral, all of whose bits are one. -/
def ones (w : Nat) : Term := word w (Nat.pow 2 w - 1)

/-- The sort of a term. Arithmetic takes the sort of its first argument, a
conditional that of its branches. -/
def sort : Term → TermSort
  | lit _ => .bool
  | num _ => .int
  | word w _ => .bv w
  | var _ s => s
  | app f args =>
    match f, args with
    | .ite, _ :: a :: _ => a.sort
    | .concat, as => .bv ((as.attach.map (fun ⟨a, _⟩ => a.sort.width)).foldl (· + ·) 0)
    | .extract hi lo, _ => .bv (hi + 1 - lo)
    | f, a :: _ => if f.isPredicate then .bool else a.sort
    | f, [] => if f.isPredicate then .bool else .int

/-- The width of a bit-vector term (zero for other sorts). -/
def width (t : Term) : Nat := t.sort.width

/-- The value of a bit-vector numeral. -/
def word? : Term → Option Nat
  | word _ v => some v
  | _ => none

/-- Whether a term is a numeral or a truth value: a value of its sort. -/
def isValue : Term → Bool
  | lit _ | num _ | word _ _ => true
  | _ => false

/-- Whether a term is a bit-vector numeral. -/
def isWord : Term → Bool
  | word _ _ => true
  | _ => false

/-- The arguments of an application of `f`, if the term is one. -/
def argsOf? (f : Fn) : Term → Option (List Term)
  | app g args => if g = f then some args else none
  | _ => none

/-- Whether a term is an application of `f`. -/
def isApp (f : Fn) (t : Term) : Bool := (t.argsOf? f).isSome

/-- Whether a term is a named constant. -/
def isVar : Term → Bool
  | var _ _ => true
  | _ => false

/-- The number of nodes of a term. -/
def size : Term → Nat
  | app _ args => 1 + (args.attach.map (fun ⟨a, _⟩ => a.size)).foldl (· + ·) 0
  | _ => 1

/-- The number of nodes on the longest path from the root to a leaf. -/
def depth : Term → Nat
  | app _ args => 1 + (args.attach.map (fun ⟨a, _⟩ => a.depth)).foldl max 0
  | _ => 1

/-- Whether the named constant `x` occurs in a term. -/
def mentions (x : Term) : Term → Bool
  | app f args => app f args == x || args.attach.any (fun ⟨a, _⟩ => mentions x a)
  | t => t == x

/-- The named constants of a term, each once, in order of first occurrence. -/
def vars (t : Term) : List Term :=
  (go t []).reverse
where
  go : Term → List Term → List Term
    | var n s, acc => if acc.contains (var n s) then acc else var n s :: acc
    | app _ args, acc => args.attach.foldl (fun acc ⟨a, _⟩ => go a acc) acc
    | _, acc => acc
  termination_by t => t

@[simp] theorem sort_word (w v : Nat) : (word w v).sort = .bv w := by simp [sort]
@[simp] theorem sort_var (n : String) (s : TermSort) : (var n s).sort = s := by simp [sort]

end Term

/-- The signed reading of a `w`-bit residue. -/
def Word.toSigned (w v : Nat) : Int :=
  if 2 * v ≥ Nat.pow 2 w then (v : Int) - (Nat.pow 2 w : Nat) else v

end SmtSynth
