/-!
# Literals, reasons and the decision heap

The incremental search works over boolean variables numbered from zero;
variable `0` is the constant true, assigned before anything else. A literal
is a variable with a sign, packed as `2 * v` (positive) or `2 * v + 1`
(negative), so that a literal and its negation differ in the last bit and
literal indices can address watch lists directly.

Every assigned variable keeps the reason it was assigned: a fact of the base
level, a decision, a binary clause (the other literal, which is false), a
longer clause, or a theory propagation with the true literals it rests on.

Decisions take variables from a binary heap ordered by activity, highest
first, with slot `0` unused so that the parent of slot `i` is `i / 2`. Ties
keep the order of the heap itself: a child only moves above its parent when
its activity is strictly higher, and the left child wins a tie between
children. Which variable a search decides next therefore depends on the
exact history of insertions and removals, and the operations here keep that
history faithfully.

Random choices come from a linear congruential generator with fifteen-bit
outputs.
-/

namespace SmtSynth
namespace Cdcl

/-- A literal: variable `idx / 2`, negated when `idx` is odd. -/
structure Lit where
  idx : Nat
  deriving BEq, DecidableEq, Hashable, Inhabited, Repr

namespace Lit

/-- The literal of variable `v` with the given sign. -/
def ofVar (v : Nat) (negated : Bool := false) : Lit := ⟨2 * v + (if negated then 1 else 0)⟩

/-- The variable of a literal. -/
def var (l : Lit) : Nat := l.idx / 2

/-- Whether a literal is negated. -/
def negated (l : Lit) : Bool := l.idx % 2 == 1

/-- The negation of a literal. -/
def neg (l : Lit) : Lit := ⟨if l.idx % 2 = 0 then l.idx + 1 else l.idx - 1⟩

/-- The constant true literal. -/
def tt : Lit := ⟨0⟩

/-- The constant false literal. -/
def ff : Lit := ⟨1⟩

theorem neg_neg (l : Lit) : l.neg.neg = l := by
  cases l with
  | mk i =>
    simp only [neg, Lit.mk.injEq]
    by_cases h : i % 2 = 0
    · have h1 : ¬ (i + 1) % 2 = 0 := by omega
      simp [h, h1]
    · have h1 : (i - 1) % 2 = 0 := by omega
      simp [h, h1]
      omega

end Lit

/-- The value of a variable or literal under a partial assignment. -/
inductive LBool where
  | unset
  | tt
  | ff
  deriving BEq, DecidableEq, Inhabited, Repr

/-- Why a variable has its value. -/
inductive Reason where
  /-- Not assigned. -/
  | none
  /-- A fact of the base level. -/
  | base
  /-- A decision. -/
  | decision
  /-- A binary clause; the other literal, which is false. -/
  | binary (other : Lit)
  /-- A clause of the clause store. -/
  | clause (id : Nat)
  /-- A theory propagation; the true literals it rests on. -/
  | theory (ants : Array Lit)
  deriving Inhabited

/-- A linear congruential generator with fifteen-bit outputs. -/
structure Lcg where
  seed : UInt32 := 0
  deriving Inhabited

namespace Lcg

/-- The next output, from `0` to `32767`, and the advanced generator. -/
def next (g : Lcg) : Nat × Lcg :=
  let s := g.seed * 214013 + 2531011
  (((s >>> 16) &&& 0x7fff).toNat, ⟨s⟩)

end Lcg

/-- A binary heap of variables, highest activity first. Slot `0` of
`slots` is unused; `pos` gives each variable's slot, `0` when absent. -/
structure Heap where
  slots : Array Nat := #[0]
  pos : Array Nat := #[]
  deriving Inhabited

namespace Heap

/-- Whether variable `a` goes strictly before `b`. -/
@[inline] def before (act : Array Float) (a b : Nat) : Bool := act[a]! > act[b]!

/-- Whether the heap holds a variable. -/
def contains (h : Heap) (v : Nat) : Bool := h.pos.getD v 0 != 0

/-- Whether the heap is empty. -/
def isEmpty (h : Heap) : Bool := h.slots.size ≤ 1

/-- Puts `v` at slot `i`. -/
@[inline] def place (h : Heap) (i v : Nat) : Heap :=
  { slots := h.slots.set! i v, pos := h.pos.set! v i }

/-- Moves the variable at slot `i` up while it goes before its parent. -/
def moveUp (act : Array Float) (h : Heap) (i : Nat) : Heap :=
  let v := h.slots[i]!
  let rec go (fuel : Nat) (h : Heap) (i : Nat) : Heap :=
    match fuel with
    | 0 => h.place i v
    | fuel + 1 =>
      let p := i / 2
      if p == 0 || !before act v h.slots[p]! then h.place i v
      else go fuel (h.place i h.slots[p]!) p
  go h.slots.size h i

/-- Moves the variable at slot `i` down while a child goes before it. -/
def moveDown (act : Array Float) (h : Heap) (i : Nat) : Heap :=
  let v := h.slots[i]!
  let sz := h.slots.size
  let rec go (fuel : Nat) (h : Heap) (i : Nat) : Heap :=
    match fuel with
    | 0 => h.place i v
    | fuel + 1 =>
      let l := 2 * i
      if l ≥ sz then h.place i v
      else
        let r := l + 1
        let m := if r < sz && before act h.slots[r]! h.slots[l]! then r else l
        let mv := h.slots[m]!
        if !before act mv v then h.place i v
        else go fuel (h.place i mv) m
  go sz h i

/-- Adds a variable that the heap does not hold. -/
def insert (act : Array Float) (h : Heap) (v : Nat) : Heap :=
  let pos := if v < h.pos.size then h.pos else h.pos ++ Array.replicate (v + 1 - h.pos.size) 0
  let i := h.slots.size
  moveUp act { slots := h.slots.push v, pos := pos.set! v i } i

/-- Removes and answers the first variable of a nonempty heap: the last
slot's variable moves to the root and sinks. -/
def eraseMin (act : Array Float) (h : Heap) : Nat × Heap :=
  let r := h.slots[1]!
  if h.slots.size == 2 then (r, { slots := h.slots.pop, pos := h.pos.set! r 0 })
  else
    let last := h.slots.back!
    let h' : Heap := { slots := (h.slots.set! 1 last).pop, pos := (h.pos.set! last 1).set! r 0 }
    (r, moveDown act h' 1)

/-- Restores the order after the activity of a held variable grew. -/
def increased (act : Array Float) (h : Heap) (v : Nat) : Heap :=
  if h.contains v then moveUp act h h.pos[v]! else h

end Heap

end Cdcl
end SmtSynth
