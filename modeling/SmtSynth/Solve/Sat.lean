/-!
# Satisfiability of clause sets

A conflict-driven clause-learning search over clauses of integer literals
(`v` is variable `v` true, `-v` false). Conflicts are analysed to the first
unique implication point; the learnt clause is kept and the search jumps
back to the level where that clause asserts its literal.

Decisions take the unassigned variable of highest activity, activity being
raised for the variables of each conflict and decaying over time; among
variables of equal activity the one earlier in a given order goes first, so
a search without conflicts decides variables exactly in that order. A
variable is first tried false, and afterwards with the value it last had.
The search restarts after a growing number of conflicts (the Luby
sequence), keeping what it learnt.

The search is bounded by fuel; running out of it answers `unknown`.
-/

namespace SmtSynth
namespace Sat

/-- The answer of the search. -/
inductive Outcome where
  | sat (model : Array Bool)
  | unsat
  | unknown
  deriving Inhabited

/-- The index of a literal in the watch lists. -/
@[inline] def litIndex (l : Int) : Nat := 2 * l.natAbs + (if l < 0 then 1 else 0)

/-- The `i`-th term (from 1) of the Luby sequence 1 1 2 1 1 2 4 …. -/
def luby (i : Nat) : Nat := Id.run do
  -- find the finite subsequence that contains index i, and its size
  let mut size := 1
  let mut seq := 0
  for _ in [0:64] do
    if size ≥ i + 1 then break
    seq := seq + 1
    size := 2 * size + 1
  let mut x := i
  for _ in [0:64] do
    if size - 1 == x then break
    size := (size - 1) / 2
    seq := seq - 1
    x := x % size
  return Nat.pow 2 seq

/-- The search state. -/
structure Engine where
  nvars : Nat
  clauses : Array (Array Int)
  watches : Array (Array Nat)
  val : Array Int
  level : Array Nat
  reason : Array Int
  trail : Array Int
  trailLim : Array Nat
  qhead : Nat
  seen : Array Bool
  activity : Array Nat
  inc : Nat
  rank : Array Nat
  heap : Array Nat
  heapPos : Array Nat
  phase : Array Bool

namespace Engine

/-- The value of a literal: 1 true, -1 false, 0 unassigned. -/
@[inline] def litVal (e : Engine) (l : Int) : Int :=
  let v := e.val[l.natAbs]!
  if l > 0 then v else -v

/-- Whether variable `a` goes before variable `b` in the decision order. -/
@[inline] def before (e : Engine) (a b : Nat) : Bool :=
  let x := e.activity[a]!
  let y := e.activity[b]!
  x > y || (x == y && e.rank[a]! < e.rank[b]!)

/-- Moves the heap entry at position `i` up to its place. -/
def siftUp (e : Engine) (i : Nat) : Engine := Id.run do
  let mut heap := e.heap
  let mut pos := e.heapPos
  let v := heap[i]!
  let mut j := i
  for _ in [0:64] do
    if j == 0 then break
    let p := (j - 1) / 2
    let u := heap[p]!
    if e.before v u then
      heap := heap.set! j u
      pos := pos.set! u (j + 1)
      j := p
    else break
  heap := heap.set! j v
  pos := pos.set! v (j + 1)
  return { e with heap := heap, heapPos := pos }

/-- Moves the heap entry at position `i` down to its place. -/
def siftDown (e : Engine) (i : Nat) : Engine := Id.run do
  let mut heap := e.heap
  let mut pos := e.heapPos
  let n := heap.size
  let v := heap[i]!
  let mut j := i
  for _ in [0:64] do
    let l := 2 * j + 1
    if l ≥ n then break
    let r := l + 1
    let c := if r < n && e.before heap[r]! heap[l]! then r else l
    let u := heap[c]!
    if e.before u v then
      heap := heap.set! j u
      pos := pos.set! u (j + 1)
      j := c
    else break
  heap := heap.set! j v
  pos := pos.set! v (j + 1)
  return { e with heap := heap, heapPos := pos }

/-- Puts a variable back among the candidates for decision. -/
def insert (e : Engine) (v : Nat) : Engine :=
  if e.heapPos[v]! != 0 then e
  else
    let i := e.heap.size
    let e := { e with heap := e.heap.push v, heapPos := e.heapPos.set! v (i + 1) }
    e.siftUp i

/-- Takes the first variable of the decision order off the heap. -/
def popFirst (e : Engine) : Engine × Option Nat :=
  if e.heap.isEmpty then (e, none)
  else
    let v := e.heap[0]!
    let last := e.heap.back!
    let heap := e.heap.pop
    let e := { e with heap := heap, heapPos := e.heapPos.set! v 0 }
    if heap.isEmpty then (e, some v)
    else
      let e := { e with heap := e.heap.set! 0 last, heapPos := e.heapPos.set! last 1 }
      (e.siftDown 0, some v)

/-- Raises the activity of a variable. -/
def bump (e : Engine) (v : Nat) : Engine := Id.run do
  let mut e := { e with activity := e.activity.modify v (· + e.inc) }
  if e.activity[v]! > Nat.pow 2 200 then
    e := { e with activity := e.activity.map (· / Nat.pow 2 150), inc := e.inc / Nat.pow 2 150 + 1 }
  let p := e.heapPos[v]!
  if p != 0 then e := e.siftUp (p - 1)
  return e

/-- Makes a literal true, with the clause that forced it (or -1). -/
@[inline] def enqueue (e : Engine) (l : Int) (why : Int) : Engine :=
  let v := l.natAbs
  { e with
    val := e.val.set! v (if l > 0 then 1 else -1)
    level := e.level.set! v e.trailLim.size
    reason := e.reason.set! v why
    trail := e.trail.push l }

/-- Unit propagation from the queue; answers a conflicting clause if one
arises. -/
def propagate (e : Engine) : Engine × Option Nat := Id.run do
  let mut e := e
  for _ in [0:e.nvars + 2] do
    if e.qhead ≥ e.trail.size then break
    let p := e.trail[e.qhead]!
    e := { e with qhead := e.qhead + 1 }
    let fl := -p
    let wi := litIndex fl
    let ws := e.watches[wi]!
    e := { e with watches := e.watches.set! wi #[] }
    let mut keep : Array Nat := #[]
    let mut conflict : Option Nat := none
    for i in [0:ws.size] do
      let ci := ws[i]!
      if conflict.isSome then
        keep := keep.push ci
        continue
      let mut cl := e.clauses[ci]!
      if cl[0]! == fl then
        cl := (cl.set! 0 cl[1]!).set! 1 fl
      if e.litVal cl[0]! == 1 then
        e := { e with clauses := e.clauses.set! ci cl }
        keep := keep.push ci
        continue
      let mut found := false
      for k in [2:cl.size] do
        if e.litVal cl[k]! != -1 then
          let lk := cl[k]!
          cl := (cl.set! 1 lk).set! k fl
          e := { e with clauses := e.clauses.set! ci cl
                        watches := e.watches.modify (litIndex lk) (·.push ci) }
          found := true
          break
      if found then continue
      e := { e with clauses := e.clauses.set! ci cl }
      keep := keep.push ci
      if e.litVal cl[0]! == -1 then
        conflict := some ci
      else
        e := e.enqueue cl[0]! ci
    e := { e with watches := e.watches.modify wi (fun w => w ++ keep) }
    if conflict.isSome then
      return (e, conflict)
  return (e, none)

/-- The clause learnt from a conflict, its asserting literal first and a
literal of the jump-back level second, with that level. The variables met
are bumped. -/
def analyze (e : Engine) (confl : Nat) : Engine × Array Int × Nat := Id.run do
  let cur := e.trailLim.size
  let mut e := e
  let mut seen := e.seen
  let mut learnt : Array Int := #[0]
  let mut counter := 0
  let mut p : Int := 0
  let mut idx := e.trail.size
  let mut clause := e.clauses[confl]!
  let mut first := true
  for _ in [0:e.trail.size + 1] do
    for j in [(if first then 0 else 1):clause.size] do
      let q := clause[j]!
      let v := q.natAbs
      if !seen[v]! && e.level[v]! > 0 then
        seen := seen.set! v true
        e := e.bump v
        if e.level[v]! == cur then counter := counter + 1
        else learnt := learnt.push q
    first := false
    -- the most recent marked literal on the trail
    for _ in [0:e.trail.size] do
      if idx == 0 then break
      idx := idx - 1
      if seen[(e.trail[idx]!).natAbs]! then break
    p := e.trail[idx]!
    seen := seen.set! p.natAbs false
    counter := counter - 1
    if counter == 0 then break
    let r := e.reason[p.natAbs]!
    clause := if r ≥ 0 then e.clauses[r.toNat]! else #[]
  learnt := learnt.set! 0 (-p)
  for q in learnt do
    seen := seen.set! q.natAbs false
  -- the literal of the highest level after the first goes second
  let mut bt := 0
  let mut pos := 1
  for j in [1:learnt.size] do
    let lv := e.level[(learnt[j]!).natAbs]!
    if lv > bt then
      bt := lv
      pos := j
  if learnt.size > 2 then
    let tmp := learnt[1]!
    learnt := (learnt.set! 1 learnt[pos]!).set! pos tmp
  return ({ e with seen := seen, inc := e.inc + e.inc / 19 + 1 }, learnt, bt)

/-- Undoes every assignment above decision level `lv`, saving the phases. -/
def backtrack (e : Engine) (lv : Nat) : Engine := Id.run do
  if e.trailLim.size ≤ lv then return e
  let start := e.trailLim[lv]!
  let mut e := e
  for i in [start:e.trail.size] do
    let l := e.trail[i]!
    let v := l.natAbs
    e := { e with val := e.val.set! v 0, reason := e.reason.set! v (-1),
                  phase := e.phase.set! v (l > 0) }
    e := e.insert v
  return { e with trail := e.trail.extract 0 start, trailLim := e.trailLim.extract 0 lv,
                  qhead := start }

/-- The next unassigned variable in the decision order, if any. -/
def pick (e : Engine) : Engine × Option Nat := Id.run do
  let mut e := e
  for _ in [0:e.nvars + 1] do
    let (e2, v?) := e.popFirst
    e := e2
    match v? with
    | none => return (e, none)
    | some v => if e.val[v]! == 0 then return (e, some v)
  return (e, none)

/-- Adds a clause of two or more literals to the watch lists. -/
def attach (e : Engine) (lits : Array Int) : Engine × Nat :=
  let ci := e.clauses.size
  ({ e with clauses := e.clauses.push lits
            watches := (e.watches.modify (litIndex lits[0]!) (·.push ci)).modify
              (litIndex lits[1]!) (·.push ci) }, ci)

end Engine

/-- Searches for a model of `clauses` over variables `1 … nvars`. Among
equally active variables, those of `order` come first, in that order, and
the rest after them by number. -/
def solve (nvars : Nat) (clauses : Array (Array Int)) (order : Array Nat) (fuel : Nat) : Outcome := Id.run do
  let mut rank := Array.replicate (nvars + 1) (nvars + 1)
  let mut next := 0
  for v in order do
    if v ≥ 1 && v ≤ nvars && rank[v]! == nvars + 1 then
      rank := rank.set! v next
      next := next + 1
  for v in [1:nvars + 1] do
    if rank[v]! == nvars + 1 then
      rank := rank.set! v next
      next := next + 1
  let mut e : Engine := {
    nvars := nvars, clauses := #[], watches := Array.replicate (2 * nvars + 2) #[],
    val := Array.replicate (nvars + 1) 0, level := Array.replicate (nvars + 1) 0,
    reason := Array.replicate (nvars + 1) (-1), trail := #[], trailLim := #[], qhead := 0,
    seen := Array.replicate (nvars + 1) false, activity := Array.replicate (nvars + 1) 0,
    inc := Nat.pow 2 20, rank := rank, heap := #[], heapPos := Array.replicate (nvars + 1) 0,
    phase := Array.replicate (nvars + 1) false }
  -- the heap in rank order is already a heap
  let byRank := (Array.range nvars).map (· + 1) |>.qsort (fun a b => rank[a]! < rank[b]!)
  e := { e with heap := byRank,
                heapPos := byRank.zipIdx.foldl (fun p (v, i) => p.set! v (i + 1)) e.heapPos }
  let mut units : Array Int := #[]
  for c in clauses do
    let lits := c.foldl (fun (acc : Array Int) l => if acc.contains l then acc else acc.push l) #[]
    if lits.any (fun l => lits.contains (-l)) then continue
    if lits.size == 0 then return .unsat
    if lits.size == 1 then
      units := units.push lits[0]!
    else
      e := (e.attach lits).1
  for u in units do
    let v := e.litVal u
    if v == -1 then return .unsat
    if v == 0 then e := e.enqueue u (-1)
  let mut conflicts := 0
  let mut restarts := 0
  let mut budget := 64 * luby 1
  for _ in [0:fuel] do
    let (e1, confl) := e.propagate
    e := e1
    match confl with
    | some ci =>
      if e.trailLim.size == 0 then return .unsat
      let (e2, learnt, bt) := e.analyze ci
      e := e2.backtrack bt
      if learnt.size == 1 then
        e := e.enqueue learnt[0]! (-1)
      else
        let (e3, ci) := e.attach learnt
        e := e3.enqueue learnt[0]! ci
      conflicts := conflicts + 1
      if conflicts ≥ budget then
        restarts := restarts + 1
        conflicts := 0
        budget := 64 * luby (restarts + 1)
        e := e.backtrack 0
    | none =>
      let (e2, v?) := e.pick
      e := e2
      match v? with
      | none => return .sat (e.val.map (· == 1))
      | some v =>
        e := { e with trailLim := e.trailLim.push e.trail.size }
        e := e.enqueue (if e.phase[v]! then (v : Int) else -(v : Int)) (-1)
  return .unknown

end Sat
end SmtSynth
