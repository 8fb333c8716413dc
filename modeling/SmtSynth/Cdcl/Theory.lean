import SmtSynth.Cdcl.Internalize
/-!
# The bit-vector theory at work

The theory hears of every assignment to a variable it watches. An equation
atom assigned true queues the equation of its two terms; assigned false, it
queues their disequation. A bit assigned anywhere is copied to the same
position of every other member of its theory variable's class, each copy
justified by the bit it copies.

A queued equation merges the classes of the equality graph, joins the two
theory variables' classes (the smaller under the larger) and copies every
assigned bit across; afterwards every equation atom whose sides are now in
one class is true. A queued disequation, unless some position holds a
literal on one side and its negation on the other, becomes the clause "the
equation holds, or at some position the two bits differ", each difference
being an exclusive-or gate.

Leaving a decision level undoes the theory's records of that level, last
first, and empties its queues.
-/

namespace SmtSynth
namespace Cdcl
namespace Smt

/-- The root of a theory variable's class. -/
def find (w : Words) (t : Nat) : Nat :=
  let rec go (fuel t : Nat) : Nat :=
    match fuel with
    | 0 => t
    | fuel + 1 => if w.parent[t]! == t then t else go fuel w.parent[t]!
  go (w.parent.size + 1) t

/-- Assigns a bit copied from another member of its class; a copy onto the
constant false literal, or onto a false literal, is a conflict. -/
def assignBit (cons : Lit) (t2 idx : Nat) (ante : Lit) : SmtM Unit := do
  if cons == Lit.ff then
    onCore (·.setConflict (.theory #[ante]))
    return
  if (← get).core.isFalse cons then
    onCore (·.setConflict (.theory #[ante]) (some cons.neg))
    return
  onCore (·.assign cons (.theory #[ante]))
  if (← get).words.wpos[t2]! == idx then findWpos t2

/-- Copies the bits at the queued positions to the other members of their
classes. -/
def propagateBits : SmtM Unit := do
  let fuel := (← get).core.numVars * 4 + 16
  let mut i := 0
  for _ in [0:fuel] do
    let s ← get
    if i ≥ s.words.propQueue.size then break
    let (t, idx) := s.words.propQueue[i]!
    i := i + 1
    if s.words.wpos[t]! == idx then findWpos t
    let s ← get
    let bit := (s.words.bits[t]!)[idx]!
    let val := s.core.litValue bit
    if val == .unset then continue
    let mut t2 := s.words.next[t]!
    for _ in [0:s.words.terms.size] do
      if t2 == t then break
      let s ← get
      let bit2 := (s.words.bits[t2]!)[idx]!
      let val2 := s.core.litValue bit2
      if val != val2 then
        let cons := if val == .tt then bit2 else bit2.neg
        let ante := if val == .tt then bit else bit.neg
        assignBit cons t2 idx ante
        if (← get).core.conflict.isSome then
          onWords fun w => { w with propQueue := #[] }
          return
        if val2 == .unset then
          onWords fun w => { w with propQueue := w.propQueue.push (t2, idx) }
      t2 := (← get).words.next[t2]!
  onWords fun w => { w with propQueue := #[] }

/-- A bit variable was assigned: every position it occupies is queued. -/
def bitAssigned (v : Nat) : SmtM Unit := do
  onWords fun w => { w with propQueue := w.occs.getD v #[] }
  propagateBits

/-- Joins the classes of two theory variables, the smaller under the
larger, and copies assigned bits between them until they agree. -/
def mergeWords (v1 v2 : Nat) : SmtM Unit := do
  let w := (← get).words
  let r1 := find w v1
  let r2 := find w v2
  if r1 == r2 then return
  let (r1, r2, v1, v2) := if w.size[r1]! > w.size[r2]! then (r2, r1, v2, v1) else (r1, r2, v1, v2)
  let b1 := w.bits[v2]!
  let b2 := w.bits[v1]!
  onWords fun w =>
    let n1 := w.next[r1]!
    let n2 := w.next[r2]!
    { w with
      parent := w.parent.set! r1 r2
      size := w.size.set! r2 (w.size[r2]! + w.size[r1]!)
      next := (w.next.set! r1 n2).set! r2 n1
      trail := w.trail.push (.union r1 r2) }
  for _ in [0:b1.size + 1] do
    let mut changed := false
    for idx in [0:b1.size] do
      let s ← get
      let x := b1[idx]!
      let y := b2[idx]!
      let vx := s.core.litValue x
      let vy := s.core.litValue y
      if vx == vy then continue
      changed := true
      if vx != .unset then
        assignBit (if vx == .tt then y else y.neg) v1 idx (if vx == .tt then x else x.neg)
      else
        assignBit (if vy == .tt then x else x.neg) v2 idx (if vy == .tt then y else y.neg)
      if (← get).core.conflict.isSome then return
    if !changed then break

/-- Learns the equation of two theory variables: the equality graph and the
bit classes merge, and equation atoms whose sides became one class are
assigned true (or conflict when false). -/
def addEq (ta tb : Nat) (ants : Array Lit) : SmtM Unit := do
  let w := (← get).words
  let ra := w.root[ta]!
  let rb := w.root[tb]!
  if ra == rb then return
  let (ra, rb) := if w.members[ra]!.size > w.members[rb]!.size then (rb, ra) else (ra, rb)
  let moved := w.members[ra]!
  onWords fun w =>
    { w with
      root := moved.foldl (fun r m => r.set! m rb) w.root
      members := (w.members.set! rb (w.members[rb]! ++ moved)).set! ra #[]
      trail := w.trail.push (.merge ra rb moved) }
  mergeWords ta tb
  if (← get).core.conflict.isSome then return
  for (v, x, y) in (← get).words.eqAtoms do
    let s ← get
    if s.words.root[x]! == s.words.root[y]! then
      match s.core.litValue (Lit.ofVar v) with
      | .unset => onCore (·.assign (Lit.ofVar v) (.theory ants))
      | .ff =>
        onCore (·.setConflict (.theory ants) (some (Lit.ofVar v true)))
        return
      | .tt => pure ()

/-- The literal of the equation atom of two theory variables, made if there
is none with the sides in this order. -/
def eqLit (ta tb : Nat) : SmtM Lit := do
  let s ← get
  match s.words.eqAtoms.find? (fun (_, x, y) => x == ta && y == tb) with
  | some (v, _, _) => return Lit.ofVar v
  | none =>
    let g ← gate (Gates.make .eq #[] (.terms s.words.terms[ta]! s.words.terms[tb]!))
    internalize g
    litOfGate g

/-- Expands the disequation of two theory variables into a clause. -/
def expandDiseq (v1 v2 : Nat) : SmtM Unit := do
  let s ← get
  let b1 := s.words.bits[v1]!
  let b2 := s.words.bits[v2]!
  if (List.range b1.size).any (fun i => b1[i]! == b2[i]!.neg) then return
  let eq ← eqLit v1 v2
  let mut lits := #[eq]
  for i in [0:b1.size] do
    let x ← gateOfLit b1[i]!
    let y ← gateOfLit b2[i]!
    let d ← gate (Gates.mkXor x y)
    internalize d
    lits := lits.push (← litOfGate d)
  clause lits

/-- Works off the queued equations, then the queued disequations, until
both queues are empty or there is a conflict. -/
def propagatePending : SmtM Unit := do
  for _ in [0:(← get).core.numVars * 4 + 64] do
    let s ← get
    if s.core.conflict.isSome then return
    if h : 0 < s.words.pendingEqs.size then
      let (ta, tb, ants) := s.words.pendingEqs[0]
      onWords fun w => { w with pendingEqs := w.pendingEqs.extract 1 w.pendingEqs.size }
      addEq ta tb ants
    else if h : 0 < s.words.pendingDiseqs.size then
      let (ta, tb) := s.words.pendingDiseqs[0]
      onWords fun w => { w with pendingDiseqs := w.pendingDiseqs.extract 1 w.pendingDiseqs.size }
      expandDiseq ta tb
    else return

/-- The theory hears that a watched literal became true. -/
def assigned (l : Lit) : SmtM Unit := do
  let v := l.var
  match (← get).words.eqAtomOf.get? v with
  | some (ta, tb) =>
    if l.negated then
      let w := (← get).words
      if w.root[ta]! != w.root[tb]! then
        onWords fun w => { w with pendingDiseqs := w.pendingDiseqs.push (ta, tb) }
    else
      onWords fun w => { w with pendingEqs := w.pendingEqs.push (ta, tb, #[l]) }
    propagatePending
    if (← get).words.occs.contains v && (← get).core.conflict.isNone then bitAssigned v
  | none =>
    if (← get).words.occs.contains v then bitAssigned v

/-- Whether the theory has queued work. -/
def hasPending (s : Smt) : Bool :=
  !s.words.pendingEqs.isEmpty || !s.words.pendingDiseqs.isEmpty

/-- Undoes the theory's records back to a mark, last first. -/
def popWords (mark : Nat) : SmtM Unit := onWords fun w => Id.run do
  let mut w := w
  for _ in [0:w.trail.size - mark] do
    let u := w.trail.back!
    w := { w with trail := w.trail.pop }
    match u with
    | .union r1 r2 =>
      let n1 := w.next[r1]!
      let n2 := w.next[r2]!
      w := { w with
        parent := w.parent.set! r1 r1
        size := w.size.set! r2 (w.size[r2]! - w.size[r1]!)
        next := (w.next.set! r1 n2).set! r2 n1 }
    | .merge ra rb moved =>
      let rest := w.members[rb]!
      w := { w with
        root := moved.foldl (fun r m => r.set! m ra) w.root
        members := (w.members.set! rb (rest.extract 0 (rest.size - moved.size))).set! ra moved }
    | .fixed key old =>
      w := { w with fixed := match old with
        | some t => w.fixed.insert key t
        | none => w.fixed.erase key }
    | .wpos t old => w := { w with wpos := w.wpos.set! t old }
  return { w with propQueue := #[], pendingEqs := #[], pendingDiseqs := #[] }

end Smt
end Cdcl
end SmtSynth
