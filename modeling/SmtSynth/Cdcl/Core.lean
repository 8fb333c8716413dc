import SmtSynth.Cdcl.Basic
/-!
# The clause core of the incremental search

The core holds the assignment, the trail of assigned literals with its
decision levels, the clauses and their watches, and the decision heaps. It
does everything of the search that does not look at what variables mean:
unit propagation, the analysis of a conflict into a learnt clause, the
choice of the next decision and the clean-up of clauses satisfied at the
base level. The bit-vector theory sits beside it and is called between
propagation rounds.

Clauses come in two kinds. Auxiliary clauses (gate definitions, facts and
theory axioms) are sorted by literal, cleared of false and repeated literals
before they are stored, and dropped when the level they were made at is
left. Learnt clauses stay, and their second watch is the literal assigned
last. A two-literal clause made at the base level, or learnt, is not stored:
each literal goes into the other's binary watch list, and binary watches are
visited before clause watches.

Variables made while a search runs go to a second heap, which becomes the
decision heap only when the first runs dry. Each decision first draws a
random number and, one time in a hundred, tries a variable picked at random.
The value tried for a decision is the one the variable last had, as long as
no conflict at its level erased that memory and phase memory is on; phase
memory switches off after 400 conflicts and back on after another 100.
-/

namespace SmtSynth
namespace Cdcl

/-- A stored clause. -/
structure Clause where
  lits : Array Lit
  learned : Bool
  deleted : Bool := false
  deriving Inhabited

/-- What a decision level remembers about the level below it. -/
structure Scope where
  trailLim : Nat
  auxLim : Nat
  theoryMark : Nat
  deriving Inhabited

/-- A conflict: its reason, and the true literal whose negation the reason
demands when the conflict comes from a propagation. -/
structure Conflict where
  reason : Reason
  lit : Option Lit
  deriving Inhabited

/-- The state of the clause core. -/
structure Core where
  act : Array Float := #[]
  value : Array LBool := #[]
  level : Array Nat := #[]
  reason : Array Reason := #[]
  phase : Array Bool := #[]
  phaseKnown : Array Bool := #[]
  internLevel : Array Nat := #[]
  isAtom : Array Bool := #[]
  binWatch : Array (Array Lit) := #[]
  clauseWatch : Array (Array Nat) := #[]
  clauses : Array Clause := #[]
  aux : Array Nat := #[]
  lemmas : Array Nat := #[]
  trail : Array Lit := #[]
  scopes : Array Scope := #[]
  qhead : Nat := 0
  inc : Float := 1.0
  queue : Heap := {}
  delayed : Heap := {}
  searching : Bool := false
  conflict : Option Conflict := none
  simpHead : Nat := 0
  simpCounter : Int := 0
  phaseCacheOn : Bool := true
  phaseCounter : Nat := 0
  conflicts : Nat := 0
  atomQueue : Array Lit := #[]
  rand : Lcg := {}
  deriving Inhabited

namespace Core

/-- The number of variables. -/
def numVars (c : Core) : Nat := c.value.size

/-- The current decision level. -/
def scopeLevel (c : Core) : Nat := c.scopes.size

/-- The value of a literal. -/
def litValue (c : Core) (l : Lit) : LBool :=
  match c.value[l.var]!, l.negated with
  | .unset, _ => .unset
  | .tt, false | .ff, true => .tt
  | _, _ => .ff

/-- Whether a literal is true. -/
def isTrue (c : Core) (l : Lit) : Bool := c.litValue l == .tt

/-- Whether a literal is false. -/
def isFalse (c : Core) (l : Lit) : Bool := c.litValue l == .ff

/-- Whether a literal is unassigned. -/
def isUnset (c : Core) (l : Lit) : Bool := c.litValue l == .unset

/-- Draws a random number. -/
def draw (c : Core) : Nat × Core :=
  let (r, g) := c.rand.next
  (r, { c with rand := g })

/-- A fresh variable, unassigned, with zero activity. It joins the decision
heap, or the second heap while a search runs. -/
def mkVar (c : Core) : Nat × Core :=
  let v := c.numVars
  let act := c.act.push 0.0
  let c := { c with
    act := act
    value := c.value.push .unset
    level := c.level.push 0
    reason := c.reason.push .none
    phase := c.phase.push false
    phaseKnown := c.phaseKnown.push false
    internLevel := c.internLevel.push c.scopeLevel
    isAtom := c.isAtom.push false
    binWatch := (c.binWatch.push #[]).push #[]
    clauseWatch := (c.clauseWatch.push #[]).push #[] }
  if c.searching then (v, { c with delayed := c.delayed.insert act v })
  else (v, { c with queue := c.queue.insert act v })

/-- The core with variable `0` made and assigned true at the base level. -/
def init : Core :=
  let (_, c) := ({} : Core).mkVar
  { c with value := c.value.set! 0 .tt, reason := c.reason.set! 0 .base }

/-- Marks a variable as one the theory wants to hear about. -/
def markAtom (c : Core) (v : Nat) : Core := { c with isAtom := c.isAtom.set! v true }

/-- Assigns a literal true at the current level. -/
def assign (c : Core) (l : Lit) (r : Reason) : Core :=
  let v := l.var
  { c with
    trail := c.trail.push l
    value := c.value.set! v (if l.negated then .ff else .tt)
    reason := c.reason.set! v r
    level := c.level.set! v c.scopeLevel
    phaseKnown := c.phaseKnown.set! v true
    phase := c.phase.set! v (!l.negated)
    atomQueue := if c.isAtom[v]! then c.atomQueue.push l else c.atomQueue }

/-- Records a conflict, unless one is recorded already. -/
def setConflict (c : Core) (r : Reason) (l : Option Lit := none) : Core :=
  if c.conflict.isSome then c else { c with conflict := some ⟨r, l⟩ }

/-- Watches literal `i` of a stored clause. -/
def addWatch (c : Core) (cid i : Nat) : Core :=
  let w := c.clauses[cid]!.lits[i]!.neg.idx
  { c with clauseWatch := c.clauseWatch.modify w (·.push cid) }

/-- The literals of an auxiliary clause sorted, without false and repeated
ones; `none` when the clause is true already. -/
def simplifyAux (c : Core) (lits : Array Lit) : Option (Array Lit) := Id.run do
  let sorted := lits.qsort (fun a b => a.idx < b.idx)
  let mut out : Array Lit := #[]
  let mut prev : Option Lit := none
  for l in sorted do
    match c.litValue l with
    | .tt => return none
    | .ff => continue
    | .unset =>
      if prev == some l.neg then return none
      if prev != some l then
        out := out.push l
        prev := some l
  return some out

/-- Adds a clause, auxiliary or learnt, propagating or recording a conflict
when it is unit or false. -/
def mkClause (c : Core) (lits : Array Lit) (learned : Bool) : Core :=
  let lits? := if learned then some lits else c.simplifyAux lits
  match lits? with
  | none => c
  | some lits =>
    match lits.size with
    | 0 => c.setConflict .base
    | 1 => c.assign lits[0]! .base
    | n =>
      let l1 := lits[0]!
      let l2 := lits[1]!
      if n == 2 && (learned || c.scopeLevel == 0) && c.internLevel[l1.var]! == 0
          && c.internLevel[l2.var]! == 0 then
        let c := { c with binWatch := (c.binWatch.modify l1.neg.idx (·.push l2)).modify l2.neg.idx (·.push l1) }
        if c.isFalse l2 then c.assign l1 (.binary l2)
        else if c.isFalse l1 then c.assign l2 (.binary l1)
        else c
      else
        let lits := if learned then Id.run do
            let mut best := 1
            let mut bl := c.level[lits[1]!.var]!
            for i in [2:n] do
              let lv := c.level[lits[i]!.var]!
              if lv > bl then
                best := i
                bl := lv
            return (lits.set! 1 lits[best]!).set! best lits[1]!
          else lits
        let cid := c.clauses.size
        let c := { c with clauses := c.clauses.push { lits := lits, learned := learned } }
        let c := if learned then { c with lemmas := c.lemmas.push cid } else { c with aux := c.aux.push cid }
        let c := (c.addWatch cid 0).addWatch cid 1
        if c.isFalse lits[0]! then c.setConflict (.clause cid)
        else if c.isFalse lits[1]! then c.assign lits[0]! (.clause cid)
        else c

/-- Visits the clauses watching the negation of a literal that just became
true: each finds another watch, propagates its first literal, or is false. -/
def visitClauses (c : Core) (l : Lit) : Core × Bool := Id.run do
  let notL := l.neg
  let w := c.clauseWatch[l.idx]!
  let mut c := { c with clauseWatch := c.clauseWatch.set! l.idx #[] }
  let mut keep : Array Nat := #[]
  for i in [0:w.size] do
    let cid := w[i]!
    let cl := c.clauses[cid]!
    if cl.deleted then continue
    let lits := if cl.lits[0]! == notL then (cl.lits.set! 0 cl.lits[1]!).set! 1 notL else cl.lits
    let first := lits[0]!
    let fv := c.litValue first
    if fv == .tt then
      c := { c with clauses := c.clauses.set! cid { cl with lits := lits } }
      keep := keep.push cid
      continue
    let mut found : Option Nat := none
    for k in [2:lits.size] do
      if !c.isFalse lits[k]! then
        found := some k
        break
    match found with
    | some k =>
      let nw := lits[k]!
      let lits := (lits.set! 1 nw).set! k notL
      c := { c with clauses := c.clauses.set! cid { cl with lits := lits } }
      c := { c with clauseWatch := c.clauseWatch.modify nw.neg.idx (·.push cid) }
    | none =>
      c := { c with clauses := c.clauses.set! cid { cl with lits := lits } }
      if fv == .ff then
        keep := keep.push cid ++ w.extract (i + 1) w.size
        c := { c with clauseWatch := c.clauseWatch.modify l.idx (fun cur => keep ++ cur) }
        return (c.setConflict (.clause cid), false)
      keep := keep.push cid
      c := c.assign first (.clause cid)
  return ({ c with clauseWatch := c.clauseWatch.modify l.idx (fun cur => keep ++ cur) }, true)

/-- Unit propagation from the queue head to the end of the trail; `false`
on a conflict. -/
def bcp (c : Core) : Core × Bool :=
  let rec go (fuel : Nat) (c : Core) : Core × Bool :=
    match fuel with
    | 0 => (c, true)
    | fuel + 1 =>
      if c.qhead ≥ c.trail.size then (c, true)
      else
        let l := c.trail[c.qhead]!
        let c := { c with qhead := c.qhead + 1, simpCounter := c.simpCounter - 1 }
        let notL := l.neg
        let bins := c.binWatch[l.idx]!
        let rec bin (i : Nat) (c : Core) (fuel : Nat) : Core × Bool :=
          match fuel with
          | 0 => (c, true)
          | fuel + 1 =>
            if i ≥ bins.size then (c, true)
            else
              let l2 := bins[i]!
              match c.litValue l2 with
              | .ff => (c.setConflict (.binary notL) (some l2.neg), false)
              | .unset => bin (i + 1) (c.assign l2 (.binary notL)) fuel
              | .tt => bin (i + 1) c fuel
        match bin 0 c (bins.size + 1) with
        | (c, false) => (c, false)
        | (c, true) =>
          match c.visitClauses l with
          | (c, false) => (c, false)
          | (c, true) => go fuel c
  go (c.numVars + 1) c

/-- Opens a decision level. -/
def pushScope (c : Core) (theoryMark : Nat) : Core :=
  { c with scopes := c.scopes.push ⟨c.trail.size, c.aux.size, theoryMark⟩ }

/-- Removes a stored clause from the watch lists of its two watches. -/
def unwatch (c : Core) (cid : Nat) : Core :=
  let cl := c.clauses[cid]!
  let drop := fun (c : Core) (i : Nat) =>
    let w := cl.lits[i]!.neg.idx
    match c.clauseWatch[w]!.idxOf? cid with
    | some j => { c with clauseWatch := c.clauseWatch.modify w (·.eraseIdx! j) }
    | none => c
  drop (drop c 0) 1

/-- Leaves `n` decision levels: the auxiliary clauses made in them are
deleted, the literals assigned in them unassigned (last first, each going
back to the decision heap), and the theory mark of the level returned to is
answered. -/
def popScope (c : Core) (n : Nat) : Core × Option Nat :=
  if n == 0 then (c, none)
  else
    let newLvl := c.scopeLevel - n
    let sc := c.scopes[newLvl]!
    let c := (c.aux.extract sc.auxLim c.aux.size).foldl (fun (c : Core) cid =>
      let c := c.unwatch cid
      { c with clauses := c.clauses.modify cid ({ · with deleted := true }) }) c
    let c := { c with aux := c.aux.extract 0 sc.auxLim }
    let c := (List.range (c.trail.size - sc.trailLim)).foldl (fun (c : Core) k =>
      let l := c.trail[c.trail.size - 1 - k]!
      let v := l.var
      let c := { c with value := c.value.set! v .unset, reason := c.reason.set! v .none }
      if c.queue.contains v then c else { c with queue := c.queue.insert c.act v }) c
    ({ c with
        trail := c.trail.extract 0 sc.trailLim
        qhead := sc.trailLim
        scopes := c.scopes.extract 0 newLvl
        conflict := none
        atomQueue := #[] }, some sc.theoryMark)

/-- Raises the activity of a variable. -/
def bump (c : Core) (v : Nat) : Core :=
  let a := c.act[v]! + c.inc
  let c := if a > 1e100 then
      { c with act := (c.act.set! v a).map (· * 1e-100), inc := c.inc * 1e-100 }
    else { c with act := c.act.set! v a }
  { c with queue := c.queue.increased c.act v, delayed := c.delayed.increased c.act v }

/-- The false literals a reason rests on, leaving out variable `skip`. -/
def antecedents (c : Core) (r : Reason) (skip : Option Nat := none) : Array Lit :=
  match r with
  | .clause cid => c.clauses[cid]!.lits.filter (fun l => some l.var != skip)
  | .binary l => #[l]
  | .theory ants => ants.map Lit.neg
  | _ => #[]

/-- Drops from a learnt clause the literals implied by the others: a
literal goes when every path back through the reasons of its variable ends
at marked variables or the base level, and only visits levels that some
literal of the clause has (as seen through the level modulo 32). -/
def minimize (c : Core) (learnt : Array Lit) (marked : Array Bool) : Array Lit := Id.run do
  let levels := learnt.map (fun l => c.level[l.var]! % 32)
  let mut mk := marked
  let mut out : Array Lit := #[learnt[0]!]
  for l in learnt.extract 1 learnt.size do
    let mut stack : Array Nat := #[l.var]
    let mut added : Array Nat := #[]
    let mut ok := true
    for _ in [0:c.numVars + 1] do
      if !ok || stack.isEmpty then break
      let v := stack.back!
      stack := stack.pop
      match c.reason[v]! with
      | .none | .base | .decision => ok := false
      | r =>
        for a in c.antecedents r (some v) do
          let u := a.var
          if mk[u]! || c.level[u]! == 0 then continue
          if levels.contains (c.level[u]! % 32) then
            mk := mk.set! u true
            added := added.push u
            stack := stack.push u
          else
            ok := false
            break
    if !ok then
      for u in added do
        mk := mk.set! u false
      out := out.push l
  return out

/-- The analysis of the recorded conflict: the learnt clause, its first
literal the negation of the first unique implication point, and the level to
jump back to; `none` when the conflict is at the base level. Variables met
are bumped, and phases assigned at the conflict level are forgotten. -/
def analyze (c : Core) : Core × Option (Array Lit × Nat) := Id.run do
  let some conf := c.conflict | return (c, none)
  let mut c := { c with conflicts := c.conflicts + 1 }
  let head := if c.scopeLevel == 0 then 0 else c.scopes.back!.trailLim
  for l in c.trail.extract head c.trail.size do
    c := { c with phaseKnown := c.phaseKnown.set! l.var false }
  c := { c with phaseCounter := c.phaseCounter + 1 }
  if c.phaseCacheOn && c.phaseCounter ≥ 400 then
    c := { c with phaseCounter := 0, phaseCacheOn := false }
  else if !c.phaseCacheOn && c.phaseCounter ≥ 100 then
    c := { c with phaseCounter := 0, phaseCacheOn := true }
  let mut lvls := (c.antecedents conf.reason).map (fun l => c.level[l.var]!)
  if let some l := conf.lit then lvls := lvls.push c.level[l.var]!
  let clvl := lvls.foldl max 0
  if clvl == 0 then return (c, none)
  let mut marked : Array Bool := Array.replicate c.numVars false
  let mut learnt : Array Lit := #[Lit.tt]
  let mut numMarks := 0
  let mut idx := c.trail.size - 1
  for _ in [0:c.trail.size] do
    if c.level[c.trail[idx]!.var]! > clvl && idx > 0 then idx := idx - 1 else break
  let mut todo : Array Lit := #[]
  if let some l := conf.lit then todo := todo.push l
  let mut js := conf.reason
  let mut consequent : Option Lit := conf.lit.map Lit.neg
  for _ in [0:c.trail.size + 1] do
    match js with
    | .clause cid =>
      let ls := c.clauses[cid]!.lits
      let start := match consequent with
        | none => 0
        | some q => if ls[0]! == q then 1 else 2
      if let some q := consequent then
        if ls[0]! != q then todo := todo.push ls[0]!.neg
      for k in [start:ls.size] do
        todo := todo.push ls[k]!.neg
    | .binary l => todo := todo.push l.neg
    | .theory ants => todo := todo ++ ants
    | _ => pure ()
    for ante in todo do
      let v := ante.var
      let lv := c.level[v]!
      if !marked[v]! && lv > 0 then
        marked := marked.set! v true
        c := c.bump v
        if lv == clvl then numMarks := numMarks + 1
        else learnt := learnt.push ante.neg
    todo := #[]
    for _ in [0:c.trail.size] do
      if !marked[c.trail[idx]!.var]! && idx > 0 then idx := idx - 1 else break
    let q := c.trail[idx]!
    consequent := some q
    js := c.reason[q.var]!
    idx := idx - 1
    numMarks := numMarks - 1
    marked := marked.set! q.var false
    if numMarks == 0 then break
  let uip := consequent.getD Lit.tt
  learnt := learnt.set! 0 uip.neg
  if learnt.size > 1 then learnt := c.minimize learnt marked
  let newLvl := (learnt.extract 1 learnt.size).foldl (fun m l => max m c.level[l.var]!) 0
  return (c, some (learnt, newLvl))

/-- The next decision variable from the decision heap: one time in a
hundred an unassigned variable picked at random, otherwise the first
unassigned variable of the heap, the others met on the way being removed. -/
def nextFrom (c : Core) : Option Nat × Core := Id.run do
  let (r, c) := c.draw
  let mut c := c
  if r < 327 then
    let (r2, c2) := c.draw
    c := c2
    let n := r2 % c.numVars
    if c.isUnset (Lit.ofVar n) then return (some n, c)
  for _ in [0:c.numVars + 1] do
    if c.queue.isEmpty then break
    let (v, q) := c.queue.eraseMin c.act
    c := { c with queue := q }
    if c.isUnset (Lit.ofVar v) then return (some v, c)
  return (none, c)

/-- Makes the next decision, opening a level; `false` when every variable
is assigned. -/
def decide (c : Core) (theoryMark : Nat) : Core × Bool :=
  let (nxt, c) := c.nextFrom
  let (nxt, c) := match nxt with
    | some v => (some v, c)
    | none => { c with queue := c.delayed, delayed := c.queue }.nextFrom
  match nxt with
  | none => (c, false)
  | some v =>
    let c := c.pushScope theoryMark
    let pos := c.phaseCacheOn && c.phaseKnown[v]! && c.phase[v]!
    (c.assign (Lit.ofVar v (!pos)) .decision, true)

/-- Deletes the clauses satisfied at the base level and drops false
literals beyond the watches, when enough propagation happened since the
last time. -/
def simplifyClauses (c : Core) : Core := Id.run do
  if c.scopeLevel > 0 then return c
  if c.simpHead == c.trail.size || c.simpCounter > 0 then return c
  let mut c := { c with simpCounter := 0, simpHead := c.trail.size }
  for lemmas in [false, true] do
    let ids := if lemmas then c.lemmas else c.aux
    let mut keep : Array Nat := #[]
    for cid in ids do
      let cl := c.clauses[cid]!
      if cl.deleted then continue
      if cl.lits.any (c.isTrue ·) then
        c := c.unwatch cid
        for i in [0:2] do
          let v := cl.lits[i]!.var
          match c.reason[v]! with
          | .clause j => if j == cid then c := { c with reason := c.reason.set! v .base }
          | _ => pure ()
        c := { c with clauses := c.clauses.modify cid ({ · with deleted := true }) }
        continue
      let lits := cl.lits.extract 0 2 ++ (cl.lits.extract 2 cl.lits.size).filter (!c.isFalse ·)
      c := { c with clauses := c.clauses.set! cid { cl with lits := lits }, simpCounter := c.simpCounter + lits.size }
      keep := keep.push cid
    c := if lemmas then { c with lemmas := keep } else { c with aux := keep }
  return c

end Core
end Cdcl
end SmtSynth
