import SmtSynth.Term.Basic
/-!
# SMT-LIB text of a term

Terms print as SMT-LIB s-expressions. Bit-vector numerals print in hex
(`#x0f`) when the width is a multiple of four and in binary (`#b101`)
otherwise; negative integers print as `(- 3)`; a name that is not a plain
SMT-LIB symbol is quoted with bars.

Nested applications of an associative symbol print as one application
(`(bvadd a (bvadd b c))` prints as `(bvadd a b c)`) unless the inner one is
shared. Deep or large shared subterms are named by `let`: a subterm whose
printed depth reaches five, or a shared one of weight ten or more, gets the
name `a!k`, numbered in the order the printer finishes them, and the whole
text becomes `(let ((a!1 ...)) body)` with one `let` per level of naming.
-/

namespace SmtSynth
namespace Sexp

/-- Whether a character may stand in an unquoted SMT-LIB symbol. -/
def plainSymbolChar (c : Char) : Bool :=
  c.isAlphanum || "~!@$%^&*_-+.?/<>=".contains c

/-- The SMT-LIB spelling of a name: bare if it is a plain symbol not starting
with a digit, otherwise between bars with `|` and `\` escaped. -/
def quoteName (s : String) : String :=
  let cs := s.toList
  let quoted := match cs with
    | c :: _ => c.isDigit || cs.any (fun c => !plainSymbolChar c)
    | [] => false
  if quoted then
    "|" ++ String.ofList (cs.flatMap (fun c => if c = '|' || c = '\\' then ['\\', c] else [c])) ++ "|"
  else s

/-- The digits of `v` in base `b`, most significant first, padded with zeros
to `n` digits. -/
def digitsPadded (b v n : Nat) : String :=
  let ds := Nat.toDigits b v
  String.ofList (List.replicate (n - ds.length) '0' ++ ds)

/-- The SMT-LIB text of a `w`-bit numeral. -/
def wordText (w v : Nat) : String :=
  if w % 4 = 0 then "#x" ++ digitsPadded 16 v (w / 4) else "#b" ++ digitsPadded 2 v w

/-- The SMT-LIB text of an integer numeral. -/
def intText (n : Int) : String :=
  if n < 0 then "(- " ++ toString n.natAbs ++ ")" else toString n

/-- The text of a leaf: a value or a named constant. -/
def leafText : Term → String
  | .lit b => if b then "true" else "false"
  | .num n => intText n
  | .word w v => wordText w v
  | .var n _ => quoteName n
  | .app f [] => f.smtName false
  | .app _ _ => ""

/-- The head of an application: the symbol's name, with its indices for
`extract`. -/
def headText (f : Fn) (args : List Term) : String :=
  match f with
  | .extract hi lo => "(_ extract " ++ toString hi ++ " " ++ toString lo ++ ")"
  | _ => f.smtName (match args with | a :: _ => a.sort.isBv | [] => false)

/-- What the printer knows of a printed subterm: the deepest naming level
it refers to, its weight (the nodes printed) and its printed depth. -/
structure Info where
  lvl : Nat
  weight : Nat
  depth : Nat

/-- A named subterm: its name, its text and its naming level. -/
structure Alias where
  term : Term
  name : String
  text : String
  lvl : Nat

/-- The naming state of one run of the printer. -/
structure Names where
  aliases : Array Alias := #[]
  next : Nat := 1

/-- Each distinct proper subterm with arguments, paired with the number of
argument positions of distinct terms where it stands. A subterm standing in
two or more positions is shared. -/
def occurrences (root : Term) : List (Term × Nat) :=
  let nodes := distinct root []
  nodes.filterMap fun t =>
    match t with
    | .app _ (_ :: _) =>
      some (t, nodes.foldl (fun n p =>
        match p with
        | .app _ args => n + args.count t
        | _ => n) 0)
    | _ => none
where
  distinct : Term → List Term → List Term
    | .app f args, acc =>
      let acc := args.attach.foldl (fun acc ⟨a, _⟩ => distinct a acc) acc
      if acc.contains (.app f args) then acc else acc ++ [.app f args]
    | t, acc => if acc.contains t then acc else acc ++ [t]
  termination_by t => t

/-- Whether a subterm is shared within the root. -/
def isShared (occ : List (Term × Nat)) (t : Term) : Bool :=
  match occ.find? (fun p => p.1 == t) with
  | some (_, n) => n ≥ 2
  | none => false

/-- The result of printing a subterm: one printed piece, or, for an
associative application folded into its parent, the pieces of its
arguments. -/
inductive Piece where
  | one (text : String) (info : Info)
  | many (items : List (String × Info))

/-- The printed pieces a parent receives from a child. -/
def Piece.items : Piece → List (String × Info)
  | one s i => [(s, i)]
  | many l => l

/-- Pieces for a term, naming deep or large shared subterms on the way. -/
def visit (root : Term) (occ : List (Term × Nat)) : Term → Option Fn → Names → Piece × Names
  | .app f (a :: as), parent, st =>
    match st.aliases.find? (fun x => x.term == .app f (a :: as)) with
    | some al => (.one al.name ⟨al.lvl + 1, 1, 1⟩, st)
    | none =>
      let t := Term.app f (a :: as)
      let (items, st) := (a :: as).attach.foldl (fun (acc : List (String × Info) × Names) ⟨c, _⟩ =>
        let (p, st) := visit root occ c (some f) acc.2
        (acc.1 ++ p.items, st)) ([], st)
      if f.isAssociative && parent == some f && !isShared occ t then
        (.many items, st)
      else
        let text := "(" ++ headText f (a :: as) ++ String.join (items.map (" " ++ ·.1)) ++ ")"
        let info : Info := ⟨items.foldl (fun m p => max m p.2.lvl) 0,
          1 + (items.map (·.2.weight)).foldl (· + ·) 0, 1 + items.foldl (fun m p => max m p.2.depth) 0⟩
        if t != root && (info.depth ≥ 5 || (info.weight ≥ 10 && isShared occ t)) then
          let name := "a!" ++ toString st.next
          (.one name ⟨info.lvl + 1, 1, 1⟩,
            { aliases := st.aliases.push ⟨t, name, text, info.lvl⟩, next := st.next + 1 })
        else (.one text info, st)
  | t, _, st => (.one (leafText t) ⟨0, 1, 1⟩, st)
  termination_by t => t

/-- The `let` bindings of one naming level. -/
def letLevel (defs : List Alias) : String :=
  "(let (" ++ String.intercalate "\n      " (defs.map (fun d => "(" ++ d.name ++ " " ++ d.text ++ ")")) ++ ")"

end Sexp

/-- The SMT-LIB text of a term. -/
def Term.toSexp (t : Term) : String :=
  let occ := Sexp.occurrences t
  let (p, st) := Sexp.visit t occ t none {}
  let body := match p with
    | .one s _ => s
    | .many l => String.intercalate " " (l.map (·.1))
  let maxLvl := st.aliases.foldl (fun m a => max m a.lvl) 0
  let levels := (List.range (maxLvl + 1)).filterMap fun l =>
    match st.aliases.toList.filter (·.lvl == l) with
    | [] => none
    | defs => some (Sexp.letLevel defs)
  match levels with
  | [] => body
  | _ => String.intercalate "\n" levels ++ "\n  " ++ body ++ String.ofList (List.replicate levels.length ')')

end SmtSynth
