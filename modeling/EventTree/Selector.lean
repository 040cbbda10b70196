import EventTree.Error
import EventTree.Text.Alphabet

/-!
# Selectors

A selector names nodes by the steps that lead to them from a given node. Each step follows a slash:
`..` is the root of the tree, `.` the parent, `*` the children, `**` all descendants, `#` the node held
in the value, `-` and `+` the siblings before and after, `[1]` or `[0,2]` a range of the nodes found so
far, `@name` the nearest node upwards with that name, `=text` keeps the nodes whose value reads as
that text, and anything else names children. A last `?node`, `?value`, `?name` or `?count` says what
is wanted of the nodes found.
-/

namespace EventTree

inductive Step where
  | root
  | parent
  | children
  | descendants
  | reference
  | previous
  | next
  | range (start stop : Nat)
  | ancestor (name : String)
  | valueIs (text : String)
  | named (name : String)
  deriving DecidableEq, Repr

/-- What is wanted of the nodes found. -/
inductive MatchKind where
  | node
  | value
  | name
  | count
  deriving DecidableEq, Repr

namespace MatchKind

def text : MatchKind → String
  | node => "node"
  | value => "value"
  | name => "name"
  | count => "count"

def all : List MatchKind := [node, value, name, count]

def ofText? (s : String) : Option MatchKind := all.find? fun kind => kind.text == s

end MatchKind

structure Selector where
  source : String
  steps : List Step
  kind : MatchKind
  deriving DecidableEq, Repr

/-! ## Indices -/

namespace Step

/-- Decimal digits only, and small enough for a 64-bit index. -/
def index? (cs : List Char) : Option Nat :=
  if cs = [] ∨ ¬ cs.all Char.isDigit then none
  else
    let n := cs.foldl (fun n c => 10 * n + (c.toNat - '0'.toNat)) 0
    if n < UInt64.size then some n else none

/-- The index after another. Indices have 64 bits, so the one after the last is zero. -/
def nextIndex (n : Nat) : Nat := (n + 1) % UInt64.size

end Step

namespace Selector

/-! ## Readers

A reader takes something from the front of a text and leaves the rest, or finds nothing there. -/

/-- Slashes and question marks end a step. -/
def isText (c : Char) : Bool := c != '/' && c != '?'

/-- Whether a step ends before this text. -/
def endsStep (cs : List Char) : Bool := cs.head?.all fun c => !isText c

def readChar (c : Char) : List Char → Option (List Char)
  | d :: rest => if d = c then some rest else none
  | [] => none

/-- A text of one character or more. -/
def readText (cs : List Char) : Option (String × List Char) :=
  if cs.takeWhile isText = [] then none
  else some (String.ofList (cs.takeWhile isText), cs.dropWhile isText)

def readIndex (cs : List Char) : Option (Nat × List Char) :=
  (Step.index? (cs.takeWhile Char.isDigit)).map fun n => (n, cs.dropWhile Char.isDigit)

/-- Where a range stops, if that is said: a comma and an index. A comma alone is left where it is. -/
def readStop (cs : List Char) : Option Nat × List Char :=
  match (readChar ',' cs).bind readIndex with
  | some (n, rest) => (some n, rest)
  | none => (none, cs)

/-! ## Steps -/

/-- A text that stands for a step if the step ends there. -/
def readToken (token : List Char) (step : Step) (cs : List Char) : Option (Step × List Char) :=
  if token.isPrefixOf cs && endsStep (cs.drop token.length) then some (step, cs.drop token.length)
  else none

/-- `[n]` is the range of that one index, `[n,m]` runs from `n` up to before `m`. -/
def readRange (cs : List Char) : Option (Step × List Char) := do
  let (start, rest) ← readIndex (← readChar '[' cs)
  let (stop, rest) := readStop rest
  let rest ← readChar ']' rest
  if endsStep rest then some (.range start (stop.getD (Step.nextIndex start)), rest) else none

def readAncestor (cs : List Char) : Option (Step × List Char) := do
  let (name, rest) ← readText (← readChar '@' cs)
  return (.ancestor name, rest)

/-- The text after the mark may be empty. -/
def readValueIs (cs : List Char) : Option (Step × List Char) := do
  let rest ← readChar '=' cs
  return (.valueIs (String.ofList (rest.takeWhile isText)), rest.dropWhile isText)

def readName (cs : List Char) : Option (Step × List Char) := do
  let (name, rest) ← readText cs
  return (.named name, rest)

/-- The texts that stand for steps, in the order in which they are tried. -/
def tokens : List (List Char × Step) :=
  [(['.', '.'], .root), (['.'], .parent), (['*', '*'], .descendants), (['*'], .children),
    (['#'], .reference), (['-'], .previous), (['+'], .next)]

/-- What a step may be, in the order in which it is tried. What is nothing else is a name. -/
def stepReaders : List (List Char → Option (Step × List Char)) :=
  (tokens.map fun token => readToken token.1 token.2) ++ [readRange, readAncestor, readValueIs, readName]

/-- The first reader that finds a step counts. -/
def readStep (cs : List Char) : Option (Step × List Char) := stepReaders.findSome? fun read => read cs

theorem length_readChar {c : Char} {cs rest : List Char} (h : readChar c cs = some rest) :
    rest.length < cs.length := by
  cases cs with
  | nil => cases h
  | cons d more =>
    rw [readChar] at h
    split at h
    · cases h
      exact Nat.lt_succ_self _
    · cases h

theorem length_dropWhile_le (p : Char → Bool) (cs : List Char) : (cs.dropWhile p).length ≤ cs.length :=
  (List.dropWhile_suffix p).length_le

theorem length_readText {cs rest : List Char} {text : String} (h : readText cs = some (text, rest)) :
    rest.length ≤ cs.length := by
  unfold readText at h
  split at h
  · cases h
  · cases h
    exact length_dropWhile_le _ _

theorem length_readIndex {cs rest : List Char} {n : Nat} (h : readIndex cs = some (n, rest)) :
    rest.length ≤ cs.length := by
  obtain ⟨m, -, heq⟩ := Option.map_eq_some_iff.mp h
  cases heq
  exact length_dropWhile_le _ _

theorem length_readStop (cs : List Char) : (readStop cs).2.length ≤ cs.length := by
  unfold readStop
  split
  · rename_i n rest h
    obtain ⟨more, hcomma, hindex⟩ := Option.bind_eq_some_iff.mp h
    exact Nat.le_trans (length_readIndex hindex) (Nat.le_of_lt (length_readChar hcomma))
  · exact Nat.le_refl _

theorem length_readToken (token : List Char) (step' : Step) {cs rest : List Char} {step : Step}
    (h : readToken token step' cs = some (step, rest)) : rest.length ≤ cs.length := by
  unfold readToken at h
  split at h
  · cases h
    rw [List.length_drop]
    exact Nat.sub_le _ _
  · cases h

theorem length_readRange {cs rest : List Char} {step : Step} (h : readRange cs = some (step, rest)) :
    rest.length ≤ cs.length := by
  obtain ⟨opened, hopen, h⟩ := Option.bind_eq_some_iff.mp h
  obtain ⟨⟨start, after⟩, hindex, h⟩ := Option.bind_eq_some_iff.mp h
  obtain ⟨closed, hclose, h⟩ := Option.bind_eq_some_iff.mp h
  have hopened := length_readChar hopen
  have hafter := length_readIndex hindex
  have hstop := length_readStop after
  have hclosed : closed.length < (readStop after).2.length := length_readChar hclose
  split at h
  · cases h
    omega
  · cases h

theorem length_readAncestor {cs rest : List Char} {step : Step} (h : readAncestor cs = some (step, rest)) :
    rest.length ≤ cs.length := by
  obtain ⟨more, hmark, h⟩ := Option.bind_eq_some_iff.mp h
  obtain ⟨⟨name, after⟩, htext, h⟩ := Option.bind_eq_some_iff.mp h
  cases h
  exact Nat.le_trans (length_readText htext) (Nat.le_of_lt (length_readChar hmark))

theorem length_readValueIs {cs rest : List Char} {step : Step} (h : readValueIs cs = some (step, rest)) :
    rest.length ≤ cs.length := by
  obtain ⟨more, hmark, h⟩ := Option.bind_eq_some_iff.mp h
  cases h
  exact Nat.le_trans (length_dropWhile_le _ _) (Nat.le_of_lt (length_readChar hmark))

theorem length_readName {cs rest : List Char} {step : Step} (h : readName cs = some (step, rest)) :
    rest.length ≤ cs.length := by
  obtain ⟨⟨name, after⟩, htext, h⟩ := Option.bind_eq_some_iff.mp h
  cases h
  exact length_readText htext

theorem length_readStep {cs rest : List Char} {step : Step} (h : readStep cs = some (step, rest)) :
    rest.length ≤ cs.length := by
  obtain ⟨read, hread, h⟩ := List.exists_of_findSome?_eq_some h
  rcases List.mem_append.mp hread with htoken | hother
  · obtain ⟨token, -, rfl⟩ := List.mem_map.mp htoken
    exact length_readToken _ _ h
  · simp only [List.mem_cons, List.not_mem_nil, or_false] at hother
    rcases hother with rfl | rfl | rfl | rfl
    · exact length_readRange h
    · exact length_readAncestor h
    · exact length_readValueIs h
    · exact length_readName h

/-! ## Selectors -/

theorem length_readSlashed {cs rest : List Char} {step : Step}
    (h : (readChar '/' cs).bind readStep = some (step, rest)) : rest.length < cs.length := by
  obtain ⟨more, hslash, hstep⟩ := Option.bind_eq_some_iff.mp h
  exact Nat.lt_of_le_of_lt (length_readStep hstep) (length_readChar hslash)

/-- The steps at the front of a text, each after a slash, and what follows. -/
def readSteps (cs : List Char) : List Step × List Char :=
  match h : (readChar '/' cs).bind readStep with
  | none => ([], cs)
  | some (step, rest) =>
    have := length_readSlashed h
    let (steps, after) := readSteps rest
    (step :: steps, after)
termination_by cs.length

/-- A question mark and the name of a kind, and what follows. The name is as long as letters go. -/
def readKind? (cs : List Char) : Option (MatchKind × List Char) :=
  match cs with
  | '?' :: rest =>
    (MatchKind.ofText? (String.ofList (rest.takeWhile Text.isAlphabetic))).map
      fun kind => (kind, rest.dropWhile Text.isAlphabetic)
  | _ => none

/-- Reads a whole text as a selector. -/
def parse (source : String) : Except Cause Selector :=
  let fail rest flaw := .error (.malformedSelector source (String.ofList rest) flaw)
  match readSteps source.toList with
  | ([], '/' :: rest) => fail rest .emptyStep
  | ([], rest) => fail rest .unrooted
  | (steps, rest) =>
    let (kind, rest) := (readKind? rest).getD (.node, rest)
    if rest = [] then .ok ⟨source, steps, kind⟩ else fail rest .trailing

end Selector

end EventTree
