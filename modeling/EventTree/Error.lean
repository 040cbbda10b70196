import EventTree.Text.Quoted

/-!
# Errors

An error is a cause and the events it crossed on its way out, innermost first. The kind and the
wording of every cause are said here, and nowhere else.
-/

namespace EventTree

/-- The category of an error, which a program that traps it can read. -/
inductive ErrorKind where
  /-- A keyword used where it cannot stand. -/
  | structural
  /-- Input that is not well formed. -/
  | validation
  /-- A configured ceiling was reached. -/
  | resourceExhausted
  /-- An operation on something it does not apply to. -/
  | evaluation
  /-- A handler that cannot be loaded. -/
  | discovery
  /-- Raised by a program itself. -/
  | thrown
  deriving DecidableEq, Repr

namespace ErrorKind

def text : ErrorKind → String
  | structural => "structural"
  | validation => "validation"
  | resourceExhausted => "resource-exhausted"
  | evaluation => "evaluation"
  | discovery => "discovery"
  | thrown => "thrown"

def all : List ErrorKind :=
  [structural, validation, resourceExhausted, evaluation, discovery, thrown]

/-- The kind with the given text. -/
def ofText? (s : String) : Option ErrorKind := all.find? fun kind => kind.text == s

/-- A message with its kind in front. -/
def describe (kind : ErrorKind) (message : String) : String := s!"{kind.text} error: {message}"

end ErrorKind

/-- Why a text is no selector. -/
inductive SelectorFlaw where
  /-- It does not begin with a slash. -/
  | unrooted
  /-- Nothing follows the first slash. -/
  | emptyStep
  /-- A selector ends before the text does. -/
  | trailing
  deriving DecidableEq, Repr

namespace SelectorFlaw

def code : SelectorFlaw → String
  | unrooted => "Char"
  | emptyStep => "TakeWhile1"
  | trailing => "Eof"

end SelectorFlaw

/-- What went wrong. -/
inductive Cause where
  -- moving nodes
  | ownSubtree (child : String)
  | positionOutOfRange (position : Nat) (parent : String) (available : Nat)
  | untieRoot (node : String)
  | replaceRoot (node : String)
  | replaceByAncestor (node ancestor : String)
  | lostPosition (node : String)
  -- signals
  | strayBreak (boundary : String)
  | strayContinue (boundary : String)
  -- reading
  | malformedSelector (source rest : String) (flaw : SelectorFlaw)
  | invalidTree
  -- assignments
  | noDestination (keyword : String)
  | notReplacement (type text : String)
  | notNodes (source : String)
  | assignedCount (source : String)
  -- conditions
  | noConditional (operator : String)
  | noPreviousCondition (operator : String)
  | notWithOperand
  | nothingToTest (node : String)
  -- branches, loops and choices
  | conditionOnElse
  | brokenChain (branch : String)
  | nothingToIterate
  | tooManyPasses (limit : Nat)
  | strayCase (found : String)
  | manyDefaults
  -- traps
  | manyCatches
  | loneTry
  | lateCatch
  | loneCatch
  | loneFinally
  | thrown (message : String)
  -- declared events and overrides
  | noEventName (keyword : String)
  | reservedEventName (name : String)
  | noBody
  | noSuper (keyword : String)
  | overrideCycle (base super : String)
  -- raising
  | tooDeep (event : String) (limit : Nat)
  | handlerFailed (message : String)
  -- loading
  | unnamedMarker
  | dataMarker (event : String)
  | catchAllOverride (base : String)
  | selfOverride (event base : String)
  | cyclicMarker (base event : String)
  deriving DecidableEq, Repr

namespace Cause

def kind : Cause → ErrorKind
  | malformedSelector .. | invalidTree | reservedEventName _ => .validation
  | tooManyPasses _ | tooDeep .. => .resourceExhausted
  | assignedCount _ | handlerFailed _ => .evaluation
  | unnamedMarker | dataMarker _ | catchAllOverride _ | selfOverride .. | cyclicMarker .. => .discovery
  | thrown _ => .thrown
  | _ => .structural

def message : Cause → String
  | ownSubtree child => s!"cannot insert [{child}] into its own subtree"
  | positionOutOfRange position parent available =>
    s!"insert position {position} out of range for [{parent}] with {available} children"
  | untieRoot node => s!"cannot untie [{node}], it has no parent"
  | replaceRoot node => s!"cannot replace [{node}], it has no parent"
  | replaceByAncestor node ancestor => s!"cannot replace [{node}] with its own ancestor [{ancestor}]"
  | lostPosition node => s!"[{node}] lost its position"
  | strayBreak boundary => s!"[break] reached [{boundary}] outside of any loop"
  | strayContinue boundary => s!"[continue] reached [{boundary}] outside of any loop"
  | malformedSelector source rest flaw =>
    "malformed selector '" ++ source ++ "': Parsing Error: Error \x7b input: " ++ Text.quoted rest ++
      ", code: " ++ flaw.code ++ " \x7d"
  | invalidTree => "invalid tree"
  | noDestination keyword => s!"[{keyword}] needs a selector naming its destination"
  | notReplacement type text => s!"[set] cannot replace a node with the {type} '{text}'"
  | notNodes source => s!"[add] destination '{source}' must select nodes"
  | assignedCount source => s!"[set] cannot assign to the count selector '{source}'"
  | noConditional operator => s!"[{operator}] can only be used beneath a conditional node"
  | noPreviousCondition operator => s!"no previous condition found for [{operator}]"
  | notWithOperand => "[not] takes neither children nor a value, it negates the previous condition"
  | nothingToTest node => s!"[{node}] has nothing to use as a condition"
  | conditionOnElse => "[else] cannot have a condition"
  | brokenChain branch => s!"[{branch}] must follow [if] or [else-if]"
  | nothingToIterate => "[for-each] needs a selector, a node or a value to iterate"
  | tooManyPasses limit => s!"[while] exceeded {limit} iterations"
  | strayCase found => s!"[switch] only takes [case] and [default], found [{found}]"
  | manyDefaults => "[switch] can have only one [default]"
  | manyCatches => "[try] can have at most one [catch]"
  | loneTry => "[try] must be followed by [catch], [finally] or both"
  | lateCatch => "[catch] must come before [finally]"
  | loneCatch => "[catch] must directly follow [try]"
  | loneFinally => "[finally] must follow [try] or a [catch] after [try]"
  | thrown message => message
  | noEventName keyword => s!"[{keyword}] needs the name of an event"
  | reservedEventName name => s!"'{name}' cannot name an event"
  | noBody => "[event] needs at least one [lambda] body"
  | noSuper keyword => s!"[{keyword}] needs at least one [super]"
  | overrideCycle base super => s!"overriding [{base}] with [{super}] creates an override cycle"
  | tooDeep event limit => s!"raising [{event}] exceeded the nesting limit of {limit}"
  | handlerFailed message => message
  | unnamedMarker => "handler marker names no event"
  | dataMarker event => s!"[{event}] is reserved for data segments"
  | catchAllOverride base => s!"a catch-all handler cannot override [{base}]"
  | selfOverride event base => s!"[{event}] cannot override [{base}]"
  | cyclicMarker base event => s!"overriding [{base}] with [{event}] creates an override cycle"

end Cause

/-- A cause and the events it crossed, innermost first. -/
structure Error where
  cause : Cause
  trace : List String
  deriving DecidableEq, Repr

namespace Error

def ofCause (cause : Cause) : Error := ⟨cause, []⟩

def kind (e : Error) : ErrorKind := e.cause.kind

def message (e : Error) : String := e.cause.message

/-- The error once it has left one more event. -/
def crossing (e : Error) (event : String) : Error := { e with trace := e.trace ++ [event] }

/-- Kind and message in one line. -/
def text (e : Error) : String := e.kind.describe e.message

end Error

end EventTree
