import EventTree.Handler.Probe
import EventTree.Main
import EventTree.Proofs.Forest.Histories
import EventTree.Proofs.Forest.Moves
import EventTree.Proofs.Plot.Machine
import EventTree.Proofs.Isolation
import EventTree.Proofs.Raising
import EventTree.Proofs.Forest.Siblings
import EventTree.Proofs.Trap.Course
import EventTree.Proofs.Trap.Blocks
import EventTree.Proofs.Trap.Protocol
import EventTree.Proofs.Condition.Reading
import EventTree.Proofs.Condition.Markers
import EventTree.Proofs.Condition.Operators
import EventTree.Proofs.Condition.Evaluation
import EventTree.Proofs.Condition.Operands
import EventTree.Proofs.Condition.Precedence
import EventTree.Proofs.Override.Agreement
import EventTree.Proofs.Store
import EventTree.Proofs.Signal.Consumer
import EventTree.Proofs.Loader.Checking
import EventTree.Proofs.Loader.Histories
import EventTree.Proofs.Override.Failure
import EventTree.Proofs.Override.Replay
import EventTree.Proofs.Override.Removal
import EventTree.Proofs.Override.Histories
import EventTree.Proofs.Listener.Staging
import EventTree.Proofs.Listener.Histories
import EventTree.Proofs.Listener.Overlap
import EventTree.Proofs.Selector.Grammar
import EventTree.Proofs.Forest.Snapshots
import EventTree.Proofs.Number.Doubles
import EventTree.Proofs.Number.Numerals
import EventTree.Proofs.Json
import EventTree.Proofs.Tree.Json
import EventTree.Proofs.Trait
import EventTree.Proofs.Trait.Keywords
import EventTree.Proofs.Limits
import EventTree.Proofs.Traces
import EventTree.Proofs.Loop.While
import EventTree.Proofs.Loop.ForEach
import EventTree.Proofs.Declared
import EventTree.Proofs.Forest.Order
import EventTree.Proofs.Forest.Walks
import EventTree.Proofs.Forest.Returns
import EventTree.Proofs.Forest.Independence
import EventTree.Proofs.Sequence
import EventTree.Proofs.Branch
import EventTree.Proofs.Condition.Offset
import EventTree.Proofs.Condition.Equation
import EventTree.Proofs.Forest.Kept
import EventTree.Proofs.Selection.Duplicates
import EventTree.Proofs.Selection.Order
import EventTree.Proofs.Selection.Lasting
import EventTree.Proofs.Assignment.Sources
import EventTree.Proofs.Assignment.Adding
import EventTree.Proofs.Assignment.Setting
import EventTree.Proofs.Choice
import EventTree.Proofs.Selector.Segments
