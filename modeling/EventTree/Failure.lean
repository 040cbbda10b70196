import EventTree.Error

/-!
# Failures

Everything that can stop a command: an error of the program it runs, or trouble with its settings or
its files.
-/

namespace EventTree

/-- Which part of a command failed. -/
inductive Origin where
  | program
  | settings
  | command
  deriving DecidableEq, Repr

namespace Origin

/-- A message with its origin in front. -/
def describe : Origin → String → String
  | program, message => "Lambda error: " ++ message
  | settings, message => "Config error: " ++ message
  | command, message => "Internal error: " ++ message

end Origin

inductive Failure where
  | program (error : Error)
  /-- Settings given as text cannot be read. -/
  | settingsText
  /-- Settings given as a file cannot be read. -/
  | settingsFile
  | settingsMissing
  | zeroDepth
  | programMissing
  | coreRejected (unit : String) (count : Nat)
  deriving DecidableEq, Repr

namespace Failure

def origin : Failure → Origin
  | program _ => .program
  | settingsText | settingsFile | settingsMissing | zeroDepth => .settings
  | programMissing | coreRejected .. => .command

/-- How a system reports a file that is not there. -/
def noSuchFile : String := "No such file or directory (os error 2)"

def message : Failure → String
  | program error => error.text
  | settingsText => "Failed to parse config"
  | settingsFile => "Failed to parse config file"
  | settingsMissing => "Failed to open config file: " ++ noSuchFile
  | zeroDepth => "max_depth must be greater than zero"
  | programMissing => "Failed to read lambda file: " ++ noSuchFile
  | coreRejected unit count => s!"core unit [{unit}] rejected {count} handlers"

def text (f : Failure) : String := f.origin.describe f.message

end Failure

end EventTree
