import EventTree.Command

/-!
# The command line
-/

namespace EventTree.CommandLine

/-- The options of the command line; files are given by their paths. -/
structure Options where
  settings : Option String
  program : Option String
  event : String

def usage : String := "usage: --lambda FILE [--config FILE] [--event NAME] [--verbose]"

/-- Reads options; nothing if they are not in order. -/
def readOptions (options : Options) : List String → Option Options
  | [] => some options
  | "-v" :: rest | "--verbose" :: rest => readOptions options rest
  | "-c" :: path :: rest | "--config" :: path :: rest =>
    readOptions { options with settings := some path } rest
  | "-l" :: path :: rest | "--lambda" :: path :: rest =>
    readOptions { options with program := some path } rest
  | "-e" :: name :: rest | "--event" :: name :: rest =>
    readOptions { options with event := name } rest
  | _ => none

/-- The contents of a file, if it can be read. -/
def contents (path : String) : IO (Option String) := do
  try
    return some (← IO.FS.readFile path)
  catch _ => return none

def load (options : Options) (program : String) : IO Command := do
  let settings ← options.settings.mapM contents
  return ⟨settings, ← contents program, options.event⟩

def refuse : IO UInt32 := do
  IO.eprintln usage
  return 2

end EventTree.CommandLine

open EventTree CommandLine in
def main (args : List String) : IO UInt32 := do
  match readOptions ⟨none, none, Command.defaultEvent⟩ args with
  | none => refuse
  | some options =>
    match options.program with
    | none => refuse
    | some program =>
      match (← load options program).run Context.ample with
      | none => return 3
      | some outcome =>
        let report := Command.report outcome
        IO.print report.out
        IO.eprint report.err
        return report.exit.toUInt32
