import Mc68000.Command.Run

namespace Mc68000

open Command

def reasonOf : IO.Error → String
  | .noFileOrDirectory _ _ _ => missing
  | e => toString e

def readInput (path : String) : IO (Except String (List UInt8)) := do
  try
    return .ok (← IO.FS.readBinFile path).toList
  catch e => return .error (reasonOf e)

def writeOutput (path text : String) : IO (Option String) := do
  try
    IO.FS.writeFile path text
    return none
  catch e => return some (reasonOf e)

def finish (o : Outcome) : IO UInt32 := do
  IO.print o.stdout
  IO.eprint o.stderr
  return UInt32.ofNat o.status

def execute (o : Options) : IO UInt32 := do
  match o.prepare (← readInput o.input) with
  | .error outcome => finish outcome
  | .ok r =>
    let some path := o.output | finish (o.deliver r)
    match ← writeOutput path r.text with
    | some reason => finish (Options.abandon r path reason)
    | none => finish (o.deliver r)

def usage : String :=
  "usage: mc68000 [-b N] [--offset N] [-l N] [-o PATH] [--no-hex] [--json] [-v] INPUT\n"

end Mc68000

def main (args : List String) : IO UInt32 := do
  match Mc68000.Command.Options.parse? args with
  | some o => Mc68000.execute o
  | none =>
    IO.eprint Mc68000.usage
    return 2
