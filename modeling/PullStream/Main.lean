import PullStream.CommandLine

/-! The program: reads its arguments and its input, prints the result and ends with its code. -/

set_option autoImplicit false

namespace PullStream.CommandLine

def readInput (c : Command) : IO (Option ByteArray) := do
  try
    match c.infile with
    | some path => return some (← IO.FS.readBinFile path)
    | none => return some (← (← IO.getStdin).readBinToEnd)
  catch _ => return none

def Result.finish (r : Result) : IO UInt32 := do
  IO.print r.output
  if let some e := r.error then IO.eprintln e
  return r.code

def Invocation.perform (i : Invocation) : IO UInt32 := do
  match i.settled with
  | .inl r => r.finish
  | .inr c => (c.result (← readInput c)).finish

end PullStream.CommandLine

def main (args : List String) : IO UInt32 :=
  (PullStream.CommandLine.parse args).perform
