import PathQuery.Command.Line

/-!
# The program `jmesc`
-/

namespace PathQuery

open Command

/-- The standard input, unless it is a terminal. -/
def standardInput : IO (Option String) := do
  let stdin ← IO.getStdin
  if ← stdin.isTty then return none
  let mut bytes := ByteArray.empty
  repeat
    let chunk ← stdin.read 65536
    if chunk.isEmpty then break
    bytes := bytes ++ chunk
  match String.fromUTF8? bytes with
  | some text => return some text
  | none => throw (IO.userError "stream did not contain valid UTF-8")

/-- Runs the program on its arguments and gives the code it ends with. -/
def program (args : List String) : IO UInt32 := do
  let report ←
    match Invocation.ofArgs? args with
    | some invocation =>
      let stdin ← if invocation.readsInput then standardInput else pure none
      pure (invocation.report stdin)
    | none => pure .usage
  IO.print report.out
  IO.eprint report.err
  return UInt32.ofNat report.code

end PathQuery

def main (args : List String) : IO UInt32 := PathQuery.program args
