import Formulary.Json.Writer
import Formulary.Request

/-!
The command line: a registry that answers requests, one JSON text a line.

Settings are read from the environment.
-/

namespace Formulary

/-- Answers the lines of a stream until it ends. -/
partial def serve (input output : IO.FS.Stream) (r : Registry) : IO Unit := do
  let line ← input.getLine
  if line.isEmpty then return
  let (reply, r) := r.replyLine line
  if let some reply := reply then
    output.putStrLn reply.toJson.write
    output.flush
  serve input output r

end Formulary

open Formulary in
/-- Serves standard input. -/
def main : IO Unit := do
  let settings := Settings.ofTexts (← IO.getEnv Settings.fillVariable)
    (← IO.getEnv Settings.refreshVariable) (← IO.getEnv Settings.freeParametersVariable)
  serve (← IO.getStdin) (← IO.getStdout) { settings }
