import Scriptlet.Shell
/-!
# The command line

Runs the shell on standard input and writes what it showed.  The shell ends only by a fault, the end of the input among
them, so the exit code is never zero.
-/
namespace Scriptlet.Main

/-- The lines that are left on a stream, after those read so far. -/
partial def readAll (stream : IO.FS.Stream) (read : String) : IO String := do
  let line ← stream.getLine
  if line.isEmpty then return read else readAll stream (read ++ line)

end Scriptlet.Main

def main : IO UInt32 := do
  let input ← Scriptlet.Main.readAll (← IO.getStdin) ""
  let (_, session) := Scriptlet.Shell.run input
  let out ← IO.getStdout
  out.putStr session.world.output
  out.flush
  return 1
