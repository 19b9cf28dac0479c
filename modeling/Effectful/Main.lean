import Effectful.CommandLine.Session
/-!
# The command line program

Reads the standard input, carries out the session of the arguments, and writes what it leaves.
-/
namespace Effectful

/-- More rounds than a session ever takes. -/
def fuel : Nat := 1000000000000000000

def readAll (stream : IO.FS.Stream) : IO (List UInt8) := do
  let mut bytes := ByteArray.empty
  repeat
    let chunk ← stream.read 65536
    if chunk.isEmpty then break
    bytes := bytes ++ chunk
  return bytes.data.toList

end Effectful

/-- Only a demo that runs on the terminal reads the standard input. -/
def main (args : List String) : IO UInt32 := do
  let readsInput := match Effectful.CommandLine.read args with
    | .ok (.run ..) => true
    | _ => false
  let stdin ← if readsInput then Effectful.readAll (← IO.getStdin) else pure []
  let transcript := Effectful.CommandLine.session Effectful.fuel args stdin
  (← IO.getStdout).putStr transcript.stdout
  (← IO.getStderr).putStr transcript.stderr
  return transcript.exitCode.toUInt32
