/-
  The command line program: the device that a process has, with its standard streams and files.
-/
import Fractran.CommandLine.Device
import Fractran.Text
import Std.Time

namespace Fractran.CommandLine

/-- Writes a text, one byte for each character. -/
def put (stream : IO.FS.Stream) (text : String) : IO Unit := do
  stream.write (Text.toBytes text)
  stream.flush

/-- Writes a diagnostic behind the present time. -/
def complain (d : Diagnostic) : IO Unit := do
  let now ← Std.Time.PlainDateTime.now
  put (← IO.getStderr) (d.render (now.format "uuuu-MM-dd HH:mm:ss"))

/-- Reads a stream to its end. -/
partial def readAll (stream : IO.FS.Stream) (sofar : ByteArray) : IO ByteArray := do
  let chunk ← stream.read 65536
  if chunk.isEmpty then return sofar else readAll stream (sofar ++ chunk)

/-- A source from what was read, or one that breaks off at once if reading failed. -/
def sourceOf (read : IO ByteArray) : IO Source.Stream := do
  match ← read.toBaseIO with
  | .ok bytes => return { text := Text.ofBytes bytes }
  | .error _ => return { text := "", broken := true }

/-- Opens a plain file and reads it. -/
def openPlain (path : String) : IO (Option Source.Stream) := do
  let name := (String.fromUTF8? (Text.toBytes path)).getD path
  match ← (IO.FS.Handle.mk name .read).toBaseIO with
  | .error _ => return none
  | .ok handle => some <$> sourceOf handle.readBinToEnd

/-- The device of this process. It cannot open compressed files. -/
def process : Device IO where
  terminal := do (← IO.getStdin).isTty
  input := do sourceOf (readAll (← IO.getStdin) .empty)
  plain := openPlain
  unpack _ := return none
  print line := do put (← IO.getStdout) (linesText [line])
  complain := complain

end Fractran.CommandLine

def main (arguments : List String) : IO UInt32 := do
  let status ← Fractran.CommandLine.process.execute
    (arguments.map fun a => Fractran.Text.ofBytes a.toUTF8)
  return status.toUInt32
