/-
  What the command line sees of its surroundings: standard input and files, plain or compressed.

  Which paths can be opened, what is behind them and how a file is decompressed is left open. A
  plain file can break off: a directory can be opened, but not read.
-/
import Fractran.Source.Stream

namespace Fractran

/-- Whether a name is that of a compressed file. -/
def isCompressedName (path : String) : Bool := 3 < path.length && path.endsWith ".gz"

/-- What is behind the paths, for any path. -/
structure Files where
  /-- What is read from a plain file, if it can be opened. -/
  plain : String → Option Source.Stream := fun _ => none
  /-- The content of a compressed file or what is wrong with it, if it can be opened. -/
  unpack : String → Option (Except String String) := fun _ => none

namespace Files

/-- A plain file as a source. -/
def plainSource (path : String) : Option Source.Stream → Except Error Source.Stream
  | some stream => .ok stream
  | none => .error (.unopenedFile path)

/-- A compressed file as a source. -/
def unpackedSource (path : String) : Option (Except String String) → Except Error Source.Stream
  | some (.ok content) => .ok { text := content }
  | some (.error fault) =>
    .error (.reported ("Error decompressing file: " ++ path ++ " - " ++ fault))
  | none => .error (.unopenedFile path)

/-- Opens a compressed file and reads all of it. -/
def openCompressed (files : Files) (path : String) : Except Error Source.Stream :=
  if isCompressedName path then unpackedSource path (files.unpack path)
  else .error (.uncompressedName path)

/-- Opens the file with a path. -/
def openFile (files : Files) (path : String) : Except Error Source.Stream :=
  if isCompressedName path then files.openCompressed path
  else plainSource path (files.plain path)

end Files

/-- Opening a compressed file where none can be opened. -/
def openCompressed (path : String) : Except Error Source.Stream := ({} : Files).openCompressed path

/-- Standard input, whether reading it fails behind that and whether it is a terminal, and the
    files. -/
structure Console where
  input : String := ""
  brokenInput : Bool := false
  terminal : Bool := false
  files : Files := {}

end Fractran
