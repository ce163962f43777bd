/-
  Sources as they are read: a text that ends, or one that breaks off because reading fails.

  A stream that breaks off never gives a program. Its text is judged as far as it goes: only a
  text that could still become a source is reported as unreadable.
-/
import Fractran.Error

namespace Fractran.Source

/-- A text, and whether reading fails behind it instead of ending. -/
structure Stream where
  text : String
  broken : Bool := false

/-- The program that a stream writes. -/
def Stream.parse (s : Stream) : Except Error Program :=
  match Reader.takeAll s.text.toList with
  | .error fault => .error (.malformedSource fault)
  | .ok r =>
    if s.broken then .error .unreadableSource
    else match r.finish with
      | .error fault => .error (.malformedSource fault)
      | .ok p => .ok p

end Fractran.Source
