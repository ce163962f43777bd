/-
  Text as bytes: every character stands for one byte.

  Sources, arguments and messages are bytes. They are kept as characters below 256, so that
  positions count bytes and a byte that is no text passes through unchanged.
-/

namespace Fractran.Text

/-- The text with these bytes as its characters. -/
def ofBytes (bytes : ByteArray) : String :=
  .ofList (bytes.toList.map fun b => Char.ofNat b.toNat)

/-- The bytes that the characters of a text stand for. -/
def toBytes (text : String) : ByteArray := ⟨(text.toList.map fun c => c.toNat.toUInt8).toArray⟩

end Fractran.Text
