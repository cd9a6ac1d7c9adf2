/-!
# Bytes of texts

Files hold bytes. `Bytes.ofString` are the bytes of a text in UTF-8, `Bytes.toString?` is the text of
bytes that are valid UTF-8; the first is undone by the second.
-/

namespace Reputation

/-- **The contents of a file.** -/
abbrev Bytes := List UInt8

namespace Bytes

/-- The bytes of a text. -/
def ofString (s : String) : Bytes := s.toByteArray.data.toList

/-- The text of bytes, if they are valid UTF-8. -/
def toString? (b : Bytes) : Option String := String.fromUTF8? ⟨b.toArray⟩

theorem toString?_ofString (s : String) : toString? (ofString s) = some s := by
  have h : (⟨(ofString s).toArray⟩ : ByteArray) = s.toByteArray := by simp [ofString]
  rw [toString?, h, String.fromUTF8?, dif_pos s.isValidUTF8]
  rfl

/-- The byte of an ASCII character. -/
def ascii (c : Char) : UInt8 := UInt8.ofNat c.toNat

/-- Takes a text off the start of some bytes. -/
def expect? (word : String) (s : Bytes) : Option Bytes :=
  let w := ofString word
  if w.isPrefixOf s then some (s.drop w.length) else none

/-- Is the byte an ASCII digit? -/
def isDigit (b : UInt8) : Bool := ascii '0' ≤ b && b ≤ ascii '9'

/-- The text of bytes that are known to be ASCII. -/
def asciiText (b : Bytes) : String := String.ofList (b.map fun x => Char.ofNat x.toNat)

end Bytes

end Reputation
