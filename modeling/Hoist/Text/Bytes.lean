/-!
# Bytes

Outside, a text is a sequence of bytes. Inside, each byte is the character with its number, so that
offsets and columns count bytes whatever the encoding is.
-/

namespace Hoist.Text

/-- The text of some bytes. -/
def ofBytes (bytes : ByteArray) : List Char := bytes.toList.map fun b => Char.ofNat b.toNat

/-- The bytes of a text whose characters stand for bytes. -/
def toBytes (text : List Char) : ByteArray := ⟨(text.map fun c => c.toNat.toUInt8).toArray⟩

/-- A file name as it stands for its bytes. -/
def ofName (name : String) : String := String.ofList (ofBytes name.toUTF8)

/-- The file name that a text stands for, unless its bytes are no name. -/
def toName? (text : String) : Option String := String.fromUTF8? (toBytes text.toList)

end Hoist.Text
