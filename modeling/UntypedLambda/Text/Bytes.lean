/-! # The bytes of a text

A place in a text may be counted in bytes of its UTF-8 form, and a text cut at such a place need
not fall between two characters.  So what is left and right of a cut are lists of bytes. -/
set_option autoImplicit false

namespace UntypedLambda.Text

def bytes (s : String) : List UInt8 := s.toList.flatMap String.utf8EncodeChar

/-- The text with these bytes, if there is one. -/
def ofBytes? (b : List UInt8) : Option String := String.fromUTF8? b.toByteArray

/-- The index of the first byte of the last character that is wanted. -/
def lastIndex (wanted : Char → Bool) : List Char → Option Nat
  | [] => none
  | c :: rest =>
    match lastIndex wanted rest with
    | some i => some (c.utf8Size + i)
    | none => if wanted c then some 0 else none

end UntypedLambda.Text
