/-! # White space and letter case -/
set_option autoImplicit false

namespace UntypedLambda.Text

/-- The white space of Unicode. -/
def isWhite (c : Char) : Bool :=
  let n := c.toNat
  (9 ≤ n && n ≤ 13) || n == 0x20 || n == 0x85 || n == 0xA0 || n == 0x1680
    || (0x2000 ≤ n && n ≤ 0x200A) || n == 0x2028 || n == 0x2029 || n == 0x202F
    || n == 0x205F || n == 0x3000

/-- Without what `drop` holds of at either end. -/
def trimBy (drop : Char → Bool) (s : List Char) : List Char :=
  ((s.dropWhile drop).reverse.dropWhile drop).reverse

def trim (s : String) : String := String.ofList (trimBy isWhite s.toList)

/-- The lower-case form of a character, where that form is an ASCII letter.  Besides the
capitals from A to Z there are two such characters: the dotted capital I and the Kelvin sign. -/
def lowerAscii (c : Char) : Char :=
  if 'A' ≤ c ∧ c ≤ 'Z' then Char.ofNat (c.toNat + 32)
  else if c.toNat = 0x130 then 'i'
  else if c.toNat = 0x212A then 'k'
  else c

/-- The parts of a text between separators; there is always at least one. -/
def splitAt (separator : Char) : List Char → List (List Char)
  | [] => [[]]
  | c :: rest =>
    if c = separator then [] :: splitAt separator rest
    else
      match splitAt separator rest with
      | [] => [[c]]
      | part :: parts => (c :: part) :: parts

def lines (s : String) : List String := (splitAt '\n' s.toList).map String.ofList

end UntypedLambda.Text
