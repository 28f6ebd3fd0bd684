/-! # Parts of a text, replaced and cut out -/
set_option autoImplicit false

namespace UntypedLambda.Text

/-- Puts `replacement` in place of the first occurrence of `part`, if there is one. -/
def replaceFirst (part replacement : List Char) : List Char → List Char
  | [] => []
  | c :: rest =>
    if part.isPrefixOf (c :: rest) then replacement ++ (c :: rest).drop part.length
    else c :: replaceFirst part replacement rest

/-- The parts of a text between pairs of bars. -/
def splitAtBars : List Char → List (List Char)
  | [] => [[]]
  | '|' :: '|' :: rest => [] :: splitAtBars rest
  | c :: rest =>
    match splitAtBars rest with
    | [] => [[c]]
    | part :: parts => (c :: part) :: parts

end UntypedLambda.Text
