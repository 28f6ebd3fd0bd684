import UntypedLambda.Session
import UntypedLambda.Text.Bytes

/-! # Completing a line

The last word of a line is completed to commands and bound names.  Where the word begins is
counted in bytes. -/
set_option autoImplicit false

namespace UntypedLambda.Session

/-- The characters a word is looked for behind. -/
def isSeparator (c : Char) : Bool := " \t(.λ\\".toList.contains c

/-- How many bytes stand before the word: those up to the last separator, and one more. -/
def wordStart (line : String) : Nat :=
  match Text.lastIndex isSeparator line.toList with
  | some i => i + 1
  | none => 0

/-- What a line is completed to when `names` are offered: the bytes before the word, and behind
them the bytes of each name that begins with the word. -/
def completions (names : List (List UInt8)) (line : String) : List (List UInt8) :=
  let before := (Text.bytes line).take (wordStart line)
  let word := (Text.bytes line).drop (wordStart line)
  if word.isEmpty then [] else (names.filter word.isPrefixOf).map (before ++ ·)

/-- The commands, and then the bound names in order. -/
def offered (s : Session) : List String := ["env", "help", "unbind"] ++ s.names

/-- The line with its last word completed in every possible way. -/
def complete (s : Session) (line : String) : List String :=
  (completions (s.offered.map Text.bytes) line).filterMap Text.ofBytes?

end UntypedLambda.Session
