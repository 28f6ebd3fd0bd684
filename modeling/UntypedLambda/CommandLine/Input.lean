import UntypedLambda.Text.Blank

/-! # Lines of input

A line feed ends a line, with a carriage return before it or without; the last line need not be
ended.  A line is handed on in pieces of at most `pieceSize` bytes, so a long line counts as
several. -/
set_option autoImplicit false

namespace UntypedLambda.CommandLine.Input

def pieceSize : Nat := 4096

/-- A character, and the number of bytes that it stands for. -/
abbrev Sized := Char × Nat

def sized (line : List Char) : List Sized := line.map fun c => (c, c.utf8Size)

/-- Bytes of a character that was cut, each of which is shown as a replacement character. -/
def stray (n : Nat) : List Sized := List.replicate n (Char.ofNat 0xFFFD, 1)

/-- The first `n` bytes and what is behind them, if there are as many. -/
def cut? : List Sized → (n : Nat) → Option (List Sized × List Sized)
  | rest, 0 => some ([], rest)
  | [], _ + 1 => none
  | (c, size) :: rest, n + 1 =>
    if size ≤ n + 1 then
      (cut? rest (n + 1 - size)).map fun parts => ((c, size) :: parts.1, parts.2)
    else some (stray (n + 1), stray (size - (n + 1)) ++ rest)

/-- The first piece of a line that fills one, and the rest.  A carriage return at the end of the
piece is left for the next one, since it may belong to the end of the line. -/
def piece? (line : List Sized) : Option (List Sized × List Sized) :=
  (cut? line pieceSize).map fun parts =>
    let (front, back) := parts
    match front.getLast? with
    | some ('\r', size) => (front.dropLast, ('\r', size) :: back)
    | _ => (front, back)

/-- The pieces of a line, of which the last one is shorter than the others.  Each takes a
character, so their number never exceeds `fuel`, the number of characters. -/
def pieces : (fuel : Nat) → List Sized → List (List Sized)
  | 0, line => [line]
  | fuel + 1, line =>
    match piece? line with
    | none => [line]
    | some (front, back) => front :: pieces fuel back

def piecesOf (line : List Char) : List (List Char) :=
  (pieces line.length (sized line)).map (·.map (·.1))

def dropReturn (line : List Char) : List Char :=
  if line.getLast? == some '\r' then line.dropLast else line

/-- The pieces of a line that a line feed ends. -/
def endedLine (line : List Char) : List (List Char) :=
  let found := piecesOf line
  found.dropLast ++ found.getLast?.toList.map dropReturn

/-- The pieces of the last line, which nothing ends. -/
def lastLine (line : List Char) : List (List Char) := (piecesOf line).filter (!·.isEmpty)

def lines (s : String) : List String :=
  let split := Text.splitAt '\n' s.toList
  (split.dropLast.flatMap endedLine ++ split.getLast?.toList.flatMap lastLine).map String.ofList

end UntypedLambda.CommandLine.Input
