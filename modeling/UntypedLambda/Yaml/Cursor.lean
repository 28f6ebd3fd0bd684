import UntypedLambda.Yaml.Mark

/-! # Going through a YAML text

A text is taken in by blocks of 512 bytes, and a block only when one of its characters is asked
for.  A block that holds a control character cannot be taken in; but a text whose meaning is
settled before such a block is needed is sound all the same. -/
set_option autoImplicit false

namespace UntypedLambda.Yaml

/-! ## Blocks -/

def blockBytes : Nat := 512

def byteOrderMark : Char := Char.ofNat 0xFEFF

/-- The characters that a text may hold. -/
def isAllowed (c : Char) : Bool :=
  let n := c.toNat
  n == 9 || n == 10 || n == 13 || (0x20 ≤ n && n ≤ 0x7E) || n == 0x85
    || (0xA0 ≤ n && n ≤ 0xD7FF) || (0xE000 ≤ n && n ≤ 0xFFFD) || 0x10000 ≤ n

/-- How many characters there are in each sound block, and how many in front of the first
character that is not allowed, in its block. -/
structure Blocks where
  sizes : List Nat
  spoilt : Option Nat

/-- Cuts a text into blocks.  A character that does not fit into a block as a whole goes into
the next one. -/
def Blocks.ofText (room count : Nat) : List Char → Blocks
  | [] => ⟨[count], none⟩
  | c :: rest =>
    if c.utf8Size ≤ room then
      if isAllowed c then ofText (room - c.utf8Size) (count + 1) rest else ⟨[], some count⟩
    else if isAllowed c then
      let more := ofText (blockBytes - c.utf8Size) 1 rest
      ⟨count :: more.sizes, more.spoilt⟩
    else ⟨[count], some 0⟩

/-! ## Cursors -/

/-- What is left of a text up to the first character that is not allowed, and where it stands.

`ready` characters have been taken in.  `marked` says that a byte order mark came first when
that was done last, `breaks` counts the line breaks since the last visible character, and
`failed` says that a look ahead met a character that is not allowed. -/
structure Cursor where
  rest : List Char
  blocks : Blocks
  mark : Mark := {}
  ready : Nat := 0
  marked : Bool := false
  breaks : Nat := 0
  failed : Bool := false

def Problem.control : Problem := ⟨"control characters are not allowed", none⟩

namespace Cursor

/-- A byte order mark at the start belongs to the first block, but not to the text. -/
def ofText (s : String) : Cursor :=
  let (room, chars) : Nat × List Char :=
    match s.toList with
    | c :: rest =>
      if c == byteOrderMark then (blockBytes - c.utf8Size, rest) else (blockBytes, c :: rest)
    | [] => (blockBytes, [])
  { rest := chars.takeWhile isAllowed, blocks := .ofText room 0 chars }

/-- Takes blocks in until `n` characters are ready. -/
def fill (n ready : Nat) : List Nat → Nat × List Nat
  | [] => (ready, [])
  | size :: sizes => if n ≤ ready then (ready, size :: sizes) else fill n (ready + size) sizes

/-- Takes in what is missing of `n` characters, and tells whether that could be done.  The end
of the text counts as one more character each time it is met. -/
def load (c : Cursor) (n : Nat) : Bool × Cursor :=
  if n ≤ c.ready then (true, c)
  else
    let (ready, sizes) := fill n c.ready c.blocks.sizes
    let c := { c with marked := c.rest.head? == some byteOrderMark }
    if n ≤ ready then (true, { c with ready := ready, blocks := ⟨sizes, c.blocks.spoilt⟩ })
    else
      match c.blocks.spoilt with
      | none => (true, { c with ready := ready + 1, blocks := ⟨[], none⟩ })
      | some count => (false, { c with ready := ready + count, blocks := ⟨[], some 0⟩ })

/-- Asks for `n` characters that must be there. -/
def need (c : Cursor) (n : Nat) : Except Problem Cursor :=
  match c.load n with
  | (true, c) => .ok c
  | (false, _) => .error .control

/-- Looks ahead by `n` characters.  If that is not possible there is no harm until the meaning of
what has been read is asked for. -/
def lookAhead (c : Cursor) (n : Nat) : Bool × Cursor :=
  match c.load n with
  | (true, c) => (true, c)
  | (false, c) => (false, { c with failed := true })

/-! ## Steps -/

def head? (c : Cursor) : Option Char := c.rest.head?

/-- Goes past one character that ends no line. -/
def skip (c : Cursor) : Cursor :=
  { c with
    rest := c.rest.tail
    mark := ⟨c.mark.line, c.mark.col + 1, c.mark.index + 1⟩
    ready := c.ready - 1
    breaks := if c.rest.head?.any isBlank then c.breaks else 0 }

def skipMany : (n : Nat) → Cursor → Cursor
  | 0, c => c
  | n + 1, c => skipMany n c.skip

/-- Goes past the line break at the front, if there is one. -/
def skipBreak (c : Cursor) : Cursor :=
  let past (n : Nat) : Cursor :=
    { c with
      rest := c.rest.drop n
      mark := ⟨c.mark.line + 1, 0, c.mark.index + n⟩
      ready := c.ready - n
      breaks := c.breaks + 1 }
  match c.rest with
  | '\r' :: '\n' :: _ => past 2
  | b :: _ => if isBreak b then past 1 else c
  | [] => c

/-- How a line break stands in a text that is read: most are line feeds there. -/
def breakChar (c : Char) : Char := if c.toNat == 0x2028 || c.toNat == 0x2029 then c else '\n'

/-- An upper bound for the number of steps that are left. -/
def room (c : Cursor) : Nat :=
  c.blocks.sizes.foldl (· + ·) c.ready + c.blocks.spoilt.getD 0 + 1

def skipUpTo (p : Char → Bool) : (fuel : Nat) → Cursor → Except Problem Cursor
  | 0, c => .ok c
  | fuel + 1, c =>
    if c.rest.head?.any p then do skipUpTo p fuel (← c.skip.need 1) else .ok c

/-- Goes past characters as long as `p` holds. -/
def skipWhile (c : Cursor) (p : Char → Bool) : Except Problem Cursor := skipUpTo p c.room c

end Cursor

/-- `---` or `...` at the start of a line, by themselves. -/
def isDocumentMark (c : Cursor) : Bool :=
  c.mark.col == 0
    && (['-', '-', '-'].isPrefixOf c.rest || ['.', '.', '.'].isPrefixOf c.rest)
    && atSpace (c.rest.drop 3)

end UntypedLambda.Yaml
