import UntypedLambda.Yaml.Cursor

/-! # Scalars in a YAML text

How the text of a plain, quoted or block scalar is read off the characters.  Lines are joined
by blanks: a single line break becomes a blank, further ones are kept. -/
set_option autoImplicit false

namespace UntypedLambda.Yaml

/-- What was read, last character first, and where reading goes on. -/
abbrev Taken := List Char × Cursor

/-! ## White space inside a scalar -/

/-- White space read since the last visible character, last one first: blanks while on the
same line, and from the first line break on only the breaks. -/
structure Gap where
  blanks : List Char := []
  broken : Bool := false
  first : Option Char := none
  more : List Char := []

namespace Gap

def addBlank (g : Gap) (c : Char) : Gap :=
  if g.broken then g else { g with blanks := c :: g.blanks }

def addBreak (g : Gap) (c : Char) : Gap :=
  if g.broken then { g with more := c :: g.more }
  else { g with blanks := [], broken := true, first := some c }

/-- What the gap becomes in the text, last character first. -/
def folded (g : Gap) : List Char :=
  if g.broken then
    match g.first with
    | some '\n' => if g.more.isEmpty then [' '] else g.more
    | some c => g.more ++ [c]
    | none => g.more
  else g.blanks

/-- Reads a gap on.  After a line break there must be no tab left of the column `indent`. -/
def read (start : Mark) (indent : Int) : (fuel : Nat) → Gap → Cursor → Except Problem (Gap × Cursor)
  | 0, g, c => .ok (g, c)
  | fuel + 1, g, c =>
    match c.head? with
    | none => .ok (g, c)
    | some b =>
      if isBlank b then
        if g.broken && c.mark.col < indent && b == '\t' then
          .error (.scanning "found a tab character that violates indentation" start c.mark)
        else do read start indent fuel (g.addBlank b) (← c.skip.need 1)
      else if isBreak b then do
        let c ← c.need 2
        read start indent fuel (g.addBreak (Cursor.breakChar b)) (← c.skipBreak.need 1)
      else .ok (g, c)

end Gap

/-! ## Plain scalars -/

structure Plain where
  text : String
  /-- The scalar is followed by a line break. -/
  broken : Bool
  cursor : Cursor

/-- The characters that end a plain scalar inside brackets. -/
def endsFlowPlain (c : Char) : Bool := ",?[]\x7b\x7d".toList.contains c

def plainWord (flow : Bool) : (fuel : Nat) → List Char → Cursor → Except Problem Taken
  | 0, word, c => .ok (word, c)
  | fuel + 1, word, c =>
    match c.rest with
    | [] => .ok (word, c)
    | b :: rest =>
      if isBlank b || isBreak b || (b == ':' && atSpace rest) || (flow && endsFlowPlain b) then
        .ok (word, c)
      else do plainWord flow fuel (b :: word) (← c.skip.need 2)

def Plain.of (text : List Char) (gap : Gap) (c : Cursor) : Plain :=
  ⟨String.ofList text.reverse, gap.broken, c⟩

/-- Reads the words of a plain scalar.  `text` is what was read, last character first, and `gap`
the white space behind it. -/
def plainWords (flow : Bool) (indent : Int) (start : Mark) :
    (fuel : Nat) → List Char → Gap → Cursor → Except Problem Plain
  | 0, text, gap, c => .ok (.of text gap c)
  | fuel + 1, text, gap, c => do
    let c ← c.need 4
    if isDocumentMark c || c.head? == some '#' then return .of text gap c
    let (word, c) ← plainWord flow c.room [] c
    let (text, gap) : List Char × Gap :=
      if word.isEmpty then (text, gap) else (word ++ (gap.folded ++ text), {})
    if c.rest.isEmpty || !atSpace c.rest then return .of text gap c
    let (gap, c) ← Gap.read start indent c.room gap (← c.need 1)
    if !flow && c.mark.col < indent then return .of text gap c
    plainWords flow indent start fuel text gap c

/-- Reads a plain scalar inside a collection indented by `indent`. -/
def plain (flow : Bool) (indent : Int) (c : Cursor) : Except Problem Plain :=
  plainWords flow (indent + 1) c.mark c.room [] {} c

/-! ## Quoted scalars -/

inductive Quote where
  | single | double
deriving DecidableEq, Repr, Inhabited

def Quote.char : Quote → Char
  | single => '\''
  | double => '"'

/-- The character that a letter stands for after a backslash. -/
def escaped? (c : Char) : Option Char :=
  match c with
  | '0' => some (Char.ofNat 0)
  | 'a' => some (Char.ofNat 7)
  | 'b' => some (Char.ofNat 8)
  | 't' => some '\t'
  | '\t' => some '\t'
  | 'n' => some '\n'
  | 'v' => some (Char.ofNat 11)
  | 'f' => some (Char.ofNat 12)
  | 'r' => some '\r'
  | 'e' => some (Char.ofNat 27)
  | ' ' => some ' '
  | '"' => some '"'
  | '\'' => some '\''
  | '\\' => some '\\'
  | 'N' => some (Char.ofNat 0x85)
  | '_' => some (Char.ofNat 0xA0)
  | 'L' => some (Char.ofNat 0x2028)
  | 'P' => some (Char.ofNat 0x2029)
  | _ => none

/-- The number of digits that a letter announces after a backslash. -/
def codeLength? (c : Char) : Option Nat :=
  match c with
  | 'x' => some 2
  | 'u' => some 4
  | 'U' => some 8
  | _ => none

def hexDigit? (c : Char) : Option Nat :=
  if '0' ≤ c ∧ c ≤ '9' then some (c.toNat - 48)
  else if 'a' ≤ c ∧ c ≤ 'f' then some (c.toNat - 87)
  else if 'A' ≤ c ∧ c ≤ 'F' then some (c.toNat - 55)
  else none

def isScalarValue (n : Nat) : Bool := n < 0xD800 || (0xDFFF < n && n ≤ 0x10FFFF)

/-- The value of the first `n` characters, if they are digits. -/
def hexValue? : (n : Nat) → (value : Nat) → List Char → Option Nat
  | 0, value, _ => some value
  | _ + 1, _, [] => none
  | n + 1, value, c :: rest => (hexDigit? c).bind fun d => hexValue? n (16 * value + d) rest

/-- Reads what a backslash at the front introduces, other than a line break. -/
def escape (start : Mark) (c : Cursor) : Except Problem (Char × Cursor) := do
  let letter := c.rest.tail.head?
  match letter.bind escaped?, letter.bind codeLength? with
  | some e, _ => return (e, c.skip.skip)
  | none, some n =>
    let c ← c.skip.skip.need n
    match hexValue? n 0 c.rest with
    | none => throw (.scanning "did not find expected hexdecimal number" start c.mark)
    | some value =>
      if isScalarValue value then return (Char.ofNat value, Cursor.skipMany n c)
      else throw (.scanning "found invalid Unicode character escape code" start c.mark)
  | none, none => throw (.scanning "found unknown escape character" start c.mark)

/-- Reads visible characters of a quoted scalar.  The answer also tells whether they end with an
escaped line break. -/
def quotedWord (q : Quote) (start : Mark) :
    (fuel : Nat) → List Char → Cursor → Except Problem (Bool × Taken)
  | 0, text, c => .ok (false, text, c)
  | fuel + 1, text, c => do
    match c.rest with
    | [] => return (false, text, c)
    | b :: rest =>
      if isBlank b || isBreak b then return (false, text, c)
      if b == q.char then
        if q == .single && rest.head? == some '\'' then
          quotedWord q start fuel ('\'' :: text) (← c.skip.skip.need 2)
        else return (false, text, c)
      else if q == .double && b == '\\' then
        if rest.head?.any isBreak then
          let c ← c.need 3
          return (true, text, c.skip.skipBreak)
        let (e, c) ← escape start c
        quotedWord q start fuel (e :: text) (← c.need 2)
      else quotedWord q start fuel (b :: text) (← c.skip.need 2)

/-- Reads a quoted scalar on, behind its opening quote. -/
def quotedWords (q : Quote) (start : Mark) :
    (fuel : Nat) → List Char → Cursor → Except Problem (String × Cursor)
  | 0, text, c => .ok (String.ofList text.reverse, c)
  | fuel + 1, text, c => do
    let c ← c.need 4
    if isDocumentMark c then
      throw (.scanning "found unexpected document indicator" start c.mark)
    if c.rest.isEmpty then
      throw (.scanning "found unexpected end of stream" start c.mark)
    let (broken, text, c) ← quotedWord q start c.room text c
    let c ← c.need 1
    if c.head? == some q.char then return (String.ofList text.reverse, c.skip)
    -- A column below all others: tabs are allowed.
    let (gap, c) ← Gap.read start (-1) c.room { broken := broken } c
    quotedWords q start fuel (gap.folded ++ text) c

def quoted (q : Quote) (c : Cursor) : Except Problem (String × Cursor) :=
  quotedWords q c.mark c.room [] c.skip

/-! ## Block scalars -/

/-- What becomes of the line breaks at the end. -/
inductive Chomping where
  | strip | clip | keep
deriving DecidableEq, Repr, Inhabited

def Chomping.ofMark? (c : Char) : Option Chomping :=
  if c == '+' then some .keep else if c == '-' then some .strip else none

/-- The marks behind `|` or `>`: an indentation and a chomping, in either order. -/
structure BlockHeader where
  indentation : Option Nat := none
  chomping : Chomping := .clip

def chompingMark (c : Cursor) : Option Chomping × Cursor :=
  match c.head?.bind Chomping.ofMark? with
  | some chomping => (some chomping, c.skip)
  | none => (none, c)

def indentationMark (start : Mark) (c : Cursor) : Except Problem (Option Nat × Cursor) :=
  match c.head? with
  | none => .ok (none, c)
  | some d =>
    if d == '0' then .error (.scanning "found an indentation indicator equal to 0" start c.mark)
    else if '1' ≤ d && d ≤ '9' then .ok (some (d.toNat - 48), c.skip)
    else .ok (none, c)

/-- Reads the header up to the first line of the scalar. -/
def blockHeader (start : Mark) (c : Cursor) : Except Problem (BlockHeader × Cursor) := do
  let c ← c.need 1
  let (header, c) ←
    match chompingMark c with
    | (some chomping, c) =>
      let (indentation, c) ← indentationMark start (← c.need 1)
      pure ((⟨indentation, chomping⟩ : BlockHeader), c)
    | (none, c) =>
      match ← indentationMark start c with
      | (none, c) => pure ({}, c)
      | (some n, c) =>
        let (chomping, c) := chompingMark (← c.need 1)
        pure (⟨some n, chomping.getD .clip⟩, c)
  let c ← (← c.need 1).skipWhile isBlank
  let c ← if c.head? == some '#' then c.skipWhile (!isBreak ·) else pure c
  if !atLineEnd c.rest then
    throw (.scanning "did not find expected comment or line break" start c.mark)
  if c.rest.isEmpty then return (header, c)
  return (header, (← c.need 2).skipBreak)

/-- Indentation and empty lines in front of a line.  `indent` is the column of the scalar, if it
is known; `deepest` is the furthest column met. -/
structure Margin where
  indent : Option Nat
  deepest : Nat := 0
  emptyLines : List Char := []

def Margin.wants (m : Margin) (col : Nat) : Bool :=
  match m.indent with
  | none => true
  | some n => col < n

def Margin.read (start : Mark) : (fuel : Nat) → Margin → Cursor → Except Problem (Margin × Cursor)
  | 0, m, c => .ok (m, c)
  | fuel + 1, m, c => do
    let c ← c.need 1
    match c.head? with
    | none => return ({ m with deepest := max m.deepest c.mark.col }, c)
    | some b =>
      if m.wants c.mark.col && b == ' ' then read start fuel m c.skip
      else
        let m := { m with deepest := max m.deepest c.mark.col }
        if m.wants c.mark.col && b == '\t' then
          throw (.scanning "found a tab character where an indentation space is expected"
            start c.mark)
        else if isBreak b then
          let c ← c.need 2
          read start fuel { m with emptyLines := Cursor.breakChar b :: m.emptyLines } c.skipBreak
        else return (m, c)

def blockLine : (fuel : Nat) → List Char → Cursor → Except Problem Taken
  | 0, text, c => .ok (text, c)
  | fuel + 1, text, c =>
    match c.head? with
    | none => .ok (text, c)
    | some b =>
      if isBreak b then .ok (text, c) else do blockLine fuel (b :: text) (← c.skip.need 1)

/-- A block scalar while it is being read.  Texts are kept last character first. -/
structure Block where
  text : List Char := []
  lineBreak : List Char := []
  emptyLines : List Char := []
  lastIndented : Bool := false

namespace Block

/-- Joins a line that starts with `c` to the text before it. -/
def join (literal : Bool) (b : Block) (c : Char) : List Char :=
  if !literal && !b.lastIndented && !isBlank c && b.lineBreak == ['\n'] then
    (if b.emptyLines.isEmpty then [' '] else b.emptyLines) ++ b.text
  else b.emptyLines ++ b.lineBreak ++ b.text

def finish (b : Block) (chomping : Chomping) : String :=
  let ending : List Char :=
    match chomping with
    | .strip => []
    | .clip => b.lineBreak
    | .keep => b.emptyLines ++ b.lineBreak
  String.ofList (ending ++ b.text).reverse

/-- Reads the lines of a scalar at the column `indent`. -/
def read (literal : Bool) (indent : Nat) (start : Mark) :
    (fuel : Nat) → Block → Cursor → Except Problem (Block × Cursor)
  | 0, b, c => .ok (b, c)
  | fuel + 1, b, c => do
    match c.head? with
    | none => return (b, c)
    | some first =>
      if c.mark.col ≠ indent then return (b, c)
      let (text, c) ← blockLine c.room (b.join literal first) c
      let c ← c.need 2
      let lineBreak := (c.head?.map Cursor.breakChar).toList
      let (margin, c) ← Margin.read start c.room { indent := some indent } c.skipBreak
      read literal indent start fuel
        { text := text
          lineBreak := lineBreak
          emptyLines := margin.emptyLines
          lastIndented := isBlank first } c

end Block

/-- Reads a block scalar inside a collection indented by `indent`. -/
def blockScalar (literal : Bool) (indent : Int) (c : Cursor) :
    Except Problem (String × Cursor) := do
  let start := c.mark
  let (header, c) ← blockHeader start c.skip
  let base := (max indent 0).toNat
  let (margin, c) ← Margin.read start c.room { indent := header.indentation.map (base + ·) } c
  let least := (max (indent + 1) 1).toNat
  let column := margin.indent.getD (max margin.deepest least)
  let (b, c) ← Block.read literal column start c.room { emptyLines := margin.emptyLines } c
  return (b.finish header.chomping, c)

end UntypedLambda.Yaml
