import UntypedLambda.Yaml.Cursor

/-! # Comments and white space between YAML tokens

A comment goes to the end of its line.  Comment lines in a row are taken together with the white
space between them, tabs included, as long as that has less than 512 bytes. -/
set_option autoImplicit false

namespace UntypedLambda.Yaml.Cursor

/-- How far the next comment is looked for. -/
def commentReach : Nat := 512

/-- Goes to the end of the line that holds the character with the index `index`. -/
def toLineEnd (index : Nat) : (fuel : Nat) → Cursor → Except Problem Cursor
  | 0, c => .ok c
  | fuel + 1, c => do
    let c ← c.need 1
    if !atLineEnd c.rest then toLineEnd index fuel c.skip
    else if index ≤ c.mark.index then return c
    else toLineEnd index fuel (← c.need 2).skipBreak

/-- Looks for a comment behind blanks, and behind line breaks if `far` is set.  `distance`
characters have been passed over, and `ahead` is what follows them. -/
def findComment (far : Bool) : (fuel distance : Nat) → (ahead : List Char) → Cursor →
    Option Nat × Cursor
  | 0, _, _, c => (none, c)
  | fuel + 1, distance, ahead, c =>
    match c.lookAhead (distance + 1) with
    | (false, c) => (none, c)
    | (true, c) =>
      match ahead with
      | [] => (none, c)
      | b :: ahead =>
        if isBlank b || (far && (b == '\n' || b == '\r')) then
          findComment far fuel (distance + 1) ahead c
        else if b == '#' then (some distance, c)
        else if far && isBreak b && 0 < fuel then
          -- A break of several bytes is looked at once more, but not looked behind.
          (none, (c.lookAhead (distance + 2)).2)
        else (none, c)

/-- Takes a comment that stands on the same line as what was read last. -/
def lineComment (c : Cursor) : Except Problem Cursor :=
  if c.breaks ≠ 0 then .ok c
  else
    match findComment false commentReach 0 c.rest c with
    | (none, c) => .ok c
    | (some distance, c) => c.toLineEnd (c.mark.index + distance) c.room

/-- Takes the comment lines that follow a comment, from the end of its line on. -/
def moreComments : (fuel : Nat) → Cursor → Except Problem Cursor
  | 0, c => .ok c
  | fuel + 1, c =>
    let (found, c) : Option Nat × Cursor :=
      match c.rest with
      | '\n' :: ahead => findComment true (commentReach - 1) 1 ahead c
      | '\r' :: ahead => findComment true (commentReach - 1) 1 ahead c
      | _ => (none, (c.lookAhead 2).2)
    match found with
    | none => .ok c
    | some distance => do
      moreComments fuel (← c.toLineEnd (c.mark.index + distance) c.room)

/-- Takes the comment at the front and those that follow it. -/
def comments (c : Cursor) : Except Problem Cursor := do
  moreComments c.room (← c.toLineEnd c.mark.index c.room)

/-- Goes to the next token.  A line break outside of brackets allows a key again; tabs count as
white space only where no key can stand. -/
def toToken (flow : Bool) : (fuel : Nat) → (keyAllowed : Bool) → Cursor →
    Except Problem (Bool × Cursor)
  | 0, keyAllowed, c => .ok (keyAllowed, c)
  | fuel + 1, keyAllowed, c => do
    let c ← c.need 1
    let c := if c.mark.col == 0 && c.marked then c.skip else c
    let c ← c.need 1
    let c ← c.skipWhile fun b => b == ' ' || (b == '\t' && (flow || !keyAllowed))
    let c ← if c.head? == some '#' then c.comments else pure c
    if c.head?.any isBreak then
      toToken flow fuel (keyAllowed || !flow) (← c.need 2).skipBreak
    else return (keyAllowed, c)

end UntypedLambda.Yaml.Cursor
