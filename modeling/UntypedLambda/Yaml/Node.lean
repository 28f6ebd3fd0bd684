import UntypedLambda.Yaml.Token

/-! # The first document of a YAML text -/
set_option autoImplicit false

namespace UntypedLambda.Yaml

/-- A value with the line where it starts, counted from one. -/
inductive Node where
  | scalar (line : Nat) (quoted : Bool) (text : String)
  | sequence (line : Nat) (items : List Node)
  | mapping (line : Nat) (entries : List (Node × Node))
deriving Inhabited

namespace Node

def line : Node → Nat
  | scalar line _ _ => line
  | sequence line _ => line
  | mapping line _ => line

/-! ## Reading tokens -/

abbrev Reader := StateT Scanner (Except Problem)

/-- The next token. -/
def look : Reader Token := fun s => do
  let s ← s.prepare (s.cursor.room + 4)
  return (s.queue[0]?.getD ⟨.streamEnd, s.mark⟩, s)

/-- Goes past the next token. -/
def take : Reader Unit :=
  modify fun s => { s with queue := s.queue.extract 1 s.queue.size, taken := s.taken + 1 }

/-- Ends a step of reading.  From here on it counts that a look ahead failed. -/
def settle : Reader Unit := do
  if (← get).cursor.failed then throw .control

/-- The value that stands where nothing is written. -/
def empty (mark : Mark) : Reader Node := do
  settle
  return .scalar (mark.line + 1) false ""

mutual

/-- Reads one value.  `inBlock` allows block collections, and `flush` a sequence whose entries
are not indented. -/
def node : (fuel : Nat) → (inBlock flush : Bool) → Reader Node
  | 0, _, _ => throw ⟨"exceeded max depth", none⟩
  | fuel + 1, inBlock, flush => do
    let t ← look
    let line := t.mark.line + 1
    match t.kind with
    | .scalar quoted text =>
      take
      settle
      return .scalar line quoted text
    | .flowSequenceStart =>
      settle
      take
      return .sequence line (← flowItems fuel t.mark true)
    | .flowMappingStart =>
      settle
      take
      return .mapping line (← flowEntries fuel t.mark true)
    | kind =>
      if flush && kind == .entry then
        settle
        return .sequence line (← flushItems fuel)
      else if inBlock && kind == .sequenceStart then
        settle
        take
        return .sequence line (← blockItems fuel t.mark)
      else if inBlock && kind == .mappingStart then
        settle
        take
        return .mapping line (← blockEntries fuel t.mark)
      else throw (.reading "did not find expected node content" t.mark t.mark)

/-- A value, or nothing if one of `kinds` comes next. -/
def nodeUnless : (fuel : Nat) → (kinds : List Token.Kind) → (mark : Mark) →
    (inBlock flush : Bool) → Reader Node
  | 0, _, _, _, _ => throw ⟨"exceeded max depth", none⟩
  | fuel + 1, kinds, mark, inBlock, flush => do
    if kinds.contains (← look).kind then empty mark else node fuel inBlock flush

/-- The entries of an indented sequence, up to its end. -/
def blockItems : (fuel : Nat) → Mark → Reader (List Node)
  | 0, _ => throw ⟨"exceeded max depth", none⟩
  | fuel + 1, start => do
    let t ← look
    match t.kind with
    | .entry =>
      take
      let item ← nodeUnless fuel [.entry, .blockEnd] t.mark true false
      return item :: (← blockItems fuel start)
    | .blockEnd =>
      take
      settle
      return []
    | _ => throw (.reading "did not find expected '-' indicator" start t.mark)

/-- The entries of a sequence that is not indented. -/
def flushItems : (fuel : Nat) → Reader (List Node)
  | 0 => throw ⟨"exceeded max depth", none⟩
  | fuel + 1 => do
    let t ← look
    match t.kind with
    | .entry =>
      take
      let item ← nodeUnless fuel [.entry, .key, .value, .blockEnd] t.mark true false
      return item :: (← flushItems fuel)
    | _ =>
      settle
      return []

/-- The entries of a block mapping, up to its end. -/
def blockEntries : (fuel : Nat) → Mark → Reader (List (Node × Node))
  | 0, _ => throw ⟨"exceeded max depth", none⟩
  | fuel + 1, start => do
    let t ← look
    match t.kind with
    | .key =>
      take
      let key ← nodeUnless fuel [.key, .value, .blockEnd] t.mark true true
      let v ← look
      let value ←
        if v.kind == .value then
          take
          nodeUnless fuel [.key, .value, .blockEnd] v.mark true true
        else empty v.mark
      return (key, value) :: (← blockEntries fuel start)
    | .blockEnd =>
      take
      settle
      return []
    | _ => throw (.reading "did not find expected key" start t.mark)

/-- The items of a sequence in brackets, up to the closing one. -/
def flowItems : (fuel : Nat) → Mark → (first : Bool) → Reader (List Node)
  | 0, _, _ => throw ⟨"exceeded max depth", none⟩
  | fuel + 1, start, first => do
    let t ← look
    if t.kind != .flowSequenceEnd && !first then
      if t.kind == .separator then take
      else throw (.reading "did not find expected ',' or ']'" start t.mark)
    let t ← look
    match t.kind with
    | .flowSequenceEnd =>
      take
      settle
      return []
    | .key =>
      take
      settle
      let entry ← flowPair fuel
      return .mapping (t.mark.line + 1) [entry] :: (← flowItems fuel start false)
    | _ =>
      let item ← node fuel false false
      return item :: (← flowItems fuel start false)

/-- A key and its value as an item of a sequence in brackets.  A mark that stands where the key
should be is passed over, whichever it is. -/
def flowPair : (fuel : Nat) → Reader (Node × Node)
  | 0 => throw ⟨"exceeded max depth", none⟩
  | fuel + 1 => do
    let k ← look
    let key ←
      if [.value, .separator, .flowSequenceEnd].contains k.kind then
        take
        empty k.mark
      else node fuel false false
    let value ← flowValue fuel .flowSequenceEnd
    let _ ← look
    settle
    return (key, value)

/-- The value behind a key in brackets that are closed by `closing`. -/
def flowValue : (fuel : Nat) → (closing : Token.Kind) → Reader Node
  | 0, _ => throw ⟨"exceeded max depth", none⟩
  | fuel + 1, closing => do
    let v ← look
    if v.kind == .value then
      take
      nodeUnless fuel [.separator, closing] v.mark false false
    else empty v.mark

/-- The entries of a mapping in braces, up to the closing one. -/
def flowEntries : (fuel : Nat) → Mark → (first : Bool) → Reader (List (Node × Node))
  | 0, _, _ => throw ⟨"exceeded max depth", none⟩
  | fuel + 1, start, first => do
    let t ← look
    if t.kind != .flowMappingEnd && !first then
      if t.kind == .separator then take
      else throw (.reading "did not find expected ',' or '\x7d'" start t.mark)
    let t ← look
    match t.kind with
    | .flowMappingEnd =>
      take
      settle
      return []
    | .key =>
      take
      let k ← look
      let key ← nodeUnless fuel [.value, .separator, .flowMappingEnd] k.mark false false
      let value ← flowValue fuel .flowMappingEnd
      return (key, value) :: (← flowEntries fuel start false)
    | _ =>
      let key ← node fuel false false
      let value ← empty (← look).mark
      return (key, value) :: (← flowEntries fuel start false)

end

/-- Reads the first document, if there is one.  What follows it is not read. -/
def document (fuel : Nat) : Reader (Option Node) := do
  let _ ← look
  take
  settle
  let t ← look
  match t.kind with
  | .streamEnd =>
    settle
    return none
  | kind =>
    if kind == .documentStart then take
    settle
    let root ←
      if kind == .documentStart then
        nodeUnless fuel [.documentStart, .documentEnd, .streamEnd] t.mark true false
      else node fuel true false
    let _ ← look
    settle
    return some root

/-- The first document of a text, if there is one.  Each character brings about a few tokens at
most, and each token a few steps. -/
def ofText (s : String) : Except Problem (Option Node) := do
  let (root, _) ← (document (12 * s.length + 40)).run { cursor := .ofText s }
  return root

end Node

end UntypedLambda.Yaml
