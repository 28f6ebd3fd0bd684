import UntypedLambda.Settings
import UntypedLambda.Yaml.Node
import UntypedLambda.Yaml.Value

/-! # Settings from a YAML text

Every mistake of type in the text is reported, in the order of the text.  The key `<<` stands for
the entries of the mapping behind it, or of several: they set the fields that the mapping itself
does not set. -/
set_option autoImplicit false

namespace UntypedLambda.Settings

open UntypedLambda.Yaml (Node Value)

/-! ## Mistakes -/

/-- The first `n` bytes of a text, with a replacement character for each byte of a character
that is cut. -/
def takeBytes : (n : Nat) → List Char → List Char
  | _, [] => []
  | n, c :: rest =>
    if c.utf8Size ≤ n then c :: takeBytes (n - c.utf8Size) rest
    else List.replicate n (Char.ofNat 0xFFFD)

/-- A scalar as a message quotes it: at most ten bytes, otherwise the first seven. -/
def excerpt (text : String) : String :=
  if 10 < text.utf8ByteSize then String.ofList (takeBytes 7 text.toList) ++ "..." else text

def atLine (line : Nat) (message : String) : String :=
  "line " ++ toString line ++ ": " ++ message

/-- What is said about repeated keys, for each pair of equal ones. -/
def repeatedKeys : List Node → List String
  | [] => []
  | key :: rest =>
    rest.filterMap (fun other =>
      if sameKey key other then
        some (atLine other.line ("mapping key " ++ Text.quoted (keyText other)
          ++ " already defined at line " ++ toString key.line))
      else none) ++ repeatedKeys rest
where
  keyText : Node → String
    | .scalar _ _ text => text
    | _ => ""
  sameKey : Node → Node → Bool
    | .scalar _ _ a, .scalar _ _ b => a == b
    | .sequence _ _, .sequence _ _ => true
    | .mapping _ _, .mapping _ _ => true
    | _, _ => false

/-- What is said about a value that is not of the kind `wanted`. -/
def mismatch (n : Node) (wanted : String) : List String :=
  match n with
  | .scalar line quoted text =>
    let tag := if quoted then "!!str" else (Value.ofPlain text).tag
    [atLine line ("cannot unmarshal " ++ tag ++ " `" ++ excerpt text ++ "` into " ++ wanted)]
  | .sequence line _ => [atLine line ("cannot unmarshal !!seq into " ++ wanted)]
  | .mapping line entries =>
    let repeated := repeatedKeys (entries.map (·.1))
    if repeated.isEmpty then [atLine line ("cannot unmarshal !!map into " ++ wanted)]
    else repeated

/-! ## Values -/

/-- A value, if there is one and it is of the kind wanted, and the mistakes found. -/
abbrev Decoded (α : Type) := Option α × List String

def isNull : Node → Bool
  | .scalar _ quoted text => !quoted && Value.ofPlain text == .null
  | _ => false

/-- Decodes a scalar that is not null. -/
def decodeScalar {α : Type} (wanted : String) (read : (quoted : Bool) → String → Option α)
    (n : Node) : Decoded α :=
  if isNull n then (none, [])
  else
    match n with
    | .scalar _ quoted text =>
      match read quoted text with
      | some a => (some a, [])
      | none => (none, mismatch n wanted)
    | n => (none, mismatch n wanted)

def decodeText : Node → Decoded String := decodeScalar "string" fun _ text => some text

def decodeInt : Node → Decoded Int :=
  decodeScalar "int" fun quoted text => if quoted then none else (Value.ofPlain text).toInt?

def decodeBool : Node → Decoded Bool :=
  decodeScalar "bool" fun quoted text =>
    match if quoted then Value.text else Value.ofPlain text with
    | .bool b => some b
    | .text => Value.boolOfWord? text
    | _ => none

/-! ## Structures -/

/-- A structure while a mapping is read into it. -/
structure Filling (σ : Type) where
  value : σ
  mistakes : List String := []
  /-- The fields that entries taken over from other mappings must leave alone. -/
  settled : List String := []

/-- A kind of structure: its name, and how a field is set from a value.  There is no way to set an
unknown field. -/
structure Shape (σ : Type) where
  name : String
  set : String → Node → σ → Option (Except Yaml.Problem (σ × List String))

/-- Sets one field. -/
def Shape.fill {σ : Type} (shape : Shape σ) (f : Filling σ) (line : Nat) (field : String)
    (n : Node) : Except Yaml.Problem (Filling σ) :=
  match shape.set field n f.value with
  | some result => do
    let (value, wrong) ← result
    return { f with value := value, mistakes := f.mistakes ++ wrong }
  | none =>
    let unknown := atLine line ("field " ++ field ++ " not found in type " ++ shape.name)
    .ok { f with mistakes := f.mistakes ++ [unknown] }

def isMergeKey : Node → Bool
  | .scalar _ quoted text => !quoted && Value.ofPlain text == .merge
  | _ => false

/-- The text of a key that is not a number or the like. -/
def keyName? : Node → Option String
  | .scalar _ quoted text =>
    let value := if quoted then Value.text else Value.ofPlain text
    if value == .text || value == .merge then some text else none
  | _ => none

/-- Sets the fields for the entries of a mapping, except merge keys.  Entries that are taken over
leave settled fields alone, and settle others. -/
def Shape.fillEntries {σ : Type} (shape : Shape σ) (takenOver : Bool) :
    Filling σ → List (Node × Node) → Except Yaml.Problem (Filling σ)
  | f, [] => .ok f
  | f, (key, value) :: rest =>
    if isMergeKey key then shape.fillEntries takenOver f rest
    else
      match decodeText key with
      | (none, wrong) =>
        shape.fillEntries takenOver { f with mistakes := f.mistakes ++ wrong } rest
      | (some field, _) =>
        if takenOver && f.settled.contains field then shape.fillEntries takenOver f rest
        else do
          let f := if takenOver then { f with settled := field :: f.settled } else f
          shape.fillEntries takenOver (← shape.fill f key.line field value) rest

def notMergeable : Yaml.Problem :=
  ⟨"map merge requires map or sequence of maps as the value", none⟩

/-- The mappings that a merge key stands for. -/
def mergedMappings (n : Node) : List (Except Yaml.Problem (List (Node × Node))) :=
  let mapping : Node → Except Yaml.Problem (List (Node × Node))
    | .mapping _ entries => .ok entries
    | _ => .error notMergeable
  match n with
  | .sequence _ items => items.map mapping
  | n => [mapping n]

/-- Reads a mapping into a structure, first its own entries, then those of the mappings that its
merge key stands for, as deep as `room` allows.  Nothing is read if keys are repeated. -/
def Shape.read {σ : Type} (shape : Shape σ) : (room : Nat) → (takenOver : Bool) → Filling σ →
    List (Node × Node) → Except Yaml.Problem (Filling σ)
  | 0, _, f, _ => .ok f
  | room + 1, takenOver, f, entries =>
    let repeated := repeatedKeys (entries.map (·.1))
    if !repeated.isEmpty then .ok { f with mistakes := f.mistakes ++ repeated }
    else do
      let f ← shape.fillEntries takenOver f entries
      match entries.find? (isMergeKey ·.1) with
      | none => return f
      | some (_, source) =>
        let f := if takenOver then f else { f with settled := entries.filterMap (keyName? ·.1) }
        (mergedMappings source).foldlM (fun f found => do shape.read room true f (← found)) f

/-- Decodes a mapping, starting from a value without fields set. -/
def Shape.decode {σ : Type} (shape : Shape σ) (room : Nat) (start : σ) (n : Node) :
    Except Yaml.Problem (Decoded σ) :=
  match n with
  | .mapping _ entries => do
    let f ← shape.read room false { value := start } entries
    return (if (repeatedKeys (entries.map (·.1))).isEmpty then some f.value else none, f.mistakes)
  | n => .ok (if isNull n then (none, []) else (none, mismatch n shape.name))

def definitionShape : Shape Definition where
  name := "config.Binding"
  set field n d :=
    let text := decodeText n
    if field = "name" then some (.ok ({ d with name := text.1.getD "" }, text.2))
    else if field = "term" then some (.ok ({ d with term := text.1.getD "" }, text.2))
    else none

/-- Entries without a value are left out. -/
def decodeDefinitions (room : Nat) (n : Node) : Except Yaml.Problem (Decoded (List Definition)) :=
  match n with
  | .sequence _ items => do
    let decoded ← items.mapM (definitionShape.decode room {})
    return (some (decoded.filterMap (·.1)), decoded.flatMap (·.2))
  | n => .ok (if isNull n then (none, []) else (none, mismatch n "[]config.Binding"))

/-- Puts a decoded value into a field. -/
def put {α σ : Type} (update : Option α → σ) (d : Decoded α) :
    Option (Except Yaml.Problem (σ × List String)) :=
  some (.ok (update d.1, d.2))

def shape (room : Nat) : Shape Settings where
  name := "config.Config"
  set field n s :=
    if field = "requires" then
      put (fun d => { s with requires := d.getD "" }) (decodeText n)
    else if field = "verbosity" then
      put (fun d => { s with verbosity := d.getD "" }) (decodeText n)
    else if field = "rename_free_vars" then
      put (fun d => { s with renameFree := d }) (decodeBool n)
    else if field = "show_equivalent" then
      put (fun d => { s with showEquivalent := d }) (decodeBool n)
    else if field = "max_depth" then
      put (fun d => { s with maxDepth := d }) (decodeInt n)
    else if field = "trace_capacity" then
      put (fun d => { s with traceCapacity := d }) (decodeInt n)
    else if field = "bindings" then
      some do
        let d ← decodeDefinitions room n
        return ({ s with bindings := d.1.getD [] }, d.2)
    else none

/-! ## The whole text -/

inductive LoadError where
  | malformed (p : Yaml.Problem)
  | mistyped (mistakes : List String)
  | invalid (fault : Fault)
deriving Repr

def LoadError.message : LoadError → String
  | malformed p => p.message
  | mistyped mistakes => "yaml: unmarshal errors:\n  " ++ "\n  ".intercalate mistakes
  | invalid fault => fault.message

/-- The settings in a text, and the mistakes in it.  An empty text sets nothing; one with `n`
characters is not nested deeper than that. -/
def decode (text : String) : Except Yaml.Problem (Settings × List String) := do
  match ← Node.ofText text with
  | none => return ({}, [])
  | some n =>
    let d ← (shape text.length).decode text.length {} n
    return (d.1.getD {}, d.2)

/-- Reads and validates settings. -/
def ofYaml (text : String) : Except LoadError Settings :=
  match decode text with
  | .error p => .error (.malformed p)
  | .ok (settings, mistakes) =>
    if mistakes.isEmpty then
      match settings.validate with
      | .ok _ => .ok settings
      | .error fault => .error (.invalid fault)
    else .error (.mistyped mistakes)

end UntypedLambda.Settings
