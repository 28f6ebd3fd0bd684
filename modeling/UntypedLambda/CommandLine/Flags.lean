import UntypedLambda.Number.Integer
import UntypedLambda.Text.Quoted

/-! # Command-line flags

A flag is written with one dash or two.  Its value follows behind an equals sign or, except for
switches, as the next argument.  The first argument that is no flag ends them. -/
set_option autoImplicit false

namespace UntypedLambda.CommandLine

structure Flags where
  verbose : Bool := false
  veryVerbose : Bool := false
  renameFree : Bool := false
  noEquivalents : Bool := false
  maxDepth : Int := 0
  config : String := ""
  repl : Bool := false
  watch : Bool := false
  trace : Bool := false
  stats : Bool := false
deriving DecidableEq, Repr, Inhabited

/-- What a flag sets. -/
inductive Flag.Action where
  | switch (set : Bool → Flags → Flags)
  | integer (set : Int → Flags → Flags)
  | text (set : String → Flags → Flags)

structure Flag where
  name : String
  action : Flag.Action
  description : String

/-- All flags, in the order of their names. -/
def flags : List Flag :=
  [⟨"config", .text fun v f => { f with config := v }, "YAML options file"⟩,
   ⟨"max-depth", .integer fun v f => { f with maxDepth := v },
    "recursion bound for expansion and reduction"⟩,
   ⟨"no-equiv", .switch fun v f => { f with noEquivalents := v },
    "do not list bindings equivalent to a result"⟩,
   ⟨"rename-free", .switch fun v f => { f with renameFree := v },
    "rename free variables to X`n"⟩,
   ⟨"repl", .switch fun v f => { f with repl := v }, "start an interactive session"⟩,
   ⟨"stats", .switch fun v f => { f with stats := v }, "print statistics to stderr"⟩,
   ⟨"trace", .switch fun v f => { f with trace := v }, "print the derivation log"⟩,
   ⟨"v", .switch fun v f => { f with verbose := v }, "log α/β/δ steps"⟩,
   ⟨"vv", .switch fun v f => { f with veryVerbose := v }, "log steps with explanations"⟩,
   ⟨"watch", .switch fun v f => { f with watch := v },
    "re-run the input file whenever it changes"⟩]

/-! ## Usage -/

def Flag.typeName (flag : Flag) : String :=
  match flag.action with
  | .switch _ => ""
  | .integer _ => " int"
  | .text _ => " string"

/-- The flag and its description, on one line if the flag is a single letter without a value. -/
def Flag.usage (flag : Flag) : String :=
  let head := "  -" ++ flag.name ++ flag.typeName
  head ++ (if head.length ≤ 4 then "\t" else "\n    \t") ++ flag.description ++ "\n"

def usage : String := "Usage of lamb:\n" ++ String.join (flags.map Flag.usage)

/-! ## Parsing -/

inductive FlagError where
  | help
  | malformed (argument : String)
  | unknown (name : String)
  | noValue (name : String)
  | badSwitch (name value : String)
  | badInteger (name value : String) (e : Number.NumeralError)
deriving DecidableEq, Repr, Inhabited

/-- What is printed about a wrong use of flags.  A request for help gets only the usage. -/
def FlagError.message : FlagError → String
  | help => usage
  | malformed argument => "bad flag syntax: " ++ argument ++ "\n" ++ usage
  | unknown name => "flag provided but not defined: -" ++ name ++ "\n" ++ usage
  | noValue name => "flag needs an argument: -" ++ name ++ "\n" ++ usage
  | badSwitch name value =>
    "invalid boolean value " ++ Text.quoted value ++ " for -" ++ name ++ ": parse error\n" ++ usage
  | badInteger name value e =>
    let reason := match e with
      | .malformed => "parse error"
      | .outOfRange => "value out of range"
    "invalid value " ++ Text.quoted value ++ " for flag -" ++ name ++ ": " ++ reason ++ "\n"
      ++ usage

def truth? (s : String) : Option Bool :=
  if ["1", "t", "T", "true", "TRUE", "True"].contains s then some true
  else if ["0", "f", "F", "false", "FALSE", "False"].contains s then some false
  else none

/-- A flag as it is written: its name, and the value behind an equals sign. -/
structure Written where
  name : String
  value : Option String

inductive Argument where
  | plain
  | endOfFlags
  | malformed
  | flag (w : Written)

/-- Splits `name=value`; the name has at least one character. -/
def Written.ofText : List Char → Written
  | [] => ⟨"", none⟩
  | first :: rest =>
    let name := String.ofList (first :: rest.takeWhile (· != '='))
    match rest.dropWhile (· != '=') with
    | [] => ⟨name, none⟩
    | _ :: value => ⟨name, some (String.ofList value)⟩

def Argument.ofText (s : String) : Argument :=
  let flag (name : List Char) : Argument :=
    match name with
    | [] => .malformed
    | c :: rest => if c = '-' ∨ c = '=' then .malformed else .flag (.ofText (c :: rest))
  match s.toList with
  | ['-', '-'] => .endOfFlags
  | '-' :: '-' :: name => flag name
  | ['-'] => .plain
  | '-' :: name => flag name
  | _ => .plain

/-- Sets one flag that has no argument of its own, and yields nothing if it needs one. -/
def Flag.set (flag : Flag) (value : Option String) (f : Flags) : Except FlagError Flags :=
  match flag.action, value with
  | .switch set, none => .ok (set true f)
  | .switch set, some v =>
    match truth? v with
    | some b => .ok (set b f)
    | none => .error (.badSwitch flag.name v)
  | .integer set, some v =>
    match Number.integer v.toList with
    | .ok n => .ok (set n f)
    | .error e => .error (.badInteger flag.name v e)
  | .text set, some v => .ok (set v f)
  | .integer _, none => .error (.noValue flag.name)
  | .text _, none => .error (.noValue flag.name)

def Flag.isSwitch (flag : Flag) : Bool :=
  match flag.action with
  | .switch _ => true
  | _ => false

/-- The flags, and the arguments behind them. -/
def parseFlags (f : Flags) : List String → Except FlagError (Flags × List String)
  | [] => .ok (f, [])
  | argument :: rest =>
    match Argument.ofText argument with
    | .plain => .ok (f, argument :: rest)
    | .endOfFlags => .ok (f, rest)
    | .malformed => .error (.malformed argument)
    | .flag w =>
      match flags.find? (·.name == w.name) with
      | none => .error (if w.name = "help" ∨ w.name = "h" then .help else .unknown w.name)
      | some flag =>
        if flag.isSwitch || w.value.isSome then
          match flag.set w.value f with
          | .error e => .error e
          | .ok f => parseFlags f rest
        else
          match rest with
          | [] => .error (.noValue flag.name)
          | value :: rest =>
            match flag.set (some value) f with
            | .error e => .error e
            | .ok f => parseFlags f rest

end UntypedLambda.CommandLine
