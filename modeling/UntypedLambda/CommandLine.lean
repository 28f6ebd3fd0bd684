import UntypedLambda.CommandLine.Flags
import UntypedLambda.CommandLine.Input
import UntypedLambda.CommandLine.Workspace
import UntypedLambda.Settings.Yaml

/-! # The command

Runs the statements of a file or of the standard input, holds a conversation line by line, or
runs a file that is being watched.  Everything that is printed is a value here; the outermost
layer only reads and writes. -/
set_option autoImplicit false

namespace UntypedLambda.CommandLine

/-- What goes to the two outputs. -/
structure Printed where
  out : String := ""
  err : String := ""
deriving DecidableEq, Repr, Inhabited

def Printed.append (p q : Printed) : Printed := ⟨p.out ++ q.out, p.err ++ q.err⟩

instance : Append Printed := ⟨Printed.append⟩

/-- How the time taken is shown, and the speed at which something was done so many times. -/
structure Timing where
  elapsed : String
  speed : Nat → String

/-! ## Colours -/

inductive Colour where
  | red | blue

def Colour.code : Colour → String
  | red => "\x1b[31m"
  | blue => "\x1b[94m"

def paint (enabled : Bool) (colour : Colour) (s : String) : String :=
  if enabled then colour.code ++ s ++ "\x1b[0m" else s

/-! ## Starting a session -/

/-- The options that the flags ask for, on top of those in the settings. -/
def options (f : Flags) (settings : Option Settings) : Options :=
  let o : Options := { verbosity := .none }
  let o := match settings with
    | some s => s.apply o
    | none => o
  let verbosity :=
    if f.veryVerbose then .high else if f.verbose then .low else o.verbosity
  { o with
    verbosity := if f.trace && verbosity == .none then .low else verbosity
    renameFree := f.renameFree || o.renameFree
    showEquivalent := !f.noEquivalents && o.showEquivalent
    maxDepth := if 0 < f.maxDepth then f.maxDepth else o.maxDepth }

/-- Reads and checks the settings file that the flags name, if they name one. -/
def loadSettings (f : Flags) (read : String → Except String String) :
    Except String (Option Settings) :=
  if f.config = "" then .ok none
  else
    match read f.config with
    | .error message => .error ("config: " ++ message)
    | .ok text =>
      match Settings.ofYaml text with
      | .error e => .error ("config " ++ f.config ++ ": " ++ e.message)
      | .ok settings =>
        match settings.check? release with
        | some message => .error ("config " ++ f.config ++ ": " ++ message)
        | none => .ok (some settings)

/-- A session as the flags and settings ask for it. -/
def start (f : Flags) (read : String → Except String String) : Except String Session := do
  let settings ← loadSettings f read
  let session := Session.new (options f settings)
  match settings with
  | none => return session
  | some s =>
    match Settings.define s.bindings session with
    | (.ok _, session) => return session
    | (.error e, _) => throw e.message

/-! ## Statistics -/

def padRight (width : Nat) (s : String) : String :=
  s ++ String.ofList (List.replicate (width - s.length) ' ')

def padLeft (width : Nat) (s : String) : String :=
  String.ofList (List.replicate (width - s.length) ' ') ++ s

def statsLine (timing : Timing) (label : String) (n : Nat) : String :=
  "  " ++ padRight 17 (label ++ ":") ++ " " ++ padLeft 6 (toString n) ++ timing.speed n ++ "\n"

def statsText (timing : Timing) (s : Stats) : String :=
  "\nStats:\n"
    ++ "Time: " ++ timing.elapsed ++ "\n"
    ++ "Evaluations: " ++ toString s.evaluations ++ ", Errors: " ++ toString s.errors ++ "\n"
    ++ "\nBreakdown:\n"
    ++ statsLine timing "β-reductions" s.betas
    ++ statsLine timing "α-renames" s.alphas
    ++ statsLine timing "δ-expansions" s.deltas
    ++ (if 0 < s.frees then statsLine timing "ε-renames" s.frees else "")

/-! ## Running statements -/

/-- How far a computation got that was stopped. -/
def partialLine? (e : Error) : Option String := e.reached?.map fun t => "partial: " ++ t.text

def showReply (colour : Bool) (r : Session.Reply) : Printed :=
  match r.answer with
  | .failure e =>
    let partialLine := (partialLine? e).map (· ++ "\n")
    { err := paint colour .red ("Error: " ++ e.message) ++ "\n" ++ partialLine.getD "" }
  | .value t => { out := paint colour .blue t.text ++ "\n" }
  | .output text => if text = "" then {} else { out := text ++ "\n" }

def succeeded (replies : List Session.Reply) : Bool :=
  replies.all fun r => match r.answer with
    | .failure _ => false
    | _ => true

/-- What is printed when the statements of a text have been executed. -/
def report (f : Flags) (colour : Bool) (timing : Timing) (replies : List Session.Reply)
    (session : Session) : Printed :=
  (replies.foldl (fun p r => p ++ showReply colour r) {})
    ++ { err := if f.trace then session.log.text else "" }
    ++ { err := if f.stats then statsText timing session.stats else "" }

/-! ## Conversation -/

def prompt : String := "λ> "

def banner : String :=
  "lamb " ++ release ++ "\nType help for commands. Ctrl+C cancels input, Ctrl+D exits.\n"

/-- In a conversation the entries of the log are shown as they come. -/
def converse (session : Session) : Session :=
  { session with log := session.log.subscribe "terminal" }

def showEntry (colour : Bool) (e : Entry) : String :=
  match e.kind with
  | .input => ""
  | .error => paint colour .red e.text ++ "\n"
  | .result => paint colour .blue e.text ++ "\n"
  | _ => e.text ++ "\n"

/-- What is answered to a line. -/
def answerLine (colour : Bool) (session : Session) (line : String) : String × Session :=
  if Text.trim line = "" then ("", session)
  else
    let (replies, session) := session.exec line
    let entries := session.log.deliveries.toList.map fun d => showEntry colour d.entry
    let partials := replies.filterMap fun r => match r.answer with
      | .failure e => (partialLine? e).map fun s => paint colour .red s ++ "\n"
      | _ => none
    (String.join (entries ++ partials), { session with log := session.log.forgetDeliveries })

/-- What is answered to each of some lines. -/
def answers (colour : Bool) (session : Session) : List String → List String × Session
  | [] => ([], session)
  | line :: lines =>
    let (answer, session) := answerLine colour session line
    let (rest, session) := answers colour session lines
    (answer :: rest, session)

/-- A whole conversation: before each line, and at the end, there is a prompt. -/
def conversation (colour : Bool) (session : Session) (input : String) : String :=
  let (found, _) := answers colour (converse session) (Input.lines input)
  banner ++ String.join (found.map (prompt ++ ·)) ++ prompt ++ "\n"

/-! ## The whole command -/

structure Outcome where
  code : Nat
  printed : Printed
deriving DecidableEq, Repr, Inhabited

/-- Executes a text and reports on it. -/
def execute (f : Flags) (timing : Timing) (session : Session) (source : String) : Outcome :=
  let (replies, session) := session.exec source
  ⟨if succeeded replies then 0 else 1, report f false timing replies session⟩

/-- Runs a watched file once, until the command is interrupted.  What is watched is the
directory of the file. -/
def runWatched (f : Flags) (timing : Timing) (w : Workspace) (session : Session) (path : String) :
    Outcome :=
  let place := w.place.follow path
  let first : Printed :=
    match Workspace.textOf (w.lookAt place) (w.pathOf place) with
    | .error message => { err := "Error reading file: " ++ message ++ "\n" }
    | .ok source => (execute f timing session source).printed
  match w.lookAt place.dropLast with
  | .error obstacle => ⟨1, first ++ { err := "Error: " ++ obstacle.message ++ "\n" }⟩
  | .ok _ => ⟨0, first⟩

/-- Runs the command on a workspace, with a redirected standard input. -/
def run (timing : Timing) (w : Workspace) (input : String) (args : List String) : Outcome :=
  match parseFlags {} args with
  | .error e => ⟨2, { err := e.message }⟩
  | .ok (f, rest) =>
    match start f w.read with
    | .error message => ⟨1, { err := "Error: " ++ message ++ "\n" }⟩
    | .ok session =>
      if f.repl then ⟨0, { out := conversation false session input }⟩
      else
        match rest.head? with
        | none =>
          if f.watch then ⟨2, { err := "Error: -watch needs a file\n" }⟩
          else execute f timing session input
        | some path =>
          if f.watch then runWatched f timing w session path
          else
            match w.read path with
            | .error message => ⟨1, { err := "Error reading file: " ++ message ++ "\n" }⟩
            | .ok source => execute f timing session source

end UntypedLambda.CommandLine
