import UntypedLambda.Expansion
import UntypedLambda.Log.Entry
import UntypedLambda.Log.Verbosity
import UntypedLambda.Reduction

/-! # The log

An ordered record of what was read, the steps of each derivation, results and errors.  Ids
keep growing when the log is cleared.  Entries beyond the capacity are dropped and counted, but
delivered to the subscribers like all others. -/
set_option autoImplicit false

namespace UntypedLambda

/-- An entry handed to the subscriber with that index. -/
structure Delivery where
  subscriber : Nat
  entry : Entry
deriving DecidableEq, Repr, Inhabited

/-- A capacity of zero is no limit. -/
structure Log where
  verbosity : Verbosity
  capacity : Nat := 0
  lastId : Nat := 0
  sequence : Nat := 0
  entries : Array Entry := #[]
  dropped : Nat := 0
  hasError : Bool := false
  source : List String := []
  subscribers : List String := []
  deliveries : Array Delivery := #[]
deriving Repr, Inhabited

namespace Log

def new (verbosity : Verbosity) : Log := { verbosity := verbosity }

def setCapacity (log : Log) (capacity : Int) : Log := { log with capacity := capacity.toNat }

def setVerbosity (log : Log) (verbosity : Verbosity) : Log := { log with verbosity := verbosity }

/-- The text being worked on, which errors quote. -/
def setSource (log : Log) (source : String) : Log := { log with source := Text.lines source }

def subscribe (log : Log) (name : String) : Log :=
  { log with subscribers := log.subscribers ++ [name] }

def clear (log : Log) : Log :=
  { log with entries := #[], sequence := 0, hasError := false, dropped := 0 }

/-- Forgets what was delivered so far. -/
def forgetDeliveries (log : Log) : Log := { log with deliveries := #[] }

/-! ## Adding entries -/

def isFull (log : Log) : Bool := 0 < log.capacity && log.capacity ≤ log.entries.size

/-- Adds an entry, whose id is the log's last id afterwards. -/
def add (log : Log) (kind : Entry.Kind) (message : String) (detail : String := "")
    (parent : Nat := 0) : Log :=
  let entry : Entry := ⟨log.lastId + 1, parent, log.sequence + 1, kind, message, detail⟩
  let full := log.isFull
  { log with
    lastId := log.lastId + 1
    sequence := log.sequence + 1
    entries := if full then log.entries else log.entries.push entry
    dropped := if full then log.dropped + 1 else log.dropped
    deliveries :=
      log.deliveries ++ ((List.range log.subscribers.length).map (Delivery.mk · entry)).toArray }

def showsSteps (log : Log) : Bool := log.verbosity.atLeast .low

/-- Explanations are kept at high verbosity only. -/
def explain (log : Log) (detail : String) : String :=
  if log.verbosity.atLeast .high then detail else ""

/-- Adds a step of a derivation, if steps are shown. -/
def addStep (log : Log) (kind : Entry.Kind) (message : String) (detail : String := "") : Log :=
  if log.showsSteps then log.add kind message (log.explain detail) else log

def addFreeRename (log : Log) (old fresh : String) : Log :=
  log.addStep .freeRename ("'" ++ old ++ "' → '" ++ fresh ++ "'")

def addDelta (log : Log) (name expanded : String) : Log :=
  log.addStep .delta ("expanded '" ++ name ++ "' into '" ++ expanded ++ "'")

def addEquivalence (log : Log) (names : List String) (parent : Nat) : Log :=
  log.add .equivalence ("equivalent to: " ++ ", ".intercalate names) "" parent

/-! ## Whole derivations -/

def addEvent (log : Log) (event : Reduction.Event) : Log :=
  match event with
  | .alpha root _ _ _ => log.addStep .alpha root.text event.detail
  | .beta root _ _ => log.addStep .beta root.text event.detail
  | .free old fresh => log.addFreeRename old fresh

/-- The steps of an expansion, and its outcome if anything was expanded. -/
def addExpansion (log : Log) (run : Expansion.Run) : Log :=
  if log.showsSteps then
    let log := run.unfoldings.foldl (fun log u => log.addDelta u.name u.definition.text) log
    match run.summary? with
    | some t => log.addStep .deltaSummary t.text
    | none => log
  else log

def addReduction (log : Log) (run : Reduction.Run) : Log :=
  if log.showsSteps then run.events.foldl addEvent log else log

/-! ## Errors -/

/-- A line of source, and below it a row of carets under the columns in question. -/
def caret (line : String) (loc : Location) : String :=
  let row := List.replicate (loc.col - 1).toNat ' ' ++ List.replicate (max loc.length 1).toNat '^'
    ++ (if loc.atEnd then ['^'] else [])
  line ++ "\n" ++ String.ofList row

/-- The source line with that number, counted from one. -/
def sourceLine? (log : Log) (line : Int) : Option String :=
  if line < 1 then none else log.source[(line - 1).toNat]?

/-- Records an error.  If it has a place in the source, an entry below it quotes the line. -/
def report (log : Log) (message : String) (place : Option Location) : Log :=
  let log := { log with hasError := true }.add .error message
  match place with
  | none => log
  | some loc =>
    match log.sourceLine? loc.line with
    | none => log
    | some line => log.add .error (caret line loc) "" log.lastId

def reportError (log : Log) (e : Error) : Log := log.report e.message e.location?

/-! ## Views -/

/-- The entries that make up derivations. -/
def derivation (log : Log) : List Entry := log.entries.toList.filter (·.kind.isDerivation)

/-- Every entry on a line of its own. -/
def text (log : Log) : String := String.join (log.entries.toList.map (·.text ++ "\n"))

end Log

end UntypedLambda
