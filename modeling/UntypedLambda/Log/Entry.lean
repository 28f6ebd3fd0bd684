/-! # Log entries -/
set_option autoImplicit false

namespace UntypedLambda

inductive Entry.Kind where
  | normal | input | parsed | alpha | beta | freeRename | delta | deltaSummary | result
  | equivalence | error | unknown
deriving DecidableEq, Repr, Inhabited

/-- `parent` is the id of the entry that this one comments on, zero if there is none.
`sequence` counts from the last time the log was cleared. -/
structure Entry where
  id : Nat
  parent : Nat
  sequence : Nat
  kind : Entry.Kind
  message : String
  detail : String
deriving DecidableEq, Repr, Inhabited

namespace Entry.Kind

def name : Kind → String
  | normal => "normal"
  | input => "input"
  | parsed => "parsed"
  | alpha => "alpha"
  | beta => "beta"
  | freeRename => "free-rename"
  | delta => "delta"
  | deltaSummary => "delta-summary"
  | result => "result"
  | equivalence => "equivalence"
  | error => "error"
  | unknown => "unknown"

/-- The kinds in the order of their numeric codes. -/
def all : List Kind :=
  [normal, input, parsed, alpha, beta, freeRename, delta, deltaSummary, result, equivalence, error]

def ofCode (code : Int) : Kind :=
  if code < 0 then unknown else all.getD code.toNat unknown

/-- The kinds that tell how a term was computed. -/
def isDerivation : Kind → Bool
  | parsed | alpha | beta | freeRename | delta | deltaSummary | result | equivalence => true
  | normal | input | error | unknown => false

end Entry.Kind

namespace Entry

/-- The message, with the detail indented below it if there is one. -/
def explained (e : Entry) : String :=
  if e.detail = "" then e.message else e.message ++ "\n    " ++ e.detail

/-- The entry as it is shown on a terminal. -/
def text (e : Entry) : String :=
  match e.kind with
  | .input => "λ> " ++ e.message
  | .parsed => "λ > " ++ e.message
  | .alpha => "α > " ++ e.explained
  | .beta => "β > " ++ e.explained
  | .freeRename => "ε > " ++ e.message
  | .delta => "    δ > " ++ e.message
  | .deltaSummary => "Δ > " ++ e.message
  | .result => ">>> " ++ e.message
  | .equivalence => "    ↳ " ++ e.message
  | .error => if e.parent = 0 then "Error: " ++ e.message else e.message
  | .normal | .unknown => e.message

end Entry

end UntypedLambda
