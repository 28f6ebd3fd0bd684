import UntypedLambda.Release.Constraint
import UntypedLambda.Session

/-! # Settings

What a settings file may say: which releases it is meant for, options to override, and further
definitions. -/
set_option autoImplicit false

namespace UntypedLambda

structure Settings.Definition where
  name : String := ""
  term : String := ""
deriving DecidableEq, Repr, Inhabited

/-- What is not set is left as it is. -/
structure Settings where
  requires : String := ""
  verbosity : String := ""
  renameFree : Option Bool := none
  showEquivalent : Option Bool := none
  maxDepth : Option Int := none
  traceCapacity : Option Int := none
  bindings : List Settings.Definition := []
deriving DecidableEq, Repr, Inhabited

inductive Settings.Fault where
  | constraint (requires : String) (e : Release.ConstraintError)
  | verbosity (message : String)
  | depth (n : Int)
  | capacity (n : Int)
  | noName (index : Nat)
  | noTerm (index : Nat) (name : String)
deriving DecidableEq, Repr, Inhabited

namespace Settings

def Fault.message : Fault → String
  | constraint requires e => "requires " ++ Text.quoted requires ++ ": " ++ e.message
  | verbosity message => message
  | depth n => "max_depth must be positive, got " ++ toString n
  | capacity n => "trace_capacity must not be negative, got " ++ toString n
  | noName index => "bindings[" ++ toString index ++ "]: missing name"
  | noTerm index name => "bindings[" ++ toString index ++ "] " ++ name ++ ": missing term"

/-! ## Validity -/

def validateDefinitions (index : Nat) : List Definition → Except Fault Unit
  | [] => .ok ()
  | d :: rest =>
    if d.name = "" then .error (.noName index)
    else if d.term = "" then .error (.noTerm index d.name)
    else validateDefinitions (index + 1) rest

/-- The constraint on releases, if there is one. -/
def constraint (s : Settings) : Except Fault (Option Release.Constraint) :=
  if s.requires = "" then .ok none
  else
    match Release.Constraint.ofText s.requires with
    | .ok c => .ok (some c)
    | .error e => .error (.constraint s.requires e)

def validate (s : Settings) : Except Fault Unit := do
  let _ ← s.constraint
  match Verbosity.ofName s.verbosity with
  | .error message => .error (.verbosity message)
  | .ok _ =>
    match s.maxDepth.filter (· < 1), s.traceCapacity.filter (· < 0) with
    | some n, _ => .error (.depth n)
    | none, some n => .error (.capacity n)
    | none, none => validateDefinitions 0 s.bindings

/-- What is wrong with using these settings in a release. -/
def check? (s : Settings) (release : String) : Option String :=
  match s.constraint with
  | .error fault => some fault.message
  | .ok none => none
  | .ok (some c) =>
    match Release.Version.ofText release with
    | .error e => some ("version " ++ Text.quoted release ++ ": " ++ e.message)
    | .ok v =>
      (c.faults? v).map fun messages =>
        "version " ++ v.text ++ " does not satisfy " ++ Text.quoted s.requires ++ ": "
          ++ "\n".intercalate messages

/-! ## Use -/

/-- Overrides the options that are set. -/
def apply (s : Settings) (o : Options) : Options :=
  { verbosity :=
      if s.verbosity = "" then o.verbosity
      else (Verbosity.ofName s.verbosity).toOption.getD .none
    renameFree := s.renameFree.getD o.renameFree
    showEquivalent := s.showEquivalent.getD o.showEquivalent
    maxDepth := s.maxDepth.getD o.maxDepth
    traceCapacity := s.traceCapacity.getD o.traceCapacity }

/-- Makes the definitions in order, up to one that fails. -/
def define : List Definition → Session → Except Error Unit × Session
  | [], session => (.ok (), session)
  | d :: rest, session =>
    match session.define d.name d.term with
    | (.ok _, session) => define rest session
    | (.error e, session) => (.error e, session)

end Settings

end UntypedLambda
