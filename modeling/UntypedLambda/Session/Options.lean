import UntypedLambda.Log.Verbosity
import UntypedLambda.Reduction

/-! # Options and counters of a session -/
set_option autoImplicit false

namespace UntypedLambda

/-- `maxDepth` below one asks for the default bound, a `traceCapacity` of zero for no limit. -/
structure Options where
  verbosity : Verbosity := .low
  renameFree : Bool := false
  showEquivalent : Bool := true
  maxDepth : Int := Bound.default
  traceCapacity : Int := 0
deriving DecidableEq, Repr, Inhabited

namespace Options

def bound (o : Options) : Nat := Bound.ofSetting o.maxDepth

def reduction (o : Options) : Reduction.Options := { renameFree := o.renameFree, bound := o.bound }

end Options

structure Stats where
  evaluations : Nat := 0
  errors : Nat := 0
  betas : Nat := 0
  alphas : Nat := 0
  frees : Nat := 0
  deltas : Nat := 0
deriving DecidableEq, Repr, Inhabited

/-- Adds what a fresh reducer has counted. -/
def Stats.addReduction (s : Stats) (c : Reduction.Counters) : Stats :=
  { s with betas := s.betas + c.betas, alphas := s.alphas + c.alphas, frees := s.frees + c.frees }

end UntypedLambda
