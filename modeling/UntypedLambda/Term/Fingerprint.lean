import UntypedLambda.Term.Fold

/-! # Fingerprints

Two numbers made from a term by a fold.  The value fingerprint mixes in the names as they are
written, the structure fingerprint only the order in which names first appear.  Every node is
mixed with the next number of a fixed pseudo-random stream, so the shape of the term counts.
Terms that differ may share a fingerprint. -/
set_option autoImplicit false

namespace UntypedLambda

namespace Fingerprint

/-- A text as a number: `31 * h + c` for each code point, wrapping. -/
def ofText (s : String) : Int64 :=
  s.toList.foldl (fun h c => 31 * h + Int64.ofNat c.toNat) 0

/-! ## The stream -/

structure Draws where
  state : UInt64
deriving DecidableEq, Repr, Inhabited

namespace Draws

def ofSeed (seed : String) : Draws := ⟨(ofText seed).toUInt64⟩

/-- A number from zero to ten thousand: the upper half of the new state, scaled. -/
def next (d : Draws) : Int64 × Draws :=
  let state := d.state * 2862933555777941757 + 3037000493
  let upper := (state >>> 32).toNat
  (Int64.ofNat (upper * 10000 / 4294967295), ⟨state⟩)

end Draws

/-! ## With names -/

def valueAlgebra : Term.Fold.Algebra Draws Int64 where
  var := fun name _ _ d =>
    let (r, d) := d.next
    ((r ^^^ 7901) + 23 * ofText name, d)
  abs := fun name _ _ body d =>
    let (r, d) := d.next
    ((r ^^^ 7919) + (17 * ofText name + body), d)
  app := fun _ _ fn arg d =>
    let (r, d) := d.next
    ((r ^^^ 7907) + (13 * fn + 19 * arg), d)

/-! ## By first appearance -/

/-- The stream, and the numbers given to the names met so far. -/
structure Naming where
  draws : Draws
  known : List (String × Int64)
deriving DecidableEq, Repr, Inhabited

def Naming.next (n : Naming) : Int64 × Naming :=
  let (r, draws) := n.draws.next
  (r, { n with draws := draws })

/-- The number of a name, drawn when the name is met for the first time. -/
def Naming.idFor (name : String) (n : Naming) : Int64 × Naming :=
  match n.known.lookup name with
  | some id => (id, n)
  | none =>
    let (id, draws) := n.draws.next
    (id, ⟨draws, (name, id) :: n.known⟩)

def structureAlgebra : Term.Fold.Algebra Naming Int64 where
  var := fun name _ _ n =>
    let (r, n) := n.next
    let (id, n) := n.idFor name
    ((r ^^^ 7853) + 41 * id, n)
  abs := fun name _ _ body n =>
    let (r, n) := n.next
    let (id, n) := n.idFor name
    ((r ^^^ 7877) + (29 * id + body), n)
  app := fun _ _ fn arg n =>
    let (r, n) := n.next
    ((r ^^^ 7867) + (31 * fn + 37 * arg), n)

/-- A fold that fails counts as zero. -/
def orZero : Except WalkError Int64 → Int64
  | .ok h => h
  | .error _ => 0

end Fingerprint

namespace Term

def valueFingerprint (t : Term) : Int64 :=
  Fingerprint.orZero (t.fold Fingerprint.valueAlgebra (.ofSeed "c4lcvlv5")).1

def structureFingerprint (t : Term) : Int64 :=
  Fingerprint.orZero (t.fold Fingerprint.structureAlgebra ⟨.ofSeed "l4mbda", []⟩).1

/-- Sharing a structure fingerprint. -/
def equivalent (s t : Term) : Bool := s.structureFingerprint == t.structureFingerprint

end Term

end UntypedLambda
