import Std.Data.TreeMap
import Std.Data.TreeSet

/-! # The equivalence table

Which names have a normal form with a given structure fingerprint.  The table is kept in both
directions, from names to fingerprints and from fingerprints to sets of names. -/
set_option autoImplicit false

namespace UntypedLambda

structure Equivalences where
  fingerprints : Std.TreeMap String Int64
  classes : Std.TreeMap Int64 (Std.TreeSet String)

namespace Equivalences

def empty : Equivalences := ⟨∅, ∅⟩

/-- The names with a fingerprint, in order. -/
def names (e : Equivalences) (h : Int64) : List String :=
  match e.classes[h]? with
  | some members => members.toList
  | none => []

/-- Enters a name that is not in the table. -/
def insert (e : Equivalences) (name : String) (h : Int64) : Equivalences :=
  { fingerprints := e.fingerprints.insert name h
    classes := e.classes.insert h ((e.classes.getD h ∅).insert name) }

/-- Takes a name out; a class that becomes empty goes with it. -/
def erase (e : Equivalences) (name : String) : Equivalences :=
  match e.fingerprints[name]? with
  | none => e
  | some h =>
    let members := (e.classes.getD h ∅).erase name
    { fingerprints := e.fingerprints.erase name
      classes := if members.isEmpty then e.classes.erase h else e.classes.insert h members }

end Equivalences

end UntypedLambda
