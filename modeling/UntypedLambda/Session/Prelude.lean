/-! # The prelude

The definitions that every session starts with: logic, lists, trees and small numerals.  Names
listed together stand for one and the same term. -/
set_option autoImplicit false

namespace UntypedLambda

structure Prelude.Item where
  names : List String
  source : String

namespace Prelude

def logic : List Item :=
  [⟨["true"], "(λt. (λf. t))"⟩,
   ⟨["false"], "(λt. (λf. f))"⟩,
   ⟨["and"], "(λa. (λb. ((a b) a)))"⟩,
   ⟨["or"], "(λa. (λb. ((a a) b)))"⟩,
   ⟨["not"], "(λb. ((b false) true))"⟩,
   ⟨["if"], "(λp. (λa. (λb. ((p a) b))))"⟩]

def lists : List Item :=
  [⟨["pair", "cons"], "(λx. (λy. (λf. ((f x) y))))"⟩,
   ⟨["first", "car"], "(λp. (p true))"⟩,
   ⟨["second", "cdr"], "(λp. (p false))"⟩,
   ⟨["nil", "empty"], "(λx. true)"⟩,
   ⟨["null", "isempty"], "(λp. (p (λx. (λy. false))))"⟩]

def trees : List Item :=
  [⟨["tree"], "(λd. (λl. (λr. ((pair d) ((pair l) r)))))"⟩,
   ⟨["datum"], "(λt. (first t))"⟩,
   ⟨["left"], "(λt. (first (second t)))"⟩,
   ⟨["right"], "(λt. (second (second t)))"⟩]

def arithmetic : List Item :=
  [⟨["zero"], "(λf. (λx. x))"⟩,
   ⟨["one"], "(λf. (λx. (f x)))"⟩,
   ⟨["two"], "(λf. (λx. (f (f x))))"⟩,
   ⟨["three"], "(λf. (λx. (f (f (f x)))))"⟩,
   ⟨["four"], "(λf. (λx. (f (f (f (f x))))))"⟩,
   ⟨["five"], "(λf. (λx. (f (f (f (f (f x)))))))"⟩,
   ⟨["incr"], "(λn. (λf. (λy. (f ((n f) y)))))"⟩,
   ⟨["plus"], "(λm. (λn. ((m incr) n)))"⟩,
   ⟨["times"], "(λm. (λn. ((m (plus n)) zero)))"⟩,
   ⟨["iszero"], "(λn. ((n (λy. false)) true))"⟩]

/-- All items, in the order in which they are read. -/
def items : List Item := logic ++ lists ++ trees ++ arithmetic

end Prelude

end UntypedLambda
