/-!
# Decisions

Words, bytes and characters are finitely many, but a statement about them is not decided by trying
all of them. The instances are active where `Decisions` is opened.
-/

namespace Abnf.Decisions

/-- What is said of the members of a list is decided at these members. -/
scoped instance (priority := 1100) decidableForallMem {α : Type} (p : α → Prop) [DecidablePred p]
    (as : List α) : Decidable (∀ a ∈ as, p a) :=
  List.decidableBAll p as

/-- What is said of all 32-bit words is not decided by computation, so that a case analysis of
opcodes does not run through the bounds of a repetition. -/
noncomputable scoped instance (priority := 1100) decidableForallWord (p : UInt32 → Prop) :
    Decidable (∀ word, p word) :=
  Classical.propDecidable _

end Abnf.Decisions
