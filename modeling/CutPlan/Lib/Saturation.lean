import Mathlib.Data.List.Basic
import Mathlib.Data.Set.Basic

/-! # Saturation

What follows from given facts by inferences with several premises, and the worklist that finds it: facts are
taken from the list one after the other, and what follows from those taken so far is put at its end.
-/

namespace CutPlan.Lib

variable {Fact : Type*}

/-- An inference takes a list of premises to a conclusion. -/
inductive Follows (given : Set Fact) (infers : List Fact → Fact → Prop) : Fact → Prop
  | given {fact : Fact} (isGiven : fact ∈ given) : Follows given infers fact
  | inferred {premises : List Fact} {conclusion : Fact} (inference : infers premises conclusion)
      (premisesFollow : ∀ premise ∈ premises, Follows given infers premise) : Follows given infers conclusion

variable {given moreGiven : Set Fact} {infers moreInfers : List Fact → Fact → Prop}

/-- What follows is in every set that has the given facts and is closed under the inferences. -/
theorem Follows.least (closed : Set Fact) (hasGiven : given ⊆ closed)
    (isClosed : ∀ premises conclusion, infers premises conclusion → (∀ premise ∈ premises, premise ∈ closed) →
      conclusion ∈ closed)
    {fact : Fact} (follows : Follows given infers fact) : fact ∈ closed := by
  induction follows with
  | given isGiven => exact hasGiven isGiven
  | inferred inference _ inductionHypothesis => exact isClosed _ _ inference inductionHypothesis

/-- Inferences that more facts and derived inferences can replace. -/
theorem Follows.mono (givenFollow : ∀ fact ∈ given, Follows moreGiven moreInfers fact)
    (inferencesFollow : ∀ premises conclusion, infers premises conclusion →
      (∀ premise ∈ premises, Follows moreGiven moreInfers premise) → Follows moreGiven moreInfers conclusion)
    {fact : Fact} (follows : Follows given infers fact) : Follows moreGiven moreInfers fact :=
  follows.least {fact | Follows moreGiven moreInfers fact} givenFollow inferencesFollow

/-- The facts that have been taken and those that still wait. -/
structure Saturating (given : Set Fact) (infers : List Fact → Fact → Prop) (taken waiting : List Fact) :
    Prop where
  follow : ∀ fact ∈ taken ++ waiting, Follows given infers fact
  hasGiven : ∀ fact ∈ given, fact ∈ taken ++ waiting
  closed : ∀ premises conclusion, infers premises conclusion → (∀ premise ∈ premises, premise ∈ taken) →
    conclusion ∈ taken ++ waiting

/-- What the next fact adds to the conclusions drawn before. -/
structure Concludes (infers : List Fact → Fact → Prop) (taken : List Fact) (next : Fact)
    (conclusions : List Fact) : Prop where
  sound : ∀ conclusion ∈ conclusions,
    ∃ premises, infers premises conclusion ∧ ∀ premise ∈ premises, premise ∈ taken ++ [next]
  complete : ∀ premises conclusion, infers premises conclusion →
    (∀ premise ∈ premises, premise ∈ taken ++ [next]) →
      (∀ premise ∈ premises, premise ∈ taken) ∨ conclusion ∈ conclusions

namespace Saturating

theorem start {facts : List Fact} (areGiven : ∀ fact, fact ∈ facts ↔ fact ∈ given)
    (havePremises : ∀ conclusion, ¬ infers [] conclusion) : Saturating given infers [] facts where
  follow := fun fact member => .given ((areGiven fact).mp member)
  hasGiven := fun fact isGiven => (areGiven fact).mpr isGiven
  closed := by
    intro premises conclusion inference inTaken
    cases premises with
    | nil => exact absurd inference (havePremises conclusion)
    | cons premise _ => simpa using inTaken premise List.mem_cons_self

/-- Facts that are known already need not be put on the list again. -/
theorem step {taken waiting conclusions added : List Fact} {next : Fact}
    (saturating : Saturating given infers taken (next :: waiting))
    (concludes : Concludes infers taken next conclusions) (addedOnly : ∀ fact ∈ added, fact ∈ conclusions)
    (allAdded : ∀ fact ∈ conclusions, fact ∈ taken ++ next :: waiting ∨ fact ∈ added) :
    Saturating given infers (taken ++ [next]) (waiting ++ added) := by
  have regrouped : taken ++ [next] ++ (waiting ++ added) = taken ++ next :: waiting ++ added := by simp
  have takenFollow : ∀ fact ∈ taken ++ [next], Follows given infers fact := by
    intro fact member
    apply saturating.follow fact
    simp only [List.mem_append, List.mem_cons] at member ⊢
    tauto
  constructor
  · intro fact member
    rw [regrouped, List.mem_append] at member
    cases member with
    | inl known => exact saturating.follow fact known
    | inr isAdded =>
      obtain ⟨premises, inference, inTaken⟩ := concludes.sound fact (addedOnly fact isAdded)
      exact .inferred inference fun premise member => takenFollow premise (inTaken premise member)
  · intro fact isGiven
    rw [regrouped]
    exact List.mem_append_left _ (saturating.hasGiven fact isGiven)
  · intro premises conclusion inference inTaken
    rw [regrouped, List.mem_append]
    cases concludes.complete premises conclusion inference inTaken with
    | inl old => exact Or.inl (saturating.closed premises conclusion inference old)
    | inr isNew => exact allAdded conclusion isNew

/-- When no fact waits, the facts taken are those that follow. -/
theorem finish {taken : List Fact} (saturating : Saturating given infers taken []) (fact : Fact) :
    fact ∈ taken ↔ Follows given infers fact := by
  have ⟨follow, hasGiven, closed⟩ := saturating
  simp only [List.append_nil] at follow hasGiven closed
  constructor
  · exact follow fact
  · intro follows
    exact follows.least {fact | fact ∈ taken} hasGiven fun premises conclusion inference inTaken =>
      closed premises conclusion inference inTaken

end Saturating

end CutPlan.Lib
