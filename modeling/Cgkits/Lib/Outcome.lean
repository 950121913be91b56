import Mathlib.Tactic.Basic

/-!
# Computations that may stop

The postcondition of a computation that either returns a value or stops with an error has two parts:
one for the errors and one for the values.  `Post E Q r` says that `r` has it.

The rules are those for a sequence of computations and for weaker postconditions.  `Agree e r r'`
says that `r` and `r'` are the same unless `r` stops with the error `e`.
-/

namespace Outcome

universe u

variable {ε : Type*} {α β : Type u}

/-- The computation stops with an error as in `E`, or it returns a value as in `Q`. -/
def Post (E : ε → Prop) (Q : α → Prop) : Except ε α → Prop
  | .error e => E e
  | .ok a => Q a

variable {E E' : ε → Prop} {P Q : α → Prop} {R : β → Prop} {r : Except ε α} {k : α → Except ε β}

/-- The rule for a computation that is followed by another one: the postcondition of the first is
the precondition of the second. -/
lemma Post.bind (h : Post E P r) (hk : ∀ a, P a → Post E R (k a)) : Post E R (r >>= k) := by
  cases r with
  | error e => exact h
  | ok a => exact hk a h

/-- The rule of consequence: a postcondition and what is known of the errors may be weakened. -/
lemma Post.imp (h : Post E P r) (hE : ∀ e, E e → E' e) (hQ : ∀ a, P a → Q a) : Post E' Q r := by
  cases r with
  | error e => exact hE e h
  | ok a => exact hQ a h

/-- The first computation stops with the error `e`, or it is the second one. -/
def Agree (e : ε) (r r' : Except ε α) : Prop := r = .error e ∨ r = r'

/-- Every computation agrees with itself, whatever the error that is let through. -/
lemma Agree.refl (e : ε) (r : Except ε α) : Agree e r r := .inr rfl

/-- Two computations agree if their first parts do and what follows does for every value. -/
lemma Agree.bind {e : ε} {r' : Except ε α} {k' : α → Except ε β} (h : Agree e r r')
    (hk : ∀ a, Agree e (k a) (k' a)) : Agree e (r >>= k) (r' >>= k') := by
  rcases h with rfl | rfl
  · exact .inl rfl
  · cases r with
    | error e' => exact .inr rfl
    | ok a => exact hk a

end Outcome
