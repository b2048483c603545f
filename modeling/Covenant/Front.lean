/-
**Reading off the front of a list.**

A reader takes some items off the front of a list and leaves the rest.  To end, the loop around it
needs to know that the rest is shorter, so the reader hands over that proof with the rest.

Main definitions:

* `Covenant.Front` — a value, and what is left behind it.
-/

set_option relaxedAutoImplicit false
set_option autoImplicit false

namespace Covenant

/-- A value read off the front of a list of items of type `τ`, and the rest of the list, which has
fewer than `bound` items. -/
structure Front (τ α : Type) (bound : Nat) where
  value : α
  rest : List τ
  rest_lt : rest.length < bound

/-- What is shorter than something within a bound is within the bound. -/
theorem length_lt_of_shorter {τ : Type} {rest items : List τ} {bound : Nat}
    (shorter : rest.length < items.length) (within : items.length < bound) : rest.length < bound :=
  Nat.lt_trans shorter within

/-- A list is shorter than itself with an item before it. -/
theorem length_lt_succ {τ : Type} (rest : List τ) : rest.length < rest.length + 1 :=
  Nat.lt_succ_self rest.length

namespace Front

variable {τ α β : Type} {m n : Nat}

/-- Another value in place of the one that was read. -/
def map (f : α → β) (front : Front τ α n) : Front τ β n :=
  ⟨f front.value, front.rest, front.rest_lt⟩

/-- A reading within a shorter list is one within a longer list. -/
def widen (front : Front τ α m) (h : m ≤ n) : Front τ α n :=
  ⟨front.value, front.rest, Nat.lt_of_lt_of_le front.rest_lt h⟩

/-- The same value with the next item dropped from the rest, if that is the given one. -/
def skip? [DecidableEq τ] (item : τ) (front : Front τ α n) : Option (Front τ α n) :=
  match h : front.rest with
  | [] => none
  | next :: rest =>
    if next = item then
      some ⟨front.value, rest, by
        have := front.rest_lt
        simp only [h, List.length_cons] at this
        omega⟩
    else none

@[simp] theorem value_map (f : α → β) (front : Front τ α n) :
    (front.map f).value = f front.value := rfl

@[simp] theorem rest_map (f : α → β) (front : Front τ α n) :
    (front.map f).rest = front.rest := rfl

@[simp] theorem value_widen (front : Front τ α m) (h : m ≤ n) :
    (front.widen h).value = front.value := rfl

@[simp] theorem rest_widen (front : Front τ α m) (h : m ≤ n) :
    (front.widen h).rest = front.rest := rfl

end Front

end Covenant
