/-
**What a reader takes off the front of a list.**

A reader says nothing about the proof that it hands over with the rest, so what it does is stated by
the value that it gives and by what it leaves.

Main definitions:

* `Covenant.Reads` — a reader succeeds with a value and leaves a rest.
-/

import Covenant.Front
import Mathlib.Data.Nat.Notation

set_option relaxedAutoImplicit false
set_option autoImplicit false

namespace Covenant

/-- A reader succeeds with this value, and this is left. -/
def Reads {τ α ε : Type} {bound : ℕ} (outcome : Except ε (Front τ α bound)) (value : α)
    (rest : List τ) : Prop :=
  ∃ within, outcome = .ok ⟨value, rest, within⟩

section

variable {τ α β ε : Type} {bound wider : ℕ} {outcome : Except ε (Front τ α bound)}
  {value other : α} {rest behind : List τ}

/-- The value and the rest are determined. -/
theorem Reads.unique (one : Reads outcome value rest) (another : Reads outcome other behind) :
    value = other ∧ rest = behind := by
  obtain ⟨_, rfl⟩ := one
  obtain ⟨_, same⟩ := another
  cases same
  exact ⟨rfl, rfl⟩

theorem Reads.map (f : α → β) (reads : Reads outcome value rest) :
    Reads (outcome.map (Front.map f)) (f value) rest := by
  obtain ⟨within, rfl⟩ := reads
  exact ⟨within, rfl⟩

theorem Reads.widen (reads : Reads outcome value rest) (le : bound ≤ wider) :
    Reads (outcome.map fun front => front.widen le) value rest := by
  obtain ⟨within, rfl⟩ := reads
  exact ⟨Nat.lt_of_lt_of_le within le, rfl⟩

end

@[simp] theorem Front.skip?_cons {τ α : Type} [DecidableEq τ] {bound : ℕ} {item : τ} {value : α}
    {rest : List τ} (within : (item :: rest).length < bound) :
    (⟨value, item :: rest, within⟩ : Front τ α bound).skip? item =
      some ⟨value, rest, Nat.lt_of_succ_lt within⟩ := by
  simp [skip?]

theorem Front.skip?_cons_of_ne {τ α : Type} [DecidableEq τ] {bound : ℕ} {item next : τ} {value : α}
    {rest : List τ} (within : (next :: rest).length < bound) (other : next ≠ item) :
    (⟨value, next :: rest, within⟩ : Front τ α bound).skip? item = none := by
  simp [skip?, other]

/-- Only the given item is skipped. -/
theorem Front.eq_of_skip? {τ α : Type} [DecidableEq τ] {bound : ℕ} {item : τ}
    {front closed : Front τ α bound} (h : front.skip? item = some closed) :
    closed.value = front.value ∧ front.rest = item :: closed.rest := by
  unfold skip? at h
  split at h
  case h_1 => cases h
  case h_2 next rest same =>
    split at h
    case isTrue here =>
      cases h
      subst here
      exact ⟨rfl, same⟩
    case isFalse => cases h

/-- An item is skipped wherever it stands next. -/
theorem Front.head?_ne_of_skip? {τ α : Type} [DecidableEq τ] {bound : ℕ} {item : τ}
    {front : Front τ α bound} (h : front.skip? item = none) : front.rest.head? ≠ some item := by
  obtain ⟨value, rest, within⟩ := front
  cases rest with
  | nil => simp
  | cons next rest =>
      rintro ⟨⟩
      rw [skip?_cons] at h
      cases h

/-- Nothing is skipped where the item does not stand next. -/
theorem Front.skip?_of_head?_ne {τ α : Type} [DecidableEq τ] {bound : ℕ} {item : τ} {value : α}
    {rest : List τ} (within : rest.length < bound) (other : rest.head? ≠ some item) :
    (⟨value, rest, within⟩ : Front τ α bound).skip? item = none := by
  cases rest with
  | nil => rfl
  | cons next rest => exact skip?_cons_of_ne within (by simpa using other)

theorem Reads.ne_error {τ α ε : Type} {bound : ℕ} {outcome : Except ε (Front τ α bound)}
    {value : α} {rest : List τ} (reads : Reads outcome value rest) (mistake : ε) :
    outcome ≠ .error mistake := by
  obtain ⟨within, rfl⟩ := reads
  simp

end Covenant
