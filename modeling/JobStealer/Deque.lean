import Mathlib.Data.List.Basic

/-!
# Taking from the ends of a list under a condition

What a double-ended queue with guarded pops is for, on plain lists: `takeFront`
and `takeBack` remove the element at their end if it passes a test and change
nothing otherwise.
-/

namespace Deque
variable {α : Type} (p : α → Bool)

def takeFront : List α → Option α × List α
  | [] => (none, [])
  | a :: rest => if p a then (some a, rest) else (none, a :: rest)

def takeBack (l : List α) : Option α × List α :=
  ((takeFront p l.reverse).1, (takeFront p l.reverse).2.reverse)

@[simp] theorem takeFront_nil : takeFront p [] = (none, []) := rfl

@[simp] theorem takeBack_append_singleton (l : List α) (a : α) :
    takeBack p (l ++ [a]) = if p a then (some a, l) else (none, l ++ [a]) := by
  simp only [takeBack, List.reverse_append, List.reverse_singleton, List.singleton_append,
    takeFront]
  split <;> simp

variable {p}

theorem takeFront_cons_of_pos {a : α} {rest : List α} (h : p a = true) :
    takeFront p (a :: rest) = (some a, rest) := by simp [takeFront, h]

theorem takeFront_cons_of_neg {a : α} {rest : List α} (h : p a = false) :
    takeFront p (a :: rest) = (none, a :: rest) := by simp [takeFront, h]

/-- A pop at the front either takes what is there or changes nothing. -/
theorem takeFront_spec (l : List α) :
    (takeFront p l = (none, l) ∧ ∀ a ∈ l.head?, p a = false) ∨
      ∃ a rest, takeFront p l = (some a, rest) ∧ l = a :: rest ∧ p a = true := by
  cases l with
  | nil => exact .inl ⟨rfl, by simp⟩
  | cons a rest =>
    by_cases h : p a = true
    · exact .inr ⟨a, rest, takeFront_cons_of_pos h, rfl, h⟩
    · have h : p a = false := by simpa using h
      exact .inl ⟨takeFront_cons_of_neg h, by simpa using h⟩

theorem takeBack_spec (l : List α) :
    (takeBack p l = (none, l) ∧ ∀ a ∈ l.getLast?, p a = false) ∨
      ∃ a rest, takeBack p l = (some a, rest) ∧ l = rest ++ [a] ∧ p a = true := by
  rcases List.eq_nil_or_concat l with rfl | ⟨rest, a, rfl⟩
  · exact .inl ⟨rfl, by simp⟩
  · rw [List.concat_eq_append, takeBack_append_singleton]
    by_cases h : p a = true
    · exact .inr ⟨a, rest, by rw [if_pos h], rfl, h⟩
    · exact .inl ⟨by rw [if_neg h], by simpa using h⟩

end Deque
