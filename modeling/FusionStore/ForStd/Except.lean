import Mathlib.Tactic.TypeStar

/-!
# Programs that succeeded

A program in `Except` that returned a value has gone through all of its steps.
-/

namespace Except

universe u

variable {ε : Type*} {α β : Type u}

/-- A sequence that returns has returned in both parts. -/
theorem bind_ok {x : Except ε α} {f : α → Except ε β} {b : β} (h : (x >>= f) = .ok b) :
    ∃ a, x = .ok a ∧ f a = .ok b := by
  cases x with
  | error err => simp [bind, Except.bind] at h
  | ok a => exact ⟨a, rfl, h⟩

/-- What every turn of a loop that succeeds preserves holds after it; `done` are the elements
    the loop has been through. -/
theorem foldlM_ok {f : β → α → Except ε β} (inv : List α → β → Prop)
    (hstep : ∀ done b x b', inv done b → f b x = .ok b' → inv (done ++ [x]) b')
    (done : List α) {xs : List α} {b b' : β} (h : xs.foldlM f b = .ok b') (hb : inv done b) :
    inv (done ++ xs) b' := by
  induction xs generalizing done b with
  | nil =>
    obtain rfl := Except.ok.inj h
    simpa using hb
  | cons x xs ih =>
    rw [List.foldlM_cons] at h
    obtain ⟨c, hc, hrest⟩ := bind_ok h
    simpa using ih (done ++ [x]) hrest (hstep done b x c hb hc)

end Except
