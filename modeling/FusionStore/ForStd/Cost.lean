import Mathlib.Algebra.GroupWithZero.Nat
import FusionStore.ForStd.Run

/-!
# What a run costs

Each event of a run has a price, which may depend on the state before it.  An indexed
invariant whose index grows by the price at every step holds, after a run, at the sum of the
prices; the index may bound a quantity of the state from above or from below.
-/

namespace Run

variable {σ ε : Type*}

/-- What the run spends. -/
def spent (step : σ → ε → σ) (price : σ → ε → Nat) : σ → List ε → Nat
  | _, [] => 0
  | s, e :: es => price s e + spent step price (step s e) es

@[simp] theorem spent_nil (step : σ → ε → σ) (price : σ → ε → Nat) (s : σ) :
    spent step price s [] = 0 := rfl

@[simp] theorem spent_cons (step : σ → ε → σ) (price : σ → ε → Nat) (s : σ) (e : ε)
    (es : List ε) : spent step price s (e :: es) = price s e + spent step price (step s e) es :=
  rfl

/-- Prices of the events alone add up. -/
theorem spent_const (step : σ → ε → σ) (price : ε → Nat) (s : σ) (es : List ε) :
    spent step (fun _ e => price e) s es = (es.map price).sum := by
  induction es generalizing s with
  | nil => rfl
  | cons e es ih => rw [spent_cons, ih, List.map_cons, List.sum_cons]

/-- Two prices paid together. -/
theorem spent_add (step : σ → ε → σ) (p q : σ → ε → Nat) (s : σ) (es : List ε) :
    spent step (fun s e => p s e + q s e) s es = spent step p s es + spent step q s es := by
  induction es generalizing s with
  | nil => rfl
  | cons e es ih =>
    simp only [spent_cons, ih]
    omega

/-- A price paid several times. -/
theorem spent_mul_left (step : σ → ε → σ) (n : Nat) (p : σ → ε → Nat) (s : σ) (es : List ε) :
    spent step (fun s e => n * p s e) s es = n * spent step p s es := by
  induction es generalizing s with
  | nil => rfl
  | cons e es ih => rw [spent_cons, spent_cons, ih, Nat.mul_add]

/-- The induction rule. -/
theorem exec_spent {step : σ → ε → σ} {price : σ → ε → Nat} (inv : Nat → σ → Prop)
    (hstep : ∀ b s e, inv b s → inv (b + price s e) (step s e)) {b : Nat} {s : σ}
    (hs : inv b s) (es : List ε) : inv (b + spent step price s es) (exec step s es) := by
  induction es generalizing b s with
  | nil => exact hs
  | cons e es ih =>
    have htail := ih (hstep b s e hs)
    rwa [Nat.add_assoc] at htail

end Run
