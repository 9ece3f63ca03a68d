import FusionStore.ForStd.Run

/-!
# Infinite runs

A schedule names the events of a run without an end.  `Often` is the fairness of a kind of
event, and `exists_leave` the rule for progress under it: a condition that keeps a measure
from growing and lets the fair events lower it is left at some step.
-/

namespace Run

variable {σ ε : Type*}

/-- The state after the first `n` events of a schedule. -/
def stateAt (step : σ → ε → σ) (s : σ) (sched : Nat → ε) : Nat → σ
  | 0 => s
  | n + 1 => step (stateAt step s sched n) (sched n)

/-- Events of the kind `p` come again and again. -/
def Often (p : ε → Prop) (sched : Nat → ε) : Prop := ∀ n, ∃ m, n ≤ m ∧ p (sched m)

variable {step : σ → ε → σ} {s : σ} {sched : Nat → ε}

/-- The state at a time is that after the first events. -/
theorem stateAt_eq_exec (n : Nat) :
    stateAt step s sched n = exec step s ((List.range n).map sched) := by
  induction n with
  | zero => rfl
  | succ n ih =>
    rw [stateAt, ih, List.range_succ, List.map_append]
    simp [exec]

/-- An invariant holds at every time. -/
theorem stateAt_invariant (inv : σ → Prop) (hstep : ∀ s e, inv s → inv (step s e)) (hs : inv s)
    (n : Nat) : inv (stateAt step s sched n) := by
  rw [stateAt_eq_exec]
  exact exec_invariant inv hstep _ hs

/-- What every step preserves stays. -/
theorem stateAt_stays (P : σ → Prop) (hstep : ∀ s e, P s → P (step s e)) {n m : Nat}
    (hle : n ≤ m) (h : P (stateAt step s sched n)) : P (stateAt step s sched m) := by
  induction hle with
  | refl => exact h
  | step _ ih => exact hstep _ _ ih

/-- While `P` holds no step raises the measure and the fair ones lower it, so `P` is left. -/
theorem exists_leave {P : σ → Prop} {p : ε → Prop} (μ : σ → Nat) (hoften : Often p sched)
    {n : Nat} (hn : P (stateAt step s sched n))
    (hstep : ∀ m, P (stateAt step s sched m) → P (stateAt step s sched (m + 1)) →
      μ (stateAt step s sched (m + 1)) ≤ μ (stateAt step s sched m) ∧
        (p (sched m) → μ (stateAt step s sched (m + 1)) < μ (stateAt step s sched m))) :
    ∃ m, n ≤ m ∧ P (stateAt step s sched m) ∧ ¬P (stateAt step s sched (m + 1)) := by
  -- induction on the measure; the next fair event lowers it, if `P` lasts until then
  generalize hk : μ (stateAt step s sched n) = k
  induction k using Nat.strongRecOn generalizing n with
  | ind k ih =>
    obtain ⟨m, hle, hp⟩ := hoften n
    -- suppose that it lasts; then the measure never rises
    by_contra hstay
    have hlast : ∀ i, P (stateAt step s sched (n + i)) ∧
        μ (stateAt step s sched (n + i)) ≤ k := by
      intro i
      induction i with
      | zero => exact ⟨hn, Nat.le_of_eq hk⟩
      | succ i ihi =>
        have hnext : P (stateAt step s sched (n + i + 1)) :=
          by_contra fun hleft => hstay ⟨n + i, Nat.le_add_right _ _, ihi.1, hleft⟩
        exact ⟨hnext, Nat.le_trans (hstep _ ihi.1 hnext).1 ihi.2⟩
    obtain ⟨i, rfl⟩ := Nat.exists_eq_add_of_le hle
    have hnow := hlast i
    have hnext := hlast (i + 1)
    have hlt := (hstep (n + i) hnow.1 hnext.1).2 hp
    obtain ⟨m, hm, hleave⟩ := ih _ (Nat.lt_of_lt_of_le hlt hnow.2) hnext.1 rfl
    exact hstay ⟨m, by omega, hleave⟩

end Run
