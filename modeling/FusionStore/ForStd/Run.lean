import Mathlib.Data.List.Basic

/-!
# Guarded runs of a step function

A system is a step function `step : σ → ε → σ`; a run is the list of its events.
`Guarded` says that every step of a run meets a condition on the state before it
and on the event, and `Guarded.invariant` is the induction rule for such runs.
-/

namespace Run

variable {σ ε : Type*}

/-- The state after the events `es`. -/
def exec (step : σ → ε → σ) (s : σ) (es : List ε) : σ := es.foldl step s

@[simp] theorem exec_nil (step : σ → ε → σ) (s : σ) : exec step s [] = s := rfl

@[simp] theorem exec_cons (step : σ → ε → σ) (s : σ) (e : ε) (es : List ε) :
    exec step s (e :: es) = exec step (step s e) es := rfl

/-- Every step of the run meets `cond`, evaluated in the state before the step. -/
def Guarded (step : σ → ε → σ) (cond : σ → ε → Prop) : σ → List ε → Prop
  | _, [] => True
  | s, e :: es => cond s e ∧ Guarded step cond (step s e) es

instance Guarded.decidable (step : σ → ε → σ) (cond : σ → ε → Prop)
    [∀ s e, Decidable (cond s e)] : ∀ s es, Decidable (Guarded step cond s es)
  | _, [] => .isTrue trivial
  | s, e :: es =>
    have := Guarded.decidable step cond (step s e) es
    inferInstanceAs (Decidable (cond s e ∧ Guarded step cond (step s e) es))

/-- A guarded run is one part after the other. -/
theorem guarded_append {step : σ → ε → σ} {cond : σ → ε → Prop} {s : σ} {es fs : List ε} :
    Guarded step cond s (es ++ fs) ↔
      Guarded step cond s es ∧ Guarded step cond (exec step s es) fs := by
  induction es generalizing s with
  | nil => exact (and_iff_right trivial).symm
  | cons e es ih => simp only [List.cons_append, Guarded, ih, exec_cons, and_assoc]

/-- What every guarded step preserves holds after every guarded run. -/
theorem Guarded.invariant {step : σ → ε → σ} {cond : σ → ε → Prop} {s : σ} {es : List ε}
    (h : Guarded step cond s es) (inv : σ → Prop)
    (hstep : ∀ s e, inv s → cond s e → inv (step s e)) (hs : inv s) :
    inv (exec step s es) := by
  induction es generalizing s with
  | nil => exact hs
  | cons e es ih => exact ih h.2 (hstep s e hs h.1)

/-- A condition on the events alone joins the guard. -/
theorem Guarded.and_forall {step : σ → ε → σ} {cond : σ → ε → Prop} {good : ε → Prop} {s : σ}
    {es : List ε} (h : Guarded step cond s es) (hgood : ∀ e ∈ es, good e) :
    Guarded step (fun s e => cond s e ∧ good e) s es := by
  induction es generalizing s with
  | nil => trivial
  | cons e es ih =>
    exact ⟨⟨h.1, hgood e List.mem_cons_self⟩,
      ih h.2 fun e he => hgood e (List.mem_cons_of_mem _ he)⟩

/-- A weaker condition guards the same run. -/
theorem Guarded.imp {step : σ → ε → σ} {cond cond' : σ → ε → Prop}
    (himp : ∀ s e, cond s e → cond' s e) {s : σ} {es : List ε} (h : Guarded step cond s es) :
    Guarded step cond' s es := by
  induction es generalizing s with
  | nil => trivial
  | cons e es ih => exact ⟨himp s e h.1, ih h.2⟩

/-- Two conditions that agree where the run goes guard the same run. -/
theorem guarded_congr {step : σ → ε → σ} {cond cond' agree : σ → ε → Prop} (inv : σ → Prop)
    (hstep : ∀ s e, inv s → cond' s e → inv (step s e))
    (hiff : ∀ s e, inv s → agree s e → (cond s e ↔ cond' s e)) {s : σ} {es : List ε}
    (h : Guarded step agree s es) (hs : inv s) :
    Guarded step cond s es ↔ Guarded step cond' s es := by
  induction es generalizing s with
  | nil => exact Iff.rfl
  | cons e es ih =>
    unfold Guarded
    rw [hiff s e hs h.1]
    exact and_congr_right fun hc => ih h.2 (hstep s e hs hc)

/-- The rule for runs without a condition. -/
theorem exec_invariant {step : σ → ε → σ} (inv : σ → Prop)
    (hstep : ∀ s e, inv s → inv (step s e)) {s : σ} (es : List ε) (hs : inv s) :
    inv (exec step s es) := by
  induction es generalizing s with
  | nil => exact hs
  | cons e es ih => exact ih (hstep s e hs)

/-- The rule for runs with a condition on the events alone. -/
theorem exec_invariant_of_forall {step : σ → ε → σ} {good : ε → Prop} (inv : σ → Prop)
    (hstep : ∀ s e, inv s → good e → inv (step s e)) {s : σ} {es : List ε}
    (hgood : ∀ e ∈ es, good e) (hs : inv s) : inv (exec step s es) := by
  induction es generalizing s with
  | nil => exact hs
  | cons e es ih =>
    exact ih (fun e he => hgood e (List.mem_cons_of_mem _ he))
      (hstep s e hs (hgood e List.mem_cons_self))

/-- Where a step stays good exactly if it meets the condition, a run is guarded exactly if
    it is good all along. -/
theorem guarded_iff {step : σ → ε → σ} {cond : σ → ε → Prop} {inv good : σ → Prop}
    (hinv : ∀ s e, inv s → inv (step s e))
    (hgood : ∀ s e, inv s → good s → (good (step s e) ↔ cond s e)) {s : σ} {es : List ε}
    (hs : inv s) (hg : good s) :
    Guarded step cond s es ↔ ∀ pre, pre <+: es → good (exec step s pre) := by
  induction es generalizing s with
  | nil =>
    refine iff_of_true trivial fun pre hpre => ?_
    rw [List.prefix_nil.mp hpre]
    exact hg
  | cons e es ih =>
    constructor
    · rintro ⟨hc, hrest⟩ pre hpre
      obtain rfl | ⟨pre, rfl, htail⟩ := List.prefix_cons_iff.mp hpre
      · exact hg
      · exact (ih (hinv s e hs) ((hgood s e hs hg).mpr hc)).mp hrest pre htail
    · intro h
      have hstep : good (step s e) := h [e] (List.cons_prefix_cons.mpr ⟨rfl, List.nil_prefix⟩)
      refine ⟨(hgood s e hs hg).mp hstep, (ih (hinv s e hs) hstep).mpr fun pre hpre => ?_⟩
      exact h (e :: pre) (List.cons_prefix_cons.mpr ⟨rfl, hpre⟩)

end Run
