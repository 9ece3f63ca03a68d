import Mathlib.Data.List.Nodup

/-!
# Linearizable objects

A history is what clients see of a shared object: operations are called and, later, answered.
It is linearizable if its operations can be put in one order that a sequential object allows,
that gives the same answers, and that agrees with real time: an operation that was answered
before another one was called comes first.  Operations without an answer may be in the order
or not.

A run in which every operation takes effect in one step between its call and its answer is
linearizable; the order is that of these steps.
-/

namespace Linear

variable {ι ο ρ σ : Type}

/-- What a client sees. -/
inductive Event (ι ο ρ : Type) where
  | call (i : ι) (op : ο)
  | ret (i : ι) (res : ρ)

/-- An operation that has taken effect, with the answer it is going to get. -/
structure Entry (ι ο ρ : Type) where
  id : ι
  op : ο
  res : ρ

/-- Runs of the sequential object; `step` relates its state, an operation, an answer to that
    and the next state. -/
inductive Legal (step : σ → ο → ρ → σ → Prop) (s : σ) : List (Entry ι ο ρ) → σ → Prop
  | nil : Legal step s [] s
  | snoc {es : List (Entry ι ο ρ)} {t u : σ} {e : Entry ι ο ρ} (h : Legal step s es t)
      (he : step t e.op e.res u) : Legal step s (es ++ [e]) u

/-- `i` was answered before `j` was called. -/
def Before (h : List (Event ι ο ρ)) (i j : ι) : Prop :=
  ∃ pre post, h = pre ++ post ∧ (∃ r, .ret i r ∈ pre) ∧ ∃ op, .call j op ∈ post

/-- `es` is an order that explains the history `h`, from the state `s` to the state `t`. -/
structure Linearization (step : σ → ο → ρ → σ → Prop) (s : σ) (h : List (Event ι ο ρ))
    (es : List (Entry ι ο ρ)) (t : σ) : Prop where
  legal : Legal step s es t
  once : (es.map Entry.id).Nodup
  called : ∀ e ∈ es, .call e.id e.op ∈ h
  answered : ∀ i r, .ret i r ∈ h → ∃ op, ⟨i, op, r⟩ ∈ es
  ordered : ∀ i j, Before h i j → j ∈ es.map Entry.id → [i, j].Sublist (es.map Entry.id)

/-- A run whose operations take effect one at a time: the history and the operations that
    have taken effect. -/
inductive Traced (step : σ → ο → ρ → σ → Prop) (s : σ) :
    List (Event ι ο ρ) → List (Entry ι ο ρ) → σ → Prop
  | start : Traced step s [] [] s
  | call {h : List (Event ι ο ρ)} {es : List (Entry ι ο ρ)} {t : σ} {i : ι} {op : ο}
      (prev : Traced step s h es t) (hnew : ∀ op', .call i op' ∉ h) :
      Traced step s (h ++ [.call i op]) es t
  | commit {h : List (Event ι ο ρ)} {es : List (Entry ι ο ρ)} {t u : σ} {i : ι} {op : ο} {r : ρ}
      (prev : Traced step s h es t) (hcalled : .call i op ∈ h) (hnew : i ∉ es.map Entry.id)
      (hstep : step t op r u) : Traced step s h (es ++ [⟨i, op, r⟩]) u
  | ret {h : List (Event ι ο ρ)} {es : List (Entry ι ο ρ)} {t : σ} {i : ι} {op : ο} {r : ρ}
      (prev : Traced step s h es t) (hdone : ⟨i, op, r⟩ ∈ es) :
      Traced step s (h ++ [.ret i r]) es t

variable {step : σ → ο → ρ → σ → Prop} {s t : σ} {h : List (Event ι ο ρ)}
  {es : List (Entry ι ο ρ)} {i j : ι}

theorem not_before_nil : ¬Before ([] : List (Event ι ο ρ)) i j := by
  rintro ⟨pre, post, hsplit, ⟨r, hr⟩, -⟩
  rw [(List.append_eq_nil_iff.mp hsplit.symm).1] at hr
  exact List.not_mem_nil hr

/-- A new event puts an answer before a call only if it is the call. -/
theorem before_snoc {ev : Event ι ο ρ} (hb : Before (h ++ [ev]) i j) :
    Before h i j ∨ (∃ op, ev = .call j op) ∧ ∃ r, .ret i r ∈ h := by
  obtain ⟨pre, post, hsplit, ⟨r, hr⟩, op, hop⟩ := hb
  obtain ⟨mid, rfl, hmid⟩ | ⟨mid, rfl, hmid⟩ := List.append_eq_append_iff.mp hsplit
  · -- the cut is behind `h`
    cases mid with
    | nil =>
      obtain rfl : [ev] = post := hmid
      rw [List.append_nil] at hr
      exact Or.inr ⟨⟨op, (List.mem_singleton.mp hop).symm⟩, r, hr⟩
    | cons e mid =>
      have hnil : post = [] := by
        have hlen := congrArg List.length hmid
        simp only [List.length_cons, List.length_append, List.length_nil] at hlen
        exact List.eq_nil_of_length_eq_zero (by omega)
      rw [hnil] at hop
      exact absurd hop List.not_mem_nil
  · -- the cut is inside `h`
    subst hmid
    obtain hop | hop := List.mem_append.mp hop
    · exact Or.inl ⟨pre, mid, rfl, ⟨r, hr⟩, op, hop⟩
    · exact Or.inr ⟨⟨op, (List.mem_singleton.mp hop).symm⟩, r, List.mem_append_left _ hr⟩

theorem Linearization.start : Linearization step s ([] : List (Event ι ο ρ)) [] s where
  legal := .nil
  once := List.nodup_nil
  called := fun _ he => absurd he List.not_mem_nil
  answered := fun _ _ hr => absurd hr List.not_mem_nil
  ordered := fun _ _ hb => absurd hb not_before_nil

/-- A new call is linearized as before. -/
theorem Linearization.call (hl : Linearization step s h es t) {op : ο}
    (hnew : ∀ op', .call i op' ∉ h) : Linearization step s (h ++ [.call i op]) es t where
  legal := hl.legal
  once := hl.once
  called := fun e he => List.mem_append_left _ (hl.called e he)
  answered := by
    intro k r hr
    obtain hr | hr := List.mem_append.mp hr
    · exact hl.answered k r hr
    · cases List.mem_singleton.mp hr
  ordered := by
    intro a b hb hmem
    obtain hb | ⟨⟨op', heq⟩, -⟩ := before_snoc hb
    · exact hl.ordered a b hb hmem
    · -- what has just been called has not taken effect
      obtain ⟨e, he, rfl⟩ := List.mem_map.mp hmem
      obtain ⟨rfl, rfl⟩ := Event.call.inj heq
      exact absurd (hl.called e he) (hnew _)

/-- A call that is open may take effect now. -/
theorem Linearization.commit (hl : Linearization step s h es t) {op : ο} {r : ρ} {u : σ}
    (hcalled : .call i op ∈ h) (hnew : i ∉ es.map Entry.id) (hstep : step t op r u) :
    Linearization step s h (es ++ [⟨i, op, r⟩]) u where
  legal := .snoc hl.legal hstep
  once := by
    rw [List.map_append, List.map_singleton]
    exact List.nodup_append_comm.mp (List.nodup_cons.mpr ⟨hnew, hl.once⟩)
  called := by
    intro e he
    obtain he | he := List.mem_append.mp he
    · -- the entries before were called already
      exact hl.called e he
    · obtain rfl := List.mem_singleton.mp he
      exact hcalled
  answered := by
    intro k r' hr
    obtain ⟨op', hmem⟩ := hl.answered k r' hr
    exact ⟨op', List.mem_append_left _ hmem⟩
  ordered := by
    intro a b hb hmem
    rw [List.map_append, List.map_singleton] at hmem ⊢
    obtain hmem | hmem := List.mem_append.mp hmem
    · exact (hl.ordered a b hb hmem).trans (List.sublist_append_left _ _)
    · -- whatever was answered has taken effect before
      obtain rfl := List.mem_singleton.mp hmem
      obtain ⟨pre, post, rfl, ⟨r', hr⟩, -⟩ := hb
      obtain ⟨op', hdone⟩ := hl.answered a r' (List.mem_append_left _ hr)
      have ha : [a].Sublist (es.map Entry.id) :=
        List.singleton_sublist.mpr (List.mem_map.mpr ⟨_, hdone, rfl⟩)
      show ([a] ++ [b]).Sublist (es.map Entry.id ++ [b])
      exact ha.append (List.Sublist.refl [b])

/-- What has taken effect may be answered. -/
theorem Linearization.ret (hl : Linearization step s h es t) {op : ο} {r : ρ}
    (hdone : ⟨i, op, r⟩ ∈ es) : Linearization step s (h ++ [.ret i r]) es t where
  legal := hl.legal
  once := hl.once
  called := fun e he => List.mem_append_left _ (hl.called e he)
  answered := by
    intro k r' hr
    obtain hr | hr := List.mem_append.mp hr
    · exact hl.answered k r' hr
    · obtain ⟨rfl, rfl⟩ := Event.ret.inj (List.mem_singleton.mp hr)
      exact ⟨op, hdone⟩
  ordered := by
    intro a b hb hmem
    obtain hb | ⟨⟨op', heq⟩, -⟩ := before_snoc hb
    · exact hl.ordered a b hb hmem
    · cases heq

/-- The order in which operations take effect explains what clients see. -/
theorem Traced.linearization (ht : Traced step s h es t) : Linearization step s h es t := by
  induction ht with
  | start => exact .start
  | call _ hnew ih => exact ih.call hnew
  | commit _ hcalled hnew hstep ih => exact ih.commit hcalled hnew hstep
  | ret _ hdone ih => exact ih.ret hdone

end Linear
