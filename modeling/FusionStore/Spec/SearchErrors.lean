import FusionStore.ForStd.Run
import FusionStore.Native.SearchSteps

/-!
# What a search reports of a failed read

The flag tells whether a read has failed since it was last cleared, by whatever call.  A call
in whose time no read failed finds it unset.  A call whose own read failed finds it set unless
another call began in between, for that call has cleared it.

## Key results

- `Searches.failedSinceClear_iff`: the flag, read off the order of the steps
- `Searches.promised_iff`: the interleavings in which every call reports its failed reads
- `VectorIndex.searchKnn_alone`: a call on its own is `VectorIndex.searchKnn`
-/

namespace FusionStore

/-- An entry of a list of which one entry was changed. -/
private theorem mem_modify {α : Type} {l : List α} {i : Nat} {f : α → α} {c : α}
    (h : c ∈ l.modify i f) : (∃ d, l[i]? = some d ∧ c = f d) ∨ c ∈ l := by
  obtain ⟨j, hj⟩ := List.mem_iff_getElem?.mp h
  rw [List.getElem?_modify] at hj
  obtain ⟨d, hd, hc⟩ := Option.map_eq_some_iff.mp hj
  by_cases hij : i = j
  · subst hij
    simp only [↓reduceIte] at hc
    exact .inl ⟨d, hd, hc.symm⟩
  · simp only [hij, ↓reduceIte] at hc
    subst hc
    exact .inr (List.mem_of_getElem? hd)

/-- What a call that returned owes its caller: a failed read of its own is an error, and
    without any failed read there is none. -/
def SearchCall.Promised (c : SearchCall) : Prop :=
  ∀ r, c.result = some r →
    (c.ownFailed = true → r = .error searchError) ∧ (c.anyFailed = false → r = .ok ())

/-- No call has begun since the latest failed read; `past` lists the latest step first. -/
def FailedSinceClear (past : List SearchStep) : Prop :=
  ∃ newer j older, past = newer ++ .readFailed j :: older ∧ .begin ∉ newer

namespace Searches

variable {σ : Searches}

/-- Every call so far has kept its promise. -/
def Promised (σ : Searches) : Prop := ∀ c ∈ σ.calls, c.Promised

/-- A call with a failed read of its own does not finish after another call has begun, unless
    some read has failed since. -/
def Unmasked (σ : Searches) : SearchStep → Prop
  | .finish i => ∀ c, σ.calls[i]? = some c → c.result = none → c.ownFailed = true →
    FailedSinceClear σ.past
  | _ => True

theorem failedSinceClear_cons {e : SearchStep} {past : List SearchStep} :
    FailedSinceClear (e :: past) ↔
      (∃ j, e = .readFailed j) ∨ (e ≠ .begin ∧ FailedSinceClear past) := by
  constructor
  · rintro ⟨newer, j, older, hpast, hnew⟩
    cases newer with
    | nil => exact .inl ⟨j, (List.cons.inj hpast).1⟩
    | cons e' newer =>
      obtain ⟨rfl, htail⟩ := List.cons.inj hpast
      rw [List.mem_cons, not_or] at hnew
      exact .inr ⟨Ne.symm hnew.1, newer, j, older, htail, hnew.2⟩
  · rintro (⟨j, rfl⟩ | ⟨hne, newer, j, older, rfl, hnew⟩)
    · exact ⟨[], j, past, rfl, List.not_mem_nil⟩
    · refine ⟨e :: newer, j, older, rfl, ?_⟩
      rw [List.mem_cons, not_or]
      exact ⟨Ne.symm hne, hnew⟩

/-- What holds of the flag in every state. -/
structure Inv (σ : Searches) : Prop where
  flag : σ.readError = true ↔ FailedSinceClear σ.past
  any : σ.readError = true → ∀ c ∈ σ.calls, c.result = none → c.anyFailed = true

theorem inv_start : start.Inv where
  flag := by
    refine iff_of_false Bool.false_ne_true ?_
    rintro ⟨newer, j, older, hpast, -⟩
    simp [start] at hpast
  any h := absurd h Bool.false_ne_true

/-- A step that neither clears nor sets the flag. -/
private theorem Inv.of_quiet (h : σ.Inv) {e : SearchStep} (hb : e ≠ .begin)
    (hf : ∀ j, e ≠ .readFailed j) {calls : List SearchCall}
    (hcalls : ∀ c ∈ calls, c.result = none → c ∈ σ.calls) :
    Inv ⟨σ.readError, calls, e :: σ.past⟩ where
  flag := by
    rw [h.flag, failedSinceClear_cons]
    constructor
    · exact fun hp => .inr ⟨hb, hp⟩
    · rintro (⟨j, hj⟩ | hp)
      · exact absurd hj (hf j)
      · exact hp.2
  any hr c hc hnone := h.any hr c (hcalls c hc hnone) hnone

theorem inv_step (h : σ.Inv) (e : SearchStep) : (σ.step e).Inv := by
  cases e with
  | begin =>
    refine ⟨iff_of_false Bool.false_ne_true ?_, fun hr => absurd hr Bool.false_ne_true⟩
    rintro hp
    obtain ⟨j, hj⟩ | ⟨hne, -⟩ := failedSinceClear_cons.mp hp
    · simp at hj
    · exact hne rfl
  | readOk i =>
    simp only [step]
    split
    · exact h.of_quiet (by simp) (by simp) fun c hc _ => hc
    · exact h
  | readFailed i =>
    simp only [step]
    split
    · -- every call on its way sees the failure
      refine ⟨iff_of_true rfl (failedSinceClear_cons.mpr (.inl ⟨i, rfl⟩)), fun _ c hc hnone => ?_⟩
      obtain ⟨j, hj, rfl⟩ := List.mem_mapIdx.mp hc
      simp only [SearchCall.noteFailure] at hnone ⊢
      split
      · rfl
      · rename_i hdone
        rw [if_neg hdone] at hnone
        exact absurd hnone hdone
    · exact h
  | finish i =>
    simp only [step]
    split
    · refine h.of_quiet (by simp) (by simp) fun c hc hnone => ?_
      obtain ⟨d, -, rfl⟩ | hc := mem_modify hc
      · simp at hnone
      · exact hc
    · exact h

/-- A call that is on its way is the only one a step can make return. -/
theorem promised_finish {i : Nat} {d : SearchCall} (h : σ.Promised) (hd : σ.calls[i]? = some d)
    (res : Except StoreError Unit) {past : List SearchStep} :
    Promised ⟨σ.readError, σ.calls.modify i fun c => { c with result := some res }, past⟩ ↔
      (d.ownFailed = true → res = .error searchError) ∧ (d.anyFailed = false → res = .ok ()) := by
  constructor
  · intro hp
    refine hp { d with result := some res } ?_ res rfl
    refine List.mem_of_getElem? (i := i) ?_
    rw [List.getElem?_modify, hd]
    simp
  · intro hres c hc
    obtain ⟨d', hd', rfl⟩ | hc := mem_modify hc
    · obtain rfl : d = d' := Option.some.inj (hd.symm.trans hd')
      intro r hr
      obtain rfl : res = r := by simpa using hr
      exact hres
    · exact h c hc

/-- One step keeps the promises exactly if it does not finish a call whose failed read another
    call has cleared. -/
theorem promised_step (h : σ.Inv) (hp : σ.Promised) (e : SearchStep) :
    (σ.step e).Promised ↔ σ.Unmasked e := by
  cases e with
  | begin =>
    refine iff_of_true (fun c hc => ?_) trivial
    obtain hc | hc := List.mem_append.mp hc
    · exact hp c hc
    · -- the new call has not returned
      obtain rfl := List.mem_singleton.mp hc
      intro r hr
      simp at hr
  | readOk i =>
    refine iff_of_true ?_ trivial
    simp only [step]
    split <;> exact hp
  | readFailed i =>
    refine iff_of_true ?_ trivial
    simp only [step]
    split
    · -- only calls on their way are changed
      intro c hc r hr
      obtain ⟨j, hj, rfl⟩ := List.mem_mapIdx.mp hc
      simp only [SearchCall.noteFailure] at hr ⊢
      split at hr
      · rename_i hnone
        simp [hnone] at hr
      · rename_i hdone
        rw [if_neg hdone]
        exact hp _ (List.getElem_mem _) r hr
    · exact hp
  | finish i =>
    simp only [step]
    split
    · rename_i hrun
      obtain ⟨d, hd, hnone⟩ := hrun
      rw [promised_finish hp hd]
      have hmem := List.mem_of_getElem? hd
      simp only [Unmasked, ← h.flag, hd, Option.some.injEq, forall_eq']
      cases hflag : σ.readError with
      | true =>
        -- a set flag is an error, and every call on its way has seen the failed read
        have hany := h.any hflag d hmem hnone
        simp [hany]
      | false =>
        simp [hnone, searchError]
    · rename_i hidle
      exact iff_of_true hp fun c hc hnone => absurd ⟨c, hc, hnone⟩ hidle

/-- In every state of a run every call has reported its failed reads, and reported none where
    there was none, exactly if no call with a failed read of its own finishes after another
    call has begun and before the next failed read. -/
theorem promised_iff (steps : List SearchStep) :
    Run.Guarded step Unmasked start steps ↔
      ∀ pre, pre <+: steps → (Run.exec step start pre).Promised := by
  have hinv : ∀ (σ : Searches) e, σ.Inv → (σ.step e).Inv := fun _ e h => inv_step h e
  have hstep : ∀ (σ : Searches) e, σ.Inv → σ.Promised → ((σ.step e).Promised ↔ σ.Unmasked e) :=
    fun _ e h hp => promised_step h hp e
  have hstart : start.Promised := by
    intro c hc
    simp [start] at hc
  exact Run.guarded_iff hinv hstep inv_start hstart

/-- A second call begins between the failed read of the first and its end: the first returns
    `Ok`. -/
theorem failed_read_masked :
    ¬(Run.exec step start [.begin, .readFailed 0, .begin, .finish 0]).Promised := by
  intro h
  have hfirst := h ⟨true, true, some (.ok ())⟩ (by decide) (.ok ()) rfl
  simp at hfirst

end Searches

namespace VectorIndex

open Searches

/-- The reads of a call that is alone. -/
private theorem exec_reads (x : VectorIndex) (ids : List NodeId) (failed : Bool)
    (past : List SearchStep) :
    ∃ past', Run.exec step ⟨failed, [⟨failed, failed, none⟩], past⟩
        (ids.map fun id =>
          if (x.vecSlice id).toOption.isNone then .readFailed 0 else .readOk 0) =
      let failed := failed || ids.any fun id => (x.vecSlice id).toOption.isNone
      ⟨failed, [⟨failed, failed, none⟩], past'⟩ := by
  induction ids generalizing failed past with
  | nil => exact ⟨past, by simp⟩
  | cons id ids ih =>
    have hrun : ∀ past, Searches.Running ⟨failed, [⟨failed, failed, none⟩], past⟩ 0 := fun _ =>
      ⟨_, rfl, rfl⟩
    rw [List.map_cons, Run.exec_cons, List.any_cons]
    by_cases hbad : (x.vecSlice id).toOption.isNone = true
    · obtain ⟨past', hrest⟩ := ih true (.readFailed 0 :: past)
      refine ⟨past', ?_⟩
      simp only [hbad, ↓reduceIte, step, hrun, Bool.true_or, Bool.or_true] at hrest ⊢
      simpa [SearchCall.noteFailure] using hrest
    · obtain ⟨past', hrest⟩ := ih failed (.readOk 0 :: past)
      refine ⟨past', ?_⟩
      simp only [hbad, Bool.false_eq_true, ↓reduceIte, step, hrun, Bool.false_or] at hrest ⊢
      exact hrest

/-- A call that no other one overlaps returns what `VectorIndex.searchKnn` does. -/
theorem searchKnn_alone (A : F32Arith) (x : VectorIndex) (query : List F32) (topK : Nat)
    (expired : Nat → Bool) (hdim : x.schema.validateDim query = .ok ()) :
    ∃ c, (Run.exec step start
        (x.searchSteps 0 (x.visitedBy A query topK expired))).calls = [c] ∧
      c.result = some ((x.searchKnn A query topK expired).map fun _ => ()) := by
  obtain ⟨past', hreads⟩ := x.exec_reads (x.visitedBy A query topK expired) false [.begin]
  have hrun : Run.exec step start (x.searchSteps 0 (x.visitedBy A query topK expired)) =
      step (Run.exec step ⟨false, [⟨false, false, none⟩], [.begin]⟩
        ((x.visitedBy A query topK expired).map fun id =>
          if (x.vecSlice id).toOption.isNone then .readFailed 0 else .readOk 0)) (.finish 0) := by
    simp only [searchSteps, Run.exec, List.cons_append, List.foldl_cons, List.foldl_append,
      List.foldl_nil]
    rfl
  rw [hrun, hreads]
  have hsearch : x.searchKnn A query topK expired =
      if (x.visitedBy A query topK expired).any fun id => (x.vecSlice id).toOption.isNone then
        .error searchError
      else .ok (x.graph.searchKnn (x.distTo A query) topK x.schema.efSearch expired) := by
    simp only [searchKnn, hdim]
    rfl
  rw [hsearch]
  generalize (x.visitedBy A query topK expired).any _ = failed
  cases failed with
  | false => exact ⟨⟨false, false, some (.ok ())⟩, rfl, rfl⟩
  | true => exact ⟨⟨true, true, some (.error searchError)⟩, rfl, rfl⟩

end VectorIndex

end FusionStore
