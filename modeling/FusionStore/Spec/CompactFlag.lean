import FusionStore.ForStd.Run
import FusionStore.Native.Serve
import FusionStore.Native.StoreSession

/-!
# When the compaction flag is cleared

The handler of `/admin/compact` is the only one that clears the flag, after its `await`.  So
the flag stays set for good if the handler is dropped while it waits, and if the `await`
reports a panic of the task.  Until the handler has been polled, a task that has ended counts
as a compaction in progress here.

## Key results

- `Serve.step_moves`: what one step does, by the branches of the handler
- `Serve.flag_iff`: the runs in which the flag is set only while a compaction is in progress
-/

namespace FusionStore

/-- The task is running, or its handler is still going to be polled. -/
def CompactJob.InProgress (j : CompactJob) : Prop := j.ended = none ∨ j.waiting = true

namespace Serve

variable {s : Serve}

/-- Some compaction is in progress. -/
def Compacting (s : Serve) : Prop := ∃ j ∈ s.jobs, j.InProgress

/-- The flag is set only while a compaction is in progress; without one a request is not
    refused as a conflict and the server does not call itself unavailable. -/
structure Unstuck (s : Serve) : Prop where
  flag : s.compactInProgress = true → s.Compacting
  request : ¬s.Compacting → ∀ authorization err,
    (s.compactEndpoint authorization).1 = some err → err.status ≠ .conflict
  health : ¬s.Compacting → s.health.status ≠ "unavailable"

/-- The task of a compaction ends, without a panic, while its handler waits, and the handler
    waits until it has been polled. -/
def Orderly (s : Serve) : Event → Prop
  | .taskEnds i _ => ∀ j, s.jobs[i]? = some j → j.ended = none → j.waiting = true
  | .drop i => ∀ j, s.jobs[i]? = some j → j.waiting = true → j.ended = none
  | .resume i => ∀ j, s.jobs[i]? = some j → j.waiting = true →
    ∀ res, j.ended = some res → isPanic res = false
  | .request _ | .queue _ => True

/-- Some task is running. -/
def TaskRunning (s : Serve) : Prop := ∃ j ∈ s.jobs, j.ended = none

/-- No task ends. -/
def NoEnd (s : Serve) : Event → Prop
  | .taskEnds i _ => ∀ j, s.jobs[i]? = some j → j.ended ≠ none
  | _ => True

/-- What holds in every state: one compaction at most, and none without the flag. -/
structure Inv (s : Serve) : Prop where
  single : s.jobs.length ≤ 1
  flagged : s.compactInProgress = false → s.jobs = []
  alive : ∀ j ∈ s.jobs, j.InProgress

theorem inv_start (auth : AuthConfig) : (start auth).Inv where
  single := Nat.zero_le _
  flagged _ := rfl
  alive := by
    intro j hj
    cases hj

/-- A role that is refused is no conflict. -/
theorem requireRole_ne_conflict {auth : AuthConfig} {authorization : Option String}
    {min : AuthRole} {err : AppError} (h : auth.requireRole authorization min = .error err) :
    err.status ≠ .conflict := by
  unfold AuthConfig.requireRole at h
  split at h
  · simp at h
  · split at h
    · simp at h
    · obtain rfl := Except.error.inj h
      simp
  · obtain rfl := Except.error.inj h
    simp

/-- The three guarantees are one: the flag decides both answers. -/
theorem unstuck_iff : s.Unstuck ↔ (s.compactInProgress = true → s.Compacting) := by
  refine ⟨fun h => h.flag, fun h => ⟨h, fun hno authorization err herr => ?_, fun hno => ?_⟩⟩
  · have hclear : s.compactInProgress = false := Bool.eq_false_iff.mpr fun hf => hno (h hf)
    unfold compactEndpoint at herr
    split at herr
    · rename_i e hrole
      obtain rfl : e = err := by simpa using herr
      exact requireRole_ne_conflict hrole
    · simp [hclear] at herr
  · have hclear : s.compactInProgress = false := Bool.eq_false_iff.mpr fun hf => hno (h hf)
    simp only [health, hclear, Bool.false_eq_true, ↓reduceIte]
    split <;> simp

/-- The only compaction there is. -/
theorem Inv.sole (h : s.Inv) {i : Nat} {j : CompactJob} (hi : s.jobs[i]? = some j) :
    i = 0 ∧ s.jobs = [j] := by
  have hsingle := h.single
  cases hjobs : s.jobs with
  | nil => simp [hjobs] at hi
  | cons j' rest =>
    obtain rfl : rest = [] := by
      rw [hjobs, List.length_cons] at hsingle
      exact List.length_eq_zero_iff.mp (by omega)
    rw [hjobs] at hi
    cases i with
    | zero => exact ⟨rfl, by simpa using hi⟩
    | succ i => simp at hi

/-- The flag of a state with a compaction. -/
theorem Inv.flag_of_job (h : s.Inv) {j : CompactJob} (hjobs : s.jobs = [j]) :
    s.compactInProgress = true := by
  cases hf : s.compactInProgress with
  | true => rfl
  | false =>
    have hnone := h.flagged hf
    rw [hjobs] at hnone
    cases hnone

/-- Only a `JoinError` leaves the flag as it is. -/
theorem flag_resumeCompact (s : Serve) (res : Except StoreError CompactResult) :
    (s.resumeCompact res).2.compactInProgress = (s.compactInProgress && isPanic res) := by
  cases res with
  | ok r => simp [resumeCompact, isPanic]
  | error e => cases e <;> simp [resumeCompact, isPanic]

/-- What a step does to the compactions, and whether it is orderly and ends no task. -/
inductive Move (s s' : Serve) (orderly noEnd : Prop) : Prop where
  | stays (jobs : s'.jobs = s.jobs) (flag : s'.compactInProgress = s.compactInProgress)
      (ord : orderly) (on : noEnd)
  | starts (jobs : s'.jobs = [⟨true, none⟩]) (flag : s'.compactInProgress = true)
      (ord : orderly) (on : noEnd)
  | ends (res : Except StoreError CompactResult) (jobs : s'.jobs = [⟨true, some res⟩])
      (flag : s'.compactInProgress = true) (ord : orderly) (off : ¬noEnd)
  /-- Nobody waits for the task: the flag has no one left to clear it. -/
  | endsAlone (jobs : s'.jobs = []) (flag : s'.compactInProgress = true) (unord : ¬orderly)
      (off : ¬noEnd)
  | resumes (res : Except StoreError CompactResult) (was : s.jobs = [⟨true, some res⟩])
      (jobs : s'.jobs = []) (flag : s'.compactInProgress = isPanic res)
      (ord : orderly ↔ isPanic res = false) (on : noEnd)
  /-- The task goes on without its handler. -/
  | leaves (jobs : s'.jobs = [⟨false, none⟩]) (flag : s'.compactInProgress = true)
      (ord : orderly) (on : noEnd)
  /-- The task has ended, and its result is lost with the handler. -/
  | leavesLate (res : Except StoreError CompactResult) (was : s.jobs = [⟨true, some res⟩])
      (jobs : s'.jobs = []) (flag : s'.compactInProgress = true) (unord : ¬orderly) (on : noEnd)

theorem step_moves (h : s.Inv) (ev : Event) :
    Move s (s.step ev) (s.Orderly ev) (s.NoEnd ev) := by
  cases ev with
  | request authorization =>
    simp only [step, compactEndpoint]
    split
    · -- the token is refused
      exact .stays rfl rfl trivial trivial
    · cases hf : s.compactInProgress with
      | true => exact .stays rfl hf.symm trivial trivial
      | false =>
        -- `compare_exchange` sets the flag
        have hnone := h.flagged hf
        exact .starts (by simp [hnone]) rfl trivial trivial
  | taskEnds i res =>
    simp only [step, Orderly, NoEnd]
    split
    · -- the handler waits
      rename_i hi
      obtain ⟨rfl, hjobs⟩ := h.sole hi
      refine .ends res (by simp [hjobs]) (h.flag_of_job hjobs) ?_ fun hno => hno _ hi rfl
      intro j hj _
      obtain rfl := Option.some.inj (hi.symm.trans hj)
      rfl
    · -- the handler is gone, and nobody clears the flag
      rename_i hi
      obtain ⟨rfl, hjobs⟩ := h.sole hi
      exact .endsAlone (by simp [hjobs]) (h.flag_of_job hjobs)
        (fun ho => Bool.false_ne_true (ho _ hi rfl)) fun hno => hno _ hi rfl
    · -- no task is running there
      rename_i hwait hgone
      have hrun : ∀ j, s.jobs[i]? = some j → j.ended ≠ none := by
        intro j hj hnone
        obtain ⟨waiting, ended⟩ := j
        obtain rfl : ended = none := hnone
        cases waiting with
        | true => exact hwait hj
        | false => exact hgone hj
      exact .stays rfl rfl (fun j hj hnone => absurd hnone (hrun j hj)) hrun
  | resume i =>
    simp only [step, Orderly]
    split
    · rename_i res hi
      obtain ⟨rfl, hjobs⟩ := h.sole hi
      -- the handler clears the flag and answers
      have hafter := flag_resumeCompact s res
      rw [h.flag_of_job hjobs, Bool.true_and] at hafter
      refine .resumes res hjobs (by simp [hjobs]) hafter ?_ trivial
      rw [hi]
      simp
    · rename_i hidle
      refine .stays rfl rfl (fun j hj hwait res hres => ?_) trivial
      obtain ⟨waiting, ended⟩ := j
      obtain rfl : waiting = true := hwait
      obtain rfl : ended = some res := hres
      exact absurd hj (hidle res)
  | drop i =>
    simp only [step, Orderly]
    split
    · rename_i hi
      obtain ⟨rfl, hjobs⟩ := h.sole hi
      refine .leaves (by simp [hjobs]) (h.flag_of_job hjobs) ?_ trivial
      intro j hj _
      obtain rfl := Option.some.inj (hi.symm.trans hj)
      rfl
    · rename_i res hi
      obtain ⟨rfl, hjobs⟩ := h.sole hi
      refine .leavesLate res hjobs (by simp [hjobs]) (h.flag_of_job hjobs) (fun ho => ?_) trivial
      have hnone := ho _ hi rfl
      cases hnone
    · rename_i hrun hended
      refine .stays rfl rfl (fun j hj hwait => ?_) trivial
      obtain ⟨waiting, ended⟩ := j
      obtain rfl : waiting = true := hwait
      cases ended with
      | none => rfl
      | some res => exact absurd hj (hended res)
  | queue depth => exact .stays rfl rfl trivial trivial

/-- One compaction under a set flag. -/
private theorem inv_of_job {s : Serve} {j : CompactJob} (hjobs : s.jobs = [j])
    (hflag : s.compactInProgress = true) (hj : j.InProgress) : s.Inv where
  single := by
    rw [hjobs]
    exact Nat.le_refl 1
  flagged := by
    intro hf
    rw [hflag] at hf
    cases hf
  alive := by
    intro j' hj'
    rw [hjobs] at hj'
    obtain rfl := List.mem_singleton.mp hj'
    exact hj

private theorem inv_of_none {s : Serve} (hjobs : s.jobs = []) : s.Inv where
  single := by
    rw [hjobs]
    exact Nat.zero_le 1
  flagged _ := hjobs
  alive := by
    intro j hj
    rw [hjobs] at hj
    cases hj

theorem inv_step (h : s.Inv) (ev : Event) : (s.step ev).Inv := by
  cases step_moves h ev with
  | stays jobs flag _ _ => exact ⟨jobs ▸ h.single, jobs ▸ flag ▸ h.flagged, jobs ▸ h.alive⟩
  | starts jobs flag _ _ => exact inv_of_job jobs flag (.inl rfl)
  | ends res jobs flag _ _ => exact inv_of_job jobs flag (.inr rfl)
  | endsAlone jobs _ _ _ => exact inv_of_none jobs
  | resumes _ _ jobs _ _ _ => exact inv_of_none jobs
  | leaves jobs flag _ _ => exact inv_of_job jobs flag (.inl rfl)
  | leavesLate _ _ jobs _ _ _ => exact inv_of_none jobs

/-- The flag and no compaction. -/
private theorem not_unstuck {s : Serve} (hf : s.compactInProgress = true) (hjobs : s.jobs = []) :
    ¬s.Unstuck := by
  intro h
  obtain ⟨j, hj, -⟩ := h.flag hf
  rw [hjobs] at hj
  cases hj

/-- The flag and a compaction. -/
private theorem unstuck_of_job {s : Serve} {j : CompactJob} (hjobs : s.jobs = [j])
    (hj : j.InProgress) : s.Unstuck :=
  unstuck_iff.mpr fun _ => ⟨j, hjobs ▸ List.mem_cons_self, hj⟩

/-- One step leaves the flag right exactly if it is orderly. -/
theorem unstuck_step (h : s.Inv) (hu : s.Unstuck) (ev : Event) :
    (s.step ev).Unstuck ↔ s.Orderly ev := by
  cases step_moves h ev with
  | stays jobs flag ord _ =>
    refine iff_of_true (unstuck_iff.mpr fun hf => ?_) ord
    obtain ⟨j, hj, hprogress⟩ := hu.flag (flag ▸ hf)
    exact ⟨j, jobs ▸ hj, hprogress⟩
  | starts jobs _ ord _ => exact iff_of_true (unstuck_of_job jobs (.inl rfl)) ord
  | ends res jobs _ ord _ => exact iff_of_true (unstuck_of_job jobs (.inr rfl)) ord
  | endsAlone jobs flag unord _ => exact iff_of_false (not_unstuck flag jobs) unord
  | resumes res _ jobs flag ord _ =>
    rw [ord]
    cases hp : isPanic res with
    | true =>
      -- the early return
      exact iff_of_false (not_unstuck (flag.trans hp) jobs) (by simp)
    | false =>
      refine iff_of_true (unstuck_iff.mpr fun hf => ?_) rfl
      exact absurd ((flag.trans hp).symm.trans hf) Bool.false_ne_true
  | leaves jobs _ ord _ => exact iff_of_true (unstuck_of_job jobs (.inl rfl)) ord
  | leavesLate _ _ jobs flag unord _ => exact iff_of_false (not_unstuck flag jobs) unord

/-- From the end of a task to the next poll of its handler the flag is set without a running
    task, whatever becomes of the handler. -/
theorem taskRunning_step (h : s.Inv) (hr : s.compactInProgress = true → s.TaskRunning)
    (ev : Event) :
    ((s.step ev).compactInProgress = true → (s.step ev).TaskRunning) ↔ s.NoEnd ev := by
  -- a handler that waits has its task running
  have hlate : ∀ res, s.jobs ≠ [⟨true, some res⟩] := by
    intro res hjobs
    obtain ⟨j, hj, hnone⟩ := hr (h.flag_of_job hjobs)
    rw [hjobs] at hj
    obtain rfl := List.mem_singleton.mp hj
    cases hnone
  cases step_moves h ev with
  | stays jobs flag _ on =>
    refine iff_of_true (fun hf => ?_) on
    obtain ⟨j, hj, hnone⟩ := hr (flag ▸ hf)
    exact ⟨j, jobs ▸ hj, hnone⟩
  | starts jobs _ _ on => exact iff_of_true (fun _ => ⟨_, jobs ▸ List.mem_cons_self, rfl⟩) on
  | ends res jobs flag _ off =>
    refine iff_of_false (fun hrun => ?_) off
    obtain ⟨j, hj, hnone⟩ := hrun flag
    rw [jobs] at hj
    obtain rfl := List.mem_singleton.mp hj
    cases hnone
  | endsAlone jobs flag _ off =>
    refine iff_of_false (fun hrun => ?_) off
    obtain ⟨j, hj, -⟩ := hrun flag
    rw [jobs] at hj
    cases hj
  | resumes res was _ _ _ _ => exact absurd was (hlate res)
  | leaves jobs _ _ on => exact iff_of_true (fun _ => ⟨_, jobs ▸ List.mem_cons_self, rfl⟩) on
  | leavesLate res was _ _ _ _ => exact absurd was (hlate res)

/-- In every state of a run the flag is set only while a compaction is in progress, and the
    answers follow it, exactly if every step of the run is orderly; it is set only while a task
    is running exactly if no task of the run ends. -/
theorem flag_iff (auth : AuthConfig) (events : List Event) :
    (Run.Guarded step Orderly (start auth) events ↔
      ∀ pre, pre <+: events → (Run.exec step (start auth) pre).Unstuck) ∧
    (Run.Guarded step NoEnd (start auth) events ↔
      ∀ pre, pre <+: events →
        ((Run.exec step (start auth) pre).compactInProgress = true →
          (Run.exec step (start auth) pre).TaskRunning)) := by
  have hinv : ∀ (s : Serve) ev, s.Inv → (s.step ev).Inv := fun _ ev h => inv_step h ev
  have hclear : (start auth).compactInProgress ≠ true := Bool.false_ne_true
  constructor
  · have hstep : ∀ (s : Serve) ev, s.Inv → s.Unstuck → ((s.step ev).Unstuck ↔ s.Orderly ev) :=
      fun _ ev h hu => unstuck_step h hu ev
    exact Run.guarded_iff hinv hstep (inv_start auth)
      (unstuck_iff.mpr fun hf => absurd hf hclear)
  · exact @Run.guarded_iff _ _ step NoEnd Inv
      (fun s => s.compactInProgress = true → s.TaskRunning) hinv
      (fun _ ev h hr => taskRunning_step h hr ev) _ events (inv_start auth)
      fun hf => absurd hf hclear

/-- The client goes away while its compaction runs: when the task has ended, the next request
    is still refused and the server still calls itself unavailable.  A task that panics does
    the same. -/
theorem flag_stuck :
    (let s := Run.exec step (start ⟨[]⟩) [.request none, .drop 0, .taskEnds 0 (.ok ⟨3, []⟩)]
     ¬s.Unstuck ∧ s.jobs = [] ∧ s.health.status = "unavailable" ∧
      (s.compactEndpoint none).1 = some ⟨.conflict, "compact already in progress"⟩) ∧
    (let s := Run.exec step (start ⟨[]⟩)
      [.request none, .taskEnds 0 (.error (.panicked "task 7 panicked")), .resume 0]
     ¬s.Unstuck ∧ s.jobs = [] ∧ s.health.status = "unavailable" ∧
      (s.compactEndpoint none).1 = some ⟨.conflict, "compact already in progress"⟩) :=
  ⟨⟨not_unstuck rfl rfl, rfl, rfl, rfl⟩, not_unstuck rfl rfl, rfl, rfl, rfl⟩

end Serve

end FusionStore
