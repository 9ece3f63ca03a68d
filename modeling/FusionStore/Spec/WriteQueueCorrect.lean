import FusionStore.ForStd.Fair
import FusionStore.Native.WriteQueue

/-!
# The accounting of the write queue

Every request that is counted is in exactly one place: with its handler before the match of
its `fetch_add`, in the channel, or with a worker before its `fetch_sub`.  A handler passes the
test against the capacity only if fewer than that many places are taken, so the channel never
overflows.  A request in the channel moves to its head, and a worker that has it carries it
out and answers, once.

## Key results

- `WriteQueue.inv_step`: the equations every step keeps
- `WriteQueue.eventually_settled`: progress, if every worker goes on again and again
- `WriteQueue.eventually_responds`: and what the handler makes of it
- `WriteQueue.accounting_exact`: all of it, for every interleaving
-/

namespace FusionStore

/-- Before the `fetch_sub` or the `try_send` that matches its `fetch_add`. -/
def HandlerPhase.pending : HandlerPhase → Bool
  | .counted _ | .bounced => true
  | .accepted | .rejected => false

/-- Past the test against the capacity, before the `try_send`. -/
def HandlerPhase.approved (cap : Nat) : HandlerPhase → Bool
  | .counted qd => qd < cap
  | _ => false

namespace WorkerPhase

/-- With a request, before its `fetch_sub`. -/
def busy : WorkerPhase → Bool
  | .taken _ | .executed _ _ => true
  | .idle | .released _ _ => false

/-- With the request `r`, before it is carried out. -/
def holds (r : Nat) : WorkerPhase → Bool
  | .taken r' => r' = r
  | _ => false

/-- With the result of the request `r`, before it is answered. -/
def owes (r : Nat) : WorkerPhase → Bool
  | .executed r' _ | .released r' _ => r' = r
  | _ => false

/-- The request that was carried out and what came of it, before the answer. -/
def result : WorkerPhase → Option (Nat × Bool)
  | .executed r res | .released r res => some (r, res)
  | _ => none

/-- The request being carried out. -/
def carrying : WorkerPhase → Option Nat
  | .taken r | .executed r _ => some r
  | _ => none

/-- The request that is with this worker, until it is answered. -/
def request : WorkerPhase → Option Nat
  | .taken r | .executed r _ | .released r _ => some r
  | .idle => none

/-- The steps until it looks for a request again. -/
def remaining : WorkerPhase → Nat
  | .idle => 0
  | .taken _ => 3
  | .executed _ _ => 2
  | .released _ _ => 1

end WorkerPhase

/-- What the replacement of one entry does to a count. -/
private theorem countP_set_add {α : Type} {p : α → Bool} {l : List α} {i : Nat} {a b : α}
    (h : l[i]? = some a) :
    (l.set i b).countP p + (p a).toNat = l.countP p + (p b).toNat := by
  induction l generalizing i with
  | nil => simp at h
  | cons c l ih =>
    cases i with
    | zero =>
      obtain rfl : c = a := by simpa using h
      simp only [List.set_cons_zero, List.countP_cons]
      cases p c <;> cases p b <;> simp
    | succ i =>
      have htail := ih (i := i) (by simpa using h)
      simp only [List.set_cons_succ, List.countP_cons]
      omega

namespace WriteQueue

variable {q : WriteQueue}

/-- The requests that were accepted. -/
def Accepted (q : WriteQueue) (r : Nat) : Prop := q.handlers[r]? = some .accepted

instance (q : WriteQueue) (r : Nat) : Decidable (q.Accepted r) :=
  inferInstanceAs (Decidable (_ = _))

/-- Handlers between their `fetch_add` and the matching `try_send` or `fetch_sub`. -/
def pending (q : WriteQueue) : Nat := q.handlers.countP HandlerPhase.pending

/-- Requests that workers are carrying out. -/
def busy (q : WriteQueue) : Nat := q.workers.countP WorkerPhase.busy

/-- How often the request `r` was carried out. -/
def executions (q : WriteQueue) (r : Nat) : Nat := q.executed.countP fun e => e.1 = r

/-- How often the request `r` was answered. -/
def answers (q : WriteQueue) (r : Nat) : Nat := q.answered.countP fun e => e.1 = r

/-- What holds in every state. -/
structure Inv (q : WriteQueue) : Prop where
  depth : q.queueDepth = q.channel.length + q.busy + q.pending
  bound : q.channel.length + q.busy + q.handlers.countP (HandlerPhase.approved q.queueCap) ≤
    q.queueCap
  place : ∀ r, q.channel.count r + q.workers.countP (WorkerPhase.holds r) + q.executions r =
    if q.Accepted r then 1 else 0
  owed : ∀ r, q.executions r = q.workers.countP (WorkerPhase.owes r) + q.answers r
  results : ∀ e ∈ q.answered, e ∈ q.executed
  carried : ∀ phase ∈ q.workers, ∀ e, phase.result = some e → e ∈ q.executed

/-- Nothing is counted and nothing is queued at the start. -/
theorem inv_start (queueCap workers : Nat) : (start queueCap workers).Inv where
  depth := by simp [start, busy, pending, WorkerPhase.busy, List.countP_replicate]
  bound := by simp [start, busy, WorkerPhase.busy, List.countP_replicate]
  place := by
    intro r
    simp [start, executions, Accepted, WorkerPhase.holds, List.countP_replicate]
  owed := by
    intro r
    simp [start, executions, answers, WorkerPhase.owes, List.countP_replicate]
  results := by
    intro e he
    simp [start] at he
  carried := by
    intro phase hphase e he
    rw [List.eq_of_mem_replicate hphase] at he
    cases he

/-- A handler that may still send is one that is still counted. -/
theorem approved_le_pending (cap : Nat) (handlers : List HandlerPhase) :
    handlers.countP (HandlerPhase.approved cap) ≤ handlers.countP HandlerPhase.pending := by
  refine List.countP_mono_left fun phase _ h => ?_
  cases phase with
  | counted qd => rfl
  | _ => simp [HandlerPhase.approved] at h

/-- `fetch_add`: with fewer than `queueCap` places taken, one more fits. -/
theorem inv_arrive (h : q.Inv) : (q.step .arrive).Inv := by
  have hdepth := h.depth
  have hbound := h.bound
  have hle := approved_le_pending q.queueCap q.handlers
  simp only [busy, pending] at hdepth hbound
  refine ⟨?_, ?_, fun r => ?_, h.owed, h.results, h.carried⟩
  · -- the gauge and the handlers that are still counted grow by one
    simp only [step, busy, pending, List.countP_append, List.countP_cons, List.countP_nil,
      HandlerPhase.pending, ↓reduceIte]
    omega
  · -- the new handler may send only if the gauge it has read is below the cap
    simp only [step, busy, List.countP_append, List.countP_cons, List.countP_nil,
      HandlerPhase.approved, decide_eq_true_eq]
    split <;> omega
  · -- the new request is not accepted yet
    have hsame : (q.step .arrive).Accepted r ↔ q.Accepted r := by
      simp only [step, Accepted, List.getElem?_append]
      split
      · rfl
      · rename_i hr
        rw [List.getElem?_eq_none (Nat.not_lt.mp hr)]
        cases r - q.handlers.length with
        | zero => simp
        | succ k => simp
    rw [if_congr hsame rfl rfl]
    exact h.place r

/-- Which requests are accepted after one handler has moved. -/
theorem accepted_set {i : Nat} {phase : HandlerPhase} (hi : q.handlers[i]? = some phase)
    (phase' : HandlerPhase) (r : Nat) :
    (q.handlers.set i phase')[r]? = some .accepted ↔
      if r = i then phase' = .accepted else q.Accepted r := by
  have hlt : i < q.handlers.length := (List.getElem?_eq_some_iff.mp hi).1
  rw [List.getElem?_set]
  by_cases hr : i = r
  · subst hr
    simp [hlt]
  · simp [hr, Ne.symm hr, Accepted]

/-- A handler that is not done moves: the counts balance if its own move does, and the request
    enters the channel if it is accepted. -/
theorem Inv.handler_moves (h : q.Inv) {i : Nat} {phase phase' : HandlerPhase}
    (hi : q.handlers[i]? = some phase) (hne : phase ≠ .accepted) {depth : Int}
    {channel : List Nat}
    (hdepth : depth + q.channel.length + phase.pending.toNat =
      q.queueDepth + channel.length + phase'.pending.toNat)
    (hbound : channel.length + (phase'.approved q.queueCap).toNat ≤
      q.channel.length + (phase.approved q.queueCap).toNat)
    (hplace : ∀ r, channel.count r =
      q.channel.count r + if r = i ∧ phase' = .accepted then 1 else 0) :
    Inv { q with
      queueDepth := depth
      channel := channel
      handlers := q.handlers.set i phase' } := by
  have hd := h.depth
  have hb := h.bound
  -- what the counts change by when one handler moves
  have hpending := countP_set_add (p := HandlerPhase.pending) (b := phase') hi
  have happroved := countP_set_add (p := HandlerPhase.approved q.queueCap) (b := phase') hi
  simp only [busy, pending] at hd hb
  refine ⟨?_, ?_, fun r => ?_, h.owed, h.results, h.carried⟩
  · simp only [busy, pending]
    omega
  · simp only [busy]
    omega
  · have hold := h.place r
    have hset := accepted_set hi phase' r
    simp only [executions, hplace r] at hold ⊢
    by_cases hr : r = i
    · -- this request was not accepted before
      subst hr
      have hno : ¬q.Accepted r := fun ha => hne (Option.some.inj (hi.symm.trans ha))
      rw [if_neg hno] at hold
      rw [if_pos rfl] at hset
      refine Eq.trans ?_ (if_congr hset.symm rfl rfl)
      simp only [true_and]
      omega
    · rw [if_neg hr] at hset
      refine Eq.trans ?_ (hold.trans (if_congr hset.symm rfl rfl))
      simp only [hr, false_and, ↓reduceIte]
      omega

/-- A handler's step keeps the invariant. -/
theorem inv_stepHandler (h : q.Inv) {i : Nat} {phase : HandlerPhase}
    (hi : q.handlers[i]? = some phase) : (q.stepHandler i phase).Inv := by
  -- a handler that is not let in sends nothing
  have hstay : ∀ phase' : HandlerPhase, phase' ≠ .accepted → ∀ r,
      q.channel.count r = q.channel.count r + if r = i ∧ phase' = .accepted then 1 else 0 := by
    intro phase' hne r
    rw [if_neg fun hc => hne hc.2]
    rfl
  cases phase with
  | counted qd =>
    by_cases hfull : qd ≥ q.queueCap
    · -- over the capacity: the count is taken back
      rw [show q.stepHandler i (.counted qd) = _ from if_pos hfull]
      refine h.handler_moves hi (by simp) ?_ ?_ (hstay _ (by simp))
      · simp only [HandlerPhase.pending, Bool.toNat_true, Bool.toNat_false]
        omega
      · simp [HandlerPhase.approved]
    have happroved : HandlerPhase.approved q.queueCap (.counted qd) = true := by
      simp only [HandlerPhase.approved, decide_eq_true_eq]
      omega
    by_cases hroom : q.channel.length < q.queueCap
    · -- the request goes into the channel
      rw [show q.stepHandler i (.counted qd) = _ from (if_neg hfull).trans (if_pos hroom)]
      refine h.handler_moves hi (by simp) ?_ ?_ fun r => ?_
      · simp only [HandlerPhase.pending, Bool.toNat_true, Bool.toNat_false, List.length_append,
          List.length_singleton]
        omega
      · rw [happroved, List.length_append, List.length_singleton]
        exact Nat.le_refl _
      · simp only [List.count_append, List.count_singleton, beq_iff_eq, and_true]
        rw [if_congr (show i = r ↔ r = i from eq_comm) rfl rfl]
    · -- the channel was full
      rw [show q.stepHandler i (.counted qd) = _ from (if_neg hfull).trans (if_neg hroom)]
      refine h.handler_moves hi (by simp) rfl ?_ (hstay _ (by simp))
      simp [HandlerPhase.approved]
  | bounced =>
    -- the count goes down again
    refine h.handler_moves hi (by simp) ?_ (Nat.le_refl _) (hstay .rejected (by simp))
    simp only [HandlerPhase.pending, Bool.toNat_true, Bool.toNat_false]
    omega
  | accepted => exact h
  | rejected => exact h

/-- A worker moves: the counts balance if its own move does. -/
theorem Inv.worker_moves (h : q.Inv) {w : Nat} {phase phase' : WorkerPhase}
    (hw : q.workers[w]? = some phase) {depth : Int} {channel : List Nat}
    {executed answered : List (Nat × Bool)}
    (hdepth : depth + q.channel.length + phase.busy.toNat =
      q.queueDepth + channel.length + phase'.busy.toNat)
    (hbound : channel.length + phase'.busy.toNat ≤ q.channel.length + phase.busy.toNat)
    (hplace : ∀ r, channel.count r + (phase'.holds r).toNat + executed.countP (fun e => e.1 = r) =
      q.channel.count r + (phase.holds r).toNat + q.executions r)
    (howed : ∀ r, executed.countP (fun e => e.1 = r) + (phase.owes r).toNat + q.answers r =
      q.executions r + (phase'.owes r).toNat + answered.countP (fun e => e.1 = r))
    (hresults : ∀ e ∈ answered, e ∈ executed) (hkept : ∀ e ∈ q.executed, e ∈ executed)
    (hcarried : ∀ e, phase'.result = some e → e ∈ executed) :
    Inv { q with
      queueDepth := depth
      channel := channel
      workers := q.workers.set w phase'
      executed := executed
      answered := answered } := by
  have hd := h.depth
  have hb := h.bound
  -- what the count of busy workers changes by
  have hbusy := countP_set_add (p := WorkerPhase.busy) (b := phase') hw
  simp only [busy, pending] at hd hb
  refine ⟨?_, ?_, fun r => ?_, fun r => ?_, hresults, fun phase₁ hphase e he => ?_⟩
  · -- the gauge
    simp only [busy, pending]
    omega
  · -- the bound
    simp only [busy]
    omega
  · -- each request is in one place
    refine Eq.trans ?_ (h.place r)
    have hholds := countP_set_add (p := WorkerPhase.holds r) (b := phase') hw
    have hr := hplace r
    simp only [executions] at hr ⊢
    omega
  · -- an execution is answered or still owed
    have hold := h.owed r
    have howes := countP_set_add (p := WorkerPhase.owes r) (b := phase') hw
    have hr := howed r
    simp only [executions, answers] at hold hr ⊢
    omega
  · -- what a worker carries was executed
    rcases List.mem_or_eq_of_mem_set hphase with hin | rfl
    · exact hkept e (h.carried phase₁ hin e he)
    · exact hcarried e he

/-- So does a worker's, whatever the result of the write. -/
theorem inv_stepWorker (h : q.Inv) {w : Nat} {phase : WorkerPhase} (res : Bool)
    (hw : q.workers[w]? = some phase) : (q.stepWorker w res phase).Inv := by
  have hmem : phase ∈ q.workers := List.mem_of_getElem? hw
  cases phase with
  | idle =>
    cases hchannel : q.channel with
    | nil => simpa only [stepWorker, hchannel] using h
    | cons r₀ rest =>
      -- `try_recv` takes the head of the channel
      simp only [stepWorker, hchannel]
      refine h.worker_moves hw ?_ ?_ (fun r => ?_) (fun _ => rfl) h.results (fun _ he => he) ?_
      · simp only [hchannel, List.length_cons, WorkerPhase.busy, Bool.toNat_true,
          Bool.toNat_false]
        omega
      · simp [hchannel, WorkerPhase.busy]
      · simp only [hchannel, List.count_cons, beq_iff_eq, executions, WorkerPhase.holds]
        by_cases hr : r₀ = r <;> simp [hr]
      · simp [WorkerPhase.result]
  | taken r₀ =>
    -- the write is executed
    refine h.worker_moves hw rfl (Nat.le_refl _) (fun r => ?_) (fun r => ?_)
      (fun e he => List.mem_append_left _ (h.results e he))
      (fun _ he => List.mem_append_left _ he) fun e he => ?_
    · simp only [executions, List.countP_append, List.countP_singleton, WorkerPhase.holds]
      by_cases hr : r₀ = r
      · simp [hr]
        omega
      · simp [hr]
    · simp only [executions, answers, List.countP_append, List.countP_singleton,
        WorkerPhase.owes]
      by_cases hr : r₀ = r <;> simp [hr]
    · obtain rfl : (r₀, res) = e := by simpa [WorkerPhase.result] using he
      exact List.mem_append_right _ List.mem_cons_self
  | executed r₀ res₀ =>
    -- `fetch_sub`
    refine h.worker_moves hw ?_ ?_ (fun _ => rfl) (fun _ => rfl) h.results (fun _ he => he)
      fun e he => h.carried (.executed r₀ res₀) hmem e he
    · simp only [WorkerPhase.busy, Bool.toNat_true, Bool.toNat_false]
      omega
    · simp [WorkerPhase.busy]
  | released r₀ res₀ =>
    -- the answer is sent
    refine h.worker_moves hw rfl (Nat.le_refl _) (fun _ => rfl) (fun r => ?_) (fun e he => ?_)
      (fun _ he => he) ?_
    · simp only [executions, answers, List.countP_append, List.countP_singleton,
        WorkerPhase.owes]
      by_cases hr : r₀ = r
      · simp [hr]
        omega
      · simp [hr]
    · rcases List.mem_append.mp he with he | he
      · exact h.results e he
      · rw [List.mem_singleton.mp he]
        exact h.carried _ hmem _ rfl
    · simp [WorkerPhase.result]

/-! ### Every interleaving -/

/-- Each step keeps the invariant. -/
theorem inv_step (q : WriteQueue) (e : QueueStep) (h : q.Inv) : (q.step e).Inv := by
  cases e with
  | arrive => exact inv_arrive h
  | handler i =>
    cases hi : q.handlers[i]? with
    | none => simpa only [step, hi] using h
    | some phase => simpa only [step, hi] using inv_stepHandler h hi
  | worker w res =>
    cases hw : q.workers[w]? with
    | none => simpa only [step, hw] using h
    | some phase => simpa only [step, hw] using inv_stepWorker h res hw

/-- What a handler can change, and that an accepted request stays accepted. -/
theorem stepHandler_frame {i : Nat} {phase : HandlerPhase} (hi : q.handlers[i]? = some phase) :
    ∃ depth sent handlers, q.stepHandler i phase =
        { q with queueDepth := depth, channel := q.channel ++ sent, handlers := handlers } ∧
      ∀ r, q.Accepted r → handlers[r]? = some .accepted := by
  have hset : ∀ phase', phase ≠ .accepted → ∀ r, q.Accepted r →
      (q.handlers.set i phase')[r]? = some .accepted := by
    intro phase' hne r ha
    rw [accepted_set hi, if_neg fun hr => ?_]
    · exact ha
    · subst hr
      exact hne (Option.some.inj (hi.symm.trans ha))
  cases phase with
  | counted qd =>
    simp only [stepHandler]
    split
    · exact ⟨_, [], _, by rw [List.append_nil], hset _ (by simp)⟩
    · split
      · exact ⟨_, [i], _, rfl, hset _ (by simp)⟩
      · exact ⟨_, [], _, by rw [List.append_nil], hset _ (by simp)⟩
  | bounced => exact ⟨_, [], _, by rw [List.append_nil]; rfl, hset _ (by simp)⟩
  | _ => exact ⟨_, [], _, by rw [List.append_nil]; rfl, fun _ ha => ha⟩

/-- What a step can do: either no worker gets on, or one of them does what it is at. -/
theorem step_cases (q : WriteQueue) (e : QueueStep) :
    (∃ depth sent handlers, q.step e =
        { q with queueDepth := depth, channel := q.channel ++ sent, handlers := handlers } ∧
      (∀ r, q.Accepted r → handlers[r]? = some .accepted) ∧
      ∀ w res phase, e = .worker w res → q.workers[w]? = some phase →
        phase = .idle ∧ q.channel = []) ∨
    ∃ w res phase, e = .worker w res ∧ q.workers[w]? = some phase ∧
      ((∃ r rest, phase = .idle ∧ q.channel = r :: rest ∧
          q.step e = { q with channel := rest, workers := q.workers.set w (.taken r) }) ∨
        (∃ r, phase = .taken r ∧ q.step e = { q with
          executed := q.executed ++ [(r, res)], workers := q.workers.set w (.executed r res) }) ∨
        (∃ r res', phase = .executed r res' ∧ q.step e = { q with
          queueDepth := q.queueDepth - 1, workers := q.workers.set w (.released r res') }) ∨
        ∃ r res', phase = .released r res' ∧ q.step e = { q with
          answered := q.answered ++ [(r, res')], workers := q.workers.set w .idle }) := by
  -- a step that does nothing sends nothing
  have hstay : q = { q with channel := q.channel ++ [] } := by rw [List.append_nil]
  cases e with
  -- a new handler sends nothing yet
  | arrive =>
    refine .inl ⟨q.queueDepth + 1, [], q.handlers ++ [.counted q.queueDepth], ?_, ?_, ?_⟩
    · simp [step]
    · intro r ha
      have hlt : r < q.handlers.length := (List.getElem?_eq_some_iff.mp ha).1
      exact (List.getElem?_append_left hlt).trans ha
    · simp
  | handler i =>
    left
    -- no such handler
    cases hi : q.handlers[i]? with
    | none => exact ⟨_, [], _, by simp only [step, hi]; exact hstay, fun _ ha => ha, by simp⟩
    | some phase =>
      obtain ⟨depth, sent, handlers, heq, hacc⟩ := stepHandler_frame hi
      exact ⟨depth, sent, handlers, by simpa only [step, hi] using heq, hacc, by simp⟩
  | worker w res =>
    -- no such worker
    cases hw : q.workers[w]? with
    | none =>
      refine .inl ⟨_, [], _, by simp only [step, hw]; exact hstay, fun _ ha => ha, ?_⟩
      rintro w' res' phase ⟨rfl, rfl⟩ hphase
      simp [hw] at hphase
    | some phase =>
      cases phase with
      | idle =>
        cases hchannel : q.channel with
        | nil =>
          -- a worker with nothing to take
          have heq : q.step (.worker w res) = q := by simp only [step, hw, stepWorker, hchannel]
          refine .inl ⟨_, [], _, heq.trans (hchannel ▸ hstay), fun _ ha => ha, ?_⟩
          rintro w' res' phase ⟨rfl, rfl⟩ hphase
          exact ⟨Option.some.inj (hphase.symm.trans hw), rfl⟩
        | cons r rest =>
          refine .inr ⟨w, res, _, rfl, hw, .inl ⟨r, rest, rfl, rfl, ?_⟩⟩
          simp [step, hw, stepWorker, hchannel]
      -- the write, the gauge, the answer
      | taken r =>
        refine .inr ⟨w, res, _, rfl, hw, .inr (.inl ⟨r, rfl, ?_⟩)⟩
        simp [step, hw, stepWorker]
      | executed r res' =>
        refine .inr ⟨w, res, _, rfl, hw, .inr (.inr (.inl ⟨r, res', rfl, ?_⟩))⟩
        simp [step, hw, stepWorker]
      | released r res' =>
        refine .inr ⟨w, res, _, rfl, hw, .inr (.inr (.inr ⟨r, res', rfl, ?_⟩))⟩
        simp [step, hw, stepWorker]

/-- A request that was accepted stays accepted. -/
theorem step_accepted (e : QueueStep) {r : Nat} (h : q.Accepted r) : (q.step e).Accepted r := by
  rcases step_cases q e with ⟨depth, sent, handlers, heq, hacc, _⟩ |
    ⟨w, res, phase, _, _, ⟨_, _, _, _, heq⟩ | ⟨_, _, heq⟩ | ⟨_, _, _, heq⟩ | ⟨_, _, _, heq⟩⟩
  · rw [heq]
    exact hacc r h
  all_goals rw [heq]; exact h

/-- An answer stays. -/
theorem step_answered (e : QueueStep) : ∃ sent, (q.step e).answered = q.answered ++ sent := by
  rcases step_cases q e with ⟨depth, sent, handlers, heq, _, _⟩ |
    ⟨w, res, phase, _, _, ⟨_, _, _, _, heq⟩ | ⟨_, _, heq⟩ | ⟨_, _, _, heq⟩ | ⟨_, _, _, heq⟩⟩
  all_goals rw [heq]
  case inr.inr.inr.inr => exact ⟨_, rfl⟩
  all_goals exact ⟨[], (List.append_nil _).symm⟩

/-- An answer is not taken back. -/
theorem step_answers_pos (e : QueueStep) {r : Nat} (h : 0 < q.answers r) :
    0 < (q.step e).answers r := by
  obtain ⟨sent, hsent⟩ := step_answered (q := q) e
  rw [answers, hsent, List.countP_append]
  exact Nat.lt_of_lt_of_le h (Nat.le_add_right _ _)

/-- The capacity and the number of workers are fixed. -/
theorem step_fixed (q : WriteQueue) (e : QueueStep) :
    (q.step e).queueCap = q.queueCap ∧ (q.step e).workers.length = q.workers.length := by
  rcases step_cases q e with ⟨depth, sent, handlers, heq, _, _⟩ |
    ⟨w, res, phase, _, _, ⟨_, _, _, _, heq⟩ | ⟨_, _, heq⟩ | ⟨_, _, _, heq⟩ | ⟨_, _, _, heq⟩⟩
  all_goals rw [heq]; simp

/-! ### Progress -/

/-- The request `r` is with the worker `w`. -/
def With (q : WriteQueue) (w r : Nat) : Prop :=
  ∃ phase, q.workers[w]? = some phase ∧ phase.request = some r

/-- The steps of the worker `w` until it looks for a request. -/
def remaining (q : WriteQueue) (w : Nat) : Nat := (q.workers[w]?.map WorkerPhase.remaining).getD 0

/-- What lies ahead of the request `r` in the channel, in steps of the first worker. -/
def ahead (q : WriteQueue) (r : Nat) : Nat := 4 * q.channel.idxOf r + q.remaining 0

/-- The steps a worker still needs, read off its phase. -/
theorem remaining_of {w : Nat} {phase : WorkerPhase} (hw : q.workers[w]? = some phase) :
    q.remaining w = phase.remaining := by
  simp only [remaining, hw, Option.map_some, Option.getD_some]

/-- A step of one worker leaves what the others need. -/
theorem remaining_set {q' : WriteQueue} {w : Nat} {phase' : WorkerPhase}
    (hlt : w < q.workers.length) (hset : q'.workers = q.workers.set w phase') (v : Nat) :
    q'.remaining v = if v = w then phase'.remaining else q.remaining v := by
  split
  · rename_i hv
    subst hv
    exact remaining_of (by rw [hset]; exact List.getElem?_set_self hlt)
  · rename_i hv
    simp only [remaining, hset, List.getElem?_set_ne (Ne.symm hv)]

/-- A request with a worker moves on when the worker does, and is answered at the end. -/
theorem step_with (e : QueueStep) {w r : Nat} (h : q.With w r) :
    ((q.step e).With w r ∧ (q.step e).remaining w ≤ q.remaining w ∧
      ((∃ res, e = .worker w res) → (q.step e).remaining w < q.remaining w)) ∨
    0 < (q.step e).answers r := by
  obtain ⟨phase, hw, hr⟩ := h
  rcases step_cases q e with ⟨depth, sent, handlers, heq, _, hidle⟩ |
    ⟨w', res, phase', rfl, hw', hmove⟩
  · left
    rw [heq]
    refine ⟨⟨phase, hw, hr⟩, Nat.le_refl _, ?_⟩
    rintro ⟨res, he⟩
    obtain ⟨rfl, -⟩ := hidle w res phase he hw
    cases hr
  · have hlt : w' < q.workers.length := (List.getElem?_eq_some_iff.mp hw').1
    have hnow := remaining_of hw
    by_cases hne : w = w'
    · subst hne
      obtain rfl : phase = phase' := Option.some.inj (hw.symm.trans hw')
      -- the worker goes on with the same request
      have hmoved : ∀ phase', (q.step (.worker w res)).workers = q.workers.set w phase' →
          phase'.request = some r → phase'.remaining < phase.remaining →
          (q.step (.worker w res)).With w r ∧
            (q.step (.worker w res)).remaining w < q.remaining w := by
        intro phase' hset hr' hless
        have hnext := remaining_set hlt hset w
        rw [if_pos rfl] at hnext
        exact ⟨⟨phase', by rw [hset]; exact List.getElem?_set_self hlt, hr'⟩, by omega⟩
      rcases hmove with ⟨_, _, rfl, _, _⟩ | ⟨r', rfl, heq⟩ | ⟨r', res', rfl, heq⟩ |
        ⟨r', res', rfl, heq⟩
      · cases hr
      · have hboth := hmoved (.executed r' res) (by rw [heq]) hr (Nat.lt_succ_self _)
        exact .inl ⟨hboth.1, Nat.le_of_lt hboth.2, fun _ => hboth.2⟩
      · have hboth := hmoved (.released r' res') (by rw [heq]) hr (Nat.lt_succ_self _)
        exact .inl ⟨hboth.1, Nat.le_of_lt hboth.2, fun _ => hboth.2⟩
      · -- its last step answers
        right
        obtain rfl : r' = r := by simpa [WorkerPhase.request] using hr
        rw [heq]
        simp [answers]
    · -- another worker moves
      left
      have hsame : (q.step (.worker w' res)).workers[w]? = q.workers[w]? := by
        rcases hmove with ⟨_, _, _, _, heq⟩ | ⟨_, _, heq⟩ | ⟨_, _, _, heq⟩ | ⟨_, _, _, heq⟩ <;>
          rw [heq] <;> exact List.getElem?_set_ne (Ne.symm hne)
      refine ⟨⟨phase, hsame.trans hw, hr⟩, by simp only [remaining, hsame, Nat.le_refl], ?_⟩
      rintro ⟨res', he⟩
      cases he
      exact absurd rfl hne

/-- A request in the channel moves to its head, or it is taken. -/
theorem step_channel (e : QueueStep) {r : Nat} (h : r ∈ q.channel)
    (hworker : 0 < q.workers.length) :
    (r ∈ (q.step e).channel ∧ (q.step e).ahead r ≤ q.ahead r ∧
      ((∃ res, e = .worker 0 res) → (q.step e).ahead r < q.ahead r)) ∨
    ∃ w, (q.step e).With w r := by
  rcases step_cases q e with ⟨depth, sent, handlers, heq, _, hidle⟩ |
    ⟨w, res, phase, rfl, hw, hmove⟩
  · -- what is sent goes behind it
    left
    rw [heq]
    refine ⟨List.mem_append_left _ h, ?_, ?_⟩
    · simp only [ahead, List.idxOf_append_of_mem h]
      exact Nat.le_refl _
    · rintro ⟨res, he⟩
      have hnil := (hidle 0 res _ he (List.getElem?_eq_getElem hworker)).2
      simp [hnil] at h
  · have hlt : w < q.workers.length := (List.getElem?_eq_some_iff.mp hw).1
    have hnow := remaining_of hw
    rcases hmove with ⟨r', rest, rfl, hchannel, heq⟩ | hrest
    · -- the head of the channel is taken
      have hset : (q.step (.worker w res)).workers = q.workers.set w (.taken r') := by rw [heq]
      have hnext := remaining_set hlt hset 0
      by_cases hr : r' = r
      · right
        subst hr
        exact ⟨w, _, by rw [heq]; exact List.getElem?_set_self hlt, rfl⟩
      · left
        have hin : r ∈ rest := by simpa [hchannel, Ne.symm hr] using h
        have hidx : q.channel.idxOf r = rest.idxOf r + 1 := by
          rw [hchannel, List.idxOf_cons_ne _ hr]
        have hrest : (q.step (.worker w res)).channel = rest := by rw [heq]
        have hless : (q.step (.worker w res)).ahead r < q.ahead r := by
          simp only [ahead, hrest, hnext, hidx, WorkerPhase.remaining]
          split <;> omega
        exact ⟨hrest ▸ hin, Nat.le_of_lt hless, fun _ => hless⟩
    · -- the worker is at another request
      left
      -- only worker 0 counts towards its place
      have hmoved : ∀ phase', (q.step (.worker w res)).channel = q.channel →
          (q.step (.worker w res)).workers = q.workers.set w phase' →
          phase'.remaining < phase.remaining →
          r ∈ (q.step (.worker w res)).channel ∧
            (q.step (.worker w res)).ahead r ≤ q.ahead r ∧
            ((∃ res', QueueStep.worker w res = .worker 0 res') →
              (q.step (.worker w res)).ahead r < q.ahead r) := by
        intro phase' hchannel hset hless
        have hnext := remaining_set hlt hset 0
        simp only [ahead, hchannel, hnext, h, true_and, QueueStep.worker.injEq]
        split
        · rename_i hzero
          subst hzero
          omega
        · rename_i hzero
          refine ⟨Nat.le_refl _, ?_⟩
          rintro ⟨_, hz, _⟩
          exact absurd hz.symm hzero
      rcases hrest with ⟨r', rfl, heq⟩ | ⟨r', res', rfl, heq⟩ | ⟨r', res', rfl, heq⟩
      · exact hmoved (.executed r' res) (by rw [heq]) (by rw [heq]) (Nat.lt_succ_self _)
      · exact hmoved (.released r' res') (by rw [heq]) (by rw [heq]) (Nat.lt_succ_self _)
      · exact hmoved .idle (by rw [heq]) (by rw [heq]) (Nat.lt_succ_self _)

/-- A phase that names a request belongs to some worker. -/
theorem with_of_mem {phase : WorkerPhase} {r : Nat} (hphase : phase ∈ q.workers)
    (hr : phase.request = some r) : ∃ w, q.With w r := by
  obtain ⟨w, hw⟩ := List.mem_iff_getElem?.mp hphase
  exact ⟨w, phase, hw, hr⟩

/-- An accepted request is in the channel, with a worker, or answered. -/
theorem Inv.whereabouts (h : q.Inv) {r : Nat} (ha : q.Accepted r) :
    r ∈ q.channel ∨ (∃ w, q.With w r) ∨ 0 < q.answers r := by
  have hplace := h.place r
  have howed := h.owed r
  rw [if_pos ha] at hplace
  by_cases hin : r ∈ q.channel
  · exact .inl hin
  rw [List.count_eq_zero_of_not_mem hin] at hplace
  right
  -- a worker has it and has not run it yet
  by_cases hholds : 0 < q.workers.countP (WorkerPhase.holds r)
  · left
    obtain ⟨phase, hphase, hp⟩ := List.countP_pos_iff.mp hholds
    refine with_of_mem hphase ?_
    cases phase <;> simp_all [WorkerPhase.holds, WorkerPhase.request]
  -- a worker has run it and owes the answer
  by_cases howes : 0 < q.workers.countP (WorkerPhase.owes r)
  · left
    obtain ⟨phase, hphase, hp⟩ := List.countP_pos_iff.mp howes
    refine with_of_mem hphase ?_
    cases phase <;> simp_all [WorkerPhase.owes, WorkerPhase.request]
  · right
    omega

section Schedule

variable {q₀ : WriteQueue} {sched : Nat → QueueStep} {r : Nat}

/-- A request that is with a worker is answered, if the worker goes on. -/
theorem answered_of_with {n w : Nat}
    (hfair : Run.Often (fun e => ∃ res, e = .worker w res) sched)
    (h : (Run.stateAt step q₀ sched n).With w r) :
    ∃ m, n ≤ m ∧ 0 < (Run.stateAt step q₀ sched m).answers r := by
  by_cases hn : 0 < (Run.stateAt step q₀ sched n).answers r
  · exact ⟨n, Nat.le_refl n, hn⟩
  obtain ⟨m, hle, ⟨hwith, _⟩, hleft⟩ :=
    Run.exists_leave (P := fun q => q.With w r ∧ ¬0 < q.answers r) (remaining · w) hfair
      ⟨h, hn⟩ (by
        rintro m ⟨hwith, _⟩ ⟨_, hnone⟩
        exact ((step_with (sched m) hwith).resolve_right hnone).2)
  refine ⟨m + 1, by omega, ?_⟩
  rcases step_with (sched m) hwith with ⟨hstays, _⟩ | hanswered
  · exact by_contra fun hnone => hleft ⟨hstays, hnone⟩
  · exact hanswered

/-- A request in the channel is taken, if the first worker goes on. -/
theorem taken_of_channel {n : Nat} (hworkers : 0 < q₀.workers.length)
    (hfair : Run.Often (fun e => ∃ res, e = .worker 0 res) sched)
    (h : r ∈ (Run.stateAt step q₀ sched n).channel) :
    ∃ m w, n ≤ m ∧ (Run.stateAt step q₀ sched m).With w r := by
  have hlength : ∀ m, 0 < (Run.stateAt step q₀ sched m).workers.length :=
    Run.stateAt_invariant (fun q : WriteQueue => 0 < q.workers.length)
      (fun q e hq => (step_fixed q e).2 ▸ hq) hworkers
  by_cases hn : ∃ w, (Run.stateAt step q₀ sched n).With w r
  · obtain ⟨w, hw⟩ := hn
    exact ⟨n, w, Nat.le_refl n, hw⟩
  obtain ⟨m, hle, ⟨hin, _⟩, hleft⟩ :=
    Run.exists_leave (P := fun q => r ∈ q.channel ∧ ¬∃ w, q.With w r) (ahead · r) hfair
      ⟨h, hn⟩ (by
        rintro m ⟨hin, _⟩ ⟨_, hnone⟩
        exact ((step_channel (sched m) hin (hlength m)).resolve_right hnone).2)
  rcases step_channel (sched m) hin (hlength m) with ⟨hstays, _⟩ | ⟨w, hw⟩
  · have hsome : ∃ w, (Run.stateAt step q₀ sched (m + 1)).With w r :=
      by_contra fun hnone => hleft ⟨hstays, hnone⟩
    obtain ⟨w, hw⟩ := hsome
    exact ⟨m + 1, w, by omega, hw⟩
  · exact ⟨m + 1, w, by omega, hw⟩

/-- An accepted request is answered, if every worker goes on again and again. -/
theorem eventually_answered {n : Nat} (hinv : q₀.Inv) (hworkers : 0 < q₀.workers.length)
    (hfair : ∀ w < q₀.workers.length, Run.Often (fun e => ∃ res, e = .worker w res) sched)
    (ha : (Run.stateAt step q₀ sched n).Accepted r) :
    ∃ m, n ≤ m ∧ 0 < (Run.stateAt step q₀ sched m).answers r := by
  have hwith : ∀ n w, (Run.stateAt step q₀ sched n).With w r →
      ∃ m, n ≤ m ∧ 0 < (Run.stateAt step q₀ sched m).answers r := by
    intro n w hw
    refine answered_of_with (hfair w ?_) hw
    have hlength : (Run.stateAt step q₀ sched n).workers.length = q₀.workers.length :=
      Run.stateAt_invariant (fun q : WriteQueue => q.workers.length = q₀.workers.length)
        (fun q e hq => (step_fixed q e).2.trans hq) rfl n
    obtain ⟨phase, hphase, _⟩ := hw
    exact hlength ▸ (List.getElem?_eq_some_iff.mp hphase).1
  rcases (Run.stateAt_invariant Inv inv_step hinv n).whereabouts ha with hin | ⟨w, hw⟩ | hdone
  · obtain ⟨m, w, hle, hw⟩ := taken_of_channel hworkers (hfair 0 hworkers) hin
    obtain ⟨m', hle', hdone⟩ := hwith m w hw
    exact ⟨m', Nat.le_trans hle hle', hdone⟩
  · exact hwith n w hw
  · exact ⟨n, Nat.le_refl n, hdone⟩

end Schedule

/-- An answered request was carried out once, and answered once with what came of it. -/
theorem Inv.settled (h : q.Inv) {r : Nat} (hr : 0 < q.answers r) :
    q.executions r = 1 ∧ q.answers r = 1 ∧
      ∃ res, (r, res) ∈ q.executed ∧ q.done r = some res := by
  have hplace := h.place r
  have howed := h.owed r
  obtain ⟨e, he, hre⟩ := List.countP_pos_iff.mp hr
  have hone : (if q.Accepted r then 1 else 0) ≤ 1 := by split <;> decide
  refine ⟨by omega, by omega, ?_⟩
  cases hfind : q.answered.find? fun e => e.1 = r with
  | none => exact absurd hre (List.find?_eq_none.mp hfind e he)
  | some sent =>
    have hsent : sent.1 = r := by simpa using List.find?_some hfind
    refine ⟨sent.2, ?_, by rw [done, hfind]; rfl⟩
    subst hsent
    exact h.results sent (List.mem_of_find?_eq_some hfind)

section Schedule

variable {q₀ : WriteQueue} {sched : Nat → QueueStep} {n r : Nat}

/-- From some step on an accepted request is carried out and answered, once. -/
theorem eventually_settled (hinv : q₀.Inv) (hworkers : 0 < q₀.workers.length)
    (hfair : ∀ w < q₀.workers.length, Run.Often (fun e => ∃ res, e = .worker w res) sched)
    (ha : (Run.stateAt step q₀ sched n).Accepted r) :
    ∃ N, n ≤ N ∧ ∀ m, N ≤ m → let q := Run.stateAt step q₀ sched m
      q.executions r = 1 ∧ q.answers r = 1 ∧
        ∃ res, (r, res) ∈ q.executed ∧ q.done r = some res := by
  obtain ⟨N, hn, hdone⟩ := eventually_answered hinv hworkers hfair ha
  refine ⟨N, hn, fun m hle => ?_⟩
  have hlater := Run.stateAt_stays (fun q : WriteQueue => 0 < q.answers r)
    (fun q e hq => step_answers_pos e hq) hle hdone
  exact (Run.stateAt_invariant Inv inv_step hinv m).settled hlater

/-- Its handler then returns what came of the write. -/
theorem eventually_responds (hinv : q₀.Inv) (hworkers : 0 < q₀.workers.length)
    (hfair : ∀ w < q₀.workers.length, Run.Often (fun e => ∃ res, e = .worker w res) sched)
    (ha : (Run.stateAt step q₀ sched n).Accepted r) (label : String) :
    ∃ N, ∀ m, N ≤ m → let q := Run.stateAt step q₀ sched m
      ∃ res, (r, res) ∈ q.executed ∧
        q.response label r = some (awaitWriteDone (some res) label) := by
  obtain ⟨N, hn, hall⟩ := eventually_settled hinv hworkers hfair ha
  refine ⟨N, fun m hle => ?_⟩
  obtain ⟨-, -, res, hexec, hdone⟩ := hall m hle
  have hstill : (Run.stateAt step q₀ sched m).handlers[r]? = some .accepted :=
    Run.stateAt_stays (fun q : WriteQueue => q.Accepted r) (fun _ e h => step_accepted e h)
      (Nat.le_trans hn hle) ha
  refine ⟨res, hexec, ?_⟩
  simp only [response, hstill, hdone, Option.map_some]

end Schedule

/-- The requests that are accepted and not released yet. -/
def Unfinished (q : WriteQueue) (r : Nat) : Prop :=
  q.Accepted r ∧ (r ∈ q.channel ∨ ∃ phase ∈ q.workers, phase.carrying = some r)

/-- At most `queue_cap` distinct requests are queued or being written. -/
theorem Inv.unfinished_le (h : q.Inv) {rs : List Nat} (hnodup : rs.Nodup)
    (hrs : ∀ r ∈ rs, q.Unfinished r) : rs.length ≤ q.queueCap := by
  have hsub : rs ⊆ q.channel ++ q.workers.filterMap WorkerPhase.carrying := by
    intro r hr
    rcases (hrs r hr).2 with hin | hphase
    · exact List.mem_append_left _ hin
    · exact List.mem_append_right _ (List.mem_filterMap.mpr hphase)
  have hbusy : (q.workers.filterMap WorkerPhase.carrying).length = q.busy := by
    rw [List.length_filterMap_eq_countP]
    refine List.countP_congr fun phase _ => ?_
    cases phase <;> simp [WorkerPhase.carrying, WorkerPhase.busy]
  have hle := (List.subperm_of_subset hnodup hsub).length_le
  have hbound := h.bound
  rw [List.length_append, hbusy] at hle
  omega

/-- Every worker of the pool goes on again and again. -/
def FairWorkers (workers : Nat) (sched : Nat → QueueStep) : Prop :=
  ∀ w < max workers 1, Run.Often (fun e => ∃ res, e = .worker w res) sched

/-- In every interleaving the depth counts what is in the channel, what is carried out and the
    handlers in between, is never below zero, and leaves room for at most `cap` requests; no
    request is carried out or answered twice, or without being accepted.  If every worker keeps
    going, every accepted request is carried out and answered exactly once. -/
theorem accounting_exact (cap workers : Nat) :
    (∀ steps, let q := Run.exec step (start cap workers) steps
      q.queueDepth = q.channel.length + q.busy + q.pending ∧ 0 ≤ q.queueDepth ∧
        (∀ rs : List Nat, rs.Nodup → (∀ r ∈ rs, q.Unfinished r) → rs.length ≤ cap) ∧
        (∀ r, q.answers r ≤ q.executions r ∧ q.executions r ≤ 1 ∧
          (0 < q.executions r → q.Accepted r)) ∧
        ∀ e ∈ q.answered, e ∈ q.executed) ∧
      ∀ sched, FairWorkers workers sched → ∀ n r,
        (Run.stateAt step (start cap workers) sched n).Accepted r →
        ∃ N, ∀ m, N ≤ m → let q := Run.stateAt step (start cap workers) sched m
          q.executions r = 1 ∧ q.answers r = 1 ∧
            ∃ res, (r, res) ∈ q.executed ∧ q.done r = some res := by
  have hstart := inv_start cap workers
  refine ⟨fun steps => ?_, fun sched hfair n r ha => ?_⟩
  · -- in every state the invariant gives the accounts
    have hinv := Run.exec_invariant Inv inv_step steps hstart
    have hcap : (Run.exec step (start cap workers) steps).queueCap = cap :=
      Run.exec_invariant (fun q : WriteQueue => q.queueCap = cap)
        (fun q e hq => (step_fixed q e).1.trans hq) steps rfl
    have hdepth := hinv.depth
    refine ⟨hdepth, by omega, fun rs hnodup hrs => hcap ▸ hinv.unfinished_le hnodup hrs,
      fun r => ?_, hinv.results⟩
    have hplace := hinv.place r
    have howed := hinv.owed r
    split at hplace
    · rename_i ha
      exact ⟨by omega, by omega, fun _ => ha⟩
    · exact ⟨by omega, by omega, by omega⟩
  · -- and a fair schedule lets each accepted request come to its answer
    have hlength : (start cap workers).workers.length = max workers 1 := List.length_replicate
    obtain ⟨N, -, hall⟩ := eventually_settled hstart (by omega)
      (fun w hw => hfair w (hlength ▸ hw)) ha
    exact ⟨N, hall⟩

/-- One handler, and one worker that then keeps going. -/
theorem accounting_exact_single :
    ∃ N, ∀ m, N ≤ m →
      let q := Run.stateAt step (start 1 1)
        (fun n => if n = 0 then .arrive else if n = 1 then .handler 0 else .worker 0 true) m
      q.executions 0 = 1 ∧ q.answers 0 = 1 ∧
        ∃ res, (0, res) ∈ q.executed ∧ q.done 0 = some res := by
  refine (accounting_exact 1 1).2 _ ?_ 2 0 (by decide)
  intro w hw n
  obtain rfl : w = 0 := by omega
  exact ⟨n + 2, by omega, true, by simp⟩

end WriteQueue

end FusionStore
