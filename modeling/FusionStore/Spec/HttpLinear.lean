import FusionStore.Spec.HttpObject
import FusionStore.Spec.WriteQueueCorrect

/-!
# The HTTP server is linearizable

A request takes effect in one step between its arrival and its answer: a write when a worker
applies it, a search or a compaction when its task runs, a rejected request when it is
rejected.  So whatever the interleaving of handlers, workers and threads, the answers are those
of a server that handles one request at a time, in an order that agrees with real time.

## Key results

- `HttpServer.Tied.moves`: every step is explained
- `HttpServer.linearizable`: every run from the start is
-/

namespace FusionStore

variable (A : F32Arith)

/-! ### What has become of a write -/

namespace WriteQueue

variable {q : WriteQueue} {k : Nat}

/-- The request `k` was rejected (`none`), or carried out with a result. -/
def Settled (q : WriteQueue) (k : Nat) : Option Bool → Prop
  | none => q.handlers[k]? = some .rejected
  | some res => (k, res) ∈ q.executed

/-- A write that is neither rejected nor executed has no outcome yet. -/
theorem not_settled (hrej : q.handlers[k]? ≠ some .rejected)
    (hexec : q.executions k = 0) (o : Option Bool) : ¬q.Settled k o := by
  cases o with
  | none => exact hrej
  | some res =>
    intro hmem
    have hpos : 0 < q.executions k := List.countP_pos_iff.mpr ⟨_, hmem, by simp⟩
    omega

/-- A request with a worker that has not carried it out. -/
theorem Inv.not_settled_taken (h : q.Inv) {w : Nat} (hw : q.workers[w]? = some (.taken k))
    (o : Option Bool) : ¬q.Settled k o := by
  have hplace := h.place k
  have hholds : 0 < q.workers.countP (WorkerPhase.holds k) :=
    List.countP_pos_iff.mpr ⟨_, List.mem_of_getElem? hw, by simp [WorkerPhase.holds]⟩
  by_cases hacc : q.Accepted k
  · rw [if_pos hacc] at hplace
    refine not_settled ?_ (by omega) o
    rw [hacc]
    simp
  · rw [if_neg hacc] at hplace
    omega

/-- A new handler settles nothing. -/
theorem settled_arrive (o : Option Bool) : (q.step .arrive).Settled k o ↔ q.Settled k o := by
  cases o with
  | some res => exact Iff.rfl
  | none =>
    simp only [Settled, step, List.getElem?_append]
    split
    · exact Iff.rfl
    · rename_i hk
      rw [List.getElem?_eq_none (Nat.not_lt.mp hk)]
      cases k - q.handlers.length with
      | zero => simp
      | succ i => simp

/-- A handler that moves rejects its own request or settles nothing. -/
theorem Inv.settled_handler (h : q.Inv) (i : Nat) :
    (∀ k o, (q.step (.handler i)).Settled k o ↔ q.Settled k o) ∨
    ((∀ o, ¬q.Settled i o) ∧ i < q.handlers.length ∧ ∀ k o,
      (q.step (.handler i)).Settled k o ↔ q.Settled k o ∨ k = i ∧ o = none) := by
  cases hi : q.handlers[i]? with
  | none => exact Or.inl fun k o => by simp only [step, hi]
  | some phase =>
    have hlt : i < q.handlers.length := (List.getElem?_eq_some_iff.mp hi).1
    -- what the replacement of a phase that is not `rejected` settles
    have hset : ∀ phase' : HandlerPhase, phase ≠ .rejected → phase' ≠ .rejected → ∀ k : Nat,
        (q.handlers.set i phase')[k]? = some HandlerPhase.rejected ↔
          q.handlers[k]? = some HandlerPhase.rejected := by
      intro phase' hne hne' k
      by_cases hk : i = k
      · subst hk
        rw [List.getElem?_set_self hlt, hi]
        simp [hne, hne']
      · rw [List.getElem?_set_ne hk]
    -- a handler that rejects settles its own request and no other
    have hreject : phase ≠ .accepted → phase ≠ .rejected → ∀ q' : WriteQueue,
        q'.handlers = q.handlers.set i .rejected → q'.executed = q.executed →
        (∀ o, ¬q.Settled i o) ∧ i < q.handlers.length ∧ ∀ k o,
          q'.Settled k o ↔ q.Settled k o ∨ k = i ∧ o = none := by
      intro hacc hrej q' hhandlers hexec
      have hplace := h.place i
      have hno : ¬q.Accepted i := fun ha => hacc (Option.some.inj (hi.symm.trans ha))
      rw [if_neg hno] at hplace
      refine ⟨not_settled (by rw [hi]; simpa using hrej) (by omega), hlt, fun k o => ?_⟩
      cases o with
      | some res => simp [Settled, hexec]
      | none =>
        simp only [Settled, hhandlers, and_true]
        by_cases hk : i = k
        · subst hk
          simp [List.getElem?_set_self hlt]
        · simp [List.getElem?_set_ne hk, Ne.symm hk]
    cases phase with
    -- these two have ended already
    | accepted => exact Or.inl fun k o => by simp only [step, hi, stepHandler]
    | rejected => exact Or.inl fun k o => by simp only [step, hi, stepHandler]
    | bounced =>
      refine Or.inr (hreject (by simp) (by simp) _ ?_ ?_) <;> simp only [step, hi, stepHandler]
    | counted qd =>
      -- the gauge is at the cap, so the request is rejected
      by_cases hfull : qd ≥ q.queueCap
      · refine Or.inr (hreject (by simp) (by simp) _ ?_ ?_) <;>
          simp only [step, hi, stepHandler, if_pos hfull]
      · left
        intro k o
        -- the channel has room, or the request bounces and is rejected in its next step
        by_cases hroom : q.channel.length < q.queueCap
        · simp only [step, hi, stepHandler, if_neg hfull, if_pos hroom]
          cases o with
          | some res => exact Iff.rfl
          | none => exact hset .accepted (by simp) (by simp) k
        · simp only [step, hi, stepHandler, if_neg hfull, if_neg hroom]
          cases o with
          | some res => exact Iff.rfl
          | none => exact hset .bounced (by simp) (by simp) k

/-- A worker that is done settles the write it has taken. -/
theorem settled_executed {w r : Nat} (hw : q.workers[w]? = some (.taken r)) (res : Bool)
    (o : Option Bool) :
    (q.step (.worker w res)).Settled k o ↔ q.Settled k o ∨ k = r ∧ o = some res := by
  simp only [step, hw, stepWorker]
  cases o with
  | none => simp [Settled]
  | some res' => simp [Settled, Prod.ext_iff]

/-- A worker that has nothing to carry out settles nothing. -/
theorem settled_worker {w : Nat} (hw : ∀ r, q.workers[w]? ≠ some (.taken r)) (res : Bool)
    (o : Option Bool) : (q.step (.worker w res)).Settled k o ↔ q.Settled k o := by
  simp only [step]
  split
  · rename_i phase hphase
    cases phase with
    | taken r => exact absurd hphase (hw r)
    | idle =>
      simp only [stepWorker]
      split <;> cases o <;> exact Iff.rfl
    | executed r res' => cases o <;> exact Iff.rfl
    | released r res' => cases o <;> exact Iff.rfl
  · exact Iff.rfl

/-- What a handler returns was settled. -/
theorem Inv.settled_of_response (h : q.Inv) {req : WriteReq} {r : Except AppError StatusCode}
    (hr : q.response req.label k = some r) :
    ∃ o, q.Settled k o ∧ HttpReply.ofStatus r = req.reply o := by
  unfold response at hr
  split at hr
  · obtain ⟨res, hdone, rfl⟩ := Option.map_eq_some_iff.mp hr
    obtain ⟨e, hfind, rfl⟩ := Option.map_eq_some_iff.mp hdone
    have hk : e.1 = k := by simpa using List.find?_some hfind
    have hmem := h.results e (List.mem_of_find?_eq_some hfind)
    exact ⟨some e.2, hk ▸ hmem, rfl⟩
  · rename_i hrej
    obtain rfl := Option.some.inj hr
    exact ⟨none, hrej, rfl⟩
  · cases hr

end WriteQueue

namespace HttpServer

/-! ### What a step can do -/

/-- A step that happens, what it leaves and what clients see of it. -/
inductive Moves (s : HttpServer) : HttpStep → HttpServer → List HttpEvent → Prop
  | idle {st : HttpStep} : Moves s st s []
  | request (r : HttpRequest) : Moves s (.request r) (s.receive r).1 (s.receive r).2
  | handler (i : Nat) : Moves s (.handler i) { s with queue := s.queue.step (.handler i) } []
  | log {w k : Nat} {call : WriteCall} (htaken : s.taken w = some k)
      (hk : s.writes[k]? = some call) (hnew : k ∉ s.logged) :
      Moves s (.log w) (s.log w k call.req) []
  | apply {w k : Nat} {call : WriteCall} {locked : Bool} (htaken : s.taken w = some k)
      (hk : s.writes[k]? = some call) (hlogged : k ∈ s.logged) :
      Moves s (.apply w locked) (s.applyWrite A w k call.req locked) []
  | worker {w : Nat} (hw : s.taken w = none) :
      Moves s (.worker w) { s with queue := s.queue.step (.worker w false) } []
  | respond {k : Nat} {req : WriteReq} {r : Except AppError StatusCode}
      (hk : s.writes[k]? = some ⟨req, true⟩) (hr : s.queue.response req.label k = some r) :
      Moves s (.respond k) { s with writes := s.writes.set k ⟨req, false⟩ }
        [.ret (.write k) (.ofStatus r)]
  | leave {k : Nat} {call : WriteCall} (hk : s.writes[k]? = some call)
      (hqueued : s.queue.handlers[k]? = some .accepted) :
      Moves s (.leave k) { s with writes := s.writes.set k { call with waiting := false } } []
  | search {j topK : Nat} {query : List F32} {phase : TaskPhase}
      (hj : s.tasks[j]? = some (.knn query topK, phase)) :
      Moves s (.search j) (s.finish j (.knn query topK) phase (s.searchReply A query topK)) []
  | compact {j : Nat} {order : MapOrder} {avail : Option Nat} {cached : List Nat}
      {phase : TaskPhase} (hj : s.tasks[j]? = some (.compact, phase))
      (hphase : phase = .running ∨ phase = .dropped) :
      Moves s (.compact j order avail cached)
        ({ s with engine := (s.compactReply A order avail cached).2 }.finish j .compact phase
          (s.compactReply A order avail cached).1) []
  | resume {j : Nat} {req : HttpReq} {reply : HttpReply}
      (hj : s.tasks[j]? = some (req, .ended reply)) :
      Moves s (.resume j) ({ s with tasks := s.tasks.set j (req, .done) }.release req true)
        [.ret (.task j) reply]
  | dropRunning {j : Nat} {req : HttpReq} (hj : s.tasks[j]? = some (req, .running)) :
      Moves s (.drop j) ({ s with tasks := s.tasks.set j (req, .dropped) }.release req false) []
  | dropEnded {j : Nat} {req : HttpReq} {reply : HttpReply}
      (hj : s.tasks[j]? = some (req, .ended reply)) :
      Moves s (.drop j) ({ s with tasks := s.tasks.set j (req, .done) }.release req false) []

/-- There is nothing else a step does. -/
theorem step_moves (s : HttpServer) (st : HttpStep) :
    Moves A s st (s.step A st).1 (s.step A st).2 := by
  -- by cases on the step; what does not apply is idle
  cases st with
  | request r => exact .request r
  | handler i => exact .handler i
  | log w =>
    simp only [HttpServer.step]
    split
    · rename_i k htaken
      split
      · rename_i call hk
        split
        · exact .idle
        · rename_i hnew
          exact .log htaken hk hnew
      · exact .idle
    · exact .idle
  | apply w locked =>
    simp only [HttpServer.step]
    split
    · rename_i k htaken
      split
      · rename_i call hk
        split
        · rename_i hlogged
          exact .apply htaken hk hlogged
        · exact .idle
      · exact .idle
    · exact .idle
  | worker w =>
    simp only [HttpServer.step]
    split
    · exact .idle
    · rename_i hw
      exact .worker hw
  | respond k =>
    simp only [HttpServer.step]
    split
    · rename_i req hk
      split
      · rename_i r hr
        exact .respond hk hr
      · exact .idle
    · exact .idle
  | leave k =>
    simp only [HttpServer.step]
    split
    · rename_i call hk
      split
      · rename_i hqueued
        exact .leave hk hqueued
      · exact .idle
    · exact .idle
  | search j =>
    simp only [HttpServer.step]
    split
    · rename_i query topK phase hj
      exact .search hj
    · exact .idle
  | compact j order avail cached =>
    simp only [HttpServer.step]
    split
    · rename_i hj
      exact .compact hj (.inl rfl)
    · rename_i hj
      exact .compact hj (.inr rfl)
    · exact .idle
  | resume j =>
    simp only [HttpServer.step]
    split
    · rename_i req reply hj
      exact .resume hj
    · exact .idle
  | drop j =>
    simp only [HttpServer.step]
    split
    · rename_i req hj
      exact .dropRunning hj
    · rename_i req reply hj
      exact .dropEnded hj
    · exact .idle

/-! ### Every step -/

variable {schema : VectorSchema} {s : HttpServer} {c₀ c : Contents} {h : List HttpEvent}
  {es : List (Linear.Entry ReqId HttpReq HttpReply)}

/-- The write of the handler `k`. -/
def reqAt (s : HttpServer) (k : Nat) : Option WriteReq := s.writes[k]?.map WriteCall.req

/-- The requests that have arrived. -/
def Asked (s : HttpServer) : ReqId → HttpReq → Prop
  | .write k, op => ∃ req, s.reqAt k = some req ∧ op = .write req
  | .task j, op => ∃ phase, s.tasks[j]? = some (op, phase)

/-- A server with what its clients have seen and what has taken effect. -/
structure Tied (schema : VectorSchema) (c₀ : Contents) (s : HttpServer) (h : List HttpEvent)
    (es : List (Linear.Entry ReqId HttpReq HttpReply)) (c : Contents) : Prop where
  traced : Linear.Traced (Serves A schema) c₀ h es c
  engine : s.engine.Matches schema c
  queue : s.queue.Inv
  length : s.writes.length = s.queue.handlers.length
  limited : ∀ k req, s.reqAt k = some req → (HttpReq.write req).bodyBytes ≤ maxBodyBytes
  asked : ∀ i op, .call i op ∈ h ↔ s.Asked i op
  settled : ∀ k op r, ⟨.write k, op, r⟩ ∈ es ↔ ∃ req o, s.reqAt k = some req ∧
    op = .write req ∧ s.queue.Settled k o ∧ r = req.reply o
  pending : ∀ j req phase, s.tasks[j]? = some (req, phase) → phase = .running ∨ phase = .dropped →
    .task j ∉ es.map Linear.Entry.id
  ended : ∀ j req r, s.tasks[j]? = some (req, .ended r) → ⟨.task j, req, r⟩ ∈ es

/-- Before the first request nothing has taken effect. -/
theorem tied_start (auth : AuthConfig) {engine : Engine} (hm : engine.Matches schema c₀)
    (queueCap workers : Nat) :
    Tied A schema c₀ (start auth engine queueCap workers) [] [] c₀ where
  traced := .start
  engine := hm
  queue := WriteQueue.inv_start queueCap workers
  length := rfl
  limited := by
    intro k req hreq
    simp [reqAt, start] at hreq
  asked := by
    intro i op
    cases i <;> simp [Asked, reqAt, start]
  settled := by
    intro k op r
    simp [reqAt, start]
  pending := fun _ _ _ _ _ hmem => absurd hmem List.not_mem_nil
  ended := by
    intro j req r hj
    simp [start] at hj

/-- What has taken effect had arrived. -/
theorem Tied.asked_of_mem (ht : Tied A schema c₀ s h es c) {i : ReqId}
    (hi : i ∈ es.map Linear.Entry.id) : ∃ op, s.Asked i op := by
  obtain ⟨e, he, rfl⟩ := List.mem_map.mp hi
  exact ⟨e.op, (ht.asked _ _).mp (ht.traced.linearization.called e he)⟩

/-- A write takes effect. -/
theorem Tied.write (ht : Tied A schema c₀ s h es c) {k : Nat} {req : WriteReq} {o : Option Bool}
    {engine : Engine} {queue : WriteQueue} {logged : List Nat} {c' : Contents}
    (hreq : s.reqAt k = some req) (hopen : ∀ o, ¬s.queue.Settled k o)
    (hsettled : ∀ k' o', queue.Settled k' o' ↔ s.queue.Settled k' o' ∨ k' = k ∧ o' = o)
    (hqueue : queue.Inv) (hlength : queue.handlers.length = s.queue.handlers.length)
    (hm : engine.Matches schema c')
    (hserves : Serves A schema c (.write req) (req.reply o) c') :
    Tied A schema c₀ { s with engine, queue, logged } h
      (es ++ [⟨.write k, .write req, req.reply o⟩]) c' where
  traced := by
    refine .commit ht.traced ((ht.asked _ _).mpr ⟨req, hreq, rfl⟩) ?_ hserves
    -- a request that has an entry is settled, and this one was not
    intro hmem
    obtain ⟨e, he, hid⟩ := List.mem_map.mp hmem
    obtain ⟨i, op, r⟩ := e
    obtain rfl : i = .write k := hid
    obtain ⟨-, o', -, -, hset, -⟩ := (ht.settled k op r).mp he
    exact hopen o' hset
  engine := hm
  queue := hqueue
  length := ht.length.trans hlength.symm
  limited := ht.limited
  asked := ht.asked
  settled := by
    intro k' op r
    rw [List.mem_append, List.mem_singleton, ht.settled]
    constructor
    · -- the entries there were, and the new one
      rintro (⟨req', o', hreq', hop, hset, hr⟩ | heq)
      · exact ⟨req', o', hreq', hop, (hsettled k' o').mpr (Or.inl hset), hr⟩
      · obtain ⟨hk, rfl, rfl⟩ := Linear.Entry.mk.inj heq
        obtain rfl := ReqId.write.inj hk
        exact ⟨req, o, hreq, rfl, (hsettled k' o).mpr (Or.inr ⟨rfl, rfl⟩), rfl⟩
    · rintro ⟨req', o', hreq', rfl, hset, rfl⟩
      obtain hset | ⟨rfl, rfl⟩ := (hsettled k' o').mp hset
      · exact Or.inl ⟨req', o', hreq', rfl, hset, rfl⟩
      · obtain rfl : req' = req := Option.some.inj (hreq'.symm.trans hreq)
        exact Or.inr rfl
  pending := by
    intro j req' phase hj hphase hmem
    rw [List.map_append, List.mem_append] at hmem
    obtain hmem | hmem := hmem
    · exact ht.pending j req' phase hj hphase hmem
    · -- the new entry is of a write, not of a task
      cases List.mem_singleton.mp hmem
  ended := fun j req' r hj => List.mem_append_left _ (ht.ended j req' r hj)

/-- The queue moves on and settles nothing. -/
theorem Tied.queue_moves (ht : Tied A schema c₀ s h es c) {queue : WriteQueue}
    (hqueue : queue.Inv) (hlength : queue.handlers.length = s.queue.handlers.length)
    (hsettled : ∀ k o, queue.Settled k o ↔ s.queue.Settled k o) :
    Tied A schema c₀ { s with queue } h es c :=
  { ht with
    queue := hqueue
    length := ht.length.trans hlength.symm
    settled := fun k op r => by
      rw [ht.settled]
      constructor
      · rintro ⟨req, o, hreq, hop, hset, hr⟩
        exact ⟨req, o, hreq, hop, (hsettled k o).mpr hset, hr⟩
      · rintro ⟨req, o, hreq, hop, hset, hr⟩
        exact ⟨req, o, hreq, hop, (hsettled k o).mp hset, hr⟩ }

/-- A task that moves on is the same request. -/
theorem asked_set {j : Nat} {req : HttpReq} {phase phase' : TaskPhase}
    (hj : s.tasks[j]? = some (req, phase)) (i : ReqId) (op : HttpReq) :
    Asked { s with tasks := s.tasks.set j (req, phase') } i op ↔ s.Asked i op := by
  cases i with
  | write k => exact Iff.rfl
  | task j' =>
    by_cases hjj : j = j'
    · subst hjj
      have hlt : j < s.tasks.length := (List.getElem?_eq_some_iff.mp hj).1
      simp [Asked, List.getElem?_set_self hlt, hj]
    · simp [Asked, List.getElem?_set_ne hjj]

/-- A task or its handler moves on, and nothing takes effect. -/
theorem Tied.task_moves (ht : Tied A schema c₀ s h es c) {j : Nat} {req : HttpReq}
    {phase phase' : TaskPhase} (hj : s.tasks[j]? = some (req, phase))
    (hpending : phase' = .running ∨ phase' = .dropped → phase = .running ∨ phase = .dropped)
    (hended : ∀ r, phase' ≠ .ended r) :
    Tied A schema c₀ { s with tasks := s.tasks.set j (req, phase') } h es c := by
  have hlt : j < s.tasks.length := (List.getElem?_eq_some_iff.mp hj).1
  refine { ht with
    asked := fun i op => (ht.asked i op).trans (asked_set hj i op).symm
    pending := fun j' req' phase₁ hj' hphase => ?_
    ended := fun j' req' r hj' => ?_ }
  · by_cases hjj : j = j'
    · subst hjj
      rw [List.getElem?_set_self hlt] at hj'
      obtain ⟨rfl, rfl⟩ := Prod.mk.inj (Option.some.inj hj')
      exact ht.pending j req phase hj (hpending hphase)
    · rw [List.getElem?_set_ne hjj] at hj'
      exact ht.pending j' req' phase₁ hj' hphase
  · by_cases hjj : j = j'
    · subst hjj
      rw [List.getElem?_set_self hlt] at hj'
      exact absurd (Prod.mk.inj (Option.some.inj hj')).2 (hended r)
    · rw [List.getElem?_set_ne hjj] at hj'
      exact ht.ended j' req' r hj'

/-- A search or a compaction takes effect. -/
theorem Tied.task (ht : Tied A schema c₀ s h es c) {j : Nat} {req : HttpReq}
    {phase phase' : TaskPhase} {reply : HttpReply} {engine : Engine} {c' : Contents}
    (hj : s.tasks[j]? = some (req, phase)) (hphase : phase = .running ∨ phase = .dropped)
    (hphase' : phase' = .ended reply ∨ phase' = .done) (hm : engine.Matches schema c')
    (hserves : Serves A schema c req reply c') :
    Tied A schema c₀ { s with engine, tasks := s.tasks.set j (req, phase') } h
      (es ++ [⟨.task j, req, reply⟩]) c' := by
  have hlt : j < s.tasks.length := (List.getElem?_eq_some_iff.mp hj).1
  have hnew : .task j ∉ es.map Linear.Entry.id := ht.pending j req phase hj hphase
  refine ⟨.commit ht.traced ((ht.asked _ _).mpr ⟨phase, hj⟩) hnew hserves, hm, ht.queue, ht.length,
    ht.limited, fun i op => (ht.asked i op).trans (asked_set hj i op).symm, fun k op r => ?_,
    fun j' req' phase₁ hj' hphase₁ hmem => ?_, fun j' req' r hj' => ?_⟩
  · -- the new entry is no write
    rw [List.mem_append, List.mem_singleton]
    refine Iff.trans (or_iff_left ?_) (ht.settled k op r)
    intro heq
    cases (Linear.Entry.mk.inj heq).1
  · -- the task itself waits no longer
    rw [List.map_append, List.mem_append, List.map_singleton, List.mem_singleton] at hmem
    by_cases hjj : j = j'
    · subst hjj
      rw [List.getElem?_set_self hlt] at hj'
      obtain ⟨rfl, rfl⟩ := Prod.mk.inj (Option.some.inj hj')
      obtain rfl | rfl := hphase' <;> simp at hphase₁
    · rw [List.getElem?_set_ne hjj] at hj'
      obtain hmem | hmem := hmem
      · exact ht.pending j' req' phase₁ hj' hphase₁ hmem
      · exact hjj (ReqId.task.inj hmem).symm
  · -- an answer that is ready is the one of the entry
    rw [List.mem_append, List.mem_singleton]
    by_cases hjj : j = j'
    · subst hjj
      rw [List.getElem?_set_self hlt] at hj'
      obtain ⟨rfl, hr⟩ := Prod.mk.inj (Option.some.inj hj')
      obtain rfl | rfl := hphase'
      · obtain rfl := TaskPhase.ended.inj hr
        exact Or.inr rfl
      · cases hr
    · rw [List.getElem?_set_ne hjj] at hj'
      exact Or.inl (ht.ended j' req' r hj')

/-- A handler without a task, or one whose task has not run, is new. -/
theorem Tied.arrives (ht : Tied A schema c₀ s h es c) (req : HttpReq) {phase : TaskPhase}
    (hphase : ∀ r, phase ≠ .ended r) :
    Tied A schema c₀ { s with tasks := s.tasks ++ [(req, phase)] }
      (h ++ [.call (.task s.tasks.length) req]) es c := by
  -- no task had this number before
  have hfresh : ∀ op, ¬s.Asked (.task s.tasks.length) op := by
    rintro op ⟨phase', hj⟩
    simp at hj
  have hnot : .task s.tasks.length ∉ es.map Linear.Entry.id := by
    intro hmem
    obtain ⟨op, hop⟩ := ht.asked_of_mem A hmem
    exact hfresh op hop
  -- a task is an old one or the new one
  have hget : ∀ j req' phase', (s.tasks ++ [(req, phase)])[j]? = some (req', phase') →
      s.tasks[j]? = some (req', phase') ∨
        j = s.tasks.length ∧ req' = req ∧ phase' = phase := by
    intro j req' phase' hj
    rw [List.getElem?_append] at hj
    split at hj
    · exact Or.inl hj
    · rename_i hlen
      have hzero : j - s.tasks.length = 0 := by
        have hlt := (List.getElem?_eq_some_iff.mp hj).1
        simp at hlt
        omega
      rw [hzero] at hj
      obtain ⟨rfl, rfl⟩ := Prod.mk.inj (Option.some.inj hj)
      exact Or.inr ⟨by omega, rfl, rfl⟩
  refine { ht with
    traced := .call ht.traced fun op hmem => hfresh op ((ht.asked _ _).mp hmem)
    asked := fun i op => ?_
    pending := fun j req' phase' hj hphase' => ?_
    ended := fun j req' r hj => ?_ }
  · -- the call is the only new event
    rw [List.mem_append, List.mem_singleton, ht.asked]
    cases i with
    | write k =>
      refine or_iff_left fun heq => ?_
      cases (Linear.Event.call.inj heq).1
    | task j =>
      constructor
      · rintro (⟨phase', hj⟩ | heq)
        · have hlt : j < s.tasks.length := (List.getElem?_eq_some_iff.mp hj).1
          exact ⟨phase', (List.getElem?_append_left hlt).trans hj⟩
        · obtain ⟨hid, rfl⟩ := Linear.Event.call.inj heq
          obtain rfl := ReqId.task.inj hid
          exact ⟨phase, by simp⟩
      · rintro ⟨phase', hj⟩
        obtain hj | ⟨rfl, rfl, -⟩ := hget j op phase' hj
        · exact Or.inl ⟨phase', hj⟩
        · exact Or.inr rfl
  · -- what has not run has no entry yet
    obtain hj | ⟨rfl, -, -⟩ := hget j req' phase' hj
    · exact ht.pending j req' phase' hj hphase'
    · exact hnot
  · obtain hj | ⟨-, -, hr⟩ := hget j req' (.ended r) hj
    · exact ht.ended j req' r hj
    · exact absurd hr.symm (hphase r)

/-- A request that has taken effect is answered. -/
theorem Tied.answered (ht : Tied A schema c₀ s h es c) {i : ReqId} {op : HttpReq} {r : HttpReply}
    (hdone : ⟨i, op, r⟩ ∈ es) : Tied A schema c₀ s (h ++ [.ret i r]) es c :=
  { ht with
    traced := .ret ht.traced hdone
    asked := fun i' op' => by
      rw [List.mem_append, List.mem_singleton, ht.asked]
      refine or_iff_left fun heq => ?_
      cases heq }

/-- A request that is refused when it arrives. -/
theorem Tied.refused (ht : Tied A schema c₀ s h es c) (req : HttpReq) {e : AppError}
    (hno : e.status ≠ .internalServerError) :
    Tied A schema c₀ (s.refuse req e).1 (h ++ (s.refuse req e).2)
      (es ++ [⟨.task s.tasks.length, req, .error e⟩]) c := by
  have harr : Tied A schema c₀ { s with tasks := s.tasks ++ [(req, .running)] }
      (h ++ [.call (.task s.tasks.length) req]) es c := ht.arrives A req (by simp)
  have hj : (s.tasks ++ [(req, TaskPhase.running)])[s.tasks.length]? = some (req, .running) := by
    simp
  have hset : (s.tasks ++ [(req, TaskPhase.running)]).set s.tasks.length (req, .done) =
      s.tasks ++ [(req, .done)] := by simp
  have heffect := harr.task A hj (Or.inl rfl) (Or.inr rfl) harr.engine (.refused hno)
  have hdone := heffect.answered A (List.mem_append_right _ (List.mem_singleton.mpr rfl))
  simp only [hset, List.append_assoc, List.cons_append, List.nil_append] at hdone
  exact hdone

/-- Whether the client of a write still waits makes no difference. -/
theorem Tied.waiting (ht : Tied A schema c₀ s h es c) {k : Nat} {w : WriteCall}
    (hk : s.writes[k]? = some w) (b : Bool) :
    Tied A schema c₀ { s with writes := s.writes.set k { w with waiting := b } } h es c := by
  have hreq : ∀ k', reqAt { s with writes := s.writes.set k { w with waiting := b } } k' =
      s.reqAt k' := by
    intro k'
    unfold reqAt
    by_cases hkk : k = k'
    · subst hkk
      rw [List.getElem?_set_self (List.getElem?_eq_some_iff.mp hk).1, hk]
      rfl
    · rw [List.getElem?_set_ne hkk]
  refine { ht with
    length := (List.length_set ..).trans ht.length
    limited := fun k' req hr => ht.limited k' req ((hreq k').symm.trans hr)
    asked := fun i op => (ht.asked i op).trans ?_
    settled := fun k' op r => (ht.settled k' op r).trans ?_ }
  · cases i with
    | task j => exact Iff.rfl
    | write k' => simp only [Asked, hreq]
  · rw [hreq]

/-- A write keeps its number. -/
theorem reqAt_append (w : WriteCall) (k : Nat) :
    reqAt { s with writes := s.writes ++ [w] } k =
      if k = s.writes.length then some w.req else s.reqAt k := by
  unfold reqAt
  rw [List.getElem?_append]
  split
  · rename_i hlt
    rw [if_neg (by omega)]
  · split
    · rename_i hk
      simp [hk]
    · rename_i hlt hne
      rw [List.getElem?_eq_none (by simp; omega), List.getElem?_eq_none (by omega)]

/-- A write is counted. -/
theorem Tied.counted (ht : Tied A schema c₀ s h es c) (req : WriteReq)
    (hlimited : (HttpReq.write req).bodyBytes ≤ maxBodyBytes) :
    Tied A schema c₀
      { s with queue := s.queue.step .arrive, writes := s.writes ++ [⟨req, true⟩] }
      (h ++ [.call (.write s.writes.length) (.write req)]) es c := by
  -- no request had this number before
  have hfresh : s.reqAt s.writes.length = none := by
    unfold reqAt
    rw [List.getElem?_eq_none (Nat.le_refl _)]
    rfl
  have hget : ∀ k, reqAt { s with
      queue := s.queue.step .arrive, writes := s.writes ++ [⟨req, true⟩] } k =
      if k = s.writes.length then some req else s.reqAt k := reqAt_append ⟨req, true⟩
  -- its handler is not there yet, so nothing is settled
  have hopen : ∀ o, ¬s.queue.Settled s.writes.length o := by
    have hnone : s.queue.handlers[s.writes.length]? = none := by
      rw [ht.length, List.getElem?_eq_none (Nat.le_refl _)]
    have hplace := ht.queue.place s.writes.length
    have hno : ¬s.queue.Accepted s.writes.length := by
      unfold WriteQueue.Accepted
      rw [hnone]
      simp
    rw [if_neg hno] at hplace
    exact WriteQueue.not_settled (by rw [hnone]; simp) (by omega)
  refine { ht with
    traced := .call ht.traced fun op hmem => ?_
    queue := WriteQueue.inv_arrive ht.queue
    length := ?_
    limited := fun k req' hr => ?_
    asked := fun i op => ?_
    settled := fun k op r => ?_ }
  · obtain ⟨req', hr, -⟩ := (ht.asked _ _).mp hmem
    rw [hfresh] at hr
    cases hr
  · show (s.writes ++ [_]).length = (s.queue.handlers ++ [_]).length
    rw [List.length_append, List.length_append, ht.length]
    rfl
  · -- `DefaultBodyLimit` has let it through
    rw [hget] at hr
    split at hr
    · obtain rfl := Option.some.inj hr
      exact hlimited
    · exact ht.limited k req' hr
  · rw [List.mem_append, List.mem_singleton, ht.asked]
    cases i with
    -- the tasks are untouched
    | task j =>
      refine or_iff_left fun heq => ?_
      cases (Linear.Event.call.inj heq).1
    | write k =>
      simp only [Asked, hget]
      by_cases hk : k = s.writes.length
      · subst hk
        simp [hfresh]
      · simp [hk]
  · -- the other writes are as settled as before
    rw [ht.settled]
    by_cases hk : k = s.writes.length
    · subst hk
      constructor
      · rintro ⟨req', o, hr, -⟩
        rw [hfresh] at hr
        cases hr
      · rintro ⟨req', o, -, -, hset, -⟩
        exact absurd ((WriteQueue.settled_arrive o).mp hset) (hopen o)
    · simp only [hget, if_neg hk]
      constructor
      · rintro ⟨req', o, hr, hop, hset, heq⟩
        exact ⟨req', o, hr, hop, (WriteQueue.settled_arrive o).mpr hset, heq⟩
      · rintro ⟨req', o, hr, hop, hset, heq⟩
        exact ⟨req', o, hr, hop, (WriteQueue.settled_arrive o).mp hset, heq⟩

/-- Permits and the flag of the compaction are no part of it. -/
theorem Tied.release (ht : Tied A schema c₀ s h es c) (req : HttpReq) (answered : Bool) :
    Tied A schema c₀ (s.release req answered) h es c := by
  unfold HttpServer.release
  split
  · exact { ht with }
  · split
    · exact { ht with }
    · exact ht
  · exact ht

/-- What a worker has taken, in the queue. -/
theorem taken_eq_some {w k : Nat} : s.taken w = some k ↔
    s.queue.workers[w]? = some (.taken k) := by
  unfold taken
  split
  · rename_i k' hw
    simp [hw]
  · rename_i hw
    simp only [reduceCtorEq, false_iff]
    exact hw k

/-- The log entry of a write changes no contents. -/
theorem Tied.log (ht : Tied A schema c₀ s h es c) {w k : Nat} {req : WriteReq}
    (hreq : s.reqAt k = some req) : Tied A schema c₀ (s.log w k req) h es c := by
  obtain ⟨seq, wal, hw⟩ := Engine.append_ok (ht.limited k req hreq) s.engine.wal
  unfold HttpServer.log
  rw [hw]
  exact { ht with engine := ht.engine.logged hw }

/-- The second half of a write is where it takes effect. -/
theorem Tied.applyWrite (ht : Tied A schema c₀ s h es c) {w k : Nat} {req : WriteReq}
    (htaken : s.taken w = some k) (hreq : s.reqAt k = some req) (locked : Bool) :
    ∃ es' c', Tied A schema c₀ (s.applyWrite A w k req locked) h es' c' := by
  have hw := taken_eq_some.mp htaken
  unfold HttpServer.applyWrite
  cases hr : s.engine.apply A locked req.write with
  | mk r engine =>
    -- the write takes effect here, whether it succeeds or not
    obtain ⟨c', hm, hserves⟩ := ht.engine.apply A hr
    have hhandlers : (s.queue.step (.worker w r.isOk)).handlers = s.queue.handlers := by
      simp only [WriteQueue.step, hw, WriteQueue.stepWorker]
    exact ⟨_, c', ht.write A hreq (ht.queue.not_settled_taken hw)
      (fun k' o' => WriteQueue.settled_executed hw _ o') (WriteQueue.inv_step _ _ ht.queue)
      (congrArg List.length hhandlers) hm hserves⟩

/-- A handler in `try_enqueue` goes on; one that is rejected takes effect here, with no change. -/
theorem Tied.handler (ht : Tied A schema c₀ s h es c) (i : Nat) :
    ∃ es' c', Tied A schema c₀ { s with queue := s.queue.step (.handler i) } h es' c' := by
  have hlength : (s.queue.step (.handler i)).handlers.length = s.queue.handlers.length := by
    simp only [WriteQueue.step]
    split
    · rename_i phase hphase
      cases phase with
      | counted qd =>
        simp only [WriteQueue.stepHandler]
        split
        · exact List.length_set ..
        · split <;> exact List.length_set ..
      | bounced => exact List.length_set ..
      | _ => rfl
    · rfl
  have hinv := WriteQueue.inv_step s.queue (.handler i) ht.queue
  obtain hsame | ⟨hopen, hlt, hsettled⟩ := ht.queue.settled_handler i
  · -- the request is as settled as before
    exact ⟨es, c, ht.queue_moves A hinv hlength hsame⟩
  · -- the queue was full
    obtain ⟨w, hw⟩ : ∃ w, s.writes[i]? = some w :=
      ⟨_, List.getElem?_eq_getElem (ht.length ▸ hlt)⟩
    have hreq : s.reqAt i = some w.req := by rw [reqAt, hw]; rfl
    exact ⟨_, c, ht.write A hreq hopen hsettled hinv hlength ht.engine
      (.refused (by decide))⟩

/-- A worker waits for or takes a request. -/
theorem Tied.worker (ht : Tied A schema c₀ s h es c) {w : Nat} (hw : s.taken w = none) :
    Tied A schema c₀ { s with queue := s.queue.step (.worker w false) } h es c := by
  have hnot : ∀ k, s.queue.workers[w]? ≠ some (.taken k) := by
    intro k hk
    rw [taken_eq_some.mpr hk] at hw
    cases hw
  refine ht.queue_moves A (WriteQueue.inv_step _ _ ht.queue) ?_
    fun k o => WriteQueue.settled_worker hnot false o
  simp only [WriteQueue.step]
  split
  · rename_i phase hphase
    cases phase with
    | idle =>
      simp only [WriteQueue.stepWorker]
      split <;> rfl
    | _ => rfl
  · rfl

/-- An answer tells what took effect before. -/
theorem Tied.respond (ht : Tied A schema c₀ s h es c) {k : Nat} {req : WriteReq}
    (hk : s.writes[k]? = some ⟨req, true⟩) {r : Except AppError StatusCode}
    (hr : s.queue.response req.label k = some r) :
    Tied A schema c₀ { s with writes := s.writes.set k ⟨req, false⟩ }
      (h ++ [.ret (.write k) (.ofStatus r)]) es c := by
  obtain ⟨o, hset, hreply⟩ := ht.queue.settled_of_response hr
  have hreq : s.reqAt k = some req := by rw [reqAt, hk]; rfl
  have hdone := (ht.settled k _ _).mpr ⟨req, o, hreq, rfl, hset, rfl⟩
  rw [hreply]
  exact (ht.waiting A hk false).answered A hdone

/-- A search takes effect when its task runs. -/
theorem Tied.search (ht : Tied A schema c₀ s h es c) {j : Nat} {query : List F32} {topK : Nat}
    {phase : TaskPhase} (hj : s.tasks[j]? = some (.knn query topK, phase)) :
    ∃ es' c', Tied A schema c₀
      (s.finish j (.knn query topK) phase (s.searchReply A query topK)) h es' c' := by
  have hserves := serves_search A ht.engine query topK
  cases phase with
  | running => exact ⟨_, c, ht.task A hj (Or.inl rfl) (Or.inl rfl) ht.engine hserves⟩
  | dropped => exact ⟨_, c, ht.task A hj (Or.inr rfl) (Or.inr rfl) ht.engine hserves⟩
  | ended reply => exact ⟨es, c, ht⟩
  | done => exact ⟨es, c, ht⟩

/-- So does a compaction, which changes no contents. -/
theorem Tied.compact (ht : Tied A schema c₀ s h es c) {j : Nat} {phase : TaskPhase}
    (hj : s.tasks[j]? = some (.compact, phase)) (hphase : phase = .running ∨ phase = .dropped)
    (order : MapOrder) (avail : Option Nat) (cached : List Nat) :
    ∃ es' c', Tied A schema c₀
      ({ s with engine := (s.compactReply A order avail cached).2 }.finish j .compact phase
        (s.compactReply A order avail cached).1) h es' c' := by
  obtain ⟨c', hm, hserves⟩ := serves_compact A ht.engine order avail cached
  obtain rfl | rfl := hphase
  · exact ⟨_, c', ht.task A hj (Or.inl rfl) (Or.inl rfl) hm hserves⟩
  · exact ⟨_, c', ht.task A hj (Or.inr rfl) (Or.inr rfl) hm hserves⟩

/-- A request arrives; one that is refused takes effect at once. -/
theorem Tied.receive (ht : Tied A schema c₀ s h es c) (r : HttpRequest) :
    ∃ es', Tied A schema c₀ (s.receive r).1 (h ++ (s.receive r).2) es' c := by
  -- a token that is refused is no internal error
  have hauth : ∀ min e, s.auth.requireRole r.authorization min = .error e →
      e.status ≠ .internalServerError := by
    intro min e he
    unfold AuthConfig.requireRole at he
    split at he
    · cases he
    · split at he
      · cases he
      · obtain rfl := Except.error.inj he
        simp
    · obtain rfl := Except.error.inj he
      simp
  have hlimited := r.limited
  unfold HttpServer.receive
  cases hreq : r.req with
  -- a write: refused for its token, or counted in
  | write req =>
    rw [hreq] at hlimited
    simp only
    cases hrole : s.auth.requireRole r.authorization .readwrite with
    | error e => exact ⟨_, ht.refused A _ (hauth _ e hrole)⟩
    | ok role => exact ⟨es, ht.counted A req hlimited⟩
  -- a search: refused without a permit, or spawned with one
  | knn query topK =>
    simp only
    split
    · exact ⟨_, ht.refused A _ (by decide)⟩
    · exact ⟨es, Tied.arrives A (s := { s with permits := s.permits - 1 }) { ht with } _ (by simp)⟩
  -- a compact: refused for its token or its flag, or spawned
  | compact =>
    simp only
    cases hrole : s.auth.requireRole r.authorization .admin with
    | error e => exact ⟨_, ht.refused A _ (hauth _ e hrole)⟩
    | ok role =>
      simp only
      split
      · exact ⟨_, ht.refused A _ (by decide)⟩
      · exact ⟨es, Tied.arrives A (s := { s with compactInProgress := true }) { ht with } _
          (by simp)⟩

/-- Every step is explained. -/
theorem Tied.moves (ht : Tied A schema c₀ s h es c) {st : HttpStep} {s' : HttpServer}
    {events : List HttpEvent} (hmoves : Moves A s st s' events) :
    ∃ es' c', Tied A schema c₀ s' (h ++ events) es' c' := by
  have hreqAt : ∀ {k : Nat} {w : WriteCall}, s.writes[k]? = some w → s.reqAt k = some w.req := by
    intro k w hk
    rw [reqAt, hk]
    rfl
  -- most steps are not seen by clients
  have hunseen : ∀ {s' : HttpServer}, (∃ es' c', Tied A schema c₀ s' h es' c') →
      ∃ es' c', Tied A schema c₀ s' (h ++ []) es' c' := by
    intro s' hs'
    rwa [List.append_nil]
  -- the steps one by one; those that commit a point extend the order
  cases hmoves with
  | idle => exact hunseen ⟨es, c, ht⟩
  | request r =>
    obtain ⟨es', ht'⟩ := ht.receive A r
    exact ⟨es', c, ht'⟩
  | handler i => exact hunseen (ht.handler A i)
  | log htaken hk hnew => exact hunseen ⟨es, c, ht.log A (hreqAt hk)⟩
  | apply htaken hk hlogged => exact hunseen (ht.applyWrite A htaken (hreqAt hk) _)
  | worker hw => exact hunseen ⟨es, c, ht.worker A hw⟩
  | respond hk hr => exact ⟨es, c, ht.respond A hk hr⟩
  | leave hk hqueued => exact hunseen ⟨es, c, ht.waiting A hk false⟩
  | search hj => exact hunseen (ht.search A hj)
  | compact hj hphase => exact hunseen (ht.compact A hj hphase _ _ _)
  -- the reply is sent, and the permit or the flag is given back
  | @resume j req reply hj =>
    have hmoved : Tied A schema c₀ { s with tasks := s.tasks.set j (req, .done) } h es c :=
      ht.task_moves A hj (by simp) (by simp)
    exact ⟨es, c, (hmoved.release A req true).answered A (ht.ended j req reply hj)⟩
  | dropRunning hj =>
    exact hunseen ⟨es, c, (ht.task_moves A hj (by simp) (by simp)).release A _ false⟩
  | dropEnded hj =>
    exact hunseen ⟨es, c, (ht.task_moves A hj (by simp) (by simp)).release A _ false⟩

/-- A step of the server, with what clients have seen so far. -/
def next (r : HttpServer × List HttpEvent) (st : HttpStep) : HttpServer × List HttpEvent :=
  ((r.1.step A st).1, r.2 ++ (r.1.step A st).2)

/-- Every run is explained. -/
theorem Tied.run (ht : Tied A schema c₀ s h es c) (steps : List HttpStep) :
    ∃ es' c', Tied A schema c₀ (Run.exec (next A) (s, h) steps).1
      (Run.exec (next A) (s, h) steps).2 es' c' := by
  induction steps generalizing s h es c with
  | nil => exact ⟨es, c, ht⟩
  | cons st steps ih =>
    obtain ⟨es', c', ht'⟩ := ht.moves A (step_moves A s st)
    exact ih ht'

/-- A server on a new namespace, with any tokens, any capacity of the queue and any number of
    workers: whatever its clients send, whatever they see can be explained by one request at a
    time, and the store holds what that leaves. -/
theorem linearizable (I : Ipc) (auth : AuthConfig) {schema : VectorSchema}
    (hfits : schema.dim * 4 ≤ defaultVecSegmentSize) (quota : Nat) (order : MapOrder) {e : Engine}
    (hopen : (Engine.open A I .empty (some schema) quota order).1 = .ok e)
    (queueCap workers : Nat) (steps : List HttpStep) :
    let run := Run.exec (next A) (start auth e queueCap workers, []) steps
    ∃ es c, Linear.Linearization (Serves A schema) .empty run.2 es c ∧
      (∀ key, key ≠ [] → run.1.engine.getKvZeroCopy key = .ok (c.value key)) ∧
      ∀ id, run.1.engine.getVector id = .ok (c.vectors.visible id) := by
  intro run
  obtain ⟨es, c, ht⟩ := (tied_start A auth (Engine.matches_open A I hfits hopen) queueCap
    workers).run A steps
  refine ⟨es, c, ht.traced.linearization, fun key hne => ?_, fun id => ?_⟩
  · rw [← ht.engine.view key]
    exact KvStore.getKvZeroCopy_eq (ht.engine.good key) hne
  · obtain ⟨x, hvec, hx⟩ := ht.engine.index
    have hget : run.1.engine.getVector id = x.getVector id := by
      unfold Engine.getVector Engine.ensureVec
      rw [hvec]
      rfl
    rw [hget]
    exact hx.getVector id

/-- Two inserts of one id meet in the queue; the later one is carried out first, and then a
    search finds its vector. -/
def crossedInserts : List HttpStep := [
  .request ⟨none, .write (.insertVector 1 [0]), by decide⟩,
  .request ⟨none, .write (.insertVector 1 [5]), by decide⟩,
  .handler 1, .handler 0, .worker 0, .worker 1, .log 1, .log 0, .apply 0 true, .apply 1 true,
  .worker 0, .worker 0, .respond 1, .request ⟨none, .knn [0] 1, by decide⟩, .search 0, .resume 0]

/-- Two inserts of one id whose steps cross. -/
theorem linearizable_crossed : ∃ e,
    (Engine.open zeroArith noIpc .empty (some flatSchema) 0 .id).1 = .ok e ∧
    (Run.exec (next zeroArith) (start ⟨[]⟩ e 2 2, []) crossedInserts).2.length = 5 ∧
    ∃ es c, Linear.Linearization (Serves zeroArith flatSchema) .empty
      (Run.exec (next zeroArith) (start ⟨[]⟩ e 2 2, []) crossedInserts).2 es c := by
  have hfits : flatSchema.dim * 4 ≤ defaultVecSegmentSize := by decide
  refine ⟨_, rfl, rfl, ?_⟩
  obtain ⟨es, c, hlin, -⟩ :=
    linearizable zeroArith noIpc ⟨[]⟩ hfits 0 .id rfl 2 2 crossedInserts
  exact ⟨es, c, hlin⟩

end HttpServer

end FusionStore
