import FusionStore.Spec.HttpLinear

/-!
# What the limits of the HTTP server limit

`MAX_BODY_BYTES` keeps the worker pool alive: a put or an insert that is larger than a segment
would panic and take its worker down, and none gets that far.  `KNN_CONCURRENCY` bounds the
searches whose clients wait.  It does not bound the blocking tasks: the permit goes with the
handler, and a client that leaves frees it while its search still waits for a thread or for
the index.

## Key results

- `HttpServer.workers_survive`: no step of a worker panics
- `HttpServer.permits_exact`: the permits, and the blocking tasks they do not count
-/

namespace FusionStore

variable (A : F32Arith)

/-! ### Workers -/

namespace Engine

variable {schema : VectorSchema} {e : Engine} {c : Contents}

theorem Matches.returns_apply (h : e.Matches schema c) {req : WriteReq}
    (hlimited : (HttpReq.write req).bodyBytes ≤ maxBodyBytes) (locked : Bool) :
    Returns (e.apply A locked req.write).1 := by
  cases req with
  | putKv key value =>
    -- the limit of the body is far below a segment
    have hlen : value.length ≤ defaultSegmentSize := by
      simp only [HttpReq.bodyBytes, maxBodyBytes] at hlimited
      simp only [defaultSegmentSize]
      omega
    exact KvStore.returns_putKv h.inv.kv hlen locked
  | insertVector id vector =>
    obtain ⟨x, hvec, hx⟩ := h.index
    have hres : (e.apply A locked (.insertVector id vector)).1 = (x.insert A id vector).1 := by
      unfold Engine.apply ensureVec
      rw [hvec]
    intro msg
    show (e.apply A locked (.insertVector id vector)).1 ≠ _
    rw [hres]
    by_cases hdim : vector.length = schema.dim
    · -- of the schema's length, so it fits a segment
      obtain ⟨-, he⟩ | ⟨-, y, he, -⟩ := hx.insert_cases A id hdim <;> rw [he] <;> simp
    · -- of another length, so it is refused
      unfold VectorIndex.insert
      rw [VectorSchema.validateDim, h.schema_eq hvec, if_neg hdim]
      simp

end Engine

namespace HttpServer

variable {schema : VectorSchema} {s : HttpServer} {c₀ c : Contents} {h : List HttpEvent}
  {es : List (Linear.Entry ReqId HttpReq HttpReply)}

/-- What a worker has taken was accepted. -/
theorem Tied.reqAt_taken (ht : Tied A schema c₀ s h es c) {w k : Nat}
    (hw : s.taken w = some k) : ∃ req, s.reqAt k = some req := by
  have hmem := List.mem_of_getElem? (taken_eq_some.mp hw)
  have hholds : 0 < s.queue.workers.countP (WorkerPhase.holds k) :=
    List.countP_pos_iff.mpr ⟨_, hmem, by simp [WorkerPhase.holds]⟩
  have hplace := ht.queue.place k
  have hacc : s.queue.Accepted k := by
    by_contra hno
    rw [if_neg hno] at hplace
    omega
  have hlt : k < s.writes.length := ht.length ▸ (List.getElem?_eq_some_iff.mp hacc).1
  exact ⟨_, by rw [reqAt, List.getElem?_eq_getElem hlt]; rfl⟩

/-- Whatever clients send, the next step of every worker that has taken a write returns: its
    log entry is written, and the engine answers with a result or an error. -/
theorem workers_survive (I : Ipc) (auth : AuthConfig) {schema : VectorSchema}
    (hfits : schema.dim * 4 ≤ defaultVecSegmentSize) (quota : Nat) (order : MapOrder) {e : Engine}
    (hopen : (Engine.open A I .empty (some schema) quota order).1 = .ok e)
    (queueCap workers : Nat) (steps : List HttpStep) (w k : Nat) :
    let s := (Run.exec (next A) (start auth e queueCap workers, []) steps).1
    s.taken w = some k → ∃ req, s.reqAt k = some req ∧
      (∃ seq wal, s.engine.wal.append req.write.op = .ok (seq, wal)) ∧
      ∀ locked, Returns (s.engine.apply A locked req.write).1 := by
  intro s htaken
  obtain ⟨es, c, ht⟩ := (tied_start A auth (Engine.matches_open A I hfits hopen) queueCap
    workers).run A steps
  obtain ⟨req, hreq⟩ := ht.reqAt_taken A htaken
  have hlimited := ht.limited k req hreq
  exact ⟨req, hreq, Engine.append_ok hlimited _, ht.engine.returns_apply A hlimited⟩

/-- A worker that has logged a put. -/
theorem workers_survive_put : ∃ e,
    (Engine.open zeroArith noIpc .empty (some flatSchema) 0 .id).1 = .ok e ∧
    ∃ req, (Run.exec (next zeroArith) (start ⟨[]⟩ e 2 1, [])
        [.request ⟨none, .write (.putKv [1] [2]), by decide⟩, .handler 0, .worker 0,
          .log 0]).1.reqAt 0 = some req ∧
      ∀ locked, Returns ((Run.exec (next zeroArith) (start ⟨[]⟩ e 2 1, [])
        [.request ⟨none, .write (.putKv [1] [2]), by decide⟩, .handler 0, .worker 0,
          .log 0]).1.engine.apply zeroArith locked req.write).1 := by
  have hfits : flatSchema.dim * 4 ≤ defaultVecSegmentSize := by decide
  refine ⟨_, rfl, ?_⟩
  obtain ⟨req, hreq, -, hreturns⟩ := workers_survive zeroArith noIpc ⟨[]⟩ hfits 0 .id rfl 2 1
    [.request ⟨none, .write (.putKv [1] [2]), by decide⟩, .handler 0, .worker 0, .log 0] 0 0 rfl
  exact ⟨req, hreq, hreturns⟩

/-! ### Permits -/

/-- A search whose handler holds a permit: its client still waits. -/
def holdsPermit : HttpReq × TaskPhase → Bool
  | (.knn _ _, .running) | (.knn _ _, .ended _) => true
  | _ => false

/-- A search whose blocking task has not run. -/
def searching : HttpReq × TaskPhase → Bool
  | (.knn _ _, .running) | (.knn _ _, .dropped) => true
  | _ => false

/-- The searches that hold a permit. -/
def permitsHeld (s : HttpServer) : Nat := s.tasks.countP holdsPermit

/-- The blocking tasks with a search that has not run: they wait for a thread of the runtime or
    for the index. -/
def blockingTasks (s : HttpServer) : Nat := s.tasks.countP searching

theorem permitsHeld_set {s : HttpServer} {j : Nat} {req : HttpReq} {phase : TaskPhase}
    (hj : s.tasks[j]? = some (req, phase)) (phase' : TaskPhase) :
    permitsHeld { s with tasks := s.tasks.set j (req, phase') } +
      (holdsPermit (req, phase)).toNat = s.permitsHeld + (holdsPermit (req, phase')).toNat := by
  obtain ⟨hlt, heq⟩ := List.getElem?_eq_some_iff.mp hj
  have hle := List.boole_getElem_le_countP (p := holdsPermit) hlt
  rw [heq] at hle
  simp only [permitsHeld, List.countP_set hlt, heq]
  revert hle
  cases holdsPermit (req, phase) <;> cases holdsPermit (req, phase') <;> intro hle <;>
    simp only [↓reduceIte, Bool.false_eq_true, Bool.toNat_true, Bool.toNat_false] at hle ⊢ <;>
    omega

/-- A new task holds a permit if it is a search. -/
theorem permitsHeld_append (s : HttpServer) (req : HttpReq) (phase : TaskPhase) :
    permitsHeld { s with tasks := s.tasks ++ [(req, phase)] } =
      s.permitsHeld + (holdsPermit (req, phase)).toNat := by
  simp only [permitsHeld, List.countP_append, List.countP_singleton]
  cases holdsPermit (req, phase) <;> rfl

/-- What a handler gives back is what it held. -/
theorem permits_release (s : HttpServer) {j : Nat} {req : HttpReq} {phase phase' : TaskPhase}
    (hj : s.tasks[j]? = some (req, phase)) (answered : Bool)
    (hheld : ∀ query topK, req = .knn query topK → holdsPermit (req, phase) = true)
    (hnot : holdsPermit (req, phase') = false) :
    let s' := { s with tasks := s.tasks.set j (req, phase') }.release req answered
    s'.permits + s'.permitsHeld = s.permits + s.permitsHeld := by
  intro s'
  have hset := permitsHeld_set hj phase'
  rw [hnot] at hset
  -- the tasks stay as they are
  have hheld' : s'.permitsHeld = permitsHeld { s with tasks := s.tasks.set j (req, phase') } := by
    simp only [s', release]
    split
    · rfl
    · split <;> rfl
    · rfl
  cases req with
  | knn query topK =>
    rw [hheld query topK rfl] at hset
    show s.permits + 1 + _ = _
    simp only [Bool.toNat_true, Bool.toNat_false] at hset
    omega
  -- only searches hold a permit
  | compact =>
    have hno : holdsPermit (.compact, phase) = false := rfl
    rw [hno] at hset
    have hper : s'.permits = s.permits := by
      simp only [s', release]
      split <;> rfl
    simp only [Bool.toNat_false] at hset
    omega
  | write req =>
    have hno : holdsPermit (.write req, phase) = false := rfl
    rw [hno] at hset
    have hper : s'.permits = s.permits := rfl
    simp only [Bool.toNat_false] at hset
    omega

/-- A refusal moves no permit. -/
theorem permits_refuse (s : HttpServer) (req : HttpReq) (e : AppError) :
    (s.refuse req e).1.permits + (s.refuse req e).1.permitsHeld = s.permits + s.permitsHeld := by
  have happend := permitsHeld_append s req .done
  have hno : holdsPermit (req, .done) = false := by cases req <;> rfl
  rw [hno] at happend
  exact congrArg (s.permits + ·) happend

/-- A request takes a permit exactly when it is a search that is let in. -/
theorem permits_receive (s : HttpServer) (r : HttpRequest) :
    (s.receive r).1.permits + (s.receive r).1.permitsHeld = s.permits + s.permitsHeld := by
  unfold receive
  split
  · -- a write
    split
    · exact permits_refuse s _ _
    · rfl
  · rename_i query topK hreq
    split
    · exact permits_refuse s _ _
    · -- the permit moves to the handler
      rename_i hfree
      have happend := permitsHeld_append s r.req .running
      rw [hreq] at happend ⊢
      show s.permits - 1 + permitsHeld { s with tasks := s.tasks ++ [(_, .running)] } = _
      rw [happend]
      simp only [holdsPermit, Bool.toNat_true]
      omega
  · -- a compact: it is refused, or spawned without a permit
    rename_i hreq
    split
    · exact permits_refuse s _ _
    split
    · exact permits_refuse s _ _
    · have happend := permitsHeld_append s r.req .running
      rw [hreq] at happend ⊢
      exact congrArg (s.permits + ·) happend

/-- Running to its end a task keeps its permit. -/
theorem permits_finish (s : HttpServer) {j : Nat} {req : HttpReq} {phase : TaskPhase}
    (hj : s.tasks[j]? = some (req, phase)) (reply : HttpReply) :
    (s.finish j req phase reply).permits + (s.finish j req phase reply).permitsHeld =
      s.permits + s.permitsHeld := by
  have hset := permitsHeld_set hj
  cases phase with
  | running =>
    have hended := hset (.ended reply)
    show s.permits + permitsHeld { s with tasks := s.tasks.set j (req, .ended reply) } = _
    cases req <;> simp only [holdsPermit, Bool.toNat_true, Bool.toNat_false] at hended <;> omega
  | dropped =>
    have hdone := hset .done
    show s.permits + permitsHeld { s with tasks := s.tasks.set j (req, .done) } = _
    cases req <;> simp only [holdsPermit, Bool.toNat_false] at hdone <;> omega
  | ended reply' => rfl
  | done => rfl

/-- No step creates or loses a permit. -/
theorem Moves.permits {s s' : HttpServer} {st : HttpStep} {events : List HttpEvent}
    (hmoves : Moves A s st s' events) :
    s'.permits + s'.permitsHeld = s.permits + s.permitsHeld := by
  cases hmoves with
  | request r => exact permits_receive s r
  | log htaken hk hnew =>
    unfold HttpServer.log
    split <;> rfl
  | search hj => exact permits_finish s hj _
  -- the engine changes, the tasks as in a search
  | @compact j order avail cached phase hj hphase =>
    exact permits_finish { s with engine := (s.compactReply A order avail cached).2 } hj _
  | @resume j req reply hj =>
    -- the handler gives its permit back
    refine permits_release s hj true (fun query topK hreq => by rw [hreq]; rfl) ?_
    cases req <;> rfl
  | @dropRunning j req hj =>
    refine permits_release s hj false (fun query topK hreq => by rw [hreq]; rfl) ?_
    cases req <;> rfl
  | @dropEnded j req reply hj =>
    refine permits_release s hj false (fun query topK hreq => by rw [hreq]; rfl) ?_
    cases req <;> rfl
  -- the other steps do not touch the tasks
  | idle => rfl
  | handler i => rfl
  | apply htaken hk hlogged => rfl
  | worker hw => rfl
  | respond hk hr => rfl
  | leave hk hqueued => rfl

/-- A search that arrives, and whose client leaves at once. -/
def abandon (j : Nat) : List HttpStep := [.request ⟨none, .knn [] 1, by decide⟩, .drop j]

/-- Its permit is free again while its task waits. -/
theorem exec_abandon {s : HttpServer} (hfree : 0 < s.permits) (h : List HttpEvent) :
    let s' := (Run.exec (next A) (s, h) (abandon s.tasks.length)).1
    s'.permits = s.permits ∧ s'.blockingTasks = s.blockingTasks + 1 := by
  have hne : s.permits ≠ 0 := by omega
  have hlast : (s.tasks ++ [(HttpReq.knn [] 1, TaskPhase.running)])[s.tasks.length]? =
      some (.knn [] 1, .running) := by simp
  have hset : (s.tasks ++ [(HttpReq.knn [] 1, TaskPhase.running)]).set s.tasks.length
      (.knn [] 1, .dropped) = s.tasks ++ [(.knn [] 1, .dropped)] := by simp
  simp only [abandon, Run.exec_cons, Run.exec_nil, next, step, receive, spawn, if_neg hne, hlast,
    hset, release, blockingTasks, List.countP_append, List.countP_singleton]
  exact ⟨by omega, rfl⟩

/-- The permits that are free and those of waiting clients add up.  As long as one is free,
    clients that leave can start any number of blocking tasks with a search. -/
theorem permits_exact (auth : AuthConfig) (e : Engine) (queueCap workers : Nat)
    (steps : List HttpStep) :
    let s := (Run.exec (next A) (start auth e queueCap workers, []) steps).1
    s.permits + s.permitsHeld = knnConcurrency ∧
      (0 < s.permits → ∀ n, ∃ more, let s' := (Run.exec (next A) (s, []) more).1
        s'.permits = s.permits ∧ s'.blockingTasks = s.blockingTasks + n) := by
  intro s
  have hstart : (start auth e queueCap workers).permits +
      (start auth e queueCap workers).permitsHeld = knnConcurrency := rfl
  -- one step keeps the sum
  have hnext : ∀ (r : HttpServer × List HttpEvent) (st : HttpStep),
      r.1.permits + r.1.permitsHeld = knnConcurrency →
        (next A r st).1.permits + (next A r st).1.permitsHeld = knnConcurrency :=
    fun r st hr => (step_moves A r.1 st).permits.trans hr
  constructor
  · exact Run.exec_invariant
      (fun r : HttpServer × List HttpEvent => r.1.permits + r.1.permitsHeld = knnConcurrency)
      hnext (s := (start auth e queueCap workers, [])) steps hstart
  · -- a client that leaves frees its permit while the search runs on, as often as one likes
    intro hfree n
    induction n with
    | zero => exact ⟨[], rfl, rfl⟩
    | succ n ih =>
      obtain ⟨more, hper, htasks⟩ := ih
      have hlast := exec_abandon A (s := (Run.exec (next A) (s, []) more).1) (by omega)
        (Run.exec (next A) (s, []) more).2
      refine ⟨more ++ abandon (Run.exec (next A) (s, []) more).1.tasks.length, ?_⟩
      have happend : Run.exec (next A) (s, [])
          (more ++ abandon (Run.exec (next A) (s, []) more).1.tasks.length) =
          Run.exec (next A) (Run.exec (next A) (s, []) more)
            (abandon (Run.exec (next A) (s, []) more).1.tasks.length) := List.foldl_append
      rw [happend]
      exact ⟨hlast.1.trans hper, by rw [hlast.2, htasks]; omega⟩

end HttpServer

end FusionStore
