import FusionStore.Native.HttpServer
import FusionStore.Spec.SearchSession

/-!
# One request at a time

To its clients the HTTP server is a map from keys to values and a map from ids to vectors.
`Serves` says how a server that handles one request at a time answers; the engine, called for
one request, does just that.
-/

namespace FusionStore

/-- What the requests read and write. -/
structure Contents where
  value : Bytes → Option Bytes
  vectors : VecMap

/-- Nothing is stored. -/
def Contents.empty : Contents := ⟨fun _ => none, fun _ => none⟩

/-- The answer to a write: of a worker, or of a full queue. -/
def WriteReq.reply (req : WriteReq) : Option Bool → HttpReply
  | some res => .ofStatus (awaitWriteDone (some res) req.label)
  | none => .error queueFull

variable (A : F32Arith)

/-- The server that handles one request at a time: a request, its answer and what it leaves. -/
inductive Serves (schema : VectorSchema) (c : Contents) : HttpReq → HttpReply → Contents → Prop
  | put {key value : Bytes} (hne : key ≠ []) (hle : key.length ≤ lmdbMaxKey) :
      Serves schema c (.write (.putKv key value)) (.status .noContent)
        { c with value := Function.update c.value key (some value) }
  | putFailed {key value : Bytes} : Serves schema c (.write (.putKv key value))
      (.error ⟨.internalServerError, "put_kv failed"⟩) c
  | insert {id : NodeId} {vector : List F32} (hdim : vector.length = schema.dim)
      (hnew : c.vectors id = none) :
      Serves schema c (.write (.insertVector id vector)) (.status .noContent)
        { c with vectors := Function.update c.vectors id (some (vector, false)) }
  | insertFailed {id : NodeId} {vector : List F32}
      (hno : vector.length ≠ schema.dim ∨ (c.vectors id).isSome) :
      Serves schema c (.write (.insertVector id vector))
        (.error ⟨.internalServerError, "insert_vector failed"⟩) c
  | knn {query : List F32} {topK : Nat} {results : List (NodeId × F32)}
      (hdim : query.length = schema.dim)
      (hshows : IndexSession.Shows A schema.metric query topK c.vectors.visible results) :
      Serves schema c (.knn query topK) (.hits results) c
  | knnFailed {query : List F32} {topK : Nat} (hdim : query.length ≠ schema.dim) :
      Serves schema c (.knn query topK)
        (.error ⟨.internalServerError,
          (StoreError.dimensionMismatch schema.dim query.length).toText⟩) c
  | compact {resp : CompactResp}
      (hlive : resp.liveVectors = {id | (c.vectors.visible id).isSome}.ncard) :
      Serves schema c .compact (.compacted resp) { c with vectors := c.vectors.compact }
  | compactFailed {msg : String} :
      Serves schema c .compact (.error ⟨.internalServerError, msg⟩) c
  | refused {req : HttpReq} {e : AppError} (hno : e.status ≠ .internalServerError) :
      Serves schema c req (.error e) c

/-- An engine that holds `c`. -/
structure Engine.Matches (schema : VectorSchema) (e : Engine) (c : Contents) : Prop where
  inv : e.Inv schema
  good : ∀ key, e.kv.Good key
  view : ∀ key, e.kv.view key = c.value key
  index : ∃ x, e.vec = .opened x ∧
    (⟨x, c.vectors⟩ : IndexSession).Inv defaultVecSegmentSize schema.dim

namespace Engine

variable {schema : VectorSchema} {e e' : Engine} {c : Contents}

/-- The index has the schema of the namespace. -/
theorem Matches.schema_eq (h : e.Matches schema c) {x : VectorIndex} (hvec : e.vec = .opened x) :
    x.schema = schema := by
  have hv := h.inv.vec
  rw [hvec] at hv
  exact hv.2

/-- A log entry changes nothing that is stored. -/
theorem Matches.logged (h : e.Matches schema c) {op : WalOp} {seq : Nat} {wal : WalLog}
    (hw : e.wal.append op = .ok (seq, wal)) : ({ e with wal } : Engine).Matches schema c :=
  ⟨inv_logged h.inv hw, h.good, h.view, h.index⟩

/-- A put that went through. -/
theorem Matches.putKv_ok (h : e.Matches schema c) {key value : Bytes} {locked : Bool}
    (hr : e.apply A locked (.putKv key value) = (.ok (), e')) :
    e'.Matches schema { c with value := Function.update c.value key (some value) } ∧
      key ≠ [] ∧ key.length ≤ lmdbMaxKey := by
  have hinv := (apply_inv A h.inv hr).1
  have hvec : e'.vec = e.vec := by
    obtain ⟨-, rfl⟩ := Prod.mk.inj hr
    rfl
  obtain ⟨heff, -, hrep⟩ := apply_ok A h.inv hr
  refine ⟨⟨hinv, fun k => ?_, fun k => ?_, hvec ▸ h.index⟩, hrep.1, hrep.2.1⟩
  · by_cases hk : key = k
    · exact (heff.touched k _ (kvEffect_putKv.mpr ⟨hk, rfl⟩)).1
    · exact (heff.untouched k (by simp [kvEffect, Write.op, hk]) (h.good k)).1
  · by_cases hk : key = k
    · subst hk
      rw [(heff.touched key _ (kvEffect_putKv.mpr ⟨rfl, rfl⟩)).2]
      exact (Function.update_self key (some value) c.value).symm
    · rw [(heff.untouched k (by simp [kvEffect, Write.op, hk]) (h.good k)).2, h.view]
      exact (Function.update_of_ne (Ne.symm hk) _ _).symm

/-- A put that failed. -/
theorem Matches.putKv_error (h : e.Matches schema c) {key value : Bytes} {locked : Bool}
    {err : StoreError} (hr : e.apply A locked (.putKv key value) = (.error err, e')) :
    e'.Matches schema c := by
  have hvec : e'.vec = e.vec := by
    obtain ⟨-, rfl⟩ := Prod.mk.inj hr
    rfl
  obtain ⟨hkv, -⟩ := apply_error A h.inv hr
  exact ⟨(apply_inv A h.inv hr).1, fun k => (hkv k (h.good k)).1,
    fun k => ((hkv k (h.good k)).2).trans (h.view k), hvec ▸ h.index⟩

/-- A put does what the object allows and answers accordingly. -/
theorem Matches.putKv (h : e.Matches schema c) {key value : Bytes} {locked : Bool}
    {r : Except StoreError Unit} (hr : e.apply A locked (.putKv key value) = (r, e')) :
    ∃ c', e'.Matches schema c' ∧ Serves A schema c (.write (.putKv key value))
      ((WriteReq.putKv key value).reply (some r.isOk)) c' := by
  cases r with
  | error err => exact ⟨c, h.putKv_error A hr, .putFailed⟩
  | ok u =>
    obtain ⟨h', hne, hle⟩ := h.putKv_ok A hr
    exact ⟨_, h', .put hne hle⟩

/-- Everything an insert does. -/
theorem Matches.insertVector_cases (h : e.Matches schema c) (id : NodeId) (vector : List F32)
    (locked : Bool) :
    (vector.length ≠ schema.dim ∧ e.apply A locked (.insertVector id vector) =
      (.error (.dimensionMismatch schema.dim vector.length), e)) ∨
    (vector.length = schema.dim ∧ (c.vectors id).isSome ∧
      e.apply A locked (.insertVector id vector) = (.error (.duplicateVector id), e)) ∨
    (vector.length = schema.dim ∧ c.vectors id = none ∧ ∃ e',
      e.apply A locked (.insertVector id vector) = (.ok (), e') ∧ e'.kv = e.kv ∧
        e'.Matches schema
          { c with vectors := Function.update c.vectors id (some (vector, false)) }) := by
  obtain ⟨x, hvec, hx⟩ := h.index
  have happ : e.apply A locked (.insertVector id vector) =
      ((x.insert A id vector).1, { e with vec := .opened (x.insert A id vector).2 }) := by
    unfold apply ensureVec
    rw [hvec]
  have hself : { e with vec := .opened x } = e := by rw [← hvec]
  by_cases hdim : vector.length = schema.dim
  · obtain ⟨hsome, he⟩ | ⟨hnone, y, he, hy⟩ := hx.insert_cases A id hdim
    · -- the id is taken, by a live or a soft-deleted vector
      rw [he, hself] at happ
      exact .inr (.inl ⟨hdim, hsome, happ⟩)
    · have hinv := (apply_inv A h.inv happ).1
      rw [he] at happ hinv
      exact .inr (.inr ⟨hdim, hnone, _, happ, rfl, hinv, h.good, h.view, y, rfl, hy⟩)
  · -- the wrong length is found before anything else
    have he : x.insert A id vector =
        (.error (.dimensionMismatch schema.dim vector.length), x) := by
      unfold VectorIndex.insert
      rw [VectorSchema.validateDim, h.schema_eq hvec, if_neg hdim]
    rw [he, hself] at happ
    exact .inl ⟨hdim, happ⟩

/-- So does an insert. -/
theorem Matches.insertVector (h : e.Matches schema c) {id : NodeId} {vector : List F32}
    {locked : Bool} {r : Except StoreError Unit}
    (hr : e.apply A locked (.insertVector id vector) = (r, e')) :
    ∃ c', e'.Matches schema c' ∧ Serves A schema c (.write (.insertVector id vector))
      ((WriteReq.insertVector id vector).reply (some r.isOk)) c' := by
  obtain ⟨hdim, he⟩ | ⟨-, hsome, he⟩ | ⟨hdim, hnone, e'', he, -, h'⟩ :=
    h.insertVector_cases A id vector locked
  · obtain ⟨rfl, rfl⟩ := Prod.mk.inj (hr.symm.trans he)
    exact ⟨c, h, .insertFailed (.inl hdim)⟩
  · -- the id is taken
    obtain ⟨rfl, rfl⟩ := Prod.mk.inj (hr.symm.trans he)
    exact ⟨c, h, .insertFailed (.inr hsome)⟩
  · obtain ⟨rfl, rfl⟩ := Prod.mk.inj (hr.symm.trans he)
    exact ⟨_, h', .insert hdim hnone⟩

/-- Everything a search does, also when it stops at its deadline. -/
theorem Matches.searchKnn (h : e.Matches schema c) (query : List F32) (topK : Nat)
    (expired : Nat → Bool) :
    (query.length = schema.dim ∧ ∃ results, e.searchKnn A query topK expired = .ok results ∧
      IndexSession.Shows A schema.metric query topK c.vectors.visible results) ∨
    (query.length ≠ schema.dim ∧ e.searchKnn A query topK expired =
      .error (.dimensionMismatch schema.dim query.length)) := by
  obtain ⟨x, hvec, hx⟩ := h.index
  have hschema := h.schema_eq hvec
  have hsearch : e.searchKnn A query topK expired = x.searchKnn A query topK expired := by
    unfold Engine.searchKnn Engine.ensureVec
    rw [hvec]
    rfl
  rw [hsearch]
  by_cases hdim : query.length = schema.dim
  · obtain ⟨results, hres, hshows⟩ := hx.shows A hdim topK expired
    rw [hschema] at hshows
    exact .inl ⟨hdim, results, hres, hshows⟩
  · refine .inr ⟨hdim, ?_⟩
    unfold VectorIndex.searchKnn
    rw [VectorSchema.validateDim, hschema, if_neg hdim]
    rfl

/-- What a worker does to the contents when it applies a write, and what it answers. -/
theorem Matches.apply (h : e.Matches schema c) {req : WriteReq} {locked : Bool}
    {r : Except StoreError Unit} (hr : e.apply A locked req.write = (r, e')) :
    ∃ c', e'.Matches schema c' ∧
      Serves A schema c (.write req) (req.reply (some r.isOk)) c' := by
  cases req with
  | putKv key value => exact h.putKv A hr
  | insertVector id vector => exact h.insertVector A hr

/-- The request of a body within its limit fits a log entry. -/
theorem append_ok {req : WriteReq} (hlimited : (HttpReq.write req).bodyBytes ≤ maxBodyBytes)
    (wal : WalLog) : ∃ seq wal', wal.append req.write.op = .ok (seq, wal') := by
  have hlen : (encodeOp req.write.op).length ≤ u32Max := by
    cases req with
    | putKv key value =>
      simp only [HttpReq.bodyBytes, maxBodyBytes] at hlimited
      simp only [WriteReq.write, Write.op, encodeOp, List.length_append,
        LittleEndian.length_toLE, u32Max]
      omega
    | insertVector id vector =>
      simp only [HttpReq.bodyBytes, maxBodyBytes] at hlimited
      simp only [WriteReq.write, Write.op, encodeOp, List.length_append,
        LittleEndian.length_toLE, length_encodeF32s, u32Max]
      omega
  unfold WalLog.append
  rw [if_neg (by omega)]
  exact ⟨_, _, rfl⟩

end Engine

/-- A compaction counts the vectors that are shown. -/
theorem IndexSession.Inv.length_liveVectors {n dim : Nat} {s : IndexSession} (h : s.Inv n dim) :
    s.index.liveVectors.length = {id | (s.stored.visible id).isSome}.ncard := by
  have hmem : ∀ id, id ∈ s.index.liveVectors.map Prod.fst ↔ (s.stored.visible id).isSome := by
    intro id
    rw [VectorIndex.mem_liveVectors_keys, h.cells, ← VecMap.cell_compact, VecMap.cell_ne_absent]
    unfold VecMap.compact VecMap.visible
    rcases s.stored id with _ | ⟨v, _ | _⟩ <;> simp
  have hset : {id | (s.stored.visible id).isSome} =
      ((s.index.liveVectors.map Prod.fst).toFinset : Set NodeId) := by
    ext id
    simp [← hmem]
  rw [hset, Set.ncard_coe_finset,
    List.toFinset_card_of_nodup (VectorIndex.nodup_liveVectors s.index), List.length_map]

namespace HttpServer

variable {schema : VectorSchema} {s : HttpServer} {c : Contents}

/-- A search answers from what is visible and changes nothing. -/
theorem serves_search (h : s.engine.Matches schema c) (query : List F32) (topK : Nat) :
    Serves A schema c (.knn query topK) (s.searchReply A query topK) c := by
  unfold searchReply
  obtain ⟨hdim, results, hres, hshows⟩ | ⟨hdim, hres⟩ := h.searchKnn A query topK
    fun _ => false
  · rw [hres]
    exact .knn hdim hshows
  · rw [hres]
    exact .knnFailed hdim

/-- A compaction drops what is soft-deleted and reports what is left. -/
theorem serves_compact (h : s.engine.Matches schema c) (order : MapOrder) (avail : Option Nat)
    (cached : List Nat) :
    ∃ c', (s.compactReply A order avail cached).2.Matches schema c' ∧
      Serves A schema c .compact (s.compactReply A order avail cached).1 c' := by
  obtain ⟨x, hvec, hx⟩ := h.index
  have hcompact : s.engine.compact A order avail = ((x.compact A order avail).1,
      { s.engine with vec := .opened (x.compact A order avail).2 }) := by
    unfold Engine.compact Engine.ensureVec
    rw [hvec]
  obtain ⟨hy, hys⟩ := VectorIndex.compact_spec A hx.index order avail
  have hinv : (s.engine.compact A order avail).2.Inv schema := by
    rw [hcompact]
    exact ⟨h.inv.kv, ⟨hy, hys.trans (h.schema_eq hvec)⟩, h.inv.wal⟩
  unfold compactReply
  obtain ⟨err, -, he⟩ | ⟨live, y, he, hy'⟩ := hx.compact_cases A order avail
  · -- no room on the disk: nothing has changed
    rw [he] at hcompact
    rw [hcompact] at hinv ⊢
    exact ⟨c, ⟨hinv, h.good, h.view, x, rfl, hx⟩, .compactFailed⟩
  · -- the number that is reported is that of the visible ids
    have hlive : live = {id | (c.vectors.visible id).isSome}.ncard := by
      obtain ⟨locs, pool, graph, hr⟩ := VectorIndex.rewritten_ok A hx.index order
      rw [VectorIndex.compact_eq A hr] at he
      rw [← hx.length_liveVectors]
      split at he
      · cases (Prod.mk.inj he).1
      · exact (Except.ok.inj (Prod.mk.inj he).1).symm
    rw [he] at hcompact
    rw [hcompact] at hinv ⊢
    exact ⟨{ c with vectors := c.vectors.compact }, ⟨hinv, h.good, h.view, y, rfl, hy'⟩,
      .compact hlive⟩

end HttpServer

/-- The first open of a directory with a schema. -/
theorem Engine.blank_open (I : Ipc) {schema : VectorSchema} {quota : Nat} {order : MapOrder}
    {e : Engine} (hopen : (Engine.open A I .empty (some schema) quota order).1 = .ok e) :
    e.Blank schema quota ∧ e.schema = some schema := by
  obtain ⟨e', hrun, hblank, hschema⟩ := Session.run_first A I (Or.inr rfl) quota order
  have he : e' = e := by
    cases hop : Engine.open A I .empty (some schema) quota order with
    | mk r d =>
      rw [hop] at hopen
      obtain rfl : r = .ok e := hopen
      have hup : Session.run A I [.restart (some schema) quota order] = ⟨.up e, []⟩ := by
        simp only [Session.run, Run.exec_cons, Run.exec_nil, Session.step, Session.fresh, Host.dir,
          hop]
      have hhost := congrArg Session.host (hup.symm.trans hrun)
      exact (Host.up.inj hhost).symm
  subst he
  exact ⟨hblank, hschema⟩

/-- The engine of a namespace that was just created. -/
theorem Engine.matches_open (I : Ipc) {schema : VectorSchema}
    (hfits : schema.dim * 4 ≤ defaultVecSegmentSize) {quota : Nat} {order : MapOrder} {e : Engine}
    (hopen : (Engine.open A I .empty (some schema) quota order).1 = .ok e) :
    e.Matches schema .empty := by
  obtain ⟨hblank, hschema⟩ := Engine.blank_open A I hopen
  refine ⟨hblank.inv, hblank.good, hblank.view, ?_⟩
  have hvec := hblank.inv.vec
  unfold Engine.schema at hschema
  cases hslot : e.vec with
  | closed d =>
    rw [hslot] at hschema
    cases hschema
  | opened x =>
    rw [hslot] at hvec
    refine ⟨x, rfl, hvec.1, congrArg VectorSchema.dim hvec.2, hfits, fun id => ?_⟩
    rw [← Engine.cell_opened hslot, hblank.cell]
    rfl

end FusionStore
