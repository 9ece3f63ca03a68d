import FusionStore.Spec.Openable

/-!
# Vectors across restarts

A reopened index starts from the locator table, which knows nothing of soft deletes; an
index opened with a schema starts from the snapshot file, which knows nothing of what
came after it.  Both then replay the same log.  The results below say exactly when this
brings back what was visible before.
-/

namespace FusionStore

namespace Engine

/-- `list_vector_ids` contains `id`. -/
def Lists (e : Engine) (id : NodeId) : Prop := ∃ ids, e.listVectorIds = .ok ids ∧ id ∈ ids

/-- Two engines that answer `get_vector` and `list_vector_ids` alike. -/
structure SameVectors (e e' : Engine) : Prop where
  getVector : ∀ id, e'.getVector id = e.getVector id
  lists : ∀ id, e'.Lists id ↔ e.Lists id

variable {s : VectorSchema} {e e' : Engine}

/-- `list_vector_ids` lists the ids with a visible vector. -/
theorem lists_iff (h : e.Inv s) (id : NodeId) : e.Lists id ↔ (e.cell id).visible ≠ none := by
  cases hvec : e.vec with
  | closed d =>
    rw [cell_closed hvec]
    constructor
    · rintro ⟨ids, hl, -⟩
      simp only [listVectorIds, ensureVec, hvec] at hl
      cases hl
    · exact fun hn => absurd rfl hn
  | opened x =>
    obtain ⟨ids, hl, hmem⟩ := listVectorIds_eq h (t := x.schema) (schema_opened hvec)
    rw [← hmem id]
    constructor
    · rintro ⟨ids', hl', hid⟩
      rw [hl, Except.ok.injEq] at hl'
      exact hl' ▸ hid
    · exact fun hid => ⟨ids, hl, hid⟩

/-- Two engines with an index, or two without one, agree when their visible cells do. -/
theorem sameVectors_iff (h : e.Inv s) (h' : e'.Inv s) (hs : e'.schema = e.schema) :
    e.SameVectors e' ↔ ∀ id, (e'.cell id).visible = (e.cell id).visible := by
  -- the lists follow from the cells
  have hlists : (∀ id, (e'.cell id).visible = (e.cell id).visible) →
      ∀ id, e'.Lists id ↔ e.Lists id := by
    intro hall id
    rw [lists_iff h, lists_iff h', hall id]
  cases hvec : e.vec with
  | closed d =>
    have hsn : e.schema = none := by simp only [schema, hvec]
    -- one of them has no index: then the other has none either
    have hclosed : ∀ f : Engine, f.schema = none → ∃ d, f.vec = .closed d := by
      intro f hf
      unfold schema at hf
      cases hv : f.vec with
      | closed d => exact ⟨d, rfl⟩
      | opened x =>
        rw [hv] at hf
        cases hf
    obtain ⟨d', hvec'⟩ := hclosed e' (hs.trans hsn)
    have hall : ∀ id, (e'.cell id).visible = (e.cell id).visible := by
      intro id
      rw [cell_closed hvec, cell_closed hvec']
    refine ⟨fun _ => hall, fun _ => ⟨fun id => ?_, hlists hall⟩⟩
    simp only [getVector, ensureVec, hvec, hvec']
  | opened x =>
    have ht := schema_opened hvec
    have hget := getVector_eq h ht
    have hget' := getVector_eq h' (hs.trans ht)
    constructor
    · intro hsame id
      -- with an index on both sides, what `get_vector` answers is the cell
      have heq := hsame.getVector id
      rw [hget, hget', Except.ok.injEq] at heq
      exact heq
    · intro hall
      refine ⟨fun id => ?_, hlists hall⟩
      rw [hget, hget', hall id]

/-- Every id in the locator table is a live node. -/
def AllLive (e : Engine) : Prop :=
  match e.vec with
  | .closed _ => True
  | .opened x => ∀ id ∈ x.env.volatile.locatorDb.keys, x.graph.isDeleted id = false

instance (e : Engine) : Decidable e.AllLive := by
  unfold AllLive
  cases e.vec with
  | closed d => exact .isTrue trivial
  | opened x => exact List.decidableBAll _ _

/-- No stored id is soft-deleted exactly when each vector that the data files hold is visible. -/
theorem allLive_iff (h : e.Inv s) : e.AllLive ↔ ∀ id, (e.cell id).visible = (e.cell id).stored := by
  have hv := h.vec
  unfold AllLive cell
  cases hvec : e.vec with
  -- an engine without an index stores nothing
  | closed d => exact ⟨fun _ _ => rfl, fun _ => trivial⟩
  | opened x =>
    rw [hvec] at hv
    constructor
    · intro hall id
      show (x.cell id).visible = (x.cell id).stored
      -- an id without a locator has no vector either way
      cases hl : x.env.volatile.locatorDb.lookup id with
      | none => rw [VectorIndex.cell_eq_absent.mpr hl]; rfl
      | some loc =>
        have hmem : id ∈ x.env.volatile.locatorDb.keys := by
          rw [← AList.mem_keys, ← AList.lookup_isSome, hl]
          rfl
        rw [VectorIndex.cell_of_lookup hl, NswGraph.isDeleted_iff.mp (hall id hmem)]
        rfl
    · intro hall id hmem
      rw [← AList.mem_keys, ← AList.lookup_isSome] at hmem
      obtain ⟨loc, hl⟩ := Option.isSome_iff_exists.mp hmem
      have heq : (x.cell id).visible = (x.cell id).stored := hall id
      rw [NswGraph.isDeleted_iff]
      rw [VectorIndex.cell_of_lookup hl] at heq
      -- a stored vector that is shown has a live node
      cases hf : x.graph.flag id with
      | none =>
        rw [hf] at heq
        exact nomatch heq
      | some b =>
        cases b with
        | false => rfl
        | true =>
          rw [hf] at heq
          exact nomatch heq

end Engine

variable {s : VectorSchema} (A : F32Arith) (I : Ipc)

/-! ### Checkpoint, then reopen -/

/-- A clean shutdown followed by a restart without a schema shows the same vectors if
    and only if nothing in the locator table was soft-deleted: `reopen` makes every
    stored vector live again. -/
theorem reopen_after_checkpoint_iff (es : List Event) (hes : ∀ ev ∈ es, ev.Uses s)
    {e e' : Engine} (hup : (Session.run A I es).host = .up e) {c : Call}
    (hc : c = .checkpoint ∨ c = .close) (hr : e.call A I c = (.ok (), e')) (quota : Nat)
    (order : MapOrder) :
    (∃ e'', (Engine.open A I e'.dir none quota order).1 = .ok e'' ∧ e.SameVectors e'') ↔
      e.AllLive := by
  have h : e.Inv s := by
    have hrun := Session.inv_run A I hes
    rw [hup] at hrun
    exact hrun
  -- `close` is a checkpoint, and neither reports an error
  have hcheck : e' = e.checkpoint := by
    rcases hc with rfl | rfl <;> exact ((Prod.mk.inj hr).2).symm
  have h' : e'.Inv s := hcheck ▸ Engine.inv_checkpoint h
  have hpend : e'.dir.wal.pendingOps = [] := by
    show e'.wal.dir.pendingOps = []
    rw [hcheck, LogDir.pendingOps_nil (Engine.pending_checkpoint h)]
  -- the log is empty, so the restart succeeds and shows the locator table
  obtain ⟨e'', hop⟩ := (Engine.open_none_iff A I h'.dir quota order).mpr (by
    unfold EngineDir.Openable
    rw [hpend]
    exact ⟨by simp, trivial⟩)
  obtain ⟨e₀, hres, hschema⟩ := Engine.restores_none A I h'.dir quota order
  obtain ⟨hrec, -, -, hs⟩ := hres.recovered h'.dir.kv hop
  -- the rebuilt graph has a node for every locator
  have hcell : ∀ id, (e''.cell id).visible = (e.cell id).stored := by
    intro id
    rw [hrec.cell id, hpend, Cell.applyAll_nil, Engine.reopenedCell, Engine.stored_dir h' id,
      hcheck, Engine.cell_checkpoint]
    cases (e.cell id).stored with
    | none => rfl
    | some v => rfl
  have hsame : e''.schema = e.schema := by
    rw [hs, hschema, Engine.schema_dir h', hcheck, Engine.schema_checkpoint]
  rw [Engine.allLive_iff h]
  constructor
  · -- both directions compare the cells
    rintro ⟨e₁, hop₁, hsv⟩ id
    rw [hop, Except.ok.injEq] at hop₁
    subst hop₁
    rw [← (Engine.sameVectors_iff h hrec.inv hsame).mp hsv id, hcell id]
  · intro hall
    refine ⟨e'', hop, (Engine.sameVectors_iff h hrec.inv hsame).mpr fun id => ?_⟩
    rw [hcell id, hall id]

/-- A run of `reopen_after_checkpoint_iff`: three inserts, a checkpoint and a restart. -/
theorem reopen_after_checkpoint_of_inserts : ∃ e e',
    (Session.run zeroArith noIpc [.restart (some flatSchema) 0 .id, .call (.insertVector 1 [0]),
      .call (.insertVectorBatch [(2, [0]), (3, [0])])]).host = .up e ∧
    (Engine.open zeroArith noIpc e.checkpoint.dir none 0 .id).1 = .ok e' ∧ e.SameVectors e' := by
  obtain ⟨e', he'⟩ := (reopen_after_checkpoint_iff (s := flatSchema) zeroArith noIpc
    [.restart (some flatSchema) 0 .id, .call (.insertVector 1 [0]),
      .call (.insertVectorBatch [(2, [0]), (3, [0])])]
    (by simp [Event.Uses]) rfl (Or.inl rfl) rfl 0 .id).mpr (by decide +kernel)
  exact ⟨_, e', rfl, he'⟩

/-- A deleted vector is back after a checkpoint and a restart. -/
theorem deleted_visible_after_checkpoint : ∃ e e',
    (Session.run zeroArith noIpc [.restart (some flatSchema) 0 .id, .call (.insertVector 1 [0]),
      .call (.insertVector 2 [0]), .call (.deleteVector 2)]).host = .up e ∧
    e.getVector 2 = .ok none ∧
    (Engine.open zeroArith noIpc e.checkpoint.dir none 0 .id).1 = .ok e' ∧
    e'.getVector 2 = .ok (some [0]) := by
  refine ⟨_, _, rfl, ?_, rfl, ?_⟩
  · decide +kernel
  · decide +kernel

/-! ### With and without the schema -/

/-- Opening with and without the schema: both fail, or both succeed and show the same. -/
def OpensAgree (s : VectorSchema) (d : EngineDir) (quota : Nat) (order order' : MapOrder) : Prop :=
  match (Engine.open A I d (some s) quota order).1, (Engine.open A I d none quota order').1 with
  | .ok e, .ok e' => e.SameVectors e'
  | .error _, .error _ => True
  | _, _ => False

/-- The snapshot loads, and it shows as live every stored vector that the log is not
    about to delete. -/
def EngineDir.SnapshotShows (d : EngineDir) : Prop :=
  match Snapshot.load d.vec.snapshot with
  | .error _ => False
  | .ok g => ∀ id ∈ d.vec.locatorDb.keys,
    (g.getD NswGraph.new).isDeleted id = false ∨ .deleteVector id ∈ d.wal.pendingOps

instance (d : EngineDir) : Decidable d.SnapshotShows := by
  unfold EngineDir.SnapshotShows
  cases Snapshot.load d.vec.snapshot with
  | error err => exact .isFalse id
  | ok g => exact List.decidableBAll _ _

/-- One stored vector on both paths. -/
private theorem visible_agrees_iff {v : List F32} {flag : Option Bool} {id : NodeId}
    {ops : List WalOp} :
    (Cell.applyAll id (.live v) ops).visible = (Cell.applyAll id (.ofFlag flag v) ops).visible ↔
      flag = some false ∨ .deleteVector id ∈ ops := by
  rw [Cell.applyAll_live]
  cases flag with
  | none =>
    rw [show Cell.ofFlag none v = .hidden v from rfl, Cell.applyAll_hidden]
    by_cases hd : .deleteVector id ∈ ops <;> simp [hd, Cell.visible]
  | some b =>
    cases b with
    | false =>
      rw [show Cell.ofFlag (some false) v = .live v from rfl, Cell.applyAll_live]
      simp
    | true =>
      rw [show Cell.ofFlag (some true) v = .dead v from rfl, Cell.applyAll_dead]
      by_cases hd : .deleteVector id ∈ ops <;> simp [hd, Cell.visible]

/-- The two restore paths agree exactly when recovery fails anyway, or the snapshot is
    as good as the locator table. -/
theorem opensAgree_iff (es : List Event) (hes : ∀ ev ∈ es, ev.Uses s)
    (hindex : (Session.run A I es).host.dir.vec.vecMeta.isSome) (quota : Nat)
    (order order' : MapOrder) :
    OpensAgree A I s (Session.run A I es).host.dir quota order order' ↔
      ¬(Session.run A I es).host.dir.Openable quota ∨
        (Session.run A I es).host.dir.SnapshotShows := by
  have h := (Session.inv_run A I hes).dir
  generalize (Session.run A I es).host.dir = d at *
  have hschema : d.schema = some s := by
    obtain ⟨env, henv⟩ := Option.isSome_iff_exists.mp hindex
    unfold EngineDir.schema
    rw [henv]
    exact h.vec.schema env henv
  obtain ⟨e₀, hres, hs₀⟩ := Engine.restores_none A I h quota order'
  have hnone := Engine.open_none_iff A I h quota order'
  unfold OpensAgree EngineDir.SnapshotShows
  cases hload : Snapshot.load d.vec.snapshot with
  -- no snapshot
  | error err =>
    -- with a schema the open fails at once
    rw [Engine.open_some_error A I hload, or_false, ← hnone]
    cases hop : (Engine.open A I d none quota order').1 with
    | error err' => exact ⟨fun _ ⟨e, he⟩ => (nomatch he), fun _ => trivial⟩
    | ok e' => exact ⟨fun hf => hf.elim, fun hn => hn ⟨e', rfl⟩⟩
  -- a readable snapshot: each open succeeds exactly when the log can be replayed
  | ok g =>
    obtain ⟨e₁, hres₁, hs₁⟩ := Engine.restores_some A I h hload quota order
    have hsome : (∃ e, (Engine.open A I d (some s) quota order).1 = .ok e) ↔
        d.Openable quota := by
      rw [hres₁.ok_iff, hs₁, ← hschema]
      rfl
    cases hop₁ : (Engine.open A I d (some s) quota order).1 with
    | error err =>
      have hn : ¬d.Openable quota := by
        intro ho
        obtain ⟨e, he⟩ := hsome.mpr ho
        rw [hop₁] at he
        exact nomatch he
      cases hop : (Engine.open A I d none quota order').1 with
      | error err' => exact ⟨fun _ => Or.inl hn, fun _ => trivial⟩
      | ok e' => exact absurd (hnone.mp ⟨e', hop⟩) hn
    | ok e =>
      have ho : d.Openable quota := hsome.mp ⟨e, hop₁⟩
      obtain ⟨e', hop⟩ := hnone.mpr ho
      rw [hop]
      -- both opened: compare them id by id
      obtain ⟨hrec, -, -, hs⟩ := hres.recovered h.kv hop
      obtain ⟨hrec₁, -, -, hs'⟩ := hres₁.recovered h.kv hop₁
      have hsame : e'.schema = e.schema := by
        rw [hs, hs', hs₀, hs₁, hschema]
      simp only [ho, not_true_eq_false, false_or]
      rw [Engine.sameVectors_iff hrec₁.inv hrec.inv hsame]
      -- the ids to compare are those of the locator table
      have hstored : ∀ id, id ∈ d.vec.locatorDb.keys ↔ d.vec.stored id ≠ none := by
        intro id
        rw [← AList.mem_keys, ← AList.lookup_isSome]
        unfold VecDir.stored
        cases d.vec.locatorDb.lookup id <;> simp
      constructor
      · intro hall id hid
        obtain ⟨v, hv⟩ := Option.ne_none_iff_exists'.mp ((hstored id).mp hid)
        have heq := hall id
        rw [hrec.cell, hrec₁.cell, Engine.reopenedCell, Engine.openedCell, hv] at heq
        rw [NswGraph.isDeleted_iff]
        exact visible_agrees_iff.mp heq
      · intro hall id
        rw [hrec.cell, hrec₁.cell, Engine.reopenedCell, Engine.openedCell]
        -- an id without a vector shows nothing after either open
        cases hv : d.vec.stored id with
        | none => rfl
        | some v =>
          have hid := (hstored id).mpr (by rw [hv]; exact Option.some_ne_none _)
          have hor := hall id hid
          rw [NswGraph.isDeleted_iff] at hor
          exact visible_agrees_iff.mpr hor

/-- A run of `opensAgree_iff`: the delete is in the log, so both opens replay it. -/
theorem opensAgree_of_pending_delete : OpensAgree zeroArith noIpc flatSchema
    (Session.run zeroArith noIpc [.restart (some flatSchema) 0 .id, .call (.insertVector 1 [0]),
      .call (.insertVector 2 [0]), .call .checkpoint, .call (.deleteVector 2)]).host.dir
    0 .id .id :=
  (opensAgree_iff zeroArith noIpc _ (by simp [Event.Uses]) rfl 0 .id .id).mpr
    (Or.inr (by decide +kernel))

/-- One insert without a checkpoint: only the open without a schema shows it. -/
theorem opens_differ_after_insert :
    let d := (Session.run zeroArith noIpc
      [.restart (some flatSchema) 0 .id, .call (.insertVector 1 [0])]).host.dir
    ∃ e e', (Engine.open zeroArith noIpc d (some flatSchema) 0 .id).1 = .ok e ∧
      e.getVector 1 = .ok none ∧ (Engine.open zeroArith noIpc d none 0 .id).1 = .ok e' ∧
      e'.getVector 1 = .ok (some [0]) := by
  refine ⟨_, _, rfl, ?_, rfl, ?_⟩
  · decide +kernel
  · decide +kernel

/-! ### Repeated kills -/

/-- The effect of an operation on the vector of `id`. -/
def vecEffect (id : NodeId) : WalOp → Option (Option (List F32))
  | .insertVector j v => if j = id then some (some v) else none
  | .deleteVector j => if j = id then some none else none
  | _ => none

/-- The vector of `id` after the operations `ops`: inserted and not deleted since. -/
def lastVector (id : NodeId) (ops : List WalOp) : Option (List F32) :=
  (ops.reverse.findSome? (vecEffect id)).join

/-- What the last vector operation says of an id, one operation later. -/
theorem lastVector_concat (id : NodeId) (ops : List WalOp) (op : WalOp) :
    lastVector id (ops ++ [op]) = match vecEffect id op with
      | some eff => eff
      | none => lastVector id ops := by
  simp only [lastVector, List.reverse_append, List.reverse_cons, List.reverse_nil,
    List.nil_append, List.cons_append, List.findSome?_cons]
  cases vecEffect id op <;> rfl

/-- An acknowledged write shows in the visible cells. -/
theorem Engine.visible_apply {e e' : Engine} (h : e.Inv s) {locked : Bool} {w : Write}
    (hr : e.apply A locked w = (.ok (), e')) {ops : List WalOp}
    (hshown : ∀ id, (e.cell id).visible = lastVector id ops) (id : NodeId) :
    (e'.cell id).visible = lastVector id (ops ++ [w.op]) := by
  rw [lastVector_concat, (Engine.apply_ok A h hr).2.1 id]
  cases w with
  -- an accepted insert meets an absent id
  | insertVector j v =>
    by_cases hj : j = id
    · subst hj
      have habs : e.cell j = .absent := (Engine.absent_of_insert A h hr).1
      simp only [Write.op, Cell.apply, vecEffect, ↓reduceIte, habs]
      rfl
    · simp only [Write.op, Cell.apply, vecEffect, hj, ↓reduceIte]
      exact hshown id
  -- a delete hides the vector, whatever the cell was
  | deleteVector j =>
    by_cases hj : j = id
    · subst hj
      simp only [Write.op, Cell.apply, vecEffect, ↓reduceIte]
      cases e.cell j <;> rfl
    · simp only [Write.op, Cell.apply, vecEffect, hj, ↓reduceIte]
      exact hshown id
  -- the KV writes concern no cell
  | putKv key value => exact hshown id
  | deleteKv key => exact hshown id

/-- What a restart without a schema shows of a directory whose log holds the deletes it
    has to redo, and no insert it has not done. -/
theorem Engine.visible_reopened {e : Engine} (h : e.Inv s)
    (hdel : ∀ id, e.cell id ≠ .absent →
      ((e.cell id).visible = none ↔ .deleteVector id ∈ e.wal.dir.pendingOps))
    (hins : ∀ id v, .insertVector id v ∈ e.wal.dir.pendingOps → e.cell id ≠ .absent)
    (id : NodeId) :
    (Cell.applyAll id (reopenedCell e.dir id) e.wal.dir.pendingOps).visible =
      (e.cell id).visible := by
  rw [reopenedCell, stored_dir h id]
  -- every stored vector comes back live and loses its node again to a logged delete
  have hback : ∀ v, (Cell.applyAll id (.live v) e.wal.dir.pendingOps).visible =
      if .deleteVector id ∈ e.wal.dir.pendingOps then none else some v := by
    intro v
    rw [Cell.applyAll_live]
    split <;> rfl
  have hiff := hdel id
  cases hc : e.cell id with
  -- never stored, so no logged insert either
  | absent =>
    have hno : ∀ v, .insertVector id v ∉ e.wal.dir.pendingOps := fun v hmem => hins id v hmem hc
    simp only [Cell.stored]
    rw [Cell.applyAll_absent hno]
  -- not visible, so its delete is in the log
  | hidden v =>
    simp only [Cell.stored]
    rw [hback, if_pos ((hiff (by rw [hc]; exact fun hn => nomatch hn)).mp (by rw [hc]; rfl))]
    rfl
  | dead v =>
    simp only [Cell.stored]
    rw [hback, if_pos ((hiff (by rw [hc]; exact fun hn => nomatch hn)).mp (by rw [hc]; rfl))]
    rfl
  -- visible, so its delete is not in the log
  | live v =>
    simp only [Cell.stored]
    rw [hback, if_neg]
    · rfl
    · intro hmem
      have hnone := (hiff (by rw [hc]; exact fun hn => nomatch hn)).mpr hmem
      rw [hc] at hnone
      exact nomatch hnone

/-- What the readers of a session show is what was inserted and not deleted. -/
def VectorsIntact (σ : Session) : Prop :=
  ∃ e, σ.host = .up e ∧ (∀ id, e.getVector id = .ok (lastVector id σ.ops)) ∧
    ∀ id, e.Lists id ↔ lastVector id σ.ops ≠ none

/-- The soft-deleted ids of the locator table are those with a delete in the log. -/
def Engine.DeletesPending (e : Engine) : Prop :=
  match e.vec with
  | .closed _ => True
  | .opened x => ∀ id ∈ x.env.volatile.locatorDb.keys,
    (x.graph.isDeleted id = true ↔ .deleteVector id ∈ e.wal.dir.pendingOps)

instance (e : Engine) : Decidable e.DeletesPending := by
  unfold Engine.DeletesPending
  cases e.vec with
  | closed d => exact .isTrue trivial
  | opened x => exact List.decidableBAll _ _

/-- In terms of cells: an id that is stored is invisible exactly when its delete is logged. -/
theorem Engine.deletesPending_iff {e : Engine} (h : e.Inv s) :
    e.DeletesPending ↔ ∀ id, e.cell id ≠ .absent →
      ((e.cell id).visible = none ↔ .deleteVector id ∈ e.wal.dir.pendingOps) := by
  have hv := h.vec
  unfold DeletesPending cell
  cases hvec : e.vec with
  -- without an index there is no id to speak of
  | closed d => exact ⟨fun _ id hn => absurd rfl hn, fun _ => trivial⟩
  | opened x =>
    rw [hvec] at hv
    have hmem : ∀ id, id ∈ x.env.volatile.locatorDb.keys ↔ x.cell id ≠ .absent := by
      intro id
      rw [ne_eq, VectorIndex.cell_eq_absent, ← AList.mem_keys, ← AList.lookup_isSome,
        Option.isSome_iff_ne_none]
    -- a soft-deleted node and an invisible cell are the same
    have hdel : ∀ id, x.graph.isDeleted id = true ↔ (x.cell id).visible = none := by
      intro id
      rw [← not_iff_not, Bool.not_eq_true, NswGraph.isDeleted_iff]
      exact (VectorIndex.visible_cell hv.1 id).symm
    constructor
    · intro hall id hn
      rw [← hdel id]
      exact hall id ((hmem id).mpr hn)
    · intro hall id hid
      rw [hdel id]
      exact hall id ((hmem id).mp hid)

/-- The steps of a run of acknowledged inserts and deletes with kills: each restart is
    without a schema and meets `DeletesPending`. -/
def VectorStep (σ : Session) (ev : Event) : Prop :=
  match σ.host, ev with
  | .up e, .call (.insertVector id vector) => (e.insertVector A id vector).1 = .ok ()
  | .up e, .call (.deleteVector id) => (e.deleteVector id).1.isOk = true
  | .up e, .restart none _ _ => e.DeletesPending
  | _, _ => False

instance : (σ : Session) → (ev : Event) → Decidable (VectorStep A σ ev)
  | ⟨.up e, _⟩, .call (.insertVector id vector) =>
    inferInstanceAs (Decidable ((e.insertVector A id vector).1 = .ok ()))
  | ⟨.up e, _⟩, .call (.deleteVector id) =>
    inferInstanceAs (Decidable ((e.deleteVector id).1.isOk = true))
  | ⟨.up e, _⟩, .restart none _ _ => inferInstanceAs (Decidable e.DeletesPending)
  | ⟨.up _, _⟩, .restart (some _) _ _ => .isFalse id
  | ⟨.up _, _⟩, .call (.putKv ..) => .isFalse id
  | ⟨.up _, _⟩, .call (.deleteKv ..) => .isFalse id
  | ⟨.up _, _⟩, .call (.insertVectorBatch _) => .isFalse id
  | ⟨.up _, _⟩, .call (.putColumnar ..) => .isFalse id
  | ⟨.up _, _⟩, .call (.compact ..) => .isFalse id
  | ⟨.up _, _⟩, .call .checkpoint => .isFalse id
  | ⟨.up _, _⟩, .call .recover => .isFalse id
  | ⟨.up _, _⟩, .call .close => .isFalse id
  | ⟨.down _, _⟩, .call _ => .isFalse id
  | ⟨.down _, _⟩, .restart .. => .isFalse id

/-- Operations on vectors. -/
def WalOp.IsVector : WalOp → Prop
  | .insertVector .. => True
  | .deleteVector _ => True
  | _ => False

/-- The log of a run on vectors alone does not move the quota counter. -/
private theorem quotaFits_of_vectors {quota used : Nat} {len : Bytes → Nat} {ops : List WalOp}
    (h : ∀ op ∈ ops, op.IsVector) : QuotaFits quota used len ops := by
  induction ops with
  | nil => trivial
  | cons op ops ih =>
    have hrest := ih fun op' hop => h op' (List.mem_cons_of_mem _ hop)
    have hop := h op List.mem_cons_self
    cases op with
    | insertVector id vector => exact hrest
    | deleteVector id => exact hrest
    | putKv key value => exact hop.elim
    | deleteKv key => exact hop.elim
    | putColumnar t ipc => exact hop.elim

/-- What a run on vectors keeps: the visible cells are the acknowledged ones, and the log
    holds vector operations that replay, with every insert already stored. -/
private structure VectorRun (s : VectorSchema) (σ : Session) (e : Engine) : Prop where
  up : σ.host = .up e
  inv : e.Inv s
  schema : e.schema = some s
  shown : ∀ id, (e.cell id).visible = lastVector id σ.ops
  vector : ∀ op ∈ e.wal.dir.pendingOps, op.IsVector
  replays : ∀ op ∈ e.wal.dir.pendingOps, op.Replayable (some s)
  stored : ∀ id v, .insertVector id v ∈ e.wal.dir.pendingOps → e.cell id ≠ .absent

/-- An accepted insert or delete keeps the invariant of the runs. -/
private theorem VectorRun.write {σ : Session} {e : Engine} (h : VectorRun s σ e) {w : Write}
    (hvec : w.op.IsVector) (hok : (e.call A I (w.call true)).1 = .ok ()) :
    ∃ e', VectorRun s (σ.step A I (.call (w.call true))) e' := by
  obtain ⟨seq, wal, e', hw, happ, hst⟩ := Session.step_write A I h.up hok
  have hlog := Engine.inv_logged h.inv hw
  obtain ⟨hinv, hframe⟩ := Engine.apply_inv A hlog happ
  obtain ⟨-, hcell, hreplay⟩ := Engine.apply_ok A hlog happ
  have hschema : e'.schema = some s := hframe.schema.trans h.schema
  have hcell' : ∀ id, e'.cell id = (e.cell id).apply id w.op := hcell
  -- the log grew by this operation at most
  have hpend : ∀ op ∈ e'.wal.dir.pendingOps, op ∈ e.wal.dir.pendingOps ∨ op = w.op := by
    intro op hop
    rw [hframe.wal] at hop
    have hp := WalLog.pending_append hw
    rw [show ({ e with wal } : Engine).wal = wal from rfl, hp, List.mem_append] at hop
    rcases hop with hop | hop
    · exact Or.inl hop
    · split at hop
      · exact Or.inr (List.mem_singleton.mp hop)
      · cases hop
  refine ⟨e', by rw [hst], hinv, hschema, ?_, ?_, ?_, ?_⟩
  · -- the history grew by this operation as well
    rw [hst, Session.ops_acked, Write.ops_call]
    exact Engine.visible_apply A hlog happ h.shown
  · intro op hop
    rcases hpend op hop with hop | rfl
    · exact h.vector op hop
    · exact hvec
  · intro op hop
    rcases hpend op hop with hop | rfl
    · exact h.replays op hop
    · exact h.schema ▸ hreplay
  · -- an id that a logged insert names stays stored
    intro id v hop
    rcases hpend _ hop with hop | heq
    · rw [hcell' id]
      exact Cell.apply_ne_absent (h.stored id v hop) _
    · rw [hcell' id, ← heq]
      simp only [Cell.apply, ↓reduceIte]
      cases e.cell id <;> exact fun hn => by cases hn

/-- A restart without a schema keeps it, provided that every delete is still in the log. -/
private theorem VectorRun.restart {σ : Session} {e : Engine} (h : VectorRun s σ e)
    (hpend : e.DeletesPending) (quota : Nat) (order : MapOrder) :
    ∃ e', VectorRun s (σ.step A I (.restart none quota order)) e' := by
  have hd := h.inv.dir
  have hds : e.dir.schema = some s := (Engine.schema_dir h.inv).trans h.schema
  -- the log is replayed without an error, so the engine is up again
  obtain ⟨e', hop⟩ := (Engine.open_none_iff A I hd quota order).mpr
    ⟨fun op hop => hds ▸ h.replays op hop, quotaFits_of_vectors h.vector⟩
  obtain ⟨e₀, hres, hs₀⟩ := Engine.restores_none A I hd quota order
  obtain ⟨hrec, -, -, hs⟩ := hres.recovered hd.kv hop
  have hst : σ.step A I (.restart none quota order) = ⟨.up e', σ.acked⟩ := by
    simp only [Session.step, h.up, Host.dir]
    cases hopen : Engine.open A I e.dir none quota order with
    | mk r d =>
      rw [hopen] at hop
      subst hop
      rfl
  -- recovery has moved the marker behind the whole log
  have hnil := LogDir.pendingOps_nil hrec.pending
  refine ⟨e', by rw [hst], hrec.inv, by rw [hs, hs₀, hds], ?_, ?_, ?_, ?_⟩
  · intro id
    rw [hst]
    show _ = lastVector id σ.ops
    rw [← h.shown id, hrec.cell id]
    exact Engine.visible_reopened h.inv ((Engine.deletesPending_iff h.inv).mp hpend) h.stored id
  · -- what is left is about operations in the log, and there are none
    rw [hnil]
    intro op hop
    cases hop
  · rw [hnil]
    intro op hop
    cases hop
  · rw [hnil]
    intro id v hop
    cases hop

/-- Un-checkpointed vectors survive any number of kills, as long as each of them finds
    the deletes it has to redo in the log and no others: a delete that an earlier
    recovery took out of the log is forgotten, and one that came before the insert of
    its id is applied after it. -/
theorem vectorsIntact_of_guarded (quota : Nat) (order : MapOrder) (es : List Event)
    (hrun : Run.Guarded (Session.step A I) (VectorStep A)
      (Session.run A I [.restart (some s) quota order]) es) :
    VectorsIntact (Session.run A I (.restart (some s) quota order :: es)) := by
  -- the first open
  have hstart : ∃ e, VectorRun s (Session.run A I [.restart (some s) quota order]) e := by
    obtain ⟨e, heq, hb, hschema⟩ := Session.run_first A I (.inr (rfl : some s = some s)) quota order
    have hnil := hb.pendingOps
    rw [heq]
    refine ⟨e, rfl, hb.inv, hschema, fun id => by rw [hb.cell id]; rfl, ?_, ?_, ?_⟩
    · intro op hop
      rw [hnil] at hop
      exact nomatch hop
    · intro op hop
      rw [hnil] at hop
      exact nomatch hop
    · intro id v hop
      rw [hnil] at hop
      exact nomatch hop
  -- one step of the run
  have hstep : ∀ σ ev, (∃ e, VectorRun s σ e) → VectorStep A σ ev →
      ∃ e, VectorRun s (σ.step A I ev) e := by
    rintro σ ev ⟨e, h⟩ hev
    unfold VectorStep at hev
    rw [h.up] at hev
    cases ev with
    | restart schema quota order =>
      -- the directory is not new any more, so only an open without a schema is allowed
      cases schema with
      | none => exact h.restart A I hev quota order
      | some t => exact hev.elim
    | call c =>
      cases c with
      | insertVector id vector => exact h.write A I (w := .insertVector id vector) trivial hev
      | deleteVector id =>
        -- the call reports whether the id was there, a write only that it went through
        have hok : (e.deleteVector id).1.isOk = true := hev
        refine h.write A I (w := .deleteVector id) trivial ?_
        show Except.map _ (e.deleteVector id).1 = _
        cases hrem : (e.deleteVector id).1 with
        | error err =>
          rw [hrem] at hok
          exact nomatch hok
        | ok removed => rfl
      | _ => exact hev.elim
  obtain ⟨e, h⟩ := hrun.invariant (fun σ => ∃ e, VectorRun s σ e) hstep hstart
  -- both answers are read off the cells
  refine ⟨e, h.up, fun id => ?_, fun id => ?_⟩
  · rw [Engine.getVector_eq h.inv h.schema, h.shown id]
    rfl
  · rw [Engine.lists_iff h.inv, h.shown id]
    rfl

/-- A run that meets the condition: the kill comes before the delete leaves the log. -/
theorem vectorsIntact_of_logged_delete : VectorsIntact (Session.run zeroArith noIpc
    [.restart (some flatSchema) 0 .id, .call (.insertVector 1 [0]), .call (.insertVector 2 [0]),
      .call (.deleteVector 1), .restart none 0 .id]) :=
  vectorsIntact_of_guarded (s := flatSchema) zeroArith noIpc 0 .id
    [.call (.insertVector 1 [0]), .call (.insertVector 2 [0]), .call (.deleteVector 1),
      .restart none 0 .id]
    (by decide +kernel)

/-- A delete is gone after the second kill: the first recovery took it out of the log. -/
theorem deleted_visible_after_two_kills : ∃ e,
    (Session.run zeroArith noIpc [.restart (some flatSchema) 0 .id, .call (.insertVector 1 [0]),
      .call (.deleteVector 1), .restart none 0 .id, .restart none 0 .id]).host = .up e ∧
    e.getVector 1 = .ok (some [0]) := by
  refine ⟨_, rfl, ?_⟩
  decide +kernel

end FusionStore
