import FusionStore.Spec.Openable

/-!
# Keys across restarts

The KV contents depend on three files that are restored independently: the locator
table, the `active.cursor` sidecar and the log.  A restart is harmless when every key
whose value lies behind the recorded cursor is written again by the log; otherwise the
pool resumes in front of a live value and the next put overwrites it.
-/

namespace FusionStore

/-! ### Keeping up with the acknowledged operations -/

/-- The value of `key` after the operations `ops`. -/
def lastValue (key : Bytes) (ops : List WalOp) : Option Bytes := (lastEffect key ops).join

/-- What the last KV operation says of a key, one operation later. -/
theorem lastValue_concat (key : Bytes) (ops : List WalOp) (op : WalOp) :
    lastValue key (ops ++ [op]) = match kvEffect key op with
      | some eff => eff
      | none => lastValue key ops := by
  unfold lastValue
  rw [lastEffect_concat]
  cases kvEffect key op <;> rfl

/-- A store that shows exactly what the operations `ops` leave. -/
structure KvStore.Shows (kv : KvStore) (ops : List WalOp) : Prop where
  good : ∀ key, kv.Good key
  view : ∀ key, kv.view key = lastValue key ops

/-- A store that shows a history and takes an operation shows the longer history. -/
theorem KvStore.Effect.shows {kv kv' : KvStore} {op : WalOp} {ops : List WalOp}
    (heff : kv.Effect kv' op) (h : kv.Shows ops) : kv'.Shows (ops ++ [op]) := by
  have hkey : ∀ key, kv'.Good key ∧ kv'.view key = lastValue key (ops ++ [op]) := by
    intro key
    rw [lastValue_concat]
    cases hk : kvEffect key op with
    | some eff => exact heff.touched key eff hk
    | none =>
      obtain ⟨hg, hv⟩ := heff.untouched key hk (h.good key)
      exact ⟨hg, hv.trans (h.view key)⟩
  exact ⟨fun key => (hkey key).1, fun key => (hkey key).2⟩

/-- The log agrees with the store: what it would write is what is there. -/
def KvStore.Agrees (kv : KvStore) (log : List WalOp) : Prop :=
  ∀ key eff, lastEffect key log = some eff → kv.view key = eff

/-- A store that agrees with its log agrees with the longer log, too. -/
theorem KvStore.Effect.agrees_concat {kv kv' : KvStore} {op : WalOp} {log : List WalOp}
    (heff : kv.Effect kv' op) (hg : ∀ key, kv.Good key) (h : kv.Agrees log) :
    kv'.Agrees (log ++ [op]) := by
  intro key eff hk
  rw [lastEffect_concat] at hk
  cases hop : kvEffect key op with
  | some eff' =>
    rw [hop, Option.some_or, Option.some.injEq] at hk
    exact hk ▸ (heff.touched key eff' hop).2
  | none =>
    rw [hop, Option.none_or] at hk
    exact ((heff.untouched key hop (hg key)).2).trans (h key eff hk)

/-- Logging and applying one operation: the log still agrees, whether or not its number
    is above the marker. -/
theorem agrees_append {kv kv' : KvStore} {w w' : WalLog} {op : WalOp} {seq : Nat} (hw : w.Inv)
    (happ : w.append op = .ok (seq, w')) (heff : kv.Effect kv' op) (hg : ∀ key, kv.Good key)
    (h : kv.Agrees w.dir.pendingOps) : kv'.Agrees w'.dir.pendingOps := by
  rw [WalLog.pending_append happ]
  split
  · exact heff.agrees_concat hg h
  · rename_i hlt
    -- nothing is pending below the marker
    have hnil : w.dir.pendingOps = [] :=
      LogDir.pendingOps_nil (WalLog.pending_eq_nil hw (by omega))
    rw [hnil]
    intro key eff hk
    exact nomatch hk

/-- What is pending after an append was pending before, or was appended. -/
theorem mem_pending_append {w w' : WalLog} {op op' : WalOp} {seq : Nat}
    (happ : w.append op = .ok (seq, w')) (hmem : op' ∈ w'.dir.pendingOps) :
    op' ∈ w.dir.pendingOps ∨ op' = op := by
  rw [WalLog.pending_append happ, List.mem_append] at hmem
  rcases hmem with hmem | hmem
  · exact Or.inl hmem
  · split at hmem
    · exact Or.inr (List.mem_singleton.mp hmem)
    · exact nomatch hmem

/-! ### Runs -/

/-- Every key behind the recorded cursor is written again by the log. -/
def EngineDir.CursorCovers (d : EngineDir) : Prop :=
  ∀ key ∈ d.kv.env.volatile.db.keys,
    d.kv.Covered key ∨ lastEffect key d.wal.pendingOps ≠ none

instance (d : EngineDir) : Decidable d.CursorCovers :=
  List.decidableBAll _ _

/-- The 64-bit usage counter has room for the values in the log. -/
def Engine.HasRoom (e : Engine) : Prop :=
  e.kv.env.volatile.used + loggedBytes e.wal.dir.pendingOps ≤ u64Max

/-- The keys and values the store is made for. -/
def ValidKey (key : Bytes) : Prop := key ≠ [] ∧ key.length ≤ lmdbMaxKey

/-- The steps of a run on keys, without a quota: calls get the write lock, the usage
    counter does not overflow, and each restart meets `CursorCovers`. -/
def KvStep (σ : Session) (ev : Event) : Prop :=
  match σ.host, ev with
  | .up e, .call (.putKv key value locked) =>
    (ValidKey key ∧ value.length ≤ defaultSegmentSize) ∧ locked = true ∧
      e.kv.env.volatile.used + value.length ≤ u64Max
  | .up _, .call (.deleteKv key locked) => ValidKey key ∧ locked = true
  | .up _, .call .checkpoint => True
  | .up _, .call .close => True
  | .up e, .call .recover => e.HasRoom
  | .up e, .restart _ quota _ => quota = 0 ∧ e.HasRoom ∧ e.dir.CursorCovers
  | _, _ => False

instance (σ : Session) (ev : Event) : Decidable (KvStep σ ev) := by
  unfold KvStep Engine.HasRoom ValidKey
  split <;> infer_instance

/-- Every key reads as its last acknowledged write. -/
def KvIntact (σ : Session) : Prop :=
  ∃ e, σ.host = .up e ∧ ∀ key, key ≠ [] → e.getKvZeroCopy key = .ok (lastValue key σ.ops)

/-- What a run on keys keeps. -/
private structure KvRun (s : VectorSchema) (σ : Session) (e : Engine) : Prop where
  up : σ.host = .up e
  inv : e.Inv s
  empty : ∀ id, e.cell id = .absent
  col : ∃ c, e.col = .closed c
  quota : e.kv.quotaLimit = 0
  shows : e.kv.Shows σ.ops
  agrees : e.kv.Agrees e.wal.dir.pendingOps
  replays : ∀ op ∈ e.wal.dir.pendingOps, ∀ t, op.Replayable t

variable {s : VectorSchema} {σ : Session} {e : Engine} (A : F32Arith) (I : Ipc)

/-- A call that could not be logged changes nothing. -/
theorem Session.step_unlogged (hup : σ.host = .up e) {locked : Bool} {w : Write}
    {err : StoreError} (hw : e.wal.append w.op = .error err) :
    σ.step A I (.call (w.call locked)) = ⟨.up e, σ.acked⟩ := by
  simp only [Session.step, hup, Engine.call_write, hw]
  unfold WalLog.append at hw
  split at hw
  · cases hw
    rfl
  · cases hw

/-- A batch that the log refuses changes nothing. -/
theorem Session.step_unlogged_batch (hup : σ.host = .up e) {items : List (NodeId × List F32)}
    {err : StoreError}
    (hw : e.wal.appendBatch (items.map fun i => .insertVector i.1 i.2) = .error err) :
    σ.step A I (.call (.insertVectorBatch items)) = ⟨.up e, σ.acked⟩ := by
  simp only [Session.step, hup, Engine.call, Engine.insertVectorBatch, hw]
  unfold WalLog.appendBatch at hw
  split at hw
  · cases hw
    rfl
  · cases hw

/-- A KV write that is applied keeps the invariant of the runs. -/
private theorem KvRun.write (h : KvRun s σ e) {w : Write} (hrep : ∀ t, w.op.Replayable t)
    (hok : ∀ wal, (({ e with wal } : Engine).apply A true w).1 = .ok ()) :
    ∃ e', KvRun s (σ.step A I (.call (w.call true))) e' := by
  cases hw : e.wal.append w.op with
  -- refused by the log: nothing happens
  | error err =>
    rw [Session.step_unlogged A I h.up hw]
    exact ⟨e, rfl, h.inv, h.empty, h.col, h.quota, h.shows, h.agrees, h.replays⟩
  | ok p =>
    have hcall : (e.call A I (w.call true)).1 = .ok () := by
      rw [Engine.call_write, hw]
      exact hok p.2
    obtain ⟨seq, wal, e', hw', happ, hst⟩ := Session.step_write A I h.up hcall
    -- logged, applied, acknowledged
    have hlog := Engine.inv_logged h.inv hw'
    obtain ⟨hinv, hframe⟩ := Engine.apply_inv A hlog happ
    obtain ⟨heff, hcell, -⟩ := Engine.apply_ok A hlog happ
    have hwal : e'.wal = wal := hframe.wal
    rw [hst]
    refine ⟨e', rfl, hinv, ?_, ?_, heff.quotaLimit.trans h.quota, ?_, ?_, ?_⟩
    · intro id
      -- no KV write touches a cell
      rw [hcell id, show ({ e with wal } : Engine).cell id = .absent from h.empty id]
      cases w with
      | putKv key value => rfl
      | deleteKv key => rfl
      | insertVector j v =>
        obtain ⟨t, ht, -⟩ := hrep none
        cases ht
      | deleteVector j => cases hrep none
    · obtain ⟨c, hc⟩ := h.col
      exact ⟨c, (Engine.col_apply A happ).trans hc⟩
    · rw [Session.ops_acked, Write.ops_call]
      exact heff.shows h.shows
    · rw [hwal]
      exact agrees_append h.inv.wal hw' heff h.shows.good h.agrees
    · -- the new entry can be replayed under any schema
      intro op hop t
      rw [hwal] at hop
      rcases mem_pending_append hw' hop with hop | rfl
      · exact h.replays op hop t
      · exact hrep t

/-- So does a checkpoint, which empties the log. -/
private theorem KvRun.checkpoint (h : KvRun s σ e) (c : Call) (hops : c.ops = [])
    (hc : e.call A I c = (.ok (), e.checkpoint)) :
    ∃ e', KvRun s (σ.step A I (.call c)) e' := by
  have hst : σ.step A I (.call c) = ⟨.up e.checkpoint, σ.acked ++ [c]⟩ := by
    simp only [Session.step, h.up, hc]
  have hpend := LogDir.pendingOps_nil (Engine.pending_checkpoint h.inv)
  rw [hst]
  refine ⟨e.checkpoint, rfl, Engine.inv_checkpoint h.inv, ?_, ?_, ?_, ?_, ?_, ?_⟩
  · -- stores and history are as before
    intro id
    rw [Engine.cell_checkpoint, h.empty id]
  · obtain ⟨d, hd⟩ := h.col
    exact ⟨d, Engine.col_checkpoint hd⟩
  · rw [Engine.kv_checkpoint]
    exact h.quota
  · rw [Engine.kv_checkpoint, Session.ops_acked, hops, List.append_nil]
    exact ⟨h.shows.good, h.shows.view⟩
  · -- and nothing is pending
    rw [hpend]
    intro key eff hk
    cases hk
  · rw [hpend]
    intro op hop
    cases hop

/-- So does a recovery in place: it writes what is there already. -/
private theorem KvRun.recover (h : KvRun s σ e) (hroom : e.HasRoom) :
    ∃ e', KvRun s (σ.step A I (.call .recover)) e' := by
  obtain ⟨c, hcol⟩ := h.col
  -- the replay fits, for there is no quota and the counter has room
  have hok : (e.recoverInner A I).1 = .ok () := by
    rw [Engine.recoverInner_ok_iff A I h.inv hcol, h.quota]
    exact ⟨fun op hop => h.replays op hop _, quotaFits_of_room hroom⟩
  cases hrec : e.recoverInner A I with
  | mk r e' =>
    rw [hrec] at hok
    simp only at hok
    subst hok
    have hst : σ.step A I (.call .recover) = ⟨.up e', σ.acked ++ [.recover]⟩ := by
      simp only [Session.step, h.up, Engine.call, Engine.recover, hrec]
    obtain ⟨hrep, hpend, -⟩ := Engine.recoverInner_ok A I h.inv hrec
    have hnil := LogDir.pendingOps_nil hpend
    -- what the log writes is what was there already
    have hkey : ∀ key, e'.kv.Good key ∧ e'.kv.view key = e.kv.view key := by
      intro key
      cases hk : lastEffect key e.wal.dir.pendingOps with
      | none => exact hrep.untouched key hk (h.shows.good key)
      | some eff =>
        obtain ⟨hg, hv⟩ := hrep.touched key eff hk
        exact ⟨hg, hv.trans (h.agrees key eff hk).symm⟩
    rw [hst]
    refine ⟨e', rfl, (Engine.recoverInner_inv A I h.inv hrec).1, ?_,
      ⟨c, (Engine.recoverInner_frame A I h.inv hcol hrec).1⟩, hrep.quotaLimit.trans h.quota,
      ⟨fun key => (hkey key).1, fun key => ?_⟩, ?_, ?_⟩
    · -- the log names no vector, so no cell comes up
      intro id
      rw [hrep.cell id, h.empty id]
      apply Cell.applyAll_absent
      intro v hmem
      obtain ⟨t, ht, -⟩ := h.replays _ hmem none
      cases ht
    · rw [Session.ops_acked, show Call.recover.ops = [] from rfl, List.append_nil, (hkey key).2,
        h.shows.view key]
    · rw [hnil]
      intro key eff hk
      cases hk
    · rw [hnil]
      intro op hop
      cases hop

/-- A restart that gets as far as the replay. -/
private theorem KvRun.restored (h : KvRun s σ e) (hroom : e.HasRoom) (hcov : e.dir.CursorCovers)
    {t : VectorSchema} {schema : Option VectorSchema} {order : MapOrder}
    {start : NodeId → Cell} {e₀ : Engine}
    (hres : Engine.Restores A I t e.dir schema 0 order start e₀)
    (hstart : ∀ id, start id = .absent) :
    ∃ e', KvRun t (σ.step A I (.restart schema 0 order)) e' := by
  -- the replay succeeds, so the engine is up
  obtain ⟨e', hop⟩ := hres.ok_iff.mpr
    ⟨fun op hop => h.replays op hop _, quotaFits_of_room hroom⟩
  obtain ⟨hrec, -⟩ := hres.recovered h.inv.dir.kv hop
  have hst : σ.step A I (.restart schema 0 order) = ⟨.up e', σ.acked⟩ := by
    simp only [Session.step, h.up, Host.dir]
    cases hfull : Engine.open A I e.dir schema 0 order with
    | mk r left =>
      rw [hfull] at hop
      subst hop
      rfl
  have hnil := LogDir.pendingOps_nil hrec.pending
  have hkey : ∀ key, e'.kv.Good key ∧ e'.kv.view key = e.kv.view key := by
    intro key
    cases hk : lastEffect key e.dir.wal.pendingOps with
    -- the log ends at the value that was shown
    | some eff =>
      obtain ⟨hg, hv⟩ := hrec.touched key eff hk
      exact ⟨hg, hv.trans (h.agrees key eff hk).symm⟩
    | none =>
      -- the log does not mention the key, so its value must lie before the cursor
      have hcovered : e.dir.kv.Covered key := by
        by_cases hmem : key ∈ e.dir.kv.env.volatile.db.keys
        · exact (hcov key hmem).resolve_right fun hn => hn hk
        · intro loc hl
          rw [AList.lookup_eq_none.mpr (AList.mem_keys.not.mpr hmem)] at hl
          cases hl
      exact hrec.untouched key hk hcovered
  rw [hst]
  refine ⟨e', rfl, hrec.inv, ?_, ⟨_, ((hres.frame A I).2 e' hop).1⟩, hrec.quotaLimit,
    ⟨fun key => (hkey key).1, fun key => (hkey key).2.trans (h.shows.view key)⟩, ?_, ?_⟩
  · intro id
    rw [hrec.cell id, hstart id]
    apply Cell.applyAll_absent
    intro v hmem
    obtain ⟨t, ht, -⟩ := h.replays _ hmem none
    cases ht
  · rw [hnil]
    intro key eff hk
    cases hk
  · rw [hnil]
    intro op hop
    cases hop

/-- So does a restart, with or without a schema. -/
private theorem KvRun.restart (h : KvRun s σ e) (hroom : e.HasRoom) (hcov : e.dir.CursorCovers)
    (schema : Option VectorSchema) (order : MapOrder) :
    ∃ t e', KvRun t (σ.step A I (.restart schema 0 order)) e' := by
  have hd := h.inv.dir
  have hno : ∀ id, e.dir.vec.stored id = none := by
    intro id
    rw [Engine.stored_dir h.inv id, h.empty id]
    rfl
  cases schema with
  | none =>
    obtain ⟨e₀, hres, -⟩ := Engine.restores_none A I hd 0 order
    refine ⟨s, h.restored A I hroom hcov hres fun id => ?_⟩
    rw [Engine.reopenedCell, hno id]
  | some t =>
    -- any schema will do for an index without vectors
    have hblank := hd.vec.blank fun id => Option.map_eq_none_iff.mp (hno id)
    obtain ⟨e₀, hres, -⟩ := Engine.restores_blank A I hd.kv hd.wal hblank t 0 order
    exact ⟨t, h.restored A I hroom hcov hres fun _ => rfl⟩

/-- A run on keys whose restarts all meet `CursorCovers` keeps every acknowledged write. -/
theorem kvIntact_of_guarded (schema : Option VectorSchema) (order : MapOrder) (es : List Event)
    (hrun : Run.Guarded (Session.step A I) KvStep
      (Session.run A I [.restart schema 0 order]) es) :
    KvIntact (Session.run A I (.restart schema 0 order :: es)) := by
  -- the first open shows nothing, and no operation has been acknowledged
  have hstart : ∃ s e, KvRun s (Session.run A I [.restart schema 0 order]) e := by
    obtain ⟨s, hs⟩ := exists_schema schema
    obtain ⟨e, heq, hb, -⟩ := Session.run_first A I hs 0 order
    have hnil := hb.pendingOps
    rw [heq]
    refine ⟨s, e, rfl, hb.inv, hb.cell, ⟨_, hb.col⟩, by rw [hb.kv]; rfl, ⟨hb.good, hb.view⟩, ?_, ?_⟩
    · intro key eff hk
      rw [hnil] at hk
      exact nomatch hk
    · intro op hop
      rw [hnil] at hop
      exact nomatch hop
  have hstep : ∀ σ ev, (∃ s e, KvRun s σ e) → KvStep σ ev →
      ∃ s e, KvRun s (σ.step A I ev) e := by
    -- each step of the condition keeps the invariant
    rintro σ ev ⟨s, e, h⟩ hev
    unfold KvStep at hev
    rw [h.up] at hev
    cases ev with
    | restart schema quota order =>
      obtain ⟨rfl, hroom, hcov⟩ := hev
      exact h.restart A I hroom hcov schema order
    | call c =>
      cases c with
      | putKv key value locked =>
        obtain ⟨⟨hkey, hval⟩, rfl, hroom⟩ := hev
        refine ⟨s, h.write A I (w := .putKv key value) (fun t => ⟨hkey.1, hkey.2, hval⟩) ?_⟩
        intro wal
        -- the counter has room, and without a quota nothing else can refuse the put
        have hfit : e.kv.newUsed key value ≤ u64Max := by
          unfold KvStore.newUsed
          omega
        have hacc : e.kv.Accepts key value := ⟨hkey.1, hkey.2, hfit, Or.inl h.quota, hval⟩
        rcases KvStore.putKv_cases h.inv.kv key value true with ⟨-, -, loc, pool, he, -⟩ | ⟨hn, -⟩
        · simp only [Engine.apply, he]
        · exact absurd ⟨rfl, hacc⟩ hn
      | deleteKv key locked =>
        obtain ⟨hkey, rfl⟩ := hev
        refine ⟨s, h.write A I (w := .deleteKv key) (fun t => hkey.1) ?_⟩
        intro wal
        -- the key was there, it was not, or the call was refused
        rcases KvStore.deleteKv_cases e.kv key true with ⟨-, -, he⟩ | ⟨-, -, -, he⟩ | ⟨hn, -⟩
        · simp only [Engine.apply, he]
          rfl
        · simp only [Engine.apply, he]
          rfl
        · exact absurd ⟨rfl, hkey.1⟩ hn
      | checkpoint => exact ⟨s, h.checkpoint A I .checkpoint rfl rfl⟩
      | close => exact ⟨s, h.checkpoint A I .close rfl rfl⟩
      | recover => exact ⟨s, h.recover A I hev⟩
      | _ => exact hev.elim
  obtain ⟨s, e, h⟩ := hrun.invariant (fun σ => ∃ s e, KvRun s σ e) hstep hstart
  -- `get` reads what the history says
  refine ⟨e, h.up, fun key hne => ?_⟩
  rw [Engine.getKvZeroCopy_eq (h.shows.good key) hne, h.shows.view key]
  rfl

/-- A run that meets the condition: each kill comes after a checkpoint. -/
theorem kvIntact_of_covered_kill : KvIntact (Session.run zeroArith noIpc
    [.restart none 0 .id, .call (.putKv [97] [1] true), .call .checkpoint, .restart none 0 .id,
      .call (.putKv [98] [2] true), .call .checkpoint, .restart none 0 .id,
      .call (.putKv [99] [3] true)]) :=
  kvIntact_of_guarded zeroArith noIpc none .id
    [.call (.putKv [97] [1] true), .call .checkpoint, .restart none 0 .id,
      .call (.putKv [98] [2] true), .call .checkpoint, .restart none 0 .id,
      .call (.putKv [99] [3] true)] (by decide +kernel)

/-- A recovered value lies behind the recorded cursor; after one more kill the next put
    overwrites it. -/
theorem value_overwritten_after_two_kills : ∃ e,
    (Session.run zeroArith noIpc
      [.restart none 0 .id, .call (.putKv [97] [1] true), .call .checkpoint,
        .call (.putKv [98] [2] true), .restart none 0 .id, .restart none 0 .id,
        .call (.putKv [99] [3] true)]).host = .up e ∧
    e.getKvZeroCopy [98] = .ok (some [3]) := by
  refine ⟨_, rfl, ?_⟩
  decide +kernel

end FusionStore
