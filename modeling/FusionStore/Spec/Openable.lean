import FusionStore.Spec.SessionCorrect

/-!
# Directories that open

Every call is logged before it is checked, and `Engine::open` sends the log through the
same checks again.  `opens_iff_openable` says which directories open at all, in terms of
the operations in the log, the schema and the quota counter; `columnarSurvives_iff` says
what becomes of columnar tables, whose store is never open during recovery.
-/

namespace FusionStore

/-- The logged operations are ones their submodules accept, and the quota accounting,
    repeated over them, stays within the limit. -/
def EngineDir.Openable (quota : Nat) (d : EngineDir) : Prop :=
  (∀ op ∈ d.wal.pendingOps, op.Replayable d.schema) ∧
    QuotaFits quota d.kv.env.volatile.used d.kv.lenOf d.wal.pendingOps

instance (quota : Nat) (d : EngineDir) : Decidable (d.Openable quota) :=
  inferInstanceAs (Decidable (_ ∧ _))

variable {s : VectorSchema} (A : F32Arith) (I : Ipc)

theorem Engine.open_none_iff {d : EngineDir} (h : d.Inv s) (quota : Nat) (order : MapOrder) :
    (∃ e, (Engine.open A I d none quota order).1 = .ok e) ↔ d.Openable quota := by
  obtain ⟨e₀, hres, hschema⟩ := restores_none A I h quota order
  rw [hres.ok_iff, hschema]
  rfl

/-- Whatever happened in a session, its directory opens if and only if every operation
    that the log still holds above the marker is one its submodule would accept. -/
theorem opens_iff_openable {es : List Event} (hes : ∀ ev ∈ es, ev.Uses s) (quota : Nat)
    (order : MapOrder) :
    (∃ e, (Engine.open A I (Session.run A I es).host.dir none quota order).1 = .ok e) ↔
      (Session.run A I es).host.dir.Openable quota :=
  Engine.open_none_iff A I (Session.inv_run A I hes).dir quota order

theorem opens_after_overwrite : ∃ e, (Engine.open zeroArith noIpc
    (Session.run zeroArith noIpc [.restart none 3 .id, .call (.putKv [97] [1, 2] true),
      .call (.deleteKv [98] true), .call (.putKv [97] [3] true)]).host.dir none 3 .id).1 = .ok e :=
  (opens_iff_openable (s := ⟨1, .l2, 64⟩) zeroArith noIpc (by simp [Event.Uses]) 3 .id).mpr
    (by decide +kernel)

/-- A put with an empty key is rejected, but not before it is in the log. -/
theorem open_fails_after_empty_key :
    (Engine.open zeroArith noIpc
      (Session.run zeroArith noIpc
        [.restart none 0 .id, .call (.putKv [] [1] true)]).host.dir none 0 .id).1 =
      .error (.invalidKey "empty key rejected") := by
  rfl

/-! ### Columnar tables -/

/-- The last table acknowledged under `tableId`. -/
def lastTable (tableId : String) (acked : List Call) : Option RecordBatch :=
  acked.reverse.findSome? fun
    | .putColumnar t batch _ => if t = tableId then some batch else none
    | _ => none

/-- Every acknowledged table is there after a restart without a schema. -/
def ColumnarSurvives (σ : Session) (quota : Nat) (order : MapOrder) : Prop :=
  ∃ e, (Engine.open A I σ.host.dir none quota order).1 = .ok e ∧
    ∀ tableId batch, lastTable tableId σ.acked = some batch →
      ∃ out, e.getColumnarZeroCopy tableId [] = .ok (some out) ∧
        out.numRows = batch.numRows ∧ out.columns = batch.columns

/-- The steps of a run of acknowledged `put_columnar` calls and checkpoints. -/
def ColumnarStep (s : VectorSchema) (σ : Session) : Event → Prop
  | .call (.putColumnar tableId batch locked) =>
    ∃ e, σ.host = .up e ∧ (e.putColumnar I tableId batch locked).1 = .ok ()
  | .call .checkpoint => True
  | .call .close => True
  | .call _ => False
  | .restart schema _ _ => schema = none ∨ schema = some s

namespace Engine

variable {e e' : Engine}

theorem col_replayAll {c : ColDir} (hcol : e.col = .closed c) {p : List WalEntry}
    {r : Except StoreError Unit} (hr : e.replayAll A I p = (r, e')) : e'.col = .closed c := by
  induction p generalizing e with
  | nil =>
    obtain ⟨-, rfl⟩ := Prod.mk.inj hr
    exact hcol
  | cons entry p ih =>
    unfold replayAll at hr
    split at hr
    · rename_i heq
      obtain ⟨-, rfl⟩ := Prod.mk.inj hr
      exact col_replayOp A I hcol heq
    · rename_i heq
      exact ih (col_replayOp A I hcol heq) hr

/-- Recovery opens no columnar store and at most shortens the log. -/
theorem recoverInner_frame (h : e.Inv s) {c : ColDir} (hcol : e.col = .closed c)
    {r : Except StoreError Unit} (hr : e.recoverInner A I = (r, e')) :
    e'.col = .closed c ∧ e'.wal.dir.entries ⊆ e.wal.dir.entries := by
  simp only [recoverInner] at hr
  split at hr
  · obtain ⟨-, rfl⟩ := Prod.mk.inj hr
    exact ⟨hcol, fun _ hx => hx⟩
  · split at hr
    · rename_i heq
      obtain ⟨-, rfl⟩ := Prod.mk.inj hr
      refine ⟨col_replayAll A I hcol heq, fun x hx => ?_⟩
      rw [(replayAll_inv A I h heq).2.wal] at hx
      exact hx
    · rename_i e1 heq
      obtain ⟨-, rfl⟩ := Prod.mk.inj hr
      have hcol' : e1.col = .closed c := col_replayAll A I hcol heq
      refine ⟨hcol', fun x hx => ?_⟩
      have hx' : x ∈ e1.wal.dir.entries := (List.mem_filter.mp hx).1
      rw [(replayAll_inv A I h heq).2.wal] at hx'
      exact hx'

theorem Restores.frame {d : EngineDir} {schema : Option VectorSchema} {quota : Nat}
    {order : MapOrder} {start : NodeId → Cell} {e₀ : Engine}
    (hres : Restores A I s d schema quota order start e₀) :
    («open» A I d schema quota order).2.wal.entries ⊆ d.wal.entries ∧
      ∀ e, («open» A I d schema quota order).1 = .ok e →
        e.col = .closed d.col ∧ («open» A I d schema quota order).2 = e.dir := by
  rw [hres.eq]
  cases hrec : e₀.recoverInner A I with
  | mk r e1 =>
    obtain ⟨hcol, hent⟩ := recoverInner_frame A I hres.inv hres.col hrec
    rw [hres.wal] at hent
    cases r with
    | error err =>
      refine ⟨hent, fun e hr => ?_⟩
      exact nomatch hr
    | ok u =>
      refine ⟨hent, fun e hr => ?_⟩
      obtain ⟨rfl⟩ := hr
      exact ⟨hcol, rfl⟩

/-- `open` never adds to the log. -/
theorem entries_open {d : EngineDir} (h : d.Inv s) {schema : Option VectorSchema}
    (hs : schema = none ∨ schema = some s) (quota : Nat) (order : MapOrder) :
    («open» A I d schema quota order).2.wal.entries ⊆ d.wal.entries ∧
      ∀ e, («open» A I d schema quota order).1 = .ok e →
        e.wal.dir.entries ⊆ d.wal.entries := by
  have hall : («open» A I d schema quota order).2.wal.entries ⊆ d.wal.entries ∧
      ∀ e, («open» A I d schema quota order).1 = .ok e →
        («open» A I d schema quota order).2 = e.dir := by
    rcases hs with rfl | rfl
    · obtain ⟨e₀, hres, -⟩ := restores_none A I h quota order
      obtain ⟨hent, hok⟩ := hres.frame
      exact ⟨hent, fun e he => (hok e he).2⟩
    · cases hload : Snapshot.load d.vec.snapshot with
      | error err =>
        rw [open_some_error A I hload]
        refine ⟨fun _ hx => hx, fun e he => ?_⟩
        exact nomatch he
      | ok g =>
        obtain ⟨e₀, hres, -⟩ := restores_some A I h hload quota order
        obtain ⟨hent, hok⟩ := hres.frame
        exact ⟨hent, fun e he => (hok e he).2⟩
  obtain ⟨hent, hok⟩ := hall
  refine ⟨hent, fun e he => ?_⟩
  rw [hok e he] at hent
  exact hent

end Engine

/-- Whether a call writes a table. -/
def Call.IsTable : Call → Prop
  | .putColumnar .. => True
  | _ => False

/-- A run without tables leaves an empty log. -/
private theorem columnarStep_inv {σ : Session} {ev : Event}
    (h : σ.host.Inv s ∧ ((∀ c ∈ σ.acked, ¬c.IsTable) → σ.host.dir.wal.entries = []))
    (hev : ColumnarStep I s σ ev) :
    (σ.step A I ev).host.Inv s ∧
      ((∀ c ∈ (σ.step A I ev).acked, ¬c.IsTable) →
        (σ.step A I ev).host.dir.wal.entries = []) := by
  obtain ⟨hinv, hnil⟩ := h
  have huses : ev.Uses s := by
    cases ev with
    | call c => trivial
    | restart schema quota order => exact hev
  refine ⟨Session.inv_step A I hinv huses, ?_⟩
  -- a checkpoint by either name
  have hcheck : ∀ c, (∀ e : Engine, e.call A I c = (.ok (), e.checkpoint)) →
      (∀ c' ∈ (σ.step A I (.call c)).acked, ¬c'.IsTable) →
      (σ.step A I (.call c)).host.dir.wal.entries = [] := by
    intro c hc hno
    cases hh : σ.host with
    | down d =>
      simp only [Session.step, hh] at hno ⊢
      have := hnil hno
      rw [hh] at this
      exact this
    | up e =>
      rw [hh] at hinv
      simp only [Session.step, hh, hc]
      show e.checkpoint.wal.dir.entries = []
      rw [Engine.wal_checkpoint hinv]
  cases ev with
  | restart schema quota order =>
    intro hno
    obtain ⟨hleft, hup⟩ := Engine.entries_open A I hinv.dir huses quota order
    have hstay : (σ.step A I (.restart schema quota order)).acked = σ.acked := by
      simp only [Session.step]
      cases Engine.open A I σ.host.dir schema quota order with
      | mk r d => cases r <;> rfl
    rw [hstay] at hno
    rw [hnil hno] at hleft hup
    simp only [Session.step]
    cases hop : Engine.open A I σ.host.dir schema quota order with
    | mk r d =>
      rw [hop] at hleft hup
      cases r with
      | error err => exact List.subset_nil.mp hleft
      | ok e => exact List.subset_nil.mp (hup e rfl)
  | call c =>
    cases c with
    | checkpoint => exact hcheck .checkpoint fun _ => rfl
    | close => exact hcheck .close fun _ => rfl
    | putColumnar tableId batch locked =>
      -- the table is acknowledged, so there is nothing to show
      intro hno
      obtain ⟨e, hup, hok⟩ := hev
      rcases Session.step_call A I hup (.putColumnar tableId batch locked) with
        ⟨e', hc, hst⟩ | ⟨err, e', hc, -⟩
      · rw [hst] at hno
        exact absurd trivial (hno _ (List.mem_append_right _ List.mem_cons_self))
      · rw [show e.putColumnar I tableId batch locked = (.error err, e') from hc] at hok
        cases hok
    | putKv key value locked => cases hev
    | deleteKv key locked => cases hev
    | insertVector id vector => cases hev
    | insertVectorBatch items => cases hev
    | deleteVector id => cases hev
    | compact order avail => cases hev
    | recover => cases hev

/-- Columnar data survives a restart exactly when there is none: after `open` the
    columnar store is closed for reading, and a pending table makes `open` itself fail. -/
theorem columnarSurvives_iff (es : List Event)
    (hrun : Run.Guarded (Session.step A I) (ColumnarStep I s) Session.fresh es) (quota : Nat)
    (order : MapOrder) :
    ColumnarSurvives A I (Session.run A I es) quota order ↔
      ∀ c ∈ (Session.run A I es).acked, ¬c.IsTable := by
  obtain ⟨hinv, hnil⟩ := hrun.invariant
    (fun σ => σ.host.Inv s ∧ ((∀ c ∈ σ.acked, ¬c.IsTable) → σ.host.dir.wal.entries = []))
    (fun σ ev h hev => columnarStep_inv A I h hev) ⟨EngineDir.inv_empty s, fun _ => rfl⟩
  change (Session.run A I es).host.Inv s at hinv
  change (∀ c ∈ (Session.run A I es).acked, ¬c.IsTable) →
    (Session.run A I es).host.dir.wal.entries = [] at hnil
  generalize Session.run A I es = σ at *
  constructor
  · rintro ⟨e, hop, hread⟩ c hc htab
    cases c with
    | putColumnar tableId batch locked =>
      obtain ⟨out, hout⟩ : ∃ out, lastTable tableId σ.acked = some out := by
        apply Option.isSome_iff_exists.mp
        unfold lastTable
        rw [List.findSome?_isSome_iff]
        exact ⟨_, List.mem_reverse.mpr hc, by simp⟩
      -- a restart without a schema opens no table store, so nothing can be read
      obtain ⟨e₀, hres, -⟩ := Engine.restores_none A I hinv.dir quota order
      have hcol := (hres.frame.2 e hop).1
      obtain ⟨batch', hget, -⟩ := hread tableId out hout
      simp only [Engine.getColumnarZeroCopy, Engine.ensureCol, hcol] at hget
      cases hget
    | _ => exact htab
  · intro hno
    -- without tables the log is empty and any open succeeds
    have hpend : σ.host.dir.wal.pendingOps = [] := by
      unfold LogDir.pendingOps LogDir.pending
      rw [hnil hno]
      rfl
    obtain ⟨e, he⟩ := (Engine.open_none_iff A I hinv.dir quota order).mpr (by
      unfold EngineDir.Openable
      rw [hpend]
      exact ⟨by simp, trivial⟩)
    refine ⟨e, he, fun tableId batch hlast => ?_⟩
    obtain ⟨c, hc, hsome⟩ := List.exists_of_findSome?_eq_some hlast
    cases c with
    | putColumnar t b locked =>
      exact absurd trivial (hno _ (List.mem_reverse.mp hc))
    | _ => cases hsome

theorem columnarSurvives_of_checkpoint : ColumnarSurvives zeroArith noIpc
    (Session.run zeroArith noIpc [.restart none 0 .id, .call .checkpoint]) 0 .id :=
  (columnarSurvives_iff (s := ⟨1, .l2, 64⟩) zeroArith noIpc
    [.restart none 0 .id, .call .checkpoint] ⟨Or.inl rfl, trivial, trivial⟩ 0 .id).mpr (by
      show ∀ c ∈ [Call.checkpoint], ¬c.IsTable
      simp [Call.IsTable])

/-- One table of one row. -/
private def oneRow : RecordBatch := ⟨1, [⟨"x", .int32, 0, [7, 0, 0, 0]⟩], by decide⟩

/-- An Arrow codec that is lossless on it. -/
private def oneRowIpc : Ipc := ⟨fun _ => .ok [1], fun _ => .ok oneRow⟩

/-- One acknowledged table: a kill makes the directory unopenable, and after a close it
    opens but the table cannot be read. -/
theorem columnar_lost_after_put :
    let put := [.restart none 0 .id, .call (.putColumnar "t" oneRow true)]
    let killed := Session.run zeroArith oneRowIpc put
    let closed := Session.run zeroArith oneRowIpc (put ++ [.call .close])
    lastTable "t" killed.acked = some oneRow ∧
      (Engine.open zeroArith oneRowIpc killed.host.dir none 0 .id).1 = .error .notFound ∧
      ∃ e, (Engine.open zeroArith oneRowIpc closed.host.dir none 0 .id).1 = .ok e ∧
        e.getColumnarZeroCopy "t" [] = .error .notFound := by
  refine ⟨rfl, rfl, _, rfl, rfl⟩

end FusionStore
