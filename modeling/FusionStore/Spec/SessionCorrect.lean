import FusionStore.Native.Session
import FusionStore.Spec.ReplayAccepts

/-!
# Calls and sessions

What one call does to the map and to the cells of an engine, and the invariant of
every session.  A write is its log entry followed by `Engine.apply`, and `apply` leaves
the state that replaying the same operation would leave (`apply_replayOp`), so the
lemmas about replay serve the calls as well.
-/

namespace FusionStore

/-- An Arrow library that fails on everything: for runs without columnar data. -/
def noIpc : Ipc := ⟨fun _ => .error .notFound, fun _ => .error .notFound⟩

/-- Arithmetic that is right on zeros, which is all that fixed runs compute with. -/
def zeroArith : F32Arith := ⟨fun a _ => a, fun a _ => a, fun a _ => a, fun a _ => a, fun a => a⟩

/-- Vectors of one component, for fixed runs. -/
def flatSchema : VectorSchema := .new 1 .l2

namespace Engine

variable {s : VectorSchema} {e e' : Engine} (A : F32Arith) (I : Ipc)

/-! ### Writes -/

/-- A write is logged, then applied. -/
theorem call_write (e : Engine) (locked : Bool) (w : Write) :
    e.call A I (w.call locked) = match e.wal.append w.op with
      | .error err => (.error err, e)
      | .ok (_, wal) => ({ e with wal } : Engine).apply A locked w := by
  cases w with
  | putKv key value => rfl
  | deleteKv key =>
    simp only [Write.call, call, deleteKv, Write.op]
    cases e.wal.append (.deleteKv key) with
    | error err => rfl
    | ok r => rfl
  | insertVector id vector => rfl
  | deleteVector id =>
    simp only [Write.call, call, deleteVector, Write.op]
    cases e.wal.append (.deleteVector id) with
    | error err => rfl
    | ok r =>
      simp only [apply, ensureVec]
      cases e.vec with
      | closed d => rfl
      | opened x => rfl

/-- Applying a write and replaying it leave the same state; what is acknowledged also
    replays without an error. -/
theorem apply_replayOp (e : Engine) (w : Write) :
    (e.replayOp A I w.op).2 = (e.apply A true w).2 ∧
      ((e.apply A true w).1 = .ok () → (e.replayOp A I w.op).1 = .ok ()) := by
  -- replay calls the same functions; only an insert treats its error differently
  cases w with
  | putKv key value => exact ⟨rfl, fun h => h⟩
  | deleteKv key => exact ⟨rfl, fun h => h⟩
  | deleteVector id =>
    unfold apply Write.op replayOp
    cases e.ensureVec with
    | error err => exact ⟨rfl, fun h => h⟩
    | ok x => exact ⟨rfl, fun h => h⟩
  | insertVector id vector =>
    unfold apply Write.op replayOp
    cases e.ensureVec with
    | error err => exact ⟨rfl, fun h => h⟩
    | ok x =>
      simp only
      cases hins : x.insert A id vector with
      | mk r y =>
        -- a duplicate is an error of the call and skipped by the replay
        cases r with
        | ok u => exact ⟨rfl, fun _ => rfl⟩
        | error err => cases err <;> exact ⟨rfl, fun h => nomatch h⟩

/-- A write that recovery would accept is acknowledged, or it is an insert of an id that
    is stored. -/
theorem apply_of_accepted {w : Write} (hr : (e.replayOp A I w.op).1 = .ok ()) :
    (e.apply A true w).1 = .ok () ∨
      ∃ id vector j, w = .insertVector id vector ∧
        (e.apply A true w).1 = .error (.duplicateVector j) := by
  cases w with
  | putKv key value => exact Or.inl hr
  | deleteKv key => exact Or.inl hr
  | deleteVector id =>
    unfold replayOp Write.op at hr
    unfold apply
    cases hv : e.ensureVec with
    -- without an index a replay of a vector delete fails
    | error err =>
      rw [hv] at hr
      exact nomatch hr
    | ok x => exact Or.inl rfl
  -- a replay accepts what is there already, a first insert does not
  | insertVector id vector =>
    unfold replayOp Write.op at hr
    unfold apply
    cases hv : e.ensureVec with
    | error err =>
      rw [hv] at hr
      exact nomatch hr
    | ok x =>
      rw [hv] at hr
      simp only at hr ⊢
      cases hins : x.insert A id vector with
      | mk r y =>
        rw [hins] at hr
        cases r with
        | ok u => exact Or.inl rfl
        | error err =>
          cases err with
          | duplicateVector j => exact Or.inr ⟨id, vector, j, rfl, rfl⟩
          | _ => exact nomatch hr

/-- Without the write lock nothing happens; vector writes do not take it. -/
theorem apply_false (e : Engine) (w : Write) :
    e.apply A false w = e.apply A true w ∨ e.apply A false w = (.error .lockBusy, e) := by
  cases w with
  | putKv key value => exact Or.inr rfl
  | deleteKv key => exact Or.inr rfl
  | insertVector id vector => exact Or.inl rfl
  | deleteVector id => exact Or.inl rfl


/-- A call after its log entry is the replay of that entry. -/
private theorem replayOp_of_apply {w : Write} {r : Except StoreError Unit}
    (hr : e.apply A true w = (r, e')) :
    ∃ r', e.replayOp A noIpc w.op = (r', e') ∧ (r = .ok () → r' = .ok ()) := by
  obtain ⟨hst, hok⟩ := apply_replayOp A noIpc e w
  rw [hr] at hst hok
  exact ⟨_, Prod.ext rfl hst, hok⟩

/-- The invariant through the second half of a write. -/
theorem apply_inv (h : e.Inv s) {locked : Bool} {w : Write} {r : Except StoreError Unit}
    (hr : e.apply A locked w = (r, e')) : e'.Inv s ∧ SameFrame e e' := by
  have hlocked : ∀ r, e.apply A true w = (r, e') → e'.Inv s ∧ SameFrame e e' := by
    intro r hr
    obtain ⟨r', hrep, -⟩ := replayOp_of_apply A hr
    exact replayOp_inv A noIpc h hrep
  cases locked with
  | true => exact hlocked r hr
  | false =>
    rcases apply_false A e w with heq | heq
    · exact hlocked r (heq.symm.trans hr)
    · rw [hr] at heq
      obtain ⟨-, rfl⟩ := Prod.mk.inj heq
      exact ⟨h, rfl, rfl, rfl⟩

/-- No write of keys or vectors touches the columnar store. -/
theorem col_apply {locked : Bool} {w : Write} {r : Except StoreError Unit}
    (hr : e.apply A locked w = (r, e')) : e'.col = e.col := by
  -- no branch of the four writes reaches the columnar store
  cases w with
  | putKv key value => exact (Prod.mk.inj hr).2 ▸ rfl
  | deleteKv key => exact (Prod.mk.inj hr).2 ▸ rfl
  | insertVector id vector =>
    unfold apply at hr
    cases hv : e.ensureVec with
    | error err =>
      rw [hv] at hr
      exact (Prod.mk.inj hr).2 ▸ rfl
    | ok x =>
      rw [hv] at hr
      exact (Prod.mk.inj hr).2 ▸ rfl
  | deleteVector id =>
    unfold apply at hr
    cases hv : e.ensureVec with
    | error err =>
      rw [hv] at hr
      exact (Prod.mk.inj hr).2 ▸ rfl
    | ok x =>
      rw [hv] at hr
      exact (Prod.mk.inj hr).2 ▸ rfl

/-- No write is columnar, so replay takes a write exactly when it is well-formed and fits. -/
theorem replayWrite_ok_iff (h : e.Inv s) (w : Write) :
    (e.replayOp A I w.op).1 = .ok () ↔ w.op.Replayable e.schema ∧
      QuotaFits e.kv.quotaLimit e.kv.env.volatile.used e.kv.lenOf [w.op] := by
  apply replayOp_ok_iff A I h
  intro tableId ipc hop
  cases w <;> exact nomatch hop

/-- An acknowledged write has its effect on every key and every id, and it would replay. -/
theorem apply_ok (h : e.Inv s) {locked : Bool} {w : Write}
    (hr : e.apply A locked w = (.ok (), e')) :
    e.kv.Effect e'.kv w.op ∧ (∀ id, e'.cell id = (e.cell id).apply id w.op) ∧
      w.op.Replayable e.schema := by
  have hlocked : e.apply A true w = (.ok (), e') := by
    cases locked with
    | true => exact hr
    | false =>
      rcases apply_false A e w with heq | heq
      · exact heq.symm.trans hr
      · rw [hr] at heq
        exact nomatch (Prod.mk.inj heq).1
  obtain ⟨r', hrep, hok⟩ := replayOp_of_apply A hlocked
  rw [hok rfl] at hrep
  obtain ⟨heff, hcell⟩ := replayOp_ok A noIpc h hrep
  exact ⟨heff, hcell, ((replayWrite_ok_iff A noIpc h w).mp (by rw [hrep])).1⟩

/-- Only a new id is inserted. -/
theorem absent_of_insert (h : e.Inv s) {locked : Bool} {id : NodeId} {vector : List F32}
    (hr : e.apply A locked (.insertVector id vector) = (.ok (), e')) :
    e.cell id = .absent ∧ e'.cell id = .live vector := by
  have hv := h.vec
  unfold apply ensureVec at hr
  cases hvec : e.vec with
  | closed d =>
    rw [hvec] at hr
    exact nomatch (Prod.mk.inj hr).1
  | opened x =>
    rw [hvec] at hr hv
    rw [cell_opened hvec]
    rcases VectorIndex.insert_cases A hv.1 id vector with ⟨-, he⟩ | ⟨-, -, he⟩ |
      ⟨-, habs, -, y, he, -, -, hself, -⟩ | ⟨-, -, -, msg, y, he, -⟩ <;>
      simp only [he, Prod.mk.injEq] at hr
    · exact nomatch hr.1
    · exact nomatch hr.1
    · obtain ⟨-, rfl⟩ := hr
      exact ⟨habs, hself⟩
    · exact nomatch hr.1

/-- A rejected write changes nothing a reader sees. -/
theorem apply_error (h : e.Inv s) {locked : Bool} {w : Write} {err : StoreError}
    (hr : e.apply A locked w = (.error err, e')) :
    (∀ key, e.kv.Good key → e'.kv.Good key ∧ e'.kv.view key = e.kv.view key) ∧
      (∀ id, e'.cell id = e.cell id) ∧ e'.kv.env = e.kv.env := by
  have hv := h.vec
  cases w with
  | putKv key value =>
    cases hput : e.kv.putKv key value locked none with
    | mk r kv =>
      simp only [apply, hput, Prod.mk.injEq] at hr
      obtain ⟨rfl, rfl⟩ := hr
      -- the pool may have rotated, the map has not changed
      obtain ⟨-, pool, rfl, -, hk⟩ := KvStore.putKv_error h.kv hput
      exact ⟨fun k hg => KvStore.good_of_keeps hk hg, fun _ => rfl, rfl⟩
  | deleteKv key =>
    cases hdel : e.kv.deleteKv key locked none with
    | mk r kv =>
      simp only [apply, hdel, Prod.mk.injEq] at hr
      obtain ⟨herr, rfl⟩ := hr
      cases r with
      | ok removed => exact nomatch herr
      | error err =>
        obtain ⟨-, rfl⟩ := KvStore.deleteKv_error hdel
        exact ⟨fun _ hg => ⟨hg, rfl⟩, fun _ => rfl, rfl⟩
  | deleteVector id =>
    unfold apply ensureVec at hr
    cases hvec : e.vec with
    -- with an index a vector delete does not fail
    | opened x =>
      rw [hvec] at hr
      exact nomatch (Prod.mk.inj hr).1
    | closed d =>
      rw [hvec] at hr
      obtain ⟨-, rfl⟩ := Prod.mk.inj hr
      exact ⟨fun _ hg => ⟨hg, rfl⟩, fun _ => rfl, rfl⟩
  | insertVector id vector =>
    unfold apply ensureVec at hr
    cases hvec : e.vec with
    | closed d =>
      rw [hvec] at hr
      obtain ⟨-, rfl⟩ := Prod.mk.inj hr
      exact ⟨fun _ hg => ⟨hg, rfl⟩, fun _ => rfl, rfl⟩
    | opened x =>
      rw [hvec] at hr hv
      have hcell := cell_opened hvec
      -- a full pool may have rotated, which moves no cell
      rcases VectorIndex.insert_cases A hv.1 id vector with ⟨-, he⟩ | ⟨-, -, he⟩ |
        ⟨-, -, -, y, he, -⟩ | ⟨-, -, -, msg, y, he, -, -, hsame⟩ <;>
        simp only [he, Prod.mk.injEq] at hr
      · obtain ⟨-, rfl⟩ := hr
        exact ⟨fun _ hg => ⟨hg, rfl⟩, fun j => (hcell j).symm, rfl⟩
      · obtain ⟨-, rfl⟩ := hr
        exact ⟨fun _ hg => ⟨hg, rfl⟩, fun j => (hcell j).symm, rfl⟩
      · -- an insert that goes through is no error
        exact nomatch hr.1
      · obtain ⟨-, rfl⟩ := hr
        exact ⟨fun _ hg => ⟨hg, rfl⟩, fun j => (hsame j).trans (hcell j).symm, rfl⟩

/-- An acknowledged write moves the accounting by its operation. -/
theorem apply_accounts (h : e.Inv s) {locked : Bool} {w : Write}
    (hr : e.apply A locked w = (.ok (), e')) :
    e'.kv.env.volatile.used = usedAfter e.kv.env.volatile.used e.kv.lenOf [w.op] ∧
      e'.kv.lenOf = lengthsAfter e.kv.lenOf [w.op] := by
  have htrue : e.apply A true w = (.ok (), e') := by
    cases locked with
    | true => exact hr
    | false =>
      rcases apply_false A e w with heq | hbusy
      · exact heq ▸ hr
      · rw [hbusy] at hr
        exact nomatch (Prod.mk.inj hr).1
  obtain ⟨r', hrep, hok⟩ := replayOp_of_apply A htrue
  rw [hok rfl] at hrep
  exact replayOp_accounts A noIpc h hrep

/-- No write shrinks the slack of the usage counter. -/
theorem slack_apply (h : e.Inv s) {locked : Bool} {w : Write} {r : Except StoreError Unit}
    (hr : e.apply A locked w = (r, e')) {p : Nat}
    (hs : Ledger.Slack p e.kv.env.volatile.used e.kv.lenOf) :
    Ledger.Slack p e'.kv.env.volatile.used e'.kv.lenOf := by
  cases r with
  | error err =>
    have henv := (apply_error A h hr).2.2
    have hlen : e'.kv.lenOf = e.kv.lenOf := by
      funext key
      unfold KvStore.lenOf
      rw [henv]
    rw [henv, hlen]
    exact hs
  | ok u =>
    obtain ⟨hused, hlen⟩ := apply_accounts A h hr
    rw [hused, hlen]
    exact slack_after hs [w.op]

/-! ### All calls -/

/-- Logging a write, whether it is then accepted or not. -/
theorem inv_logged (h : e.Inv s) {op : WalOp} {seq : Nat} {wal : WalLog}
    (hw : e.wal.append op = .ok (seq, wal)) : ({ e with wal } : Engine).Inv s :=
  ⟨h.kv, h.vec, WalLog.inv_append h.wal hw⟩

/-- The first step of a checkpoint. -/
theorem inv_flushKv (h : e.Inv s) : e.flushKv.Inv s := ⟨KvStore.inv_flush h.kv, h.vec, h.wal⟩

/-- The second. -/
theorem inv_flushCol (h : e.Inv s) : e.flushCol.Inv s := by
  unfold flushCol
  split
  · exact ⟨h.kv, h.vec, h.wal⟩
  · exact h

/-- The third. -/
theorem inv_checkpointVec (h : e.Inv s) : e.checkpointVec.Inv s := by
  have hv := h.vec
  unfold checkpointVec ensureVec
  cases hvec : e.vec with
  | closed d => exact h
  | opened x =>
    rw [hvec] at hv
    obtain ⟨hx, hs, -⟩ := VectorIndex.checkpoint_spec hv.1
    exact ⟨h.kv, ⟨hx, hs.trans hv.2⟩, h.wal⟩

/-- The invariant through a checkpoint. -/
theorem inv_checkpoint (h : e.Inv s) : e.checkpoint.Inv s := by
  have h1 := inv_checkpointVec (inv_flushCol (inv_flushKv h))
  exact ⟨h1.kv, h1.vec, WalLog.inv_truncateTo (WalLog.inv_writeMarker h1.wal _) _⟩

/-- A checkpoint empties the log behind its marker. -/
theorem wal_checkpoint (h : e.Inv s) : e.checkpoint.wal =
    ⟨⟨[], some (Wal.checkpointMarker (e.wal.nextSeq - 1))⟩, e.wal.nextSeq⟩ := by
  have hwal : e.flushKv.flushCol.checkpointVec.wal = e.wal := by
    unfold checkpointVec flushCol
    split <;> split <;> rfl
  have hentries := WalLog.entries_checkpoint h.wal (Wal.checkpointMarker (e.wal.nextSeq - 1))
  unfold checkpoint
  show (e.flushKv.flushCol.checkpointVec.wal.writeMarker _).truncateTo _ = _
  rw [hwal]
  exact congrArg (fun es => WalLog.mk ⟨es, some (Wal.checkpointMarker (e.wal.nextSeq - 1))⟩
    e.wal.nextSeq) hentries

/-- After a checkpoint there is nothing to replay. -/
theorem pending_checkpoint (h : e.Inv s) : e.checkpoint.wal.dir.pending = [] := by
  rw [wal_checkpoint h]
  rfl

/-- Its part for the KV store. -/
theorem kv_checkpoint (e : Engine) : e.checkpoint.kv = e.kv.flush := by
  show e.flushKv.flushCol.checkpointVec.kv = _
  unfold checkpointVec flushCol
  split <;> split <;> rfl

/-- The quota is a setting of the process. -/
theorem quotaLimit_checkpoint (e : Engine) : e.checkpoint.quotaLimit = e.quotaLimit := by
  show e.flushKv.flushCol.checkpointVec.quotaLimit = _
  unfold checkpointVec flushCol
  split <;> split <;> rfl

/-- A columnar store that is not open stays so. -/
theorem col_checkpoint {d : ColDir} (hcol : e.col = .closed d) :
    e.checkpoint.col = .closed d := by
  have hflush : e.flushKv.flushCol.col = .closed d := by
    unfold flushCol
    split
    · rename_i c hc
      have hclosed : e.flushKv.col = .closed d := hcol
      unfold ensureCol at hc
      rw [hclosed] at hc
      exact nomatch hc
    · exact hcol
  show e.flushKv.flushCol.checkpointVec.col = _
  unfold checkpointVec
  split <;> exact hflush

/-- The index after a checkpoint. -/
theorem vec_checkpoint (e : Engine) : e.checkpoint.vec = match e.vec with
    | .closed d => .closed d
    | .opened x => .opened x.checkpoint := by
  have hvec : e.flushKv.flushCol.vec = e.vec := by
    unfold flushCol
    split <;> rfl
  show e.flushKv.flushCol.checkpointVec.vec = _
  unfold checkpointVec ensureVec
  rw [hvec]
  cases hv : e.vec with
  | closed d =>
    simp only
    rw [hvec, hv]
  | opened x => rfl

/-- No vector changes. -/
theorem cell_checkpoint (e : Engine) (id : NodeId) : e.checkpoint.cell id = e.cell id := by
  unfold cell
  rw [vec_checkpoint]
  cases e.vec with
  | closed d => rfl
  | opened x => rfl

/-- Nor does the schema. -/
theorem schema_checkpoint (e : Engine) : e.checkpoint.schema = e.schema := by
  unfold schema
  rw [vec_checkpoint]
  cases e.vec with
  | closed d => rfl
  | opened x => rfl

/-- An engine with another state of its index and its log. -/
private theorem inv_index (h : e.Inv s) {x y : VectorIndex} (hvec : e.vec = .opened x)
    (hy : y.Inv) (hys : y.schema = x.schema) {wal : WalLog} (hw : wal.Inv) :
    ({ e with wal, vec := .opened y } : Engine).Inv s ∧
      ({ e with wal, vec := .opened y } : Engine).schema = e.schema := by
  have hv := h.vec
  rw [hvec] at hv
  refine ⟨⟨h.kv, ⟨hy, hys.trans hv.2⟩, hw⟩, ?_⟩
  simp only [schema, hvec, hys]

/-- The four writes share their log entry. -/
private theorem call_write_inv (h : e.Inv s) (locked : Bool) (w : Write)
    {r : Except StoreError Unit} (hr : e.call A I (w.call locked) = (r, e')) :
    e'.Inv s ∧ e'.quotaLimit = e.quotaLimit ∧ e'.schema = e.schema := by
  rw [call_write] at hr
  cases hw : e.wal.append w.op with
  | error err =>
    rw [hw] at hr
    obtain ⟨-, rfl⟩ := Prod.mk.inj hr
    exact ⟨h, rfl, rfl⟩
  | ok p =>
    obtain ⟨seq, wal⟩ := p
    rw [hw] at hr
    obtain ⟨h1, hf⟩ := apply_inv A (inv_logged h hw) hr
    exact ⟨h1, hf.quotaLimit, hf.schema⟩

/-- The invariant through a batch. -/
private theorem insertVectorBatch_inv (h : e.Inv s) {items : List (NodeId × List F32)}
    {r : Except StoreError Unit} (hr : e.insertVectorBatch A items = (r, e')) :
    e'.Inv s ∧ e'.quotaLimit = e.quotaLimit ∧ e'.schema = e.schema := by
  unfold insertVectorBatch at hr
  cases hw : e.wal.appendBatch (items.map fun i => .insertVector i.1 i.2) with
  -- the log refused the batch
  | error err =>
    rw [hw] at hr
    obtain ⟨-, rfl⟩ := Prod.mk.inj hr
    exact ⟨h, rfl, rfl⟩
  | ok p =>
    obtain ⟨seq, wal⟩ := p
    have hwal := WalLog.inv_appendBatch h.wal hw
    rw [hw] at hr
    simp only [ensureVec] at hr
    cases hvec : e.vec with
    | closed d =>
      -- logged, although there is no index to insert into
      rw [hvec] at hr
      obtain ⟨-, rfl⟩ := Prod.mk.inj hr
      exact ⟨⟨h.kv, hvec ▸ h.vec, hwal⟩, rfl, by simp only [schema, hvec]⟩
    -- each outcome of the batch leaves a sound index
    | opened x =>
      have hv := h.vec
      rw [hvec] at hr hv
      obtain ⟨-, rfl⟩ := Prod.mk.inj hr
      obtain ⟨hy, hys, -⟩ := VectorIndex.insertBatch_spec A hv.1 items
      obtain ⟨hi, hs⟩ := inv_index h hvec hy hys hwal
      exact ⟨hi, rfl, hs⟩

/-- Every call keeps the invariant, the quota and the schema, whatever it returns. -/
theorem call_inv (h : e.Inv s) {c : Call} {r : Except StoreError Unit}
    (hr : e.call A I c = (r, e')) :
    e'.Inv s ∧ e'.quotaLimit = e.quotaLimit ∧ e'.schema = e.schema := by
  cases c with
  | putKv key value locked => exact call_write_inv A I h locked (.putKv key value) hr
  | deleteKv key locked => exact call_write_inv A I h locked (.deleteKv key) hr
  | insertVector id vector => exact call_write_inv A I h true (.insertVector id vector) hr
  | deleteVector id => exact call_write_inv A I h true (.deleteVector id) hr
  | insertVectorBatch items => exact insertVectorBatch_inv A h hr
  -- the columnar store is beside the other two: only the log moves
  | putColumnar tableId batch locked =>
    simp only [call, putColumnar] at hr
    cases henc : I.encode batch with
    | error err =>
      -- the batch cannot be encoded
      rw [henc] at hr
      obtain ⟨-, rfl⟩ := Prod.mk.inj hr
      exact ⟨h, rfl, rfl⟩
    | ok ipc =>
      rw [henc] at hr
      simp only at hr
      cases hw : e.wal.append (.putColumnar tableId ipc) with
      | error err =>
        rw [hw] at hr
        obtain ⟨-, rfl⟩ := Prod.mk.inj hr
        exact ⟨h, rfl, rfl⟩
      | ok p =>
        obtain ⟨seq, wal⟩ := p
        rw [hw] at hr
        obtain ⟨-, rfl⟩ := Prod.mk.inj hr
        exact ⟨⟨h.kv, h.vec, WalLog.inv_append h.wal hw⟩, rfl, rfl⟩
  | compact order avail =>
    -- compact is not logged
    simp only [call, compact, ensureVec] at hr
    cases hvec : e.vec with
    | closed d =>
      rw [hvec] at hr
      obtain ⟨-, rfl⟩ := Prod.mk.inj hr
      exact ⟨h, rfl, rfl⟩
    | opened x =>
      have hv := h.vec
      rw [hvec] at hr hv
      obtain ⟨-, rfl⟩ := Prod.mk.inj hr
      obtain ⟨hy, hys⟩ := VectorIndex.compact_spec A hv.1 order avail
      obtain ⟨hi, hs⟩ := inv_index h hvec hy hys h.wal
      exact ⟨hi, rfl, hs⟩
  | checkpoint =>
    -- `checkpoint` and `close` do the same here
    obtain ⟨-, rfl⟩ := Prod.mk.inj hr
    exact ⟨inv_checkpoint h, quotaLimit_checkpoint e, schema_checkpoint e⟩
  | recover => exact recoverInner_inv A I h hr
  | close =>
    obtain ⟨-, rfl⟩ := Prod.mk.inj hr
    exact ⟨inv_checkpoint h, quotaLimit_checkpoint e, schema_checkpoint e⟩

end Engine

/-! ### Sessions -/

/-- A write is one entry of the log. -/
theorem Write.ops_call (locked : Bool) (w : Write) : (w.call locked).ops = [w.op] := by
  cases w <;> rfl

/-- A restart that gives no schema or the one of the directory. -/
def Event.Uses (s : VectorSchema) : Event → Prop
  | .call _ => True
  | .restart schema _ _ => schema = none ∨ schema = some s

/-- What holds of a directory and of the process on it. -/
def Host.Inv (s : VectorSchema) : Host → Prop
  | .up e => e.Inv s
  | .down d => d.Inv s

/-- What a host leaves. -/
theorem Host.Inv.dir {s : VectorSchema} {h : Host} (hi : h.Inv s) : h.dir.Inv s := by
  cases h with
  | up e => exact Engine.Inv.dir hi
  | down d => exact hi

namespace Session

variable {s : VectorSchema} {σ : Session} (A : F32Arith) (I : Ipc)

/-- Everything a call can do to a session whose process is up. -/
theorem step_call {e : Engine} (hup : σ.host = .up e) (c : Call) :
    (∃ e', e.call A I c = (.ok (), e') ∧
      σ.step A I (.call c) = ⟨.up e', σ.acked ++ [c]⟩) ∨
    (∃ err e', e.call A I c = (.error err, e') ∧
      (σ.step A I (.call c) = ⟨.up e', σ.acked⟩ ∨
        (∃ msg, err = .panicked msg) ∧ σ.step A I (.call c) = ⟨.down e'.dir, σ.acked⟩)) := by
  unfold step
  rw [hup]
  simp only
  cases hc : e.call A I c with
  | mk r e' =>
    cases r with
    | ok u => exact Or.inl ⟨e', rfl, rfl⟩
    | error err =>
      refine Or.inr ⟨err, e', rfl, ?_⟩
      cases err <;> first | exact Or.inl rfl | exact Or.inr ⟨⟨_, rfl⟩, rfl⟩

/-- One acknowledged call more. -/
theorem ops_acked (σ : Session) (h : Host) (c : Call) :
    ops ⟨h, σ.acked ++ [c]⟩ = σ.ops ++ c.ops := by
  simp only [ops, List.flatMap_append, List.flatMap_singleton]

/-- An acknowledged write was logged and applied. -/
theorem step_write {e : Engine} (hup : σ.host = .up e) {locked : Bool} {w : Write}
    (hok : (e.call A I (w.call locked)).1 = .ok ()) :
    ∃ seq wal e', e.wal.append w.op = .ok (seq, wal) ∧
      ({ e with wal } : Engine).apply A locked w = (.ok (), e') ∧
      σ.step A I (.call (w.call locked)) = ⟨.up e', σ.acked ++ [w.call locked]⟩ := by
  rcases step_call A I hup (w.call locked) with ⟨e', hc, hst⟩ | ⟨err, e', hc, -⟩
  · rw [Engine.call_write] at hc
    cases hw : e.wal.append w.op with
    | error err =>
      rw [hw] at hc
      exact nomatch (Prod.mk.inj hc).1
    | ok p =>
      rw [hw] at hc
      exact ⟨p.1, p.2, e', rfl, hc, hst⟩
  · rw [hc] at hok
    exact nomatch hok

/-- An acknowledged batch was logged and applied. -/
theorem step_batch {e : Engine} (hup : σ.host = .up e) {items : List (NodeId × List F32)}
    (hok : (e.call A I (.insertVectorBatch items)).1 = .ok ()) :
    ∃ seq wal x, e.wal.appendBatch (items.map fun i => .insertVector i.1 i.2) = .ok (seq, wal) ∧
      e.vec = .opened x ∧ (x.insertBatch A items).1 = .ok () ∧
      (σ.step A I (.call (.insertVectorBatch items))).host =
        .up { e with wal, vec := .opened (x.insertBatch A items).2 } := by
  obtain ⟨e', hc, hst⟩ | ⟨err, e', hc, -⟩ := step_call A I hup (.insertVectorBatch items)
  · simp only [Engine.call, Engine.insertVectorBatch, Engine.ensureVec] at hc
    cases hw : e.wal.appendBatch (items.map fun i => .insertVector i.1 i.2) with
    | error err =>
      rw [hw] at hc
      cases hc
    | ok p =>
      rw [hw] at hc
      cases hvec : e.vec with
      | closed d =>
        rw [hvec] at hc
        cases hc
      | opened x =>
        rw [hvec] at hc
        obtain ⟨hres, rfl⟩ := Prod.mk.inj hc
        exact ⟨p.1, p.2, x, rfl, rfl, hres, by rw [hst]⟩
  · rw [hc] at hok
    cases hok

/-- The step lemma of a session. -/
theorem inv_step (h : σ.host.Inv s) {ev : Event} (hev : ev.Uses s) :
    (σ.step A I ev).host.Inv s := by
  cases ev with
  | call c =>
    cases hh : σ.host with
    -- a killed engine takes no call
    | down d =>
      simp only [step, hh]
      exact hh ▸ h
    | up e =>
      rw [hh] at h
      rcases step_call A I hh c with ⟨e', hc, hst⟩ | ⟨err, e', hc, hst | ⟨-, hst⟩⟩ <;> rw [hst]
      · -- accepted, refused, or panicked: in the last case the process ends
        exact (Engine.call_inv A I h hc).1
      · exact (Engine.call_inv A I h hc).1
      · exact (Engine.call_inv A I h hc).1.dir
  -- an open that fails leaves its directory, one that succeeds an engine
  | restart schema quota order =>
    obtain ⟨hleft, hup⟩ := Engine.open_inv A I h.dir hev quota order
    simp only [step]
    cases hop : Engine.open A I σ.host.dir schema quota order with
    | mk r d =>
      rw [hop] at hleft hup
      cases r with
      | error err => exact hleft
      | ok e => exact (hup e rfl).1

/-- Every session keeps its invariant. -/
theorem inv_run {es : List Event} (hes : ∀ ev ∈ es, ev.Uses s) : (run A I es).host.Inv s := by
  have hgen : ∀ (es : List Event) (σ : Session), σ.host.Inv s → (∀ ev ∈ es, ev.Uses s) →
      (Run.exec (step A I) σ es).host.Inv s := by
    intro es
    induction es with
    | nil => exact fun σ h _ => h
    | cons ev es ih =>
      intro σ h hes
      exact ih _ (inv_step A I h (hes ev List.mem_cons_self))
        fun ev' hev => hes ev' (List.mem_cons_of_mem _ hev)
  exact hgen es fresh (EngineDir.inv_empty s) hes

end Session

/-! ### The first open -/

/-- An engine over files nobody has written. -/
structure Engine.Blank (s : VectorSchema) (quota : Nat) (e : Engine) : Prop where
  inv : e.Inv s
  kv : e.kv = KvStore.open .empty 0 quota
  wal : e.wal = WalLog.open .empty
  col : e.col = .closed .empty
  cell : ∀ id, e.cell id = .absent

namespace Engine.Blank

variable {s : VectorSchema} {quota : Nat} {e : Engine} (h : e.Blank s quota)

include h

/-- A new engine has nothing to replay. -/
theorem pendingOps : e.wal.dir.pendingOps = [] := by
  rw [h.wal]
  rfl

/-- No value is stored. -/
theorem good (key : Bytes) : e.kv.Good key := by
  rw [h.kv]
  exact fun loc hl => nomatch hl

/-- Every key is free. -/
theorem view (key : Bytes) : e.kv.view key = none := by
  rw [h.kv]
  rfl

/-- And nothing is counted. -/
theorem slack : Ledger.Slack 0 e.kv.env.volatile.used e.kv.lenOf := by
  rw [h.kv]
  exact Ledger.slack_zero

end Engine.Blank

/-- The first open of a directory succeeds, with or without a schema. -/
theorem Session.run_first (A : F32Arith) (I : Ipc) {s : VectorSchema}
    {schema : Option VectorSchema} (hs : schema = none ∨ schema = some s) (quota : Nat)
    (order : MapOrder) : ∃ e, Session.run A I [.restart schema quota order] = ⟨.up e, []⟩ ∧
      e.Blank s quota ∧ e.schema = schema := by
  have hinv : (Session.run A I [.restart schema quota order]).host.Inv s :=
    Session.inv_run A I (by simpa only [List.forall_mem_singleton, Event.Uses] using hs)
  cases schema with
  | none => exact ⟨_, rfl, ⟨hinv, rfl, rfl, rfl, fun id => rfl⟩, rfl⟩
  | some t => exact ⟨_, rfl, ⟨hinv, rfl, rfl, rfl, fun id => rfl⟩, rfl⟩

/-- A schema for the invariant of a directory that is opened with `schema`, or without one. -/
theorem exists_schema (schema : Option VectorSchema) : ∃ s, schema = none ∨ schema = some s := by
  cases schema with
  | none => exact ⟨flatSchema, .inl rfl⟩
  | some s => exact ⟨s, .inr rfl⟩

end FusionStore
