import FusionStore.Spec.KvRestart
import FusionStore.Spec.VectorRestart

/-!
# Rejected calls

A call is logged before it is checked, so a rejected one is in the log like any other.
Recovery rejects it again in most cases and then fails as a whole (`Poisoned`): from
there on the directory does not open, whatever is called later.  What is left are the
rejections that recovery does not repeat: a lock that was busy, and the items of a batch
that was refused for another item.
-/

namespace FusionStore

open Ledger

/-- Readers show exactly what the operations `ops` leave. -/
structure Engine.Reflects (e : Engine) (ops : List WalOp) : Prop where
  value : ∀ key, key ≠ [] → e.getKvZeroCopy key = .ok (lastValue key ops)
  lists : ∀ id, e.Lists id ↔ lastVector id ops ≠ none
  vector : ∀ id v, lastVector id ops = some v → e.getVector id = .ok (some v)

/-- Values and vectors show the acknowledged operations. -/
theorem Engine.reflects_of {s : VectorSchema} {e : Engine} {ops : List WalOp} (h : e.Inv s)
    (hkey : ∀ key, e.kv.Good key ∧ e.kv.view key = lastValue key ops)
    (hvis : ∀ id, (e.cell id).visible = lastVector id ops) : e.Reflects ops := by
  refine ⟨fun key hne => ?_, fun id => ?_, fun id v hv => ?_⟩
  · rw [Engine.getKvZeroCopy_eq (hkey key).1 hne, (hkey key).2]
  · rw [Engine.lists_iff h, hvis id]
  · -- a visible vector needs an index
    cases hvec : e.vec with
    | closed d =>
      have hsome := hvis id
      unfold Engine.cell at hsome
      rw [hvec, hv] at hsome
      exact nomatch hsome
    | opened x =>
      have ht := Engine.schema_opened hvec
      rw [Engine.getVector_eq h ht, hvis id, hv]

/-! ### Directories that never open again -/

/-- The log holds an operation that no recovery accepts: one that is malformed for these
    files, or a put over the quota. -/
def EngineDir.Poisoned (quota : Nat) (d : EngineDir) : Prop :=
  (∃ op ∈ d.wal.pendingOps, ¬op.Replayable d.schema) ∨
  ∃ ops key value rest p K, d.wal.pendingOps = ops ++ .putKv key value :: rest ∧
    Slack p d.kv.env.volatile.used d.kv.lenOf ∧
    OverLimit quota (∑ k ∈ K, lengthsAfter (fun _ => 0) ops k + p +
      (value.length - lengthsAfter (fun _ => 0) ops key))

/-- A poisoned log stops the next open. -/
theorem EngineDir.Poisoned.not_openable {quota : Nat} {d : EngineDir} (h : d.Poisoned quota) :
    ¬d.Openable quota := by
  rintro ⟨hall, hfits⟩
  rcases h with ⟨op, hop, hn⟩ | ⟨ops, key, value, rest, p, K, hlog, hs, hover⟩
  · exact hn (hall op hop)
  · rw [hlog] at hfits
    exact not_quotaFits hs (fun _ => Nat.zero_le _) hover hfits

/-- More log entries and more accepted writes do not help. -/
theorem EngineDir.Poisoned.mono {quota : Nat} {d d' : EngineDir} (h : d.Poisoned quota)
    {more : List WalOp} (hlog : d'.wal.pendingOps = d.wal.pendingOps ++ more)
    (hschema : d'.schema = d.schema)
    (hslack : ∀ p, Slack p d.kv.env.volatile.used d.kv.lenOf →
      Slack p d'.kv.env.volatile.used d'.kv.lenOf) : d'.Poisoned quota := by
  rcases h with ⟨op, hop, hn⟩ | ⟨ops, key, value, rest, p, K, heq, hs, hover⟩
  · refine Or.inl ⟨op, ?_, hschema ▸ hn⟩
    rw [hlog]
    exact List.mem_append_left _ hop
  · refine Or.inr ⟨ops, key, value, rest ++ more, p, K, ?_, hslack p hs, hover⟩
    rw [hlog, heq, List.append_assoc, List.cons_append]

/-! ### What the log keeps of a call -/

/-- Inserts change the length of no value. -/
private theorem lengthsAfter_inserts (len : Bytes → Nat) (ops : List WalOp)
    (items : List (NodeId × List F32)) :
    lengthsAfter len (ops ++ items.map fun i => .insertVector i.1 i.2) =
      lengthsAfter len ops := by
  induction items generalizing ops with
  | nil => rw [List.map_nil, List.append_nil]
  | cons i items ih =>
    rw [List.map_cons, List.append_cons, ih, lengthsAfter_append]
    rfl

/-- The operations after a batch. -/
private theorem mem_inserts {ops : List WalOp} {items : List (NodeId × List F32)} {op : WalOp} :
    op ∈ ops ++ items.map (fun i => .insertVector i.1 i.2) ↔
      op ∈ ops ∨ ∃ i ∈ items, op = .insertVector i.1 i.2 := by
  rw [List.mem_append, List.mem_map]
  constructor
  · rintro (h | ⟨i, hi, rfl⟩)
    · exact Or.inl h
    · exact Or.inr ⟨i, hi, rfl⟩
  · rintro (h | ⟨i, hi, rfl⟩)
    · exact Or.inl h
    · exact Or.inr ⟨i, hi, rfl⟩

/-- The vector of an id after a batch of distinct ids. -/
private theorem lastVector_inserts (id : NodeId) (ops : List WalOp)
    (items : List (NodeId × List F32)) (hnd : (items.map Prod.fst).Nodup) :
    (id ∉ items.map Prod.fst →
      lastVector id (ops ++ items.map fun i => .insertVector i.1 i.2) = lastVector id ops) ∧
    ∀ v, (id, v) ∈ items →
      lastVector id (ops ++ items.map fun i => .insertVector i.1 i.2) = some v := by
  induction items generalizing ops with
  | nil =>
    refine ⟨fun _ => by rw [List.map_nil, List.append_nil], fun v hv => ?_⟩
    exact nomatch hv
  | cons i items ih =>
    rw [List.map_cons, List.nodup_cons] at hnd
    obtain ⟨hout, hin⟩ := ih (ops ++ [.insertVector i.1 i.2]) hnd.2
    refine ⟨fun hid => ?_, fun v hv => ?_⟩
    · rw [List.map_cons, List.mem_cons, not_or] at hid
      have hne : ¬i.1 = id := fun h => hid.1 h.symm
      rw [List.map_cons, List.append_cons, hout hid.2, lastVector_concat]
      simp only [vecEffect, hne, ↓reduceIte]
    · rw [List.map_cons, List.append_cons]
      rcases List.mem_cons.mp hv with heq | hv
      · subst heq
        rw [hout hnd.1, lastVector_concat]
        simp only [vecEffect, ↓reduceIte]
      · exact hin v hv

/-! ### Sessions without a rejection that recovery forgives -/

/-- The state of a session whose log recovery would replay as it was written. -/
private structure Clean (s : VectorSchema) (quota : Nat) (ops : List WalOp) (e : Engine) :
    Prop where
  inv : e.Inv s
  marker : e.wal.dir.marker = none
  quota : e.kv.quotaLimit = quota
  shows : e.kv.Shows ops
  kvLog : ∀ key, lastEffect key e.wal.dir.pendingOps = lastEffect key ops
  lengths : e.kv.lenOf = lengthsAfter (fun _ => 0) e.wal.dir.pendingOps
  slack : Slack 0 e.kv.env.volatile.used e.kv.lenOf
  visible : ∀ id, (e.cell id).visible = lastVector id ops
  deletes : ∀ id, e.cell id ≠ .absent →
    ((e.cell id).visible = none ↔ .deleteVector id ∈ e.wal.dir.pendingOps)
  inserts : ∀ id v, .insertVector id v ∈ e.wal.dir.pendingOps → e.cell id ≠ .absent

/-- The process is up and clean, or its files will not open. -/
private def Sound (s : VectorSchema) (quota : Nat) (ops : List WalOp) : Host → Prop
  | .up e => (e.Inv s ∧ e.wal.dir.marker = none) ∧
    (Clean s quota ops e ∨ e.dir.Poisoned quota)
  | .down d => d.Inv s ∧ d.Poisoned quota

variable {s : VectorSchema} {quota : Nat} {ops : List WalOp} {e e' : Engine}
  (A : F32Arith) (I : Ipc)

/-- With an empty marker everything in the log is pending. -/
private theorem pending_append_fresh {w w' : WalLog} {op : WalOp} {seq : Nat} (hw : w.Inv)
    (hm : w.dir.marker = none) (happ : w.append op = .ok (seq, w')) :
    w'.dir.marker = none ∧ w'.dir.pendingOps = w.dir.pendingOps ++ [op] := by
  have hlt : w.dir.appliedSeq < w.nextSeq := by
    unfold LogDir.appliedSeq
    rw [hm]
    exact hw.pos
  refine ⟨?_, ?_⟩
  · rw [WalLog.append_ok happ]
    exact hm
  · rw [WalLog.pending_append happ, if_pos hlt]

/-- An entry that cannot be replayed poisons the log. -/
private theorem poisoned_logged (h : e.Inv s) (op : WalOp) (hop : op ∈ e.wal.dir.pendingOps)
    (hn : ¬op.Replayable e.schema) : e.dir.Poisoned quota :=
  Or.inl ⟨op, hop, Engine.schema_dir h ▸ hn⟩

/-- A write that succeeds. -/
private theorem Clean.write_ok (h : Clean s quota ops e) {w : Write} {locked : Bool} {seq : Nat}
    {wal : WalLog} (hw : e.wal.append w.op = .ok (seq, wal))
    (happ : ({ e with wal } : Engine).apply A locked w = (.ok (), e'))
    (hnew : ∀ id v, w = .insertVector id v → .deleteVector id ∉ e.wal.dir.pendingOps) :
    Clean s quota (ops ++ [w.op]) e' := by
  obtain ⟨hmark, hpend⟩ := pending_append_fresh h.inv.wal h.marker hw
  have hlog := Engine.inv_logged h.inv hw
  obtain ⟨hinv, hframe⟩ := Engine.apply_inv A hlog happ
  obtain ⟨heff, hcell, -⟩ := Engine.apply_ok A hlog happ
  have hcell' : ∀ id, e'.cell id = (e.cell id).apply id w.op := hcell
  have hwal : e'.wal = wal := hframe.wal
  rw [← hwal] at hmark hpend
  refine ⟨hinv, hmark, heff.quotaLimit.trans h.quota, heff.shows h.shows, ?_, ?_,
    Engine.slack_apply A hlog happ h.slack, Engine.visible_apply A hlog happ h.visible, ?_, ?_⟩
  · intro key
    rw [hpend, lastEffect_concat, lastEffect_concat, h.kvLog key]
  · -- the lengths the log accounts for
    rw [(Engine.apply_accounts A hlog happ).2, hpend, lengthsAfter_append, ← h.lengths]
  · intro id hne
    rw [hpend, List.mem_append, List.mem_singleton, hcell' id]
    rw [hcell' id] at hne
    cases w with
    | insertVector j v =>
      by_cases hj : j = id
      · -- a new id is visible, and the log must not delete it
        subst hj
        have habs : e.cell j = .absent := (Engine.absent_of_insert A hlog happ).1
        simp only [Write.op, Cell.apply, ↓reduceIte, habs, Cell.insert, Cell.visible, reduceCtorEq,
          or_false, false_iff]
        exact hnew j v rfl
      · simp only [Write.op, Cell.apply, hj, ↓reduceIte, reduceCtorEq, or_false] at hne ⊢
        exact h.deletes id hne
    -- a delete leaves the id invisible, whatever it was
    | deleteVector j =>
      by_cases hj : j = id
      · subst hj
        have hnone : (e.cell j).delete.visible = none := by cases e.cell j <;> rfl
        simp only [Write.op, Cell.apply, ↓reduceIte, hnone, or_true]
      · simp only [Write.op, Cell.apply, hj, ↓reduceIte, WalOp.deleteVector.injEq,
          show ¬id = j from fun heq => hj heq.symm, or_false] at hne ⊢
        exact h.deletes id hne
    | putKv key value =>
      simp only [Write.op, Cell.apply, reduceCtorEq, or_false] at hne ⊢
      exact h.deletes id hne
    | deleteKv key =>
      simp only [Write.op, Cell.apply, reduceCtorEq, or_false] at hne ⊢
      exact h.deletes id hne
  · -- a logged insert has its locator, from this call or from an earlier one
    intro id v hmem
    rw [hpend, List.mem_append, List.mem_singleton] at hmem
    rw [hcell' id]
    rcases hmem with hmem | heq
    · exact Cell.apply_ne_absent (h.inserts id v hmem) _
    · rw [← heq]
      simp only [Cell.apply, ↓reduceIte]
      cases e.cell id <;> exact fun hn => by cases hn

/-- Logging inserts of ids that are stored already changes nothing. -/
private theorem Clean.logged (h : Clean s quota ops e) (items : List (NodeId × List F32))
    (hinv : e'.Inv s) (hkv : e'.kv = e.kv) (hcell : ∀ id, e'.cell id = e.cell id)
    (hmark : e'.wal.dir.marker = none)
    (hpend : e'.wal.dir.pendingOps =
      e.wal.dir.pendingOps ++ items.map fun i => .insertVector i.1 i.2)
    (hstored : ∀ i ∈ items, e.cell i.1 ≠ .absent) : Clean s quota ops e' := by
  refine ⟨hinv, hmark, hkv ▸ h.quota, hkv ▸ h.shows, ?_, ?_, hkv ▸ h.slack, ?_, ?_, ?_⟩
  · intro key
    rw [hpend, lastEffect_inserts, h.kvLog key]
  · rw [hkv, hpend, lengthsAfter_inserts, h.lengths]
  · intro id
    rw [hcell id, h.visible id]
  · intro id hne
    rw [hcell id] at hne ⊢
    rw [h.deletes id hne, hpend, mem_inserts]
    simp only [reduceCtorEq, and_false, exists_false, or_false]
  · intro id v hmem
    rw [hpend, mem_inserts] at hmem
    rw [hcell id]
    rcases hmem with hmem | ⟨i, hi, heq⟩
    · exact h.inserts id v hmem
    · rw [WalOp.insertVector.injEq] at heq
      rw [heq.1]
      exact hstored i hi

/-- A put over the quota poisons the log. -/
private theorem Clean.over_quota (h : Clean s quota ops e) {key value : Bytes}
    (henv : e'.kv.env = e.kv.env)
    (hpend : e'.wal.dir.pendingOps = e.wal.dir.pendingOps ++ [.putKv key value])
    (hover : OverLimit quota (e.kv.newUsed key value)) : e'.dir.Poisoned quota := by
  -- the slack at this moment, over the keys that are stored
  let K := e.kv.env.volatile.db.keys.toFinset
  have hK : ∀ k, k ∉ K → e.kv.lenOf k = 0 := by
    intro k hk
    have hnone : e.kv.env.volatile.db.lookup k = none := by
      rw [AList.lookup_eq_none, AList.mem_keys]
      exact fun hmem => hk (List.mem_toFinset.mpr hmem)
    unfold KvStore.lenOf
    rw [hnone]
  have hsum := h.slack K
  have hlen : e'.dir.kv.lenOf = e.kv.lenOf := by
    funext k
    show e'.dir.kv.lenOf k = e.kv.dir.lenOf k
    exact KvDir.lenOf_congr (congrArg (fun env => env.volatile.db.lookup k) henv)
  -- the log, then this put, then nothing: a replay meets the same overflow
  refine Or.inr ⟨e.wal.dir.pendingOps, key, value, [],
    e.kv.env.volatile.used - ∑ k ∈ K, e.kv.lenOf k, K, hpend, ?_, ?_⟩
  · rw [hlen, show e'.dir.kv.env = e.kv.env from henv]
    exact slack_of_support K hK (by omega)
  · rw [← h.lengths]
    unfold KvStore.newUsed at hover
    have heq : ∑ k ∈ K, e.kv.lenOf k + (e.kv.env.volatile.used - ∑ k ∈ K, e.kv.lenOf k) =
        e.kv.env.volatile.used := by omega
    rw [heq]
    exact hover

/-- One that fails: a duplicate does no harm, anything else poisons the log. -/
private theorem Clean.write_error (h : Clean s quota ops e) {w : Write} {seq : Nat}
    {wal : WalLog} (hw : e.wal.append w.op = .ok (seq, wal)) {err : StoreError}
    (happ : ({ e with wal } : Engine).apply A true w = (.error err, e')) :
    (∃ id, err = .duplicateVector id) ∧ Clean s quota ops e' ∨ e'.dir.Poisoned quota := by
  obtain ⟨hmark, hpend⟩ := pending_append_fresh h.inv.wal h.marker hw
  have hlog := Engine.inv_logged h.inv hw
  obtain ⟨hinv, hframe⟩ := Engine.apply_inv A hlog happ
  have hwal : e'.wal = wal := hframe.wal
  have hschema : e'.schema = e.schema := hframe.schema
  rw [← hwal] at hmark hpend
  by_cases hrep : w.op.Replayable e.schema
  -- an operation that no replay accepts poisons the log
  case neg =>
    refine Or.inr (poisoned_logged hinv w.op ?_ (hschema ▸ hrep))
    rw [hpend]
    exact List.mem_append_right _ List.mem_cons_self
  cases w with
  | putKv key value =>
    -- well-formed, so it was the quota
    obtain ⟨hne, hle, hval⟩ := hrep
    cases hput : e.kv.putKv key value true none with
    | mk r kv =>
      simp only [Engine.apply, hput, Prod.mk.injEq] at happ
      obtain ⟨rfl, rfl⟩ := happ
      obtain ⟨hn, pool, rfl, -⟩ := KvStore.putKv_error h.inv.kv hput
      refine Or.inr (h.over_quota rfl hpend ?_)
      by_contra hfit
      unfold OverLimit at hfit
      refine hn ⟨rfl, hne, hle, by omega, ?_, hval⟩
      rw [h.quota]
      omega
  | deleteKv key =>
    cases hdel : e.kv.deleteKv key true none with
    | mk r kv =>
      simp only [Engine.apply, hdel, Prod.mk.injEq] at happ
      obtain ⟨herr, -⟩ := happ
      cases r with
      | ok removed => cases herr
      -- a delete that is well-formed goes through
      | error err' => exact absurd ⟨rfl, hrep⟩ (KvStore.deleteKv_error hdel).1
  | deleteVector id =>
    simp only [Engine.apply, Engine.ensureVec] at happ
    cases hvec : e.vec with
    -- no index, so a vector delete would not have been replayable
    | closed d =>
      simp only [Write.op, WalOp.Replayable, Engine.schema, hvec] at hrep
      cases hrep
    | opened x =>
      rw [hvec] at happ
      cases (Prod.mk.inj happ).1
  | insertVector id vector =>
    obtain ⟨t, ht, hdim, hfit⟩ := hrep
    have hv := h.inv.vec
    simp only [Engine.apply, Engine.ensureVec] at happ
    cases hvec : e.vec with
    | closed d =>
      simp only [Engine.schema, hvec] at ht
      cases ht
    | opened x =>
      rw [hvec] at happ hv
      rw [Engine.schema_opened hvec, Option.some.injEq] at ht
      subst ht
      have hcell := Engine.cell_opened hvec
      rcases VectorIndex.insert_cases A hv.1 id vector with ⟨hd, -⟩ | ⟨-, hc, he⟩ |
        ⟨-, -, -, y, he, -⟩ | ⟨-, -, hf, -⟩
      · -- well-formed, so not of the wrong dimension
        exact absurd hdim hd
      · -- the id is stored: recovery skips the entry as well
        simp only [he, Prod.mk.injEq] at happ
        obtain ⟨herr, rfl⟩ := happ
        refine Or.inl ⟨⟨id, (Except.error.inj herr).symm⟩, ?_⟩
        refine (h.logged [(id, vector)] hinv rfl (fun j => (hcell j).symm) hmark
          hpend ?_)
        intro i hi
        rw [List.mem_singleton] at hi
        rw [hi, hcell]
        exact hc
      · -- this insert was accepted
        simp only [he, Prod.mk.injEq] at happ
        cases happ.1
      · -- and this one would not have fitted a segment
        rw [VectorIndex.Fits, hv.1.segSize] at hf
        exact absurd hfit hf

/-! ### Steps -/

/-- A batch that recovery treats as the call did: it is malformed, or all of its ids are
    stored, or all are new, distinct and not deleted in the log. -/
def Engine.WholeBatch (e : Engine) (items : List (NodeId × List F32)) : Prop :=
  match e.vec with
  | .closed _ => True
  | .opened x =>
    (∃ i ∈ items, i.2.length ≠ x.schema.dim) ∨
    (∀ i ∈ items, (x.env.volatile.locatorDb.lookup i.1).isSome) ∨
    ((items.map Prod.fst).Nodup ∧ ∀ i ∈ items,
      (x.env.volatile.locatorDb.lookup i.1).isNone ∧
        .deleteVector i.1 ∉ e.wal.dir.pendingOps)

instance : (e : Engine) → (items : List (NodeId × List F32)) → Decidable (e.WholeBatch items)
  | ⟨_, .closed _, _, _, _⟩, _ => .isTrue trivial
  | ⟨_, .opened _, _, _, _⟩, _ => inferInstanceAs (Decidable (_ ∨ _ ∨ _))

/-- An id that the log deletes is stored: inserting it is refused. -/
def Engine.NotReborn (e : Engine) (id : NodeId) : Prop :=
  match e.vec with
  | .closed _ => True
  | .opened x => (x.env.volatile.locatorDb.lookup id).isSome ∨
    .deleteVector id ∉ e.wal.dir.pendingOps

instance : (e : Engine) → (id : NodeId) → Decidable (e.NotReborn id)
  | ⟨_, .closed _, _, _, _⟩, _ => .isTrue trivial
  | ⟨_, .opened _, _, _, _⟩, _ => inferInstanceAs (Decidable (_ ∨ _))

/-- The steps of one process, with arbitrary arguments: KV calls get the write lock,
    batches are treated as a whole, and no id is inserted after the log deleted it. -/
def OneProcessStep (σ : Session) (ev : Event) : Prop :=
  match σ.host, ev with
  | .up _, .call (.putKv _ _ locked) => locked = true
  | .up _, .call (.deleteKv _ locked) => locked = true
  | .up e, .call (.insertVector id _) => e.NotReborn id
  | .up e, .call (.insertVectorBatch items) => e.WholeBatch items
  | .up _, .call (.deleteVector _) => True
  | .down _, .call _ => True
  | _, _ => False

instance : (σ : Session) → (ev : Event) → Decidable (OneProcessStep σ ev)
  | ⟨.up _, _⟩, .call (.putKv _ _ locked) => inferInstanceAs (Decidable (locked = true))
  | ⟨.up _, _⟩, .call (.deleteKv _ locked) => inferInstanceAs (Decidable (locked = true))
  | ⟨.up e, _⟩, .call (.insertVector id _) => inferInstanceAs (Decidable (e.NotReborn id))
  | ⟨.up e, _⟩, .call (.insertVectorBatch items) =>
    inferInstanceAs (Decidable (e.WholeBatch items))
  | ⟨.up _, _⟩, .call (.deleteVector _) => .isTrue trivial
  | ⟨.down _, _⟩, .call _ => .isTrue trivial
  | ⟨.up _, _⟩, .call (.putColumnar ..) => .isFalse id
  | ⟨.up _, _⟩, .call (.compact ..) => .isFalse id
  | ⟨.up _, _⟩, .call .checkpoint => .isFalse id
  | ⟨.up _, _⟩, .call .recover => .isFalse id
  | ⟨.up _, _⟩, .call .close => .isFalse id
  | ⟨.up _, _⟩, .restart .. => .isFalse id
  | ⟨.down _, _⟩, .restart .. => .isFalse id

/-- What a poisoned directory needs to know of a call. -/
private structure Grows (s : VectorSchema) (e e' : Engine) : Prop where
  inv : e'.Inv s
  marker : e'.wal.dir.marker = none
  log : ∃ more, e'.wal.dir.pendingOps = e.wal.dir.pendingOps ++ more
  schema : e'.schema = e.schema
  slack : ∀ p, Slack p e.kv.env.volatile.used e.kv.lenOf →
    Slack p e'.kv.env.volatile.used e'.kv.lenOf

/-- Nothing but a checkpoint would take the entry out again. -/
private theorem Grows.poisoned (h : Grows s e e') (hinv : e.Inv s)
    (hp : e.dir.Poisoned quota) : e'.dir.Poisoned quota := by
  obtain ⟨more, hlog⟩ := h.log
  refine hp.mono hlog ?_ h.slack
  rw [Engine.schema_dir h.inv, Engine.schema_dir hinv, h.schema]

/-- A write only adds to the log. -/
private theorem grows_write (h : e.Inv s) (hm : e.wal.dir.marker = none) {w : Write}
    {locked : Bool} {seq : Nat} {wal : WalLog} (hw : e.wal.append w.op = .ok (seq, wal))
    {r : Except StoreError Unit} (happ : ({ e with wal } : Engine).apply A locked w = (r, e')) :
    Grows s e e' := by
  obtain ⟨hmark, hpend⟩ := pending_append_fresh h.wal hm hw
  have hlog := Engine.inv_logged h hw
  obtain ⟨hinv, hframe⟩ := Engine.apply_inv A hlog happ
  have hwal : e'.wal = wal := hframe.wal
  rw [← hwal] at hmark hpend
  exact ⟨hinv, hmark, ⟨_, hpend⟩, hframe.schema, fun p hs => Engine.slack_apply A hlog happ hs⟩

/-- A write in a run. -/
private theorem sound_write {σ : Session} (hup : σ.host = .up e)
    (h : Sound s quota σ.ops (.up e)) (w : Write)
    (hnew : ∀ id v, w = .insertVector id v → e.NotReborn id) :
    Sound s quota (σ.step A I (.call (w.call true))).ops
      (σ.step A I (.call (w.call true))).host := by
  obtain ⟨⟨hinv, hm⟩, hstate⟩ := h
  cases hw : e.wal.append w.op with
  -- the append failed: nothing is logged and nothing happens
  | error err =>
    rw [Session.step_unlogged A I hup hw]
    exact ⟨⟨hinv, hm⟩, hstate⟩
  | ok p =>
    obtain ⟨seq, wal⟩ := p
    have hcall : ∀ r e', e.call A I (w.call true) = (r, e') →
        ({ e with wal } : Engine).apply A true w = (r, e') := by
      intro r e' hc
      rw [Engine.call_write, hw] at hc
      exact hc
    rcases Session.step_call A I hup (w.call true) with ⟨e', hc, hst⟩ | ⟨err, e', hc, hst⟩
    · have happ := hcall _ _ hc
      have hgrow := grows_write A hinv hm hw happ
      rw [hst]
      refine ⟨⟨hgrow.inv, hgrow.marker⟩, ?_⟩
      -- a clean log stays clean, a poisoned one stays poisoned
      rcases hstate with hclean | hpois
      · left
        rw [Session.ops_acked, Write.ops_call]
        refine hclean.write_ok A hw happ ?_
        rintro id v rfl
        -- the insert was accepted, so the id was not stored
        have habs : e.cell id = .absent :=
          (Engine.absent_of_insert A (Engine.inv_logged hinv hw) happ).1
        have hreborn := hnew id v rfl
        unfold Engine.NotReborn at hreborn
        unfold Engine.cell at habs
        cases hvec : e.vec with
        | closed d =>
          simp only [Engine.apply, Engine.ensureVec, hvec] at happ
          cases (Prod.mk.inj happ).1
        | opened x =>
          rw [hvec] at hreborn habs
          rcases hreborn with hsome | hno
          · rw [VectorIndex.cell_eq_absent.mp habs] at hsome
            cases hsome
          · exact hno
      · exact Or.inr (hgrow.poisoned hinv hpois)
    · -- the call failed after its entry was logged
      have happ := hcall _ _ hc
      have hgrow := grows_write A hinv hm hw happ
      have hstate' : (∃ id, err = .duplicateVector id) ∧ Clean s quota σ.ops e' ∨
          e'.dir.Poisoned quota := by
        rcases hstate with hclean | hpois
        · exact hclean.write_error A hw happ
        · exact Or.inr (hgrow.poisoned hinv hpois)
      rcases hst with hst | ⟨⟨msg, rfl⟩, hst⟩ <;> rw [hst]
      · exact ⟨⟨hgrow.inv, hgrow.marker⟩, hstate'.imp_left And.right⟩
      · -- a panic is no duplicate
        refine ⟨hgrow.inv.dir, hstate'.resolve_left ?_⟩
        rintro ⟨⟨id, hdup⟩, -⟩
        cases hdup

/-- A batch that is not rejected makes its ids live. -/
private theorem Clean.batch_ok (h : Clean s quota ops e) {items : List (NodeId × List F32)}
    (hinv : e'.Inv s) (hkv : e'.kv = e.kv) (hmark : e'.wal.dir.marker = none)
    (hpend : e'.wal.dir.pendingOps =
      e.wal.dir.pendingOps ++ items.map fun i => .insertVector i.1 i.2)
    (hnd : (items.map Prod.fst).Nodup)
    (hlive : ∀ i ∈ items, e'.cell i.1 = .live i.2)
    (hother : ∀ j, j ∉ items.map Prod.fst → e'.cell j = e.cell j)
    (hdel : ∀ i ∈ items, .deleteVector i.1 ∉ e.wal.dir.pendingOps) :
    Clean s quota (ops ++ items.map fun i => .insertVector i.1 i.2) e' := by
  -- every id is one of the batch, which is live now, or it kept its cell
  have hcases : ∀ id, (∃ v, (id, v) ∈ items) ∨ id ∉ items.map Prod.fst := by
    intro id
    by_cases hid : id ∈ items.map Prod.fst
    · obtain ⟨i, hi, rfl⟩ := List.mem_map.mp hid
      exact Or.inl ⟨i.2, hi⟩
    · exact Or.inr hid
  refine ⟨hinv, hmark, hkv ▸ h.quota, ⟨fun key => hkv ▸ h.shows.good key, fun key => ?_⟩, ?_, ?_,
    hkv ▸ h.slack, ?_, ?_, ?_⟩
  · -- the KV half is that before the batch
    unfold lastValue
    rw [hkv, h.shows.view key, lastEffect_inserts]
    rfl
  · intro key
    rw [hpend, lastEffect_inserts, lastEffect_inserts, h.kvLog key]
  · rw [hkv, hpend, lengthsAfter_inserts, h.lengths]
  · -- the last vector operation on an id of the batch is its insert
    intro id
    obtain ⟨hout, hin⟩ := lastVector_inserts id ops items hnd
    rcases hcases id with ⟨v, hv⟩ | hid
    · rw [hlive _ hv, hin v hv]
      rfl
    · rw [hother id hid, hout hid, h.visible id]
  · intro id hne
    rw [hpend, mem_inserts]
    simp only [reduceCtorEq, and_false, exists_false, or_false]
    rcases hcases id with ⟨v, hv⟩ | hid
    · rw [hlive _ hv]
      simp only [Cell.visible, reduceCtorEq, false_iff]
      exact hdel _ hv
    · rw [hother id hid] at hne ⊢
      exact h.deletes id hne
  · -- an insert that is logged names a stored id, the new ones included
    intro id v hmem
    rw [hpend, mem_inserts] at hmem
    rcases hcases id with ⟨w, hw⟩ | hid
    · rw [hlive _ hw]
      intro hn
      cases hn
    · rw [hother id hid]
      rcases hmem with hmem | ⟨i, hi, heq⟩
      · exact h.inserts id v hmem
      · rw [WalOp.insertVector.injEq] at heq
        exact absurd (List.mem_map.mpr ⟨i, hi, heq.1.symm⟩) hid

/-- An item that its index would not take poisons the log. -/
private theorem poisoned_item (hinv : e'.Inv s) {items : List (NodeId × List F32)}
    (hpend : e'.wal.dir.pendingOps =
      e.wal.dir.pendingOps ++ items.map fun i => .insertVector i.1 i.2)
    {i : NodeId × List F32} (hi : i ∈ items)
    (hn : ¬(WalOp.insertVector i.1 i.2).Replayable e'.schema) : e'.dir.Poisoned quota := by
  refine poisoned_logged hinv _ ?_ hn
  rw [hpend, mem_inserts]
  exact Or.inr ⟨i, hi, rfl⟩

/-- What a logged batch leaves. -/
private theorem Clean.batch (h : Clean s quota ops e) {items : List (NodeId × List F32)}
    {x : VectorIndex} (hvec : e.vec = .opened x) (hwhole : e.WholeBatch items) {wal : WalLog}
    {r : Except StoreError Unit}
    (hr : (let (r, x) := x.insertBatch A items
      ((r, { e with wal, vec := .opened x }) : Except StoreError Unit × Engine)) = (r, e'))
    (hgrow : Grows s e e')
    (hpend : e'.wal.dir.pendingOps =
      e.wal.dir.pendingOps ++ items.map fun i => .insertVector i.1 i.2) :
    (r = .ok () ∧ Clean s quota (ops ++ items.map fun i => .insertVector i.1 i.2) e') ∨
    ((∃ id, r = .error (.duplicateVector id)) ∧ Clean s quota ops e') ∨
    e'.dir.Poisoned quota := by
  have hv := h.inv.vec
  unfold Engine.WholeBatch at hwhole
  rw [hvec] at hv hwhole
  have hcell := Engine.cell_opened hvec
  -- the guard asks the locator table, the specification the cell
  have hlookup : ∀ j, (x.env.volatile.locatorDb.lookup j).isSome ↔ e.cell j ≠ .absent := by
    intro j
    rw [hcell j, ne_eq, VectorIndex.cell_eq_absent, Option.isSome_iff_ne_none]
  have hschema := hgrow.schema.trans (Engine.schema_opened hvec)
  obtain ⟨-, -, hspec⟩ := VectorIndex.insertBatch_spec A hv.1 items
  rcases VectorIndex.insertBatch_cases A x items with ⟨⟨i, hi, hd⟩, -⟩ |
    ⟨hdims, i, hi, hst, he⟩ | ⟨hdims, habs, he⟩
  · -- a vector of the wrong dimension
    refine Or.inr (Or.inr (poisoned_item hgrow.inv hpend hi ?_))
    rintro ⟨t, ht, hdim, -⟩
    rw [hschema, Option.some.injEq] at ht
    exact hd (ht ▸ hdim)
  · -- refused for a stored id: then all of them are stored
    simp only [he, Prod.mk.injEq] at hr
    obtain ⟨rfl, rfl⟩ := hr
    refine Or.inr (Or.inl ⟨⟨i.1, rfl⟩, h.logged items hgrow.inv rfl (fun j => (hcell j).symm)
      hgrow.marker hpend ?_⟩)
    rcases hwhole with ⟨j, hj, hd⟩ | hall | ⟨-, hnew⟩
    · exact absurd (hdims j hj) hd
    · exact fun j hj => (hlookup j.1).mp (hall j hj)
    · have hnone := (hnew i hi).1
      rw [Option.isNone_iff_eq_none] at hnone
      exact absurd (VectorIndex.cell_eq_absent.mpr hnone) hst
  · -- all ids are new: whether a vector fits a segment decides
    by_cases hfit : x.Fits
    · -- the batch goes through as a whole
      have hclean : (items.map Prod.fst).Nodup ∧
          ∀ i ∈ items, .deleteVector i.1 ∉ e.wal.dir.pendingOps := by
        rcases hwhole with ⟨j, hj, hd⟩ | hall | ⟨hnd, hnew⟩
        · exact absurd (hdims j hj) hd
        · -- all stored and all new: there are none
          cases items with
          | nil =>
            refine ⟨.nil, fun i hi => ?_⟩
            cases hi
          | cons j items =>
            have hsome := (hlookup j.1).mp (hall j List.mem_cons_self)
            rw [hcell] at hsome
            exact absurd (habs j List.mem_cons_self) hsome
        · exact ⟨hnd, fun i hi => (hnew i hi).2⟩
      obtain ⟨hok, hlive⟩ := VectorIndex.insertBatch_fresh A hv.1 hfit hdims habs hclean.1
      simp only [Prod.mk.injEq] at hr
      obtain ⟨rfl, rfl⟩ := hr
      exact Or.inl ⟨hok, h.batch_ok hgrow.inv rfl hgrow.marker hpend hclean.1 hlive
        (fun j hj => (hspec j hj).trans (hcell j).symm) hclean.2⟩
    · -- a vector that fits no segment can never be replayed
      cases items with
      | nil =>
        simp only [he, VectorIndex.appendItems, VectorIndex.linkItems, Prod.mk.injEq] at hr
        obtain ⟨rfl, rfl⟩ := hr
        refine Or.inl ⟨rfl, ?_⟩
        rw [List.map_nil, List.append_nil]
        refine h.logged [] hgrow.inv rfl (fun j => (hcell j).symm) hgrow.marker hpend ?_
        intro i hi
        cases hi
      | cons j items =>
        refine Or.inr (Or.inr (poisoned_item hgrow.inv hpend List.mem_cons_self ?_))
        rintro ⟨t, ht, -, hle⟩
        rw [hschema, Option.some.injEq] at ht
        subst ht
        rw [VectorIndex.Fits, hv.1.segSize] at hfit
        exact hfit hle

/-- A batch only adds to the log. -/
private theorem grows_batch (h : e.Inv s) (hm : e.wal.dir.marker = none)
    {items : List (NodeId × List F32)} {seq : Nat} {wal : WalLog}
    (hw : e.wal.appendBatch (items.map fun i => .insertVector i.1 i.2) = .ok (seq, wal))
    {r : Except StoreError Unit} (hc : e.call A I (.insertVectorBatch items) = (r, e')) :
    Grows s e e' ∧ e'.wal.dir.pendingOps =
      e.wal.dir.pendingOps ++ items.map fun i => .insertVector i.1 i.2 := by
  -- nothing has been marked as applied yet
  have hlt : e.wal.dir.appliedSeq < e.wal.nextSeq := by
    unfold LogDir.appliedSeq
    rw [hm]
    exact h.wal.pos
  have hpend := WalLog.pending_appendBatch hw hlt
  have hmark : wal.dir.marker = none := by
    rw [WalLog.appendBatch_ok hw]
    exact hm
  have hi := Engine.call_inv A I h hc
  simp only [Engine.call, Engine.insertVectorBatch, hw, Engine.ensureVec] at hc
  -- a batch does not touch the KV store, so the slack stays
  have hframe : e'.wal = wal ∧ e'.kv = e.kv := by
    cases hvec : e.vec with
    | closed d =>
      rw [hvec] at hc
      exact (Prod.mk.inj hc).2 ▸ ⟨rfl, rfl⟩
    | opened x =>
      rw [hvec] at hc
      exact (Prod.mk.inj hc).2 ▸ ⟨rfl, rfl⟩
  refine ⟨⟨hi.1, hframe.1 ▸ hmark, ⟨_, hframe.1 ▸ hpend⟩, hi.2.2, fun p hs => ?_⟩,
    hframe.1 ▸ hpend⟩
  rw [hframe.2]
  exact hs

/-- A logged batch on a clean session. -/
private theorem Clean.logged_batch (h : Clean s quota ops e) {items : List (NodeId × List F32)}
    (hwhole : e.WholeBatch items) {seq : Nat} {wal : WalLog}
    (hw : e.wal.appendBatch (items.map fun i => .insertVector i.1 i.2) = .ok (seq, wal))
    {r : Except StoreError Unit} (hc : e.call A I (.insertVectorBatch items) = (r, e')) :
    (r = .ok () ∧ Clean s quota (ops ++ items.map fun i => .insertVector i.1 i.2) e') ∨
    (∃ err, r = .error err ∧ (∀ msg, err ≠ .panicked msg) ∧ Clean s quota ops e') ∨
    e'.dir.Poisoned quota := by
  obtain ⟨hg, hp⟩ := grows_batch A I h.inv h.marker hw hc
  simp only [Engine.call, Engine.insertVectorBatch, hw, Engine.ensureVec] at hc
  cases hvec : e.vec with
  | closed d =>
    rw [hvec] at hc
    obtain ⟨rfl, rfl⟩ := Prod.mk.inj hc
    cases items with
    | nil =>
      -- nothing was logged, so recovery finds nothing to refuse
      refine Or.inr (Or.inl ⟨_, rfl, fun msg hn => (by cases hn), ?_⟩)
      refine h.logged [] hg.inv rfl (fun id => (Engine.cell_closed hvec id).symm) hg.marker hp ?_
      intro i hi
      cases hi
    | cons i items =>
      -- recovery has no index to replay the items into
      refine Or.inr (Or.inr (poisoned_item hg.inv hp List.mem_cons_self ?_))
      rintro ⟨t, ht, -⟩
      simp only [Engine.schema] at ht
      cases ht
  | opened x =>
    rw [hvec] at hc
    rcases h.batch A hvec hwhole hc hg hp with hok | ⟨⟨id, rfl⟩, hc'⟩ | hpois
    · exact Or.inl hok
    · exact Or.inr (Or.inl ⟨_, rfl, fun msg hn => (by cases hn), hc'⟩)
    · exact Or.inr (Or.inr hpois)

/-- A batch in a run. -/
private theorem sound_batch {σ : Session} (hup : σ.host = .up e)
    (h : Sound s quota σ.ops (.up e)) {items : List (NodeId × List F32)}
    (hwhole : e.WholeBatch items) :
    Sound s quota (σ.step A I (.call (.insertVectorBatch items))).ops
      (σ.step A I (.call (.insertVectorBatch items))).host := by
  obtain ⟨⟨hinv, hm⟩, hstate⟩ := h
  cases hw : e.wal.appendBatch (items.map fun i => .insertVector i.1 i.2) with
  | error err =>
    rw [Session.step_unlogged_batch A I hup hw]
    exact ⟨⟨hinv, hm⟩, hstate⟩
  | ok p =>
    obtain ⟨seq, wal⟩ := p
    rcases Session.step_call A I hup (.insertVectorBatch items) with ⟨e', hc, hst⟩ |
      ⟨err, e', hc, hst⟩
    · -- the batch returns
      obtain ⟨hg, -⟩ := grows_batch A I hinv hm hw hc
      rw [hst]
      refine ⟨⟨hg.inv, hg.marker⟩, ?_⟩
      rw [Session.ops_acked]
      rcases hstate with hclean | hpois
      · rcases hclean.logged_batch A I hwhole hw hc with ⟨-, hc'⟩ | ⟨err, herr, -⟩ | hpois
        · exact Or.inl hc'
        · cases herr
        · exact Or.inr hpois
      · exact Or.inr (hg.poisoned hinv hpois)
    · -- the batch fails, and may have panicked
      obtain ⟨hg, -⟩ := grows_batch A I hinv hm hw hc
      have hstate' : (∀ msg, err ≠ .panicked msg) ∧ Clean s quota σ.ops e' ∨
          e'.dir.Poisoned quota := by
        rcases hstate with hclean | hpois
        · rcases hclean.logged_batch A I hwhole hw hc with ⟨hok, -⟩ | ⟨err', herr, hc'⟩ | hpois
          · cases hok
          · rw [Except.error.injEq] at herr
            subst herr
            exact Or.inl hc'
          · exact Or.inr hpois
        · exact Or.inr (hg.poisoned hinv hpois)
      rcases hst with hst | ⟨⟨msg, rfl⟩, hst⟩ <;> rw [hst]
      · exact ⟨⟨hg.inv, hg.marker⟩, hstate'.imp_left And.right⟩
      · -- no batch that left the session clean has panicked
        refine ⟨hg.inv.dir, hstate'.resolve_left ?_⟩
        rintro ⟨hne, -⟩
        exact hne msg rfl

/-! ### After the kill -/

/-- A clean session recovers as what was acknowledged. -/
private theorem Clean.reflects (h : Clean s quota ops e) {order : MapOrder}
    (hopen : (Engine.open A I e.dir none quota order).1 = .ok e') : e'.Reflects ops := by
  -- the restart replays the whole log over the reopened files
  have hd := h.inv.dir
  obtain ⟨e₀, hres, hs₀⟩ := Engine.restores_none A I hd quota order
  obtain ⟨hrec, -, -, hs⟩ := hres.recovered hd.kv hopen
  -- each key ends at its last logged effect
  have hkey : ∀ key, e'.kv.Good key ∧ e'.kv.view key = lastValue key ops := by
    intro key
    unfold lastValue
    rw [← h.kvLog key]
    cases hk : lastEffect key e.wal.dir.pendingOps with
    | some eff => exact hrec.touched key eff hk
    | none =>
      -- the log starts with the directory: what it does not mention was never there
      have hview : e.kv.view key = none := by
        rw [h.shows.view key]
        unfold lastValue
        rw [← h.kvLog key, hk]
        rfl
      have hnone : e.kv.env.volatile.db.lookup key = none := Option.map_eq_none_iff.mp hview
      have hcov : e.dir.kv.Covered key := by
        intro loc hl
        rw [show e.dir.kv.env.volatile.db.lookup key = none from hnone] at hl
        exact nomatch hl
      obtain ⟨hg, hv⟩ := hrec.untouched key hk hcov
      exact ⟨hg, hv.trans hview⟩
  -- and each id at its last vector operation
  have hvis : ∀ id, (e'.cell id).visible = lastVector id ops := by
    intro id
    rw [hrec.cell id, ← h.visible id]
    exact Engine.visible_reopened h.inv h.deletes h.inserts id
  exact Engine.reflects_of hrec.inv hkey hvis

/-- One process on a new directory, with calls of any arguments, then a kill: if the
    directory opens again, it shows what the acknowledged calls did and nothing else. -/
theorem reflects_of_guarded (schema : Option VectorSchema) (quota : Nat) (order : MapOrder)
    (es : List Event)
    (hrun : Run.Guarded (Session.step A I) OneProcessStep
      (Session.run A I [.restart schema quota order]) es) (order' : MapOrder) {e : Engine}
    (hopen : (Engine.open A I (Session.run A I (.restart schema quota order :: es)).host.dir none
      quota order').1 = .ok e) :
    e.Reflects (Session.run A I (.restart schema quota order :: es)).ops := by
  -- the first open of an empty directory has nothing to show
  have hstart : ∃ s, Sound s quota (Session.run A I [.restart schema quota order]).ops
      (Session.run A I [.restart schema quota order]).host := by
    obtain ⟨s, hs⟩ := exists_schema schema
    obtain ⟨e, heq, hb, -⟩ := Session.run_first A I hs quota order
    have hnil := hb.pendingOps
    have hmark : e.wal.dir.marker = none := by
      rw [hb.wal]
      rfl
    rw [heq]
    refine ⟨s, ⟨hb.inv, hmark⟩, Or.inl ⟨hb.inv, hmark, by rw [hb.kv]; rfl, ⟨hb.good, hb.view⟩,
      ?_, ?_, hb.slack, fun id => by rw [hb.cell id]; rfl, ?_, ?_⟩⟩
    · intro key
      rw [hnil]
      rfl
    · rw [hnil, hb.kv]
      rfl
    · exact fun id hn => absurd (hb.cell id) hn
    · intro id v hmem
      rw [hnil] at hmem
      cases hmem
  obtain ⟨s, hstart⟩ := hstart
  -- one event keeps the log clean, or poisons it for good
  have hstep : ∀ σ ev, Sound s quota σ.ops σ.host → OneProcessStep σ ev →
      Sound s quota (σ.step A I ev).ops (σ.step A I ev).host := by
    intro σ ev h hev
    unfold OneProcessStep at hev
    cases hh : σ.host with
    -- a killed process takes no calls, and a second open is outside the condition
    | down d =>
      cases ev with
      | restart schema quota order =>
        rw [hh] at hev
        exact hev.elim
      | call c =>
        simp only [Session.step, hh]
        exact hh ▸ h
    | up e =>
      rw [hh] at hev h
      cases ev with
      | restart schema quota order => exact hev.elim
      | call c =>
        cases c with
        | putKv key value locked =>
          obtain rfl : locked = true := hev
          exact sound_write A I hh h (.putKv key value) fun id v hw => by cases hw
        | deleteKv key locked =>
          obtain rfl : locked = true := hev
          exact sound_write A I hh h (.deleteKv key) fun id v hw => by cases hw
        | insertVector id vector =>
          refine sound_write A I hh h (.insertVector id vector) fun j v hw => ?_
          rw [Write.insertVector.injEq] at hw
          exact hw.1 ▸ hev
        | deleteVector id =>
          exact sound_write A I hh h (.deleteVector id) fun j v hw => by cases hw
        | insertVectorBatch items => exact sound_batch A I hh h hev
        | _ => exact hev.elim
  have hsound := hrun.invariant (fun σ => Sound s quota σ.ops σ.host) hstep hstart
  change Sound s quota (Session.run A I (.restart schema quota order :: es)).ops
    (Session.run A I (.restart schema quota order :: es)).host at hsound
  -- a poisoned log does not open, so the open that succeeded met a clean one
  cases hh : (Session.run A I (.restart schema quota order :: es)).host with
  -- killed: the log was poisoned by the call that panicked
  | down d =>
    rw [hh] at hsound hopen
    exact absurd ((Engine.open_none_iff A I hsound.1 quota order').mp ⟨e, hopen⟩)
      hsound.2.not_openable
  | up e₁ =>
    rw [hh] at hsound hopen
    obtain ⟨⟨hinv, -⟩, hclean | hpois⟩ := hsound
    · exact hclean.reflects A I hopen
    · exact absurd ((Engine.open_none_iff A I hinv.dir quota order').mp ⟨e, hopen⟩)
        hpois.not_openable

/-- Duplicates, single and in a batch, do no harm. -/
theorem reflects_of_repeated_inserts : ∃ e, (Engine.open zeroArith noIpc
      (Session.run zeroArith noIpc [.restart (some flatSchema) 9 .id,
        .call (.insertVector 1 [0]), .call (.insertVector 1 [5]), .call (.putKv [97] [1] true),
        .call (.insertVectorBatch [(1, [7])]), .call (.deleteVector 1)]).host.dir
      none 9 .id).1 = .ok e ∧
    e.Reflects [.insertVector 1 [0], .putKv [97] [1], .deleteVector 1] := by
  obtain ⟨e, he⟩ : ∃ e, (Engine.open zeroArith noIpc
      (Session.run zeroArith noIpc [.restart (some flatSchema) 9 .id,
        .call (.insertVector 1 [0]), .call (.insertVector 1 [5]), .call (.putKv [97] [1] true),
        .call (.insertVectorBatch [(1, [7])]), .call (.deleteVector 1)]).host.dir
      none 9 .id).1 = .ok e := ⟨_, rfl⟩
  exact ⟨e, he, reflects_of_guarded zeroArith noIpc (some flatSchema) 9 .id
    [.call (.insertVector 1 [0]), .call (.insertVector 1 [5]), .call (.putKv [97] [1] true),
      .call (.insertVectorBatch [(1, [7])]), .call (.deleteVector 1)] (by decide +kernel) .id he⟩

/-- One item of a rejected batch is there after the restart. -/
theorem rejected_item_visible : ∃ e,
    (Session.run zeroArith noIpc [.restart (some flatSchema) 0 .id, .call (.insertVector 1 [0]),
      .call (.insertVectorBatch [(1, [0]), (2, [0])])]).ops = [.insertVector 1 [0]] ∧
    (Engine.open zeroArith noIpc
      (Session.run zeroArith noIpc [.restart (some flatSchema) 0 .id, .call (.insertVector 1 [0]),
        .call (.insertVectorBatch [(1, [0]), (2, [0])])]).host.dir none 0 .id).1 = .ok e ∧
    e.getVector 2 = .ok (some [0]) := by
  refine ⟨_, ?_, rfl, ?_⟩
  · decide +kernel
  · decide +kernel

end FusionStore
