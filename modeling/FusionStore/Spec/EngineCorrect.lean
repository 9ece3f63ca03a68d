import FusionStore.Native.Engine
import FusionStore.Spec.KvCorrect
import FusionStore.Spec.CompactCorrect
import FusionStore.Spec.WalLogCorrect

/-!
# Replay and open

The state of an engine is followed key by key (`KvStore.view`) and id by id (`cell`).
A replay that succeeds applies every pending operation in log order: the last one on a
key decides its value, and each id goes through `Cell.applyAll`.  `Restores.recovered` puts
this together with what reopening the files gives: it is the statement every recovery
result rests on.
-/

namespace FusionStore

/-! ### Logs on one cell -/

namespace Cell

variable {id : NodeId} {v : List F32} {ops : List WalOp}

/-- An empty log. -/
@[simp] theorem applyAll_nil (c : Cell) : applyAll id c [] = c := rfl

/-- The first entry, then the rest. -/
@[simp] theorem applyAll_cons (c : Cell) (op : WalOp) :
    applyAll id c (op :: ops) = applyAll id (c.apply id op) ops := rfl

/-- One log after another. -/
theorem applyAll_append (c : Cell) (ops ops' : List WalOp) :
    applyAll id c (ops ++ ops') = applyAll id (applyAll id c ops) ops' := List.foldl_append

/-- A cell that no insert and no delete changes stays as it is. -/
theorem applyAll_fixed {c : Cell} (hinsert : ∀ w, c.insert w = c) (hdelete : c.delete = c) :
    applyAll id c ops = c := by
  induction ops with
  | nil => rfl
  | cons op ops ih =>
    have hop : c.apply id op = c := by
      cases op with
      | insertVector j w => by_cases hj : j = id <;> simp only [apply, hj, ↓reduceIte, hinsert]
      | deleteVector j => by_cases hj : j = id <;> simp only [apply, hj, ↓reduceIte, hdelete]
      | putKv k w => rfl
      | deleteKv k => rfl
      | putColumnar t w => rfl
    rw [applyAll_cons, hop, ih]

/-- A soft-deleted vector stays soft-deleted: a replayed insert of it is refused. -/
theorem applyAll_dead : applyAll id (.dead v) ops = .dead v :=
  applyAll_fixed (fun _ => rfl) rfl

/-- A vector without a graph node stays hidden. -/
theorem applyAll_hidden : applyAll id (.hidden v) ops = .hidden v :=
  applyAll_fixed (fun _ => rfl) rfl

/-- A live cell stays live exactly when the log has no delete for it. -/
theorem applyAll_live :
    applyAll id (.live v) ops = if .deleteVector id ∈ ops then .dead v else .live v := by
  induction ops with
  | nil => rfl
  | cons op ops ih =>
    rw [applyAll_cons]
    cases op with
    | insertVector j w =>
      -- a live cell refuses a second insert
      have hstep : (Cell.live v).apply id (.insertVector j w) = .live v := by
        by_cases hj : j = id <;> simp only [apply, hj, ↓reduceIte, insert]
      rw [hstep, ih]
      simp only [List.mem_cons, reduceCtorEq, false_or]
    | deleteVector j =>
      by_cases hj : j = id
      · subst hj
        simp only [apply, ↓reduceIte, delete, applyAll_dead, List.mem_cons, true_or]
      · simp only [apply, hj, ↓reduceIte, ih, List.mem_cons, WalOp.deleteVector.injEq,
          show ¬id = j from fun h => hj h.symm, false_or]
    -- the KV and columnar entries do nothing here
    | putKv k w =>
      rw [show (Cell.live v).apply id (.putKv k w) = .live v from rfl, ih]
      simp only [List.mem_cons, reduceCtorEq, false_or]
    | deleteKv k =>
      rw [show (Cell.live v).apply id (.deleteKv k) = .live v from rfl, ih]
      simp only [List.mem_cons, reduceCtorEq, false_or]
    | putColumnar t w =>
      rw [show (Cell.live v).apply id (.putColumnar t w) = .live v from rfl, ih]
      simp only [List.mem_cons, reduceCtorEq, false_or]

/-- A cell that no operation inserts stays absent. -/
theorem applyAll_absent {id : NodeId} {ops : List WalOp}
    (h : ∀ v, .insertVector id v ∉ ops) : applyAll id .absent ops = .absent := by
  induction ops with
  | nil => rfl
  | cons op ops ih =>
    have hstep : Cell.absent.apply id op = .absent := by
      cases op with
      | insertVector j v =>
        have hj : j ≠ id := fun hj => h v (by rw [hj]; exact List.mem_cons_self)
        simp only [apply, hj, ↓reduceIte]
      | deleteVector j =>
        simp only [apply, delete]
        split <;> rfl
      | putKv k v => rfl
      | deleteKv k => rfl
      | putColumnar t v => rfl
    rw [applyAll_cons, hstep]
    exact ih fun v hv => h v (List.mem_cons_of_mem _ hv)

/-- Replay never takes an id out of the table. -/
theorem apply_ne_absent {id : NodeId} {c : Cell} (h : c ≠ .absent) (op : WalOp) :
    c.apply id op ≠ .absent := by
  -- neither an insert nor a delete takes the stored bytes away
  have hins : ∀ v, c.insert v ≠ .absent := by
    intro v
    cases c <;> first | exact absurd rfl h | exact fun hn => nomatch hn
  have hdel : c.delete ≠ .absent := by
    cases c <;> first | exact absurd rfl h | exact fun hn => nomatch hn
  cases op with
  | insertVector j v =>
    simp only [apply]
    split
    · exact hins v
    · exact h
  | deleteVector j =>
    simp only [apply]
    split
    · exact hdel
    · exact h
  | putKv k v => exact h
  | deleteKv k => exact h
  | putColumnar t v => exact h

/-- An insert of a stored id is refused. -/
theorem insert_of_ne_absent {c : Cell} (h : c ≠ .absent) (v : List F32) : c.insert v = c := by
  cases c with
  | absent => exact absurd rfl h
  | hidden w => rfl
  | live w => rfl
  | dead w => rfl

section
variable {cell cell' : NodeId → Cell} {id : NodeId}

/-- A store in which one cell takes an insert. -/
theorem apply_insertVector {v : List F32} (hself : cell' id = (cell id).insert v)
    (hother : ∀ j, j ≠ id → cell' j = cell j) (j : NodeId) :
    cell' j = (cell j).apply j (.insertVector id v) := by
  simp only [apply]
  split
  · rename_i hj
    rw [← hj, hself]
  · rename_i hj
    exact hother j fun heq => hj heq.symm

/-- A delete changes the cell of its id only. -/
theorem apply_deleteVector (hself : cell' id = (cell id).delete)
    (hother : ∀ j, j ≠ id → cell' j = cell j) (j : NodeId) :
    cell' j = (cell j).apply j (.deleteVector id) := by
  simp only [apply]
  split
  · rename_i hj
    rw [← hj, hself]
  · rename_i hj
    exact hother j fun heq => hj heq.symm

end

end Cell

/-! ### Invariants -/

/-- A vector slot of an engine whose index has, or would have, schema `s`. -/
def VecSlotInv (s : VectorSchema) : Slot VecDir VectorIndex → Prop
  | .closed d => d.vecMeta = none ∧ d.Inv s
  | .opened x => x.Inv ∧ x.schema = s

namespace Engine

/-- What holds of an engine between calls. -/
structure Inv (s : VectorSchema) (e : Engine) : Prop where
  kv : e.kv.Inv
  vec : VecSlotInv s e.vec
  wal : e.wal.Inv

/-- The schema of the open index. -/
def schema (e : Engine) : Option VectorSchema :=
  match e.vec with
  | .closed _ => none
  | .opened x => some x.schema

/-- The cell of `id`. -/
def cell (e : Engine) (id : NodeId) : Cell :=
  match e.vec with
  | .closed _ => .absent
  | .opened x => x.cell id

/-- The schema of an open index. -/
theorem schema_opened {e : Engine} {x : VectorIndex} (h : e.vec = .opened x) :
    e.schema = some x.schema := by
  unfold schema
  rw [h]

/-- The cells of an open index. -/
theorem cell_opened {e : Engine} {x : VectorIndex} (h : e.vec = .opened x) (id : NodeId) :
    e.cell id = x.cell id := by
  unfold cell
  rw [h]

/-- Without an index no id is stored. -/
theorem cell_closed {e : Engine} {d : VecDir} (h : e.vec = .closed d) (id : NodeId) :
    e.cell id = .absent := by
  unfold cell
  rw [h]

end Engine

/-- The schema stored in `vec_meta`. -/
def EngineDir.schema (d : EngineDir) : Option VectorSchema :=
  d.vec.vecMeta.bind fun env => env.volatile.schema

/-- What holds of the files of a namespace between calls. -/
structure EngineDir.Inv (s : VectorSchema) (d : EngineDir) : Prop where
  kv : d.kv.Inv
  vec : d.vec.Inv s
  wal : d.wal.Inv

/-- The empty directory. -/
theorem EngineDir.inv_empty (s : VectorSchema) : EngineDir.empty.Inv s :=
  ⟨KvDir.inv_empty, VecDir.inv_empty s, LogDir.inv_empty⟩

namespace Engine

variable {s : VectorSchema} {e e' : Engine}

/-- What the process leaves can be opened again. -/
theorem Inv.dir (h : e.Inv s) : e.dir.Inv s := by
  refine ⟨h.kv.dir, ?_, h.wal.dir⟩
  have hv := h.vec
  unfold Engine.dir
  cases hvec : e.vec with
  | closed d =>
    rw [hvec] at hv
    exact hv.2
  | opened x =>
    rw [hvec] at hv
    exact hv.2 ▸ hv.1.dir

/-- The schema on disk is the one in force. -/
theorem schema_dir (h : e.Inv s) : e.dir.schema = e.schema := by
  have hv := h.vec
  unfold EngineDir.schema Engine.dir schema
  cases hvec : e.vec with
  | closed d =>
    rw [hvec] at hv
    simp only [hv.1, Option.bind_none]
  | opened x =>
    rw [hvec] at hv
    exact hv.1.schema

/-- The stored vectors of an engine and of its files. -/
theorem stored_dir (h : e.Inv s) (id : NodeId) : e.dir.vec.stored id = (e.cell id).stored := by
  have hv := h.vec
  unfold Engine.dir cell
  cases hvec : e.vec with
  | closed d =>
    rw [hvec] at hv
    simp only [VecDir.stored, VecDir.locatorDb, hv.1]
    rfl
  | opened x => exact x.stored_dir id

/-- Reads through the engine. -/
theorem getKvZeroCopy_eq {key : Bytes} (h : e.kv.Good key) (hne : key ≠ []) :
    e.getKvZeroCopy key = .ok (e.kv.view key) :=
  KvStore.getKvZeroCopy_eq h hne

/-- What a reader sees of an id. -/
theorem getVector_eq (h : e.Inv s) {t : VectorSchema} (ht : e.schema = some t) (id : NodeId) :
    e.getVector id = .ok (e.cell id).visible := by
  have hv := h.vec
  unfold schema at ht
  unfold getVector ensureVec cell
  cases hvec : e.vec with
  | closed d =>
    rw [hvec] at ht
    exact nomatch ht
  | opened x =>
    rw [hvec] at hv
    exact VectorIndex.getVector_eq hv.1 id

/-- The listed ids are those a reader sees. -/
theorem listVectorIds_eq (h : e.Inv s) {t : VectorSchema} (ht : e.schema = some t) :
    ∃ ids, e.listVectorIds = .ok ids ∧ ∀ id, id ∈ ids ↔ (e.cell id).visible ≠ none := by
  have hv := h.vec
  unfold schema at ht
  unfold listVectorIds ensureVec cell
  cases hvec : e.vec with
  | closed d =>
    rw [hvec] at ht
    exact nomatch ht
  | opened x =>
    rw [hvec] at hv
    exact ⟨_, rfl, VectorIndex.mem_listVectorIds hv.1⟩

/-! ### Replay -/

variable (A : F32Arith) (I : Ipc)

/-- An operation that does not concern KV keeps the KV store as it is. -/
private theorem effect_refl {kv : KvStore} (h : kv.Inv) {op : WalOp}
    (hop : ∀ key, kvEffect key op = none) : kv.Effect kv op where
  inv := h
  quotaLimit := rfl
  touched := by
    intro key eff hk
    rw [hop key] at hk
    exact nomatch hk
  untouched := fun _ _ hg => ⟨hg, rfl⟩
  keeps := .refl _
  durable := rfl
  lookup := fun _ _ => rfl
  active := by
    intro key eff hk
    rw [hop key] at hk
    exact nomatch hk

/-- Two engines with the same log, quota and schema. -/
structure SameFrame (e e' : Engine) : Prop where
  wal : e'.wal = e.wal
  quotaLimit : e'.quotaLimit = e.quotaLimit
  schema : e'.schema = e.schema

/-- One change after another. -/
theorem SameFrame.trans {a b c : Engine} (hab : SameFrame a b) (hbc : SameFrame b c) :
    SameFrame a c :=
  ⟨hbc.wal.trans hab.wal, hbc.quotaLimit.trans hab.quotaLimit, hbc.schema.trans hab.schema⟩

/-- An engine that only exchanged its index for one with the same schema. -/
private theorem inv_setVec (h : e.Inv s) {x y : VectorIndex} (hvec : e.vec = .opened x)
    (hy : y.Inv) (hys : y.schema = x.schema) :
    ({ e with vec := .opened y } : Engine).Inv s ∧
      SameFrame e ({ e with vec := .opened y } : Engine) := by
  have hv := h.vec
  rw [hvec] at hv
  refine ⟨⟨h.kv, ⟨hy, hys.trans hv.2⟩, h.wal⟩, rfl, rfl, ?_⟩
  simp only [schema, hvec, hys]

/-- Replaying one operation keeps the invariant, also when it fails, and never touches
    the log. -/
theorem replayOp_inv (h : e.Inv s) {op : WalOp} {r : Except StoreError Unit}
    (hr : e.replayOp A I op = (r, e')) : e'.Inv s ∧ SameFrame e e' := by
  have hv := h.vec
  cases op with
  | putKv key value =>
    simp only [replayOp, Prod.mk.injEq] at hr
    obtain ⟨-, rfl⟩ := hr
    -- a put that fails is swallowed, and `inv_putKv` covers it
    exact ⟨⟨KvStore.inv_putKv h.kv key value true, h.vec, h.wal⟩, rfl, rfl, rfl⟩
  | deleteKv key =>
    simp only [replayOp, Prod.mk.injEq] at hr
    obtain ⟨-, rfl⟩ := hr
    exact ⟨⟨KvStore.inv_deleteKv h.kv key true, h.vec, h.wal⟩, rfl, rfl, rfl⟩
  | insertVector id vector =>
    cases hvec : e.vec with
    | closed d =>
      simp only [replayOp, ensureVec, hvec] at hr
      obtain ⟨-, rfl⟩ := Prod.mk.inj hr
      exact ⟨h, rfl, rfl, rfl⟩
    | opened x =>
      rw [hvec] at hv
      simp only [replayOp, ensureVec, hvec] at hr
      -- refused, duplicate, stored or panicked: each outcome leaves a sound index
      rcases VectorIndex.insert_cases A hv.1 id vector with ⟨-, he⟩ | ⟨-, -, he⟩ |
        ⟨-, -, -, y, he, hy, hys, -⟩ | ⟨-, -, -, msg, y, he, hy, hys, -⟩ <;>
        rw [he] at hr <;> obtain ⟨-, rfl⟩ := Prod.mk.inj hr
      · exact inv_setVec h hvec hv.1 rfl
      · exact inv_setVec h hvec hv.1 rfl
      · exact inv_setVec h hvec hy hys
      · exact inv_setVec h hvec hy hys
  | deleteVector id =>
    cases hvec : e.vec with
    | closed d =>
      simp only [replayOp, ensureVec, hvec] at hr
      obtain ⟨-, rfl⟩ := Prod.mk.inj hr
      exact ⟨h, rfl, rfl, rfl⟩
    | opened x =>
      rw [hvec] at hv
      simp only [replayOp, ensureVec, hvec] at hr
      obtain ⟨-, rfl⟩ := Prod.mk.inj hr
      obtain ⟨hy, hys, -⟩ := VectorIndex.delete_spec hv.1 id
      exact inv_setVec h hvec hy hys
  | putColumnar tableId ipc =>
    simp only [replayOp] at hr
    split at hr
    · -- refused: not a record batch, or the wrong table
      obtain ⟨-, rfl⟩ := Prod.mk.inj hr
      exact ⟨h, rfl, rfl, rfl⟩
    · split at hr
      · obtain ⟨-, rfl⟩ := Prod.mk.inj hr
        exact ⟨h, rfl, rfl, rfl⟩
      · obtain ⟨-, rfl⟩ := Prod.mk.inj hr
        -- the batch goes to its own store, which the invariant leaves out
        exact ⟨⟨h.kv, h.vec, h.wal⟩, rfl, rfl, rfl⟩

/-- What a successful replay of one operation does. -/
theorem replayOp_ok (h : e.Inv s) {op : WalOp} (hr : e.replayOp A I op = (.ok (), e')) :
    e.kv.Effect e'.kv op ∧ ∀ id, e'.cell id = (e.cell id).apply id op := by
  have hv := h.vec
  cases op with
  | putKv key value =>
    cases hput : e.kv.putKv key value true none with
    | mk r kv =>
      simp only [replayOp, hput, Prod.mk.injEq] at hr
      obtain ⟨rfl, rfl⟩ := hr
      exact ⟨(KvStore.putKv_ok h.kv hput).2.2.1, fun _ => rfl⟩
  | deleteKv key =>
    cases hdel : e.kv.deleteKv key true none with
    | mk r kv =>
      simp only [replayOp, hdel, Prod.mk.injEq] at hr
      obtain ⟨hok, rfl⟩ := hr
      cases r with
      -- unlike a put, a failed delete ends the replay
      | error err => exact nomatch hok
      | ok removed => exact ⟨(KvStore.deleteKv_ok h.kv hdel).2.2.1, fun _ => rfl⟩
  | insertVector id vector =>
    cases hvec : e.vec with
    | closed d =>
      simp only [replayOp, ensureVec, hvec, Prod.mk.injEq, reduceCtorEq, false_and] at hr
    | opened x =>
      rw [hvec] at hv
      simp only [replayOp, ensureVec, hvec] at hr
      have hcell := funext (cell_opened hvec)
      -- of the four outcomes of an insert, replay accepts the duplicate and the success
      rcases VectorIndex.insert_cases A hv.1 id vector with ⟨-, he⟩ | ⟨-, hne, he⟩ |
        ⟨-, habs, -, y, he, hy, -, hself, hother⟩ | ⟨-, -, -, msg, y, he, -⟩
      · -- the wrong dimension ends the replay
        rw [he] at hr
        cases (Prod.mk.inj hr).1
      · -- a stored id is skipped
        rw [he] at hr
        obtain ⟨-, rfl⟩ := Prod.mk.inj hr
        refine ⟨effect_refl h.kv fun _ => rfl, ?_⟩
        rw [hcell]
        exact Cell.apply_insertVector (Cell.insert_of_ne_absent hne vector).symm fun _ _ => rfl
      · -- a new id is stored and linked
        rw [he] at hr
        obtain ⟨-, rfl⟩ := Prod.mk.inj hr
        refine ⟨effect_refl h.kv fun _ => rfl, ?_⟩
        rw [hcell]
        refine Cell.apply_insertVector ?_ hother
        rw [habs]
        exact hself
      · -- a vector larger than a segment panics
        rw [he] at hr
        cases (Prod.mk.inj hr).1
  | deleteVector id =>
    cases hvec : e.vec with
    | closed d =>
      simp only [replayOp, ensureVec, hvec, Prod.mk.injEq, reduceCtorEq, false_and] at hr
    | opened x =>
      rw [hvec] at hv
      simp only [replayOp, ensureVec, hvec] at hr
      obtain ⟨-, rfl⟩ := Prod.mk.inj hr
      obtain ⟨-, -, hself, hother⟩ := VectorIndex.delete_spec hv.1 id
      refine ⟨effect_refl h.kv fun _ => rfl, ?_⟩
      rw [funext (cell_opened hvec)]
      exact Cell.apply_deleteVector hself hother
  | putColumnar tableId ipc =>
    -- nothing of a columnar entry shows here
    simp only [replayOp] at hr
    split at hr
    · exact nomatch (Prod.mk.inj hr).1
    · split at hr
      · exact nomatch (Prod.mk.inj hr).1
      · obtain ⟨-, rfl⟩ := Prod.mk.inj hr
        exact ⟨effect_refl h.kv fun _ => rfl, fun _ => rfl⟩

/-- The invariant through the replay, however it ends. -/
theorem replayAll_inv (h : e.Inv s) {p : List WalEntry} {r : Except StoreError Unit}
    (hr : e.replayAll A I p = (r, e')) : e'.Inv s ∧ SameFrame e e' := by
  induction p generalizing e with
  | nil =>
    obtain ⟨-, rfl⟩ := Prod.mk.inj hr
    exact ⟨h, rfl, rfl, rfl⟩
  | cons entry p ih =>
    unfold replayAll at hr
    split at hr
    · rename_i err e1 heq
      obtain ⟨-, rfl⟩ := Prod.mk.inj hr
      exact replayOp_inv A I h heq
    · rename_i e1 heq
      obtain ⟨h1, hf1⟩ := replayOp_inv A I h heq
      obtain ⟨h2, hf2⟩ := ih h1 hr
      exact ⟨h2, hf1.trans hf2⟩

/-- What a state reached by replaying `ops` has become, key by key and id by id. -/
structure Replayed (e e' : Engine) (ops : List WalOp) : Prop where
  quotaLimit : e'.kv.quotaLimit = e.kv.quotaLimit
  touched : ∀ key eff, lastEffect key ops = some eff → e'.kv.Good key ∧ e'.kv.view key = eff
  untouched : ∀ key, lastEffect key ops = none → e.kv.Good key →
    e'.kv.Good key ∧ e'.kv.view key = e.kv.view key
  cell : ∀ id, e'.cell id = Cell.applyAll id (e.cell id) ops

/-- An empty log. -/
theorem Replayed.refl (e : Engine) : e.Replayed e [] where
  quotaLimit := rfl
  touched := by
    intro key eff hk
    exact nomatch hk
  untouched := fun _ _ hg => ⟨hg, rfl⟩
  cell := fun _ => rfl

/-- A replay that goes through has applied every entry in turn. -/
theorem replayAll_ok (h : e.Inv s) {p : List WalEntry}
    (hr : e.replayAll A I p = (.ok (), e')) : e.Replayed e' (p.map WalEntry.op) := by
  -- by induction on the log; the invariant holds in front of each entry
  induction p generalizing e with
  | nil =>
    obtain ⟨-, rfl⟩ := Prod.mk.inj hr
    exact .refl e
  | cons entry p ih =>
    unfold replayAll at hr
    split at hr
    · -- the replay ended with this entry
      exact nomatch (Prod.mk.inj hr).1
    · rename_i e1 heq
      have h1 := (replayOp_inv A I h heq).1
      obtain ⟨heff, hcell⟩ := replayOp_ok A I h heq
      have ih' := ih h1 hr
      -- the rest of the log decides, and where it is silent this operation does
      refine ⟨ih'.quotaLimit.trans heff.quotaLimit, ?_, ?_, ?_⟩
      · intro key eff hk
        rw [List.map_cons, lastEffect_cons] at hk
        cases hrest : lastEffect key (p.map WalEntry.op) with
        | some eff' =>
          rw [hrest, Option.some_or, Option.some.injEq] at hk
          subst hk
          exact ih'.touched key eff' hrest
        | none =>
          rw [hrest, Option.none_or] at hk
          obtain ⟨hg, hview⟩ := heff.touched key eff hk
          obtain ⟨hg', hview'⟩ := ih'.untouched key hrest hg
          exact ⟨hg', hview'.trans hview⟩
      · intro key hk hg
        rw [List.map_cons, lastEffect_cons, Option.or_eq_none_iff] at hk
        obtain ⟨hg1, hview1⟩ := heff.untouched key hk.2 hg
        obtain ⟨hg2, hview2⟩ := ih'.untouched key hk.1 hg1
        exact ⟨hg2, hview2.trans hview1⟩
      · intro id
        rw [List.map_cons, Cell.applyAll_cons, ← hcell id]
        exact ih'.cell id

/-! ### Recovery and open -/

/-- The invariant through recovery. -/
theorem recoverInner_inv (h : e.Inv s) {r : Except StoreError Unit}
    (hr : e.recoverInner A I = (r, e')) :
    e'.Inv s ∧ e'.quotaLimit = e.quotaLimit ∧ e'.schema = e.schema := by
  simp only [recoverInner] at hr
  split at hr
  · obtain ⟨-, rfl⟩ := Prod.mk.inj hr
    exact ⟨h, rfl, rfl⟩
  · split at hr
    · rename_i heq
      obtain ⟨-, rfl⟩ := Prod.mk.inj hr
      obtain ⟨h1, hf⟩ := replayAll_inv A I h heq
      exact ⟨h1, hf.quotaLimit, hf.schema⟩
    · rename_i heq
      obtain ⟨-, rfl⟩ := Prod.mk.inj hr
      obtain ⟨h1, hf⟩ := replayAll_inv A I h heq
      exact ⟨⟨h1.kv, h1.vec, WalLog.inv_truncateTo h1.wal _⟩, hf.quotaLimit, hf.schema⟩

/-- A recovery that returns has replayed everything pending and left nothing pending. -/
theorem recoverInner_ok (h : e.Inv s) (hr : e.recoverInner A I = (.ok (), e')) :
    e.Replayed e' e.wal.dir.pendingOps ∧ e'.wal.dir.pending = [] ∧
      e'.wal.nextSeq = e.wal.nextSeq ∧ e'.wal.dir.marker = e.wal.dir.marker ∧
      e.replayAll A I e.wal.dir.pending = (.ok (), { e' with wal := e.wal }) := by
  unfold recoverInner at hr
  simp only at hr
  split at hr
  · -- nothing to replay, nothing to truncate
    rename_i hempty
    obtain ⟨-, rfl⟩ := Prod.mk.inj hr
    have hnil : e.wal.dir.pending = [] := List.isEmpty_iff.mp hempty
    rw [LogDir.pendingOps_nil hnil, hnil]
    exact ⟨.refl e, rfl, rfl, rfl, rfl⟩
  · split at hr
    · exact nomatch (Prod.mk.inj hr).1
    · rename_i e1 heq
      obtain ⟨-, rfl⟩ := Prod.mk.inj hr
      have hw := (replayAll_inv A I h heq).2.wal
      have hrep := replayAll_ok A I h heq
      -- the truncation comes last, and moves the marker only
      refine ⟨⟨hrep.quotaLimit, hrep.touched, hrep.untouched, hrep.cell⟩, ?_, ?_, ?_, ?_⟩
      · show (e1.wal.truncateTo _).dir.pending = []
        rw [hw]
        exact WalLog.pending_recovered e.wal
      · show e1.wal.nextSeq = _
        rw [hw]
      · show e1.wal.dir.marker = _
        rw [hw]
      · rw [heq, ← hw]

/-- `open` got as far as the replay: `e` has fresh handles over the files `d`, and its
    index shows the cells `start`. -/
structure Restores (s : VectorSchema) (d : EngineDir) (schema : Option VectorSchema)
    (quota : Nat) (order : MapOrder) (start : NodeId → Cell) (e : Engine) : Prop where
  eq : «open» A I d schema quota order = match e.recoverInner A I with
    | (.error err, e) => (.error err, e.dir)
    | (.ok _, e) => (.ok e, e.dir)
  inv : e.Inv s
  kv : e.kv = KvStore.open d.kv 0 quota
  vec : (openVec A d.vec schema order).1 = .ok e.vec
  col : e.col = .closed d.col
  wal : e.wal = WalLog.open d.wal
  quotaLimit : e.quotaLimit = quota
  cell : ∀ id, e.cell id = start id

/-- The cell a reopened index starts with. -/
def reopenedCell (d : EngineDir) (id : NodeId) : Cell :=
  match d.vec.stored id with
  | none => .absent
  | some v => .live v

/-- Opening without a schema always gets as far as the replay. -/
theorem restores_none {d : EngineDir} (h : d.Inv s) (quota : Nat) (order : MapOrder) :
    ∃ e, Restores A I s d none quota order (reopenedCell d) e ∧ e.schema = d.schema := by
  have hkv := KvStore.inv_open h.kv quota
  have hwal := WalLog.inv_open h.wal
  cases hm : d.vec.vecMeta with
  -- a directory without an index stays without one
  | none =>
    refine ⟨⟨_, .closed d.vec, _, _, _⟩,
      ⟨?_, ⟨hkv, ⟨hm, h.vec⟩, hwal⟩, rfl, ?_, rfl, rfl, rfl, ?_⟩, ?_⟩
    · simp only [«open», openVec, hm]
      rfl
    · simp only [openVec, hm]
    · intro id
      unfold reopenedCell
      simp only [VecDir.stored, VecDir.locatorDb, hm]
      rfl
    · simp only [EngineDir.schema, schema, hm, Option.bind_none]
  | some env =>
    -- with one, `reopen` rebuilds the graph or takes the snapshot
    obtain ⟨x, hre, hx, hxs, hcell⟩ := VectorIndex.reopen_ok A h.vec VecSegmentPool.sizeOf_zero
      VecSegmentPool.defaultVecSegmentSize_le hm order
    refine ⟨⟨_, .opened x, _, _, _⟩,
      ⟨?_, ⟨hkv, ⟨hx, hxs⟩, hwal⟩, rfl, ?_, rfl, rfl, rfl, ?_⟩, ?_⟩
    · simp only [«open», openVec, hm, hre, Except.map]
      rfl
    · simp only [openVec, hm, hre, Except.map]
    · exact hcell
    · simp only [EngineDir.schema, schema, hxs, hm, Option.bind_some, h.vec.schema env hm]

/-- The cell an index opened with a schema starts with: the snapshot decides. -/
def openedCell (d : EngineDir) (g : Option NswGraph) (id : NodeId) : Cell :=
  match d.vec.stored id with
  | none => .absent
  | some v => .ofFlag ((g.getD NswGraph.new).flag id) v

/-- Opening with the schema gets as far as the replay if the snapshot loads. -/
theorem restores_some {d : EngineDir} (h : d.Inv s) {g : Option NswGraph}
    (hload : Snapshot.load d.vec.snapshot = .ok g) (quota : Nat) (order : MapOrder) :
    ∃ e, Restores A I s d (some s) quota order (openedCell d g) e ∧ e.schema = some s := by
  obtain ⟨x, hop, hx, hxs, hcell⟩ := VectorIndex.open_ok h.vec VecSegmentPool.sizeOf_zero
    (VecSegmentPool.addressable_of_le VecSegmentPool.defaultVecSegmentSize_le _) hload
  refine ⟨⟨_, .opened x, _, _, _⟩, ⟨?_, ⟨KvStore.inv_open h.kv quota, ⟨hx, hxs⟩,
    WalLog.inv_open h.wal⟩, rfl, ?_, rfl, rfl, rfl, hcell⟩, ?_⟩
  · simp only [«open», openVec, hop, Except.map]
    rfl
  · simp only [openVec, hop, Except.map]
  · simp only [schema, hxs]

/-- Opening files without vectors gets there with any schema. -/
theorem restores_blank {d : EngineDir} (hkv : d.kv.Inv) (hwal : d.wal.Inv) (hvec : d.vec.Blank)
    (t : VectorSchema) (quota : Nat) (order : MapOrder) :
    ∃ e, Restores A I t d (some t) quota order (fun _ => .absent) e ∧ e.schema = some t := by
  obtain ⟨x, hop, hx, hxs, hcell⟩ := VectorIndex.open_blank hvec t VecSegmentPool.sizeOf_zero
    (VecSegmentPool.addressable_of_le VecSegmentPool.defaultVecSegmentSize_le _)
  refine ⟨⟨_, .opened x, _, _, _⟩, ⟨?_, ⟨KvStore.inv_open hkv quota, ⟨hx, hxs⟩,
    WalLog.inv_open hwal⟩, rfl, ?_, rfl, rfl, rfl, hcell⟩, ?_⟩
  · simp only [«open», openVec, hop, Except.map]
    rfl
  · simp only [openVec, hop, Except.map]
  · simp only [schema, hxs]

/-- A snapshot that is refused ends the open before the log is looked at. -/
theorem open_some_error {d : EngineDir} {err : StoreError}
    (hload : Snapshot.load d.vec.snapshot = .error err) (quota : Nat) (order : MapOrder) :
    «open» A I d (some s) quota order = (.error err,
      { d with kv := (KvStore.open d.kv 0 quota).dir, vec := (VectorIndex.open d.vec s 0).2 }) := by
  have herr := VectorIndex.open_error (s := s) hload
  cases hop : VectorIndex.open d.vec s 0 with
  | mk r left =>
    rw [hop] at herr
    simp only at herr
    simp only [«open», openVec, hop, herr, Except.map]

/-- What an engine shows that was opened on the files `d`. -/
structure Recovered (s : VectorSchema) (d : EngineDir) (quota : Nat) (start : NodeId → Cell)
    (e : Engine) : Prop where
  quotaLimit : e.kv.quotaLimit = quota
  inv : e.Inv s
  pending : e.wal.dir.pending = []
  touched : ∀ key eff, lastEffect key d.wal.pendingOps = some eff →
    e.kv.Good key ∧ e.kv.view key = eff
  untouched : ∀ key, lastEffect key d.wal.pendingOps = none → d.kv.Covered key →
    e.kv.Good key ∧ e.kv.view key = d.kv.view key
  cell : ∀ id, e.cell id = Cell.applyAll id (start id) d.wal.pendingOps

variable {A I} in
/-- What is restored before the replay determines what is recovered after it. -/
theorem Restores.recovered {d : EngineDir} (h : d.kv.Inv) {schema : Option VectorSchema}
    {quota : Nat} {order : MapOrder} {start : NodeId → Cell} {e₀ : Engine}
    (hres : Restores A I s d schema quota order start e₀)
    (hr : («open» A I d schema quota order).1 = .ok e) :
    Recovered s d quota start e ∧ («open» A I d schema quota order).2 = e.dir ∧
      e.quotaLimit = quota ∧ e.schema = e₀.schema := by
  rw [hres.eq] at hr ⊢
  -- what comes after the two opens is the replay
  cases hrec : e₀.recoverInner A I with
  | mk r e1 =>
    rw [hrec] at hr
    cases r with
    | error err => exact nomatch hr
    | ok u =>
      obtain ⟨rfl⟩ := hr
      obtain ⟨hi, hq, hs⟩ := recoverInner_inv A I hres.inv hrec
      obtain ⟨hrep, hpend, -⟩ := recoverInner_ok A I hres.inv hrec
      rw [hres.wal] at hrep
      refine ⟨⟨?_, hi, hpend, hrep.touched, ?_, ?_⟩, rfl, hq.trans hres.quotaLimit, hs⟩
      · rw [hrep.quotaLimit, hres.kv]
        rfl
      · -- a key outside the log reads as it did on the disk
        intro key hk hc
        have hgood := KvStore.good_open h quota hc
        rw [← hres.kv] at hgood
        obtain ⟨hg, hview⟩ := hrep.untouched key hk hgood
        refine ⟨hg, hview.trans ?_⟩
        rw [hres.kv]
        exact KvStore.view_open h quota key
      · -- a cell is what the log makes of the reopened one
        intro id
        rw [hrep.cell id, hres.cell id]
        rfl

variable {A I} in
/-- An `open` that fails in the replay leaves sound files. -/
theorem Restores.left {d : EngineDir} {schema : Option VectorSchema} {quota : Nat}
    {order : MapOrder} {start : NodeId → Cell} {e₀ : Engine}
    (hres : Restores A I s d schema quota order start e₀) :
    («open» A I d schema quota order).2.Inv s := by
  rw [hres.eq]
  cases hrec : e₀.recoverInner A I with
  | mk r e1 =>
    have hi := (recoverInner_inv A I hres.inv hrec).1
    cases r with
    | error err => exact hi.dir
    | ok u => exact hi.dir

/-- The invariant through an open, whether it succeeds or not. -/
theorem open_inv {d : EngineDir} (h : d.Inv s) {schema : Option VectorSchema}
    (hs : schema = none ∨ schema = some s) (quota : Nat) (order : MapOrder) :
    («open» A I d schema quota order).2.Inv s ∧
      ∀ e, («open» A I d schema quota order).1 = .ok e →
        e.Inv s ∧ e.quotaLimit = quota ∧ e.wal.dir.pending = [] := by
  rcases hs with rfl | rfl
  · obtain ⟨e₀, hres, -⟩ := restores_none A I h quota order
    refine ⟨hres.left, fun e hr => ?_⟩
    obtain ⟨hrec, -, hq, -⟩ := hres.recovered h.kv hr
    exact ⟨hrec.inv, hq, hrec.pending⟩
  · cases hload : Snapshot.load d.vec.snapshot with
    | error err =>
      rw [open_some_error A I hload]
      refine ⟨⟨(KvStore.inv_open h.kv quota).dir, (VectorIndex.open_left h.vec).1, h.wal⟩, ?_⟩
      intro e hr
      exact nomatch hr
    | ok g =>
      obtain ⟨e₀, hres, -⟩ := restores_some A I h hload quota order
      refine ⟨hres.left, fun e hr => ?_⟩
      obtain ⟨hrec, -, hq, -⟩ := hres.recovered h.kv hr
      exact ⟨hrec.inv, hq, hrec.pending⟩

end Engine

end FusionStore
