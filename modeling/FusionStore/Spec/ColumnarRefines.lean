import FusionStore.ForStd.Except
import FusionStore.Native.StoreSession
import FusionStore.Spec.KvSessionCorrect
import FusionStore.Spec.PoolSafety
import FusionStore.Spec.Quota

/-!
# A columnar session is a map of tables

The columns of a table go into the pool one by one, each behind its padding, and may lie in
different segments.  A table that is rejected half-way gives its bytes back by moving the
cursor to where it started, and the next table overwrites them.  What was held at the start
lies before that cursor, so neither the rejected columns nor what follows them can touch it.

## Key results

- `SegmentPool.appendAligned_spec`: one column, held at an aligned offset
- `ColumnarStore.appendColumns_spec`: the column loop, by induction on the columns
- `ColSession.refines_tables`: reads of a session answer as the map of its tables
-/

namespace FusionStore

namespace SegmentPool

/-- An append goes to the cursor or to the start of a segment. -/
theorem append_offset {p p' : SegmentPool} {payload : Bytes} {loc : ValueLocator}
    (happ : p.append payload = (.ok loc, p')) : loc.offset = p.activeCursor ∨ loc.offset = 0 := by
  unfold append at happ
  by_cases hroom : payload.length > p.remaining
  · simp only [hroom, ↓reduceIte, sealAndRotate] at happ
    split at happ
    · simp at happ
    · split at happ
      · simp at happ
      · split at happ
        · simp at happ
        · simp only [Prod.mk.injEq, Except.ok.injEq] at happ
          exact .inr (by rw [← happ.1])
  · simp only [hroom, ↓reduceIte] at happ
    split at happ
    · simp at happ
    · split at happ
      · simp at happ
      · split at happ
        · simp at happ
        · simp only [Prod.mk.injEq, Except.ok.injEq] at happ
          exact .inl (by rw [← happ.1])

/-- The padding brings the cursor to a multiple of `align`. -/
theorem dvd_padding {p : SegmentPool} {align : Nat} (h : 0 < align) :
    align ∣ p.activeCursor + p.padding align := by
  unfold padding
  split
  · obtain rfl : align = 1 := by omega
    exact Nat.one_dvd _
  · have hlt := Nat.mod_lt p.activeCursor h
    by_cases hz : p.activeCursor % align = 0
    · simp only [hz, Nat.sub_zero, Nat.mod_self, Nat.add_zero]
      exact Nat.dvd_of_mod_eq_zero hz
    · -- up to the next multiple
      have hdiv := Nat.div_add_mod p.activeCursor align
      rw [Nat.mod_eq_of_lt (by omega)]
      refine ⟨p.activeCursor / align + 1, ?_⟩
      rw [Nat.mul_add, Nat.mul_one]
      omega

/-- A pool in use: its segments are within what a locator can say. -/
structure Ready (p : SegmentPool) : Prop where
  writer : p.writer.Inv
  segSize_le : p.segSize ≤ u32Max

/-- The payload is held at `loc`, at a multiple of `align`, and nothing held before has
    changed. -/
structure Placed (p : SegmentPool) (payload : Bytes) (align : Nat) (loc : ValueLocator)
    (p' : SegmentPool) : Prop where
  ready : p'.Ready
  keeps : p.writer.Keeps p'.writer
  holds : p'.writer.Holds loc
  bytesAt : p'.writer.bytesAt loc = payload
  len : loc.len = payload.length
  aligned : align ∣ loc.offset

/-- A flush records the position everything held lies before. -/
theorem keeps_flush (p : SegmentPool) : p.writer.Keeps p.flush.writer := by
  have k := Writer.keeps_flushSeg p.writer
  refine ⟨k.segSize, k.files, k.holds, k.bytesAt, k.synced, k.settled, fun loc hl _ => ?_⟩
  intro c hc
  obtain rfl : (p.activeId, p.activeCursor) = c := Option.mem_some_iff.mp hc
  exact hl.2.2

theorem Ready.of_keeps {p p' : SegmentPool} (h : p.Ready) (hinv : p'.writer.Inv)
    (hk : p.writer.Keeps p'.writer) : p'.Ready := by
  refine ⟨hinv, ?_⟩
  rw [show p'.segSize = p.segSize from hk.segSize]
  exact h.segSize_le

/-- An append in a later state of the pool, at a cursor that is a multiple of `align`. -/
theorem append_placed {p q : SegmentPool} (hq : q.Ready) (hk : p.writer.Keeps q.writer)
    (payload : Bytes) {align : Nat} (halign : align ∣ q.activeCursor) :
    (∃ loc p', q.append payload = (.ok loc, p') ∧ p.Placed payload align loc p') ∨
    (∃ err p', q.append payload = (.error err, p') ∧ p'.Ready ∧ p.writer.Keeps p'.writer) := by
  obtain ⟨-, loc, p', happ, ha⟩ | ⟨-, err, p', happ, hr⟩ := append_cases hq.writer payload
  · refine .inl ⟨loc, p', happ, hq.of_keeps ha.inv ha.keeps, hk.trans ha.keeps, ha.holds,
      ha.bytesAt, ha.len, ?_⟩
    obtain hoff | hoff := append_offset happ
    · rw [hoff]
      exact halign
    · rw [hoff]
      exact Nat.dvd_zero _
  · exact .inr ⟨err, p', happ, hq.of_keeps hr.inv hr.keeps, hk.trans hr.keeps⟩

/-- One column: `append_aligned` of its buffer. -/
theorem appendAligned_spec {p : SegmentPool} (h : p.Ready) (payload : Bytes) {align : Nat}
    (halign : 0 < align) :
    (∃ loc p', p.appendAligned payload align = (.ok loc, p') ∧ p.Placed payload align loc p') ∨
    (∃ err p', p.appendAligned payload align = (.error err, p') ∧ p'.Ready ∧
      p.writer.Keeps p'.writer) := by
  have hdvd := p.dvd_padding halign
  rw [appendAligned_eq]
  by_cases hnone : p.padding align = 0
  · -- the cursor is a multiple already
    rw [if_pos hnone]
    rw [hnone, Nat.add_zero] at hdvd
    exact append_placed h (.refl _) payload hdvd
  rw [if_neg hnone]
  by_cases hrotate : p.remaining < p.padding align
  · -- the padding does not fit: the payload opens a new segment
    rw [if_pos hrotate]
    have hk := keeps_sealAndRotate h.writer
    exact append_placed (h.of_keeps (writer_inv_sealAndRotate h.writer) hk) hk payload
      (Nat.dvd_zero align)
  · -- the padding is stored like any other payload
    rw [if_neg hrotate]
    have hroom := Nat.not_lt.mp hrotate
    have hcur : p.activeCursor ≤ p.segSize := h.writer.cursor_le
    have hmax := h.segSize_le
    have hpad : (List.replicate (p.padding align) (0 : UInt8)).length = p.padding align :=
      List.length_replicate
    have hlen : (List.replicate (p.padding align) (0 : UInt8)).length ≤ u32Max := by
      rw [remaining] at hroom
      omega
    have hstored := append_within hcur hlen (by omega) (by omega)
    rw [hpad] at hstored
    obtain ⟨-, loc, q, happ, ha⟩ | ⟨-, err, q, happ, -⟩ := append_cases h.writer
      (List.replicate (p.padding align) 0)
    · obtain rfl : _ = q := congrArg Prod.snd (hstored.symm.trans happ)
      simp only [hstored]
      exact append_placed (h.of_keeps ha.inv ha.keeps) ha.keeps payload hdvd
    · -- padding that fits is never refused
      rw [hstored] at happ
      simp at happ

end SegmentPool

/-! ### Tables in the pool -/

/-- The range a column's meta names. -/
def ColumnMeta.loc (m : ColumnMeta) : ValueLocator := ⟨m.segId, m.offset, m.len⟩

/-- The meta describes the column, and its bytes are held at an offset the type allows. -/
structure ColumnHeld (w : Writer) (m : ColumnMeta) (c : Column) : Prop where
  name : m.name = c.name
  dtype : ColType.fromArrow c.dataType = some m.dtype
  nonNull : c.nullCount = 0
  holds : w.Holds m.loc
  bytesAt : w.bytesAt m.loc = c.values
  aligned : m.dtype.byteWidth ∣ m.offset

theorem ColumnHeld.mono {w w' : Writer} {m : ColumnMeta} {c : Column} (h : ColumnHeld w m c)
    (hk : w.Keeps w') : ColumnHeld w' m c :=
  { h with
    holds := hk.holds m.loc h.holds
    bytesAt := (hk.bytesAt m.loc h.holds).trans h.bytesAt }

/-- All columns of a table. -/
def TableHeld (w : Writer) (t : TableMeta) (b : RecordBatch) : Prop :=
  t.rowCount = b.numRows ∧ List.Forall₂ (ColumnHeld w) t.columns b.columns

theorem TableHeld.mono {w w' : Writer} {t : TableMeta} {b : RecordBatch} (h : TableHeld w t b)
    (hk : w.Keeps w') : TableHeld w' t b :=
  ⟨h.1, h.2.imp fun _ _ hc => hc.mono hk⟩

/-- The type that is stored is the type of the column. -/
theorem ColType.toArrow_of_fromArrow {d : DataType} {t : ColType} (h : fromArrow d = some t) :
    t.toArrow = d := by
  cases d with
  | other => simp [fromArrow] at h
  | _ =>
    simp only [fromArrow, Option.some.injEq] at h
    rw [← h, toArrow]

theorem ColumnHeld.aligned_of_mem {w : Writer} {metas : List ColumnMeta} {cs : List Column}
    (h : List.Forall₂ (ColumnHeld w) metas cs) : ∀ m ∈ metas, m.dtype.byteWidth ∣ m.offset := by
  intro m hm
  induction h with
  | nil => cases hm
  | cons hc _ ih =>
    obtain rfl | hm := List.mem_cons.mp hm
    · exact hc.aligned
    · exact ih hm

theorem ColType.byteWidth_pos (t : ColType) : 0 < t.byteWidth := by
  cases t <;> decide

namespace ColumnarStore

/-- Everything the column loop can do: all columns are held, or it stops at one. -/
theorem appendColumns_spec {p : SegmentPool} (h : p.Ready) (cs : List Column) :
    (∃ metas p', appendColumns p cs = (.ok (metas, (cs.map fun c => c.values.length).sum), p') ∧
      p'.Ready ∧ p.writer.Keeps p'.writer ∧ List.Forall₂ (ColumnHeld p'.writer) metas cs) ∨
    (∃ err p', appendColumns p cs = (.error err, p') ∧ p'.Ready ∧ p.writer.Keeps p'.writer) := by
  induction cs generalizing p with
  | nil => exact .inl ⟨[], p, rfl, h, .refl _, .nil⟩
  | cons c cs ih =>
    unfold appendColumns
    cases hty : ColType.fromArrow c.dataType with
    | none => exact .inr ⟨_, p, rfl, h, .refl _⟩
    | some dtype =>
      by_cases hnull : c.nullCount = 0
      case neg =>
        simp only [ne_eq, hnull, not_false_eq_true, ↓reduceIte]
        exact .inr ⟨_, p, rfl, h, .refl _⟩
      simp only [hnull, ne_eq, not_true_eq_false, ↓reduceIte]
      obtain ⟨loc, q, happ, hc⟩ | ⟨err, q, happ, hq, hk⟩ :=
        SegmentPool.appendAligned_spec h c.values dtype.byteWidth_pos
      case inr => exact .inr ⟨err, q, by rw [happ], hq, hk⟩
      have hm : ColumnHeld q.writer ⟨c.name, dtype, loc.segId, loc.offset, loc.len⟩ c :=
        ⟨rfl, hty, hnull, hc.holds, hc.bytesAt, hc.aligned⟩
      simp only [happ]
      -- the later columns keep the one just placed
      obtain ⟨metas, r, hrest, hr, hk, hms⟩ | ⟨err, r, hrest, hr, hk⟩ := ih hc.ready
      · refine .inl ⟨_, r, ?_, hr, hc.keeps.trans hk, .cons (hm.mono hk) hms⟩
        simp only [hrest, List.map_cons, List.sum_cons, hc.len]
      · exact .inr ⟨err, r, by rw [hrest], hr, hc.keeps.trans hk⟩

/-- Rewinding to where a table started keeps what was held then: it all lies before. -/
theorem keeps_rollback {p q : SegmentPool} (hp : p.Ready) (hq : q.Ready)
    (hk : p.writer.Keeps q.writer) :
    (rollback q p.activeId (p.activeCursor % 2 ^ 32)).Ready ∧
      p.writer.Keeps (rollback q p.activeId (p.activeCursor % 2 ^ 32)).writer := by
  have hcur : p.activeCursor ≤ p.segSize := hp.writer.cursor_le
  have hmax := hp.segSize_le
  have hmod : p.activeCursor % 2 ^ 32 = p.activeCursor := by
    apply Nat.mod_eq_of_lt
    simp only [u32Max] at hmax
    omega
  rw [hmod]
  unfold rollback SegmentPool.rewindActiveTo
  by_cases hsame : p.activeId = q.activeId
  case neg =>
    -- the segment was sealed in between: nothing is taken back
    simp only [ne_eq, hsame, not_false_eq_true, ↓reduceIte]
    exact ⟨hq, hk⟩
  simp only [ne_eq, hsame, not_true_eq_false, ↓reduceIte]
  by_cases hback : p.activeCursor > q.activeCursor
  · simp only [hback, ↓reduceIte]
    exact ⟨hq, hk⟩
  simp only [hback, ↓reduceIte]
  have hle : p.activeCursor ≤ q.activeCursor := Nat.not_lt.mp hback
  have hqcur : q.activeCursor ≤ q.segSize := hq.writer.cursor_le
  constructor
  · exact ⟨⟨Nat.le_trans hle hqcur, hq.writer.mem, hq.writer.le⟩, hq.segSize_le⟩
  · -- the old position is where every held range ends, at the latest
    refine ⟨hk.segSize, hk.files, fun loc hl => ?_, hk.bytesAt, hk.synced, fun loc hl hs => ?_,
      hk.recorded⟩
    · have hbefore := hl.2.2
      rw [show p.writer.id = q.activeId from hsame] at hbefore
      exact ⟨(hk.holds loc hl).1, (hk.holds loc hl).2.1, hbefore⟩
    · exact hk.settled loc hl hs

/-- Everything `put_columnar` can do to the pool: the table is held, or what was held before
    still is. -/
theorem putColumnar_spec {s : ColumnarStore} (h : s.pool.Ready) (tableId : String)
    (batch : RecordBatch) (locked : Bool) (commit : Option StoreError) :
    (∃ metas pool used, s.putColumnar tableId batch locked commit = (.ok (), { s with
        pool
        env := s.env.write ⟨s.env.volatile.tableDb.insert tableId ⟨batch.numRows, metas⟩, used⟩ }) ∧
      (strBytes tableId).isEmpty = false ∧ pool.Ready ∧ s.pool.writer.Keeps pool.writer ∧
      TableHeld pool.writer ⟨batch.numRows, metas⟩ batch) ∨
    (∃ err pool, s.putColumnar tableId batch locked commit = (.error err, { s with pool }) ∧
      pool.Ready ∧ s.pool.writer.Keeps pool.writer) := by
  cases locked with
  | false => exact .inr ⟨.lockBusy, s.pool, rfl, h, .refl _⟩
  | true =>
    by_cases hne : (strBytes tableId).isEmpty = true
    · -- LMDB refuses an empty key before anything is written
      refine .inr ⟨.heed "MDB_BAD_VALSIZE", s.pool, ?_, h, .refl _⟩
      simp only [putColumnar, ↓reduceIte, putColumnarInner, hne]
    obtain ⟨metas, pool, happ, hr, hk, hms⟩ | ⟨err, pool, happ, hr, hk⟩ :=
      appendColumns_spec h batch.columns
    case inr =>
      -- the loop stopped half-way and is undone
      obtain ⟨hr', hk'⟩ := keeps_rollback h hr hk
      refine .inr ⟨err, _, ?_, hr', hk'⟩
      simp only [putColumnar, ↓reduceIte, putColumnarInner, hne, happ, Bool.false_eq_true]
    rw [s.putColumnar_of_appended hne happ commit]
    obtain ⟨hr', hk'⟩ := keeps_rollback h hr hk
    split
    · -- the counter overflows: no rewind
      exact .inr ⟨_, pool, rfl, hr, hk⟩
    split
    · -- over the quota
      exact .inr ⟨_, _, rfl, hr', hk'⟩
    split
    · -- a key too long for LMDB: no rewind
      exact .inr ⟨_, pool, rfl, hr, hk⟩
    cases commit with
    | some err => exact .inr ⟨err, _, rfl, hr', hk'⟩
    | none => exact .inl ⟨metas, pool, _, rfl, Bool.eq_false_iff.mpr hne, hr, hk, rfl, hms⟩

end ColumnarStore

/-- The columns `get_columnar_zero_copy` selects; none at all is no result. -/
def RecordBatch.select (b : RecordBatch) (columns : List String) : Option RecordBatch :=
  let picked := b.columns.filter fun c => columns.isEmpty || c.name ∈ columns
  if picked.isEmpty then none
  else some ⟨b.numRows, picked, fun c hc => b.wellSized c (List.mem_of_mem_filter hc)⟩

namespace ColumnarStore

/-- A held column is read back as it was put. -/
theorem buildColumn_held {s : ColumnarStore} {m : ColumnMeta} {c : Column} {rows : Nat}
    (h : ColumnHeld s.pool.writer m c) (hsize : c.WellSized rows) :
    s.buildColumn rows m = .ok c := by
  have hlen : m.len = c.values.length := by
    rw [← h.bytesAt]
    exact (SegMem.length_read _ _ _ _).symm
  have hrows : m.dtype.bufferLen rows = m.len := by
    rw [hlen]
    exact (hsize m.dtype h.dtype).symm
  have htype := ColType.toArrow_of_fromArrow h.dtype
  have hmem : m.segId ∈ s.pool.dir.files := h.holds.1
  have hbytes : s.pool.dir.mem.volatile.read m.segId m.offset m.len = c.values := h.bytesAt
  simp only [buildColumn, hmem, not_true_eq_false, ↓reduceIte, hrows, Nat.lt_irrefl, hbytes, htype,
    h.name, ← h.nonNull]

/-- The selected columns of a table, built one by one. -/
theorem mapM_buildColumn {s : ColumnarStore} {rows : Nat} (pick : String → Bool)
    {metas : List ColumnMeta} {cs : List Column}
    (h : List.Forall₂ (ColumnHeld s.pool.writer) metas cs) (hsize : ∀ c ∈ cs, c.WellSized rows) :
    (metas.filter fun m => pick m.name).mapM (s.buildColumn rows) =
      .ok (cs.filter fun c => pick c.name) := by
  induction h with
  | nil => rfl
  | @cons m c metas cs hm _ ih =>
    have htail := ih fun c hc => hsize c (List.mem_cons_of_mem _ hc)
    have hhead := buildColumn_held hm (hsize c List.mem_cons_self)
    simp only [List.filter_cons, hm.name]
    cases pick c.name with
    | false => simpa using htail
    | true =>
      simp only [↓reduceIte, List.mapM_cons, hhead, htail]
      rfl

theorem getColumnarZeroCopy_held {s : ColumnarStore} {tableId : String}
    (hne : (strBytes tableId).isEmpty = false) {t : TableMeta} {b : RecordBatch}
    (hl : s.env.volatile.tableDb.lookup tableId = some t) (ht : TableHeld s.pool.writer t b)
    (columns : List String) :
    s.getColumnarZeroCopy tableId columns = .ok (b.select columns) := by
  obtain ⟨rows, metas⟩ := t
  obtain rfl : rows = b.numRows := ht.1
  have harrays := mapM_buildColumn (fun name => columns.isEmpty || name ∈ columns) ht.2 b.wellSized
  simp only [getColumnarZeroCopy, hne, Bool.false_eq_true, ↓reduceIte, hl, harrays]
  unfold RecordBatch.select
  simp only [bind, Except.bind]
  split
  · rfl
  · -- the constructor of a batch checks the lengths the columns came with
    have hsize : ∀ c ∈ b.columns.filter fun c => columns.isEmpty || c.name ∈ columns,
        c.WellSized b.numRows := fun c hc => b.wellSized c (List.mem_of_mem_filter hc)
    rw [RecordBatch.tryNew, dif_pos hsize]

theorem getColumnarZeroCopy_absent {s : ColumnarStore} {tableId : String}
    (hne : (strBytes tableId).isEmpty = false)
    (hl : s.env.volatile.tableDb.lookup tableId = none) (columns : List String) :
    s.getColumnarZeroCopy tableId columns = .ok none := by
  simp only [getColumnarZeroCopy, hne, Bool.false_eq_true, ↓reduceIte, hl]

end ColumnarStore

/-! ### Sessions -/

namespace ColSession

variable {σ : ColSession}

/-- The call returns, with a result or an error; a panic does not. -/
def CallReturns (σ : ColSession) : ColCall → Prop
  | .putColumnar tableId batch locked commit =>
    Returns (σ.putColumnar tableId batch locked commit).1
  | .flush => Returns σ.flush.1

instance (σ : ColSession) (call : ColCall) : Decidable (σ.CallReturns call) :=
  match call with
  | .putColumnar .. | .flush => inferInstanceAs (Decidable (Returns _))

/-- What holds of a session whose calls have all returned. -/
structure Inv (σ : ColSession) : Prop where
  pool : σ.store.pool.Ready
  stored : ∀ id b, σ.tables.lookup id = some b →
    ∃ t, σ.store.env.volatile.tableDb.lookup id = some t ∧ TableHeld σ.store.pool.writer t b
  absent : ∀ id, σ.tables.lookup id = none → σ.store.env.volatile.tableDb.lookup id = none
  id_ne : ∀ id b, σ.tables.lookup id = some b → (strBytes id).isEmpty = false
  poisoned : σ.poisoned = false

theorem inv_start {segSize : Nat} (hsize : segSize ≤ u32Max) (quotaLimit : Nat) :
    (start segSize quotaLimit).Inv where
  pool := by
    refine ⟨SegmentPool.writer_inv_open_empty segSize, ?_⟩
    show (if segSize = 0 then defaultSegmentSize else segSize) ≤ u32Max
    split
    · exact SegmentPool.defaultSegmentSize_le
    · exact hsize
  stored := by
    intro id b hl
    cases hl
  absent _ _ := rfl
  id_ne := by
    intro id b hl
    cases hl
  poisoned := rfl

/-- The pool moves on and the tables stay. -/
private theorem Inv.of_keeps (h : σ.Inv) {pool : SegmentPool} (hr : pool.Ready)
    (hk : σ.store.pool.writer.Keeps pool.writer) :
    Inv ⟨{ σ.store with pool }, false, σ.tables⟩ where
  pool := hr
  stored := by
    intro id b hl
    obtain ⟨t, ht, hb⟩ := h.stored id b hl
    exact ⟨t, ht, hb.mono hk⟩
  absent := h.absent
  id_ne := h.id_ne
  poisoned := rfl

/-- A table was appended and its meta entered. -/
private theorem Inv.entered (h : σ.Inv) {tableId : String} {batch : RecordBatch}
    {metas : List ColumnMeta} {pool : SegmentPool} {used : Nat}
    (hne : (strBytes tableId).isEmpty = false) (hr : pool.Ready)
    (hk : σ.store.pool.writer.Keeps pool.writer)
    (ht : TableHeld pool.writer ⟨batch.numRows, metas⟩ batch) :
    Inv ⟨{ σ.store with
        pool
        env := σ.store.env.write
          ⟨σ.store.env.volatile.tableDb.insert tableId ⟨batch.numRows, metas⟩, used⟩ },
      false, σ.tables.insert tableId batch⟩ where
  pool := hr
  stored := by
    intro id b hl
    by_cases hid : id = tableId
    · subst hid
      obtain rfl : batch = b := by simpa using hl
      exact ⟨⟨batch.numRows, metas⟩, AList.lookup_insert _, ht⟩
    · -- the other tables lie where they were
      obtain ⟨t, htab, hb⟩ := h.stored id b (by simpa [AList.lookup_insert_ne hid] using hl)
      exact ⟨t, by simpa [Stored.write, AList.lookup_insert_ne hid] using htab, hb.mono hk⟩
  absent := by
    intro id hl
    by_cases hid : id = tableId
    · subst hid
      simp at hl
    · simpa [Stored.write, AList.lookup_insert_ne hid] using
        h.absent id (by simpa [AList.lookup_insert_ne hid] using hl)
  id_ne := by
    intro id b hl
    by_cases hid : id = tableId
    · rw [hid]
      exact hne
    · exact h.id_ne id b (by simpa [AList.lookup_insert_ne hid] using hl)
  poisoned := rfl

theorem Inv.putColumnar (h : σ.Inv) (tableId : String) (batch : RecordBatch) (locked : Bool)
    (commit : Option StoreError)
    (hret : Returns (σ.putColumnar tableId batch locked commit).1) :
    (σ.putColumnar tableId batch locked commit).2.Inv := by
  unfold ColSession.putColumnar at hret ⊢
  simp only [h.poisoned, Bool.false_and, Bool.false_eq_true, ↓reduceIte, Bool.false_or] at hret ⊢
  obtain ⟨metas, pool, used, hput, hne, hr, hk, ht⟩ | ⟨err, pool, hput, hr, hk⟩ :=
    ColumnarStore.putColumnar_spec h.pool tableId batch locked commit
  · rw [hput]
    exact h.entered hne hr hk ht
  · rw [hput] at hret ⊢
    -- a panic is not a return, so the mutex stays usable
    have hlive : isPanic (.error err : Except StoreError Unit) = false := returns_iff.mpr hret
    simp only [hlive]
    exact h.of_keeps hr hk

theorem inv_step (h : σ.Inv) (call : ColCall) (hret : σ.CallReturns call) :
    (σ.step call).Inv := by
  cases call with
  | putColumnar tableId batch locked commit => exact h.putColumnar tableId batch locked commit hret
  | flush =>
    unfold step ColSession.flush
    simp only [h.poisoned, Bool.false_eq_true, ↓reduceIte]
    have hk := SegmentPool.keeps_flush σ.store.pool
    have hw := h.pool.writer
    have hr : σ.store.pool.flush.Ready := h.pool.of_keeps ⟨hw.cursor_le, hw.mem, hw.le⟩ hk
    have h' := h.of_keeps hr hk
    exact ⟨h'.pool, h'.stored, h'.absent, h'.id_ne, rfl⟩

/-- A lookup answers with the selected columns of the last batch put as the table. -/
theorem Inv.get (h : σ.Inv) (id : String) (columns : List String) :
    σ.store.getColumnarZeroCopy id columns =
      if (strBytes id).isEmpty then .error (.heed "MDB_BAD_VALSIZE")
      else .ok ((σ.tables.lookup id).bind fun b => b.select columns) := by
  cases hne : (strBytes id).isEmpty with
  | true => simp only [ColumnarStore.getColumnarZeroCopy, hne, ↓reduceIte]
  | false =>
    cases hl : σ.tables.lookup id with
    | none => exact ColumnarStore.getColumnarZeroCopy_absent hne (h.absent id hl) columns
    | some b =>
      obtain ⟨t, ht, hb⟩ := h.stored id b hl
      exact ColumnarStore.getColumnarZeroCopy_held hne ht hb columns

/-- A table with columns is read back whole when no column is named. -/
theorem select_all {b : RecordBatch} (h : b.columns ≠ []) : b.select [] = some b := by
  have hpicked : (b.columns.filter fun c => ([] : List String).isEmpty || c.name ∈ []) =
      b.columns := List.filter_eq_self.mpr fun _ _ => rfl
  simp only [RecordBatch.select, hpicked, List.isEmpty_iff, h, ↓reduceIte]

/-- In every session whose calls return, a lookup answers with the selected columns of the
    last batch put as the table that returned `Ok`, the whole batch if no column is named,
    and every column lies at a multiple of its width.  LMDB has no empty key: its lookup is
    refused. -/
theorem refines_tables (segSize quotaLimit : Nat) (hsize : segSize ≤ u32Max)
    (calls : List ColCall)
    (hret : Run.Guarded step CallReturns (start segSize quotaLimit) calls) :
    let σ := Run.exec step (start segSize quotaLimit) calls
    (∀ id columns, σ.store.getColumnarZeroCopy id columns =
      if (strBytes id).isEmpty then .error (.heed "MDB_BAD_VALSIZE")
      else .ok ((σ.tables.lookup id).bind fun b => b.select columns)) ∧
    (∀ id b, σ.tables.lookup id = some b → b.columns ≠ [] →
      σ.store.getColumnarZeroCopy id [] = .ok (some b)) ∧
    ∀ id t, σ.store.env.volatile.tableDb.lookup id = some t →
      ∀ m ∈ t.columns, m.dtype.byteWidth ∣ m.offset := by
  intro σ
  have h : σ.Inv := hret.invariant Inv (fun _ call h hr => inv_step h call hr)
    (inv_start hsize quotaLimit)
  refine ⟨h.get, fun id b hl hcols => ?_, fun id t ht => ?_⟩
  · rw [h.get, h.id_ne id b hl, hl, Option.bind_some, select_all hcols]
    rfl
  · cases hl : σ.tables.lookup id with
    | none =>
      rw [h.absent id hl] at ht
      cases ht
    | some b =>
      obtain ⟨t', ht', hb⟩ := h.stored id b hl
      obtain rfl : t' = t := Option.some.inj (ht'.symm.trans ht)
      exact ColumnHeld.aligned_of_mem hb.2

/-- One row of flags, and one row of two numbers. -/
private def flags : RecordBatch := ⟨1, [⟨"f", .boolean, 0, [1]⟩], by decide⟩

private def numbers : RecordBatch :=
  ⟨1, [⟨"a", .int32, 0, [1, 2, 3, 4]⟩, ⟨"b", .int64, 0, [1, 2, 3, 4, 5, 6, 7, 8]⟩], by decide⟩

/-- A row whose second column has a type that is not supported. -/
private def texts : RecordBatch :=
  ⟨1, [⟨"a", .int32, 0, [9, 9, 9, 9]⟩, ⟨"s", .other "Utf8", 0, []⟩], by decide⟩

/-- In segments of sixteen bytes, the bytes of a rejected table are taken over by the next
    one, and a second rejection leaves a new segment behind. -/
theorem refines_tables_rejected :
    let calls : List ColCall :=
      [.putColumnar "f" flags true none, .putColumnar "t" texts true none,
        .putColumnar "t" numbers true none, .putColumnar "t" texts true none]
    let σ := Run.exec step (start 16 0) calls
    σ.store.pool.activeId = 1 ∧ σ.store.getColumnarZeroCopy "t" [] = .ok (some numbers) ∧
      σ.store.getColumnarZeroCopy "f" ["a"] = .ok none := by
  intro calls σ
  obtain ⟨hget, hall, -⟩ := refines_tables 16 0 (by decide) calls (by decide)
  refine ⟨by decide, hall "t" numbers (by rfl) (by decide), (hget "f" ["a"]).trans ?_⟩
  rfl

end ColSession

end FusionStore
