import Mathlib.Data.List.AList
import FusionStore.Native.Segment
import FusionStore.Native.WalCodec

/-!
# Columnar store

`ColumnarStore` of `columnar/store.rs`: the data buffers of each column in
append-only segments, `TableMeta` and the quota counter in one heed environment.
An Arrow array is its type, its null count and the bytes of its data buffer; the
IPC stream codec of the WAL payload is a parameter (`Ipc`).
-/

namespace FusionStore

/-- Arrow's `DataType`, with the types the store rejects under their debug text. -/
inductive DataType where
  | int32
  | int64
  | float32
  | float64
  | boolean
  | other (debug : String)
  deriving DecidableEq

/-- The debug text of a `DataType`. -/
def DataType.debug : DataType → String
  | .int32 => "Int32"
  | .int64 => "Int64"
  | .float32 => "Float32"
  | .float64 => "Float64"
  | .boolean => "Boolean"
  | .other debug => debug

/-- `ColType`. -/
inductive ColType where
  | int32
  | int64
  | float32
  | float64
  | boolean
  deriving DecidableEq, Repr

namespace ColType

/-- `to_arrow`. -/
def toArrow : ColType → DataType
  | .int32 => .int32
  | .int64 => .int64
  | .float32 => .float32
  | .float64 => .float64
  | .boolean => .boolean

/-- `byte_width`: booleans are bit-packed, so their buffer needs no alignment. -/
def byteWidth : ColType → Nat
  | .int32 | .float32 => 4
  | .int64 | .float64 => 8
  | .boolean => 1

/-- `from_arrow`. -/
def fromArrow : DataType → Option ColType
  | .int32 => some .int32
  | .int64 => some .int64
  | .float32 => some .float32
  | .float64 => some .float64
  | .boolean => some .boolean
  | .other _ => none

/-- The bytes the data buffer of `rows` values takes. -/
def bufferLen (t : ColType) (rows : Nat) : Nat :=
  match t with
  | .boolean => (rows + 7) / 8
  | t => rows * t.byteWidth

end ColType

/-- `ColumnMeta`. -/
structure ColumnMeta where
  name : String
  dtype : ColType
  segId : Nat
  offset : Nat
  len : Nat
  deriving DecidableEq, Repr

/-- `TableMeta`. -/
structure TableMeta where
  rowCount : Nat
  columns : List ColumnMeta
  deriving DecidableEq, Repr

/-- A field and its array. -/
structure Column where
  name : String
  dataType : DataType
  nullCount : Nat
  values : Bytes
  deriving DecidableEq

/-- Arrow keeps the buffer of a supported column at the length of its rows. -/
def Column.WellSized (rows : Nat) (c : Column) : Prop :=
  ∀ t ∈ ColType.fromArrow c.dataType, c.values.length = t.bufferLen rows

instance (rows : Nat) (c : Column) : Decidable (c.WellSized rows) :=
  inferInstanceAs (Decidable (∀ t ∈ ColType.fromArrow c.dataType, _))

/-- `RecordBatch`. -/
structure RecordBatch where
  numRows : Nat
  columns : List Column
  wellSized : ∀ c ∈ columns, c.WellSized numRows

/-- `RecordBatch::try_new`. -/
def RecordBatch.tryNew (numRows : Nat) (columns : List Column) :
    Except StoreError RecordBatch :=
  if h : ∀ c ∈ columns, c.WellSized numRows then .ok ⟨numRows, columns, h⟩
  else .error (.arrow "all columns in a record batch must have the same length")

/-- `encode_ipc` and `decode_ipc`: the Arrow stream writer and reader. -/
structure Ipc where
  encode : RecordBatch → Except StoreError Bytes
  decode : Bytes → Except StoreError RecordBatch

/-- The `col_tables` table and the `col_quota` counter. -/
structure ColEnv where
  tableDb : AList (fun _ : String => TableMeta)
  used : Nat

/-- The files of the columnar directory. -/
structure ColDir where
  env : Stored ColEnv
  segs : SegDir

/-- A columnar directory without files. -/
def ColDir.empty : ColDir := ⟨.synced ⟨∅, 0⟩, .empty⟩

/-- What a power loss leaves of the columnar directory. -/
def ColDir.powerLoss (d : ColDir) : ColDir := ⟨d.env.powerLoss, d.segs.powerLoss⟩

/-- `ColumnarStore`. -/
structure ColumnarStore where
  env : Stored ColEnv
  pool : SegmentPool
  quotaLimit : Nat

namespace ColumnarStore

/-- `ColumnarStore::open`. -/
def «open» (d : ColDir) (segSize quotaLimit : Nat) : ColumnarStore where
  env := d.env
  pool := SegmentPool.open d.segs segSize
  quotaLimit := quotaLimit

/-- The files an open store leaves when its process dies. -/
def dir (s : ColumnarStore) : ColDir := ⟨s.env, s.pool.dir⟩

/-- The column loop of `put_columnar_inner`: the metas and the bytes appended. -/
def appendColumns (p : SegmentPool) :
    List Column → Except StoreError (List ColumnMeta × Nat) × SegmentPool
  | [] => (.ok ([], 0), p)
  | c :: cs =>
    match ColType.fromArrow c.dataType with
    | none =>
      (.error (.corrupt
        s!"unsupported column type {c.dataType.debug} (M3: Int32/Int64/Float32/Float64/Boolean only)"), p)
    | some dtype =>
      -- columns before this one are in the pool by now
      if c.nullCount ≠ 0 then
        (.error (.corrupt s!"column {c.name} has nulls (M3 supports non-null only)"), p)
      else
        match p.appendAligned c.values dtype.byteWidth with
        | (.error e, p) => (.error e, p)
        | (.ok loc, p) =>
          match appendColumns p cs with
          | (.error e, p) => (.error e, p)
          | (.ok (metas, n), p) =>
            (.ok (⟨c.name, dtype, loc.segId, loc.offset, loc.len⟩ :: metas, loc.len + n), p)

/-- Undo the appends of a rejected table; a failed rewind is only logged. -/
def rollback (p : SegmentPool) (segId offset : Nat) : SegmentPool :=
  match p.rewindActiveTo segId offset with
  | .ok p => p
  | .error _ => p

/-- `put_columnar_inner`; `commit` is the outcome of the heed commit. -/
def putColumnarInner (s : ColumnarStore) (tableId : String) (batch : RecordBatch)
    (commit : Option StoreError) : Except StoreError Unit × ColumnarStore :=
  -- the lookup of the old table rejects an empty key
  if (strBytes tableId).isEmpty then (.error (.heed "MDB_BAD_VALSIZE"), s)
  else
    let env := s.env.volatile
    let oldBytes := match env.tableDb.lookup tableId with
      | some prev => (prev.columns.map ColumnMeta.len).sum
      | none => 0
    let undo (p : SegmentPool) := rollback p s.pool.activeId (s.pool.activeCursor % 2 ^ 32)
    match appendColumns s.pool batch.columns with
    | (.error e, pool) => (.error e, { s with pool := undo pool })
    | (.ok (columns, appended), pool) =>
      let newUsed := env.used + (appended - oldBytes)
      -- an overflowing counter and a key too long for LMDB return before the rewind
      if newUsed > u64Max then (.error .quotaExceeded, { s with pool })
      else if s.quotaLimit > 0 ∧ newUsed > s.quotaLimit then
        (.error .quotaExceeded, { s with pool := undo pool })
      else if (strBytes tableId).length > 511 then
        (.error (.heed "MDB_BAD_VALSIZE"), { s with pool })
      else
        match commit with
        | some e => (.error e, { s with pool := undo pool })
        | none =>
          let tableDb := env.tableDb.insert tableId ⟨batch.numRows, columns⟩
          (.ok (), { s with pool, env := s.env.write ⟨tableDb, newUsed⟩ })

/-- `put_columnar`; `locked` is the outcome of `acquire_write_lock`. -/
def putColumnar (s : ColumnarStore) (tableId : String) (batch : RecordBatch) (locked : Bool)
    (commit : Option StoreError) : Except StoreError Unit × ColumnarStore :=
  if locked then s.putColumnarInner tableId batch commit else (.error .lockBusy, s)

/-- `sealed_handle` and `build_primitive_array` for one column. -/
def buildColumn (s : ColumnarStore) (rows : Nat) (m : ColumnMeta) : Except StoreError Column :=
  if m.segId ∉ s.pool.dir.files then .error (.corrupt s!"sealed segment {m.segId} missing")
  else if m.len < m.dtype.bufferLen rows then
    .error (.panicked "the offset of the new Buffer cannot exceed the existing length")
  else
    .ok ⟨m.name, m.dtype.toArrow, 0,
      s.pool.dir.mem.volatile.read m.segId m.offset (m.dtype.bufferLen rows)⟩

/-- `get_columnar_zero_copy`; an empty `columns` selects all. -/
def getColumnarZeroCopy (s : ColumnarStore) (tableId : String) (columns : List String) :
    Except StoreError (Option RecordBatch) := do
  if (strBytes tableId).isEmpty then .error (.heed "MDB_BAD_VALSIZE")
  else
    match s.env.volatile.tableDb.lookup tableId with
    | none => .ok none
    | some tbl =>
      let picked := tbl.columns.filter fun c => columns.isEmpty || c.name ∈ columns
      let arrays ← picked.mapM (s.buildColumn tbl.rowCount)
      if arrays.isEmpty then .ok none
      else .ok (some (← RecordBatch.tryNew tbl.rowCount arrays))

/-- `used_bytes`. -/
def usedBytes (s : ColumnarStore) : Nat := s.env.volatile.used

/-- `ColumnarStore::flush`. -/
def flush (s : ColumnarStore) : ColumnarStore := { s with pool := s.pool.flush, env := s.env.sync }

end ColumnarStore

end FusionStore
