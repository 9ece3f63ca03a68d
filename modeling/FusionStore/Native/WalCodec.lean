import FusionStore.ForStd.LittleEndian
import FusionStore.Native.Error

/-!
# WAL operations and their binary format

The operation codec and the frame format of `mem/wal.rs`:

* body: fixed-width little-endian lengths followed by the raw payload;
* frame: `[seq: 8][op_tag: 1][body_len: 4][body]`.

Sequence numbers are natural numbers here; the frame keeps their low eight bytes.
-/

namespace FusionStore

open LittleEndian

/-- `WalOp`: the logical payload of one log entry. -/
inductive WalOp where
  | putKv (key value : Bytes)
  | insertVector (id : UInt64) (vector : List F32)
  | deleteKv (key : Bytes)
  | deleteVector (id : UInt64)
  | putColumnar (tableId : String) (ipc : Bytes)
  deriving DecidableEq

/-- `WalEntry`: sequence number and operation. -/
structure WalEntry where
  seq : Nat
  op : WalOp
  deriving DecidableEq

/-- `CheckpointMarker`. -/
structure CheckpointMarker where
  appliedSeq : Nat
  checkpointSeq : Nat
  graphSnapshot : Option String
  deriving DecidableEq

/-- `FRAME_HEADER`: seq 8 + op_tag 1 + body_len 4. -/
def frameHeader : Nat := 13

/-- `op_tag`. -/
def opTag : WalOp → UInt8
  | .putKv .. => 1
  | .insertVector .. => 2
  | .deleteKv .. => 3
  | .deleteVector .. => 4
  | .putColumnar .. => 5

/-- The little-endian bytes of a list of `f32` bit patterns. -/
def encodeF32s (vector : List F32) : Bytes :=
  vector.flatMap fun f => toLE 4 f.toNat

/-- `chunks_exact(4)` decoded as `f32`s; a rest of fewer than four bytes is dropped. -/
def decodeF32s : Bytes → List F32
  | a :: b :: c :: d :: rest => UInt32.ofNat (ofLE [a, b, c, d]) :: decodeF32s rest
  | _ => []

/-- `str::as_bytes`. -/
def strBytes (s : String) : Bytes := s.toUTF8.data.toList

/-- `std::str::from_utf8`. -/
def strFromUtf8 (bs : Bytes) : Option String := String.fromUTF8? ⟨bs.toArray⟩

/-- `encode_op`.  Lengths are written as `len as u32`. -/
def encodeOp : WalOp → Bytes
  | .putKv key value =>
    toLE 4 key.length ++ key ++ toLE 4 value.length ++ value
  | .insertVector id vector =>
    toLE 8 id.toNat ++ toLE 4 vector.length ++ encodeF32s vector
  | .deleteKv key => toLE 4 key.length ++ key
  | .deleteVector id => toLE 8 id.toNat
  | .putColumnar tableId ipc =>
    toLE 4 (strBytes tableId).length ++ strBytes tableId ++ toLE 4 ipc.length ++ ipc

/-- The slice `bytes[start..stop]`, which panics outside of `bytes`. -/
def slice (bytes : Bytes) (start stop : Nat) : Except StoreError Bytes :=
  if start ≤ stop ∧ stop ≤ bytes.length then .ok ((bytes.take stop).drop start)
  else .error (.panicked "range end index out of range for slice")

/-- `bs.try_into().unwrap()` for an array of `n` bytes. -/
def toArray (n : Nat) (bs : Bytes) : Except StoreError Bytes :=
  if bs.length = n then .ok bs
  else .error (.panicked "called Result::unwrap() on an Err value: TryFromSliceError(())")

/-- `read_u32`: the value and the rest of the reader. -/
def readU32 (r : Bytes) : Except StoreError (Nat × Bytes) := do
  if r.length < 4 then .error (.corrupt "wal op body truncated at u32")
  else
    let v ← toArray 4 (← slice r 0 4)
    let rest ← slice r 4 r.length
    .ok (ofLE v, rest)

/-- `read_bytes`: `len` bytes and the rest of the reader. -/
def readBytes (r : Bytes) (len : Nat) : Except StoreError (Bytes × Bytes) := do
  if r.length < len then
    .error (.corrupt s!"wal op body truncated: need {len} have {r.length}")
  else
    let out ← slice r 0 len
    let rest ← slice r len r.length
    .ok (out, rest)

/-- `decode_put_kv`. -/
def decodePutKv (body : Bytes) : Except StoreError WalOp := do
  let (klen, r) ← readU32 body
  let (key, r) ← readBytes r klen
  let (vlen, r) ← readU32 r
  let (value, r) ← readBytes r vlen
  if !r.isEmpty then .error (.corrupt "wal put_kv trailing bytes")
  else .ok (.putKv key value)

/-- `decode_insert_vec`. -/
def decodeInsertVec (body : Bytes) : Except StoreError WalOp := do
  if body.length < 8 then .error (.corrupt "wal insert_vec truncated id")
  else
    let id ← toArray 8 (← slice body 0 8)
    let r ← slice body 8 body.length
    let (dim, r) ← readU32 r
    if dim * 4 > u64Max then .error (.corrupt "wal insert_vec dim overflow")
    else
      let (raw, r) ← readBytes r (dim * 4)
      if !r.isEmpty then .error (.corrupt "wal insert_vec trailing bytes")
      else .ok (.insertVector (UInt64.ofNat (ofLE id)) (decodeF32s raw))

/-- `decode_delete_kv`. -/
def decodeDeleteKv (body : Bytes) : Except StoreError WalOp := do
  let (klen, r) ← readU32 body
  let (key, r) ← readBytes r klen
  if !r.isEmpty then .error (.corrupt "wal delete_kv trailing bytes")
  else .ok (.deleteKv key)

/-- `decode_delete_vec`. -/
def decodeDeleteVec (body : Bytes) : Except StoreError WalOp := do
  if body.length ≠ 8 then .error (.corrupt "wal delete_vec body != 8 bytes")
  else
    let id ← toArray 8 body
    .ok (.deleteVector (UInt64.ofNat (ofLE id)))

/-- `decode_put_col`. -/
def decodePutCol (body : Bytes) : Except StoreError WalOp := do
  let (tlen, r) ← readU32 body
  let (tidBytes, r) ← readBytes r tlen
  match strFromUtf8 tidBytes with
  | none => .error (.corrupt "wal put_col table_id not utf8")
  | some tableId =>
    let (ilen, r) ← readU32 r
    let (ipc, r) ← readBytes r ilen
    if !r.isEmpty then .error (.corrupt "wal put_col trailing bytes")
    else .ok (.putColumnar tableId ipc)

/-- `decode_op`. -/
def decodeOp (tag : UInt8) (body : Bytes) : Except StoreError WalOp :=
  if tag = 1 then decodePutKv body
  else if tag = 2 then decodeInsertVec body
  else if tag = 3 then decodeDeleteKv body
  else if tag = 4 then decodeDeleteVec body
  else if tag = 5 then decodePutCol body
  else .error (.corrupt s!"unknown wal op tag {tag.toNat}")

/-- One frame: header and body. -/
def frame (e : WalEntry) : Bytes :=
  let body := encodeOp e.op
  toLE 8 e.seq ++ [opTag e.op] ++ toLE 4 body.length ++ body

/-- The bytes of a log file that holds the frames of `es`. -/
def frames (es : List WalEntry) : Bytes := es.flatMap frame

/-- `FrameRead`; an entry comes with the unread rest of the file. -/
inductive FrameRead where
  | entry (e : WalEntry) (rest : Bytes)
  | tornTail
  | eof

/-- `read_frame_or_torn`. -/
def readFrameOrTorn (r : Bytes) : Except StoreError FrameRead := do
  if r.length < frameHeader then .ok .eof
  else
    let seq := ofLE (r.take 8)
    let tag := (r.drop 8).headD 0
    let bodyLen := ofLE ((r.drop 9).take 4)
    let r := r.drop frameHeader
    if r.length < bodyLen then .ok .tornTail
    else
      let op ← decodeOp tag (r.take bodyLen)
      .ok (.entry ⟨seq, op⟩ (r.drop bodyLen))

/-- The `while let FrameRead::Entry` loop of `read_all`.  Each turn consumes a
    frame, so the file length is enough fuel (`readLoop_fuel`). -/
def readLoop : Nat → Bytes → Except StoreError (List WalEntry)
  | 0, _ => .ok []
  | fuel + 1, r => do
    match ← readFrameOrTorn r with
    | .entry e rest => .ok (e :: (← readLoop fuel rest))
    | .tornTail => .ok []
    | .eof => .ok []

/-- `Wal::read_all` on the bytes of `wal.log`. -/
def readAll (log : Bytes) : Except StoreError (List WalEntry) := readLoop log.length log

/-- `max_seq`: the largest sequence number in the log, `0` if there is none. -/
def maxSeq (log : Bytes) : Except StoreError Nat :=
  return (← readAll log).foldl (fun m e => max m e.seq) 0

end FusionStore
