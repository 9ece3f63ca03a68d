import FusionStore.Native.Session

/-!
# The C ABI

`fs-ffi-c`: each function turns the result of one call of the engine into a return code and
copies what is read into a buffer of the caller.  A null pointer is `none` here, and so is the
code of a call that panics, since a panic does not leave an `extern "C"` function but aborts
the process.
-/

namespace FusionStore

/-! ### Return codes -/

/-- `OK`. -/
def codeOk : Int := 0

/-- `ERR_NOT_FOUND`. -/
def errNotFound : Int := -3

/-- `ERR_OTHER`. -/
def errOther : Int := -99

/-- `err_code`. -/
def errCode : StoreError → Option Int
  | .io _ => some (-1)
  | .heed _ => some (-2)
  | .notFound => some errNotFound
  | .duplicateVector _ => some (-4)
  | .dimensionMismatch _ _ => some (-5)
  | .quotaExceeded => some (-6)
  | .busy => some (-7)
  | .lockBusy => some (-8)
  | .corrupt _ => some (-9)
  | .timeout => some (-10)
  | .segmentFull => some (-11)
  | .arrow _ => some (-12)
  | .serdeJson _ => some (-13)
  | .valueTooLarge _ => some (-14)
  | .lockPoisoned => some (-15)
  | .mapFull _ _ => some (-16)
  | .invalidKey _ => some (-17)
  | .panicked _ => none

/-! ### Buffers -/

/-- A buffer of the caller, with its capacity, and the cell for the length.  What the caller
    promises is that the buffer has that capacity. -/
structure OutBuf (α : Type) where
  cells : List α
  cap : Nat
  len : Nat
  owned : cap ≤ cells.length

/-- `copy_nonoverlapping` to the start of a buffer. -/
def copyTo {α : Type} (cells xs : List α) : List α := xs ++ cells.drop xs.length

/-- The end of a read: the length is always written, the elements only if all of them fit. -/
def OutBuf.fill {α : Type} (out : OutBuf α) (xs : List α) : Int × OutBuf α :=
  if h : xs.length ≤ out.cap then
    (codeOk, { out with
      cells := copyTo out.cells xs
      len := xs.length
      owned := by
        have howned := out.owned
        simp only [copyTo, List.length_append, List.length_drop]
        omega })
  else (errOther, { out with len := xs.length })

/-- The buffers of a search for `topK` neighbours, and the cell for their number. -/
structure HitBuf (topK : Nat) where
  ids : List NodeId
  dists : List F32
  n : Nat
  ownedIds : topK ≤ ids.length
  ownedDists : topK ≤ dists.length

/-- The loop that writes the hits. -/
def HitBuf.fill {topK : Nat} (out : HitBuf topK) (results : List (NodeId × F32)) :
    HitBuf topK where
  ids := copyTo out.ids ((results.take topK).map Prod.fst)
  dists := copyTo out.dists ((results.take topK).map Prod.snd)
  n := min results.length topK
  ownedIds := by
    have howned := out.ownedIds
    simp only [copyTo, List.length_append, List.length_drop, List.length_map, List.length_take]
    omega
  ownedDists := by
    have howned := out.ownedDists
    simp only [copyTo, List.length_append, List.length_drop, List.length_map, List.length_take]
    omega

/-! ### Functions -/

/-- The code of a call that returns nothing else. -/
def codeOf : Except StoreError Unit → Option Int
  | .ok _ => some codeOk
  | .error e => errCode e

variable (A : F32Arith) (I : Ipc)

/-- `fs_store_create`, on the files of its path: `none` if the path is null or not UTF-8, or if
    there is no cell for the handle. -/
def fsStoreCreate (path : Option EngineDir) (dim : Nat) (order : MapOrder) :
    Option Int × Option Engine × Option EngineDir :=
  match path with
  | none => (some errOther, none, none)
  | some d =>
    match Engine.open A I d (some (.new dim .l2)) 0 order with
    | (.ok e, left) => (some codeOk, some e, some left)
    | (.error err, left) => (errCode err, none, some left)

/-- `fs_store_open`. -/
def fsStoreOpen (path : Option EngineDir) (order : MapOrder) :
    Option Int × Option Engine × Option EngineDir :=
  match path with
  | none => (some errOther, none, none)
  | some d =>
    match Engine.open A I d none 0 order with
    | (.ok e, left) => (some codeOk, some e, some left)
    | (.error err, left) => (errCode err, none, some left)

/-- `fs_store_close`: the files it leaves. -/
def fsStoreClose (h : Option Engine) : Option EngineDir := h.map fun e => e.close.dir

/-- `fs_store_put_kv`. -/
def fsStorePutKv (h : Option Engine) (key value : Option Bytes) : Option Int × Option Engine :=
  match h, key, value with
  | some e, some key, some value =>
    let (r, e) := e.putKv key value true
    (codeOf r, some e)
  | h, _, _ => (some errOther, h)

/-- `fs_store_get_kv`; `out` is `none` if one of its pointers is null. -/
def fsStoreGetKv (h : Option Engine) (key : Option Bytes) (out : Option (OutBuf UInt8)) :
    Option Int × Option (OutBuf UInt8) :=
  match h, key, out with
  | some e, some key, some out =>
    match e.getKvZeroCopy key with
    | .ok (some bytes) =>
      let (code, out) := out.fill bytes
      (some code, some out)
    | .ok none => (some errNotFound, some out)
    | .error err => (errCode err, some out)
  | _, _, out => (some errOther, out)

/-- `fs_store_insert_vector`. -/
def fsStoreInsertVector (h : Option Engine) (id : NodeId) (v : Option (List F32)) :
    Option Int × Option Engine :=
  match h, v with
  | some e, some v =>
    let (r, e) := e.insertVector A id v
    (codeOf r, some e)
  | h, _ => (some errOther, h)

/-- `fs_store_search_knn`, which has no deadline. -/
def fsStoreSearchKnn (h : Option Engine) (q : Option (List F32)) (topK : Nat)
    (out : Option (HitBuf topK)) : Option Int × Option (HitBuf topK) :=
  match h, q, out with
  | some e, some q, some out =>
    match e.searchKnn A q topK fun _ => false with
    | .ok results => (some codeOk, some (out.fill results))
    | .error err => (errCode err, some out)
  | _, _, out => (some errOther, out)

/-- `fs_store_delete_vector`. -/
def fsStoreDeleteVector (h : Option Engine) (id : NodeId) : Option Int × Option Engine :=
  match h with
  | none => (some errOther, none)
  | some e =>
    match e.deleteVector id with
    | (.ok deleted, e) => (some (if deleted then codeOk else errNotFound), some e)
    | (.error err, e) => (errCode err, some e)

/-- `fs_store_get_vector`; lengths count floats. -/
def fsStoreGetVector (h : Option Engine) (id : NodeId) (out : Option (OutBuf F32)) :
    Option Int × Option (OutBuf F32) :=
  match h, out with
  | some e, some out =>
    match e.getVector id with
    | .ok (some v) =>
      let (code, out) := out.fill v
      (some code, some out)
    | .ok none => (some errNotFound, some out)
    | .error err => (errCode err, some out)
  | _, out => (some errOther, out)

/-- `fs_store_list_vector_ids`. -/
def fsStoreListVectorIds (h : Option Engine) (out : Option (OutBuf NodeId)) :
    Option Int × Option (OutBuf NodeId) :=
  match h, out with
  | some e, some out =>
    match e.listVectorIds with
    | .ok ids =>
      let (code, out) := out.fill ids
      (some code, some out)
    | .error err => (errCode err, some out)
  | _, out => (some errOther, out)

/-- `fs_store_vector_dim`: zero without a handle or an index. -/
def fsStoreVectorDim (h : Option Engine) : Nat :=
  match h with
  | none => 0
  | some e =>
    match e.ensureVec with
    | .ok x => x.schema.dim
    | .error _ => 0

/-- `fs_store_checkpoint`. -/
def fsStoreCheckpoint (h : Option Engine) : Option Int × Option Engine :=
  match h with
  | none => (some errOther, none)
  | some e => (some codeOk, some e.checkpoint)

/-! ### Clients -/

/-- The calls of a client that works on one path and one dimension, through the handle of its
    open store, which is null while none is open.  An open is `named` if it gets the path, in
    UTF-8, and a cell for the handle; `order` is the outcome of the rebuild of the graph. -/
inductive CCall where
  | create (named : Bool) (order : MapOrder)
  | «open» (named : Bool) (order : MapOrder)
  | close
  | putKv (key value : Option Bytes)
  | getKv (key : Option Bytes) (out : Option (OutBuf UInt8))
  | insertVector (id : NodeId) (v : Option (List F32))
  | searchKnn (q : Option (List F32)) (topK : Nat) (out : Option (HitBuf topK))
  | deleteVector (id : NodeId)
  | getVector (id : NodeId) (out : Option (OutBuf F32))
  | listVectorIds (out : Option (OutBuf NodeId))
  | vectorDim
  | checkpoint

/-- What the client has after a call; `skipped` is a call it does not make. -/
inductive CReply where
  | code (c : Int)
  | bytes (c : Int) (out : Option (OutBuf UInt8))
  | floats (c : Int) (out : Option (OutBuf F32))
  | ids (c : Int) (out : Option (OutBuf NodeId))
  | hits (c : Int) (topK : Nat) (out : Option (HitBuf topK))
  | dim (n : Nat)
  | void
  | aborted
  | skipped

/-- The client's process: its handle, null or not, over the files; or it has aborted. -/
inductive CHost where
  | closed (d : EngineDir)
  | opened (e : Engine)
  | aborted (d : EngineDir)

namespace CHost

/-- The handle. -/
def handle : CHost → Option Engine
  | .opened e => some e
  | .closed _ | .aborted _ => none

/-- The files. -/
def dir : CHost → EngineDir
  | .opened e => e.dir
  | .closed d | .aborted d => d

/-- After a call that may have changed the engine. -/
def update (s : CHost) (r : Option Int × Option Engine) : CHost × CReply :=
  match r with
  | (some c, some e) => (.opened e, .code c)
  | (some c, none) => (s, .code c)
  | (none, some e) => (.aborted e.dir, .aborted)
  | (none, none) => (.aborted s.dir, .aborted)

/-- After a read. -/
def read {β : Type} (s : CHost) (reply : Int → β → CReply) (r : Option Int × β) :
    CHost × CReply :=
  match r with
  | (some c, out) => (s, reply c out)
  | (none, _) => (.aborted s.dir, .aborted)

/-- After `fs_store_create` or `fs_store_open` on the files `d`. -/
def start (d : EngineDir) (r : Option Int × Option Engine × Option EngineDir) : CHost × CReply :=
  match r with
  | (some c, some e, _) => (.opened e, .code c)
  | (some c, none, left) => (.closed (left.getD d), .code c)
  | (none, _, left) => (.aborted (left.getD d), .aborted)

variable (dim : Nat)

/-- One call.  A client closes its store before it opens or creates it again. -/
def step (s : CHost) : CCall → CHost × CReply
  | .create named order =>
    match named, s with
    | false, s => s.update ((fsStoreCreate A I none dim order).1, s.handle)
    | true, .closed d => start d (fsStoreCreate A I (some d) dim order)
    | true, s => (s, .skipped)
  | .open named order =>
    match named, s with
    | false, s => s.update ((fsStoreOpen A I none order).1, s.handle)
    | true, .closed d => start d (fsStoreOpen A I (some d) order)
    | true, s => (s, .skipped)
  | .close =>
    match fsStoreClose s.handle with
    | some d => (.closed d, .void)
    | none => (s, .void)
  | .putKv key value => s.update (fsStorePutKv s.handle key value)
  | .getKv key out => s.read .bytes (fsStoreGetKv s.handle key out)
  | .insertVector id v => s.update (fsStoreInsertVector A s.handle id v)
  | .searchKnn q topK out =>
    s.read (fun c out => .hits c topK out) (fsStoreSearchKnn A s.handle q topK out)
  | .deleteVector id => s.update (fsStoreDeleteVector s.handle id)
  | .getVector id out => s.read .floats (fsStoreGetVector s.handle id out)
  | .listVectorIds out => s.read .ids (fsStoreListVectorIds s.handle out)
  | .vectorDim => (s, .dim (fsStoreVectorDim s.handle))
  | .checkpoint => s.update (fsStoreCheckpoint s.handle)

end CHost

end FusionStore
