import FusionStore.ForStd.Run
import FusionStore.Native.Columnar
import FusionStore.Native.HandleCache
import FusionStore.Native.Kv

/-!
# Sessions of the KV and the columnar store

One process that opens an empty directory and calls the store, in any order and with any
outcome of the lock and of the heed commit: `put_kv`, `delete_kv`, `get_kv_zero_copy` and
`flush` of the KV store, whose reads go through the cache of mappings, and `put_columnar` and
`flush` of the columnar store.  Beside the store, a session records what the calls that
returned `Ok` have said: the last value put under each key, the last batch put as each table.
-/

namespace FusionStore

/-- The calls.  `locked` and `commit` are the outcomes of `acquire_write_lock` and of the
    heed commit, `held` the segments whose mappings readers hold during the call. -/
inductive KvCall where
  | put (key value : Bytes) (locked : Bool) (commit : Option StoreError) (held : Nat → Bool)
  | delete (key : Bytes) (locked : Bool) (commit : Option StoreError)
  | get (key : Bytes) (held : Nat → Bool)
  | flush

/-- An open store, its mappings, whether a panic has poisoned the mutex of its pool, and the
    values its callers were told are stored. -/
structure KvSession where
  store : KvStore
  cache : HandleCache
  poisoned : Bool
  values : AList (fun _ : Bytes => Bytes)

/-- The call unwound in a panic. -/
def isPanic {α : Type} : Except StoreError α → Bool
  | .error (.panicked _) => true
  | _ => false

theorem returns_iff {α : Type} {r : Except StoreError α} : isPanic r = false ↔ Returns r := by
  unfold isPanic Returns
  split
  · rename_i msg
    exact iff_of_false (Ne.symm Bool.false_ne_true) fun h => h msg rfl
  · rename_i h
    exact iff_of_true rfl h

instance {α : Type} (r : Except StoreError α) : Decidable (Returns r) :=
  decidable_of_iff _ returns_iff

/-- The checks of `put_kv` before it locks the pool. -/
def KvStore.passesChecks (s : KvStore) (key value : Bytes) (locked : Bool) : Bool :=
  let oldLen := match s.env.volatile.db.lookup key with
    | some loc => loc.len
    | none => 0
  let newUsed := s.env.volatile.used + (value.length - oldLen)
  locked && !key.isEmpty && key.length ≤ lmdbMaxKey && newUsed ≤ u64Max &&
    (s.quotaLimit = 0 || newUsed ≤ s.quotaLimit)

namespace KvSession

/-- A store opened on an empty directory. -/
def start (segSize quotaLimit : Nat) : KvSession :=
  ⟨.open .empty segSize quotaLimit, .empty, false, ∅⟩

/-- `put_kv`.  A panic inside the pool poisons its mutex. -/
def put (σ : KvSession) (key value : Bytes) (locked : Bool) (commit : Option StoreError)
    (held : Nat → Bool) : Except StoreError Unit × KvSession :=
  if σ.poisoned && σ.store.passesChecks key value locked then (.error .lockPoisoned, σ)
  else
    let (res, store) := σ.store.putKv key value locked commit
    let values := match res with
      | .ok () => σ.values.insert key value
      | .error _ => σ.values
    (res, ⟨store, σ.cache.follow held σ.store.pool store.pool, σ.poisoned || isPanic res, values⟩)

/-- `delete_kv`, which does not touch the pool. -/
def delete (σ : KvSession) (key : Bytes) (locked : Bool) (commit : Option StoreError) :
    Except StoreError Bool × KvSession :=
  let (res, store) := σ.store.deleteKv key locked commit
  let values := match res with
    | .ok _ => σ.values.erase key
    | .error _ => σ.values
  (res, { σ with store, values })

/-- `get_kv_zero_copy`, through the cache of mappings. -/
def get (σ : KvSession) (key : Bytes) (held : Nat → Bool) :
    Except StoreError (Option Bytes) × KvSession :=
  match KvStore.heedGet σ.store.env.volatile.db key with
  | .error e => (.error e, σ)
  | .ok none => (.ok none, σ)
  | .ok (some loc) =>
    if σ.poisoned then (.error .lockPoisoned, σ)
    else
      match σ.cache.sealedHandle held σ.store.pool loc.segId with
      | (.error e, cache) => (.error e, { σ with cache })
      | (.ok handle, cache) =>
        ((handle.zeroCopy σ.store.pool loc.offset loc.len).map some, { σ with cache })

/-- `flush`. -/
def flush (σ : KvSession) : Except StoreError Unit × KvSession :=
  if σ.poisoned then (.error .lockPoisoned, σ) else (.ok (), { σ with store := σ.store.flush })

/-- One call. -/
def step (σ : KvSession) : KvCall → KvSession
  | .put key value locked commit held => (σ.put key value locked commit held).2
  | .delete key locked commit => (σ.delete key locked commit).2
  | .get key held => (σ.get key held).2
  | .flush => σ.flush.2

/-- The call returns, with a result or an error; a panic does not. -/
def CallReturns (σ : KvSession) : KvCall → Prop
  | .put key value locked commit held => Returns (σ.put key value locked commit held).1
  | .delete key locked commit => Returns (σ.delete key locked commit).1
  | .get key held => Returns (σ.get key held).1
  | .flush => Returns σ.flush.1

instance (σ : KvSession) (call : KvCall) : Decidable (σ.CallReturns call) :=
  match call with
  | .put .. | .delete .. | .get .. | .flush => inferInstanceAs (Decidable (Returns _))

end KvSession

/-! ### The columnar store -/

/-- The bytes of the column buffers of a batch. -/
def RecordBatch.bytes (b : RecordBatch) : Nat := (b.columns.map fun c => c.values.length).sum

/-- The calls. -/
inductive ColCall where
  | putColumnar (tableId : String) (batch : RecordBatch) (locked : Bool)
    (commit : Option StoreError)
  | flush

/-- An open store, whether the mutex of its pool is poisoned, and the tables its callers were
    told are stored. -/
structure ColSession where
  store : ColumnarStore
  poisoned : Bool
  tables : AList (fun _ : String => RecordBatch)

namespace ColSession

/-- A store opened on an empty directory. -/
def start (segSize quotaLimit : Nat) : ColSession := ⟨.open .empty segSize quotaLimit, false, ∅⟩

/-- `put_columnar`.  The lookup of the old table comes before the pool is locked. -/
def putColumnar (σ : ColSession) (tableId : String) (batch : RecordBatch) (locked : Bool)
    (commit : Option StoreError) : Except StoreError Unit × ColSession :=
  if σ.poisoned && locked && !(strBytes tableId).isEmpty then (.error .lockPoisoned, σ)
  else
    let (res, store) := σ.store.putColumnar tableId batch locked commit
    let tables := match res with
      | .ok () => σ.tables.insert tableId batch
      | .error _ => σ.tables
    (res, ⟨store, σ.poisoned || isPanic res, tables⟩)

/-- `flush`. -/
def flush (σ : ColSession) : Except StoreError Unit × ColSession :=
  if σ.poisoned then (.error .lockPoisoned, σ) else (.ok (), { σ with store := σ.store.flush })

/-- One call. -/
def step (σ : ColSession) : ColCall → ColSession
  | .putColumnar tableId batch locked commit => (σ.putColumnar tableId batch locked commit).2
  | .flush => σ.flush.2

end ColSession

end FusionStore
