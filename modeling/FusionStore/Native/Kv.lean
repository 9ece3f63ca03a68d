import Mathlib.Data.List.AList
import FusionStore.Native.Segment

/-!
# KV store

`KvStore` of `store/kv.rs`: payloads in append-only segments, locators and the
quota counter in one heed environment.  heed is a transactional map; commits run
under `NO_SYNC`, so only `force_sync` makes them durable.  Locators are kept
decoded (`binencode`/`bindecode` are a fixed twelve-byte layout of the same
record).
-/

namespace FusionStore

/-- The `kv_locators` table and the `kv_quota` counter (`0` if absent). -/
structure KvEnv where
  db : AList (fun _ : Bytes => ValueLocator)
  used : Nat

/-- The files of the KV directory. -/
structure KvDir where
  env : Stored KvEnv
  segs : SegDir

/-- An empty KV directory. -/
def KvDir.empty : KvDir := ⟨.synced ⟨∅, 0⟩, .empty⟩

/-- What a power loss leaves of the KV directory. -/
def KvDir.powerLoss (d : KvDir) : KvDir := ⟨d.env.powerLoss, d.segs.powerLoss⟩

/-- `KvStore`. -/
structure KvStore where
  env : Stored KvEnv
  pool : SegmentPool
  quotaLimit : Nat

/-- `LMDB_MAX_KEY`. -/
def lmdbMaxKey : Nat := 511

namespace KvStore

/-- `KvStore::open`. -/
def «open» (d : KvDir) (segSize quotaLimit : Nat) : KvStore where
  env := d.env
  pool := SegmentPool.open d.segs segSize
  quotaLimit := quotaLimit

/-- The files an open store leaves when its process dies. -/
def dir (s : KvStore) : KvDir := ⟨s.env, s.pool.dir⟩

/-- `put_kv_inner`.  `commit` is the outcome of the heed commit: `none` on
    success, otherwise the classified error. -/
def putKvInner (s : KvStore) (key value : Bytes) (commit : Option StoreError) :
    Except StoreError Unit × KvStore :=
  if key.isEmpty then (.error (.invalidKey "empty key rejected"), s)
  else if key.length > lmdbMaxKey then
    (.error (.invalidKey "key exceeds LMDB MDB_MAXKEYSIZE (511)"), s)
  else
    let env := s.env.volatile
    let oldLen := match env.db.lookup key with
      | some loc => loc.len
      | none => 0
    -- the quota counts the net growth of an overwrite
    let net := value.length - oldLen
    let newUsed := env.used + net
    if newUsed > u64Max then (.error .quotaExceeded, s)
    else if s.quotaLimit > 0 ∧ newUsed > s.quotaLimit then (.error .quotaExceeded, s)
    else
      match s.pool.append value with
      | (.error e, pool) => (.error e, { s with pool })
      | (.ok loc, pool) =>
        match commit with
        | none => (.ok (), { s with pool, env := s.env.write ⟨env.db.insert key loc, newUsed⟩ })
        | some e =>
          match pool.rewindActiveTo loc.segId loc.offset with
          | .ok pool => (.error e, { s with pool })
          | .error _ => (.error e, { s with pool })

/-- `put_kv`; `locked` is the outcome of `acquire_write_lock`. -/
def putKv (s : KvStore) (key value : Bytes) (locked : Bool) (commit : Option StoreError) :
    Except StoreError Unit × KvStore :=
  if locked then s.putKvInner key value commit else (.error .lockBusy, s)

/-- A heed lookup: LMDB rejects an empty key. -/
def heedGet (db : AList (fun _ : Bytes => ValueLocator)) (key : Bytes) :
    Except StoreError (Option ValueLocator) :=
  if key.isEmpty then .error (.heed "MDB_BAD_VALSIZE") else .ok (db.lookup key)

/-- `get_kv_zero_copy`. -/
def getKvZeroCopy (s : KvStore) (key : Bytes) : Except StoreError (Option Bytes) := do
  match ← heedGet s.env.volatile.db key with
  | none => .ok none
  | some loc => .ok (some (← s.pool.view loc))

/-- `delete_kv_inner`. -/
def deleteKvInner (s : KvStore) (key : Bytes) (commit : Option StoreError) :
    Except StoreError Bool × KvStore :=
  let env := s.env.volatile
  match heedGet env.db key with
  | .error e => (.error e, s)
  | .ok none => (.ok false, s)
  | .ok (some loc) =>
    match commit with
    | none => (.ok true, { s with env := s.env.write ⟨env.db.erase key, env.used - loc.len⟩ })
    | some e => (.error e, s)

/-- `delete_kv`. -/
def deleteKv (s : KvStore) (key : Bytes) (locked : Bool) (commit : Option StoreError) :
    Except StoreError Bool × KvStore :=
  if locked then s.deleteKvInner key commit else (.error .lockBusy, s)

/-- `used_bytes`. -/
def usedBytes (s : KvStore) : Nat := s.env.volatile.used

/-- `disk_bytes`. -/
def diskBytes (s : KvStore) : Nat := s.pool.diskBytes

/-- `KvStore::flush`: the active segment with its cursor, then `force_sync`. -/
def flush (s : KvStore) : KvStore := { s with pool := s.pool.flush, env := s.env.sync }

end KvStore

end FusionStore
