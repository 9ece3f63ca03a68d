import FusionStore.ForStd.AList
import FusionStore.Spec.KvSessionCorrect

/-!
# The quota counter

`used_bytes` is kept beside the table of locators: a put books the net growth with a
saturating subtraction, a delete gives the whole length back.  The counter therefore never
falls below what is stored, so the quota bounds the stored bytes; but a put that replaces a
value by a shorter one gives nothing back, and from then on the counter is too high.

## Key results

- `quota_exact_iff`: the counter is exact in every state of a run exactly if no put of the
  run shrinks what it replaces
- `quota_bounds_stored`: under a quota, the stored bytes stay within it
-/

namespace FusionStore

open AList

/-! ### The KV store -/

namespace KvSession

variable {σ : KvSession}

/-- The bytes of the values the session holds. -/
def storedBytes (σ : KvSession) : Nat := σ.values.total List.length

/-- The put is carried out. -/
structure Goes (σ : KvSession) (key value : Bytes) (locked : Bool) (commit : Option StoreError) :
    Prop where
  alive : σ.poisoned = false
  locked : locked = true
  takes : σ.store.Takes key value
  commit : commit = none

/-- What a put takes has passed its checks. -/
theorem passesChecks_of_takes {s : KvStore} {key value : Bytes} (h : s.Takes key value) :
    s.passesChecks key value true = true := by
  have hne : key.isEmpty = false := by simpa using h.key_ne
  have hle := h.key_le
  have hcount : s.newUsed key value ≤ u64Max := h.counter
  have hquota := h.quota
  simp only [KvStore.newUsed, KvStore.lenOf] at hcount hquota
  simp only [KvStore.passesChecks, hne, Bool.not_false, Bool.and_true, Bool.true_and,
    Bool.and_eq_true, Bool.or_eq_true, decide_eq_true_eq]
  exact ⟨⟨hle, hcount⟩, hquota⟩

/-- A put that is carried out enters the value, every other one leaves table, counter and
    limit alone. -/
theorem put_outcome (h : σ.store.pool.writer.Inv) (key value : Bytes) (locked : Bool)
    (commit : Option StoreError) (held : Nat → Bool) :
    let σ' := (σ.put key value locked commit held).2
    σ'.store.pool.writer.Inv ∧ σ'.store.quotaLimit = σ.store.quotaLimit ∧
    ((σ.Goes key value locked commit ∧ σ'.values = σ.values.insert key value ∧
        ∃ loc : ValueLocator, loc.len = value.length ∧
          σ'.store.env.volatile =
            ⟨σ.store.env.volatile.db.insert key loc, σ.store.newUsed key value⟩) ∨
      (¬σ.Goes key value locked commit ∧ σ'.values = σ.values ∧
        σ'.store.env = σ.store.env)) := by
  intro σ'
  by_cases hdead : (σ.poisoned && σ.store.passesChecks key value locked) = true
  · -- the mutex of the pool is poisoned
    have hσ' : σ' = σ := by
      simp only [σ', KvSession.put, hdead, ↓reduceIte]
    rw [hσ']
    refine ⟨h, rfl, .inr ⟨fun hg => ?_, rfl, rfl⟩⟩
    rw [hg.alive, Bool.false_and] at hdead
    exact Bool.false_ne_true hdead
  have hput : σ' = (σ.put key value locked commit held).2 := rfl
  simp only [KvSession.put, hdead, Bool.false_eq_true, ↓reduceIte] at hput
  obtain ⟨hl, ht, hc, loc, pool, hres, ha⟩ | ⟨hno, err, pool, hres, hinv, -, -⟩ :=
    KvStore.putKv_outcome h key value locked commit
  · -- a put that passes every check did not find the mutex poisoned
    have halive : σ.poisoned = false := by
      subst hl
      rw [passesChecks_of_takes ht, Bool.and_true] at hdead
      exact Bool.eq_false_iff.mpr hdead
    rw [hres] at hput
    rw [hput]
    exact ⟨ha.inv, rfl, .inl ⟨⟨halive, hl, ht, hc⟩, rfl, loc, ha.len, rfl⟩⟩
  · -- the store refuses the put
    rw [hres] at hput
    rw [hput]
    exact ⟨hinv, rfl, .inr ⟨fun hg => hno ⟨hg.locked, hg.takes, hg.commit⟩, rfl, rfl⟩⟩

/-- What holds of the counter in every state. -/
structure Booked (σ : KvSession) : Prop where
  pool : σ.store.pool.writer.Inv
  sizes : SameSizes ValueLocator.len List.length σ.store.env.volatile.db σ.values
  stored_le : σ.storedBytes ≤ σ.store.usedBytes
  counter_le : σ.store.usedBytes ≤ u64Max
  quota_le : σ.store.quotaLimit = 0 ∨ σ.store.usedBytes ≤ σ.store.quotaLimit

/-- A new store has nothing to count. -/
theorem booked_start (segSize quotaLimit : Nat) : (start segSize quotaLimit).Booked where
  pool := SegmentPool.writer_inv_open_empty segSize
  sizes _ := rfl
  stored_le := Nat.le_refl _
  counter_le := Nat.zero_le _
  quota_le := .inr (Nat.zero_le _)

/-- The store knows the length of every value. -/
theorem Booked.lenOf_eq (h : σ.Booked) (key : Bytes) :
    σ.store.lenOf key = σ.values.sizeAt List.length key := by
  rw [← h.sizes.sizeAt_eq key]
  unfold KvStore.lenOf sizeAt
  split
  · rename_i loc hl
    rw [hl]
    rfl
  · rename_i hl
    rw [hl]
    rfl

/-- A call that moves neither the table nor the counter. -/
theorem Booked.of_env {σ' : KvSession} (h : σ.Booked) (hpool : σ'.store.pool.writer.Inv)
    (henv : σ'.store.env.volatile = σ.store.env.volatile)
    (hlimit : σ'.store.quotaLimit = σ.store.quotaLimit) (hvalues : σ'.values = σ.values) :
    σ'.Booked where
  pool := hpool
  sizes := by
    rw [henv, hvalues]
    exact h.sizes
  stored_le := by
    rw [storedBytes, hvalues, KvStore.usedBytes, henv]
    exact h.stored_le
  counter_le := by
    rw [KvStore.usedBytes, henv]
    exact h.counter_le
  quota_le := by
    rw [KvStore.usedBytes, henv, hlimit]
    exact h.quota_le

/-- A put that is carried out changes counter and stored bytes by these equations. -/
theorem Booked.put_counts (h : σ.Booked) {σ' : KvSession} {key value : Bytes}
    {loc : ValueLocator} (hvalues : σ'.values = σ.values.insert key value)
    (henv : σ'.store.env.volatile =
      ⟨σ.store.env.volatile.db.insert key loc, σ.store.newUsed key value⟩) :
    σ'.storedBytes + σ.store.lenOf key = σ.storedBytes + value.length ∧
      σ'.store.usedBytes = σ.store.usedBytes + (value.length - σ.store.lenOf key) := by
  constructor
  · rw [h.lenOf_eq, storedBytes, hvalues]
    exact total_insert List.length σ.values key value
  · rw [KvStore.usedBytes, henv]
    rfl

/-- The books through a put, whatever its result. -/
theorem Booked.put (h : σ.Booked) (key value : Bytes) (locked : Bool)
    (commit : Option StoreError) (held : Nat → Bool) :
    (σ.put key value locked commit held).2.Booked := by
  obtain ⟨hinv, hlimit, ⟨hg, hvalues, loc, hlen, henv⟩ | ⟨-, hvalues, henv⟩⟩ :=
    put_outcome h.pool key value locked commit held
  · obtain ⟨htotal, hused⟩ := h.put_counts hvalues henv
    have hle := h.stored_le
    have hcount := hg.takes.counter
    have hquota := hg.takes.quota
    simp only [KvStore.newUsed] at hcount hquota
    simp only [KvStore.usedBytes] at hle hused
    refine ⟨hinv, ?_, ?_, ?_, ?_⟩
    · rw [henv, hvalues]
      exact h.sizes.insert key hlen
    · simp only [KvStore.usedBytes]
      omega
    · simp only [KvStore.usedBytes]
      omega
    · simp only [KvStore.usedBytes]
      omega
  · exact h.of_env hinv (congrArg Stored.volatile henv) hlimit hvalues

/-- A delete takes the length of the value from counter and stored bytes alike. -/
theorem Booked.delete (h : σ.Booked) (key : Bytes) (locked : Bool) (commit : Option StoreError) :
    let σ' := (σ.delete key locked commit).2
    σ'.Booked ∧ σ'.store.usedBytes + σ.storedBytes = σ'.storedBytes + σ.store.usedBytes := by
  have herase := total_erase List.length σ.values key
  have hlen := h.lenOf_eq key
  have hle := h.stored_le
  have hcount := h.counter_le
  have hquota := h.quota_le
  simp only [storedBytes, KvStore.usedBytes] at hle hcount hquota ⊢
  unfold KvSession.delete
  obtain ⟨-, -, -, -, hdel⟩ | ⟨-, -, hnone, hdel⟩ | ⟨-, err, hdel⟩ :=
    σ.store.deleteKv_outcome key locked commit
  · -- the counter gives back the length of the value
    rw [hdel]
    have hused : (σ.store.erased key).env.volatile.used =
        σ.store.env.volatile.used - σ.store.lenOf key := rfl
    simp only [hused]
    refine ⟨⟨h.pool, h.sizes.erase key, ?_, ?_, ?_⟩, ?_⟩
    · simp only [storedBytes, KvStore.usedBytes, hused]
      omega
    · simp only [KvStore.usedBytes, hused]
      omega
    · simp only [KvStore.usedBytes, hused]
      have hlimit : (σ.store.erased key).quotaLimit = σ.store.quotaLimit := rfl
      rw [hlimit]
      omega
    · omega
  · -- the key is not there: nothing to take back
    rw [hdel]
    have hzero : σ.values.sizeAt List.length key = 0 := by
      rw [← hlen, KvStore.lenOf, hnone]
    have hsame := h.sizes.erase key
    refine ⟨⟨h.pool, ?_, ?_, hcount, hquota⟩, by dsimp only; omega⟩
    · intro k
      by_cases hk : k = key
      · subst hk
        rw [hnone, lookup_erase]
        rfl
      · rw [lookup_erase_ne hk]
        exact h.sizes k
    · simp only [storedBytes, KvStore.usedBytes]
      omega
  · -- the call fails, and nothing is booked
    rw [hdel]
    exact ⟨h, Nat.add_comm _ _⟩

/-- Reads change the cache only. -/
theorem get_store (σ : KvSession) (key : Bytes) (held : Nat → Bool) :
    (σ.get key held).2.store = σ.store ∧ (σ.get key held).2.values = σ.values := by
  unfold KvSession.get
  split
  · exact ⟨rfl, rfl⟩
  · exact ⟨rfl, rfl⟩
  · split
    · exact ⟨rfl, rfl⟩
    · split <;> exact ⟨rfl, rfl⟩

/-- Through a read. -/
theorem Booked.get (h : σ.Booked) (key : Bytes) (held : Nat → Bool) :
    (σ.get key held).2.Booked := by
  obtain ⟨hstore, hvalues⟩ := σ.get_store key held
  exact h.of_env (hstore ▸ h.pool) (by rw [hstore]) (by rw [hstore]) hvalues

/-- Through a flush. -/
theorem Booked.flush (h : σ.Booked) : σ.flush.2.Booked := by
  unfold KvSession.flush
  split
  · exact h
  · exact h.of_env ⟨h.pool.cursor_le, h.pool.mem, h.pool.le⟩ rfl rfl rfl

/-- The step lemma. -/
theorem booked_step (h : σ.Booked) (call : KvCall) : (σ.step call).Booked := by
  cases call with
  | put key value locked commit held => exact h.put key value locked commit held
  | delete key locked commit => exact (h.delete key locked commit).1
  | get key held => exact h.get key held
  | flush => exact h.flush

/-- The quota does not change. -/
theorem quotaLimit_step (h : σ.Booked) (call : KvCall) :
    (σ.step call).store.quotaLimit = σ.store.quotaLimit := by
  cases call with
  | put key value locked commit held => exact (put_outcome h.pool key value locked commit held).2.1
  | delete key locked commit =>
    simp only [step, KvSession.delete]
    obtain ⟨-, -, -, -, hdel⟩ | ⟨-, -, -, hdel⟩ | ⟨-, err, hdel⟩ :=
      σ.store.deleteKv_outcome key locked commit
    · rw [hdel]
      rfl
    · rw [hdel]
    · rw [hdel]
  | get key held => exact congrArg KvStore.quotaLimit (σ.get_store key held).1
  | flush =>
    simp only [step, KvSession.flush]
    split <;> rfl

/-- Every state of a run under a limit. -/
theorem booked_exec (segSize quotaLimit : Nat) (calls : List KvCall) :
    (Run.exec step (start segSize quotaLimit) calls).Booked ∧
      (Run.exec step (start segSize quotaLimit) calls).store.quotaLimit = quotaLimit :=
  Run.exec_invariant (fun σ : KvSession => σ.Booked ∧ σ.store.quotaLimit = quotaLimit)
    (fun _ call h => ⟨booked_step h.1 call, (quotaLimit_step h.1 call).trans h.2⟩) calls
    ⟨booked_start segSize quotaLimit, rfl⟩

/-- The counter is the number of stored bytes. -/
def Exact (σ : KvSession) : Prop := σ.store.usedBytes = σ.storedBytes

/-- The call is not a put that is carried out and replaces a value by a shorter one. -/
def NoShrink (σ : KvSession) : KvCall → Prop
  | .put key value locked commit _ =>
    σ.Goes key value locked commit → σ.values.sizeAt List.length key ≤ value.length
  | _ => True

/-- From an exact counter, the next one is exact unless the call shrinks a value. -/
theorem exact_step (h : σ.Booked) (he : σ.Exact) (call : KvCall) :
    (σ.step call).Exact ↔ σ.NoShrink call := by
  unfold Exact at he
  cases call with
  | put key value locked commit held =>
    obtain ⟨-, -, ⟨hg, hvalues, loc, -, henv⟩ | ⟨hno, hvalues, henv⟩⟩ :=
      put_outcome h.pool key value locked commit held
    · -- the counter gains the difference, cut off at zero
      obtain ⟨htotal, hused⟩ := h.put_counts hvalues henv
      rw [h.lenOf_eq] at htotal hused
      have hle := sizeAt_le_total List.length σ.values key
      show (σ.put key value locked commit held).2.store.usedBytes = _ ↔ (_ → _)
      rw [hused, imp_iff_right hg]
      simp only [storedBytes] at he htotal ⊢
      simp only [step]
      omega
    · refine iff_of_true ?_ fun hg => absurd hg hno
      -- a put that does not go through changes neither side
      show (σ.put key value locked commit held).2.store.usedBytes = _
      rw [KvStore.usedBytes, henv]
      simp only [step, storedBytes, hvalues]
      exact he
  | delete key locked commit =>
    -- a delete gives back the whole length
    have hsum := (h.delete key locked commit).2
    refine iff_of_true ?_ trivial
    show (σ.delete key locked commit).2.store.usedBytes = (σ.delete key locked commit).2.storedBytes
    omega
  | get key held =>
    obtain ⟨hstore, hvalues⟩ := σ.get_store key held
    refine iff_of_true ?_ trivial
    show (σ.get key held).2.store.usedBytes = (σ.get key held).2.storedBytes
    rw [hstore, storedBytes, hvalues]
    exact he
  | flush =>
    refine iff_of_true ?_ trivial
    show σ.flush.2.store.usedBytes = σ.flush.2.storedBytes
    unfold KvSession.flush
    split <;> exact he

end KvSession

/-! ### The columnar store -/

namespace ColumnarStore

/-- The columns the loop of `put_columnar_inner` takes, one after the other. -/
def TakesColumns (p : SegmentPool) : List Column → Prop
  | [] => True
  | c :: cs =>
    ∃ dtype, ColType.fromArrow c.dataType = some dtype ∧ c.nullCount = 0 ∧
      p.AcceptsAligned c.values dtype.byteWidth ∧
      TakesColumns (p.appendAligned c.values dtype.byteWidth).2 cs

/-- Everything the column loop can do. -/
theorem appendColumns_cases {p : SegmentPool} (h : p.writer.Inv) (cs : List Column) :
    (TakesColumns p cs ∧ ∃ metas n p', appendColumns p cs = (.ok (metas, n), p') ∧
      p'.writer.Inv ∧ n = (cs.map fun c => c.values.length).sum ∧
      (metas.map ColumnMeta.len).sum = n) ∨
    (¬TakesColumns p cs ∧ ∃ err p', appendColumns p cs = (.error err, p') ∧ p'.writer.Inv) := by
  -- by induction on the columns; the pool moves with each of them
  induction cs generalizing p with
  | nil => exact .inl ⟨trivial, [], 0, p, rfl, h, rfl, rfl⟩
  | cons c cs ih =>
    unfold TakesColumns appendColumns
    cases hty : ColType.fromArrow c.dataType with
    | none => exact .inr ⟨fun ⟨_, hn, _⟩ => (nomatch hn), _, p, rfl, h⟩
    | some dtype =>
      -- nulls are refused, and so is a column the pool cannot take
      by_cases hnull : c.nullCount = 0
      case neg =>
        simp only [ne_eq, hnull, not_false_eq_true, ↓reduceIte]
        exact .inr ⟨fun ⟨_, _, hn, _⟩ => (nomatch hn), _, p, rfl, h⟩
      simp only [hnull, ne_eq, not_true_eq_false, ↓reduceIte, Option.some.injEq, exists_eq_left',
        true_and]
      obtain ⟨ha, loc, q, happ, hq, hlen⟩ | ⟨hno, err, q, happ, hq⟩ :=
        SegmentPool.appendAligned_cases h c.values dtype.byteWidth
      case inr => exact .inr ⟨fun hn => hno hn.1, err, q, by rw [happ], hq⟩
      simp only [happ, ha, true_and]
      -- the rest of the columns goes on from there
      obtain ⟨ht, metas, n, r, hrest, hr, hsum, hmetas⟩ | ⟨hno, err, r, hrest, hr⟩ := ih hq
      · refine .inl ⟨ht, _, _, r, by rw [hrest], hr, ?_, ?_⟩
        · rw [List.map_cons, List.sum_cons, hlen, hsum]
        · rw [List.map_cons, List.sum_cons, hmetas]
      · exact .inr ⟨hno, err, r, by rw [hrest], hr⟩

/-- The bytes of the table stored under `tableId`. -/
def oldBytes (s : ColumnarStore) (tableId : String) : Nat :=
  match s.env.volatile.tableDb.lookup tableId with
  | some prev => (prev.columns.map ColumnMeta.len).sum
  | none => 0

/-- The counter `put_columnar` would write. -/
def newUsed (s : ColumnarStore) (tableId : String) (batch : RecordBatch) : Nat :=
  s.env.volatile.used + (batch.bytes - s.oldBytes tableId)

/-- The batches whose checks and whose appends succeed. -/
structure Takes (s : ColumnarStore) (tableId : String) (batch : RecordBatch) : Prop where
  id_ne : (strBytes tableId).isEmpty = false
  id_le : (strBytes tableId).length ≤ 511
  room : TakesColumns s.pool batch.columns
  counter : s.newUsed tableId batch ≤ u64Max
  quota : s.quotaLimit = 0 ∨ s.newUsed tableId batch ≤ s.quotaLimit

/-- The roll-back of a rejected batch stays inside the segment. -/
theorem writer_inv_rollback {p : SegmentPool} (h : p.writer.Inv) (segId offset : Nat) :
    (rollback p segId offset).writer.Inv := by
  unfold rollback
  split
  · rename_i hr
    exact SegmentPool.writer_inv_rewind h hr
  · exact h

/-- `put_columnar` once its columns are in the pool: the bookkeeping of the transaction. -/
theorem putColumnar_of_appended (s : ColumnarStore) {tableId : String}
    {batch : RecordBatch} (hne : ¬(strBytes tableId).isEmpty) {metas : List ColumnMeta}
    {pool : SegmentPool}
    (happ : appendColumns s.pool batch.columns = (.ok (metas, batch.bytes), pool))
    (commit : Option StoreError) :
    s.putColumnar tableId batch true commit =
      if s.newUsed tableId batch > u64Max then (.error .quotaExceeded, { s with pool })
      else if s.quotaLimit > 0 ∧ s.newUsed tableId batch > s.quotaLimit then
        (.error .quotaExceeded,
          { s with pool := rollback pool s.pool.activeId (s.pool.activeCursor % 2 ^ 32) })
      else if (strBytes tableId).length > 511 then
        (.error (.heed "MDB_BAD_VALSIZE"), { s with pool })
      else
        match commit with
        | some e =>
          (.error e,
            { s with pool := rollback pool s.pool.activeId (s.pool.activeCursor % 2 ^ 32) })
        | none => (.ok (), { s with
            pool
            env := s.env.write ⟨s.env.volatile.tableDb.insert tableId ⟨batch.numRows, metas⟩,
              s.newUsed tableId batch⟩ }) := by
  simp only [putColumnar, ↓reduceIte, putColumnarInner, hne, happ, Bool.false_eq_true]
  rfl

/-- Everything `put_columnar` can do to table and counter. -/
theorem putColumnar_outcome {s : ColumnarStore} (h : s.pool.writer.Inv) (tableId : String)
    (batch : RecordBatch) (locked : Bool) (commit : Option StoreError) :
    (locked = true ∧ s.Takes tableId batch ∧ commit = none ∧
      ∃ columns pool, pool.writer.Inv ∧ (columns.map ColumnMeta.len).sum = batch.bytes ∧
        s.putColumnar tableId batch locked commit = (.ok (), { s with
          pool
          env := s.env.write ⟨s.env.volatile.tableDb.insert tableId ⟨batch.numRows, columns⟩,
            s.newUsed tableId batch⟩ })) ∨
    (¬(locked = true ∧ s.Takes tableId batch ∧ commit = none) ∧
      ∃ err pool, pool.writer.Inv ∧
        s.putColumnar tableId batch locked commit = (.error err, { s with pool })) := by
  cases locked with
  | false => exact .inr ⟨fun hn => absurd hn.1 Bool.false_ne_true, .lockBusy, s.pool, h, rfl⟩
  | true =>
    -- LMDB refuses an empty key before anything is written
    by_cases hne : (strBytes tableId).isEmpty = true
    · refine .inr ⟨fun hn => ?_, .heed "MDB_BAD_VALSIZE", s.pool, h, ?_⟩
      · rw [hn.2.1.id_ne] at hne
        exact Bool.false_ne_true hne
      · simp only [putColumnar, ↓reduceIte, putColumnarInner, hne]
    have hundo : ∀ p : SegmentPool, p.writer.Inv →
        (rollback p s.pool.activeId (s.pool.activeCursor % 2 ^ 32)).writer.Inv :=
      fun p hp => writer_inv_rollback hp _ _
    obtain ⟨ht, metas, n, pool, happ, hinv, hn, hsum⟩ | ⟨hno, err, pool, happ, hinv⟩ :=
      appendColumns_cases h batch.columns
    case inr =>
      refine .inr ⟨fun hn => hno hn.2.1.room, err, _, hundo pool hinv, ?_⟩
      simp only [putColumnar, ↓reduceIte, putColumnarInner, hne, happ, Bool.false_eq_true]
    -- the columns are in the pool; what follows is the bookkeeping of the transaction
    obtain rfl : n = batch.bytes := hn
    have hput := s.putColumnar_of_appended hne happ commit
    -- the checks in the order of the source; two of them return without the rewind
    by_cases hcount : s.newUsed tableId batch ≤ u64Max
    case neg =>
      refine .inr ⟨fun hn => hcount hn.2.1.counter, .quotaExceeded, pool, hinv, ?_⟩
      rw [hput, if_pos (by omega)]
    by_cases hquota : s.quotaLimit = 0 ∨ s.newUsed tableId batch ≤ s.quotaLimit
    case neg =>
      refine .inr ⟨fun hn => hquota hn.2.1.quota, .quotaExceeded, _, hundo pool hinv, ?_⟩
      rw [hput, if_neg (by omega), if_pos (by omega)]
    by_cases hle : (strBytes tableId).length ≤ 511
    case neg =>
      refine .inr ⟨fun hn => hle hn.2.1.id_le, .heed "MDB_BAD_VALSIZE", pool, hinv, ?_⟩
      rw [hput, if_neg (by omega), if_neg (by omega), if_pos (by omega)]
    rw [if_neg (by omega), if_neg (by omega), if_neg (by omega)] at hput
    cases commit with
    | none =>
      have hne' : (strBytes tableId).isEmpty = false := Bool.eq_false_iff.mpr hne
      exact .inl ⟨rfl, ⟨hne', hle, ht, hcount, hquota⟩, rfl, metas, pool, hinv, hsum, hput⟩
    | some err => exact .inr ⟨fun hn => (by cases hn.2.2), err, _, hundo pool hinv, hput⟩

end ColumnarStore

namespace ColSession

variable {σ : ColSession}

/-- The bytes of the tables the session holds. -/
def storedBytes (σ : ColSession) : Nat := σ.tables.total RecordBatch.bytes

/-- The table is written. -/
structure Goes (σ : ColSession) (tableId : String) (batch : RecordBatch) (locked : Bool)
    (commit : Option StoreError) : Prop where
  alive : σ.poisoned = false
  locked : locked = true
  takes : σ.store.Takes tableId batch
  commit : commit = none

/-- The bytes of a table, from the metas of its columns. -/
def tableBytes (t : TableMeta) : Nat := (t.columns.map ColumnMeta.len).sum

/-- A put that is carried out enters the table, every other one leaves tables, counter and
    limit alone. -/
theorem putColumnar_outcome (h : σ.store.pool.writer.Inv) (tableId : String)
    (batch : RecordBatch) (locked : Bool) (commit : Option StoreError) :
    let σ' := (σ.putColumnar tableId batch locked commit).2
    σ'.store.pool.writer.Inv ∧ σ'.store.quotaLimit = σ.store.quotaLimit ∧
    ((σ.Goes tableId batch locked commit ∧ σ'.tables = σ.tables.insert tableId batch ∧
        ∃ t : TableMeta, tableBytes t = batch.bytes ∧
          σ'.store.env.volatile =
            ⟨σ.store.env.volatile.tableDb.insert tableId t, σ.store.newUsed tableId batch⟩) ∨
      (¬σ.Goes tableId batch locked commit ∧ σ'.tables = σ.tables ∧
        σ'.store.env = σ.store.env)) := by
  intro σ'
  by_cases hdead : (σ.poisoned && locked && !(strBytes tableId).isEmpty) = true
  · -- the lock is poisoned, so the call panics at once
    have hσ' : σ' = σ := by
      simp only [σ', ColSession.putColumnar, hdead, ↓reduceIte]
    rw [hσ']
    refine ⟨h, rfl, .inr ⟨fun hg => ?_, rfl, rfl⟩⟩
    rw [hg.alive, Bool.false_and, Bool.false_and] at hdead
    exact Bool.false_ne_true hdead
  have hput : σ' = (σ.putColumnar tableId batch locked commit).2 := rfl
  simp only [ColSession.putColumnar, hdead, Bool.false_eq_true, ↓reduceIte] at hput
  obtain ⟨hl, ht, hc, columns, pool, hinv, hsum, hres⟩ | ⟨hno, err, pool, hinv, hres⟩ :=
    ColumnarStore.putColumnar_outcome h tableId batch locked commit
  · -- it went through, so the lock was sound
    have halive : σ.poisoned = false := by
      subst hl
      rw [ht.id_ne, Bool.not_false, Bool.and_true, Bool.and_true] at hdead
      exact Bool.eq_false_iff.mpr hdead
    rw [hres] at hput
    rw [hput]
    exact ⟨hinv, rfl, .inl ⟨⟨halive, hl, ht, hc⟩, rfl, ⟨batch.numRows, columns⟩, hsum, rfl⟩⟩
  · rw [hres] at hput
    rw [hput]
    exact ⟨hinv, rfl, .inr ⟨fun hg => hno ⟨hg.locked, hg.takes, hg.commit⟩, rfl, rfl⟩⟩

/-- What holds of the counter in every state. -/
structure Booked (σ : ColSession) : Prop where
  pool : σ.store.pool.writer.Inv
  sizes : SameSizes tableBytes RecordBatch.bytes σ.store.env.volatile.tableDb σ.tables
  stored_le : σ.storedBytes ≤ σ.store.usedBytes
  counter_le : σ.store.usedBytes ≤ u64Max
  quota_le : σ.store.quotaLimit = 0 ∨ σ.store.usedBytes ≤ σ.store.quotaLimit

/-- A new columnar store has nothing to count. -/
theorem booked_start (segSize quotaLimit : Nat) : (start segSize quotaLimit).Booked where
  pool := SegmentPool.writer_inv_open_empty segSize
  sizes _ := rfl
  stored_le := Nat.le_refl _
  counter_le := Nat.zero_le _
  quota_le := .inr (Nat.zero_le _)

/-- The store knows the size of every table. -/
theorem Booked.oldBytes_eq (h : σ.Booked) (tableId : String) :
    σ.store.oldBytes tableId = σ.tables.sizeAt RecordBatch.bytes tableId := by
  rw [← h.sizes.sizeAt_eq tableId]
  unfold ColumnarStore.oldBytes sizeAt
  split
  · rename_i t hl
    rw [hl]
    rfl
  · rename_i hl
    rw [hl]
    rfl

/-- A table that is written changes counter and stored bytes by these equations. -/
theorem Booked.put_counts (h : σ.Booked) {σ' : ColSession} {tableId : String}
    {batch : RecordBatch} {t : TableMeta} (htables : σ'.tables = σ.tables.insert tableId batch)
    (henv : σ'.store.env.volatile =
      ⟨σ.store.env.volatile.tableDb.insert tableId t, σ.store.newUsed tableId batch⟩) :
    σ'.storedBytes + σ.store.oldBytes tableId = σ.storedBytes + batch.bytes ∧
      σ'.store.usedBytes = σ.store.usedBytes + (batch.bytes - σ.store.oldBytes tableId) := by
  constructor
  · rw [h.oldBytes_eq, storedBytes, htables]
    exact total_insert RecordBatch.bytes σ.tables tableId batch
  · rw [ColumnarStore.usedBytes, henv]
    rfl

/-- The step lemma for tables. -/
theorem booked_step (h : σ.Booked) (call : ColCall) : (σ.step call).Booked := by
  cases call with
  | putColumnar tableId batch locked commit =>
    obtain ⟨hinv, hlimit, ⟨hg, htables, t, hlen, henv⟩ | ⟨-, htables, henv⟩⟩ :=
      putColumnar_outcome h.pool tableId batch locked commit
    · obtain ⟨htotal, hused⟩ := h.put_counts htables henv
      have hle := h.stored_le
      -- what the put checked is what the counter has to keep
      have hcount := hg.takes.counter
      have hquota := hg.takes.quota
      simp only [ColumnarStore.newUsed] at hcount hquota
      simp only [ColumnarStore.usedBytes] at hle hused
      refine ⟨hinv, ?_, ?_, ?_, ?_⟩
      · simp only [step]
        rw [henv, htables]
        exact h.sizes.insert tableId hlen
      all_goals
        simp only [step, ColumnarStore.usedBytes]
        omega
    · refine ⟨hinv, ?_, ?_, ?_, ?_⟩
      · -- a failed put moves the pool only
        simp only [step]
        rw [henv, htables]
        exact h.sizes
      · simp only [step, storedBytes, htables, ColumnarStore.usedBytes, henv]
        exact h.stored_le
      · simp only [step, ColumnarStore.usedBytes, henv]
        exact h.counter_le
      · simp only [step, ColumnarStore.usedBytes, henv, hlimit]
        exact h.quota_le
  | flush =>
    simp only [step, ColSession.flush]
    split
    · exact h
    · -- a flush moves no counter
      exact ⟨⟨h.pool.cursor_le, h.pool.mem, h.pool.le⟩, h.sizes, h.stored_le, h.counter_le,
        h.quota_le⟩

/-- The quota does not change. -/
theorem quotaLimit_step (h : σ.Booked) (call : ColCall) :
    (σ.step call).store.quotaLimit = σ.store.quotaLimit := by
  cases call with
  | putColumnar tableId batch locked commit =>
    exact (putColumnar_outcome h.pool tableId batch locked commit).2.1
  | flush =>
    simp only [step, ColSession.flush]
    split <;> rfl

/-- Every state of a run under a limit. -/
theorem booked_exec (segSize quotaLimit : Nat) (calls : List ColCall) :
    (Run.exec step (start segSize quotaLimit) calls).Booked ∧
      (Run.exec step (start segSize quotaLimit) calls).store.quotaLimit = quotaLimit :=
  Run.exec_invariant (fun σ : ColSession => σ.Booked ∧ σ.store.quotaLimit = quotaLimit)
    (fun _ call h => ⟨booked_step h.1 call, (quotaLimit_step h.1 call).trans h.2⟩) calls
    ⟨booked_start segSize quotaLimit, rfl⟩

/-- The counter is the number of stored bytes. -/
def Exact (σ : ColSession) : Prop := σ.store.usedBytes = σ.storedBytes

/-- The call is not a put that is carried out and replaces a table by a smaller one. -/
def NoShrink (σ : ColSession) : ColCall → Prop
  | .putColumnar tableId batch locked commit =>
    σ.Goes tableId batch locked commit → σ.tables.sizeAt RecordBatch.bytes tableId ≤ batch.bytes
  | .flush => True

/-- The counter stays exact as long as no table shrinks. -/
theorem exact_step (h : σ.Booked) (he : σ.Exact) (call : ColCall) :
    (σ.step call).Exact ↔ σ.NoShrink call := by
  unfold Exact at he
  cases call with
  | putColumnar tableId batch locked commit =>
    obtain ⟨-, -, ⟨hg, htables, t, -, henv⟩ | ⟨hno, htables, henv⟩⟩ :=
      putColumnar_outcome h.pool tableId batch locked commit
    · obtain ⟨htotal, hused⟩ := h.put_counts htables henv
      -- the counter gains the difference, cut off at zero
      rw [h.oldBytes_eq] at htotal hused
      have hle := sizeAt_le_total RecordBatch.bytes σ.tables tableId
      show (σ.putColumnar tableId batch locked commit).2.store.usedBytes = _ ↔ (_ → _)
      rw [hused, imp_iff_right hg]
      simp only [storedBytes] at he htotal ⊢
      simp only [step]
      omega
    · refine iff_of_true ?_ fun hg => absurd hg hno
      -- a put that does not go through changes neither side
      show (σ.putColumnar tableId batch locked commit).2.store.usedBytes = _
      rw [ColumnarStore.usedBytes, henv]
      simp only [step, storedBytes, htables]
      exact he
  | flush =>
    refine iff_of_true ?_ trivial
    show σ.flush.2.store.usedBytes = σ.flush.2.storedBytes
    unfold ColSession.flush
    split <;> exact he

end ColSession

/-! ### Runs -/

/-- The counters are exact in every state of a run exactly if every put that is carried out
    is at least as large as what it replaces. -/
theorem quota_exact_iff (segSize quotaLimit : Nat) (kvCalls : List KvCall)
    (colCalls : List ColCall) :
    (Run.Guarded KvSession.step KvSession.NoShrink (.start segSize quotaLimit) kvCalls ↔
      ∀ pre, pre <+: kvCalls →
        (Run.exec KvSession.step (.start segSize quotaLimit) pre).Exact) ∧
    (Run.Guarded ColSession.step ColSession.NoShrink (.start segSize quotaLimit) colCalls ↔
      ∀ pre, pre <+: colCalls →
        (Run.exec ColSession.step (.start segSize quotaLimit) pre).Exact) := by
  constructor
  · have hinv : ∀ σ call, σ.Booked → (KvSession.step σ call).Booked :=
      fun _ call h => KvSession.booked_step h call
    have hstep : ∀ σ call, σ.Booked → σ.Exact → ((KvSession.step σ call).Exact ↔ σ.NoShrink call) :=
      fun _ call h he => KvSession.exact_step h he call
    exact Run.guarded_iff hinv hstep (KvSession.booked_start segSize quotaLimit) rfl
  · have hinv : ∀ σ call, σ.Booked → (ColSession.step σ call).Booked :=
      fun _ call h => ColSession.booked_step h call
    have hstep : ∀ σ call, σ.Booked → σ.Exact →
        ((ColSession.step σ call).Exact ↔ σ.NoShrink call) :=
      fun _ call h he => ColSession.exact_step h he call
    exact Run.guarded_iff hinv hstep (ColSession.booked_start segSize quotaLimit) rfl

/-- An `Int32` column of the given bytes, as a batch. -/
private def oneColumn (rows : Nat) (values : Bytes) (h : values.length = rows * 4) : RecordBatch :=
  ⟨rows, [⟨"c", .int32, 0, values⟩], by
    intro c hc t ht
    obtain rfl : c = ⟨"c", .int32, 0, values⟩ := List.mem_singleton.mp hc
    obtain rfl : ColType.int32 = t := Option.some.inj ht
    exact h⟩

/-- Three bytes overwritten by one are still counted as three, and a table of three rows
    overwritten by one of one row as twelve bytes. -/
theorem shrinking_put_overcounts :
    (let σ := Run.exec KvSession.step (.start 0 0)
      [.put [1] [1, 2, 3] true none fun _ => false, .put [1] [1] true none fun _ => false]
     σ.store.usedBytes = 3 ∧ σ.storedBytes = 1) ∧
    (let σ := Run.exec ColSession.step (.start 0 0)
      [.putColumnar "t" (oneColumn 3 (List.replicate 12 0) rfl) true none,
        .putColumnar "t" (oneColumn 1 (List.replicate 4 0) rfl) true none]
     σ.store.usedBytes = 12 ∧ σ.storedBytes = 4) := by
  decide

/-- Under a quota the stored bytes stay within it: the counter covers them, never passes the
    quota nor the range of a `u64`, and is never less than what a delete takes from it. -/
theorem quota_bounds_stored {quotaLimit : Nat} (hquota : 0 < quotaLimit) :
    (∀ (segSize : Nat) (calls : List KvCall),
      let σ := Run.exec KvSession.step (.start segSize quotaLimit) calls
      σ.storedBytes ≤ quotaLimit ∧ σ.storedBytes ≤ σ.store.usedBytes ∧
        σ.store.usedBytes ≤ u64Max ∧ σ.store.usedBytes ≤ quotaLimit ∧
        ∀ key, σ.store.lenOf key ≤ σ.store.usedBytes) ∧
    ∀ (segSize : Nat) (calls : List ColCall),
      let σ := Run.exec ColSession.step (.start segSize quotaLimit) calls
      σ.storedBytes ≤ quotaLimit ∧ σ.storedBytes ≤ σ.store.usedBytes ∧
        σ.store.usedBytes ≤ u64Max ∧ σ.store.usedBytes ≤ quotaLimit ∧
        ∀ tableId, σ.store.oldBytes tableId ≤ σ.store.usedBytes := by
  constructor
  · -- values and their counter
    intro segSize calls σ
    obtain ⟨h, hlimit⟩ : σ.Booked ∧ σ.store.quotaLimit = quotaLimit :=
      KvSession.booked_exec segSize quotaLimit calls
    have hstored := h.stored_le
    have hused := h.quota_le
    rw [hlimit] at hused
    refine ⟨by omega, hstored, h.counter_le, by omega, fun key => ?_⟩
    calc σ.store.lenOf key = σ.values.sizeAt List.length key := h.lenOf_eq key
      _ ≤ σ.storedBytes := sizeAt_le_total _ _ _
      _ ≤ σ.store.usedBytes := hstored
  · -- tables and theirs
    intro segSize calls σ
    obtain ⟨h, hlimit⟩ : σ.Booked ∧ σ.store.quotaLimit = quotaLimit :=
      ColSession.booked_exec segSize quotaLimit calls
    have hstored := h.stored_le
    have hused := h.quota_le
    rw [hlimit] at hused
    refine ⟨by omega, hstored, h.counter_le, by omega, fun tableId => ?_⟩
    calc σ.store.oldBytes tableId = σ.tables.sizeAt RecordBatch.bytes tableId :=
          h.oldBytes_eq tableId
      _ ≤ σ.storedBytes := sizeAt_le_total _ _ _
      _ ≤ σ.store.usedBytes := hstored

/-- A quota of four bytes: the second value is refused. -/
theorem quota_bounds_stored_four :
    let σ := Run.exec KvSession.step (.start 0 4)
      [.put [1] [1, 2, 3] true none fun _ => false, .put [2] [1, 2] true none fun _ => false]
    σ.storedBytes = 3 ∧ σ.storedBytes ≤ 4 :=
  ⟨by decide, ((quota_bounds_stored (by decide)).1 0 _).1⟩

end FusionStore
