import Mathlib.Algebra.BigOperators.Ring.List
import FusionStore.ForStd.Cost
import FusionStore.Spec.AppendOnly
import FusionStore.Spec.PoolSafety
import FusionStore.Spec.Quota

/-!
# What the segments cost on disk

Segments are only ever filled, never emptied: overwriting or deleting a key gives nothing
back, and the quota counts live payload only.  A rotation wastes less than the payload that
did not fit, so what a pool occupies is at most twice what was ever written to it, and one
segment more for every process that had to start a new one.

## Key results

- `KvSession.disk_sandwich`: `disk_bytes` of a KV session lies between what its puts have
  stored and twice what they have offered to the pool, plus one segment
- `PoolRun.disk_le_offered`: the upper bound across kills and restarts
-/

namespace FusionStore

/-! ### The position of a pool -/

namespace SegmentPool

variable {p : SegmentPool}

/-- Where the next byte goes, counted from the start of the first segment. -/
def position (p : SegmentPool) : Nat := p.activeId * p.segSize + p.activeCursor

/-- A move that stays in the segments of the same size and goes forward by at most `2 * n`. -/
structure Advances (p : SegmentPool) (n : Nat) (q : SegmentPool) : Prop where
  segSize : q.segSize = p.segSize
  cursor_le : q.activeCursor ≤ p.segSize
  le_position : p.position ≤ q.position
  position_le : q.position ≤ p.position + 2 * n

/-- A call that leaves the pool. -/
theorem Advances.refl (h : p.activeCursor ≤ p.segSize) (n : Nat) : p.Advances n p :=
  ⟨rfl, h, Nat.le_refl _, Nat.le_add_right _ _⟩

/-- A rotation goes on at the start of the next segment. -/
theorem position_sealAndRotate (p : SegmentPool) :
    p.sealAndRotate.position = p.activeId * p.segSize + p.segSize := by
  show (p.activeId + 1) * p.segSize + 0 = _
  rw [Nat.add_mul, Nat.one_mul, Nat.add_zero]

/-- The rest of the segment is given up only for a payload that is longer. -/
private theorem advances_makeRoom (h : p.activeCursor ≤ p.segSize) (n : Nat) :
    let q := if n > p.remaining then p.sealAndRotate else p
    q.segSize = p.segSize ∧ q.activeCursor ≤ p.segSize ∧ p.position ≤ q.position ∧
      q.position ≤ p.position + n := by
  intro q
  simp only [q]
  split
  · rename_i hroom
    have hpos := position_sealAndRotate p
    simp only [position] at hpos ⊢
    simp only [remaining] at hroom
    refine ⟨rfl, Nat.zero_le _, ?_, ?_⟩ <;> omega
  · exact ⟨rfl, h, Nat.le_refl _, Nat.le_add_right _ _⟩

/-- An append moves forward; where it succeeds, its payload lies between the positions. -/
theorem append_advances (h : p.activeCursor ≤ p.segSize) (payload : Bytes) :
    p.Advances payload.length (p.append payload).2 ∧
    ∀ loc, (p.append payload).1 = .ok loc →
      loc.segId = (p.append payload).2.activeId ∧
      p.position ≤ loc.segId * p.segSize + loc.offset ∧
      loc.offset + payload.length = (p.append payload).2.activeCursor := by
  obtain ⟨hsize, hcur, hle, hup⟩ := advances_makeRoom h payload.length
  unfold append
  split
  · -- too large for any segment
    exact ⟨.refl h _, fun loc hl => nomatch hl⟩
  -- from here only what the rotation may have done counts
  generalize (if payload.length > p.remaining then p.sealAndRotate else p) = q at *
  have hroom : p.Advances payload.length q := ⟨hsize, hcur, hle, by omega⟩
  dsimp only
  -- the offset would not fit the locator, or the bytes would not fit the segment
  split
  · exact ⟨hroom, fun loc hl => nomatch hl⟩
  split
  · exact ⟨hroom, fun loc hl => nomatch hl⟩
  · rename_i hfit
    rw [hsize] at hfit
    simp only [position] at hle hup
    rw [hsize] at hle hup
    refine ⟨⟨hsize, Nat.not_lt.mp hfit, ?_, ?_⟩, fun loc hl => ?_⟩
    · simp only [position, hsize]
      omega
    · simp only [position, hsize]
      omega
    · obtain rfl := Except.ok.inj hl
      exact ⟨rfl, hle, rfl⟩

end SegmentPool

/-! ### One KV session -/

namespace SegmentPool

variable {p : SegmentPool}

/-- The segments are numbered from zero to the active one. -/
def Packed (p : SegmentPool) : Prop := p.dir.files = (List.range (p.activeId + 1)).reverse

/-- A rotation creates the segment behind the last. -/
theorem Packed.rotate (h : p.Packed) : p.sealAndRotate.Packed := by
  have hnew : p.activeId + 1 ∉ p.dir.files := by
    rw [h]
    simp
  have hfiles : p.sealAndRotate.dir.files = (p.activeId + 1) :: p.dir.files := by
    show (if _ then _ else _ : SegDir).files = _
    rw [if_neg (show p.activeId + 1 ∉ (p.dir.flushSeg p.activeId).files from hnew)]
    rfl
  rw [Packed, hfiles, h]
  show _ = (List.range (p.activeId + 1 + 1)).reverse
  simp [List.range_succ]

/-- An append creates at most that segment. -/
theorem Packed.append (h : p.Packed) (payload : Bytes) : (p.append payload).2.Packed := by
  have hroom : (if payload.length > p.remaining then p.sealAndRotate else p).Packed := by
    split
    · exact h.rotate
    · exact h
  unfold SegmentPool.append
  split
  · exact h
  generalize (if payload.length > p.remaining then p.sealAndRotate else p) = q at *
  dsimp only
  split
  · exact hroom
  split
  · exact hroom
  · exact hroom

/-- Taking bytes back keeps the files. -/
theorem Packed.rewind (h : p.Packed) {segId offset : Nat} {q : SegmentPool}
    (hq : p.rewindActiveTo segId offset = .ok q) : q.Packed := by
  unfold rewindActiveTo at hq
  split at hq
  · exact Except.ok.inj hq ▸ h
  · split at hq
    · exact nomatch hq
    · exact Except.ok.inj hq ▸ h

/-- Files up to the active segment, all of full size. -/
theorem Packed.diskBytes_eq (h : p.Packed) : p.diskBytes = p.activeId * p.segSize + p.segSize := by
  rw [diskBytes, h, List.length_reverse, List.length_range, Nat.add_mul, Nat.one_mul]

/-- Taking the payload of an append back leaves the pool where the payload began. -/
theorem rewind_advances (h : p.activeCursor ≤ p.segSize) {payload : Bytes} {loc : ValueLocator}
    (hloc : (p.append payload).1 = .ok loc) {q : SegmentPool}
    (hq : (p.append payload).2.rewindActiveTo loc.segId loc.offset = .ok q) :
    p.Advances payload.length q := by
  obtain ⟨ha, hok⟩ := append_advances h payload
  obtain ⟨hseg, hle, hend⟩ := hok loc hloc
  have hcur := ha.cursor_le
  have hup := ha.position_le
  -- the locator is of the active segment, and behind it nothing was written
  unfold rewindActiveTo at hq
  rw [if_neg (fun hne => hne hseg), if_neg (by omega)] at hq
  -- back where the payload began, which may be in the next segment
  have hpos : q.position = loc.segId * p.segSize + loc.offset := by
    rw [← Except.ok.inj hq, hseg, ← ha.segSize]
    rfl
  have hpos' : (p.append payload).2.position =
      loc.segId * p.segSize + (p.append payload).2.activeCursor := by
    rw [position, hseg, ha.segSize]
  have hsize : q.segSize = p.segSize := by
    rw [← Except.ok.inj hq]
    exact ha.segSize
  have hoff : q.activeCursor = loc.offset := by
    rw [← Except.ok.inj hq]
  constructor
  · exact hsize
  · omega
  · omega
  · omega

end SegmentPool

namespace KvStore

variable {s : KvStore}

/-- The checks of a put before it offers anything to the pool. -/
theorem passesChecks_iff {key value : Bytes} {locked : Bool} :
    s.passesChecks key value locked = true ↔
      locked = true ∧ key ≠ [] ∧ key.length ≤ lmdbMaxKey ∧ s.newUsed key value ≤ u64Max ∧
        (s.quotaLimit = 0 ∨ s.newUsed key value ≤ s.quotaLimit) := by
  have hdef : s.passesChecks key value locked =
      (locked && !key.isEmpty && decide (key.length ≤ lmdbMaxKey) &&
        decide (s.newUsed key value ≤ u64Max) &&
        (decide (s.quotaLimit = 0) || decide (s.newUsed key value ≤ s.quotaLimit))) := rfl
  rw [hdef]
  simp [and_assoc]

/-- `put_kv` from its checks on. -/
private theorem putKv_eq (s : KvStore) (key value : Bytes) (commit : Option StoreError) :
    s.putKv key value true commit =
      if key.isEmpty then (.error (.invalidKey "empty key rejected"), s)
      else if key.length > lmdbMaxKey then
        (.error (.invalidKey "key exceeds LMDB MDB_MAXKEYSIZE (511)"), s)
      else if s.newUsed key value > u64Max then (.error .quotaExceeded, s)
      else if s.quotaLimit > 0 ∧ s.newUsed key value > s.quotaLimit then
        (.error .quotaExceeded, s)
      else
        match s.pool.append value with
        | (.error e, pool) => (.error e, { s with pool })
        | (.ok loc, pool) =>
          match commit with
          | none => (.ok (), s.stored key value loc pool)
          | some e =>
            match pool.rewindActiveTo loc.segId loc.offset with
            | .ok pool => (.error e, { s with pool })
            | .error _ => (.error e, { s with pool }) := rfl

/-- A put that fails a check leaves the store. -/
theorem putKv_of_fails {key value : Bytes} {locked : Bool}
    (h : s.passesChecks key value locked = false) (commit : Option StoreError) :
    ∃ err, s.putKv key value locked commit = (.error err, s) := by
  rw [Bool.eq_false_iff, ne_eq, passesChecks_iff] at h
  cases locked with
  | false => exact ⟨_, rfl⟩
  | true =>
    rw [putKv_eq]
    split
    · exact ⟨_, rfl⟩
    split
    · exact ⟨_, rfl⟩
    split
    · exact ⟨_, rfl⟩
    split
    · exact ⟨_, rfl⟩
    · rename_i hne hlen hcount hquota
      rw [List.isEmpty_iff] at hne
      exact absurd ⟨rfl, hne, by omega, by omega, by omega⟩ h

/-- A put that passes the checks appends its value, and takes it back if the commit fails. -/
theorem putKv_of_passes {key value : Bytes} {locked : Bool}
    (h : s.passesChecks key value locked = true) (commit : Option StoreError) :
    s.putKv key value locked commit =
      match s.pool.append value with
      | (.error e, pool) => (.error e, { s with pool })
      | (.ok loc, pool) =>
        match commit with
        | none => (.ok (), s.stored key value loc pool)
        | some e =>
          match pool.rewindActiveTo loc.segId loc.offset with
          | .ok pool => (.error e, { s with pool })
          | .error _ => (.error e, { s with pool }) := by
  obtain ⟨rfl, hne, hlen, hcount, hquota⟩ := passesChecks_iff.mp h
  rw [putKv_eq, if_neg (by simpa using hne), if_neg (Nat.not_lt.mpr hlen),
    if_neg (Nat.not_lt.mpr hcount), if_neg (by omega)]

/-- What a put does to the pool and to the counter. -/
structure Pays (s : KvStore) (value : Bytes) (res : Except StoreError Unit) (s' : KvStore) :
    Prop where
  advances : s.pool.Advances value.length s'.pool
  packed : s.pool.Packed → s'.pool.Packed
  stored : res = .ok () → s.pool.position + value.length ≤ s'.pool.position
  used : res = .ok () → s'.usedBytes ≤ s.usedBytes + value.length
  unused : res ≠ .ok () → s'.usedBytes = s.usedBytes

/-- A put that passes the checks: what the pool takes for it and what the store then counts. -/
theorem putKv_pays (hcur : s.pool.activeCursor ≤ s.pool.segSize) {key value : Bytes}
    {locked : Bool} (h : s.passesChecks key value locked = true) (commit : Option StoreError) :
    s.Pays value (s.putKv key value locked commit).1 (s.putKv key value locked commit).2 := by
  obtain ⟨ha, hok⟩ := SegmentPool.append_advances hcur value
  have hpacked := fun hp : s.pool.Packed => hp.append value
  -- what is rewound goes back to where it was
  have hrewind : ∀ loc, (s.pool.append value).1 = .ok loc → ∀ q,
      (s.pool.append value).2.rewindActiveTo loc.segId loc.offset = .ok q →
      s.pool.Advances value.length q :=
    fun loc hl q hq => SegmentPool.rewind_advances hcur hl hq
  rw [putKv_of_passes h]
  generalize s.pool.append value = r at *
  obtain ⟨res, pool⟩ := r
  cases res with
  -- the append itself failed
  | error err => exact ⟨ha, hpacked, nofun, nofun, fun _ => rfl⟩
  | ok loc =>
    cases commit with
    | none =>
      -- the put went through
      obtain ⟨hseg, hle, hend⟩ := hok loc rfl
      have hsize : pool.segSize = s.pool.segSize := ha.segSize
      dsimp only at hseg hend
      refine ⟨ha, hpacked, fun _ => ?_, fun _ => ?_, nofun⟩
      · show s.pool.position + value.length ≤ pool.activeId * pool.segSize + pool.activeCursor
        rw [hsize, ← hseg]
        omega
      · show s.usedBytes + (value.length - s.lenOf key) ≤ s.usedBytes + value.length
        omega
    | some e =>
      -- the commit has failed: the pool is rewound, if it can be
      dsimp only
      split
      · rename_i q hq
        exact ⟨hrewind loc rfl q hq, fun hp => (hpacked hp).rewind hq, nofun, nofun,
          fun _ => rfl⟩
      · exact ⟨ha, hpacked, nofun, nofun, fun _ => rfl⟩

end KvStore

namespace KvSession

variable {σ : KvSession}

/-- The bytes a call brings to the pool: those of a value that passes every check. -/
def offered (σ : KvSession) : KvCall → Nat
  | .put key value locked _ _ =>
    if !σ.poisoned && σ.store.passesChecks key value locked then value.length else 0
  | .delete .. | .get .. | .flush => 0

/-- The bytes a call stores: those of a value whose put returns `Ok`. -/
def accepted (σ : KvSession) : KvCall → Nat
  | .put key value locked commit held =>
    match (σ.put key value locked commit held).1 with
    | .ok () => value.length
    | .error _ => 0
  | .delete .. | .get .. | .flush => 0

/-- The segments of a session: numbered from zero, with the cursor inside the active one. -/
structure Laid (σ : KvSession) : Prop where
  cursor_le : σ.store.pool.activeCursor ≤ σ.store.pool.segSize
  packed : σ.store.pool.Packed

/-- A new store has one segment. -/
theorem laid_start (segSize quotaLimit : Nat) : (start segSize quotaLimit).Laid :=
  ⟨Nat.zero_le _, rfl⟩

/-- What a call moves. -/
structure Meters (σ : KvSession) (call : KvCall) : Prop where
  laid : (σ.step call).Laid
  segSize : (σ.step call).store.pool.segSize = σ.store.pool.segSize
  accepted_le : σ.store.pool.position + σ.accepted call ≤ (σ.step call).store.pool.position
  le_offered :
    (σ.step call).store.pool.position ≤ σ.store.pool.position + 2 * σ.offered call
  used_le : (σ.step call).store.usedBytes ≤ σ.store.usedBytes + σ.accepted call

/-- A call that leaves the pool alone and does not raise the counter. -/
private theorem Laid.meters_of_pool (h : σ.Laid) {call : KvCall}
    (hpool : (σ.step call).store.pool.activeId = σ.store.pool.activeId ∧
      (σ.step call).store.pool.activeCursor = σ.store.pool.activeCursor ∧
      (σ.step call).store.pool.segSize = σ.store.pool.segSize ∧
      (σ.step call).store.pool.dir.files = σ.store.pool.dir.files)
    (hused : (σ.step call).store.usedBytes ≤ σ.store.usedBytes)
    (hacc : σ.accepted call = 0) : σ.Meters call := by
  obtain ⟨hid, hcur, hsize, hfiles⟩ := hpool
  have hpos : (σ.step call).store.pool.position = σ.store.pool.position := by
    rw [SegmentPool.position, hid, hcur, hsize]
    rfl
  refine ⟨⟨?_, ?_⟩, hsize, ?_, ?_, ?_⟩
  · rw [hcur, hsize]
    exact h.cursor_le
  · rw [SegmentPool.Packed, hfiles, hid]
    exact h.packed
  · omega
  · omega
  · omega

/-- The step lemma: what each call may add to the disk and to the counter. -/
theorem Laid.meters (h : σ.Laid) (call : KvCall) : σ.Meters call := by
  cases call with
  | put key value locked commit held =>
    by_cases hgo : (!σ.poisoned && σ.store.passesChecks key value locked) = true
    · -- the store is reached: its own account says what was taken
      have hoff : σ.offered (.put key value locked commit held) = value.length := if_pos hgo
      obtain ⟨halive, hpass⟩ := (Bool.and_eq_true _ _).mp hgo
      rw [Bool.not_eq_true'] at halive
      have hpays := KvStore.putKv_pays h.cursor_le hpass commit
      have hres : (σ.put key value locked commit held).1 =
            (σ.store.putKv key value locked commit).1 ∧
          (σ.step (.put key value locked commit held)).store =
            (σ.store.putKv key value locked commit).2 := by
        simp only [step, KvSession.put, halive, Bool.false_and, Bool.false_eq_true, ↓reduceIte,
          and_self]
      obtain ⟨hres, hstore⟩ := hres
      have hacc : σ.accepted (.put key value locked commit held) =
          match (σ.store.putKv key value locked commit).1 with
          | .ok () => value.length
          | .error _ => 0 := by
        rw [accepted, hres]
      rw [← hstore] at hpays
      have hadv := hpays.advances
      have hle := hadv.le_position
      have hcur := hadv.cursor_le
      rw [← hadv.segSize] at hcur
      cases hput : (σ.store.putKv key value locked commit).1 with
      | ok _ =>
        rw [hput] at hacc
        refine ⟨⟨hcur, hpays.packed h.packed⟩, hadv.segSize, ?_, ?_, ?_⟩
        · rw [hacc]
          exact hpays.stored hput
        · rw [hoff]
          exact hadv.position_le
        · rw [hacc]
          exact hpays.used hput
      -- a put that fails stores nothing, whatever the pool has taken for it
      | error e =>
        rw [hput] at hacc
        refine ⟨⟨hcur, hpays.packed h.packed⟩, hadv.segSize, ?_, ?_, ?_⟩
        · rw [hacc]
          exact hle
        · rw [hoff]
          exact hadv.position_le
        · rw [hpays.unused (by simp [hput])]
          exact Nat.le_add_right _ _
    · -- the store is not reached, or rejects the put at once
      have hsame : (∃ err, (σ.put key value locked commit held).1 = .error err) ∧
          (σ.step (.put key value locked commit held)).store = σ.store := by
        simp only [step, KvSession.put]
        cases hpass : σ.store.passesChecks key value locked with
        | true =>
          rw [hpass, Bool.and_true, Bool.not_eq_true, Bool.not_eq_false'] at hgo
          simp [hgo]
        | false =>
          obtain ⟨err, hput⟩ := KvStore.putKv_of_fails hpass commit
          rw [Bool.and_false, hput]
          exact ⟨⟨err, rfl⟩, rfl⟩
      obtain ⟨⟨err, herr⟩, hstore⟩ := hsame
      refine h.meters_of_pool ?_ ?_ ?_
      · rw [hstore]
        exact ⟨rfl, rfl, rfl, rfl⟩
      · rw [hstore]
      · rw [accepted, herr]
  -- no other call takes room
  | delete key locked commit =>
    have hstore : (σ.step (.delete key locked commit)).store =
        (σ.store.deleteKv key locked commit).2 := rfl
    -- a delete lowers the counter at most
    obtain ⟨-, -, -, -, hdel⟩ | ⟨-, -, -, hdel⟩ | ⟨-, err, hdel⟩ :=
      σ.store.deleteKv_outcome key locked commit
    · rw [hdel] at hstore
      refine h.meters_of_pool ?_ ?_ rfl
      · rw [hstore]
        exact ⟨rfl, rfl, rfl, rfl⟩
      · rw [hstore]
        exact Nat.sub_le _ _
    · rw [hdel] at hstore
      refine h.meters_of_pool ?_ ?_ rfl
      · rw [hstore]
        exact ⟨rfl, rfl, rfl, rfl⟩
      · rw [hstore]
    · rw [hdel] at hstore
      refine h.meters_of_pool ?_ ?_ rfl
      · rw [hstore]
        exact ⟨rfl, rfl, rfl, rfl⟩
      · rw [hstore]
  | get key held =>
    -- a get changes the cached mappings only
    have hstore : (σ.step (.get key held)).store = σ.store := by
      simp only [step, KvSession.get]
      split
      · rfl
      · rfl
      · split
        · rfl
        · split <;> rfl
    refine h.meters_of_pool ?_ ?_ rfl
    · rw [hstore]
      exact ⟨rfl, rfl, rfl, rfl⟩
    · rw [hstore]
  | flush =>
    -- a flush moves no cursor
    refine h.meters_of_pool ?_ ?_ rfl
    · simp only [step, KvSession.flush]
      split <;> exact ⟨rfl, rfl, rfl, rfl⟩
    · simp only [step, KvSession.flush]
      split <;> exact Nat.le_refl _

/-- Between what the puts of a session have stored and twice what they have offered, and one
    segment more: neither overwriting nor deleting gives anything back, and what the quota
    counts is never more than that. -/
theorem disk_sandwich (segSize quotaLimit : Nat) (calls : List KvCall) :
    let σ₀ := start segSize quotaLimit
    let σ := Run.exec step σ₀ calls
    σ.store.usedBytes ≤ Run.spent step accepted σ₀ calls ∧
      Run.spent step accepted σ₀ calls ≤ σ.store.diskBytes ∧
      σ.store.diskBytes ≤ 2 * Run.spent step offered σ₀ calls + σ₀.store.pool.segSize := by
  intro σ₀ σ
  -- at the start nothing is written and nothing is used
  have h₀ : σ₀.Laid := laid_start segSize quotaLimit
  have hpos₀ : σ₀.store.pool.position = 0 := Nat.zero_mul _
  -- three accounts of the same run: the counter, what was stored, what was offered
  have hused : σ.Laid ∧ σ.store.usedBytes ≤ 0 + Run.spent step accepted σ₀ calls :=
    Run.exec_spent (fun b (σ : KvSession) => σ.Laid ∧ σ.store.usedBytes ≤ b) (fun b σ call hσ => by
      have hm := hσ.1.meters call
      have hle := hm.used_le
      exact ⟨hm.laid, by omega⟩) ⟨h₀, Nat.le_refl _⟩ calls
  have hacc : σ.Laid ∧ 0 + Run.spent step accepted σ₀ calls ≤ σ.store.pool.position :=
    Run.exec_spent (fun b (σ : KvSession) => σ.Laid ∧ b ≤ σ.store.pool.position)
      (fun b σ call hσ => by
        have hm := hσ.1.meters call
        have hle := hm.accepted_le
        exact ⟨hm.laid, by omega⟩) ⟨h₀, Nat.zero_le _⟩ calls
  have hoff : σ.Laid ∧ σ.store.pool.segSize = σ₀.store.pool.segSize ∧
      σ.store.pool.position ≤ 2 * (0 + Run.spent step offered σ₀ calls) :=
    Run.exec_spent (fun b (σ : KvSession) => σ.Laid ∧ σ.store.pool.segSize = σ₀.store.pool.segSize ∧
      σ.store.pool.position ≤ 2 * b) (fun b σ call hσ => by
        have hm := hσ.1.meters call
        have hle := hm.le_offered
        exact ⟨hm.laid, hm.segSize.trans hσ.2.1, by omega⟩) ⟨h₀, rfl, hpos₀.le⟩ calls
  -- full segments and the one in use
  have hdisk : σ.store.diskBytes = σ.store.pool.activeId * σ.store.pool.segSize +
      σ.store.pool.segSize := hused.1.packed.diskBytes_eq
  have hcur := hused.1.cursor_le
  have hsize := hoff.2.1
  have hacc := hacc.2
  have hoff := hoff.2.2
  simp only [SegmentPool.position] at hacc hoff
  refine ⟨?_, ?_, ?_⟩ <;> omega

/-- Three bytes under a quota of three, put three times: three segments of four bytes. -/
example :
    let put : KvCall := .put [1] [7, 7, 7] true none fun _ => false
    let σ := Run.exec step (start 4 3) [put, put, put]
    σ.store.usedBytes = 3 ∧ σ.store.diskBytes = 12 := by decide +kernel

end KvSession

/-! ### Across restarts -/

/-- All files begin, and the recorded cursor lies, in the first `b` bytes. -/
structure SegDir.Within (segSize b : Nat) (d : SegDir) : Prop where
  nodup : d.files.Nodup
  files : ∀ f ∈ d.files, f * segSize ≤ b
  cursor : ∀ sid c, d.cursor = some (sid, c) → sid * segSize + c ≤ b

namespace SegDir

variable {d : SegDir} {segSize a b : Nat}

/-- A larger bound. -/
theorem Within.mono (h : d.Within segSize a) (hab : a ≤ b) : d.Within segSize b :=
  ⟨h.nodup, fun f hf => (h.files f hf).trans hab, fun sid c hc => (h.cursor sid c hc).trans hab⟩

/-- A new file that starts within the bound. -/
theorem Within.createSeg (h : d.Within segSize b) {id : Nat} (hid : id * segSize ≤ b) :
    (d.createSeg id).Within segSize b := by
  unfold SegDir.createSeg
  split
  · exact h
  · rename_i hnew
    refine ⟨List.nodup_cons.mpr ⟨hnew, h.nodup⟩, ?_, h.cursor⟩
    intro f hf
    obtain rfl | hf := List.mem_cons.mp hf
    · exact hid
    · exact h.files f hf

/-- The cursor file may name any position within the bound. -/
theorem Within.writeCursor (h : d.Within segSize b) {id c : Nat} (hc : id * segSize + c ≤ b) :
    (d.writeCursor id c).Within segSize b := by
  refine ⟨h.nodup, h.files, fun sid c' hcur => ?_⟩
  obtain ⟨rfl, rfl⟩ : id = sid ∧ c = c' := by simpa [SegDir.writeCursor] using hcur
  exact hc

/-- There are at most as many files as begin in the first `b` bytes. -/
theorem Within.length_le (h : d.Within segSize b) (hpos : 0 < segSize) :
    d.files.length * segSize ≤ b + segSize := by
  have hsub : d.files ⊆ List.range (b / segSize + 1) := by
    intro f hf
    rw [List.mem_range, Nat.lt_succ_iff, Nat.le_div_iff_mul_le hpos]
    exact h.files f hf
  have hlen := (h.nodup.subperm hsub).length_le
  rw [List.length_range] at hlen
  calc d.files.length * segSize ≤ (b / segSize + 1) * segSize := Nat.mul_le_mul_right _ hlen
    _ = b / segSize * segSize + segSize := by rw [Nat.add_mul, Nat.one_mul]
    _ ≤ b + segSize := Nat.add_le_add_right (Nat.div_mul_le_self _ _) _

/-- The next free number starts at most one segment behind the bound. -/
theorem Within.nextSegId (h : d.Within segSize b) : d.nextSegId * segSize ≤ b + segSize := by
  unfold SegDir.nextSegId
  cases hm : d.files.max? with
  | none => simp
  | some m =>
    have hle := h.files m (List.max?_mem hm)
    show (m + 1) * segSize ≤ b + segSize
    rw [Nat.add_mul, Nat.one_mul]
    omega

end SegDir

namespace SegmentPool

variable {p q : SegmentPool} {a b : Nat}

/-- The directory and the position lie in the first `b` bytes. -/
structure Within (b : Nat) (p : SegmentPool) : Prop where
  dir : p.dir.Within p.segSize b
  position_le : p.position ≤ b
  cursor_le : p.activeCursor ≤ p.segSize

/-- A larger bound for the pool. -/
theorem Within.mono (h : p.Within a) (hab : a ≤ b) : p.Within b :=
  ⟨h.dir.mono hab, h.position_le.trans hab, h.cursor_le⟩

/-- A rotation needs the rest of the segment to be within the bound. -/
private theorem Within.rotate (h : p.Within b) (hnew : p.activeId * p.segSize + p.segSize ≤ b) :
    p.sealAndRotate.Within b := by
  have hid : (p.activeId + 1) * p.segSize ≤ b := by
    rwa [Nat.add_mul, Nat.one_mul]
  have hflush : (p.dir.flushSeg p.activeId).Within p.segSize b :=
    ⟨h.dir.nodup, h.dir.files, h.dir.cursor⟩
  exact ⟨(hflush.createSeg hid).writeCursor hid, hid, Nat.zero_le _⟩

/-- So does every state inside it. -/
private theorem Within.rotateTrace (h : p.Within b)
    (hnew : p.activeId * p.segSize + p.segSize ≤ b) :
    ∀ d ∈ p.rotateTrace, d.Within p.segSize b := by
  have hid : (p.activeId + 1) * p.segSize ≤ b := by
    rwa [Nat.add_mul, Nat.one_mul]
  have hflush : (p.dir.flushSeg p.activeId).Within p.segSize b :=
    ⟨h.dir.nodup, h.dir.files, h.dir.cursor⟩
  intro d hd
  simp only [SegmentPool.rotateTrace, List.mem_cons, List.not_mem_nil, or_false] at hd
  obtain rfl | rfl | rfl | rfl := hd
  · exact h.dir
  · exact hflush
  · exact hflush.createSeg hid
  · exact (hflush.createSeg hid).writeCursor hid

/-- A segment is given up for a payload that is longer than the rest of it. -/
private theorem Within.room (h : p.Within b) {n : Nat} (hroom : n > p.remaining) :
    p.activeId * p.segSize + p.segSize ≤ b + n := by
  have hpos := h.position_le
  simp only [position] at hpos
  simp only [remaining] at hroom
  omega

/-- An append wastes less than its payload, so twice the payload is enough. -/
private theorem Within.append (h : p.Within b) (payload : Bytes) :
    (p.append payload).2.Within (b + 2 * payload.length) := by
  have hadv := (append_advances h.cursor_le payload).1
  have hpos := h.position_le
  refine ⟨?_, hadv.position_le.trans (by omega), hadv.segSize ▸ hadv.cursor_le⟩
  rw [hadv.segSize]
  -- the rotation, if there is one, leaves behind fewer bytes than the payload has
  have hroom : (if payload.length > p.remaining then p.sealAndRotate else p).dir.Within
      p.segSize (b + payload.length) := by
    split
    · rename_i hlt
      exact (Within.rotate (h.mono (Nat.le_add_right _ _)) (h.room hlt)).dir
    · exact h.dir.mono (Nat.le_add_right _ _)
  -- the bytes of the payload themselves come on top
  have hmore := hroom.mono (show b + payload.length ≤ b + 2 * payload.length by omega)
  unfold SegmentPool.append
  split
  · exact h.dir.mono (Nat.le_add_right _ _)
  generalize (if payload.length > p.remaining then p.sealAndRotate else p) = q at *
  dsimp only
  split
  · exact hmore
  split
  · exact hmore
  · exact ⟨hmore.nodup, hmore.files, hmore.cursor⟩

/-- A process killed inside an append has asked for no more. -/
private theorem Within.appendTrace (h : p.Within b) (payload : Bytes) :
    ∀ d ∈ p.appendTrace payload, d.Within p.segSize (b + 2 * payload.length) := by
  have hsame := h.dir.mono (Nat.le_add_right b (2 * payload.length))
  -- the rotation alone stays within the bound
  have hrot : ∀ d ∈ (if payload.length > p.remaining then p.rotateTrace else [p.dir]),
      d.Within p.segSize (b + 2 * payload.length) := by
    intro d hd
    split at hd
    · rename_i hlt
      have hroom := h.room hlt
      exact Within.rotateTrace (h.mono (Nat.le_add_right _ _)) (by omega) d hd
    · rw [List.mem_singleton] at hd
      exact hd ▸ hsame
  -- and so does the pool it leaves
  have hq : (if payload.length > p.remaining then p.sealAndRotate else p).dir.Within
      p.segSize (b + 2 * payload.length) := by
    split
    · rename_i hlt
      have hroom := h.room hlt
      exact (Within.rotate (h.mono (Nat.le_add_right _ _)) (by omega)).dir
    · exact hsame
  intro d hd
  -- the images on the way: those of the rotation, then one for each byte of the copy
  unfold SegmentPool.appendTrace at hd
  split at hd
  · rw [List.mem_singleton] at hd
    exact hd ▸ hsame
  generalize (if payload.length > p.remaining then p.rotateTrace else [p.dir]) = rotating at *
  generalize (if payload.length > p.remaining then p.sealAndRotate else p) = q at *
  dsimp only at hd
  split at hd
  · exact hrot d hd
  · obtain hd | hd := List.mem_append.mp hd
    · exact hrot d hd
    · obtain ⟨k, -, rfl⟩ := List.mem_map.mp hd
      -- a partial copy changes bytes of the active file only
      exact ⟨hq.nodup, hq.files, hq.cursor⟩

/-- The pad is an append of its own, or the rotation in its place wastes less than the pad. -/
private theorem Within.appendAligned (h : p.Within b) (payload : Bytes) (align : Nat) :
    (p.appendAligned payload align).2.Within (b + 2 * (payload.length + p.padding align)) := by
  unfold SegmentPool.appendAligned
  split
  · exact (h.append payload).mono (by omega)
  rename_i halign
  simp only [padding, if_neg halign]
  generalize (align - p.activeCursor % align) % align = pad at *
  split
  · split
    · rename_i hlt
      -- the pad does not fit: what is left behind is smaller than it
      have hrot := Within.rotate (h.mono (Nat.le_add_right b pad)) (h.room hlt)
      exact (hrot.append payload).mono (by omega)
    · -- the pad first, then the payload
      have hpadded := h.append (List.replicate pad 0)
      rw [List.length_replicate] at hpadded
      split
      · rename_i hq
        rw [hq] at hpadded
        exact hpadded.mono (by omega)
      · rename_i q hq
        rw [hq] at hpadded
        exact (hpadded.append payload).mono (by omega)
  · exact (h.append payload).mono (by omega)

/-- The same inside an aligned append. -/
private theorem Within.appendAlignedTrace (h : p.Within b) (payload : Bytes) (align : Nat) :
    ∀ d ∈ p.appendAlignedTrace payload align,
      d.Within p.segSize (b + 2 * (payload.length + p.padding align)) := by
  intro d hd
  unfold SegmentPool.appendAlignedTrace at hd
  split at hd
  · exact (h.appendTrace payload d hd).mono (by omega)
  rename_i halign
  simp only [padding, if_neg halign] at hd ⊢
  generalize (align - p.activeCursor % align) % align = pad at *
  split at hd
  · split at hd
    · rename_i hlt
      have hroom := h.room hlt
      -- the padding does not fit: a rotation in its place
      have hwide := h.mono (Nat.le_add_right b pad)
      obtain hd | hd := List.mem_append.mp hd
      · exact (hwide.rotateTrace hroom d hd).mono (by omega)
      · exact ((hwide.rotate hroom).appendTrace payload d hd).mono (by omega)
    · -- the padding is an append like any other
      have hpadded := h.append (List.replicate pad 0)
      have htrace := h.appendTrace (List.replicate pad 0)
      have hsize := (append_advances h.cursor_le (List.replicate pad 0)).1.segSize
      rw [List.length_replicate] at hpadded htrace
      split at hd
      · exact (htrace d hd).mono (by omega)
      · rename_i q hq
        rw [hq] at hpadded hsize
        obtain hd | hd := List.mem_append.mp hd
        · exact (htrace d hd).mono (by omega)
        · have hlast := hpadded.appendTrace payload d hd
          rw [hsize] at hlast
          exact hlast.mono (by omega)
  · exact (h.appendTrace payload d hd).mono (by omega)

/-- A flush records the position it is at. -/
private theorem Within.flush (h : p.Within b) : p.flush.Within b := by
  have hflush : (p.dir.flushSeg p.activeId).Within p.segSize b :=
    ⟨h.dir.nodup, h.dir.files, h.dir.cursor⟩
  exact ⟨hflush.writeCursor h.position_le, h.position_le, h.cursor_le⟩

/-- A rewind gives the position back but no file. -/
private theorem Within.rewind (h : p.Within b) {segId offset : Nat}
    (hq : p.rewindActiveTo segId offset = .ok q) : q.Within b ∧ q.segSize = p.segSize := by
  unfold rewindActiveTo at hq
  split at hq
  · obtain rfl := Except.ok.inj hq
    exact ⟨h, rfl⟩
  split at hq
  · exact nomatch hq
  · rename_i hle
    obtain rfl := Except.ok.inj hq
    have hpos := h.position_le
    have hcur := h.cursor_le
    simp only [position] at hpos
    refine ⟨⟨h.dir, ?_, ?_⟩, rfl⟩
    · show p.activeId * p.segSize + offset ≤ b
      omega
    · show offset ≤ p.segSize
      omega

/-- Segments keep their size. -/
theorem segSize_appendAligned (p : SegmentPool) (payload : Bytes) (align : Nat)
    (h : p.activeCursor ≤ p.segSize) : (p.appendAligned payload align).2.segSize = p.segSize := by
  unfold SegmentPool.appendAligned
  -- the alignment is refused, or there is room for the pad, or there is none
  split
  · exact (append_advances h payload).1.segSize
  dsimp only
  split
  · split
    · -- the aligned payload does not fit, so the segment is rotated first
      exact (append_advances (p := p.sealAndRotate) (Nat.zero_le _) payload).1.segSize
    · -- with a pad: two appends, the second only if the first went through
      have hadv := (append_advances h
        (List.replicate ((align - p.activeCursor % align) % align) 0)).1
      split
      · rename_i hq
        rw [hq] at hadv
        exact hadv.segSize
      · rename_i q hq
        rw [hq] at hadv
        exact (append_advances (hadv.segSize ▸ hadv.cursor_le) payload).1.segSize.trans
          hadv.segSize
  · exact (append_advances h payload).1.segSize

/-- A process goes on at the recorded cursor or in a new segment. -/
private theorem within_open {d : SegDir} {segSize : Nat}
    (h : d.Within («open» d segSize).segSize b) :
    («open» d segSize).Within (b + («open» d segSize).segSize) := by
  have hnext := h.nextSegId
  have hmore := h.mono (Nat.le_add_right b («open» d segSize).segSize)
  -- the recorded cursor if its file is there, else a new segment
  have hopen : ∃ id c, id * («open» d segSize).segSize + c ≤ b + («open» d segSize).segSize ∧
      c ≤ («open» d segSize).segSize ∧
      «open» d segSize = ⟨d.createSeg id, («open» d segSize).segSize, id, c⟩ := by
    have hcursor := h.cursor
    simp only [SegmentPool.open] at hnext hcursor ⊢
    generalize (if segSize = 0 then defaultSegmentSize else segSize) = size at *
    cases hcur : d.cursor with
    | none => exact ⟨d.nextSegId, 0, hnext, Nat.zero_le _, rfl⟩
    | some recorded =>
      obtain ⟨sid, c⟩ := recorded
      have hc := hcursor sid c hcur
      dsimp only
      -- the recorded cursor counts only if its file is there and long enough
      by_cases hok : sid ∈ d.files ∧ c ≤ size
      · rw [if_pos hok]
        exact ⟨sid, c, by omega, hok.2, rfl⟩
      · rw [if_neg hok]
        exact ⟨d.nextSegId, 0, hnext, Nat.zero_le _, rfl⟩
  -- creating a segment at that place keeps the bound
  obtain ⟨id, c, hpos, hle, heq⟩ := hopen
  have hid : id * («open» d segSize).segSize ≤ b + («open» d segSize).segSize := by omega
  have hdir := hmore.createSeg hid
  generalize («open» d segSize).segSize = size at *
  rw [heq]
  exact ⟨hdir, hpos, hle⟩

end SegmentPool

/-! ### Runs -/

/-- The bytes a call asks for: its payload, and the pad up to the next aligned offset.  Where
    the segment ends before that offset the call writes no pad but takes a new segment, and the
    bytes it leaves behind are fewer than the pad. -/
def PoolOp.bytes (p : SegmentPool) : PoolOp → Nat
  | .append payload => payload.length
  | .appendAligned payload align => payload.length + p.padding align
  | .flush | .rewind _ _ => 0

namespace PoolEvent

/-- The bytes of the call, whether it returns or not. -/
def bytes (p : SegmentPool) : PoolEvent → Nat
  | .call op | .kill op _ => op.bytes p

/-- The processes that begin. -/
def restarts : PoolEvent → Nat
  | .call _ => 0
  | .kill _ _ => 1

end PoolEvent

namespace PoolRun

variable {σ : PoolRun} {b : Nat}

/-- What the run makes of the pool, whatever the result. -/
private theorem pool_append (σ : PoolRun) (payload : Bytes) :
    (σ.call (.append payload)).pool = (σ.pool.append payload).2 := by
  simp only [call]
  generalize σ.pool.append payload = r
  obtain ⟨_ | _, _⟩ := r <;> rfl

/-- The same for an aligned append. -/
private theorem pool_appendAligned (σ : PoolRun) (payload : Bytes) (align : Nat) :
    (σ.call (.appendAligned payload align)).pool = (σ.pool.appendAligned payload align).2 := by
  simp only [call]
  generalize σ.pool.appendAligned payload align = r
  obtain ⟨_ | _, _⟩ := r <;> rfl

/-- The step lemma for a call that returns. -/
private theorem within_call (h : σ.pool.Within b) (op : PoolOp) :
    (σ.call op).pool.Within (b + 2 * op.bytes σ.pool) ∧
      (σ.call op).pool.segSize = σ.pool.segSize := by
  cases op with
  | append payload =>
    rw [pool_append]
    exact ⟨h.append payload, (SegmentPool.append_advances h.cursor_le payload).1.segSize⟩
  | appendAligned payload align =>
    rw [pool_appendAligned]
    exact ⟨h.appendAligned payload align,
      SegmentPool.segSize_appendAligned _ payload align h.cursor_le⟩
  | flush => exact ⟨h.flush, rfl⟩
  | rewind segId offset =>
    simp only [call]
    split
    · exact ⟨h, rfl⟩
    · rename_i pool hpool
      exact h.rewind hpool

/-- The step lemma for a call that is killed. -/
private theorem within_trace (h : σ.pool.Within b) (op : PoolOp) :
    ∀ d ∈ σ.trace op, d.Within σ.pool.segSize (b + 2 * op.bytes σ.pool) := by
  cases op with
  | append payload => exact h.appendTrace payload
  | appendAligned payload align => exact h.appendAlignedTrace payload align
  | flush =>
    intro d hd
    simp only [trace, SegmentPool.flushTrace, List.mem_cons, List.not_mem_nil, or_false] at hd
    obtain rfl | rfl | rfl := hd
    · exact h.dir
    · exact ⟨h.dir.nodup, h.dir.files, h.dir.cursor⟩
    · exact h.flush.dir
  | rewind segId offset =>
    intro d hd
    obtain rfl := List.mem_singleton.mp hd
    exact h.dir

/-- One event: a call may need twice its bytes, a new process one more segment. -/
private theorem within_step {segSize : Nat} (hsize : σ.pool.segSize = (start segSize).pool.segSize)
    (h : σ.pool.Within b) (ev : PoolEvent) :
    (σ.step segSize ev).pool.segSize = (start segSize).pool.segSize ∧
      (σ.step segSize ev).pool.Within
        (b + (2 * ev.bytes σ.pool + ev.restarts * (start segSize).pool.segSize)) := by
  cases ev with
  | call op =>
    obtain ⟨hw, hs⟩ := within_call h op
    refine ⟨hs.trans hsize, ?_⟩
    simpa [step, PoolEvent.bytes, PoolEvent.restarts] using hw
  | kill op i =>
    -- the state at the kill is one inside the call
    have hkilled : (σ.killed op i).Within σ.pool.segSize (b + 2 * op.bytes σ.pool) := by
      unfold killed
      cases hd : (σ.trace op)[i]? with
      | none => exact h.dir.mono (Nat.le_add_right _ _)
      | some d => exact within_trace h op d (List.mem_of_getElem? hd)
    have hopen : (SegmentPool.open (σ.killed op i) segSize).segSize =
        (start segSize).pool.segSize := rfl
    rw [hsize, ← hopen] at hkilled
    refine ⟨rfl, ?_⟩
    -- the process after it may take one more segment
    have hw := SegmentPool.within_open hkilled
    rw [hopen] at hw
    simpa [step, PoolEvent.bytes, PoolEvent.restarts, Nat.add_assoc] using hw

/-- The files of a pool take at most twice the bytes that were ever handed to it, one segment
    for every process, and one more. -/
theorem disk_le_offered (segSize : Nat) (evs : List PoolEvent) :
    (Run.exec (step segSize) (start segSize) evs).pool.diskBytes ≤
      2 * Run.spent (step segSize) (fun σ ev => ev.bytes σ.pool) (start segSize) evs +
        ((evs.map PoolEvent.restarts).sum + 1) * (start segSize).pool.segSize := by
  have hpos : 0 < (start segSize).pool.segSize := by
    show 0 < if segSize = 0 then defaultSegmentSize else segSize
    split <;> (try decide)
    omega
  -- one empty segment to begin with
  have hstart : (start segSize).pool.Within 0 := by
    refine ⟨⟨?_, ?_, nofun⟩, ?_, Nat.zero_le _⟩
    · exact List.nodup_singleton 0
    · intro f hf
      obtain rfl := List.mem_singleton.mp hf
      exact Nat.zero_mul _ ▸ Nat.le_refl _
    · exact Nat.zero_mul _ ▸ Nat.le_refl _
  -- each event pays for what it asks, twice, and for its restarts
  have hrun := Run.exec_spent
    (fun b (σ : PoolRun) => σ.pool.segSize = (start segSize).pool.segSize ∧ σ.pool.Within b)
    (fun b σ ev hσ => within_step hσ.1 hσ.2 ev) ⟨rfl, hstart⟩ evs
  obtain ⟨hsize, hw⟩ := hrun
  have hdisk := hw.dir.length_le (hsize ▸ hpos)
  -- what the calls ask for and what the processes take are paid for separately
  rw [Run.spent_add, Run.spent_mul_left (step segSize) 2 (fun σ ev => ev.bytes σ.pool),
    Run.spent_const (step segSize) (fun ev => ev.restarts * (start segSize).pool.segSize),
    List.sum_map_mul_right, hsize] at hdisk
  rw [SegmentPool.diskBytes, hsize, Nat.add_mul, Nat.one_mul]
  omega

end PoolRun

end FusionStore
