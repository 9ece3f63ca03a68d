import FusionStore.ForStd.Ledger
import FusionStore.Spec.EngineCorrect

/-!
# When a replay goes through

Recovery sends every pending operation through the validating call of its submodule
and stops at the first error.  `replayAll_ok_iff` says exactly which logs it accepts:
each operation must be well-formed for the files it meets (`WalOp.Replayable`), and the
quota accounting, run again over the log on top of the counter that is stored, must stay
within the limit (`QuotaFits`).
-/

namespace FusionStore

/-- An operation its submodule accepts at any time, quota aside.  `schema` is that of the
    open index; the columnar store is never open during recovery. -/
def WalOp.Replayable (schema : Option VectorSchema) : WalOp → Prop
  | .putKv key value =>
    key ≠ [] ∧ key.length ≤ lmdbMaxKey ∧ value.length ≤ defaultSegmentSize
  | .deleteKv key => key ≠ []
  | .insertVector _ vector =>
    ∃ s, schema = some s ∧ vector.length = s.dim ∧ s.dim * 4 ≤ defaultVecSegmentSize
  | .deleteVector _ => schema.isSome
  | .putColumnar .. => False

instance (schema : Option VectorSchema) (op : WalOp) : Decidable (op.Replayable schema) :=
  match op, schema with
  | .putKv .., _ => inferInstanceAs (Decidable (_ ∧ _ ∧ _))
  | .deleteKv _, _ => inferInstanceAs (Decidable (_ ≠ _))
  | .insertVector _ _, none => .isFalse fun ⟨_, h, _⟩ => nomatch h
  | .insertVector _ vector, some s =>
    decidable_of_iff (vector.length = s.dim ∧ s.dim * 4 ≤ defaultVecSegmentSize)
      ⟨fun h => ⟨s, rfl, h⟩, fun ⟨t, ht, h⟩ => by rw [Option.some.injEq] at ht; exact ht ▸ h⟩
  | .deleteVector _, schema => inferInstanceAs (Decidable (schema.isSome = true))
  | .putColumnar .., _ => .isFalse id

/-- The quota accounting of a log, from a counter and the lengths of the stored values:
    overwriting counts the growth only, deleting gives the stored length back. -/
def QuotaFits (limit : Nat) : Nat → (Bytes → Nat) → List WalOp → Prop
  | _, _, [] => True
  | used, len, .putKv key value :: ops =>
    used + (value.length - len key) ≤ u64Max ∧
      (limit = 0 ∨ used + (value.length - len key) ≤ limit) ∧
      QuotaFits limit (used + (value.length - len key)) (Function.update len key value.length) ops
  | used, len, .deleteKv key :: ops =>
    QuotaFits limit (used - len key) (Function.update len key 0) ops
  | used, len, .insertVector .. :: ops => QuotaFits limit used len ops
  | used, len, .deleteVector _ :: ops => QuotaFits limit used len ops
  | used, len, .putColumnar .. :: ops => QuotaFits limit used len ops

instance QuotaFits.decidable (limit : Nat) :
    ∀ used len ops, Decidable (QuotaFits limit used len ops)
  | _, _, [] => .isTrue trivial
  | used, len, .putKv key value :: ops =>
    have := QuotaFits.decidable limit (used + (value.length - len key))
      (Function.update len key value.length) ops
    inferInstanceAs (Decidable (_ ∧ _ ∧ _))
  | used, len, .deleteKv key :: ops =>
    QuotaFits.decidable limit (used - len key) (Function.update len key 0) ops
  | used, len, .insertVector .. :: ops => QuotaFits.decidable limit used len ops
  | used, len, .deleteVector _ :: ops => QuotaFits.decidable limit used len ops
  | used, len, .putColumnar .. :: ops => QuotaFits.decidable limit used len ops

/-- The bytes of the values in a log. -/
def loggedBytes : List WalOp → Nat
  | [] => 0
  | .putKv _ value :: ops => value.length + loggedBytes ops
  | _ :: ops => loggedBytes ops

/-- Without a quota only the 64-bit counter itself could overflow. -/
theorem quotaFits_of_room {len : Bytes → Nat} {ops : List WalOp} {used : Nat}
    (h : used + loggedBytes ops ≤ u64Max) : QuotaFits 0 used len ops := by
  induction ops generalizing used len with
  | nil => trivial
  | cons op ops ih =>
    cases op with
    | putKv key value =>
      simp only [loggedBytes] at h
      exact ⟨by omega, Or.inl rfl, ih (by omega)⟩
    | deleteKv key =>
      simp only [loggedBytes] at h
      exact ih (by omega)
    | insertVector id vector => exact ih h
    | deleteVector id => exact ih h
    | putColumnar t ipc => exact ih h

/-- The lengths that a log leaves, from the lengths `len`. -/
def lengthsAfter (len : Bytes → Nat) : List WalOp → Bytes → Nat
  | [] => len
  | .putKv key value :: ops => lengthsAfter (Function.update len key value.length) ops
  | .deleteKv key :: ops => lengthsAfter (Function.update len key 0) ops
  | .insertVector .. :: ops => lengthsAfter len ops
  | .deleteVector _ :: ops => lengthsAfter len ops
  | .putColumnar .. :: ops => lengthsAfter len ops

theorem lengthsAfter_append (len : Bytes → Nat) (ops ops' : List WalOp) :
    lengthsAfter len (ops ++ ops') = lengthsAfter (lengthsAfter len ops) ops' := by
  induction ops generalizing len with
  | nil => rfl
  | cons op ops ih => cases op <;> exact ih _

/-- The usage counter after the operations. -/
def usedAfter (used : Nat) (len : Bytes → Nat) : List WalOp → Nat
  | [] => used
  | .putKv key value :: ops =>
    usedAfter (used + (value.length - len key)) (Function.update len key value.length) ops
  | .deleteKv key :: ops => usedAfter (used - len key) (Function.update len key 0) ops
  | .insertVector .. :: ops => usedAfter used len ops
  | .deleteVector _ :: ops => usedAfter used len ops
  | .putColumnar .. :: ops => usedAfter used len ops

theorem usedAfter_append (used : Nat) (len : Bytes → Nat) (ops ops' : List WalOp) :
    usedAfter used len (ops ++ ops') =
      usedAfter (usedAfter used len ops) (lengthsAfter len ops) ops' := by
  induction ops generalizing used len with
  | nil => rfl
  | cons op ops ih => cases op <;> exact ih _ _

/-- The quota is checked operation by operation. -/
theorem quotaFits_append {limit used : Nat} {len : Bytes → Nat} (ops ops' : List WalOp) :
    QuotaFits limit used len (ops ++ ops') ↔ QuotaFits limit used len ops ∧
      QuotaFits limit (usedAfter used len ops) (lengthsAfter len ops) ops' := by
  induction ops generalizing used len with
  | nil => simp only [List.nil_append, QuotaFits, usedAfter, lengthsAfter, true_and]
  | cons op ops ih =>
    cases op with
    | putKv key value =>
      simp only [List.cons_append, QuotaFits, ih, and_assoc]
      rfl
    | _ => exact ih

/-- No operation shrinks the slack of the counter. -/
theorem slack_after {p used : Nat} {len : Bytes → Nat} (h : Ledger.Slack p used len)
    (ops : List WalOp) : Ledger.Slack p (usedAfter used len ops) (lengthsAfter len ops) := by
  induction ops generalizing used len with
  | nil => exact h
  | cons op ops ih =>
    cases op with
    | putKv key value => exact ih (h.set key value.length)
    | deleteKv key => exact ih (h.clear key)
    | _ => exact ih h

/-- A put that exceeds the limit, or the counter itself. -/
def OverLimit (limit n : Nat) : Prop := u64Max < n ∨ (limit ≠ 0 ∧ limit < n)

/-- A put that did not fit the quota when the log was written fits it even less when the
    log is replayed on top of what came later: the slack of the counter never shrinks, and
    the entries are at least as large as they were. -/
theorem not_quotaFits {limit used p : Nat} {len g : Bytes → Nat} (hs : Ledger.Slack p used len)
    (hle : ∀ k, g k ≤ len k) {ops rest : List WalOp} {key value : Bytes} {K : Finset Bytes}
    (hover : OverLimit limit (∑ k ∈ K, lengthsAfter g ops k + p +
      (value.length - lengthsAfter g ops key))) :
    ¬QuotaFits limit used len (ops ++ .putKv key value :: rest) := by
  have hupdate : ∀ {g len : Bytes → Nat} (_ : ∀ k, g k ≤ len k) (key : Bytes) (n : Nat),
      ∀ k, Function.update g key n k ≤ Function.update len key n k := by
    intro g len hle key n k
    by_cases hk : k = key
    · rw [hk, Function.update_self, Function.update_self]
    · rw [Function.update_of_ne hk, Function.update_of_ne hk]
      exact hle k
  induction ops generalizing used len g with
  | nil =>
    rintro ⟨hcount, hlimit, -⟩
    have hbook := hs.le_set hle K key value.length
    rcases hover with hover | ⟨hne, hover⟩
    · exact absurd (Nat.lt_of_lt_of_le hover hbook) (by omega)
    · exact absurd (Nat.lt_of_lt_of_le hover hbook) (by omega)
  | cons op ops ih =>
    cases op with
    | putKv k v =>
      rintro ⟨-, -, hrest⟩
      exact ih (hs.set k v.length) (hupdate hle k v.length) hover hrest
    | deleteKv k => exact ih (hs.clear k) (hupdate hle k 0) hover
    | insertVector id v => exact ih hs hle hover
    | deleteVector id => exact ih hs hle hover
    | putColumnar t v => exact ih hs hle hover

/-- The stored length of a key in the files. -/
def KvDir.lenOf (d : KvDir) (key : Bytes) : Nat :=
  match d.env.volatile.db.lookup key with
  | some loc => loc.len
  | none => 0

theorem KvDir.lenOf_congr {d d' : KvDir} {key : Bytes}
    (h : d.env.volatile.db.lookup key = d'.env.volatile.db.lookup key) :
    d.lenOf key = d'.lenOf key := by
  unfold KvDir.lenOf
  rw [h]

/-- A stored vector shows that its dimension fits a segment. -/
theorem VectorIndex.fits_of_stored {n : Nat} {x : VectorIndex} (h : x.InvAt n) {id : NodeId}
    (hc : x.cell id ≠ .absent) : x.Fits := by
  rw [ne_eq, VectorIndex.cell_eq_absent] at hc
  obtain ⟨loc, hl⟩ := Option.ne_none_iff_exists'.mp hc
  obtain ⟨hh, hlen, -⟩ := h.holds id loc hl
  have hle := hh.2.1
  rw [hlen] at hle
  rw [VectorIndex.fits_iff h]
  exact Nat.le_trans (Nat.le_add_left _ _) hle

namespace Engine

variable {s : VectorSchema} {e e' : Engine} (A : F32Arith) (I : Ipc)

/-- Whether one operation is accepted depends on its form and on the quota only. -/
theorem replayOp_ok_iff (h : e.Inv s) (op : WalOp)
    (hcol : ∀ t ipc, op = .putColumnar t ipc → ∃ c, e.col = .closed c) :
    (e.replayOp A I op).1 = .ok () ↔
      op.Replayable e.schema ∧
        QuotaFits e.kv.quotaLimit e.kv.env.volatile.used e.kv.lenOf [op] := by
  have hv := h.vec
  cases op with
  | putKv key value =>
    show (e.kv.putKv key value true none).1 = .ok () ↔ _
    simp only [WalOp.Replayable, QuotaFits, and_true]
    rcases KvStore.putKv_cases h.kv key value true with ⟨-, hacc, loc, pool, he, -⟩ |
      ⟨hn, err, pool, he, -⟩
    · rw [he]
      exact ⟨fun _ => ⟨⟨hacc.key_ne, hacc.key_le, hacc.value_le⟩, hacc.counter, hacc.quota⟩,
        fun _ => rfl⟩
    · rw [he]
      refine ⟨fun hk => (by cases hk), fun hacc => ?_⟩
      obtain ⟨⟨hne, hle, hval⟩, hcount, hquota⟩ := hacc
      exact absurd ⟨rfl, ⟨hne, hle, hcount, hquota, hval⟩⟩ hn
  | deleteKv key =>
    show (Except.map (fun _ => ()) (e.kv.deleteKv key true none).1) = .ok () ↔ _
    simp only [WalOp.Replayable, QuotaFits, and_true]
    rcases KvStore.deleteKv_cases e.kv key true with ⟨-, hne, he⟩ | ⟨-, hne, -, he⟩ | ⟨hn, err, he⟩
    · rw [he]
      exact ⟨fun _ => hne, fun _ => rfl⟩
    · rw [he]
      exact ⟨fun _ => hne, fun _ => rfl⟩
    · rw [he]
      exact ⟨fun hk => (by cases hk), fun hne => absurd ⟨rfl, hne⟩ hn⟩
  | insertVector id vector =>
    simp only [WalOp.Replayable, QuotaFits, and_true]
    cases hvec : e.vec with
    | closed d =>
      simp only [replayOp, ensureVec, hvec, schema, reduceCtorEq, false_and, exists_false]
    | opened x =>
      rw [hvec] at hv
      have hform : (∃ t, e.schema = some t ∧ vector.length = t.dim ∧
          t.dim * 4 ≤ defaultVecSegmentSize) ↔ vector.length = x.schema.dim ∧ x.Fits := by
        simp only [schema, hvec, Option.some.injEq, VectorIndex.Fits, hv.1.segSize]
        constructor
        · rintro ⟨t, rfl, hd, hf⟩
          exact ⟨hd, hf⟩
        · rintro ⟨hd, hf⟩
          exact ⟨x.schema, rfl, hd, hf⟩
      rw [hform]
      simp only [replayOp, ensureVec, hvec]
      -- a duplicate counts as replayed, and a stored vector has fitted before
      rcases VectorIndex.insert_cases A hv.1 id vector with ⟨hd, he⟩ | ⟨hd, hc, he⟩ |
        ⟨hd, -, hf, y, he, -⟩ | ⟨-, -, hf, msg, y, he, -⟩ <;> rw [he]
      · -- the wrong dimension
        exact ⟨fun hk => (by cases hk), fun hk => absurd hk.1 hd⟩
      · -- a duplicate
        exact ⟨fun _ => ⟨hd, VectorIndex.fits_of_stored hv.1 hc⟩, fun _ => rfl⟩
      · exact ⟨fun _ => ⟨hd, hf⟩, fun _ => rfl⟩
      · -- a vector larger than a segment
        exact ⟨fun hk => (by cases hk), fun hk => absurd hk.2 hf⟩
  | deleteVector id =>
    simp only [WalOp.Replayable, QuotaFits, and_true]
    cases hvec : e.vec with
    | closed d => simp [replayOp, ensureVec, hvec, schema]
    | opened x => simp [replayOp, ensureVec, hvec, schema]
  | putColumnar tableId ipc =>
    obtain ⟨c, hc⟩ := hcol tableId ipc rfl
    -- recovery never opens the columnar store
    simp only [WalOp.Replayable, false_and, iff_false, replayOp, ensureCol, hc]
    split <;> exact fun hk => by cases hk

/-- An accepted operation moves the accounting by one step. -/
theorem replayOp_accounts (h : e.Inv s) {op : WalOp} (hr : e.replayOp A I op = (.ok (), e')) :
    e'.kv.env.volatile.used = usedAfter e.kv.env.volatile.used e.kv.lenOf [op] ∧
      e'.kv.lenOf = lengthsAfter e.kv.lenOf [op] := by
  cases op with
  | putKv key value =>
    cases hput : e.kv.putKv key value true none with
    | mk r kv =>
      simp only [replayOp, hput, Prod.mk.injEq] at hr
      obtain ⟨rfl, rfl⟩ := hr
      exact (KvStore.putKv_ok h.kv hput).2.2.2
  | deleteKv key =>
    cases hdel : e.kv.deleteKv key true none with
    | mk r kv =>
      simp only [replayOp, hdel, Prod.mk.injEq] at hr
      obtain ⟨hok, rfl⟩ := hr
      cases r with
      | error err => cases hok
      | ok removed => exact (KvStore.deleteKv_ok h.kv hdel).2.2.2
  | insertVector id vector =>
    -- the vector and columnar operations leave the KV store alone
    have hsame : e'.kv = e.kv := by
      simp only [replayOp] at hr
      split at hr
      · cases (Prod.mk.inj hr).1
      · split at hr <;> exact (Prod.mk.inj hr).2 ▸ rfl
    rw [hsame]
    exact ⟨rfl, rfl⟩
  | deleteVector id =>
    have hsame : e'.kv = e.kv := by
      simp only [replayOp] at hr
      split at hr
      · cases (Prod.mk.inj hr).1
      · exact (Prod.mk.inj hr).2 ▸ rfl
    rw [hsame]
    exact ⟨rfl, rfl⟩
  | putColumnar tableId ipc =>
    have hsame : e'.kv = e.kv := by
      simp only [replayOp] at hr
      split at hr
      · cases (Prod.mk.inj hr).1
      · split at hr
        · cases (Prod.mk.inj hr).1
        · exact (Prod.mk.inj hr).2 ▸ rfl
    rw [hsame]
    exact ⟨rfl, rfl⟩

theorem quotaFits_step (h : e.Inv s) {op : WalOp} (hr : e.replayOp A I op = (.ok (), e'))
    (ops : List WalOp) :
    QuotaFits e.kv.quotaLimit e.kv.env.volatile.used e.kv.lenOf (op :: ops) ↔
      QuotaFits e.kv.quotaLimit e.kv.env.volatile.used e.kv.lenOf [op] ∧
        QuotaFits e'.kv.quotaLimit e'.kv.env.volatile.used e'.kv.lenOf ops := by
  obtain ⟨hused, hlen⟩ := replayOp_accounts A I h hr
  rw [(replayOp_ok A I h hr).1.quotaLimit, hused, hlen]
  exact quotaFits_append [op] ops

/-- Replay never opens the columnar store. -/
theorem col_replayOp {c : ColDir} (hcol : e.col = .closed c) {op : WalOp}
    {r : Except StoreError Unit} (hr : e.replayOp A I op = (r, e')) : e'.col = .closed c := by
  cases op with
  | putKv key value =>
    simp only [replayOp, Prod.mk.injEq] at hr
    exact hr.2 ▸ hcol
  | deleteKv key =>
    simp only [replayOp, Prod.mk.injEq] at hr
    exact hr.2 ▸ hcol
  | insertVector id vector =>
    simp only [replayOp] at hr
    split at hr
    · exact (Prod.mk.inj hr).2 ▸ hcol
    · split at hr <;> exact (Prod.mk.inj hr).2 ▸ hcol
  | deleteVector id =>
    simp only [replayOp] at hr
    split at hr <;> exact (Prod.mk.inj hr).2 ▸ hcol
  | putColumnar tableId ipc =>
    simp only [replayOp, ensureCol, hcol] at hr
    split at hr <;> exact (Prod.mk.inj hr).2 ▸ hcol

/-- The logs that recovery accepts. -/
theorem replayAll_ok_iff (h : e.Inv s) {c : ColDir} (hcol : e.col = .closed c)
    (p : List WalEntry) :
    (e.replayAll A I p).1 = .ok () ↔
      (∀ op ∈ p.map WalEntry.op, op.Replayable e.schema) ∧
        QuotaFits e.kv.quotaLimit e.kv.env.volatile.used e.kv.lenOf (p.map WalEntry.op) := by
  induction p generalizing e with
  | nil => simp [replayAll, QuotaFits]
  | cons entry p ih =>
    -- one entry, and from it the rest
    have hone := replayOp_ok_iff A I h entry.op fun _ _ _ => ⟨c, hcol⟩
    unfold replayAll
    rw [List.map_cons]
    split
    · rename_i err e1 heq
      rw [heq] at hone
      refine ⟨fun hk => (by cases hk), fun hacc => ?_⟩
      obtain ⟨hall, hq⟩ := hacc
      -- the quota of the whole list covers that of its head
      have hfirst : QuotaFits e.kv.quotaLimit e.kv.env.volatile.used e.kv.lenOf [entry.op] := by
        cases hop : entry.op with
        | putKv key value =>
          rw [hop] at hq
          exact ⟨hq.1, hq.2.1, trivial⟩
        | deleteKv key => trivial
        | insertVector id vector => trivial
        | deleteVector id => trivial
        | putColumnar t ipc => trivial
      cases hone.mpr ⟨hall _ List.mem_cons_self, hfirst⟩
    · rename_i e1 heq
      rw [heq] at hone
      obtain ⟨hrep, hq⟩ := hone.mp rfl
      obtain ⟨h1, hframe⟩ := replayOp_inv A I h heq
      rw [ih h1 (col_replayOp A I hcol heq), hframe.schema, quotaFits_step A I h heq]
      simp only [List.forall_mem_cons]
      exact ⟨fun hrest => ⟨⟨hrep, hrest.1⟩, hq, hrest.2⟩, fun hall => ⟨hall.1.2, hall.2.2⟩⟩

theorem recoverInner_ok_iff (h : e.Inv s) {c : ColDir} (hcol : e.col = .closed c) :
    (e.recoverInner A I).1 = .ok () ↔
      (∀ op ∈ e.wal.dir.pendingOps, op.Replayable e.schema) ∧
        QuotaFits e.kv.quotaLimit e.kv.env.volatile.used e.kv.lenOf e.wal.dir.pendingOps := by
  unfold LogDir.pendingOps
  rw [← replayAll_ok_iff A I h hcol]
  unfold recoverInner
  simp only
  split
  · rename_i hempty
    rw [List.isEmpty_iff.mp hempty]
    exact ⟨fun _ => rfl, fun _ => rfl⟩
  · split
    · rename_i heq
      rw [heq]
    · rename_i heq
      rw [heq]

/-- The directories `open` accepts once its submodules are open. -/
theorem Restores.ok_iff {d : EngineDir} {schema : Option VectorSchema} {quota : Nat}
    {order : MapOrder} {start : NodeId → Cell} {e₀ : Engine}
    (hres : Restores A I s d schema quota order start e₀) :
    (∃ e, («open» A I d schema quota order).1 = .ok e) ↔
      (∀ op ∈ d.wal.pendingOps, op.Replayable e₀.schema) ∧
        QuotaFits quota d.kv.env.volatile.used d.kv.lenOf d.wal.pendingOps := by
  have hiff := recoverInner_ok_iff A I hres.inv hres.col
  rw [hres.wal, hres.kv] at hiff
  refine Iff.trans ?_ hiff
  rw [hres.eq]
  cases e₀.recoverInner A I with
  | mk r e1 =>
    cases r with
    | error err => exact ⟨fun ⟨e, he⟩ => (nomatch he), fun he => nomatch he⟩
    | ok u => exact ⟨fun _ => rfl, fun _ => ⟨e1, rfl⟩⟩

end Engine

end FusionStore
