import FusionStore.Spec.KvRestart
import FusionStore.Spec.VectorRestart

/-!
# Recovery inside a session

`recover` replays the log over a state that already contains it.  The last operation on a
key or an id decides what its replay leaves, and that is what the state shows anyway,
with three exceptions: a put over a longer value adds to the byte counter every time it
runs, the counter may now be too high for a put that went through before, and a delete is
replayed on an id that was inserted again since.
-/

namespace FusionStore

/-! ### The byte counter -/

/-- No put of the replay overwrites a longer value. -/
def NeverShrinks (len : Bytes → Nat) : List WalOp → Prop
  | [] => True
  | .putKv key value :: ops =>
    len key ≤ value.length ∧ NeverShrinks (Function.update len key value.length) ops
  | .deleteKv key :: ops => NeverShrinks (Function.update len key 0) ops
  | .insertVector .. :: ops => NeverShrinks len ops
  | .deleteVector _ :: ops => NeverShrinks len ops
  | .putColumnar .. :: ops => NeverShrinks len ops

instance NeverShrinks.decidable : ∀ len ops, Decidable (NeverShrinks len ops)
  | _, [] => .isTrue trivial
  | len, .putKv key value :: ops =>
    have := NeverShrinks.decidable (Function.update len key value.length) ops
    inferInstanceAs (Decidable (_ ∧ _))
  | len, .deleteKv key :: ops => NeverShrinks.decidable (Function.update len key 0) ops
  | len, .insertVector .. :: ops => NeverShrinks.decidable len ops
  | len, .deleteVector _ :: ops => NeverShrinks.decidable len ops
  | len, .putColumnar .. :: ops => NeverShrinks.decidable len ops

/-- The bytes the counter keeps of values that were overwritten by shorter ones. -/
def shrinkage (len : Bytes → Nat) : List WalOp → Nat
  | [] => 0
  | .putKv key value :: ops =>
    (len key - value.length) + shrinkage (Function.update len key value.length) ops
  | .deleteKv key :: ops => shrinkage (Function.update len key 0) ops
  | .insertVector .. :: ops => shrinkage len ops
  | .deleteVector _ :: ops => shrinkage len ops
  | .putColumnar .. :: ops => shrinkage len ops

/-- Nothing is lost where nothing shrinks. -/
theorem shrinkage_eq_zero {len : Bytes → Nat} {ops : List WalOp} :
    shrinkage len ops = 0 ↔ NeverShrinks len ops := by
  induction ops generalizing len with
  | nil => simp [shrinkage, NeverShrinks]
  | cons op ops ih => cases op <;> simp [shrinkage, NeverShrinks, ih, Nat.sub_eq_zero_iff_le]

/-- The keys a list of operations touches. -/
def touchedKeys (ops : List WalOp) : Finset Bytes :=
  (ops.filterMap fun op => match op with
    | .putKv key _ => some key
    | .deleteKv key => some key
    | _ => none).toFinset

/-- The counter follows the lengths, but for what was lost to shorter values. -/
theorem usedAfter_add {len : Bytes → Nat} {used : Nat} (hs : Ledger.Slack 0 used len)
    {K : Finset Bytes} {ops : List WalOp} (hK : touchedKeys ops ⊆ K) :
    usedAfter used len ops + ∑ k ∈ K, len k =
      used + ∑ k ∈ K, lengthsAfter len ops k + shrinkage len ops := by
  -- by induction on the log: each entry moves the sum over the keys by what it moves the counter
  induction ops generalizing used len with
  | nil => simp [usedAfter, lengthsAfter, shrinkage]
  | cons op ops ih =>
    have hrest : touchedKeys ops ⊆ K := by
      refine subset_trans (fun k hk => ?_) hK
      simp only [touchedKeys, List.mem_toFinset, List.mem_filterMap, List.mem_cons] at hk ⊢
      obtain ⟨op', hop, hkey⟩ := hk
      exact ⟨op', .inr hop, hkey⟩
    cases op with
    -- a put takes the old length off and adds the new one, or loses the difference
    | putKv key value =>
      have hk : key ∈ K := hK (by simp [touchedKeys])
      have hsum := Ledger.sum_update_add hk len value.length
      have hih := ih (hs.set key value.length) hrest
      simp only [usedAfter, lengthsAfter, shrinkage]
      omega
    | deleteKv key =>
      have hk : key ∈ K := hK (by simp [touchedKeys])
      have hsum := Ledger.sum_update_add hk len 0
      -- the length of a stored value is on the counter, so nothing is cut off at zero
      have hle : len key ≤ used := by simpa using hs {key}
      have hih := ih (hs.clear key) hrest
      simp only [usedAfter, lengthsAfter, shrinkage]
      omega
    | insertVector id v => exact ih hs hrest
    | deleteVector id => exact ih hs hrest
    | putColumnar t ipc => exact ih hs hrest

/-- A replay that leaves all lengths as they are adds exactly what was lost. -/
theorem usedAfter_eq_iff {len : Bytes → Nat} {used : Nat} (hs : Ledger.Slack 0 used len)
    {ops : List WalOp} (hlen : lengthsAfter len ops = len) :
    usedAfter used len ops = used ↔ NeverShrinks len ops := by
  have hsum := usedAfter_add hs (subset_refl (touchedKeys ops))
  rw [hlen] at hsum
  rw [← shrinkage_eq_zero]
  omega

/-- The last operation on a key decides its length. -/
theorem lengthsAfter_eq (len : Bytes → Nat) (ops : List WalOp) (key : Bytes) :
    lengthsAfter len ops key = match lastEffect key ops with
      | some (some v) => v.length
      | some none => 0
      | none => len key := by
  induction ops generalizing len with
  | nil => rfl
  | cons op ops ih =>
    -- the head matters only for a key the tail does not touch
    have hstep : ∀ len', (∀ eff, lastEffect key ops = some eff →
        lastEffect key (op :: ops) = some eff) → (lastEffect key ops = none →
        len' key = match kvEffect key op with
          | some (some v) => v.length
          | some none => 0
          | none => len key) →
        lengthsAfter len' ops key = match lastEffect key (op :: ops) with
          | some (some v) => v.length
          | some none => 0
          | none => len key := by
      intro len' hsome hnone
      rw [ih]
      cases heff : lastEffect key ops with
      | some eff => rw [hsome eff heff]; cases eff <;> rfl
      | none =>
        rw [lastEffect_cons, heff, Option.none_or]
        exact hnone heff
    have hsome : ∀ eff, lastEffect key ops = some eff →
        lastEffect key (op :: ops) = some eff := by
      intro eff heff
      rw [lastEffect_cons, heff, Option.some_or]
    cases op with
    | putKv k v =>
      refine hstep _ hsome fun _ => ?_
      by_cases hk : k = key
      · subst hk
        simp [kvEffect]
      · simp [kvEffect, hk, Function.update_of_ne (Ne.symm hk)]
    | deleteKv k =>
      refine hstep _ hsome fun _ => ?_
      by_cases hk : k = key
      · subst hk
        simp [kvEffect]
      · simp [kvEffect, hk, Function.update_of_ne (Ne.symm hk)]
    -- vector and columnar entries have no effect on a key
    | insertVector id v => exact hstep _ hsome fun _ => rfl
    | deleteVector id => exact hstep _ hsome fun _ => rfl
    | putColumnar t ipc => exact hstep _ hsome fun _ => rfl

/-- The length of a key is that of the value it shows. -/
theorem KvStore.lenOf_eq_view (s : KvStore) (key : Bytes) :
    s.lenOf key = match s.view key with
      | some v => v.length
      | none => 0 := by
  unfold lenOf view
  cases s.env.volatile.db.lookup key with
  | none => rfl
  | some loc => exact (SegMem.length_read _ _ _ _).symm

/-- Operations that agree with what a store shows leave its lengths alone. -/
theorem KvStore.Agrees.lengthsAfter {kv : KvStore} {ops : List WalOp} (h : kv.Agrees ops) :
    lengthsAfter kv.lenOf ops = kv.lenOf := by
  funext key
  rw [lengthsAfter_eq]
  cases heff : lastEffect key ops with
  | none => rfl
  | some eff =>
    rw [kv.lenOf_eq_view, h key eff heff]
    cases eff <;> rfl

/-! ### The cells -/

/-- The last operation on a vector. -/
def lastVecEffect (id : NodeId) (ops : List WalOp) : Option (Option (List F32)) :=
  ops.reverse.findSome? (vecEffect id)

/-- The later log has the last word. -/
theorem lastVecEffect_append (id : NodeId) (ops new : List WalOp) :
    lastVecEffect id (ops ++ new) = (lastVecEffect id new).or (lastVecEffect id ops) := by
  simp [lastVecEffect]

/-- Entry by entry. -/
theorem lastVecEffect_cons (id : NodeId) (op : WalOp) (ops : List WalOp) :
    lastVecEffect id (op :: ops) = (lastVecEffect id ops).or (vecEffect id op) := by
  rw [show op :: ops = [op] ++ ops from rfl, lastVecEffect_append]
  cases h : vecEffect id op <;> simp [lastVecEffect, h]

/-- An entry of another id leaves the cell. -/
theorem Cell.apply_of_no_effect {id : NodeId} {op : WalOp} (h : vecEffect id op = none)
    (c : Cell) : c.apply id op = c := by
  cases op with
  | insertVector j v => simp only [vecEffect] at h; split at h <;> simp_all [Cell.apply]
  | deleteVector j => simp only [vecEffect] at h; split at h <;> simp_all [Cell.apply]
  | _ => rfl

/-- No operation hides a cell. -/
theorem Cell.apply_ne_hidden {id : NodeId} {c : Cell} (h : ∀ v, c ≠ .hidden v) (op : WalOp)
    (v : List F32) : c.apply id op ≠ .hidden v := by
  cases op with
  | insertVector j w =>
    simp only [Cell.apply]
    split
    · cases c <;> simp_all [Cell.insert]
    · exact h v
  | deleteVector j =>
    simp only [Cell.apply]
    split
    · cases c <;> simp_all [Cell.delete]
    · exact h v
  | _ => exact h v

/-- So does a log without entries of the id. -/
theorem Cell.applyAll_of_no_effect {id : NodeId} {ops : List WalOp}
    (h : lastVecEffect id ops = none) (c : Cell) : c.applyAll id ops = c := by
  induction ops generalizing c with
  | nil => rfl
  | cons op ops ih =>
    rw [lastVecEffect_cons, Option.or_eq_none_iff] at h
    rw [applyAll_cons, apply_of_no_effect h.2, ih h.1]

/-- What was deleted last is not visible, whatever came before. -/
theorem Cell.visible_of_last_delete {id : NodeId} {ops : List WalOp}
    (h : lastVecEffect id ops = some none) (c : Cell) : (c.applyAll id ops).visible = none := by
  induction ops generalizing c with
  | nil => cases h
  | cons op ops ih =>
    rw [applyAll_cons]
    rw [lastVecEffect_cons] at h
    cases hl : lastVecEffect id ops with
    -- the effect comes later in the log
    | some eff =>
      rw [hl, Option.some_or] at h
      exact ih (hl.trans h) _
    -- the head is the last operation on this id
    | none =>
      rw [hl, Option.none_or] at h
      rw [applyAll_of_no_effect hl]
      cases op with
      | deleteVector j =>
        simp only [vecEffect] at h
        split at h
        · rename_i hj
          rw [Cell.apply, if_pos hj]
          cases c <;> rfl
        · cases h
      -- an insert is no delete
      | insertVector j v =>
        simp only [vecEffect] at h
        split at h <;> cases h
      | _ => cases h

/-- A cell that shows the last operation on it is hidden by the replay only if it is
    live and a delete is replayed. -/
theorem Cell.visible_replayed_iff {id : NodeId} {ops : List WalOp} {c : Cell}
    (h : ∀ eff, lastVecEffect id ops = some eff → c.visible = eff) :
    (c.applyAll id ops).visible = c.visible ↔ (c.visible ≠ none → .deleteVector id ∉ ops) := by
  cases c with
  | live v =>
    rw [applyAll_live]
    by_cases hmem : .deleteVector id ∈ ops <;> simp [hmem, Cell.visible]
  | absent =>
    refine iff_of_true ?_ fun hne => absurd rfl hne
    cases hl : lastVecEffect id ops with
    | none => rw [applyAll_of_no_effect hl]
    | some eff =>
      obtain rfl : none = eff := h eff hl
      exact visible_of_last_delete hl _
  | dead v => simp [applyAll_dead, Cell.visible]
  | hidden v => simp [applyAll_hidden, Cell.visible]

namespace Engine

variable {s : VectorSchema} {e e' : Engine} (A : F32Arith) (I : Ipc)

/-! ### One recovery -/

/-- `recover` succeeds and changes nothing a reader sees. -/
structure RecoversInPlace (e : Engine) : Prop where
  ok : (e.recover A I).1 = .ok ()
  get : ∀ key, (e.recover A I).2.getKvZeroCopy key = e.getKvZeroCopy key
  used : (e.recover A I).2.kv.usedBytes = e.kv.usedBytes
  vectors : e.SameVectors (e.recover A I).2

/-- No live id has a delete in the log. -/
def DeletesDone (e : Engine) : Prop :=
  match e.vec with
  | .closed _ => True
  | .opened x => ∀ id ∈ x.listVectorIds, .deleteVector id ∉ e.wal.dir.pendingOps

instance : (e : Engine) → Decidable e.DeletesDone
  | ⟨_, .closed _, _, _, _⟩ => .isTrue trivial
  | ⟨_, .opened _, _, _, _⟩ => List.decidableBAll _ _

/-- The quota has room for the puts of the log once more, none of them overwrites a
    longer value, and no delete of it meets a live id. -/
def ReplaysInPlace (e : Engine) : Prop :=
  QuotaFits e.kv.quotaLimit e.kv.env.volatile.used e.kv.lenOf e.wal.dir.pendingOps ∧
    NeverShrinks e.kv.lenOf e.wal.dir.pendingOps ∧ e.DeletesDone

instance (e : Engine) : Decidable e.ReplaysInPlace :=
  inferInstanceAs (Decidable (_ ∧ _ ∧ _))

/-- No vector that shows has its delete in the log. -/
theorem deletesDone_iff (h : e.Inv s) : e.DeletesDone ↔
    ∀ id, (e.cell id).visible ≠ none → .deleteVector id ∉ e.wal.dir.pendingOps := by
  have hv := h.vec
  unfold DeletesDone cell
  cases hvec : e.vec with
  | closed d => simp [Cell.visible]
  | opened x =>
    rw [hvec] at hv
    exact forall_congr' fun id => by rw [VectorIndex.mem_listVectorIds hv.1]

/-- The state contains everything its log says, and accepts it. -/
structure Contains (e : Engine) : Prop where
  good : ∀ key, e.kv.Good key
  agrees : e.kv.Agrees e.wal.dir.pendingOps
  vectors : ∀ id eff, lastVecEffect id e.wal.dir.pendingOps = some eff →
    (e.cell id).visible = eff
  replays : ∀ op ∈ e.wal.dir.pendingOps, op.Replayable e.schema
  slack : Ledger.Slack 0 e.kv.env.volatile.used e.kv.lenOf
  col : ∃ c, e.col = .closed c

/-- The counter after a replay. -/
theorem replayAll_accounts (h : e.Inv s) {p : List WalEntry}
    (hr : e.replayAll A I p = (.ok (), e')) :
    e'.kv.env.volatile.used =
      usedAfter e.kv.env.volatile.used e.kv.lenOf (p.map WalEntry.op) := by
  induction p generalizing e with
  | nil =>
    obtain ⟨-, rfl⟩ := Prod.mk.inj hr
    rfl
  | cons entry p ih =>
    unfold replayAll at hr
    cases hop : e.replayOp A I entry.op with
    | mk r e₁ =>
      rw [hop] at hr
      cases r with
      | error err => cases hr
      | ok _ =>
        obtain ⟨hused, hlen⟩ := replayOp_accounts A I h hop
        rw [ih (replayOp_inv A I h hop).1 hr, hused, hlen]
        exact (usedAfter_append _ _ [entry.op] (p.map WalEntry.op)).symm

/-- Contents and counter apart, each with its own condition. -/
theorem recoversInPlace_iff (h : e.Inv s) (hc : e.Contains) :
    e.RecoversInPlace A I ↔ e.ReplaysInPlace := by
  obtain ⟨c, hcol⟩ := hc.col
  -- the replay succeeds exactly when it fits the quota, for every logged operation is replayable
  have hok := recoverInner_ok_iff A I h hcol
  have hfits : (e.recover A I).1 = .ok () ↔
      QuotaFits e.kv.quotaLimit e.kv.env.volatile.used e.kv.lenOf e.wal.dir.pendingOps :=
    hok.trans (and_iff_right hc.replays)
  -- once it succeeds, the readers agree key by key and id by id
  have hparts : (e.recover A I).1 = .ok () →
      (∀ key, (e.recover A I).2.getKvZeroCopy key = e.getKvZeroCopy key) ∧
      ((e.recover A I).2.kv.usedBytes = e.kv.usedBytes ↔
        NeverShrinks e.kv.lenOf e.wal.dir.pendingOps) ∧
      (e.SameVectors (e.recover A I).2 ↔ e.DeletesDone) := by
    intro hres
    have hrec : e.recoverInner A I = (.ok (), (e.recover A I).2) := Prod.ext hres rfl
    obtain ⟨hinv, -, hschema⟩ := recoverInner_inv A I h hrec
    obtain ⟨hrep, -, -, -, hall⟩ := recoverInner_ok A I h hrec
    refine ⟨fun key => ?_, ?_, ?_⟩
    · by_cases hne : key = []
      · subst hne
        rfl
      · -- a key of the log ends at its last logged effect, which the store shows already
        have hview : (e.recover A I).2.kv.Good key ∧
            (e.recover A I).2.kv.view key = e.kv.view key := by
          cases heff : lastEffect key e.wal.dir.pendingOps with
          | none => exact hrep.untouched key heff (hc.good key)
          | some eff =>
            obtain ⟨hg, hv⟩ := hrep.touched key eff heff
            exact ⟨hg, hv.trans (hc.agrees key eff heff).symm⟩
        rw [getKvZeroCopy_eq hview.1 hne, getKvZeroCopy_eq (hc.good key) hne, hview.2]
    · -- the counter comes back exactly when no logged write lost a difference
      rw [← usedAfter_eq_iff hc.slack hc.agrees.lengthsAfter]
      have hused := replayAll_accounts A I h hall
      exact Eq.congr_left hused
    · rw [sameVectors_iff h hinv hschema, deletesDone_iff h]
      refine forall_congr' fun id => ?_
      rw [hrep.cell id]
      exact Cell.visible_replayed_iff (hc.vectors id)
  constructor
  · intro hr
    obtain ⟨-, hused, hvec⟩ := hparts hr.ok
    exact ⟨hfits.mp hr.ok, hused.mp hr.used, hvec.mp hr.vectors⟩
  · rintro ⟨hq, hn, hd⟩
    obtain ⟨hget, hused, hvec⟩ := hparts (hfits.mpr hq)
    exact ⟨hfits.mpr hq, hget, hused.mpr hn, hvec.mpr hd⟩

end Engine

/-! ### Every session -/

variable (A : F32Arith) (I : Ipc)

/-- The calls of one session: writes and checkpoints that are acknowledged, and
    compactions with whatever outcome. -/
def Engine.acks (e : Engine) : Call → Bool
  | .compact _ _ => true
  | .putColumnar _ _ _ => false
  | .recover => false
  | .close => false
  | c => (e.call A I c).1.isOk

/-- An event of the session. -/
def AckedStep (σ : Session) (ev : Event) : Prop :=
  match σ.host, ev with
  | .up e, .call c => e.acks A I c = true
  | _, _ => False

instance : (σ : Session) → (ev : Event) → Decidable (AckedStep A I σ ev)
  | ⟨.up e, _⟩, .call c => inferInstanceAs (Decidable (e.acks A I c = true))
  | ⟨.up _, _⟩, .restart .. => .isFalse id
  | ⟨.down _, _⟩, .call _ => .isFalse id
  | ⟨.down _, _⟩, .restart .. => .isFalse id

variable {s : VectorSchema} {σ : Session} {e : Engine}

/-- What holds at every point of the session. -/
private structure InSession (s : VectorSchema) (σ : Session) (e : Engine) : Prop where
  up : σ.host = .up e
  inv : e.Inv s
  contains : e.Contains
  shown : ∀ id v, e.cell id ≠ .hidden v
  marker : e.wal.dir.appliedSeq < e.wal.nextSeq

/-- Operations that the cells show are shown behind any log. -/
private theorem vectors_append {cell cell' : NodeId → Cell} {ops new : List WalOp}
    (h : ∀ id eff, lastVecEffect id ops = some eff → (cell id).visible = eff)
    (hnew : ∀ op ∈ new, ∀ id eff, vecEffect id op = some eff → (cell' id).visible = eff)
    (hold : ∀ id, (∀ op ∈ new, vecEffect id op = none) → (cell' id).visible = (cell id).visible)
    (id : NodeId) (eff : Option (List F32)) (heff : lastVecEffect id (ops ++ new) = some eff) :
    (cell' id).visible = eff := by
  rw [lastVecEffect_append] at heff
  cases hl : lastVecEffect id new with
  | some w =>
    rw [hl, Option.some_or] at heff
    obtain ⟨op, hop, hw⟩ := List.exists_of_findSome?_eq_some hl
    exact hnew op (List.mem_reverse.mp hop) id eff (hw.trans heff)
  | none =>
    rw [hl, Option.none_or] at heff
    rw [hold id fun op hop => ?_]
    · exact h id eff heff
    · exact List.findSome?_eq_none_iff.mp hl op (List.mem_reverse.mpr hop)

/-- A write of the session. -/
private theorem InSession.write (h : InSession s σ e) (locked : Bool) (w : Write)
    (hok : (e.call A I (w.call locked)).1 = .ok ()) :
    ∃ e', InSession s (σ.step A I (.call (w.call locked))) e' := by
  obtain ⟨seq, wal, e', hw, happ, hst⟩ := Session.step_write A I h.up hok
  have hlog := Engine.inv_logged h.inv hw
  obtain ⟨hinv, hframe⟩ := Engine.apply_inv A hlog happ
  obtain ⟨heff, hcell, hrep⟩ := Engine.apply_ok A hlog happ
  have hwal : e'.wal = wal := hframe.wal
  have hpend : wal.dir.pendingOps = e.wal.dir.pendingOps ++ [w.op] := by
    rw [WalLog.pending_append hw, if_pos h.marker]
  have hcell' : ∀ id, e'.cell id = (e.cell id).apply id w.op := hcell
  have hc := h.contains
  refine ⟨e', by rw [hst], hinv, ⟨?_, ?_, ?_, ?_, ?_, ?_⟩, ?_, ?_⟩
  · -- a key holds what the write made of it, or what it held
    intro key
    cases hk : kvEffect key w.op with
    | none => exact (heff.untouched key hk (hc.good key)).1
    | some eff => exact (heff.touched key eff hk).1
  · rw [hwal]
    exact agrees_append h.inv.wal hw heff hc.good hc.agrees
  · -- the logged entry is the last one for its id, and the cell follows it
    rw [hwal, hpend]
    refine vectors_append hc.vectors ?_ ?_
    · -- an acknowledged call can be replayed
      intro op hop id eff hv
      obtain rfl := List.mem_singleton.mp hop
      cases w with
      | putKv key value => cases hv
      | deleteKv key => cases hv
      | insertVector j v =>
        simp only [Write.op, vecEffect] at hv
        split at hv
        · rename_i hj
          subst hj
          obtain rfl := Option.some.inj hv
          rw [(Engine.absent_of_insert A hlog happ).2]
          rfl
        · cases hv
      | deleteVector j =>
        simp only [Write.op, vecEffect] at hv
        split at hv
        · rename_i hj
          obtain rfl := Option.some.inj hv
          rw [hcell' id, Write.op, Cell.apply, if_pos hj]
          cases e.cell id <;> rfl
        · cases hv
    · intro id hno
      rw [hcell' id, Cell.apply_of_no_effect (hno w.op (List.mem_singleton_self _))]
  · -- what is pending can be replayed, this call included
    intro op hop
    rw [hframe.schema]
    rw [hwal, hpend, List.mem_append, List.mem_singleton] at hop
    obtain hop | rfl := hop
    · exact hc.replays op hop
    · exact hrep
  · exact Engine.slack_apply A hlog happ hc.slack
  · obtain ⟨c, hcol⟩ := hc.col
    exact ⟨c, (Engine.col_apply A happ).trans hcol⟩
  · intro id v
    rw [hcell' id]
    exact Cell.apply_ne_hidden (h.shown id) w.op v
  · rw [hwal, WalLog.append_ok hw]
    exact Nat.lt_succ_of_lt h.marker

/-- A batch. -/
private theorem InSession.batch (h : InSession s σ e) {items : List (NodeId × List F32)}
    (hok : (e.insertVectorBatch A items).1 = .ok ()) :
    ∃ e', InSession s (σ.step A I (.call (.insertVectorBatch items))) e' := by
  obtain ⟨seq, wal, x, hw, hvec, hbatch, hst⟩ := Session.step_batch A I h.up hok
  have hinv : (σ.step A I (.call (.insertVectorBatch items))).host.Inv s :=
    Session.inv_step A I (by rw [h.up]; exact h.inv) trivial
  rw [hst] at hinv
  have hv := h.inv.vec
  rw [hvec] at hv
  obtain ⟨hdims, hfits, hlive⟩ := VectorIndex.insertBatch_ok A hv.1 hbatch
  obtain ⟨-, hschema, hother⟩ := VectorIndex.insertBatch_spec A hv.1 items
  have hpend : wal.dir.pendingOps =
      e.wal.dir.pendingOps ++ items.map fun i => .insertVector i.1 i.2 :=
    WalLog.pending_appendBatch hw h.marker
  have hcell := Engine.cell_opened hvec
  have hc := h.contains
  refine ⟨_, hst, hinv, ⟨hc.good, ?_, ?_, ?_, hc.slack, hc.col⟩, ?_, ?_⟩
  · -- no key is concerned
    intro key eff heff
    rw [hpend, lastEffect_inserts] at heff
    exact hc.agrees key eff heff
  · -- the ids of the batch are live now, the others show what they did
    rw [hpend]
    refine vectors_append hc.vectors ?_ ?_
    · intro op hop id eff heff
      obtain ⟨i, hi, rfl⟩ := List.mem_map.mp hop
      simp only [vecEffect] at heff
      split at heff
      · rename_i hid
        subst hid
        rw [← Option.some.inj heff]
        exact congrArg Cell.visible (hlive i hi)
      · cases heff
    · intro id hno
      have hid : id ∉ items.map Prod.fst := by
        intro hmem
        obtain ⟨i, hi, rfl⟩ := List.mem_map.mp hmem
        have := hno _ (List.mem_map_of_mem hi)
        simp [vecEffect] at this
      rw [hcell id]
      exact congrArg Cell.visible (hother id hid)
  · -- the schema does not change, so the items still fit it
    intro op hop
    have hopen : Engine.schema { e with wal, vec := .opened (x.insertBatch A items).2 } =
        e.schema := by simp only [Engine.schema, hvec, hschema]
    rw [hopen]
    rw [hpend, List.mem_append] at hop
    obtain hop | hop := hop
    · exact hc.replays op hop
    · obtain ⟨i, hi, rfl⟩ := List.mem_map.mp hop
      refine ⟨x.schema, Engine.schema_opened hvec, hdims i hi, ?_⟩
      rw [← hv.1.segSize]
      exact hfits i hi
  · intro id v
    by_cases hmem : id ∈ items.map Prod.fst
    · obtain ⟨i, hi, rfl⟩ := List.mem_map.mp hmem
      show (x.insertBatch A items).2.cell i.1 ≠ _
      rw [hlive i hi]
      intro hhid
      cases hhid
    · show (x.insertBatch A items).2.cell id ≠ _
      rw [hother id hmem, ← hcell id]
      exact h.shown id v
  · rw [WalLog.appendBatch_ok hw]
    exact Nat.lt_add_right _ h.marker

/-- A checkpoint. -/
private theorem InSession.checkpoint (h : InSession s σ e) :
    ∃ e', InSession s (σ.step A I (.call .checkpoint)) e' := by
  have hst : (σ.step A I (.call .checkpoint)).host = .up e.checkpoint := by
    simp only [Session.step, h.up, Engine.call]
  have hpend := LogDir.pendingOps_nil (Engine.pending_checkpoint h.inv)
  have hc := h.contains
  refine ⟨e.checkpoint, hst, Engine.inv_checkpoint h.inv, ⟨?_, ?_, ?_, ?_, ?_, ?_⟩, ?_, ?_⟩
  · rw [Engine.kv_checkpoint]
    exact fun key => KvStore.good_flush.1.mpr (hc.good key)
  · -- the log is empty now, so nothing in it has to agree
    rw [hpend]
    intro key eff heff
    cases heff
  · rw [hpend]
    intro id eff heff
    cases heff
  · rw [hpend]
    intro op hop
    cases hop
  · rw [Engine.kv_checkpoint]
    exact hc.slack
  · obtain ⟨c, hcol⟩ := hc.col
    exact ⟨c, Engine.col_checkpoint hcol⟩
  · intro id v
    rw [Engine.cell_checkpoint]
    exact h.shown id v
  · -- the marker is behind every entry
    rw [Engine.wal_checkpoint h.inv]
    exact Nat.sub_lt h.inv.wal.pos Nat.one_pos

/-- A compaction shows what was visible before, and it does not panic. -/
private theorem compact_shown {n : Nat} {x : VectorIndex} (h : x.InvAt n)
    (hno : ∀ id v, x.cell id ≠ .hidden v) (order : MapOrder) (avail : Option Nat) :
    (∀ id, ((x.compact A order avail).2.cell id).visible = (x.cell id).visible ∧
      ∀ v, (x.compact A order avail).2.cell id ≠ .hidden v) ∧
    ∀ msg, (x.compact A order avail).1 ≠ .error (.panicked msg) := by
  obtain ⟨locs, pool, graph, hr⟩ := VectorIndex.rewritten_ok A h order
  rw [VectorIndex.compact_eq A hr avail]
  cases hdisk : VectorIndex.ensureDiskAvailable avail x.diskBytes with
  | error err =>
    -- refused for lack of disk: the index is untouched
    refine ⟨fun id => ⟨rfl, hno id⟩, ?_⟩
    rintro msg ⟨⟩
    unfold VectorIndex.ensureDiskAvailable at hdisk
    split at hdisk
    · exact nomatch hdisk
    · split at hdisk <;> exact nomatch hdisk
  | ok u =>
    refine ⟨fun id => ?_, fun msg => nofun⟩
    show ((x.switched locs pool graph).cell id).visible = _ ∧ _
    -- a live cell is rewritten and stays live, any other is gone or as it was
    rw [VectorIndex.cell_switched A hr]
    cases hcell : x.cell id with
    | hidden v => exact absurd hcell (hno id v)
    | absent => exact ⟨rfl, fun v => nofun⟩
    | live v => exact ⟨rfl, fun v => nofun⟩
    | dead v => exact ⟨rfl, fun v => nofun⟩

/-- A compaction. -/
private theorem InSession.compact (h : InSession s σ e) (order : MapOrder) (avail : Option Nat) :
    ∃ e', InSession s (σ.step A I (.call (.compact order avail))) e' := by
  cases hvec : e.vec with
  | closed d =>
    -- no index, and the call is refused
    refine ⟨e, ?_, h.inv, h.contains, h.shown, h.marker⟩
    simp only [Session.step, h.up, Engine.call, Engine.compact, Engine.ensureVec, hvec]
    rfl
  | opened x =>
    have hv := h.inv.vec
    rw [hvec] at hv
    have hcell := Engine.cell_opened hvec
    obtain ⟨hshown, hpanic⟩ := compact_shown A hv.1 (fun id => hcell id ▸ h.shown id) order avail
    have hcall : e.call A I (.compact order avail) =
        ((x.compact A order avail).1.map fun _ => (),
          { e with vec := .opened (x.compact A order avail).2 }) := by
      simp only [Engine.call, Engine.compact, Engine.ensureVec, hvec]
      rfl
    -- compact is not logged: log and marker stay as they are
    obtain ⟨hinv, -, hschema⟩ := Engine.call_inv A I h.inv hcall
    have hc := h.contains
    refine ⟨{ e with vec := .opened (x.compact A order avail).2 }, ?_, hinv,
      ⟨hc.good, hc.agrees, ?_, ?_, hc.slack, hc.col⟩, fun id => (hshown id).2, h.marker⟩
    · -- the call changed the engine as `compact` says, and did not panic
      obtain ⟨e', hcall', hst⟩ | ⟨err, e', hcall', hst | ⟨⟨msg, rfl⟩, -⟩⟩ :=
        Session.step_call A I h.up (.compact order avail)
      · obtain ⟨-, rfl⟩ := Prod.mk.inj (hcall.symm.trans hcall')
        rw [hst]
      · obtain ⟨-, rfl⟩ := Prod.mk.inj (hcall.symm.trans hcall')
        rw [hst]
      · have hres := (Prod.mk.inj (hcall.symm.trans hcall')).1
        cases hx : (x.compact A order avail).1 with
        | ok u =>
          rw [hx] at hres
          cases hres
        | error err =>
          rw [hx] at hres
          cases hres
          exact absurd hx (hpanic msg)
    · -- what is visible stays, so the last effects still agree
      intro id eff heff
      exact (hshown id).1.trans ((hcell id).symm ▸ hc.vectors id eff heff)
    · intro op hop
      rw [hschema]
      exact hc.replays op hop

/-- The step lemma. -/
private theorem InSession.step (h : InSession s σ e) {ev : Event} (hev : AckedStep A I σ ev) :
    ∃ e', InSession s (σ.step A I ev) e' := by
  -- the condition says that the call was acknowledged
  unfold AckedStep at hev
  rw [h.up] at hev
  have hok : ∀ {r : Except StoreError Unit}, r.isOk = true → r = .ok () := by
    intro r hr
    cases r with
    | ok u => rfl
    | error err => exact nomatch hr
  cases ev with
  | restart schema quota order => exact hev.elim
  | call c =>
    have hack : e.acks A I c = true := hev
    cases c with
    | putKv key value locked => exact h.write A I locked (.putKv key value) (hok hack)
    | deleteKv key locked => exact h.write A I locked (.deleteKv key) (hok hack)
    | insertVector id vector =>
      exact h.write A I true (.insertVector id vector) (hok hack)
    | deleteVector id =>
      exact h.write A I true (.deleteVector id) (hok hack)
    | insertVectorBatch items => exact h.batch A I (hok hack)
    | compact order avail => exact h.compact A I order avail
    | checkpoint => exact h.checkpoint A I
    -- no other call is among the steps
    | _ => exact nomatch hack

/-- The first open. -/
private theorem InSession.start (schema : Option VectorSchema) (quota : Nat) (order : MapOrder) :
    ∃ s e, InSession s (Session.run A I [.restart schema quota order]) e := by
  obtain ⟨s, hs⟩ := exists_schema schema
  obtain ⟨e, heq, hb, -⟩ := Session.run_first A I hs quota order
  have hnil := hb.pendingOps
  rw [heq]
  refine ⟨s, e, rfl, hb.inv, ⟨hb.good, ?_, ?_, ?_, hb.slack, ⟨_, hb.col⟩⟩, ?_, ?_⟩
  · rw [hnil]
    exact fun key eff hk => nomatch hk
  · rw [hnil]
    exact fun id eff hk => nomatch hk
  · rw [hnil]
    exact fun op hop => nomatch hop
  · intro id v
    rw [hb.cell id]
    exact nofun
  · rw [hb.wal]
    exact Nat.one_pos

/-- In every state a session reaches, `recover` changes nothing a reader sees exactly if
    the log replays in place. -/
theorem recoversInPlace_iff_of_session (schema : Option VectorSchema) (quota : Nat)
    (order : MapOrder) (es : List Event)
    (hrun : Run.Guarded (Session.step A I) (AckedStep A I)
      (Session.run A I [.restart schema quota order]) es) {e : Engine}
    (hup : (Session.run A I (.restart schema quota order :: es)).host = .up e) :
    e.RecoversInPlace A I ↔ e.ReplaysInPlace := by
  obtain ⟨s, hstart⟩ := InSession.start A I schema quota order
  obtain ⟨e', h⟩ := hrun.invariant (fun σ => ∃ e, InSession s σ e)
    (fun σ ev ⟨_, h⟩ hev => h.step A I hev) hstart
  obtain rfl : e' = e := Host.up.inj (h.up.symm.trans hup)
  exact Engine.recoversInPlace_iff A I h.inv h.contains

/-- Replay is silent over values of one length, a key that is gone and a vector that is. -/
theorem recoversInPlace_of_kept_lengths : ∃ e,
    (Session.run zeroArith noIpc [.restart (some flatSchema) 0 .id,
      .call (.putKv [97] [1, 2] true), .call (.putKv [97] [3, 4] true),
      .call (.insertVector 1 [0]), .call (.insertVectorBatch [(2, [0]), (3, [0])]),
      .call (.deleteVector 3), .call (.compact .id none)]).host = .up e ∧
    e.RecoversInPlace zeroArith noIpc := by
  refine ⟨_, rfl, (recoversInPlace_iff_of_session zeroArith noIpc (some flatSchema) 0 .id
    [.call (.putKv [97] [1, 2] true), .call (.putKv [97] [3, 4] true),
      .call (.insertVector 1 [0]), .call (.insertVectorBatch [(2, [0]), (3, [0])]),
      .call (.deleteVector 3), .call (.compact .id none)] (by decide +kernel) rfl).mpr ?_⟩
  decide +kernel

/-- A key is put over a longer value, a vector is inserted again after a compaction: the
    counter goes from 5 to 7 bytes and the vector is gone after `recover`. -/
theorem recover_replays_shrink_and_delete : ∃ e,
    (Session.run zeroArith noIpc [.restart (some flatSchema) 0 .id,
      .call (.putKv [97] [1, 2, 3, 4, 5] true), .call (.putKv [97] [1, 2, 3] true),
      .call (.insertVector 1 [0]), .call (.deleteVector 1), .call (.compact .id none),
      .call (.insertVector 1 [1])]).host = .up e ∧
    Run.Guarded (Session.step zeroArith noIpc) (AckedStep zeroArith noIpc)
      (Session.run zeroArith noIpc [.restart (some flatSchema) 0 .id])
      [.call (.putKv [97] [1, 2, 3, 4, 5] true), .call (.putKv [97] [1, 2, 3] true),
        .call (.insertVector 1 [0]), .call (.deleteVector 1), .call (.compact .id none),
        .call (.insertVector 1 [1])] ∧
    e.kv.usedBytes = 5 ∧ e.getVector 1 = .ok (some [1]) ∧
    (e.recover zeroArith noIpc).1 = .ok () ∧ (e.recover zeroArith noIpc).2.kv.usedBytes = 7 ∧
    (e.recover zeroArith noIpc).2.getVector 1 = .ok none := by
  refine ⟨_, rfl, by decide +kernel, ?_⟩
  decide +kernel

end FusionStore
