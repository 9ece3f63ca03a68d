import FusionStore.Spec.ConcurrentCorrect
import FusionStore.Spec.VectorRestart

/-!
# Checkpoints beside concurrent writes

A write counts in `applied_seq` from the moment it is in the log, while its effect reaches
the files later.  For the KV store that matters through the recorded cursor only, and for
inserts not at all: the tables survive a kill.  A delete has no other record than its log
entry, since `reopen` makes every stored vector live, so a checkpoint must not take it
from the log.
-/

namespace FusionStore

namespace Shared

/-- `v` is what a write left that is not older than `o`: it was acknowledged after `o` was
    logged, or it is not acknowledged yet. -/
def Current {α : Type} (c : Shared) (eff : WalOp → Option (Option α)) (o : Done)
    (v : Option α) : Prop :=
  (∃ o' ∈ c.done, eff o'.op = some v ∧ o.seq < o'.ackedAt) ∨
    ∃ p ∈ c.inflight, eff p.write.op = some v

/-- No acknowledged write is lost in `e`: whatever it wrote reads as the effect of a write
    that is not older. -/
structure Survives (c : Shared) (e : Engine) : Prop where
  value : ∀ o ∈ c.done, ∀ key, kvEffect key o.op ≠ none →
    ∃ v, e.getKvZeroCopy key = .ok v ∧ c.Current (kvEffect key) o v
  vector : ∀ o ∈ c.done, ∀ id, vecEffect id o.op ≠ none →
    ∃ v, e.getVector id = .ok v ∧ (e.Lists id ↔ v ≠ none) ∧ c.Current (vecEffect id) o v

/-- The steps that lose nothing.
    * Writes are well formed; an id that is not stored is inserted only when no
      acknowledged delete of it is in the log, since recovery would run that delete after
      it has found the vector in the table.
    * Writes on keys get their lock and fit the quota.
    * A checkpoint takes no delete of a stored vector from the log. -/
def CalmStep (c : Shared) : Action → Prop
  | .append w => w.op.Replayable c.engine.schema ∧
    match w with
    | .insertVector id _ => id ∈ c.engine.dir.vec.locatorDb.keys ∨
      ∀ o ∈ c.done, o.op = .deleteVector id →
        (⟨o.seq, .deleteVector id⟩ : WalEntry) ∉ c.engine.wal.dir.entries
    | _ => True
  | .apply i locked =>
    match c.inflight[i]? with
    | some ⟨_, .putKv key value⟩ => locked = true ∧
      QuotaFits c.engine.kv.quotaLimit c.engine.kv.env.volatile.used c.engine.kv.lenOf
        [.putKv key value]
    | some ⟨_, .deleteKv _⟩ => locked = true
    | _ => True
  | .begin => True
  | .advance i =>
    match c.checkpoints[i]? with
    | some ⟨n, .truncate⟩ => ∀ x ∈ c.engine.wal.dir.entries, x.seq ≤ n →
      ∀ id ∈ c.engine.dir.vec.locatorDb.keys, x.op ≠ .deleteVector id
    | _ => True

instance (c : Shared) : (a : Action) → Decidable (c.CalmStep a)
  | .append w => by
    refine @instDecidableAnd _ _ inferInstance ?_
    cases w <;> dsimp only <;> infer_instance
  | .apply i locked => by
    dsimp only [CalmStep]
    generalize c.inflight[i]? = o
    rcases o with _ | ⟨seq, w⟩
    · exact .isTrue trivial
    · cases w <;> dsimp only <;> infer_instance
  | .begin => .isTrue trivial
  | .advance i => by
    dsimp only [CalmStep]
    generalize c.checkpoints[i]? = o
    rcases o with _ | ⟨n, phase⟩
    · exact .isTrue trivial
    cases phase
    case truncate =>
      exact @List.decidableBAll _ _ (fun x => @instDecidableForall _ _ inferInstance
        (@List.decidableBAll _ _ (fun id => inferInstance) _)) _
    all_goals exact .isTrue trivial

end Shared

/-! ### Cells -/

namespace Cell

variable {id : NodeId} {c : Cell} {v : List F32}

/-- Only an id without a locator stores nothing: a soft-deleted one still has its vector. -/
theorem stored_eq_none : c.stored = none ↔ c = .absent := by
  cases c <;> simp [stored]

/-- What is stored stays, whatever is replayed over it: a delete only marks, a repeated insert
    is refused. -/
theorem stored_apply (h : c.stored = some v) (op : WalOp) : (c.apply id op).stored = some v := by
  cases op with
  | insertVector j w =>
    simp only [apply]
    by_cases hj : j = id
    · cases c <;> simp_all [insert, stored]
    · rwa [if_neg hj]
  | deleteVector j =>
    simp only [apply]
    by_cases hj : j = id
    · cases c <;> simp_all [delete, stored]
    · rwa [if_neg hj]
  | _ => exact h

/-- Only its own insert stores an absent id. -/
theorem insert_of_absent {op : WalOp} (h : Cell.absent.apply id op ≠ .absent) :
    ∃ v, op = .insertVector id v := by
  cases op with
  | insertVector j w =>
    simp only [apply] at h
    by_cases hj : j = id
    · exact ⟨w, by rw [hj]⟩
    · exact absurd (if_neg hj) h
  | deleteVector j =>
    simp only [apply, delete, ite_self, ne_eq, not_true_eq_false] at h
  | _ => exact absurd rfl h

/-- Only an insert makes a vector visible. -/
theorem mem_of_visible_applyAll {ops : List WalOp}
    (h : (applyAll id c ops).visible = some v) : c.visible = some v ∨ .insertVector id v ∈ ops := by
  induction ops generalizing c with
  | nil => exact Or.inl h
  | cons op ops ih =>
    -- the rest of the log gives the vector, or the first entry has set it
    rcases ih h with hv | hmem
    · cases op with
      | insertVector j w =>
        simp only [apply] at hv
        by_cases hj : j = id
        · subst hj
          cases c <;> simp_all [insert, visible]
        · exact Or.inl (by rwa [if_neg hj] at hv)
      | deleteVector j =>
        simp only [apply] at hv
        by_cases hj : j = id
        · cases c <;> simp_all [delete, visible]
        · exact Or.inl (by rwa [if_neg hj] at hv)
      | _ => exact Or.inl hv
    · exact Or.inr (List.mem_cons_of_mem _ hmem)

end Cell

namespace Engine

variable {s : VectorSchema} {e : Engine}

/-- The locator table holds exactly the ids that are not absent. -/
theorem mem_keys_iff (h : e.Inv s) (id : NodeId) :
    id ∈ e.dir.vec.locatorDb.keys ↔ e.cell id ≠ .absent := by
  rw [← AList.mem_keys, ← AList.lookup_isSome, ne_eq, ← Cell.stored_eq_none,
    ← Engine.stored_dir h id, ← ne_eq, ← Option.isSome_iff_ne_none, VecDir.stored]
  simp only [Option.isSome_map]

end Engine

/-- The log entry of an insert comes from an insert. -/
theorem Write.op_eq_insert {w : Write} {id : NodeId} {v : List F32}
    (h : w.op = .insertVector id v) : w = .insertVector id v := by
  cases w with
  | insertVector j u =>
    injection h with hj hu
    rw [hj, hu]
  | _ => exact nomatch h

/-- What changes a vector is an insert or a delete of it. -/
theorem vecEffect_cases {id : NodeId} {op : WalOp} (h : vecEffect id op ≠ none) :
    (∃ v, op = .insertVector id v) ∨ op = .deleteVector id := by
  cases op with
  | insertVector j v =>
    by_cases hj : j = id
    · exact Or.inl ⟨v, by rw [hj]⟩
    · exact absurd (if_neg hj) h
  | deleteVector j =>
    by_cases hj : j = id
    · exact Or.inr (by rw [hj])
    · exact absurd (if_neg hj) h
  | _ => exact absurd rfl h

/-- Vector entries can be replayed only into an engine with a schema. -/
theorem schema_of_replayable {schema : Option VectorSchema} {op : WalOp} {id : NodeId}
    (h : op.Replayable schema) (hk : vecEffect id op ≠ none) : ∃ t, schema = some t := by
  rcases vecEffect_cases hk with ⟨v, rfl⟩ | rfl
  · obtain ⟨t, ht, -⟩ := h
    exact ⟨t, ht⟩
  · exact Option.isSome_iff_exists.mp h

/-! ### What calm steps keep -/

/-- The record of an acknowledged or in-flight write is never contradicted by the files. -/
private structure Calm (s : VectorSchema) (c : Shared) : Prop where
  inv : c.engine.Inv s
  log : c.LogInv
  replays : ∀ x ∈ c.logged, x.op.Replayable c.engine.schema
  origin : ∀ x ∈ c.engine.wal.dir.entries, x ∈ c.logged ∨
    ∃ id v, x.op = .insertVector id v ∧ c.engine.cell id ≠ .absent
  value : ∀ o ∈ c.done, ∀ key, kvEffect key o.op ≠ none → c.engine.kv.Good key ∧
    ∃ o' ∈ c.done, kvEffect key o'.op = some (c.engine.kv.view key) ∧ o.seq < o'.ackedAt
  stored : ∀ o ∈ c.done, ∀ id v, o.op = .insertVector id v → (c.engine.cell id).stored = some v
  deletes : ∀ x ∈ c.logged, ∀ id, x.op = .deleteVector id → c.engine.cell id = .absent ∨
    (∃ y ∈ c.engine.wal.dir.entries, y.op = .deleteVector id) ∨
    ∃ o ∈ c.done, ∃ v, o.op = .insertVector id v ∧ x.seq < o.ackedAt
  inserts : ∀ o ∈ c.done, ∀ id v, o.op = .insertVector id v → ∀ o' ∈ c.done,
    o'.op = .deleteVector id →
    (⟨o'.seq, .deleteVector id⟩ : WalEntry) ∈ c.engine.wal.dir.entries → o.seq < o'.ackedAt
  ready : ∀ p ∈ c.inflight, ∀ id v, p.write = .insertVector id v →
    c.engine.cell id ≠ .absent ∨ ∀ o' ∈ c.done, o'.op = .deleteVector id →
      (⟨o'.seq, .deleteVector id⟩ : WalEntry) ∈ c.engine.wal.dir.entries → p.seq < o'.ackedAt

variable {s : VectorSchema} {c c' : Shared} (A : F32Arith)

/-- A step that changes no record, no value and no cell, and takes from the log no delete
    of a stored vector. -/
private theorem Calm.frame (h : Calm s c) (hinv : c'.engine.Inv s) (hlog : c'.LogInv)
    (hschema : c'.engine.schema = c.engine.schema) (hflight : c'.inflight = c.inflight)
    (hdone : c'.done = c.done)
    (hkv : ∀ key, c.engine.kv.Good key →
      c'.engine.kv.Good key ∧ c'.engine.kv.view key = c.engine.kv.view key)
    (hcell : ∀ id, c'.engine.cell id = c.engine.cell id)
    (hsub : c'.engine.wal.dir.entries ⊆ c.engine.wal.dir.entries)
    (hdel : ∀ y ∈ c.engine.wal.dir.entries, ∀ id, y.op = .deleteVector id →
      c.engine.cell id ≠ .absent → y ∈ c'.engine.wal.dir.entries) : Calm s c' := by
  have hlogged : c'.logged = c.logged := by
    unfold Shared.logged
    rw [hflight, hdone]
  refine ⟨hinv, hlog, ?_, ?_, ?_, ?_, ?_, ?_, ?_⟩
  · rw [hlogged, hschema]
    exact h.replays
  · intro x hx
    rw [hlogged]
    -- the log may have lost entries but has no new one
    refine (h.origin x (hsub hx)).imp_right ?_
    rintro ⟨id, v, hop, hne⟩
    exact ⟨id, v, hop, (hcell id).symm ▸ hne⟩
  · intro o ho key hk
    rw [hdone] at ho ⊢
    obtain ⟨hg, o', ho', heff, hlt⟩ := h.value o ho key hk
    obtain ⟨hg', hv'⟩ := hkv key hg
    -- the store shows what it did
    exact ⟨hg', o', ho', hv'.symm ▸ heff, hlt⟩
  · intro o ho id v hop
    rw [hdone] at ho
    rw [hcell id]
    exact h.stored o ho id v hop
  · intro x hx id hop
    rw [hlogged] at hx
    rw [hcell id, hdone]
    -- a delete of a stored id stays in the log
    by_cases habs : c.engine.cell id = .absent
    · exact Or.inl habs
    refine Or.inr (((h.deletes x hx id hop).resolve_left habs).imp_left ?_)
    rintro ⟨y, hy, hyop⟩
    exact ⟨y, hdel y hy id hyop habs, hyop⟩
  · intro o ho id v hop o' ho' hop' hmem
    rw [hdone] at ho ho'
    exact h.inserts o ho id v hop o' ho' hop' (hsub hmem)
  · intro p hp id v hw
    rw [hflight] at hp
    rw [hcell id, hdone]
    refine (h.ready p hp id v hw).imp_right fun hall o' ho' hop' hmem => ?_
    exact hall o' ho' hop' (hsub hmem)

/-- A write that only gets its log entry. -/
private theorem Calm.append (h : Calm s c) {w : Write} (hw : c.CalmStep (.append w)) :
    Calm s (c.append w) := by
  have hlog := Shared.logInv_append h.log w
  rcases Shared.append_cases c w with heq | ⟨wal, happ, hwal, heq⟩
  · -- refused by the log: nothing changes
    rw [heq]
    exact h
  rw [heq] at hlog ⊢
  have hentries : ∀ x, x ∈ wal.dir.entries ↔
      x ∈ c.engine.wal.dir.entries ∨ x = ⟨c.engine.wal.nextSeq, w.op⟩ := by
    intro x
    rw [hwal, List.mem_append, List.mem_singleton]
  have hlogged : ∀ x, x ∈ ({ c with engine := { c.engine with wal }, inflight := c.inflight ++
      [⟨c.engine.wal.nextSeq, w⟩] } : Shared).logged ↔
      x ∈ c.logged ∨ x = ⟨c.engine.wal.nextSeq, w.op⟩ := by
    intro x
    simp only [Shared.logged, List.map_append, List.map_cons, List.map_nil, List.mem_append,
      List.mem_singleton]
    tauto
  -- the new entry is not that of an acknowledged write
  have hold : ∀ o ∈ c.done, ∀ op, (⟨o.seq, op⟩ : WalEntry) ∈ wal.dir.entries →
      (⟨o.seq, op⟩ : WalEntry) ∈ c.engine.wal.dir.entries := by
    intro o ho op hmem
    rcases (hentries _).mp hmem with hmem | hnew
    · exact hmem
    · have hlt := h.log.bound _ (Shared.mem_logged.mpr (Or.inr ⟨o, ho, rfl⟩))
      have hseq : o.seq = c.engine.wal.nextSeq := congrArg WalEntry.seq hnew
      simp only at hlt
      omega
  refine ⟨Engine.inv_logged h.inv happ, hlog, ?_, ?_, h.value, h.stored, ?_, ?_, ?_⟩
  · -- the step asks that the new operation can be replayed
    intro x hx
    rcases (hlogged x).mp hx with hx | rfl
    · exact h.replays x hx
    · exact hw.1
  · intro x hx
    rcases (hentries x).mp hx with hx | hx
    · -- an old entry keeps its origin, the new one is that of `w`
      exact (h.origin x hx).imp_left fun hx => (hlogged x).mpr (Or.inl hx)
    · exact Or.inl ((hlogged x).mpr (Or.inr hx))
  · -- a delete that is logged now is itself an entry
    intro x hx id hop
    rcases (hlogged x).mp hx with hx | rfl
    · refine (h.deletes x hx id hop).imp_right (Or.imp_left ?_)
      rintro ⟨y, hy, hyop⟩
      exact ⟨y, (hentries y).mpr (Or.inl hy), hyop⟩
    · exact Or.inr (Or.inl ⟨_, (hentries _).mpr (Or.inr rfl), hop⟩)
  · -- an acknowledged insert is as safe as before
    intro o ho id v hop o' ho' hop' hmem
    exact h.inserts o ho id v hop o' ho' hop' (hold o' ho' _ hmem)
  · intro q hq id v hqw
    rcases List.mem_append.mp hq with hq | hq
    · refine (h.ready q hq id v hqw).imp_right fun hall o' ho' hop' hmem => ?_
      exact hall o' ho' hop' (hold o' ho' _ hmem)
    · rw [List.mem_singleton] at hq
      subst hq
      -- for the new write the condition of the step says it
      have hw' := hw.2
      simp only at hqw
      rw [hqw] at hw'
      refine hw'.imp (fun hkey => (Engine.mem_keys_iff h.inv id).mp hkey) ?_
      exact fun hall o' ho' hop' hmem => absurd (hold o' ho' _ hmem) (hall o' ho' hop')

/-- An applied write stays on record: it leaves the calls in flight for the acknowledged
    ones. -/
private theorem mem_logged_applied {i : Nat} {p : InFlight} (hp : c.inflight[i]? = some p)
    (e : Engine) {x : WalEntry} (hx : x ∈ c.logged) :
    x ∈ ({ c with
      engine := e
      inflight := c.inflight.eraseIdx i
      done := c.done ++ [⟨p.seq, p.write.op, c.engine.wal.nextSeq⟩] } : Shared).logged := by
  rw [Shared.mem_logged] at hx ⊢
  rcases hx with ⟨q, hq, rfl⟩ | ⟨o, ho, rfl⟩
  · rcases (Shared.mem_eraseIdx hp).mp hq with rfl | hq
    · exact Or.inr ⟨_, List.mem_append_right _ List.mem_cons_self, rfl⟩
    · exact Or.inl ⟨q, hq, rfl⟩
  · exact Or.inr ⟨o, List.mem_append_left _ ho, rfl⟩

/-- An acknowledged write. -/
private theorem Calm.applied (h : Calm s c) {i : Nat} {locked : Bool} {p : InFlight}
    (hp : c.inflight[i]? = some p) {e : Engine}
    (happ : c.engine.apply A locked p.write = (.ok (), e))
    (hlog : ({ c with
      engine := e
      inflight := c.inflight.eraseIdx i
      done := c.done ++ [⟨p.seq, p.write.op, c.engine.wal.nextSeq⟩] } : Shared).LogInv) :
    Calm s { c with
      engine := e
      inflight := c.inflight.eraseIdx i
      done := c.done ++ [⟨p.seq, p.write.op, c.engine.wal.nextSeq⟩] } := by
  obtain ⟨hinv, hframe⟩ := Engine.apply_inv A h.inv happ
  obtain ⟨heff, hcell, -⟩ := Engine.apply_ok A h.inv happ
  have hback := fun {x : WalEntry} => Shared.logged_apply (x := x) hp e (.ok ())
  have hmem := fun {q : InFlight} => Shared.mem_eraseIdx (q := q) hp
  have hdone : ∀ o, o ∈ c.done ++ [(⟨p.seq, p.write.op, c.engine.wal.nextSeq⟩ : Done)] ↔
      o ∈ c.done ∨ o = ⟨p.seq, p.write.op, c.engine.wal.nextSeq⟩ := fun o => by
    rw [List.mem_append, List.mem_singleton]
  -- every record is older than the new acknowledgement
  have hdoneLt : ∀ o ∈ c.done ++ [(⟨p.seq, p.write.op, c.engine.wal.nextSeq⟩ : Done)],
      o.seq < c.engine.wal.nextSeq := by
    intro o ho
    have hlt := hlog.bound _ (Shared.mem_logged.mpr (Or.inr ⟨o, ho, rfl⟩))
    rwa [show ({ c with engine := e, inflight := _, done := _ } : Shared).engine.wal = c.engine.wal
      from hframe.wal] at hlt
  have hcellNe : ∀ id, c.engine.cell id ≠ .absent → e.cell id ≠ .absent := by
    intro id hne
    rw [hcell id]
    exact Cell.apply_ne_absent hne _
  refine ⟨hinv, hlog, ?_, ?_, ?_, ?_, ?_, ?_, ?_⟩
  · -- the log and the records hold what can be replayed
    intro x hx
    show x.op.Replayable e.schema
    rw [hframe.schema]
    exact h.replays x (hback hx)
  · -- entries: the applied one moved from in flight to done
    intro x hx
    rw [show ({ c with engine := e, inflight := _, done := _ } : Shared).engine.wal = c.engine.wal
      from hframe.wal] at hx
    rcases h.origin x hx with hx | ⟨id, v, hop, hne⟩
    · exact Or.inl (mem_logged_applied hp e hx)
    · exact Or.inr ⟨id, v, hop, hcellNe id hne⟩
  · -- values: a key of this write shows it, the others show what they did
    intro o ho key hk
    show e.kv.Good key ∧ ∃ o' ∈ c.done ++ [_], kvEffect key o'.op = some (e.kv.view key) ∧ _
    cases hnew : kvEffect key p.write.op with
    | some eff =>
      obtain ⟨hg, hv⟩ := heff.touched key eff hnew
      exact ⟨hg, _, (hdone _).mpr (Or.inr rfl), by rw [hv, hnew], hdoneLt o ho⟩
    | none =>
      rcases (hdone o).mp ho with ho | rfl
      · obtain ⟨hg, o', ho', heff', hlt⟩ := h.value o ho key hk
        obtain ⟨hg', hv'⟩ := heff.untouched key hnew hg
        exact ⟨hg', o', (hdone o').mpr (Or.inl ho'), by rw [hv', heff'], hlt⟩
      · exact absurd hnew hk
  · -- stored vectors: this insert, and those that were there
    intro o ho id v hop
    show (e.cell id).stored = some v
    rcases (hdone o).mp ho with ho | rfl
    · rw [hcell id]
      exact Cell.stored_apply (h.stored o ho id v hop) _
    · have hw : p.write = .insertVector id v := Write.op_eq_insert hop
      rw [hw] at happ
      rw [(Engine.absent_of_insert A h.inv happ).2]
      rfl
  · -- deletes: an id that is stored again was inserted just now
    intro x hx id hop
    show e.cell id = .absent ∨ (∃ y ∈ e.wal.dir.entries, _) ∨ ∃ o ∈ c.done ++ [_], _
    rw [hframe.wal]
    have hold := hback hx
    by_cases habs : e.cell id = .absent
    · exact Or.inl habs
    right
    rcases h.deletes x hold id hop with hwas | hy | ⟨o, ho, v, hov, hlt⟩
    · -- only an insert stores an id
      right
      rw [hcell id, hwas] at habs
      obtain ⟨v, hv⟩ := Cell.insert_of_absent habs
      exact ⟨_, (hdone _).mpr (Or.inr rfl), v, hv, h.log.bound x hold⟩
    · exact Or.inl hy
    · exact Or.inr ⟨o, (hdone o).mpr (Or.inl ho), v, hov, hlt⟩
  · -- inserts before deletes of the same id
    intro o ho id v hop o' ho' hop' hentry
    rw [show ({ c with engine := e, inflight := _, done := _ } : Shared).engine.wal = c.engine.wal
      from hframe.wal] at hentry
    rcases (hdone o').mp ho' with ho' | rfl
    · rcases (hdone o).mp ho with ho | rfl
      · exact h.inserts o ho id v hop o' ho' hop' hentry
      · have hw : p.write = .insertVector id v := Write.op_eq_insert hop
        rw [hw] at happ
        have habs := (Engine.absent_of_insert A h.inv happ).1
        exact ((h.ready p (hmem.mpr (Or.inl rfl)) id v hw).resolve_left (absurd habs))
          o' ho' hop' hentry
    · exact hdoneLt o ho
  · -- writes still in flight
    intro q hq id v hw
    have hq' : q ∈ c.inflight := hmem.mpr (Or.inr hq)
    refine (h.ready q hq' id v hw).imp (hcellNe id) fun hall o' ho' hop' hentry => ?_
    rw [show ({ c with engine := e, inflight := _, done := _ } : Shared).engine.wal = c.engine.wal
      from hframe.wal] at hentry
    rcases (hdone o').mp ho' with ho' | rfl
    · exact hall o' ho' hop' hentry
    · exact h.log.bound _ (Shared.mem_logged.mpr (Or.inl ⟨q, hq', rfl⟩))

/-- A rejected write leaves its entry in the log. -/
private theorem Calm.rejected (h : Calm s c) {i : Nat} {locked : Bool} {p : InFlight}
    (hp : c.inflight[i]? = some p) (hw : c.CalmStep (.apply i locked)) {e : Engine}
    {err : StoreError} (happ : c.engine.apply A locked p.write = (.error err, e))
    (hlog : ({ c with engine := e, inflight := c.inflight.eraseIdx i } : Shared).LogInv) :
    Calm s { c with engine := e, inflight := c.inflight.eraseIdx i } := by
  obtain ⟨hinv, hframe⟩ := Engine.apply_inv A h.inv happ
  obtain ⟨hkv, hcell, -⟩ := Engine.apply_error A h.inv happ
  have hback := fun {x : WalEntry} => Shared.logged_apply (x := x) hp e (.error err)
  have hmem := fun {q : InFlight} => Shared.mem_eraseIdx (q := q) hp
  have hpmem : (⟨p.seq, p.write.op⟩ : WalEntry) ∈ c.logged :=
    Shared.mem_logged.mpr (Or.inl ⟨p, hmem.mpr (Or.inl rfl), rfl⟩)
  -- a well-formed write that gets its lock and fits can only be a duplicate insert
  have hdup : ∃ id v, p.write = .insertVector id v ∧ c.engine.cell id ≠ .absent := by
    refine Engine.stored_of_rejected A h.inv (h.replays _ hpmem) ?_ happ
    simp only [Shared.CalmStep, hp] at hw
    obtain ⟨seq, write⟩ := p
    cases write with
    | putKv key value => exact Or.inr (Or.inr hw)
    | deleteKv key => exact Or.inr (Or.inr ⟨hw, trivial⟩)
    | insertVector id v => exact Or.inl ⟨id, v, rfl⟩
    | deleteVector id => exact Or.inr (Or.inl ⟨id, rfl⟩)
  refine ⟨hinv, hlog, ?_, ?_, ?_, ?_, ?_, ?_, ?_⟩
  · -- the schema is the old one
    intro x hx
    show x.op.Replayable e.schema
    rw [hframe.schema]
    exact h.replays x (hback hx)
  · intro x hx
    rw [show ({ c with engine := e, inflight := _ } : Shared).engine.wal = c.engine.wal
      from hframe.wal] at hx
    show _ ∨ ∃ id v, x.op = .insertVector id v ∧ e.cell id ≠ .absent
    rcases h.origin x hx with hx | ⟨id, v, hop, hne⟩
    · -- the entry of the rejected write stays, without a record: its id is stored
      rcases Shared.mem_logged.mp hx with ⟨q, hq, rfl⟩ | ho
      · rcases hmem.mp hq with rfl | hq
        · obtain ⟨id, v, hw', hne⟩ := hdup
          exact Or.inr ⟨id, v, by rw [hw']; rfl, by rwa [hcell id]⟩
        · exact Or.inl (Shared.mem_logged.mpr (Or.inl ⟨q, hq, rfl⟩))
      · exact Or.inl (Shared.mem_logged.mpr (Or.inr ho))
    · exact Or.inr ⟨id, v, hop, by rwa [hcell id]⟩
  · intro o ho key hk
    obtain ⟨hg, o', ho', heff, hlt⟩ := h.value o ho key hk
    obtain ⟨hg', hv'⟩ := hkv key hg
    -- a rejected write changes no value
    exact ⟨hg', o', ho', by rw [hv', heff], hlt⟩
  · -- the vectors are where they were
    intro o ho id v hop
    show (e.cell id).stored = some v
    rw [hcell id]
    exact h.stored o ho id v hop
  · intro x hx id hop
    show e.cell id = .absent ∨ (∃ y ∈ e.wal.dir.entries, _) ∨ _
    rw [hcell id, hframe.wal]
    exact h.deletes x (hback hx) id hop
  · intro o ho id v hop o' ho' hop' hentry
    rw [show ({ c with engine := e, inflight := _ } : Shared).engine.wal = c.engine.wal
      from hframe.wal] at hentry
    exact h.inserts o ho id v hop o' ho' hop' hentry
  · intro q hq id v hqw
    show e.cell id ≠ .absent ∨ ∀ o' ∈ c.done, o'.op = .deleteVector id →
      (⟨o'.seq, .deleteVector id⟩ : WalEntry) ∈ e.wal.dir.entries → q.seq < o'.ackedAt
    rw [hcell id, hframe.wal]
    exact h.ready q (hmem.mpr (Or.inr hq)) id v hqw

/-- The step lemma: every allowed action keeps the invariant. -/
private theorem Calm.step (h : Calm s c) {a : Action} (ha : c.CalmStep a) :
    Calm s (c.step A a) := by
  cases a with
  | append w => exact h.append ha
  | apply i locked =>
    -- the result of an apply decides: acknowledged or rejected
    have hlog := Shared.logInv_apply A h.log h.inv i locked
    show Calm s (c.apply A i locked)
    rcases Shared.apply_cases A c i locked with heq | ⟨p, r, e, hp, happ, heq⟩
    · rw [heq]
      exact h
    rw [heq] at hlog ⊢
    cases r with
    | ok u => exact h.applied A hp happ hlog
    | error err => exact h.rejected A hp ha happ hlog
  | begin =>
    -- a checkpoint begins by reading the sequence number
    exact h.frame h.inv (Shared.logInv_begin A h.log) rfl rfl rfl (fun key hg => ⟨hg, rfl⟩)
      (fun id => rfl) (List.Subset.refl _) fun y hy id _ _ => hy
  | advance i =>
    have hlog := Shared.logInv_advance h.log i
    show Calm s (c.advance i)
    rcases Shared.advance_cases c i with heq | ⟨n, hk, heq⟩ | ⟨n, hk, heq⟩ | ⟨n, hk, heq⟩
    · rw [heq]
      exact h
    · rw [heq] at hlog ⊢
      -- the flush of the KV store
      obtain ⟨hkv, hvec, hwal⟩ := c.engine.flush_frame
      refine h.frame (Engine.inv_flushCol (Engine.inv_flushKv h.inv)) hlog ?_ rfl rfl ?_ ?_ ?_ ?_
      · simp only [Engine.schema, hvec]
      · intro key hg
        simp only [hkv]
        exact ⟨KvStore.good_flush.1.mpr hg, KvStore.good_flush.2⟩
      · simp only [Engine.cell, hvec, implies_true]
      · simp only [hwal, List.Subset.refl]
      · intro y hy id _ _
        simpa only [hwal] using hy
    · rw [heq] at hlog ⊢
      -- the snapshot of the graph
      obtain ⟨hkv, hwal, hschema, hcell⟩ := c.engine.checkpointVec_frame
      refine h.frame (Engine.inv_checkpointVec h.inv) hlog hschema rfl rfl ?_ hcell ?_ ?_
      · intro key hg
        simpa only [hkv, and_true] using hg
      · simp only [hwal, List.Subset.refl]
      · intro y hy id _ _
        simpa only [hwal] using hy
    · rw [heq] at hlog ⊢
      -- the truncation: by the guard it drops no delete of a stored id
      refine h.frame ⟨h.inv.kv, h.inv.vec, hlog.wal⟩ hlog rfl rfl rfl
        (fun key hg => ⟨hg, rfl⟩) (fun id => rfl) (fun x hx => (List.mem_filter.mp hx).1) ?_
      intro y hy id hop hne
      simp only [Shared.CalmStep, hk] at ha
      refine List.mem_filter.mpr ⟨hy, decide_eq_true ?_⟩
      by_contra hle
      exact ha y hy (Nat.le_of_not_lt hle) id ((Engine.mem_keys_iff h.inv id).mpr hne) hop

/-- An engine whose log is empty, before the first write. -/
private theorem calm_start {e : Engine} (hinv : e.Inv s) (hlog : e.wal.dir.entries = [])
    (hnum : e.wal.dir.appliedSeq < e.wal.nextSeq) : Calm s (.start e) where
  inv := hinv
  log := Shared.logInv_start hinv.wal hlog hnum
  replays := fun x hx => nomatch hx
  origin := fun x hx => by
    rw [show (Shared.start e).engine.wal.dir.entries = [] from hlog] at hx
    exact nomatch hx
  value := fun o ho => nomatch ho
  stored := fun o ho => nomatch ho
  deletes := fun x hx => nomatch hx
  inserts := fun o ho => nomatch ho
  ready := fun p hp => nomatch hp

/-! ### After the kill -/

/-- After a reopen an id is live exactly if its vector is stored: the marks of soft deletes are
    in memory only. -/
theorem Engine.cell_of_stored {e : Engine} (h : e.Inv s) (id : NodeId) :
    reopenedCell e.dir id = match (e.cell id).stored with
      | none => .absent
      | some v => .live v := by
  have hdir := Engine.stored_dir h id
  cases hstored : (e.cell id).stored with
  | none => simp only [reopenedCell, hdir, hstored]
  | some v => simp only [reopenedCell, hdir, hstored]

/-- What was written to a key is found in the log, or in the table. -/
private theorem Calm.value_survives (h : Calm s c) (hcov : c.engine.dir.CursorCovers)
    {quota : Nat} {e : Engine} {cells : NodeId → Cell}
    (hrec : Engine.Recovered s c.engine.dir quota cells e) {o : Done} (ho : o ∈ c.done)
    {key : Bytes} (hk : kvEffect key o.op ≠ none) :
    ∃ v, e.getKvZeroCopy key = .ok v ∧ c.Current (kvEffect key) o v := by
  have hologged : (⟨o.seq, o.op⟩ : WalEntry) ∈ c.logged :=
    Shared.mem_logged.mpr (Or.inr ⟨o, ho, rfl⟩)
  have hne : key ≠ [] := WalOp.key_ne_of_replayable (h.replays _ hologged) hk
  cases hlast : lastEffect key c.engine.dir.wal.pendingOps with
  | some eff =>
    -- the last entry of the key in the log decides its value
    obtain ⟨hg, hv⟩ := hrec.touched key eff hlast
    refine ⟨eff, by rw [Engine.getKvZeroCopy_eq hg hne, hv], ?_⟩
    rw [show c.engine.dir.wal.pendingOps = _ from h.log.pendingOps] at hlast
    obtain ⟨x, hx, hxeff, hmax⟩ := Shared.exists_last_entry h.log.wal.dir.sorted hlast
    have hxlogged : x ∈ c.logged := by
      refine (h.origin x hx).resolve_right ?_
      rintro ⟨id, v, hop, -⟩
      rw [hop] at hxeff
      exact nomatch hxeff
    -- it belongs to a write in flight or to an acknowledged one
    rcases Shared.mem_logged.mp hxlogged with ⟨p, hp, rfl⟩ | ⟨o', ho', rfl⟩
    · exact Or.inr ⟨p, hp, hxeff⟩
    · refine Or.inl ⟨o', ho', hxeff, ?_⟩
      -- `o` is in the log, then before `o'`, or it was truncated, then below the cut
      obtain ⟨cut, -, -, hcut, hin⟩ := h.log.cut
      have hx' := hcut _ hx
      have hack := (h.log.acked o' ho').1
      by_cases hoc : cut < o.seq
      · have hle := hmax _ (hin _ hologged hoc) hk
        simp only at hle
        omega
      · simp only at hx'
        omega
  | none =>
    -- nothing in the log concerns the key: the store still has its value
    have hcovered : c.engine.dir.kv.Covered key := by
      intro loc hloc
      have hkey : key ∈ c.engine.dir.kv.env.volatile.db.keys := by
        rw [← AList.mem_keys, ← AList.lookup_isSome, hloc]
        rfl
      exact (hcov key hkey).resolve_right (absurd hlast) loc hloc
    obtain ⟨hg, hv⟩ := hrec.untouched key hlast hcovered
    obtain ⟨-, o', ho', heff, hlt⟩ := h.value o ho key hk
    exact ⟨_, Engine.getKvZeroCopy_eq hg hne, Or.inl ⟨o', ho', by rw [hv]; exact heff, hlt⟩⟩

/-- A vector is visible again unless a delete of it is in the log. -/
private theorem Calm.vector_survives (h : Calm s c) {o : Done} (ho : o ∈ c.done) {id : NodeId}
    (hk : vecEffect id o.op ≠ none) :
    c.Current (vecEffect id) o (Cell.applyAll id (Engine.reopenedCell c.engine.dir id)
      c.engine.dir.wal.pendingOps).visible := by
  -- `o` itself will do where nothing later concerns the id
  have hself : ∀ eff, vecEffect id o.op = some eff → c.Current (vecEffect id) o eff :=
    fun eff heff => Or.inl ⟨o, ho, heff, (h.log.acked o ho).1⟩
  have hpend : ∀ op, op ∈ c.engine.dir.wal.pendingOps →
      ∃ x ∈ c.engine.wal.dir.entries, x.op = op := by
    intro op hop
    rw [show c.engine.dir.wal.pendingOps = _ from h.log.pendingOps] at hop
    exact List.mem_map.mp hop
  rw [Engine.cell_of_stored h.inv]
  rcases vecEffect_cases hk with ⟨v, hins⟩ | hdel
  · -- an acknowledged insert is stored; only a logged delete hides it
    rw [h.stored o ho id v hins]
    simp only [Cell.applyAll_live]
    split
    · rename_i hmem
      obtain ⟨x, hx, hop⟩ := hpend _ hmem
      have hxlogged : x ∈ c.logged := by
        refine (h.origin x hx).resolve_right ?_
        rintro ⟨j, u, hop', -⟩
        rw [hop] at hop'
        exact nomatch hop'
      have heff : vecEffect id x.op = some none := by
        rw [hop]
        exact if_pos rfl
      -- the delete in the log is in flight, or acknowledged after the insert
      rcases Shared.mem_logged.mp hxlogged with ⟨p, hp, rfl⟩ | ⟨o', ho', rfl⟩
      · exact Or.inr ⟨p, hp, heff⟩
      · refine Or.inl ⟨o', ho', heff, h.inserts o ho id v hins o' ho' hop ?_⟩
        rwa [← hop]
    · refine hself _ ?_
      rw [hins]
      exact if_pos rfl
  · have heff : vecEffect id o.op = some none := by
      rw [hdel]
      exact if_pos rfl
    cases hst : (c.engine.cell id).stored with
    | none =>
      have habs := Cell.stored_eq_none.mp hst
      cases hvis : (Cell.applyAll id .absent c.engine.dir.wal.pendingOps).visible with
      | none => exact hself _ heff
      | some v =>
        -- an insert on its way
        obtain ⟨x, hx, hop⟩ := hpend _ ((Cell.mem_of_visible_applyAll hvis).resolve_left nofun)
        have hxlogged : x ∈ c.logged := by
          refine (h.origin x hx).resolve_right ?_
          rintro ⟨j, u, hop', hne⟩
          rw [hop] at hop'
          injection hop' with hj
          exact hne (hj ▸ habs)
        rcases Shared.mem_logged.mp hxlogged with ⟨p, hp, rfl⟩ | ⟨o', ho', rfl⟩
        · refine Or.inr ⟨p, hp, ?_⟩
          rw [show p.write.op = .insertVector id v from hop]
          exact if_pos rfl
        · rw [h.stored o' ho' id v hop] at hst
          exact nomatch hst
    | some u =>
      simp only [Cell.applyAll_live]
      split
      · exact hself _ heff
      · rename_i hmem
        have hologged : (⟨o.seq, o.op⟩ : WalEntry) ∈ c.logged :=
          Shared.mem_logged.mpr (Or.inr ⟨o, ho, rfl⟩)
        -- the vector is stored and its delete is not in the log any more: it was inserted again
        rcases h.deletes _ hologged id hdel with habs | ⟨y, hy, hyop⟩ | ⟨o', ho', v, hins, hlt⟩
        · rw [habs] at hst
          exact nomatch hst
        · refine absurd ?_ hmem
          rw [show c.engine.dir.wal.pendingOps = _ from h.log.pendingOps]
          exact List.mem_map.mpr ⟨y, hy, hyop⟩
        · rw [h.stored o' ho' id v hins, Option.some.injEq] at hst
          subst hst
          refine Or.inl ⟨o', ho', ?_, hlt⟩
          rw [hins]
          exact if_pos rfl

variable (I : Ipc)

/-- In every interleaving of calm steps, a kill at any point loses no acknowledged
    write. -/
theorem survives_of_guarded (es : List Event) (hes : ∀ ev ∈ es, ev.Uses s) {e₀ : Engine}
    (hup : (Session.run A I es).host = .up e₀) (hlog : e₀.wal.dir.entries = [])
    (hnum : e₀.wal.dir.appliedSeq < e₀.wal.nextSeq) (acts : List Action)
    (hrun : Run.Guarded (Shared.step A) Shared.CalmStep (.start e₀) acts) (quota : Nat)
    (order : MapOrder)
    (hopen : (Run.exec (Shared.step A) (.start e₀) acts).engine.dir.Openable quota)
    (hcov : (Run.exec (Shared.step A) (.start e₀) acts).engine.dir.CursorCovers) :
    ∃ e, (Engine.open A I (Run.exec (Shared.step A) (.start e₀) acts).engine.dir
        none quota order).1 = .ok e ∧
      (Run.exec (Shared.step A) (.start e₀) acts).Survives e := by
  -- the engine comes from a session, so it is sound
  have hinv : e₀.Inv s := by
    have hi := Session.inv_run A I hes
    rw [hup] at hi
    exact hi
  have h : Calm s (Run.exec (Shared.step A) (.start e₀) acts) :=
    hrun.invariant (Calm s) (fun c a hc ha => hc.step A ha) (calm_start hinv hlog hnum)
  generalize Run.exec (Shared.step A) (.start e₀) acts = c at h hopen hcov
  -- the restart replays the log over the files
  obtain ⟨e₁, hres, hschema⟩ := Engine.restores_none A I h.inv.dir quota order
  obtain ⟨e, hok⟩ := (Engine.open_none_iff A I h.inv.dir quota order).mpr hopen
  obtain ⟨hrec, -, -, hsame⟩ := hres.recovered h.inv.dir.kv hok
  refine ⟨e, hok, ⟨fun o ho key hk => h.value_survives hcov hrec ho hk, fun o ho id hk => ?_⟩⟩
  -- a write on vectors needs an index
  have hologged : (⟨o.seq, o.op⟩ : WalEntry) ∈ c.logged :=
    Shared.mem_logged.mpr (Or.inr ⟨o, ho, rfl⟩)
  obtain ⟨t, ht⟩ := schema_of_replayable (h.replays _ hologged) hk
  have hes' : e.schema = some t := by
    rw [hsame, hschema, Engine.schema_dir h.inv, ht]
  refine ⟨_, Engine.getVector_eq hrec.inv hes' id, Engine.lists_iff hrec.inv id, ?_⟩
  rw [hrec.cell id]
  exact h.vector_survives ho hk

/-- A delete that is applied after the snapshot and logged after the `applied_seq` of the
    checkpoint stays in the log; a put counted in it is read through the cursor. -/
theorem survives_of_checkpoint_beside_writes : ∃ e₀ e,
    (Session.run zeroArith noIpc [.restart (some flatSchema) 0 .id]).host = .up e₀ ∧
    let c := Run.exec (Shared.step zeroArith) (.start e₀)
      [.append (.insertVector 1 [0]), .apply 0 true, .begin, .append (.putKv [97] [1]),
        .advance 0, .apply 0 true, .advance 0, .append (.deleteVector 1), .advance 0,
        .apply 0 true]
    (Engine.open zeroArith noIpc c.engine.dir none 0 .id).1 = .ok e ∧ c.Survives e := by
  obtain ⟨e, hop, hs⟩ := survives_of_guarded (s := flatSchema) zeroArith noIpc
    [.restart (some flatSchema) 0 .id] (by simp [Event.Uses]) rfl (by decide +kernel)
    (by decide +kernel)
    [.append (.insertVector 1 [0]), .apply 0 true, .begin, .append (.putKv [97] [1]),
      .advance 0, .apply 0 true, .advance 0, .append (.deleteVector 1), .advance 0,
      .apply 0 true]
    (by decide +kernel) 0 .id (by decide +kernel) (by decide +kernel)
  exact ⟨_, e, rfl, hop, hs⟩

/-- A delete is logged before the checkpoint reads `applied_seq` and applied after the
    snapshot: the truncation takes its only record. -/
theorem delete_lost_beside_checkpoint : ∃ e₀,
    (Session.run zeroArith noIpc [.restart (some flatSchema) 0 .id]).host = .up e₀ ∧
    let c := Run.exec (Shared.step zeroArith) (.start e₀)
      [.append (.insertVector 1 [0]), .apply 0 true, .append (.deleteVector 1), .begin,
        .advance 0, .advance 0, .apply 0 true, .advance 0]
    c.done = [⟨1, .insertVector 1 [0], 2⟩, ⟨2, .deleteVector 1, 3⟩] ∧
      c.engine.getVector 1 = .ok none ∧
      ∃ e, (Engine.open zeroArith noIpc c.engine.dir none 0 .id).1 = .ok e ∧
        e.getVector 1 = .ok (some [0]) ∧ ¬c.Survives e := by
  refine ⟨_, rfl, ?_⟩
  intro c
  have hdone : c.done = [⟨1, .insertVector 1 [0], 2⟩, ⟨2, .deleteVector 1, 3⟩] := by
    decide +kernel
  -- the checkpoint has taken the entry of the delete out of the log
  have hflight : c.inflight = [] := List.length_eq_zero_iff.mp (by decide +kernel)
  obtain ⟨e, hop, hget⟩ : ∃ e, (Engine.open zeroArith noIpc c.engine.dir none 0 .id).1 = .ok e ∧
      e.getVector 1 = .ok (some [0]) := by
    refine ⟨_, rfl, ?_⟩
    decide +kernel
  refine ⟨hdone, by decide +kernel, e, hop, hget, fun hs => ?_⟩
  obtain ⟨v, hv, -, hcur⟩ := hs.vector ⟨2, .deleteVector 1, 3⟩ (by simp [hdone]) 1 (by decide)
  obtain rfl : v = some [0] := Except.ok.inj (hv.symm.trans hget)
  -- the insert was acknowledged before the delete was logged
  rcases hcur with ⟨o, ho, heff, hlt⟩ | ⟨p, hp, -⟩
  · rw [hdone, List.mem_cons, List.mem_singleton] at ho
    rcases ho with rfl | rfl
    · exact absurd hlt (by decide)
    · exact absurd heff (by decide)
  · rw [hflight] at hp
    exact nomatch hp

end FusionStore
