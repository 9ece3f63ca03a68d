import FusionStore.Spec.Lives

/-!
# The calls of an engine that holds a map

Each call of an engine is a log entry and then the call of a store, and its result is told by
the map alone: which vectors are taken, what is shown, what is found under a key.  A call that
fails leaves the map as it was.

## Key results

- `Engine.Matches.putKv_cases`, `deleteKv_cases`, `insertVector_call`, `insertVectorBatch_cases`,
  `deleteVector_eq`: the writes
- `Engine.Matches.getKv_eq`, `getVector_eq`, `listVectorIds_eq`: the reads
-/

namespace FusionStore

/-- What an append to the log does. -/
theorem WalLog.append_cases (w : WalLog) (op : WalOp) :
    ((encodeOp op).length > u32Max ∧
      w.append op = .error (.valueTooLarge (encodeOp op).length)) ∨
    (¬(encodeOp op).length > u32Max ∧ ∃ wal, w.append op = .ok (w.nextSeq, wal)) := by
  unfold append
  by_cases hlong : (encodeOp op).length > u32Max
  · exact .inl ⟨hlong, if_pos hlong⟩
  · exact .inr ⟨hlong, _, if_neg hlong⟩

/-- A vector that fits a segment fits a log entry. -/
theorem length_encodeOp_insertVector_le {schema : VectorSchema}
    (hfits : schema.dim * 4 ≤ defaultVecSegmentSize) (id : NodeId) {v : List F32}
    (hdim : v.length = schema.dim) : (encodeOp (.insertVector id v)).length ≤ u32Max := by
  have hle := hdim ▸ hfits
  simp only [encodeOp, List.length_append, LittleEndian.length_toLE, length_encodeF32s, u32Max]
  have hmax : defaultVecSegmentSize ≤ 268435456 := by decide
  omega

namespace Engine

variable (A : F32Arith) {schema : VectorSchema} {e : Engine} {c : Contents}

theorem Matches.fits (h : e.Matches schema c) : schema.dim * 4 ≤ defaultVecSegmentSize := by
  obtain ⟨x, -, hx⟩ := h.index
  exact hx.fits

/-! ### Values -/

/-- A put is done, or the map stays. -/
theorem Matches.putKv_cases (h : e.Matches schema c) (key : Bytes) {value : Bytes}
    (hlen : value.length ≤ defaultSegmentSize) (locked : Bool) :
    (key ≠ [] ∧ key.length ≤ lmdbMaxKey ∧ ∃ e', e.putKv key value locked = (.ok (), e') ∧
      e'.Matches schema { c with value := Function.update c.value key (some value) }) ∨
    (∃ err e', e.putKv key value locked = (.error err, e') ∧ err.NoPanic ∧
      e'.Matches schema c) := by
  unfold Engine.putKv
  obtain ⟨-, hw⟩ | ⟨-, wal, hw⟩ := e.wal.append_cases (.putKv key value)
  · rw [hw]
    exact .inr ⟨_, e, rfl, .of_panics rfl, h⟩
  rw [hw]
  have hret : Returns (e.kv.putKv key value locked none).1 :=
    KvStore.returns_putKv h.inv.kv hlen locked
  -- logged, then applied
  have h₁ : ({ e with wal } : Engine).Matches schema c := h.logged hw
  have happ : ({ e with wal } : Engine).apply zeroArith locked (.putKv key value) =
      ((e.kv.putKv key value locked none).1,
        { e with wal, kv := (e.kv.putKv key value locked none).2 }) := rfl
  cases hput : e.kv.putKv key value locked none with
  | mk r kv =>
    rw [hput] at happ hret
    cases r with
    | ok u =>
      obtain ⟨h', hne, hle⟩ := h₁.putKv_ok zeroArith happ
      exact .inl ⟨hne, hle, _, rfl, h'⟩
    | error err =>
      exact .inr ⟨err, _, rfl, StoreError.noPanic_iff.mpr hret, h₁.putKv_error zeroArith happ⟩

/-- A delete is done and tells whether there was a value, or the map stays. -/
theorem Matches.deleteKv_cases (h : e.Matches schema c) (key : Bytes) (locked : Bool) :
    (key ≠ [] ∧ ∃ e', e.deleteKv key locked = (.ok (c.value key).isSome, e') ∧
      e'.Matches schema { c with value := Function.update c.value key none }) ∨
    ((key = [] ∨ locked = false ∨ (encodeOp (.deleteKv key)).length > u32Max) ∧
      ∃ err e', e.deleteKv key locked = (.error err, e') ∧ err.NoPanic ∧ e'.Matches schema c) := by
  unfold Engine.deleteKv
  obtain ⟨hlong, hw⟩ | ⟨-, wal, hw⟩ := e.wal.append_cases (.deleteKv key)
  · rw [hw]
    exact .inr ⟨.inr (.inr hlong), _, e, rfl, .of_panics rfl, h⟩
  rw [hw]
  have hret := e.kv.returns_deleteKv key locked
  have h₁ : ({ e with wal } : Engine).Matches schema c := h.logged hw
  -- a delete that went through
  have hdone : ∀ {removed kv}, e.kv.deleteKv key locked none = (.ok removed, kv) →
      removed = (c.value key).isSome → ∃ e' : Engine,
        ((.ok removed : Except StoreError Bool), ({ e with wal, kv } : Engine)) =
          (.ok (c.value key).isSome, e') ∧
        e'.Matches schema { c with value := Function.update c.value key none } := by
    intro removed kv hdel hremoved
    obtain ⟨-, -, heff, -, -⟩ := KvStore.deleteKv_ok h.inv.kv hdel
    have happ : ({ e with wal } : Engine).apply zeroArith locked (.deleteKv key) =
        (.ok (), { e with wal, kv }) := by
      simp only [Engine.apply, hdel]
      rfl
    refine ⟨_, by rw [hremoved], (apply_inv zeroArith h₁.inv happ).1, fun k => ?_, fun k => ?_,
      h.index⟩
    · by_cases hk : key = k
      · exact (heff.touched k _ (kvEffect_deleteKv.mpr ⟨hk, rfl⟩)).1
      · exact (heff.untouched k (by simp [kvEffect, hk]) (h.good k)).1
    · by_cases hk : key = k
      · subst hk
        rw [(heff.touched key _ (kvEffect_deleteKv.mpr ⟨rfl, rfl⟩)).2]
        exact (Function.update_self key none c.value).symm
      · rw [(heff.untouched k (by simp [kvEffect, hk]) (h.good k)).2, h.view]
        exact (Function.update_of_ne (Ne.symm hk) _ _).symm
  have hview := h.view key
  unfold KvStore.view at hview
  obtain ⟨-, hne, -, ⟨loc, hl⟩, hdel⟩ | ⟨-, hne, hl, hdel⟩ | ⟨hno, err, hdel⟩ :=
    e.kv.deleteKv_outcome key locked none
  · refine .inl ⟨hne, ?_⟩
    rw [hl, Option.map_some] at hview
    rw [hdel]
    exact hdone hdel (by rw [← hview]; rfl)
  · refine .inl ⟨hne, ?_⟩
    rw [hl, Option.map_none] at hview
    rw [hdel]
    exact hdone hdel (by rw [← hview]; rfl)
  · rw [hdel] at hret ⊢
    refine .inr ⟨?_, err, _, rfl, StoreError.noPanic_iff.mpr hret, h₁⟩
    by_cases hne : key = []
    · exact .inl hne
    · have hlocked : ¬locked = true := fun hlocked => hno ⟨hlocked, hne, .inl rfl⟩
      exact .inr (.inl (by simpa using hlocked))

theorem Matches.getKv_eq (h : e.Matches schema c) {key : Bytes} (hne : key ≠ []) :
    e.getKvZeroCopy key = .ok (c.value key) := by
  rw [getKvZeroCopy_eq (h.good key) hne, h.view key]

theorem getKv_nil (e : Engine) : e.getKvZeroCopy [] = .error (.heed "MDB_BAD_VALSIZE") := rfl

/-! ### Vectors -/

/-- An insert is done, or the map stays; the values stay in any case. -/
theorem Matches.insertVector_call (h : e.Matches schema c) (id : NodeId) (v : List F32) :
    ∃ r e', e.insertVector A id v = (r, e') ∧ e'.kv = e.kv ∧
      ((encodeOp (.insertVector id v)).length > u32Max ∧
        r = .error (.valueTooLarge (encodeOp (.insertVector id v)).length) ∧
        e'.Matches schema c ∨
      ¬(encodeOp (.insertVector id v)).length > u32Max ∧
        (v.length ≠ schema.dim ∧ r = .error (.dimensionMismatch schema.dim v.length) ∧
          e'.Matches schema c ∨
        v.length = schema.dim ∧ (c.vectors id).isSome ∧ r = .error (.duplicateVector id) ∧
          e'.Matches schema c ∨
        v.length = schema.dim ∧ c.vectors id = none ∧ r = .ok () ∧ e'.Matches schema
          { c with vectors := Function.update c.vectors id (some (v, false)) })) := by
  obtain ⟨hlong, hw⟩ | ⟨hshort, wal, hw⟩ := e.wal.append_cases (.insertVector id v)
  · refine ⟨_, e, ?_, rfl, .inl ⟨hlong, rfl, h⟩⟩
    rw [Engine.insertVector, hw]
  have h₁ : ({ e with wal } : Engine).Matches schema c := h.logged hw
  have happ : e.insertVector A id v =
      ({ e with wal } : Engine).apply A true (.insertVector id v) := by
    unfold Engine.insertVector
    rw [hw]
    rfl
  rw [happ]
  obtain ⟨hdim, he⟩ | ⟨hdim, hsome, he⟩ | ⟨hdim, hnone, e', he, hkv, h'⟩ :=
    h₁.insertVector_cases A id v true
  · exact ⟨_, _, he, rfl, .inr ⟨hshort, .inl ⟨hdim, rfl, h₁⟩⟩⟩
  · exact ⟨_, _, he, rfl, .inr ⟨hshort, .inr (.inl ⟨hdim, hsome, rfl, h₁⟩)⟩⟩
  · exact ⟨_, e', he, hkv, .inr ⟨hshort, .inr (.inr ⟨hdim, hnone, rfl, h'⟩)⟩⟩

/-- An insert is done if the vector is new and has the right dimension, or the map stays. -/
theorem Matches.insertVector_iff (h : e.Matches schema c) (id : NodeId) (v : List F32) :
    (v.length = schema.dim ∧ c.vectors id = none) ∧
      (∃ e', e.insertVector A id v = (.ok (), e') ∧ e'.Matches schema
        { c with vectors := Function.update c.vectors id (some (v, false)) }) ∨
    ¬(v.length = schema.dim ∧ c.vectors id = none) ∧
      ∃ err e', e.insertVector A id v = (.error err, e') ∧ err.NoPanic ∧ e'.Matches schema c := by
  obtain ⟨r, e', hins, -, ⟨hlong, rfl, he'⟩ | ⟨-, hcase⟩⟩ := h.insertVector_call A id v
  · refine .inr ⟨fun hnew => ?_, _, e', hins, .of_panics rfl, he'⟩
    have hle := length_encodeOp_insertVector_le h.fits id hnew.1
    omega
  obtain ⟨hdim, rfl, he'⟩ | ⟨hdim, hsome, rfl, he'⟩ | ⟨hdim, hnone, rfl, he'⟩ := hcase
  · exact .inr ⟨fun hnew => hdim hnew.1, _, e', hins, .of_panics rfl, he'⟩
  · refine .inr ⟨fun hnew => ?_, _, e', hins, .of_panics rfl, he'⟩
    rw [hnew.2] at hsome
    cases hsome
  · exact .inl ⟨⟨hdim, hnone⟩, e', hins, he'⟩

/-- A batch without repetitions is stored whole, or the map stays. -/
theorem Matches.insertVectorBatch_cases (h : e.Matches schema c)
    {items : List (NodeId × List F32)} (hnd : (items.map Prod.fst).Nodup) :
    ((∀ i ∈ items, i.2.length = schema.dim ∧ c.vectors i.1 = none) ∧
      ∃ e', e.insertVectorBatch A items = (.ok (), e') ∧ e'.Matches schema { c with
        vectors := Routed.setAll c.vectors (items.map fun i => (i.1, (i.2, false))) }) ∨
    ((∃ i ∈ items, ¬(i.2.length = schema.dim ∧ c.vectors i.1 = none)) ∧
      ∃ err e', e.insertVectorBatch A items = (.error err, e') ∧ err.NoPanic ∧
        e'.Matches schema c) := by
  obtain ⟨x, hvec, hx⟩ := h.index
  have hschema := h.schema_eq hvec
  unfold Engine.insertVectorBatch
  cases hw : e.wal.appendBatch (items.map fun i => .insertVector i.1 i.2) with
  | error err =>
    -- an entry that is too long holds a vector of another dimension
    unfold WalLog.appendBatch at hw
    cases hfind : (items.map fun i => WalOp.insertVector i.1 i.2).find?
        fun op => (encodeOp op).length > u32Max with
    | none =>
      rw [hfind] at hw
      cases hw
    | some op =>
      rw [hfind] at hw
      obtain rfl := Except.error.inj hw
      obtain ⟨i, hi, rfl⟩ := List.mem_map.mp (List.mem_of_find?_eq_some hfind)
      have hlong := List.find?_some hfind
      refine .inr ⟨⟨i, hi, fun hfine => ?_⟩, _, e, rfl, .of_panics rfl, h⟩
      have hle := length_encodeOp_insertVector_le hx.fits i.1 hfine.1
      simp only [decide_eq_true_eq] at hlong
      omega
  | ok p =>
    obtain ⟨seq, wal⟩ := p
    have hwal := WalLog.inv_appendBatch h.inv.wal hw
    have hv := h.inv.vec
    rw [hvec] at hv
    -- the engine after the log entry and the batch
    have hinv : ({ e with wal, vec := .opened (x.insertBatch A items).2 } : Engine).Inv schema := by
      obtain ⟨hy, hys, -⟩ := VectorIndex.insertBatch_spec A hx.index items
      exact ⟨h.inv.kv, ⟨hy, hys.trans hschema⟩, hwal⟩
    have hstay : (x.insertBatch A items).2 = x →
        ({ e with wal, vec := .opened (x.insertBatch A items).2 } : Engine).Matches schema c := by
      intro hsame
      rw [hsame] at hinv ⊢
      exact ⟨hinv, h.good, h.view, x, rfl, hx⟩
    simp only [ensureVec, hvec]
    by_cases hdims : ∀ i ∈ items, i.2.length = schema.dim
    · obtain ⟨i, hi, hsome, hr⟩ | ⟨hnew, y, hr, hy⟩ := hx.insertBatch_cases A hdims hnd
      · change (c.vectors i.1).isSome = true at hsome
        change x.insertBatch A items = (.error (.duplicateVector i.1), x) at hr
        have htaken : ¬(i.2.length = schema.dim ∧ c.vectors i.1 = none) := by
          rintro ⟨-, hnone⟩
          rw [hnone] at hsome
          cases hsome
        exact .inr ⟨⟨i, hi, htaken⟩, .duplicateVector i.1, _, by rw [hr], .of_panics rfl,
          hstay (by rw [hr])⟩
      · change x.insertBatch A items = (.ok (), y) at hr
        rw [hr] at hinv
        exact .inl ⟨fun i hi => ⟨hdims i hi, hnew i hi⟩, _, by rw [hr],
          hinv, h.good, h.view, y, rfl, hy⟩
    · -- a vector of another dimension ends the batch before anything else
      obtain ⟨-, err, hr, a, b, rfl⟩ | ⟨hall, -⟩ | ⟨hall, -⟩ :=
        VectorIndex.insertBatch_cases A x items
      · push Not at hdims
        obtain ⟨i, hi, hne⟩ := hdims
        exact .inr ⟨⟨i, hi, fun hfine => hne hfine.1⟩, .dimensionMismatch a b, _, by rw [hr],
          .of_panics rfl, hstay (by rw [hr])⟩
      · exact absurd (hschema ▸ hall) hdims
      · exact absurd (hschema ▸ hall) hdims

/-- A vector is deleted if it is shown. -/
theorem Matches.deleteVector_eq (h : e.Matches schema c) (id : NodeId) :
    ∃ e', e.deleteVector id = (.ok (c.vectors.visible id).isSome, e') ∧ e'.kv = e.kv ∧
      e'.Matches schema { c with vectors := c.vectors.delete id } := by
  obtain ⟨hlong, -⟩ | ⟨-, wal, hw⟩ := e.wal.append_cases (.deleteVector id)
  · simp only [encodeOp, LittleEndian.length_toLE, u32Max] at hlong
    omega
  have h₁ : ({ e with wal } : Engine).Matches schema c := h.logged hw
  obtain ⟨x, hvec, hx⟩ := h₁.index
  have hvec' : e.vec = .opened x := hvec
  have hdel : e.deleteVector id =
      (.ok (x.delete id).1, { e with wal, vec := .opened (x.delete id).2 }) := by
    unfold Engine.deleteVector
    simp only [hw, ensureVec, hvec']
  have happ : ({ e with wal } : Engine).apply zeroArith true (.deleteVector id) =
      (.ok (), { e with wal, vec := .opened (x.delete id).2 }) := by
    simp only [Engine.apply, ensureVec, hvec']
  -- the graph says whether the vector was shown
  have hshown : (x.delete id).1 = (c.vectors.visible id).isSome := by
    have hflag := h.flag_eq hvec' id
    unfold NswGraph.flag at hflag
    unfold VecMap.visible
    show (x.graph.delete id).1 = _
    unfold NswGraph.delete
    cases hl : x.graph.nodes.lookup id with
    | none =>
      rw [hl] at hflag
      rw [Option.map_eq_none_iff.mp hflag.symm]
      rfl
    | some node =>
      rw [hl] at hflag
      obtain ⟨⟨v, b⟩, hv, hb⟩ := Option.map_eq_some_iff.mp hflag.symm
      rw [hv]
      show (!node.deleted) = _
      rw [← show b = node.deleted from hb]
      cases b <;> rfl
  rw [hdel, hshown]
  exact ⟨_, rfl, rfl, (apply_inv zeroArith h₁.inv happ).1, h.good, h.view, _, rfl, hx.delete id⟩

theorem Matches.getVector_eq (h : e.Matches schema c) (id : NodeId) :
    e.getVector id = .ok (c.vectors.visible id) := by
  obtain ⟨x, hvec, hx⟩ := h.index
  unfold Engine.getVector ensureVec
  rw [hvec]
  exact hx.getVector id

/-- The list names what is shown, each id once. -/
theorem Matches.listVectorIds_eq (h : e.Matches schema c) :
    ∃ x, e.vec = .opened x ∧ e.listVectorIds = .ok x.listVectorIds ∧ x.listVectorIds.Nodup ∧
      ∀ id, id ∈ x.listVectorIds ↔ (c.vectors.visible id).isSome := by
  obtain ⟨x, hvec, hx⟩ := h.index
  refine ⟨x, hvec, ?_, NswGraph.nodup_allIds _, hx.mem_list⟩
  unfold Engine.listVectorIds ensureVec
  rw [hvec]
  rfl

end Engine

end FusionStore
