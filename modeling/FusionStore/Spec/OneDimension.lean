import FusionStore.Spec.WritePosition

/-!
# Runs over one dimension

`simd::distance` panics on two slices of different lengths, so a run of a vector directory is
what the calls say it is only as long as nothing asks for such a distance.  `Alike` is the
property that excludes it: the table, and the copy of it that a power loss leaves, name
vectors of the dimension of their schema.  Every event keeps it unless an open brings another
dimension to stored vectors or a vector is too long for the length in its locator
(`alike_of_guarded`).
-/

namespace FusionStore

/-- Every locator of the table is one of a vector of its schema's dimension. -/
def VecEnv.Alike (env : VecEnv) : Prop :=
  ∀ id loc, env.locatorDb.lookup id = some loc →
    ∃ schema, env.schema = some schema ∧ loc.len = schema.dim * 4 ∧ loc.len < 2 ^ 32

namespace VectorIndex

variable {n : Nat} {x : VectorIndex} (A : F32Arith)

/-- The removal of files leaves table and cache alone. -/
theorem Steady.reclaimSegments_grown (h : x.Steady n) (safe : Nat → Bool) (segIds : List Nat) :
    Grown n False x (x.reclaimSegments safe segIds).2 := by
  induction segIds generalizing x with
  | nil => exact h.grown_pool (.refl h.cursor_le)
  | cons segId segIds ih =>
    unfold reclaimSegments
    split
    · have hone : Grown n False x { x with pool := x.pool.removeFile segId } :=
        h.grown_pool ⟨rfl, rfl, h.cursor_le⟩
      exact hone.trans (ih hone.steady)
    · exact ih h

/-- The table of a directory that a kill inside `compact` leaves is the one before the switch
    or the one after it. -/
theorem Steady.compactDir_grown (h : x.Steady n) {order : MapOrder} {avail : Option Nat}
    {point : CompactPoint} {d : VecDir} (hd : x.compactDir A order avail point = some d) :
    ∃ y, Grown n (x.env.volatile.locatorDb.entries ≠ []) x y ∧ d.vecMeta = some y.env := by
  unfold compactDir at hd
  split at hd
  · -- the call does not get to this point
    cases hd
  split at hd
  · cases hd
  rename_i live hread
  cases point with
  | appended k =>
    -- the copies do not touch the table
    dsimp only at hd
    split at hd
    · obtain rfl := Option.some.inj hd
      exact ⟨x, h.grown_pool (.refl h.cursor_le), rfl⟩
    · cases hd
  | swapped =>
    dsimp only at hd
    split at hd
    · cases hd
    rename_i locs pool happ
    split at hd
    · cases hd
    · -- graph and snapshot are still the old ones
      obtain rfl := Option.some.inj hd
      exact ⟨_, h.grown_swap hread happ x.graph x.snapshot, rfl⟩
  | persisted =>
    -- the call is over but for its return
    have hy := h.compact_grown A order avail
    dsimp only at hd
    split at hd
    · cases hd
    · rename_i live' y hc
      rw [hc] at hy
      obtain rfl := Option.some.inj hd
      exact ⟨y, hy, rfl⟩

end VectorIndex

namespace VecHost

variable {n segSize : Nat} {h : VecHost} {x y : VectorIndex} (A : F32Arith)

/-- No pair of slices that `ev` may pass to `simd::distance` makes it panic. -/
def Comparable (segSize : Nat) (h : VecHost) (ev : VecEvent) : Prop :=
  ∀ a b, DistanceCall segSize h ev a b → a.length = b.length

/-- A removal of files spares the file being written; an open or a call keeps the dimension of
    the stored vectors. -/
def Keeps (segSize : Nat) (h : VecHost) : DirEvent → Prop
  | .call ev => h.KeepsDim segSize ev
  | ev => h.Spares ev

/-- A step that keeps the dimension reclaims no segment in use. -/
theorem Keeps.spares {ev : DirEvent} (hk : h.Keeps segSize ev) : h.Spares ev := by
  cases ev with
  | call ev => cases h <;> trivial
  | _ => exact hk

instance (h : VecHost) : Decidable h.Short :=
  inferInstanceAs (Decidable (∀ schema ∈ h.schema, _))

instance (n : Nat) (items : List (NodeId × List F32)) : ∀ h : VecHost, Decidable (h.Stores n items)
  | .closed _ => .isFalse fun hf => hf
  | .opened x => inferInstanceAs (Decidable (x.Stores n items))

instance (segSize : Nat) (h : VecHost) : ∀ ev : VecEvent, Decidable (h.KeepsDim segSize ev)
  | .open schema =>
    inferInstanceAs (Decidable (h.table.entries ≠ [] → ∃ old ∈ h.schema, schema.dim = old.dim))
  | .insert id vector =>
    inferInstanceAs (Decidable (h.Stores _ [(id, vector)] → h.Short))
  | .insertBatch items => inferInstanceAs (Decidable (h.Stores _ items → h.Short))
  | .reopen _ => .isTrue trivial
  | .delete _ => .isTrue trivial
  | .compact _ _ => .isTrue trivial
  | .checkpoint => .isTrue trivial
  | .searchKnn _ => .isTrue trivial

instance (segSize : Nat) (h : VecHost) : ∀ ev : DirEvent, Decidable (h.Keeps segSize ev)
  | .call ev => inferInstanceAs (Decidable (h.KeepsDim segSize ev))
  | .reclaim safe segIds => inferInstanceAs (Decidable (h.Spares (.reclaim safe segIds)))
  | .killAppend items => inferInstanceAs (Decidable (h.Spares (.killAppend items)))
  | .killCompact order avail point =>
    inferInstanceAs (Decidable (h.Spares (.killCompact order avail point)))
  | .powerLoss => inferInstanceAs (Decidable (h.Spares .powerLoss))

/-- Table, cache and the durable copy of the table name vectors of their schema's dimension. -/
structure Alike (n : Nat) (h : VecHost) : Prop where
  sound : h.Sound n
  uniform : h.Uniform
  durable : ∀ env ∈ h.dir.vecMeta, env.durable.Alike

/-- A call that adds right locators only. -/
theorem Alike.grown {new : Prop} (ha : (opened x).Alike n) (hg : VectorIndex.Grown n new x y)
    (hnew : new → x.schema.dim * 4 < 2 ^ 32) : (opened y).Alike n where
  sound := ha.sound.grown hg
  uniform := ha.uniform.grown hg hnew
  durable := by
    rintro env ⟨⟩
    rw [hg.durable]
    exact ha.durable x.env rfl

/-- The files of an index without the process, whatever has become of the segments. -/
theorem Alike.closed (ha : (opened x).Alike n) {d : VecDir} (hd : d.vecMeta = some x.env) :
    (VecHost.closed d).Alike n := by
  have hschema : (VecHost.closed d).schema = (opened x).schema := by
    show d.persisted = some x.schema
    rw [VecDir.persisted, hd]
    exact (ha.sound.steady x rfl).schema
  -- the locators are those of the table
  have hloc : ∀ id loc, (VecHost.closed d).Locates id loc → (opened x).Locates id loc := by
    intro id loc hl
    have htable : (VecHost.closed d).table = x.env.volatile.locatorDb := by
      show d.locatorDb = _
      rw [VecDir.locatorDb, hd]
    refine Or.inl ?_
    have hl' := hl.resolve_right fun hf => hf
    rw [htable] at hl'
    exact hl'
  refine ⟨⟨fun id loc hl => ha.sound.short id loc (hloc id loc hl), fun _ _ _ => ?_,
    fun y hy => ?_⟩, ?_, fun env hmem => ?_⟩
  · -- the files hold a schema
    rw [hschema]
    rfl
  · cases hy
  · intro schema hmem id loc hl
    rw [hschema] at hmem
    exact ha.uniform schema hmem id loc (hloc id loc hl)
  · obtain rfl : x.env = env := Option.some.inj (hd.symm.trans hmem)
    exact ha.durable x.env rfl

/-- After a power loss the durable copy is the table. -/
theorem Alike.powerLoss (ha : h.Alike n) : (VecHost.closed h.dir.powerLoss).Alike n := by
  -- what is durable has a schema of its own
  have hloc : ∀ id loc, (VecHost.closed h.dir.powerLoss).Locates id loc →
      ∃ schema, (VecHost.closed h.dir.powerLoss).schema = some schema ∧
        loc.len = schema.dim * 4 ∧ loc.len < 2 ^ 32 := by
    intro id loc hl
    have hl' : h.dir.powerLoss.locatorDb.lookup id = some loc := hl.resolve_right fun hf => hf
    show ∃ schema, h.dir.powerLoss.persisted = some schema ∧ _
    unfold VecDir.locatorDb VecDir.powerLoss at hl'
    unfold VecDir.persisted VecDir.powerLoss
    cases hm : h.dir.vecMeta with
    | none =>
      rw [hm] at hl'
      exact nomatch hl'
    | some env =>
      rw [hm] at hl'
      exact ha.durable env hm id loc hl'
  refine ⟨⟨fun id loc hl => ?_, fun id loc hl => ?_, fun _ hx => nomatch hx⟩, ?_, ?_⟩
  · obtain ⟨-, -, -, hlt⟩ := hloc id loc hl
    exact hlt
  · obtain ⟨schema, hs, -⟩ := hloc id loc hl
    rw [hs]
    rfl
  · intro schema hmem id loc hl
    obtain ⟨schema', hs, hlen, -⟩ := hloc id loc hl
    obtain rfl : schema' = schema := Option.some.inj (hs.symm.trans hmem)
    exact hlen
  · intro env hmem
    obtain ⟨old, hold, rfl⟩ := Option.mem_map.mp hmem
    exact ha.durable old hold

/-- An open leaves the durable copy alone; a new environment has none. -/
theorem Alike.restored {schema : Option VectorSchema} {h' : VecHost} (ha : h.Alike n)
    (hr : Restored n h.dir schema h') : ∀ env ∈ h'.dir.vecMeta, env.durable.Alike := by
  intro env hmem
  rw [hr.durable env hmem]
  cases hm : h.dir.vecMeta with
  | none => exact fun id loc hl => nomatch hl
  | some old => exact ha.durable old hm

/-- A call that keeps the dimension keeps the lengths alike. -/
theorem Alike.step (ha : h.Alike (VecSegmentPool.sizeOf segSize)) {ev : VecEvent}
    (hk : h.KeepsDim segSize ev) : (h.step A segSize ev).Alike (VecSegmentPool.sizeOf segSize) where
  sound := ha.sound.step A ev
  uniform := ha.uniform.step A ha.sound hk
  durable := by
    obtain ⟨schema, -, hr⟩ | ⟨order, -, hr⟩ | he | ⟨x, y, new, rfl, he, hg, -⟩ :=
      step_cases A ha.sound ev
    · exact ha.restored hr
    · exact ha.restored hr
    · rw [he]
      exact ha.durable
    · rw [he]
      rintro env ⟨⟩
      rw [hg.durable]
      exact ha.durable x.env rfl

/-- One event keeps the dimension in both copies of the table. -/
theorem Alike.dirStep (ha : h.Alike (VecSegmentPool.sizeOf segSize)) {ev : DirEvent}
    (hk : h.Keeps segSize ev) : (h.dirStep A segSize ev).Alike (VecSegmentPool.sizeOf segSize) := by
  cases ev with
  | call ev => exact ha.step A hk
  | powerLoss => exact ha.powerLoss
  | reclaim safe segIds =>
    -- a closed host has nothing to reclaim, to append to or to compact
    cases h with
    | closed d => exact ha
    | opened x =>
      exact ha.grown ((ha.sound.steady x rfl).reclaimSegments_grown safe segIds) fun hn => hn.elim
  | killAppend items =>
    cases h with
    | closed d => exact ha
    -- the appends move the pool and leave the table
    | opened x => exact ha.closed rfl
  | killCompact order avail point =>
    cases h with
    | closed d => exact ha
    | opened x =>
      unfold VecHost.dirStep
      dsimp only
      split
      · -- the call does not get to this point
        exact ha
      · -- copies are as short as the vectors they are made from
        rename_i d hd
        obtain ⟨y, hg, hy⟩ := (ha.sound.steady x rfl).compactDir_grown A hd
        exact (ha.grown hg fun hne => ha.uniform.short ha.sound hne x.schema rfl).closed hy

/-- In every run that keeps the dimension, the stored vectors have the one of the schema. -/
theorem alike_of_guarded {es : List DirEvent}
    (hrun : Run.Guarded (VecHost.dirStep A segSize) (Keeps segSize) (.closed .empty) es) :
    (Run.exec (VecHost.dirStep A segSize) (.closed .empty) es).Alike
      (VecSegmentPool.sizeOf segSize) := by
  refine hrun.invariant (Alike (VecSegmentPool.sizeOf segSize))
    (fun h ev ha hk => ha.dirStep A hk) ?_
  exact ⟨(SchemaRun.sound_start _).host, fun _ hs => (nomatch hs), fun _ hmem => nomatch hmem⟩

/-- Then no call asks for a distance that panics. -/
theorem Alike.comparable (ha : h.Alike (VecSegmentPool.sizeOf segSize)) {ev : VecEvent}
    (hk : h.KeepsDim segSize ev) : h.Comparable segSize ev :=
  fun _ _ hd => ha.uniform.distances ha.sound hk hd

end VecHost

end FusionStore
