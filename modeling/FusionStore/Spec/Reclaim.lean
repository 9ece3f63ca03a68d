import FusionStore.ForStd.Run
import FusionStore.Spec.SessionCorrect

/-!
# Reclaiming segments

`compact` returns the segments that were there when it began, the active one included,
and then appends the live vectors to the active segment while it has room.  So a segment
on the list may hold live vectors, and `reclaim_segments` removes its file all the same.
Removing a file is harmless only while no locator names it and nothing is written to it.
-/

namespace FusionStore

/-- The calls on one index.  `cached` are the segments in the handle cache, `safe` is what
    `reclaim_safe` says of each segment. -/
inductive IndexEvent where
  | insert (id : NodeId) (vector : List F32)
  | insertBatch (items : List (NodeId × List F32))
  | delete (id : NodeId)
  | compact (order : MapOrder) (avail : Option Nat) (cached : List Nat)
  | reclaim (i : Nat) (safe : Nat → Bool)

/-- An index with the lists its compactions have returned. -/
structure IndexRun where
  index : VectorIndex
  lists : List (List Nat)

namespace IndexRun

variable (A : F32Arith)

/-- One call; `reclaim i` passes the list of the `i`-th compaction. -/
def step (σ : IndexRun) : IndexEvent → IndexRun
  | .insert id vector => { σ with index := (σ.index.insert A id vector).2 }
  | .insertBatch items => { σ with index := (σ.index.insertBatch A items).2 }
  | .delete id => { σ with index := (σ.index.delete id).2 }
  | .compact order avail cached =>
    match σ.index.compact A order avail with
    | (.error _, index) => { σ with index }
    | (.ok _, index) => ⟨index, σ.lists ++ [σ.index.pool.allSegIds cached]⟩
  | .reclaim i safe =>
    match σ.lists[i]? with
    | none => σ
    | some segIds => { σ with index := (σ.index.reclaimSegments safe segIds).2 }

/-- Every locator names a file, and `reopen` gives back the vector of every live id. -/
structure Intact (σ : IndexRun) (segSize : Nat) : Prop where
  files : ∀ id loc, σ.index.env.volatile.locatorDb.lookup id = some loc →
    loc.segId ∈ σ.index.pool.dir.files
  reopened : ∀ order, ∃ y, (VectorIndex.reopen A σ.index.dir segSize order).1 = .ok y ∧
    ∀ id ∈ σ.index.listVectorIds, ∃ v,
      σ.index.getVector id = .ok (some v) ∧ y.getVector id = .ok (some v)

/-- A list is passed to `reclaim_segments` only while none of its segments, those apart
    that `reclaim_safe` holds back, is being written or named by a locator. -/
def FreeStep (σ : IndexRun) : IndexEvent → Prop
  | .reclaim i safe => ∀ segId ∈ (σ.lists[i]?).getD [], safe segId = true →
    segId ≠ σ.index.pool.activeId ∧
      ∀ e ∈ heedIter σ.index.env.volatile.locatorDb, e.2.segId ≠ segId
  | _ => True

instance (σ : IndexRun) (ev : IndexEvent) : Decidable (σ.FreeStep ev) := by
  cases ev with
  | reclaim i safe =>
    exact @List.decidableBAll _ _ (fun segId => @instDecidableForall _ _ inferInstance
      (@instDecidableAnd _ _ inferInstance (List.decidableBAll _ _))) _
  | _ => exact .isTrue trivial

end IndexRun

namespace VectorIndex

variable {n : Nat} {x : VectorIndex} (A : F32Arith)

/-- A file nobody uses may go. -/
private theorem inv_removeFile (h : x.InvAt n) {segId : Nat} (hactive : segId ≠ x.pool.activeId)
    (hfree : ∀ e ∈ heedIter x.env.volatile.locatorDb, e.2.segId ≠ segId) :
    ({ x with pool := x.pool.removeFile segId } : VectorIndex).InvAt n := by
  have hkept : ∀ f ∈ x.pool.dir.files, f ≠ segId → f ∈ (x.pool.removeFile segId).dir.files :=
    fun f hf hne => List.mem_filter.mpr ⟨hf, decide_eq_true hne⟩
  refine ⟨⟨⟨h.pool.writer.cursor_le, ?_, ?_⟩, h.pool.slots, h.pool.aligned⟩, h.segSize, h.dim,
    h.schema,
    h.cache, ?_, h.graph, h.nodes, h.snapshot⟩
  · exact hkept _ h.pool.writer.mem (Ne.symm hactive)
  · exact fun f hf => h.pool.writer.le f (List.mem_of_mem_filter hf)
  · intro id loc hl
    obtain ⟨⟨hmem, hend, hbefore⟩, hlen⟩ := h.holds id loc hl
    exact ⟨⟨hkept _ hmem (hfree (id, loc) (mem_heedIter.mpr hl)), hend, hbefore⟩, hlen⟩

/-- Reclaiming segments without a locator keeps the invariant. -/
theorem inv_reclaimSegments (h : x.InvAt n) {safe : Nat → Bool} {segIds : List Nat}
    (hfree : ∀ segId ∈ segIds, safe segId = true → segId ≠ x.pool.activeId ∧
      ∀ e ∈ heedIter x.env.volatile.locatorDb, e.2.segId ≠ segId) :
    (x.reclaimSegments safe segIds).2.InvAt n := by
  induction segIds generalizing x with
  | nil => exact h
  | cons segId segIds ih =>
    unfold reclaimSegments
    have hrest := fun s hs => hfree s (List.mem_cons_of_mem _ hs)
    split
    · rename_i hsafe
      obtain ⟨hactive, hnamed⟩ := hfree segId List.mem_cons_self hsafe
      exact ih (inv_removeFile h hactive hnamed) hrest
    · exact ih h hrest

/-- An index that keeps its invariant reads the same after a restart. -/
theorem reopened_of_inv (h : x.InvAt n) {segSize : Nat}
    (hsize : VecSegmentPool.sizeOf segSize = n) (hle : n ≤ u32Max) (order : MapOrder) :
    ∃ y, (reopen A x.dir segSize order).1 = .ok y ∧ ∀ id ∈ x.listVectorIds, ∃ v,
      x.getVector id = .ok (some v) ∧ y.getVector id = .ok (some v) := by
  obtain ⟨y, hre, hy, -, hcell⟩ := reopen_ok A h.dir hsize hle rfl order
  refine ⟨y, by rw [hre], fun id hid => ?_⟩
  obtain ⟨v, hv⟩ := Option.ne_none_iff_exists'.mp ((mem_listVectorIds h id).mp hid)
  have hlive : x.cell id = .live v := by
    cases hc : x.cell id <;> simp_all [Cell.visible]
  refine ⟨v, by rw [getVector_eq h, hv], ?_⟩
  rw [getVector_eq hy, hcell id, stored_dir, hlive]
  rfl

end VectorIndex

namespace IndexRun

variable {n segSize : Nat} {σ : IndexRun} (A : F32Arith)

/-- Each event keeps it, a reclaim if it is free. -/
private theorem inv_step (h : σ.index.InvAt n) {ev : IndexEvent} (hev : σ.FreeStep ev) :
    (σ.step A ev).index.InvAt n := by
  cases ev with
  | insert id vector =>
    show (σ.index.insert A id vector).2.InvAt n
    -- refused, stored, or panicked in the append
    obtain ⟨-, he⟩ | ⟨-, -, he⟩ | ⟨-, -, -, y, he, hy, -⟩ | ⟨-, -, -, msg, y, he, hy, -⟩ :=
      VectorIndex.insert_cases A h id vector <;> rw [he]
    · exact h
    · exact h
    · exact hy
    · exact hy
  | insertBatch items => exact (VectorIndex.insertBatch_spec A h items).1
  | delete id => exact (VectorIndex.delete_spec h id).1
  | compact order avail cached =>
    have hspec := (VectorIndex.compact_spec A h order avail).1
    cases hc : σ.index.compact A order avail with
    | mk r y =>
      rw [hc] at hspec
      cases r <;> simpa only [step, hc] using hspec
  | reclaim i safe =>
    -- there is no such list to reclaim
    cases hl : σ.lists[i]? with
    | none => simpa only [step, hl] using h
    -- the list is the one that some compaction returned
    | some segIds =>
      simp only [FreeStep, hl, Option.getD_some] at hev
      simpa only [step, hl] using VectorIndex.inv_reclaimSegments h hev

/-- In every run that reclaims only lists of free segments, no file of a live vector is
    missing and a restart loses nothing. -/
theorem intact_of_guarded (schema : VectorSchema) (segSize : Nat)
    (hsize : VecSegmentPool.sizeOf segSize ≤ u32Max) {x : VectorIndex}
    (hopen : (VectorIndex.open .empty schema segSize).1 = .ok x) (evs : List IndexEvent)
    (hrun : Run.Guarded (step A) FreeStep ⟨x, []⟩ evs) :
    (Run.exec (step A) ⟨x, []⟩ evs).Intact A segSize := by
  obtain ⟨hinv, -, -⟩ := VectorIndex.open_empty (VecSegmentPool.addressable_of_le hsize _) hopen
  have h : (Run.exec (step A) ⟨x, []⟩ evs).index.InvAt (VecSegmentPool.sizeOf segSize) :=
    hrun.invariant (fun σ : IndexRun => σ.index.InvAt (VecSegmentPool.sizeOf segSize))
      (fun σ ev hσ hev => inv_step A hσ hev) hinv
  exact ⟨fun id loc hl => (h.holds id loc hl).1.1,
    fun order => VectorIndex.reopened_of_inv A h rfl hsize order⟩

/-- Two vectors fill the first of these segments, so the compaction writes to the second
    one and the first may go. -/
theorem intact_of_full_segment : ∃ x,
    (VectorIndex.open .empty flatSchema 8).1 = .ok x ∧
    (Run.exec (step zeroArith) ⟨x, []⟩ [.insert 1 [0], .insert 2 [0], .compact .id none [],
      .reclaim 0 fun _ => true]).Intact zeroArith 8 :=
  ⟨_, rfl, intact_of_guarded zeroArith flatSchema 8 (by decide) rfl _ (by decide +kernel)⟩

/-- One vector leaves room in its segment: the compaction copies it within the file that
    is then removed, and the restart makes an empty file in its place. -/
theorem live_vector_reclaimed : ∃ x, (VectorIndex.open .empty flatSchema 0).1 = .ok x ∧
    let σ := Run.exec (step zeroArith) ⟨x, []⟩
      [.insert 1 [1], .compact .id none [], .reclaim 0 fun _ => true]
    σ.index.env.volatile.locatorDb.lookup 1 = some ⟨0, 4, 4⟩ ∧ σ.index.pool.dir.files = [] ∧
      σ.index.getVector 1 = .ok (some [1]) ∧
      (∃ y, (VectorIndex.reopen zeroArith σ.index.dir 0 .id).1 = .ok y ∧
        y.getVector 1 = .ok (some [0])) ∧
      ¬σ.Intact zeroArith 0 := by
  refine ⟨_, rfl, ?_⟩
  intro σ
  have hloc : σ.index.env.volatile.locatorDb.lookup 1 = some ⟨0, 4, 4⟩ := by decide +kernel
  have hfiles : σ.index.pool.dir.files = [] := by decide +kernel
  refine ⟨hloc, hfiles, by decide +kernel, ⟨_, rfl, by decide +kernel⟩, fun h => ?_⟩
  have hmem := h.files 1 _ hloc
  rw [hfiles] at hmem
  exact nomatch hmem

end IndexRun

end FusionStore
