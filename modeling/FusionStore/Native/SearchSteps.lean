import FusionStore.Native.VectorStore

/-!
# Concurrent searches

Calls of `VectorIndex::search_knn` on one index share the flag `read_error`: a call clears it,
its distance closure sets it when a vector cannot be read, and the call reads it when the
traversal is over.  Each of these accesses is one step here, and the steps of any number of
calls interleave.  The vectors themselves are read under shared locks, so a read is a step
that succeeds or fails.
-/

namespace FusionStore

/-- The error a search reports. -/
def searchError : StoreError :=
  .corrupt "vector segment read failed during knn — result unreliable"

/-- The steps of the calls; a call is named by its place in the order of their beginnings. -/
inductive SearchStep where
  | begin
  | readOk (i : Nat)
  | readFailed (i : Nat)
  | finish (i : Nat)
  deriving DecidableEq

/-- A call: whether its own closure failed to read a vector, whether any closure did since it
    began, and what it returned. -/
structure SearchCall where
  ownFailed : Bool
  anyFailed : Bool
  result : Option (Except StoreError Unit)
  deriving DecidableEq

/-- A failed read, as the call that made it and as another call sees it. -/
def SearchCall.noteFailure (own : Bool) (c : SearchCall) : SearchCall :=
  if c.result = none then { c with ownFailed := c.ownFailed || own, anyFailed := true } else c

/-- The flag with the calls, and the steps taken so far, the latest first. -/
structure Searches where
  readError : Bool
  calls : List SearchCall
  past : List SearchStep

namespace Searches

/-- An index nobody is searching. -/
def start : Searches := ⟨false, [], []⟩

/-- The call is on its way. -/
def Running (σ : Searches) (i : Nat) : Prop := ∃ c, σ.calls[i]? = some c ∧ c.result = none

instance (σ : Searches) (i : Nat) : Decidable (σ.Running i) :=
  decidable_of_iff (∃ c ∈ σ.calls[i]?, c.result = none) Iff.rfl

/-- `search_knn`, one step of one call.  A call that is not on its way takes none. -/
def step (σ : Searches) : SearchStep → Searches
  -- `read_error.store(false)`
  | .begin => ⟨false, σ.calls ++ [⟨false, false, none⟩], .begin :: σ.past⟩
  | .readOk i => if σ.Running i then { σ with past := .readOk i :: σ.past } else σ
  -- `err_flag.store(true)` in the distance closure
  | .readFailed i =>
    if σ.Running i then
      ⟨true, σ.calls.mapIdx fun j c => c.noteFailure (decide (j = i)),
        .readFailed i :: σ.past⟩
    else σ
  -- `read_error.load()` after the traversal
  | .finish i =>
    if σ.Running i then
      let res := if σ.readError then .error searchError else .ok ()
      { σ with
        calls := σ.calls.modify i fun c => { c with result := some res }
        past := .finish i :: σ.past }
    else σ

end Searches

namespace VectorIndex

/-- The steps of a call `i` that reads the vectors `ids`. -/
def searchSteps (x : VectorIndex) (i : Nat) (ids : List NodeId) : List SearchStep :=
  .begin :: (ids.map fun id =>
    if (x.vecSlice id).toOption.isNone then .readFailed i else .readOk i) ++ [.finish i]

/-- The vectors `graph.search_knn` asks the distance closure for. -/
def visitedBy (A : F32Arith) (x : VectorIndex) (query : List F32) (topK : Nat)
    (expired : Nat → Bool) : List NodeId :=
  match x.graph.entryPoint with
  | some entry =>
    (x.graph.searchState (x.distTo A query) (max x.schema.efSearch topK) entry expired).visited
  | none => []

end VectorIndex

end FusionStore
