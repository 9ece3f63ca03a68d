import FusionStore.Native.Session

/-!
# Concurrent clients

Several threads share one open engine.  A write takes the `wal` mutex for the append and
the lock of its submodule for the rest, one after the other, so other threads run in
between; so do they between the steps of `Engine::checkpoint`.  Each step below is what
one thread does under one lock.

The acknowledged writes are kept with the next sequence number at the time of their
acknowledgement: a write that was logged only afterwards has at least that number.
A panic is not modelled here; a write that panics is one that is not acknowledged.
-/

namespace FusionStore

/-- A write that is in the log and has not been applied. -/
structure InFlight where
  seq : Nat
  write : Write

/-- An acknowledged write. -/
structure Done where
  seq : Nat
  op : WalOp
  ackedAt : Nat
  deriving DecidableEq

/-- What a checkpoint does next. -/
inductive Stage where
  | flush
  | snapshot
  | truncate
  deriving DecidableEq

/-- A checkpoint on its way, with the `applied_seq` it read at its start. -/
structure Running where
  appliedSeq : Nat
  next : Stage

/-- An engine with the calls that are inside it. -/
structure Shared where
  engine : Engine
  inflight : List InFlight
  checkpoints : List Running
  done : List Done

/-- One step of one thread. -/
inductive Action where
  | append (w : Write)
  | apply (i : Nat) (locked : Bool)
  | begin
  | advance (i : Nat)

namespace Shared

/-- An engine nobody is calling. -/
def start (e : Engine) : Shared := ⟨e, [], [], []⟩

variable (A : F32Arith)

/-- The first half of a write, under the `wal` mutex. -/
def append (c : Shared) (w : Write) : Shared :=
  match c.engine.wal.append w.op with
  | .error _ => c
  | .ok (seq, wal) =>
    { c with engine := { c.engine with wal }, inflight := c.inflight ++ [⟨seq, w⟩] }

/-- The second half of the `i`-th write in flight. -/
def apply (c : Shared) (i : Nat) (locked : Bool) : Shared :=
  match c.inflight[i]? with
  | none => c
  | some p =>
    let inflight := c.inflight.eraseIdx i
    match c.engine.apply A locked p.write with
    | (.ok _, engine) =>
      { c with
        engine, inflight, done := c.done ++ [⟨p.seq, p.write.op, c.engine.wal.nextSeq⟩] }
    | (.error _, engine) => { c with engine, inflight }

/-- The next step of the `i`-th checkpoint: the flushes, the graph snapshot, or marker and
    truncation under one lock. -/
def advance (c : Shared) (i : Nat) : Shared :=
  match c.checkpoints[i]? with
  | none => c
  | some ⟨n, .flush⟩ =>
    { c with
      engine := c.engine.flushKv.flushCol, checkpoints := c.checkpoints.set i ⟨n, .snapshot⟩ }
  | some ⟨n, .snapshot⟩ =>
    { c with
      engine := c.engine.checkpointVec, checkpoints := c.checkpoints.set i ⟨n, .truncate⟩ }
  | some ⟨n, .truncate⟩ =>
    { c with
      engine := (c.engine.writeMarker n).truncateWal n, checkpoints := c.checkpoints.eraseIdx i }

/-- One step. -/
def step (c : Shared) : Action → Shared
  | .append w => c.append w
  | .apply i locked => c.apply A i locked
  | .begin => { c with checkpoints := c.checkpoints ++ [⟨c.engine.wal.nextSeq - 1, .flush⟩] }
  | .advance i => c.advance i

end Shared

end FusionStore
