import FusionStore.ForStd.Run
import FusionStore.Spec.SegmentCorrect

/-!
# Segments across restarts

A pool only ever writes at its cursor and behind it, so within one process no locator is
ever written over.  A new process takes the write position from the `active.cursor`
sidecar, which is replaced on a flush and on a rotation only: what was appended since
then lies behind it.
-/

namespace FusionStore

open SegMem

/-- The calls on one pool. -/
inductive PoolOp where
  | append (payload : Bytes)
  | appendAligned (payload : Bytes) (align : Nat)
  | flush
  | rewind (segId offset : Nat)

/-- A call that returns, or a kill at the `i`-th point inside of it, after which the
    directory is opened again. -/
inductive PoolEvent where
  | call (op : PoolOp)
  | kill (op : PoolOp) (i : Nat)

/-- A pool with the locators it has handed out, each with the bytes it stands for; a
    rewind takes back those behind its target. -/
structure PoolRun where
  pool : SegmentPool
  handed : List (ValueLocator × Bytes)

namespace PoolRun

/-- A new directory. -/
def start (segSize : Nat) : PoolRun := ⟨.open .empty segSize, []⟩

/-- A locator that was handed out together with what it stands for. -/
private def receive (σ : PoolRun) (payload : Bytes) :
    Except StoreError ValueLocator × SegmentPool → PoolRun
  | (.ok loc, pool) => ⟨pool, σ.handed ++ [(loc, payload)]⟩
  | (.error _, pool) => ⟨pool, σ.handed⟩

/-- One call. -/
def call (σ : PoolRun) : PoolOp → PoolRun
  | .append payload => σ.receive payload (σ.pool.append payload)
  | .appendAligned payload align => σ.receive payload (σ.pool.appendAligned payload align)
  | .flush => { σ with pool := σ.pool.flush }
  | .rewind segId offset =>
    match σ.pool.rewindActiveTo segId offset with
    | .error _ => σ
    | .ok pool => ⟨pool, σ.handed.filter fun h =>
        ¬(h.1.segId = segId ∧ segId = σ.pool.activeId ∧ offset < h.1.offset + h.1.len)⟩

/-- The directory at each point inside a call. -/
def trace (σ : PoolRun) : PoolOp → List SegDir
  | .append payload => σ.pool.appendTrace payload
  | .appendAligned payload align => σ.pool.appendAlignedTrace payload align
  | .flush => σ.pool.flushTrace
  | .rewind _ _ => [σ.pool.dir]

/-- What a kill at the `i`-th point of a call leaves. -/
def killed (σ : PoolRun) (op : PoolOp) (i : Nat) : SegDir := ((σ.trace op)[i]?).getD σ.pool.dir

/-- One event; the directory is opened again with the same segment size. -/
def step (segSize : Nat) (σ : PoolRun) : PoolEvent → PoolRun
  | .call op => σ.call op
  | .kill op i => { σ with pool := .open (σ.killed op i) segSize }

/-- Two ranges of segment bytes that do not meet. -/
def Apart (a b : ValueLocator) : Prop :=
  a.segId ≠ b.segId ∨ a.offset + a.len ≤ b.offset ∨ b.offset + b.len ≤ a.offset

/-- No append has gone into the range of an earlier one, and what was handed out is still
    there. -/
structure AppendOnly (σ : PoolRun) : Prop where
  apart : σ.handed.Pairwise fun a b => Apart a.1 b.1
  intact : ∀ h ∈ σ.handed,
    σ.pool.dir.mem.volatile.read h.1.segId h.1.offset h.1.len = h.2

/-- A directory is opened again only while every locator handed out lies before the
    recorded cursor, or while there is no recorded cursor. -/
def CoveredStep (σ : PoolRun) : PoolEvent → Prop
  | .call _ => True
  | .kill op i => ∀ h ∈ σ.handed, SegmentPool.Recorded (σ.killed op i) h.1

instance (σ : PoolRun) (ev : PoolEvent) : Decidable (σ.CoveredStep ev) := by
  cases ev with
  | call op => exact .isTrue trivial
  | kill op i => exact List.decidableBAll _ _

end PoolRun

/-! ### Directories and pools that keep what was handed out -/

variable {handed : List (ValueLocator × Bytes)}

/-- The bytes behind every locator are there. -/
private def SegDir.Keeping (handed : List (ValueLocator × Bytes)) (d : SegDir) : Prop :=
  ∀ h ∈ handed, h.1.segId ∈ d.files ∧ d.mem.volatile.read h.1.segId h.1.offset h.1.len = h.2

/-- They are there and lie before the write position. -/
private structure SegmentPool.Keeping (handed : List (ValueLocator × Bytes)) (p : SegmentPool) :
    Prop where
  dir : p.dir.Keeping handed
  before : ∀ h ∈ handed, Before h.1.segId h.1.offset h.1.len p.activeId p.activeCursor
  active : p.activeId ∈ p.dir.files

namespace SegDir

/-- A new segment. -/
private theorem Keeping.createSeg {d : SegDir} (h : d.Keeping handed) (id : Nat) :
    (d.createSeg id).Keeping handed := by
  intro x hx
  obtain ⟨hmem, hread⟩ := h x hx
  exact ⟨mem_createSeg.mpr (Or.inr hmem), by rw [read_createSeg hmem, hread]⟩

/-- Bytes behind all that was handed out. -/
private theorem Keeping.store {d : SegDir} (h : d.Keeping handed) {seg off : Nat}
    (hb : ∀ x ∈ handed, Before x.1.segId x.1.offset x.1.len seg off) (bs : Bytes) :
    (d.store seg off bs).Keeping handed := by
  intro x hx
  obtain ⟨hmem, hread⟩ := h x hx
  refine ⟨hmem, ?_⟩
  show (d.mem.volatile.write seg off bs).read _ _ _ = _
  rw [read_write_of_before (hb x hx), hread]

end SegDir

namespace SegmentPool

variable {p : SegmentPool}

/-- A rotation goes behind everything. -/
private theorem Keeping.rotate (h : p.Keeping handed) : p.sealAndRotate.Keeping handed where
  dir := SegDir.Keeping.createSeg (d := p.dir.flushSeg p.activeId) h.dir _
  before := by
    intro x hx
    refine (h.before x hx).mono (Or.inl ?_)
    show p.activeId < p.activeId + 1
    omega
  active := SegDir.mem_createSeg.mpr (Or.inl rfl)

/-- So does every state inside it. -/
private theorem Keeping.rotateTrace (h : p.Keeping handed) :
    ∀ d ∈ p.rotateTrace, d.Keeping handed := by
  have hcreated := SegDir.Keeping.createSeg (d := p.dir.flushSeg p.activeId) h.dir (p.activeId + 1)
  intro d hd
  simp only [SegmentPool.rotateTrace, List.mem_cons, List.not_mem_nil, or_false] at hd
  obtain rfl | rfl | rfl | rfl := hd
  · exact h.dir
  · exact h.dir
  · exact hcreated
  · exact hcreated

/-- The pool an append writes to. -/
private def withRoom (p : SegmentPool) (n : Nat) : SegmentPool :=
  if n > p.remaining then p.sealAndRotate else p

/-- The pool an append writes into. -/
private theorem Keeping.withRoom (h : p.Keeping handed) (n : Nat) :
    (p.withRoom n).Keeping handed := by
  unfold SegmentPool.withRoom
  split
  · exact h.rotate
  · exact h

/-- An append that returns hands out the range at the cursor. -/
private theorem Keeping.append (h : p.Keeping handed) (payload : Bytes) :
    ((p.append payload).2.Keeping handed ∧ ∃ err, (p.append payload).1 = .error err) ∨
    ∃ loc, (p.append payload).1 = .ok loc ∧
      (p.append payload).2.Keeping (handed ++ [(loc, payload)]) ∧
      ∀ x ∈ handed, Before x.1.segId x.1.offset x.1.len loc.segId loc.offset := by
  -- a rotation first, if the payload does not fit
  have hq := h.withRoom payload.length
  unfold SegmentPool.append
  split
  · exact Or.inl ⟨h, _, rfl⟩
  simp only [show (if payload.length > p.remaining then p.sealAndRotate else p) =
    p.withRoom payload.length from rfl]
  generalize p.withRoom payload.length = q at hq
  split
  · -- the two refusals hand out nothing
    exact Or.inl ⟨hq, _, rfl⟩
  split
  · exact Or.inl ⟨hq, _, rfl⟩
  · refine Or.inr ⟨_, rfl, ⟨?_, ?_, hq.active⟩, hq.before⟩
    · -- the bytes handed out before lie before the new ones
      intro x hx
      simp only [List.mem_append, List.mem_singleton] at hx
      obtain hx | rfl := hx
      · exact hq.dir.store hq.before payload x hx
      · exact ⟨hq.active, read_write_same _ _ _ _⟩
    · -- and so does the cursor, behind all of them
      intro x hx
      simp only [List.mem_append, List.mem_singleton] at hx
      obtain hx | rfl := hx
      · exact (hq.before x hx).mono (Or.inr ⟨rfl, Nat.le_add_right _ _⟩)
      · exact Or.inr ⟨rfl, Nat.le_refl _⟩

/-- A process killed inside an append. -/
private theorem Keeping.appendTrace (h : p.Keeping handed) (payload : Bytes) :
    ∀ d ∈ p.appendTrace payload, d.Keeping handed := by
  have hq := h.withRoom payload.length
  -- the images of a rotation
  have hrot : ∀ d ∈ (if payload.length > p.remaining then p.rotateTrace else [p.dir]),
      d.Keeping handed := by
    intro d hd
    split at hd
    · exact h.rotateTrace d hd
    · rw [List.mem_singleton] at hd
      exact hd ▸ h.dir
  intro d hd
  unfold SegmentPool.appendTrace at hd
  split at hd
  · rw [List.mem_singleton] at hd
    exact hd ▸ h.dir
  simp only [show (if payload.length > p.remaining then p.sealAndRotate else p) =
    p.withRoom payload.length from rfl] at hd
  split at hd
  · exact hrot d hd
  · obtain hd | hd := List.mem_append.mp hd
    · exact hrot d hd
    · -- a copy cut after some bytes
      obtain ⟨k, -, rfl⟩ := List.mem_map.mp hd
      exact hq.dir.store hq.before _

/-- Padding is handed out to nobody. -/
private theorem Keeping.weaken {more : List (ValueLocator × Bytes)}
    (h : p.Keeping (handed ++ more)) : p.Keeping handed where
  dir x hx := h.dir x (List.mem_append_left _ hx)
  before x hx := h.before x (List.mem_append_left _ hx)
  active := h.active

/-- An aligned append, pad and payload, or the error of either. -/
private theorem Keeping.appendAligned (h : p.Keeping handed) (payload : Bytes) (align : Nat) :
    ((p.appendAligned payload align).2.Keeping handed ∧
      ∃ err, (p.appendAligned payload align).1 = .error err) ∨
    ∃ loc, (p.appendAligned payload align).1 = .ok loc ∧
      (p.appendAligned payload align).2.Keeping (handed ++ [(loc, payload)]) ∧
      ∀ x ∈ handed, Before x.1.segId x.1.offset x.1.len loc.segId loc.offset := by
  unfold SegmentPool.appendAligned
  split
  · exact h.append payload
  dsimp only
  -- is there a pad, and does it fit?
  split
  · split
    · exact h.rotate.append payload
    · obtain ⟨hk, err, herr⟩ | ⟨loc, hloc, hk, -⟩ :=
        h.append (List.replicate ((align - p.activeCursor % align) % align) 0)
      · -- the pad was refused, and the payload is not tried
        revert hk herr
        generalize p.append (List.replicate ((align - p.activeCursor % align) % align) 0) = r
        obtain ⟨r, q⟩ := r
        rintro hk rfl
        exact Or.inl ⟨hk, err, rfl⟩
      · -- the pad is written; nobody was handed it
        revert hk hloc
        generalize p.append (List.replicate ((align - p.activeCursor % align) % align) 0) = r
        obtain ⟨r, q⟩ := r
        rintro rfl hk
        exact hk.weaken.append payload
  · exact h.append payload

/-- A process killed inside one. -/
private theorem Keeping.appendAlignedTrace (h : p.Keeping handed) (payload : Bytes)
    (align : Nat) : ∀ d ∈ p.appendAlignedTrace payload align, d.Keeping handed := by
  intro d hd
  unfold SegmentPool.appendAlignedTrace at hd
  split at hd
  · exact h.appendTrace payload d hd
  dsimp only at hd
  split at hd
  · split at hd
    · -- the pad does not fit: a rotation, then the payload
      obtain hd | hd := List.mem_append.mp hd
      · exact h.rotateTrace d hd
      · exact h.rotate.appendTrace payload d hd
    · split at hd
      · exact h.appendTrace _ d hd
      · -- the pad, then the payload behind it
        rename_i q hq
        have hk : q.Keeping handed := by
          obtain ⟨-, err, herr⟩ | ⟨loc', -, hk, -⟩ := h.append (List.replicate _ 0)
          · rw [hq] at herr
            exact nomatch herr
          · rw [hq] at hk
            exact hk.weaken
        obtain hd | hd := List.mem_append.mp hd
        · exact h.appendTrace _ d hd
        · exact hk.appendTrace payload d hd
  · exact h.appendTrace payload d hd

/-- A directory is opened at its recorded cursor, or with a new segment behind all
    others. -/
private theorem keeping_open {d : SegDir} (h : d.Keeping handed)
    (hrec : ∀ x ∈ handed, Recorded d x.1) (segSize : Nat) :
    («open» d segSize).Keeping handed := by
  -- a new segment lies behind everything
  have hnew : ∀ x ∈ handed, Before x.1.segId x.1.offset x.1.len d.nextSegId 0 :=
    fun x hx => Or.inl (SegDir.lt_nextSegId (h x hx).1)
  -- the recorded cursor lies behind everything, too
  have hopen : ∃ id c, (∀ x ∈ handed, Before x.1.segId x.1.offset x.1.len id c) ∧
      «open» d segSize =
        ⟨d.createSeg id, if segSize = 0 then defaultSegmentSize else segSize, id, c⟩ := by
    unfold SegmentPool.open
    cases hcur : d.cursor with
    | none => exact ⟨_, _, hnew, rfl⟩
    | some q =>
      obtain ⟨sid, c⟩ := q
      dsimp only
      by_cases hok : sid ∈ d.files ∧ c ≤ if segSize = 0 then defaultSegmentSize else segSize
      · refine ⟨sid, c, fun x hx => hrec x hx (sid, c) hcur, ?_⟩
        rw [if_pos hok]
      · refine ⟨d.nextSegId, 0, hnew, ?_⟩
        rw [if_neg hok]
  obtain ⟨id, c, hbefore, heq⟩ := hopen
  rw [heq]
  exact ⟨h.createSeg id, hbefore, SegDir.mem_createSeg.mpr (Or.inl rfl)⟩

end SegmentPool

/-! ### Runs -/

namespace PoolRun

variable {σ : PoolRun}

/-- What a run keeps. -/
private structure Held (σ : PoolRun) : Prop where
  keeping : σ.pool.Keeping σ.handed
  apart : σ.handed.Pairwise fun a b => Apart a.1 b.1

/-- What an append gives, in a run. -/
private theorem Held.receive (h : Held σ) {payload : Bytes}
    {r : Except StoreError ValueLocator × SegmentPool}
    (hr : (r.2.Keeping σ.handed ∧ ∃ err, r.1 = .error err) ∨
      ∃ loc, r.1 = .ok loc ∧ r.2.Keeping (σ.handed ++ [(loc, payload)]) ∧
        ∀ x ∈ σ.handed, Before x.1.segId x.1.offset x.1.len loc.segId loc.offset) :
    Held (σ.receive payload r) := by
  obtain ⟨r, q⟩ := r
  obtain ⟨hk, err, rfl⟩ | ⟨loc, rfl, hk, hbefore⟩ := hr
  · exact ⟨hk, h.apart⟩
  · refine ⟨hk, List.pairwise_append.mpr ⟨h.apart, List.pairwise_singleton _ _, ?_⟩⟩
    intro x hx y hy
    rw [List.mem_singleton] at hy
    subst hy
    have hb := hbefore x hx
    simp only [Before, Apart] at hb ⊢
    omega

/-- A call that returns. -/
private theorem Held.call (h : Held σ) (op : PoolOp) : Held (σ.call op) := by
  cases op with
  | append payload => exact h.receive (h.keeping.append payload)
  | appendAligned payload align => exact h.receive (h.keeping.appendAligned payload align)
  -- a flush moves nothing
  | flush => exact ⟨⟨h.keeping.dir, h.keeping.before, h.keeping.active⟩, h.apart⟩
  | rewind segId offset =>
    unfold PoolRun.call SegmentPool.rewindActiveTo
    by_cases hseg : segId = σ.pool.activeId
    · -- a target behind the cursor is refused
      by_cases hoff : offset > σ.pool.activeCursor
      · simp only [hseg, ne_eq, not_true_eq_false, if_false, if_pos hoff]
        exact h
      · simp only [hseg, ne_eq, not_true_eq_false, if_false, if_neg hoff]
        refine ⟨⟨?_, ?_, h.keeping.active⟩, h.apart.filter _⟩
        · exact fun x hx => h.keeping.dir x (List.mem_of_mem_filter hx)
        · -- what is left of the active segment ends before the target
          intro x hx
          obtain ⟨hmem, hkept⟩ := List.mem_filter.mp hx
          have hb := h.keeping.before x hmem
          have hend := of_decide_eq_true hkept
          simp only [true_and, not_and, Nat.not_lt] at hend
          simp only [Before] at hb ⊢
          omega
    · -- a sealed segment is not rewound, and nothing of it is given up
      simp only [ne_eq, hseg, not_false_eq_true, if_true]
      refine ⟨⟨?_, ?_, h.keeping.active⟩, h.apart.filter _⟩
      · exact fun x hx => h.keeping.dir x (List.mem_of_mem_filter hx)
      · exact fun x hx => h.keeping.before x (List.mem_of_mem_filter hx)

/-- A call that is killed. -/
private theorem Held.trace (h : Held σ) (op : PoolOp) :
    ∀ d ∈ σ.trace op, d.Keeping σ.handed := by
  cases op with
  | append payload => exact h.keeping.appendTrace payload
  | appendAligned payload align => exact h.keeping.appendAlignedTrace payload align
  | flush =>
    intro d hd
    simp only [PoolRun.trace, SegmentPool.flushTrace, List.mem_cons, List.not_mem_nil,
      or_false] at hd
    obtain rfl | rfl | rfl := hd
    · exact h.keeping.dir
    · exact h.keeping.dir
    · exact h.keeping.dir
  | rewind segId offset =>
    intro d hd
    obtain rfl := List.mem_singleton.mp hd
    exact h.keeping.dir

/-- The step lemma. -/
private theorem Held.step (h : Held σ) {ev : PoolEvent} (hev : σ.CoveredStep ev)
    (segSize : Nat) : Held (σ.step segSize ev) := by
  cases ev with
  | call op => exact h.call op
  | kill op i =>
    have hkilled : (σ.killed op i).Keeping σ.handed := by
      unfold killed
      cases hd : (σ.trace op)[i]? with
      | none => exact h.keeping.dir
      | some d => exact h.trace op d (List.mem_of_getElem? hd)
    exact ⟨SegmentPool.keeping_open hkilled hev segSize, h.apart⟩

/-- In every run that opens the directory only while the recorded cursor lies behind all
    locators, nothing that was handed out is ever written over. -/
theorem appendOnly_of_guarded (segSize : Nat) (evs : List PoolEvent)
    (hrun : Run.Guarded (step segSize) CoveredStep (start segSize) evs) :
    AppendOnly (Run.exec (step segSize) (start segSize) evs) := by
  have hstart : Held (start segSize) :=
    ⟨SegmentPool.keeping_open (by simp [SegDir.Keeping, start]) (by simp [start]) segSize, .nil⟩
  have h : Held (Run.exec (step segSize) (start segSize) evs) :=
    hrun.invariant Held (fun σ ev hσ hev => hσ.step hev segSize) hstart
  exact ⟨h.apart, fun x hx => (h.keeping.dir x hx).2⟩

/-- Kills after a flush, and inside an aligned append, with eight bytes a segment. -/
theorem appendOnly_of_flushed_kills :
    AppendOnly (Run.exec (step 8) (start 8)
      [.call (.append [1, 2, 3]), .call .flush, .kill (.append [4, 5]) 2,
        .call (.appendAligned [6, 7] 4), .call .flush, .kill (.appendAligned [8, 9, 9] 4) 5,
        .call (.append [9])]) :=
  appendOnly_of_guarded 8 _ (by decide +kernel)

/-- The second append is not covered by the recorded cursor: after the kill the third one
    goes to the same place. -/
theorem value_overwritten_after_kill :
    let σ := Run.exec (step 8) (start 8)
      [.call (.append [1]), .call .flush, .call (.append [2]), .kill .flush 0,
        .call (.append [3])]
    σ.handed = [(⟨0, 0, 1⟩, [1]), (⟨0, 1, 1⟩, [2]), (⟨0, 1, 1⟩, [3])] ∧
      σ.pool.dir.mem.volatile.read 0 1 1 = [3] ∧ ¬AppendOnly σ := by
  intro σ
  have hhanded : σ.handed = [(⟨0, 0, 1⟩, [1]), (⟨0, 1, 1⟩, [2]), (⟨0, 1, 1⟩, [3])] := by
    decide +kernel
  have hread : σ.pool.dir.mem.volatile.read 0 1 1 = [3] := by decide +kernel
  refine ⟨hhanded, hread, fun h => ?_⟩
  have hbytes := h.intact (⟨0, 1, 1⟩, [2]) (by simp [hhanded])
  rw [hread] at hbytes
  exact absurd hbytes (by decide)

end PoolRun

end FusionStore
