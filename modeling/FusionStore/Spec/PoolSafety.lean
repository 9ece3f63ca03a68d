import FusionStore.ForStd.Run
import FusionStore.Native.StoreSession
import FusionStore.Spec.AppendOnly

/-!
# What the segment pools can be given

`append` checks the length of a payload against `u32::MAX` and against the room left in the
active segment, but not against the size of a segment: a payload that no segment can hold
rotates and is then copied past the end of the mapping.  The source takes `seg_size` to be at
most `u32::MAX`, but nothing checks it; in a larger segment the cursor can pass `u32::MAX`,
and from then on everything that would still fit is refused.

## Key results

- `SegmentPool.appendAligned_outcome`: when a call panics, and when it goes through
- `AppendRun.takes_iff_of_le`: within the assumed bound, only the length matters
- `appends_kept_iff`: the runs in which every append is as expected, in both pools
-/

namespace FusionStore

/-- What is expected of an append of `len` bytes: it returns, refuses what no segment can
    hold, and after an earlier refusal still takes what a segment and a locator can hold. -/
def AppendKept (refused : Bool) (segSize len : Nat) (res : Except StoreError ValueLocator) :
    Prop :=
  Returns res ∧ (segSize < len → res.isOk = false) ∧
    (refused = true → len ≤ segSize → len ≤ u32Max → res.isOk = true)

instance (refused : Bool) (segSize len : Nat) (res : Except StoreError ValueLocator) :
    Decidable (AppendKept refused segSize len res) :=
  inferInstanceAs (Decidable (_ ∧ _ ∧ _))

namespace SegmentPool

/-- The bytes `append_aligned` puts in front of a payload. -/
def padding (p : SegmentPool) (align : Nat) : Nat :=
  if align ≤ 1 then 0 else (align - p.activeCursor % align) % align

/-- Where `append_aligned` offers the payload: behind the padding, or at the start of a new
    segment if the padding does not fit. -/
def alignedCursor (p : SegmentPool) (align : Nat) : Nat :=
  if p.remaining < p.padding align then 0 else p.activeCursor + p.padding align

/-- The padding fits the segment but not a locator. -/
def PaddingRefused (p : SegmentPool) (align : Nat) : Prop :=
  0 < p.padding align ∧ p.padding align ≤ p.remaining ∧
    (u32Max < p.padding align ∨ u32Max < p.activeCursor)

/-- The payload or its padding would go to an offset that no locator can hold. -/
def Beyond (p : SegmentPool) (len align : Nat) : Prop :=
  p.PaddingRefused align ∨
    (len ≤ p.segSize - p.alignedCursor align ∧ u32Max < p.alignedCursor align)

/-- A pool whose cursor is inside its segment, as `open` and every call leave it. -/
def InSegment (p : SegmentPool) : Prop := p.activeCursor ≤ p.segSize

/-- An append with room behind the cursor, at an offset a locator can hold. -/
theorem append_within {p : SegmentPool} (h : p.InSegment) {payload : Bytes}
    (hlen : payload.length ≤ u32Max) (hroom : payload.length ≤ p.remaining)
    (hcur : p.activeCursor ≤ u32Max) :
    p.append payload = (.ok ⟨p.activeId, p.activeCursor, payload.length⟩,
      { p with
        dir := p.dir.store p.activeId p.activeCursor payload
        activeCursor := p.activeCursor + payload.length }) := by
  have hend : p.activeCursor + payload.length ≤ p.segSize := by
    have hle : p.activeCursor ≤ p.segSize := h
    rw [remaining] at hroom
    omega
  simp only [append, gt_iff_lt, Nat.not_lt.mpr hlen, Nat.not_lt.mpr hroom, Nat.not_lt.mpr hcur,
    Nat.not_lt.mpr hend, ↓reduceIte]

/-- `append` from a cursor inside the segment: it panics on what fits a locator but no
    segment. -/
theorem append_outcome {p : SegmentPool} (h : p.InSegment) (payload : Bytes) :
    (p.append payload).2.InSegment ∧ (p.append payload).2.segSize = p.segSize ∧
      (isPanic (p.append payload).1 = true ↔
        p.segSize < payload.length ∧ payload.length ≤ u32Max) ∧
      ((p.append payload).1.isOk = true ↔
        payload.length ≤ p.segSize ∧ payload.length ≤ u32Max ∧
          ¬(payload.length ≤ p.remaining ∧ u32Max < p.activeCursor)) := by
  have hle : p.activeCursor ≤ p.segSize := h
  by_cases hlen : u32Max < payload.length
  · -- longer than a locator can say
    rw [append, if_pos hlen]
    simp only [isPanic, Except.isOk, Except.toBool, Bool.false_eq_true, false_iff, true_and,
      InSegment]
    omega
  have hshort := Nat.not_lt.mp hlen
  by_cases hroom : payload.length ≤ p.remaining
  · by_cases hcur : u32Max < p.activeCursor
    · -- the cursor has passed what a locator can say
      simp only [append, gt_iff_lt, hlen, Nat.not_lt.mpr hroom, hcur, ↓reduceIte, isPanic,
        Except.isOk, Except.toBool, Bool.false_eq_true, false_iff, true_and, and_true, InSegment]
      rw [remaining] at hroom ⊢
      omega
    · -- stored behind the cursor
      rw [append_within h hshort hroom (Nat.not_lt.mp hcur)]
      simp only [isPanic, Except.isOk, Except.toBool, Bool.false_eq_true, false_iff, true_iff,
        true_and, InSegment]
      rw [remaining] at hroom ⊢
      omega
  · -- a new segment, and then its bound
    simp only [append, gt_iff_lt, hlen, Nat.not_le.mp hroom, ↓reduceIte, sealAndRotate,
      Nat.not_lt_zero, Nat.zero_add]
    rw [remaining] at hroom ⊢
    split
    all_goals
      simp only [isPanic, Except.isOk, Except.toBool, Bool.false_eq_true, false_iff, true_iff,
        true_and, InSegment]
      omega

/-- `append_aligned`, by what becomes of the padding. -/
theorem appendAligned_eq (p : SegmentPool) (payload : Bytes) (align : Nat) :
    p.appendAligned payload align =
      if p.padding align = 0 then p.append payload
      else if p.remaining < p.padding align then p.sealAndRotate.append payload
      else
        match p.append (List.replicate (p.padding align) 0) with
        | (.error e, q) => (.error e, q)
        | (.ok _, q) => q.append payload := by
  unfold appendAligned padding
  by_cases halign : align ≤ 1
  · simp only [halign, ↓reduceIte]
  · simp only [halign, ↓reduceIte, gt_iff_lt]
    by_cases hpad : (align - p.activeCursor % align) % align = 0
    · simp only [hpad, Nat.lt_irrefl, ↓reduceIte]
    · exact (if_pos (Nat.pos_of_ne_zero hpad)).trans (if_neg hpad).symm

/-- When a call panics, and when it goes through. -/
theorem appendAligned_outcome {p : SegmentPool} (h : p.InSegment) (payload : Bytes)
    (align : Nat) :
    (p.appendAligned payload align).2.InSegment ∧
      (p.appendAligned payload align).2.segSize = p.segSize ∧
      (isPanic (p.appendAligned payload align).1 = true ↔
        ¬p.PaddingRefused align ∧ p.segSize < payload.length ∧ payload.length ≤ u32Max) ∧
      ((p.appendAligned payload align).1.isOk = true ↔
        payload.length ≤ p.segSize ∧ payload.length ≤ u32Max ∧
          ¬p.Beyond payload.length align) := by
  rw [appendAligned_eq]
  simp only [Beyond, PaddingRefused, alignedCursor]
  by_cases hnone : p.padding align = 0
  · -- the payload goes to the cursor as it is
    obtain ⟨hin, hsize, hpanic, hok⟩ := append_outcome h payload
    simp only [hnone, ↓reduceIte, Nat.lt_irrefl, Nat.not_lt_zero, false_and, not_false_eq_true,
      true_and, false_or, Nat.add_zero]
    exact ⟨hin, hsize, hpanic, hok⟩
  rw [if_neg hnone]
  by_cases hrotate : p.remaining < p.padding align
  · -- the padding does not fit: the payload opens a new segment
    have hsealed : p.sealAndRotate.InSegment := Nat.zero_le _
    obtain ⟨hin, hsize, hpanic, hok⟩ := append_outcome hsealed payload
    rw [show p.sealAndRotate.activeCursor = 0 from rfl] at hok
    rw [if_pos hrotate]
    simp only [hrotate, Nat.not_le.mpr hrotate, ↓reduceIte, and_false, false_and, false_or,
      not_false_eq_true, true_and, Nat.not_lt_zero] at hok ⊢
    exact ⟨hin, hsize, hpanic, hok⟩
  -- the padding is stored in front, unless it is refused itself
  have hfits := Nat.not_lt.mp hrotate
  have hpos := Nat.pos_of_ne_zero hnone
  rw [if_neg hrotate]
  simp only [hrotate, hfits, hpos, ↓reduceIte, true_and]
  by_cases hrefused : u32Max < p.padding align ∨ u32Max < p.activeCursor
  · obtain ⟨hin, hsize, hpanic, hok⟩ :=
      append_outcome h (List.replicate (p.padding align) (0 : UInt8))
    rw [List.length_replicate] at hpanic hok
    have hsmall : p.padding align ≤ p.segSize := Nat.le_trans hfits (Nat.sub_le _ _)
    generalize p.append (List.replicate (p.padding align) 0) = res at *
    obtain ⟨r, q⟩ := res
    cases r with
    | ok loc =>
      have hno := hok.mp rfl
      omega
    | error e =>
      have hret : ¬isPanic (.error e : Except StoreError ValueLocator) = true := by
        rw [hpanic]
        omega
      simp only [hrefused, true_or, not_true, and_false, false_and, iff_false]
      exact ⟨hin, hsize, hret, Bool.false_ne_true⟩
  · simp only [not_or, Nat.not_lt] at hrefused
    rw [append_within h (by rw [List.length_replicate]; exact hrefused.1)
      (by rw [List.length_replicate]; exact hfits) hrefused.2]
    simp only [List.length_replicate]
    -- then the payload is offered behind it
    generalize hq : SegmentPool.mk _ p.segSize p.activeId (p.activeCursor + p.padding align) = q
    have hcur : q.activeCursor = p.activeCursor + p.padding align := by rw [← hq]
    have hseg : q.segSize = p.segSize := by rw [← hq]
    have hle : p.activeCursor ≤ p.segSize := h
    rw [remaining] at hfits
    have hin : q.InSegment := by
      rw [InSegment, hcur, hseg]
      omega
    obtain ⟨hin, hsize, hpanic, hok⟩ := append_outcome hin payload
    rw [remaining, hcur, hseg] at hok
    rw [hseg] at hsize hpanic
    refine ⟨hin, hsize, ?_, ?_⟩
    · rw [hpanic]
      omega
    · rw [hok]
      omega

/-- `open` resumes only at a cursor inside the segment. -/
theorem inSegment_open (d : SegDir) (segSize : Nat) : («open» d segSize).InSegment := by
  unfold InSegment
  cases hc : d.cursor with
  | none =>
    simp only [«open», hc]
    exact Nat.zero_le _
  | some sc =>
    simp only [«open», hc]
    generalize (if segSize = 0 then defaultSegmentSize else segSize) = size
    split
    · rename_i hin
      exact hin.2
    · exact Nat.zero_le _

theorem inSegment_rewind {p q : SegmentPool} (h : p.InSegment) {segId offset : Nat}
    (hr : p.rewindActiveTo segId offset = .ok q) : q.InSegment := by
  unfold rewindActiveTo at hr
  split at hr
  · obtain rfl : p = q := by simpa using hr
    exact h
  · split at hr
    · simp at hr
    · rename_i hle
      obtain rfl : { p with activeCursor := offset } = q := by simpa using hr
      exact Nat.le_trans (Nat.not_lt.mp hle) h

end SegmentPool

/-! ### Runs of the KV and the columnar pool -/

/-- A pool, whether it has refused a payload, and whether every append was as expected. -/
structure AppendRun where
  pool : SegmentPool
  refused : Bool
  kept : Bool

namespace AppendRun

/-- A pool that was just opened. -/
def start (d : SegDir) (segSize : Nat) : AppendRun := ⟨.open d segSize, false, true⟩

/-- What an append of `len` bytes adds to the record. -/
def note (r : AppendRun) (len : Nat) (res : Except StoreError ValueLocator × SegmentPool) :
    AppendRun where
  pool := res.2
  refused := r.refused || !res.1.isOk
  kept := r.kept && decide (AppendKept r.refused r.pool.segSize len res.1)

/-- One call. -/
def step (r : AppendRun) : PoolOp → AppendRun
  | .append payload => r.note payload.length (r.pool.append payload)
  | .appendAligned payload align => r.note payload.length (r.pool.appendAligned payload align)
  | .rewind segId offset =>
    match r.pool.rewindActiveTo segId offset with
    | .ok pool => { r with pool }
    | .error _ => r
  | .flush => { r with pool := r.pool.flush }

/-- A payload of `len` bytes fits a segment, or is too long for a locator, or its padding is
    refused before it is copied; and after an earlier refusal it does not go beyond what a
    locator can say. -/
def Takes (r : AppendRun) (len align : Nat) : Prop :=
  (r.pool.segSize < len → len ≤ u32Max → r.pool.PaddingRefused align) ∧
    (r.refused = true → len ≤ r.pool.segSize → len ≤ u32Max → ¬r.pool.Beyond len align)

/-- The call can be made in this state. -/
def Safe (r : AppendRun) : PoolOp → Prop
  | .append payload => r.Takes payload.length 1
  | .appendAligned payload align => r.Takes payload.length align
  | .rewind _ _ | .flush => True

theorem kept_note_iff {r : AppendRun} (h : r.pool.InSegment) (hk : r.kept = true)
    (payload : Bytes) (align : Nat) :
    (r.note payload.length (r.pool.appendAligned payload align)).kept = true ↔
      r.Takes payload.length align := by
  obtain ⟨-, -, hpanic, hok⟩ := SegmentPool.appendAligned_outcome h payload align
  rw [note, hk, Bool.true_and, decide_eq_true_iff]
  simp only [AppendKept, Takes, ← returns_iff, ← Bool.not_eq_true, hpanic, hok]
  -- what is longer than a segment is never stored
  constructor
  · rintro ⟨hret, -, hlater⟩
    exact ⟨fun hlong hlen => by_contra fun hp => hret ⟨hp, hlong, hlen⟩,
      fun hr hfit hlen => (hlater hr hfit hlen).2.2⟩
  · rintro ⟨hlong, hlater⟩
    exact ⟨fun hp => hp.1 (hlong hp.2.1 hp.2.2), fun hlt hfit => Nat.not_le.mpr hlt hfit.1,
      fun hr hfit hlen => ⟨hfit, hlen, hlater hr hfit hlen⟩⟩

theorem append_eq_aligned (p : SegmentPool) (payload : Bytes) :
    p.append payload = p.appendAligned payload 1 :=
  (if_pos (Nat.le_refl 1)).symm

theorem inSegment_step {r : AppendRun} (h : r.pool.InSegment) (c : PoolOp) :
    (r.step c).pool.InSegment := by
  cases c with
  | append payload => exact (SegmentPool.append_outcome h payload).1
  | appendAligned payload align => exact (SegmentPool.appendAligned_outcome h payload align).1
  | rewind segId offset =>
    cases hr : r.pool.rewindActiveTo segId offset with
    | ok pool =>
      simp only [step, hr]
      exact SegmentPool.inSegment_rewind h hr
    | error _ =>
      simp only [step, hr]
      exact h
  | flush => exact h

theorem kept_step_iff {r : AppendRun} (h : r.pool.InSegment) (hk : r.kept = true) (c : PoolOp) :
    (r.step c).kept = true ↔ r.Safe c := by
  cases c with
  | append payload =>
    show (r.note payload.length (r.pool.append payload)).kept = true ↔ r.Takes payload.length 1
    rw [append_eq_aligned]
    exact kept_note_iff h hk payload 1
  | appendAligned payload align => exact kept_note_iff h hk payload align
  | rewind segId offset =>
    -- a rewind is no append
    refine iff_of_true ?_ trivial
    cases hr : r.pool.rewindActiveTo segId offset with
    | ok _ => simpa only [step, hr] using hk
    | error _ => simpa only [step, hr] using hk
  | flush => exact iff_of_true hk trivial

/-- Within the bound the source assumes for `seg_size`, only a payload longer than a segment
    goes wrong. -/
theorem takes_iff_of_le {r : AppendRun} (h : r.pool.InSegment) (hsize : r.pool.segSize ≤ u32Max)
    (len align : Nat) : r.Takes len align ↔ (r.pool.segSize < len → u32Max < len) := by
  have hle : r.pool.activeCursor ≤ r.pool.segSize := h
  have hpad : ¬r.pool.PaddingRefused align := by
    rintro ⟨-, hroom, hbig⟩
    rw [SegmentPool.remaining] at hroom
    omega
  have hbeyond : ¬r.pool.Beyond len align := by
    rintro (hp | ⟨-, hcur⟩)
    · exact hpad hp
    · by_cases hr : r.pool.remaining < r.pool.padding align
      · rw [SegmentPool.alignedCursor, if_pos hr] at hcur
        exact Nat.not_lt_zero _ hcur
      · rw [SegmentPool.alignedCursor, if_neg hr] at hcur
        rw [SegmentPool.remaining] at hr
        omega
  simp only [Takes, hpad, hbeyond, not_false_eq_true, implies_true, and_true, imp_false,
    Nat.not_le]

/-- The record stays clean along a run exactly if every call of it is safe. -/
theorem guarded_iff_kept (d : SegDir) (segSize : Nat) (calls : List PoolOp) :
    Run.Guarded step Safe (start d segSize) calls ↔
      ∀ pre, pre <+: calls → (Run.exec step (start d segSize) pre).kept = true :=
  @Run.guarded_iff _ _ step Safe (fun r => r.pool.InSegment) (fun r => r.kept = true)
    (fun _ c h => inSegment_step h c) (fun _ c h hk => kept_step_iff h hk c) _ calls
    (SegmentPool.inSegment_open d segSize) rfl

end AppendRun

/-! ### Runs of the pool of vectors -/

/-- A pool of vectors, with the same record. -/
structure VecAppendRun where
  pool : VecSegmentPool
  refused : Bool
  kept : Bool

namespace VecAppendRun

/-- A pool that was just opened. -/
def start (d : SegDir) (segSize dim : Nat) : VecAppendRun := ⟨.open d segSize dim, false, true⟩

/-- One append, of a vector that has passed `validate_dim`. -/
def step (r : VecAppendRun) (vector : List F32) : VecAppendRun :=
  let res := r.pool.append vector
  { pool := res.2
    refused := r.refused || !res.1.isOk
    kept := r.kept && decide (AppendKept r.refused r.pool.segSize r.pool.byteLen res.1) }

/-- A vector that no segment can hold is copied past the end of a new one. -/
theorem append_overrun {p : VecSegmentPool} (hlong : p.segSize < p.byteLen)
    (vector : List F32) :
    (p.append vector).1 = .error (.panicked "range end index out of range for slice") := by
  have hroom : p.remaining < p.byteLen := Nat.lt_of_le_of_lt (Nat.sub_le _ _) hlong
  have hend : p.segSize < 0 + p.sealAndRotate.byteLen := by
    rw [Nat.zero_add]
    exact hlong
  simp only [VecSegmentPool.append, gt_iff_lt, hroom, ↓reduceIte]
  exact congrArg Prod.fst (if_pos hend)

/-- The run so far appended to a pool whose segments can hold a vector, or not at all. -/
structure Sound (r : VecAppendRun) : Prop where
  cursor_le : r.pool.activeCursor ≤ r.pool.segSize
  kept : r.kept = true
  fits : r.pool.byteLen ≤ r.pool.segSize

/-- While the segments can hold a vector, every append goes through. -/
theorem Sound.step {r : VecAppendRun} (h : r.Sound) {vector : List F32}
    (hdim : vector.length = r.pool.dim) :
    (r.step vector).Sound ∧ (r.step vector).pool.dim = r.pool.dim := by
  obtain ⟨-, -, loc, p', happ, -, hm⟩ | ⟨hno, -⟩ :=
    VecSegmentPool.append_outcome h.cursor_le vector
  · simp only [VecAppendRun.step, happ]
    refine ⟨⟨hm.cursor_le, ?_, ?_⟩, hm.dim⟩
    · rw [h.kept, Bool.true_and, decide_eq_true_iff]
      refine ⟨fun msg hp => ?_, fun hlong => ?_, fun _ _ _ => rfl⟩
      · simp at hp
      · exact absurd h.fits (Nat.not_le.mpr hlong)
    · have hbyte : p'.byteLen = r.pool.byteLen := by
        rw [VecSegmentPool.byteLen, VecSegmentPool.byteLen, hm.dim]
      rw [hbyte, hm.segSize]
      exact h.fits
  · exact absurd ⟨hdim, h.fits⟩ hno

/-- Once an append was not as expected, the record says so for good. -/
theorem kept_exec_false {r : VecAppendRun} (h : r.kept = false) (vectors : List (List F32)) :
    (Run.exec step r vectors).kept = false := by
  refine Run.exec_invariant (fun r : VecAppendRun => r.kept = false) ?_ vectors h
  intro r vector h
  simp only [step, h, Bool.false_and]

/-- A run of vectors of the pool's dimension keeps the guarantee exactly if a segment can hold
    one vector. -/
theorem kept_exec_iff (d : SegDir) (segSize dim : Nat) {vectors : List (List F32)}
    (hdim : ∀ v ∈ vectors, v.length = dim) :
    (Run.exec step (start d segSize dim) vectors).kept = true ↔
      vectors = [] ∨ dim * 4 ≤ VecSegmentPool.sizeOf segSize := by
  by_cases hfit : dim * 4 ≤ VecSegmentPool.sizeOf segSize
  · refine iff_of_true ?_ (.inr hfit)
    have hrun : (Run.exec step (start d segSize dim) vectors).Sound ∧
        (Run.exec step (start d segSize dim) vectors).pool.dim = dim := by
      refine Run.exec_invariant_of_forall
        (fun r : VecAppendRun => r.Sound ∧ r.pool.dim = dim) ?_ hdim
        ⟨⟨Nat.zero_le _, rfl, hfit⟩, rfl⟩
      intro r v hr hv
      obtain ⟨hs, hd⟩ := hr.1.step (hv.trans hr.2.symm)
      exact ⟨hs, hd.trans hr.2⟩
    exact hrun.1.kept
  · cases vectors with
    | nil => exact iff_of_true rfl (.inl rfl)
    | cons v vs =>
      refine iff_of_false ?_ (by simpa using hfit)
      -- the first append already unwinds
      have hover := append_overrun (p := (start d segSize dim).pool) (Nat.not_le.mp hfit) v
      rw [Run.exec_cons, Bool.not_eq_true]
      refine kept_exec_false ?_ vs
      simp only [step, hover, AppendKept, Bool.and_eq_false_iff, decide_eq_false_iff_not]
      exact .inr fun hkept => hkept.1 _ rfl

end VecAppendRun

/-! ### Both pools -/

/-- Every append of a run is as expected exactly if every call is safe, and of a run of
    vectors exactly if a segment can hold one vector. -/
theorem appends_kept_iff (d : SegDir) (segSize : Nat) (calls : List PoolOp)
    (vecDir : SegDir) (vecSegSize dim : Nat) (vectors : List (List F32))
    (hdim : ∀ v ∈ vectors, v.length = dim) :
    ((∀ pre, pre <+: calls →
        (Run.exec AppendRun.step (AppendRun.start d segSize) pre).kept = true) ↔
      Run.Guarded AppendRun.step AppendRun.Safe (AppendRun.start d segSize) calls) ∧
    ((Run.exec VecAppendRun.step (VecAppendRun.start vecDir vecSegSize dim) vectors).kept = true ↔
      vectors = [] ∨ dim * 4 ≤ VecSegmentPool.sizeOf vecSegSize) :=
  ⟨(AppendRun.guarded_iff_kept d segSize calls).symm,
    VecAppendRun.kept_exec_iff vecDir vecSegSize dim hdim⟩

/-- Segments of four bytes hold three bytes, aligned to two, and a vector of one element. -/
theorem appends_kept_small :
    ((∀ pre, pre <+: [.append [7], .appendAligned [8, 9] 2] →
        (Run.exec AppendRun.step (AppendRun.start .empty 4) pre).kept = true) ↔
      Run.Guarded AppendRun.step AppendRun.Safe (AppendRun.start .empty 4)
        [.append [7], .appendAligned [8, 9] 2]) ∧
    ((Run.exec VecAppendRun.step (VecAppendRun.start .empty 4 1) [[0x3F800000]]).kept = true ↔
      [[(0x3F800000 : F32)]] = [] ∨ 1 * 4 ≤ VecSegmentPool.sizeOf 4) :=
  appends_kept_iff .empty 4 [.append [7], .appendAligned [8, 9] 2] .empty 4 1 [[0x3F800000]]
    (by simp)

/-- Five bytes into segments of four, and a vector of two elements: both calls unwind. -/
theorem append_beyond_segment :
    ¬((Run.exec AppendRun.step (AppendRun.start .empty 4) [.append [1, 2, 3, 4, 5]]).kept = true) ∧
    ¬((Run.exec VecAppendRun.step (VecAppendRun.start .empty 4 2) [[0, 0]]).kept = true) := by
  decide

end FusionStore
