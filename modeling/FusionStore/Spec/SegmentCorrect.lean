import FusionStore.Native.VectorStore
import FusionStore.Spec.WalCodecCorrect

/-!
# Segment writers keep what they wrote

Both segment pools write through one position `(segment, cursor)` that only moves
forward while the pool is open.  `Writer` is that view of a pool.  A writer holds a
locator when its range lies before the position; every move of a writer keeps what
it holds (`Keeps`), and a completed append holds its payload.

Reopening a pool is a different matter: `SegmentPool.open` goes back to the
recorded cursor, so only locators before that cursor are held again.
-/

namespace FusionStore

open SegMem

namespace SegmentPool

/-- The locators a reopened pool holds: inside a file, and before the recorded
    cursor if there is one. -/
def Recorded (d : SegDir) (loc : ValueLocator) : Prop :=
  ∀ p ∈ d.cursor, Before loc.segId loc.offset loc.len p.1 p.2

instance (d : SegDir) (loc : ValueLocator) : Decidable (Recorded d loc) :=
  inferInstanceAs (Decidable (∀ p ∈ d.cursor, _))

end SegmentPool

/-- A segment directory with the position its next append goes to. -/
structure Writer where
  dir : SegDir
  segSize : Nat
  id : Nat
  cursor : Nat

namespace Writer

/-- The active segment exists, is the last one, and the position lies inside it. -/
structure Inv (w : Writer) : Prop where
  cursor_le : w.cursor ≤ w.segSize
  mem : w.id ∈ w.dir.files
  le : ∀ f ∈ w.dir.files, f ≤ w.id

/-- The range of `loc` is inside an existing segment and before the position. -/
def Holds (w : Writer) (loc : ValueLocator) : Prop :=
  loc.segId ∈ w.dir.files ∧ loc.offset + loc.len ≤ w.segSize ∧
    Before loc.segId loc.offset loc.len w.id w.cursor

/-- The bytes behind a locator. -/
def bytesAt (w : Writer) (loc : ValueLocator) : Bytes :=
  w.dir.mem.volatile.read loc.segId loc.offset loc.len

/-- The bytes behind a locator would survive a power loss. -/
def Synced (w : Writer) (loc : ValueLocator) : Prop :=
  w.dir.mem.durable.read loc.segId loc.offset loc.len = w.bytesAt loc

/-- The next flush makes the bytes behind a locator durable, if they are not already. -/
def Settled (w : Writer) (loc : ValueLocator) : Prop := loc.segId = w.id ∨ w.Synced loc

/-- `w'` has every file of `w` and still holds everything `w` holds, with the same
    bytes in both copies. -/
structure Keeps (w w' : Writer) : Prop where
  segSize : w'.segSize = w.segSize
  files : ∀ f ∈ w.dir.files, f ∈ w'.dir.files
  holds : ∀ loc, w.Holds loc → w'.Holds loc
  bytesAt : ∀ loc, w.Holds loc → w'.bytesAt loc = w.bytesAt loc
  synced : ∀ loc, w.Holds loc → w.Synced loc → w'.Synced loc
  settled : ∀ loc, w.Holds loc → w.Settled loc → w'.Settled loc
  recorded : ∀ loc, w.Holds loc → SegmentPool.Recorded w.dir loc →
    SegmentPool.Recorded w'.dir loc

/-- Nothing was done. -/
theorem Keeps.refl (w : Writer) : w.Keeps w :=
  ⟨rfl, fun _ h => h, fun _ h => h, fun _ _ => rfl, fun _ _ h => h, fun _ _ h => h,
    fun _ _ h => h⟩

/-- One step after the other. -/
theorem Keeps.trans {a b c : Writer} (hab : a.Keeps b) (hbc : b.Keeps c) : a.Keeps c where
  segSize := hbc.segSize.trans hab.segSize
  files f hf := hbc.files f (hab.files f hf)
  holds loc h := hbc.holds loc (hab.holds loc h)
  bytesAt loc h := (hbc.bytesAt loc (hab.holds loc h)).trans (hab.bytesAt loc h)
  synced loc h hs := hbc.synced loc (hab.holds loc h) (hab.synced loc h hs)
  settled loc h hs := hbc.settled loc (hab.holds loc h) (hab.settled loc h hs)
  recorded loc h hr := hbc.recorded loc (hab.holds loc h) (hab.recorded loc h hr)

/-- The move of `seal_and_rotate`. -/
def rotate (w : Writer) : Writer :=
  { w with dir := (w.dir.flushSeg w.id).createSeg (w.id + 1), id := w.id + 1, cursor := 0 }

/-- The move of a completed append. -/
def put (w : Writer) (bs : Bytes) : Writer :=
  { w with dir := w.dir.store w.id w.cursor bs, cursor := w.cursor + bs.length }

end Writer

namespace SegDir

/-- The files after a segment was created, or was there. -/
theorem mem_createSeg {d : SegDir} {n f : Nat} :
    f ∈ (d.createSeg n).files ↔ f = n ∨ f ∈ d.files := by
  unfold createSeg
  split
  · -- the file exists already
    rename_i h
    constructor
    · exact Or.inr
    · rintro (rfl | hf)
      · exact h
      · exact hf
  · exact List.mem_cons

/-- Creating a segment file keeps the bytes of every existing one. -/
theorem read_createSeg {d : SegDir} {n seg off len : Nat} (h : seg ∈ d.files) :
    (d.createSeg n).mem.volatile.read seg off len = d.mem.volatile.read seg off len := by
  unfold createSeg
  split
  · rfl
  · rename_i hn
    exact read_clear_of_ne (fun heq => hn (heq ▸ h))

/-- A new file is none of those a reader knows. -/
theorem durable_read_createSeg {d : SegDir} {n seg off len : Nat} (h : seg ∈ d.files) :
    (d.createSeg n).mem.durable.read seg off len = d.mem.durable.read seg off len := by
  unfold createSeg
  split
  · rfl
  · rename_i hn
    exact read_clear_of_ne (fun heq => hn (heq ▸ h))

/-- A flush makes the bytes of its segment durable and touches no other one. -/
theorem durable_read_flushSeg (d : SegDir) (id seg off len : Nat) :
    (d.flushSeg id).mem.durable.read seg off len =
      if seg = id then d.mem.volatile.read seg off len
      else d.mem.durable.read seg off len := by
  split
  · rename_i h
    apply read_congr
    intro i _ _
    simp only [flushSeg, copySeg, if_pos h]
  · rename_i h
    apply read_congr
    intro i _ _
    simp only [flushSeg, copySeg, if_neg h]

/-- The cursor file is written after the segment. -/
@[simp] theorem cursor_createSeg (d : SegDir) (n : Nat) : (d.createSeg n).cursor = d.cursor := by
  unfold createSeg
  split <;> rfl

/-- A new segment has a number of its own. -/
theorem lt_nextSegId {d : SegDir} {f : Nat} (h : f ∈ d.files) : f < d.nextSegId := by
  unfold nextSegId
  cases hm : d.files.max? with
  | none =>
    rw [List.max?_eq_none_iff] at hm
    rw [hm] at h
    exact nomatch h
  | some m =>
    have hle := ((List.max?_eq_some_iff (a := m)).mp hm).2 f h
    show f < m + 1
    omega

end SegDir

namespace Writer

/-- A new segment is behind every file there is. -/
theorem inv_fresh (d : SegDir) (segSize : Nat) :
    Inv ⟨d.createSeg d.nextSegId, segSize, d.nextSegId, 0⟩ where
  cursor_le := Nat.zero_le _
  mem := SegDir.mem_createSeg.mpr (Or.inl rfl)
  le := by
    intro f hf
    rcases SegDir.mem_createSeg.mp hf with rfl | hf
    · exact Nat.le_refl _
    · exact Nat.le_of_lt (SegDir.lt_nextSegId hf)

/-- The new segment is the last and is empty. -/
theorem inv_rotate {w : Writer} (h : w.Inv) : w.rotate.Inv where
  cursor_le := Nat.zero_le _
  mem := SegDir.mem_createSeg.mpr (Or.inl rfl)
  le := by
    intro f hf
    rcases SegDir.mem_createSeg.mp hf with rfl | hf
    · exact Nat.le_refl _
    · have hle := h.le f hf
      show f ≤ w.id + 1
      omega

/-- A flush of the active segment makes everything durable that was settled. -/
theorem synced_flushSeg {w : Writer} {loc : ValueLocator} (h : w.Settled loc) :
    (w.dir.flushSeg w.id).mem.durable.read loc.segId loc.offset loc.len = w.bytesAt loc := by
  rw [SegDir.durable_read_flushSeg]
  split
  · rfl
  · rename_i hne
    exact h.resolve_left hne

/-- The sealed segment is flushed before the next one is used. -/
theorem synced_rotate {w : Writer} {loc : ValueLocator} (hl : w.Holds loc) (hs : w.Settled loc) :
    w.rotate.Synced loc := by
  unfold Synced
  -- the new segment is another one, in both copies
  rw [show w.rotate.bytesAt loc = w.bytesAt loc from
    SegDir.read_createSeg (d := w.dir.flushSeg w.id) hl.1]
  exact (SegDir.durable_read_createSeg (d := w.dir.flushSeg w.id) hl.1).trans (synced_flushSeg hs)

/-- A rotation writes no byte of an old segment. -/
theorem keeps_rotate {w : Writer} (h : w.Inv) : w.Keeps w.rotate where
  segSize := rfl
  files f hf := SegDir.mem_createSeg.mpr (Or.inr hf)
  holds := by
    intro loc ⟨hmem, hlen, _⟩
    have hle := h.le _ hmem
    refine ⟨SegDir.mem_createSeg.mpr (Or.inr hmem), hlen, Or.inl ?_⟩
    show loc.segId < w.id + 1
    omega
  bytesAt loc hl := SegDir.read_createSeg (d := w.dir.flushSeg w.id) hl.1
  synced loc hl hs := synced_rotate hl (Or.inr hs)
  settled loc hl hs := Or.inr (synced_rotate hl hs)
  recorded := by
    intro loc _ hr p hp
    exact hr p ((SegDir.cursor_createSeg (w.dir.flushSeg w.id) (w.id + 1)) ▸ hp)

/-- A flush changes only what a power loss would leave. -/
theorem keeps_flushSeg (w : Writer) : w.Keeps { w with dir := w.dir.flushSeg w.id } where
  segSize := rfl
  files _ hf := hf
  holds _ hl := hl
  bytesAt _ _ := rfl
  synced _ _ hs := synced_flushSeg (.inr hs)
  settled _ _ hs := .inr (synced_flushSeg hs)
  recorded _ _ hr := hr

/-- What fits behind the cursor leaves it inside the segment. -/
theorem inv_put {w : Writer} (h : w.Inv) {bs : Bytes} (hlen : w.cursor + bs.length ≤ w.segSize) :
    (w.put bs).Inv :=
  ⟨hlen, h.mem, h.le⟩

/-- Bytes behind the cursor are nobody else's. -/
theorem keeps_put (w : Writer) (bs : Bytes) : w.Keeps (w.put bs) where
  segSize := rfl
  files _ hf := hf
  holds := by
    intro loc ⟨hmem, hlen, hbefore⟩
    refine ⟨hmem, hlen, hbefore.mono (Or.inr ⟨rfl, ?_⟩)⟩
    show w.cursor ≤ w.cursor + bs.length
    omega
  bytesAt _ hl := read_write_of_before hl.2.2
  synced _ hl hs := hs.trans (read_write_of_before hl.2.2).symm
  settled _ hl hs := hs.imp_right fun hs => hs.trans (read_write_of_before hl.2.2).symm
  recorded _ _ hr := hr

/-- Bytes stored behind the position without moving it disturb nothing. -/
theorem keeps_store (w : Writer) (bs : Bytes) :
    w.Keeps { w with dir := w.dir.store w.id w.cursor bs } where
  segSize := rfl
  files _ hf := hf
  holds _ hl := hl
  bytesAt _ hl := read_write_of_before hl.2.2
  synced _ hl hs := hs.trans (read_write_of_before hl.2.2).symm
  settled _ hl hs := hs.imp_right fun hs => hs.trans (read_write_of_before hl.2.2).symm
  recorded _ _ hr := hr

/-- The locator of a completed append. -/
theorem holds_put {w : Writer} (h : w.Inv) {bs : Bytes}
    (hlen : w.cursor + bs.length ≤ w.segSize) :
    (w.put bs).Holds ⟨w.id, w.cursor, bs.length⟩ :=
  ⟨h.mem, hlen, Or.inr ⟨rfl, Nat.le_refl _⟩⟩

/-- They read back. -/
theorem bytesAt_put (w : Writer) (bs : Bytes) :
    (w.put bs).bytesAt ⟨w.id, w.cursor, bs.length⟩ = bs :=
  read_write_same _ _ _ _

end Writer

/-! ### The KV and columnar pool -/

namespace SegmentPool

/-- The pool as a writer. -/
def writer (p : SegmentPool) : Writer := ⟨p.dir, p.segSize, p.activeId, p.activeCursor⟩

/-- What holds of a pool between calls.  A recorded cursor belongs to the active
    segment and never runs ahead of the position. -/
structure Inv (p : SegmentPool) : Prop where
  writer : p.writer.Inv
  segSize_le : p.segSize ≤ u32Max
  recorded : ∀ sid c, p.dir.cursor = some (sid, c) → sid = p.activeId ∧ c ≤ p.activeCursor

/-- `seal_and_rotate`, as a rotation of the writer. -/
theorem writer_inv_sealAndRotate {p : SegmentPool} (h : p.writer.Inv) :
    p.sealAndRotate.writer.Inv :=
  ⟨(Writer.inv_rotate h).cursor_le, (Writer.inv_rotate h).mem, (Writer.inv_rotate h).le⟩

/-- It keeps what locators name. -/
theorem keeps_sealAndRotate {p : SegmentPool} (h : p.writer.Inv) :
    p.writer.Keeps p.sealAndRotate.writer := by
  have k := Writer.keeps_rotate h
  refine ⟨k.segSize, k.files, k.holds, k.bytesAt, k.synced, k.settled, ?_⟩
  -- the new cursor is the start of a segment behind all others
  intro loc hl _ c hc
  have hle := h.le _ hl.1
  obtain rfl : (p.activeId + 1, 0) = c := Option.mem_some_iff.mp hc
  exact Or.inl (Nat.lt_succ_of_le hle)

/-- The rotation test at the head of `append`. -/
private def makeRoom (p : SegmentPool) (n : Nat) : SegmentPool :=
  if n > p.remaining then p.sealAndRotate else p

/-- What `append` does once there is room: store the payload at the position. -/
private def appendHere (p : SegmentPool) (payload : Bytes) :
    Except StoreError ValueLocator × SegmentPool :=
  if p.activeCursor > u32Max then
    (.error (.corrupt
      s!"active cursor {p.activeCursor} exceeds u32 max, segment overflow"), p)
  else if p.activeCursor + payload.length > p.segSize then
    (.error (.panicked "range end index out of range for slice"), p)
  else
    (.ok ⟨p.activeId, p.activeCursor, payload.length⟩,
      { p with
        dir := p.dir.store p.activeId p.activeCursor payload
        activeCursor := p.activeCursor + payload.length })

/-- The recorded cursor belongs to the active segment and does not run ahead. -/
def CursorBehind (p : SegmentPool) : Prop :=
  ∀ sid c, p.dir.cursor = some (sid, c) → sid = p.activeId ∧ c ≤ p.activeCursor

/-- The payloads `append` takes: their length fits a locator and a segment, and so does the
    offset they go to, unless they open a new segment. -/
structure Accepts (p : SegmentPool) (payload : Bytes) : Prop where
  len_le : payload.length ≤ u32Max
  fits : payload.length ≤ p.segSize
  cursor_le : payload.length ≤ p.remaining → p.activeCursor ≤ u32Max

/-- The pool an append writes into: there is room if a segment has any, and the locator is in
    reach unless the append stays behind a cursor that is not. -/
private theorem makeRoom_spec {p : SegmentPool} (h : p.writer.Inv) (n : Nat) :
    (p.makeRoom n).writer.Inv ∧ p.writer.Keeps (p.makeRoom n).writer ∧
      (p.makeRoom n).segSize = p.segSize ∧
      ((p.makeRoom n).activeCursor + n ≤ p.segSize ↔ n ≤ p.segSize) ∧
      ((p.makeRoom n).activeCursor ≤ u32Max ↔ (n ≤ p.remaining → p.activeCursor ≤ u32Max)) ∧
      (p.CursorBehind → (p.makeRoom n).CursorBehind) := by
  have hle := h.cursor_le
  unfold makeRoom
  split
  · -- a new segment starts at offset 0, which is also what the sidecar says
    rename_i hroom
    refine ⟨writer_inv_sealAndRotate h, keeps_sealAndRotate h, rfl, ?_, ?_, ?_⟩
    · show 0 + n ≤ p.segSize ↔ n ≤ p.segSize
      omega
    · exact iff_of_true (Nat.zero_le _) fun hn => absurd hn (Nat.not_le.mpr hroom)
    · intro _ sid c hc
      obtain ⟨rfl, rfl⟩ : p.activeId + 1 = sid ∧ 0 = c := by
        simpa [sealAndRotate, SegDir.writeCursor] using hc
      exact ⟨rfl, Nat.le_refl _⟩
  · rename_i hroom
    have hfit : n ≤ p.segSize - p.activeCursor := Nat.not_lt.mp hroom
    simp only [writer] at hle
    refine ⟨h, .refl _, rfl, by omega, ?_, id⟩
    constructor
    · exact fun hc _ => hc
    · exact fun hc => hc hfit

/-- `append` after its rotation test. -/
private theorem append_eq (p : SegmentPool) (payload : Bytes) :
    p.append payload =
      if payload.length > u32Max then (.error (.valueTooLarge payload.length), p)
      else (p.makeRoom payload.length).appendHere payload :=
  rfl

/-- A completed append: the payload is held at `loc`, nothing held before has changed, and
    rewinding to `loc` only takes the payload back. -/
structure Appended (p : SegmentPool) (payload : Bytes) (loc : ValueLocator) (p' : SegmentPool) :
    Prop where
  inv : p'.writer.Inv
  keeps : p.writer.Keeps p'.writer
  holds : p'.writer.Holds loc
  bytesAt : p'.writer.bytesAt loc = payload
  len : loc.len = payload.length
  segId : loc.segId = p'.activeId
  behind : p.CursorBehind → p'.CursorBehind
  rewind : ∃ r, p'.rewindActiveTo loc.segId loc.offset = .ok r ∧ r.writer.Inv ∧
    p.writer.Keeps r.writer

/-- A failed append at most rotates. -/
structure Refused (p p' : SegmentPool) : Prop where
  inv : p'.writer.Inv
  keeps : p.writer.Keeps p'.writer
  behind : p.CursorBehind → p'.CursorBehind

/-- Everything `append` can do. -/
theorem append_cases {p : SegmentPool} (h : p.writer.Inv) (payload : Bytes) :
    (p.Accepts payload ∧ ∃ loc p', p.append payload = (.ok loc, p') ∧ p.Appended payload loc p') ∨
    (¬p.Accepts payload ∧ ∃ err p', p.append payload = (.error err, p') ∧ p.Refused p') := by
  obtain ⟨hinv, hkeep, hsize, hroom, haddr, hbehind⟩ := makeRoom_spec h payload.length
  rw [append_eq]
  by_cases hlen : payload.length ≤ u32Max
  case neg =>
    -- longer than `u32::MAX`
    rw [if_pos (by omega)]
    exact .inr ⟨fun ha => hlen ha.len_le, _, p, rfl, h, .refl _, id⟩
  rw [if_neg (by omega)]
  unfold appendHere
  by_cases hcur : (p.makeRoom payload.length).activeCursor ≤ u32Max
  case neg =>
    -- the cursor is, and the segment was rotated before
    rw [if_pos (by omega)]
    exact .inr ⟨fun ha => hcur (haddr.mpr ha.cursor_le), _, _, rfl, hinv, hkeep, hbehind⟩
  rw [if_neg (by omega)]
  by_cases hfit : payload.length ≤ p.segSize
  case neg =>
    -- larger than a whole segment
    rw [if_pos (by rw [hsize]; omega)]
    exact .inr ⟨fun ha => hfit ha.fits, _, _, rfl, hinv, hkeep, hbehind⟩
  have hend := hroom.mpr hfit
  rw [if_neg (by rw [hsize]; omega)]
  refine .inl ⟨⟨hlen, hfit, haddr.mp hcur⟩, _, _, rfl, ?_⟩
  generalize p.makeRoom payload.length = q at *
  have hstay : q.writer.cursor + payload.length ≤ q.writer.segSize := by
    simp only [writer, hsize]
    exact hend
  refine ⟨Writer.inv_put hinv hstay, hkeep.trans (Writer.keeps_put q.writer payload),
    Writer.holds_put hinv hstay, Writer.bytesAt_put q.writer payload, rfl, rfl, ?_, ?_⟩
  · -- the position moves forward inside the recorded segment
    intro hb sid c hc
    obtain ⟨hsid, hle⟩ := hbehind hb sid c hc
    exact ⟨hsid, by show c ≤ q.activeCursor + payload.length; omega⟩
  · -- the rewind goes back to where the payload starts
    refine ⟨{ q with dir := q.dir.store q.activeId q.activeCursor payload }, ?_,
      ⟨hinv.cursor_le, hinv.mem, hinv.le⟩, hkeep.trans (Writer.keeps_store q.writer payload)⟩
    unfold rewindActiveTo
    rw [if_neg (fun hne => hne rfl)]
    rw [if_neg (by show ¬q.activeCursor > q.activeCursor + payload.length; omega)]

/-- In a pool whose segments the locators can address, a payload is accepted exactly if it
    fits a segment. -/
theorem Inv.accepts_iff {p : SegmentPool} (h : p.Inv) {payload : Bytes} :
    p.Accepts payload ↔ payload.length ≤ p.segSize := by
  have hmax := h.segSize_le
  have hcur : p.activeCursor ≤ p.segSize := h.writer.cursor_le
  constructor
  · exact fun ha => ha.fits
  · exact fun hfit => ⟨by omega, hfit, fun _ => by omega⟩

/-- One append: accepted when the payload fits a segment. -/
theorem append_ok {p : SegmentPool} (h : p.Inv) {payload : Bytes}
    (hlen : payload.length ≤ p.segSize) :
    ∃ loc p', p.append payload = (.ok loc, p') ∧ p'.Inv ∧ p.writer.Keeps p'.writer ∧
      p'.writer.Holds loc ∧ p'.writer.bytesAt loc = payload ∧ loc.len = payload.length ∧
      loc.segId = p'.activeId := by
  obtain ⟨-, loc, p', happ, ha⟩ | ⟨hno, -⟩ := append_cases h.writer payload
  · refine ⟨loc, p', happ, ⟨ha.inv, ?_, ha.behind h.recorded⟩, ha.keeps, ha.holds, ha.bytesAt,
      ha.len, ha.segId⟩
    rw [show p'.segSize = p.segSize from ha.keeps.segSize]
    exact h.segSize_le
  · exact absurd (h.accepts_iff.mpr hlen) hno

/-- A payload larger than a segment is not stored; at most a rotation happens. -/
theorem append_error {p : SegmentPool} (h : p.Inv) {payload : Bytes}
    (hlen : p.segSize < payload.length) :
    ∃ err p', p.append payload = (.error err, p') ∧ p'.Inv ∧ p.writer.Keeps p'.writer := by
  obtain ⟨ha, -⟩ | ⟨-, err, p', happ, hr⟩ := append_cases h.writer payload
  · exact absurd ha.fits (Nat.not_le.mpr hlen)
  · refine ⟨err, p', happ, ⟨hr.inv, ?_, hr.behind h.recorded⟩, hr.keeps⟩
    rw [show p'.segSize = p.segSize from hr.keeps.segSize]
    exact h.segSize_le

/-- The payloads `append_aligned` takes: the padding goes in front, or the payload opens a
    new segment if the padding does not fit. -/
def AcceptsAligned (p : SegmentPool) (payload : Bytes) (align : Nat) : Prop :=
  let pad := (align - p.activeCursor % align) % align
  if align ≤ 1 ∨ pad = 0 then p.Accepts payload
  else if pad > p.remaining then p.sealAndRotate.Accepts payload
  else p.Accepts (List.replicate pad 0) ∧ (p.append (List.replicate pad 0)).2.Accepts payload

/-- What is kept of an append when only its success and the length it reports matter. -/
private theorem append_brief {p : SegmentPool} (h : p.writer.Inv) (payload : Bytes) :
    (p.Accepts payload ∧ ∃ loc p', p.append payload = (.ok loc, p') ∧ p'.writer.Inv ∧
      loc.len = payload.length) ∨
    (¬p.Accepts payload ∧ ∃ err p', p.append payload = (.error err, p') ∧ p'.writer.Inv) := by
  obtain ⟨ha, loc, p', happ, hd⟩ | ⟨hno, err, p', happ, hr⟩ := append_cases h payload
  · exact .inl ⟨ha, loc, p', happ, hd.inv, hd.len⟩
  · exact .inr ⟨hno, err, p', happ, hr.inv⟩

/-- Everything `append_aligned` can do. -/
theorem appendAligned_cases {p : SegmentPool} (h : p.writer.Inv) (payload : Bytes) (align : Nat) :
    (p.AcceptsAligned payload align ∧ ∃ loc p', p.appendAligned payload align = (.ok loc, p') ∧
      p'.writer.Inv ∧ loc.len = payload.length) ∨
    (¬p.AcceptsAligned payload align ∧ ∃ err p', p.appendAligned payload align = (.error err, p') ∧
      p'.writer.Inv) := by
  unfold AcceptsAligned appendAligned
  by_cases halign : align ≤ 1
  · simp only [halign, true_or, ↓reduceIte]
    exact append_brief h payload
  by_cases hpad : (align - p.activeCursor % align) % align = 0
  · simp only [halign, hpad, or_true, ↓reduceIte, gt_iff_lt, Nat.lt_irrefl]
    exact append_brief h payload
  have hpos := Nat.pos_of_ne_zero hpad
  simp only [halign, hpad, or_self, ↓reduceIte, gt_iff_lt, hpos]
  split
  · -- the padding does not fit: the payload opens a new segment
    exact append_brief (writer_inv_sealAndRotate h) payload
  · obtain ⟨ha, loc, q, happ, hq, -⟩ | ⟨hno, err, q, happ, hq⟩ := append_brief h
      (List.replicate ((align - p.activeCursor % align) % align) 0)
    · simp only [happ, ha, true_and]
      exact append_brief hq payload
    · simp only [happ, hno, false_and, not_false_eq_true, true_and, false_or]
      exact ⟨err, q, rfl, hq⟩

/-- A rewind stays inside the segment. -/
theorem writer_inv_rewind {p p' : SegmentPool} (h : p.writer.Inv) {segId offset : Nat}
    (hr : p.rewindActiveTo segId offset = .ok p') : p'.writer.Inv := by
  unfold rewindActiveTo at hr
  split at hr
  · obtain rfl : p = p' := by simpa using hr
    exact h
  · split at hr
    · exact nomatch hr
    · rename_i hle
      obtain rfl : { p with activeCursor := offset } = p' := by simpa using hr
      exact ⟨Nat.le_trans (Nat.not_lt.mp hle) h.cursor_le, h.mem, h.le⟩

/-- A locator of the pool is in range for a reader. -/
theorem view_of_holds {p : SegmentPool} {loc : ValueLocator} (h : p.writer.Holds loc) :
    p.view loc = .ok (p.writer.bytesAt loc) := by
  obtain ⟨hmem, hlen, -⟩ := h
  unfold view
  rw [if_neg (fun hn => hn hmem),
    if_neg (show ¬(loc.offset + loc.len > p.segSize) from Nat.not_lt.mpr hlen)]
  rfl

/-- `flush` changes the durable copy and the recorded cursor only. -/
theorem inv_flush {p : SegmentPool} (h : p.Inv) : p.flush.Inv where
  writer := ⟨h.writer.cursor_le, h.writer.mem, h.writer.le⟩
  segSize_le := h.segSize_le
  recorded := by
    intro sid c hc
    simp only [flush, SegDir.writeCursor, Option.some.injEq, Prod.mk.injEq] at hc
    obtain ⟨rfl, rfl⟩ := hc
    exact ⟨rfl, Nat.le_refl _⟩

/-! #### Reopening -/

/-- What the files of a pool guarantee to the next `open`. -/
structure DirInv (d : SegDir) (segSize : Nat) : Prop where
  recorded : ∀ sid c, d.cursor = some (sid, c) →
    sid ∈ d.files ∧ c ≤ segSize ∧ ∀ f ∈ d.files, f ≤ sid

/-- What a pool leaves on disk when its process ends. -/
theorem Inv.dirInv {p : SegmentPool} (h : p.Inv) : DirInv p.dir p.segSize where
  recorded := by
    intro sid c hc
    obtain ⟨rfl, hle⟩ := h.recorded sid c hc
    exact ⟨h.writer.mem, Nat.le_trans hle h.writer.cursor_le, h.writer.le⟩

/-- An empty directory. -/
theorem dirInv_empty (segSize : Nat) : DirInv .empty segSize where
  recorded := by
    intro sid c hc
    exact nomatch hc

/-- Without a cursor file a new segment is begun. -/
private theorem open_none {d : SegDir} (hc : d.cursor = none) :
    «open» d 0 = ⟨d.createSeg d.nextSegId, defaultSegmentSize, d.nextSegId, 0⟩ := by
  simp only [«open», hc, ↓reduceIte]

/-- The recorded segment is there and has room, so it is taken up again. -/
private theorem open_some {d : SegDir} (h : DirInv d defaultSegmentSize) {sid c : Nat}
    (hc : d.cursor = some (sid, c)) :
    «open» d 0 = ⟨d.createSeg sid, defaultSegmentSize, sid, c⟩ := by
  obtain ⟨hmem, hle, -⟩ := h.recorded sid c hc
  simp only [«open», hc, ↓reduceIte, hmem, hle, and_self]

/-- A default segment is in reach of a locator. -/
theorem defaultSegmentSize_le : defaultSegmentSize ≤ u32Max := by decide

/-- Reopening establishes the invariant, whatever was lost. -/
theorem inv_open {d : SegDir} (h : DirInv d defaultSegmentSize) :
    («open» d 0).Inv ∧ («open» d 0).segSize = defaultSegmentSize := by
  cases hc : d.cursor with
  | none =>
    rw [open_none hc]
    refine ⟨⟨Writer.inv_fresh d _, defaultSegmentSize_le, fun sid c h' => ?_⟩, rfl⟩
    rw [SegDir.cursor_createSeg, hc] at h'
    exact nomatch h'
  | some sc =>
    obtain ⟨sid, c⟩ := sc
    obtain ⟨-, hle, hmax⟩ := h.recorded sid c hc
    rw [open_some h hc]
    refine ⟨⟨⟨hle, SegDir.mem_createSeg.mpr (Or.inl rfl), ?_⟩, defaultSegmentSize_le, ?_⟩, rfl⟩
    · intro f hf
      rcases SegDir.mem_createSeg.mp hf with rfl | hf
      · exact Nat.le_refl _
      · exact hmax f hf
    · intro sid' c' h'
      rw [SegDir.cursor_createSeg, hc, Option.some.injEq, Prod.mk.injEq] at h'
      obtain ⟨rfl, rfl⟩ := h'
      exact ⟨rfl, Nat.le_refl _⟩

/-- A reopened pool holds the recorded locators. -/
theorem holds_open {d : SegDir} (h : DirInv d defaultSegmentSize) {loc : ValueLocator}
    (hmem : loc.segId ∈ d.files) (hlen : loc.offset + loc.len ≤ defaultSegmentSize)
    (hrec : Recorded d loc) : («open» d 0).writer.Holds loc := by
  cases hc : d.cursor with
  | none =>
    rw [open_none hc]
    exact ⟨SegDir.mem_createSeg.mpr (Or.inr hmem), hlen, Or.inl (SegDir.lt_nextSegId hmem)⟩
  | some sc =>
    rw [open_some h hc]
    exact ⟨SegDir.mem_createSeg.mpr (Or.inr hmem), hlen, hrec sc hc⟩

/-- Reopening leaves the bytes of every existing segment alone. -/
theorem bytesAt_open {d : SegDir} {loc : ValueLocator} (hmem : loc.segId ∈ d.files) :
    («open» d 0).writer.bytesAt loc = d.mem.volatile.read loc.segId loc.offset loc.len := by
  unfold «open»
  exact SegDir.read_createSeg hmem

end SegmentPool

/-! ### The vector pool -/

namespace VecSegmentPool

/-- The size of the segments of a pool opened with `segSize`. -/
def sizeOf (segSize : Nat) : Nat := if segSize = 0 then defaultVecSegmentSize else segSize

/-- Zero asks for the default. -/
theorem sizeOf_zero : sizeOf 0 = defaultVecSegmentSize := rfl

/-- So is a default segment of vectors. -/
theorem defaultVecSegmentSize_le : defaultVecSegmentSize ≤ u32Max := by decide

/-- The pool as a writer. -/
def writer (p : VecSegmentPool) : Writer := ⟨p.dir, p.segSize, p.activeId, p.activeCursor⟩

/-- Every slot of `byteLen` bytes in a segment of `segSize` bytes ends where 32 bits reach. -/
def Addressable (segSize byteLen : Nat) : Prop :=
  ∀ k, (k + 1) * byteLen ≤ segSize → (k + 1) * byteLen ≤ u32Max

/-- In small segments every slot is in reach. -/
theorem addressable_of_le {segSize : Nat} (h : segSize ≤ u32Max) (byteLen : Nat) :
    Addressable segSize byteLen := fun _ hk => Nat.le_trans hk h

/-- A locator of one whole vector of the pool. -/
def Slot (p : VecSegmentPool) (loc : ValueLocator) : Prop :=
  loc.len = p.byteLen ∧ loc.offset + loc.len ≤ u32Max

/-- Slots depend on the dimension only. -/
theorem Slot.of_dim {p q : VecSegmentPool} {loc : ValueLocator} (h : p.Slot loc)
    (hdim : q.dim = p.dim) : q.Slot loc := by
  refine ⟨h.1.trans ?_, h.2⟩
  rw [byteLen, byteLen, hdim]

/-- What holds of a vector pool between calls: the cursor is at the start of a slot. -/
structure Inv (p : VecSegmentPool) : Prop where
  writer : p.writer.Inv
  slots : Addressable p.segSize p.byteLen
  aligned : p.byteLen ∣ p.activeCursor

private def makeRoom (p : VecSegmentPool) : VecSegmentPool :=
  if p.byteLen > p.remaining then p.sealAndRotate else p

/-- What an append leaves of a pool, whatever it returns. -/
structure Moved (p q : VecSegmentPool) : Prop where
  dim : q.dim = p.dim
  segSize : q.segSize = p.segSize
  cursor_le : q.activeCursor ≤ q.segSize

/-- The pool did not move. -/
theorem Moved.refl {p : VecSegmentPool} (h : p.activeCursor ≤ p.segSize) : p.Moved p :=
  ⟨rfl, rfl, h⟩

/-- One move after the other. -/
theorem Moved.trans {p q r : VecSegmentPool} (hpq : p.Moved q) (hqr : q.Moved r) : p.Moved r :=
  ⟨hqr.dim.trans hpq.dim, hqr.segSize.trans hpq.segSize, hqr.cursor_le⟩

/-- The cursor goes forward or into the next segment, and there is room for a vector if a
    segment has any. -/
private theorem makeRoom_moved {p : VecSegmentPool} (h : p.activeCursor ≤ p.segSize) :
    p.Moved p.makeRoom ∧
      (p.makeRoom.activeCursor + p.byteLen ≤ p.segSize ↔ p.byteLen ≤ p.segSize) := by
  unfold makeRoom
  split
  · refine ⟨⟨rfl, rfl, Nat.zero_le _⟩, ?_⟩
    show 0 + p.byteLen ≤ p.segSize ↔ p.byteLen ≤ p.segSize
    omega
  · rename_i hroom
    simp only [remaining] at hroom
    exact ⟨.refl h, by omega⟩

/-- The pool an append of a vector writes into. -/
private theorem makeRoom_spec {p : VecSegmentPool} (h : p.Inv) :
    p.makeRoom.Inv ∧ p.writer.Keeps p.makeRoom.writer ∧ p.makeRoom.segSize = p.segSize ∧
      p.makeRoom.dim = p.dim ∧
      (p.makeRoom.activeCursor + p.byteLen ≤ p.segSize ↔ p.byteLen ≤ p.segSize) := by
  obtain ⟨hm, hroom⟩ := makeRoom_moved h.writer.cursor_le
  have hkeep : p.makeRoom.Inv ∧ p.writer.Keeps p.makeRoom.writer := by
    unfold makeRoom
    split
    · exact ⟨⟨Writer.inv_rotate h.writer, h.slots, Nat.dvd_zero _⟩, Writer.keeps_rotate h.writer⟩
    · exact ⟨h, .refl _⟩
  exact ⟨hkeep.1, hkeep.2, hm.segSize, hm.dim, hroom⟩

/-- `append`, with the rotation in front of it named. -/
private theorem append_eq (p : VecSegmentPool) (vector : List F32) :
    p.append vector =
      if p.makeRoom.activeCursor + p.makeRoom.byteLen > p.makeRoom.segSize then
        (.error (.panicked "range end index out of range for slice"), p.makeRoom)
      else if (encodeF32s vector).length ≠ p.makeRoom.byteLen then
        (.error (.panicked
          "copy_from_slice: source slice length does not match destination slice length"),
          p.makeRoom)
      else
        (.ok ⟨p.makeRoom.activeId, p.makeRoom.activeCursor % 2 ^ 32, p.makeRoom.byteLen % 2 ^ 32⟩,
          { p.makeRoom with
            dir := p.makeRoom.dir.store p.makeRoom.activeId p.makeRoom.activeCursor
              (encodeF32s vector)
            activeCursor := p.makeRoom.activeCursor + p.makeRoom.byteLen }) :=
  rfl

/-- With room behind the cursor an append is one move of the writer. -/
private theorem append_put {p q : VecSegmentPool} (hq : p.makeRoom = q) {vector : List F32}
    (hdim : vector.length = q.dim) (hroom : q.activeCursor + q.byteLen ≤ q.segSize) :
    ∃ p', p.append vector =
        (.ok ⟨q.activeId, q.activeCursor % 2 ^ 32, q.byteLen % 2 ^ 32⟩, p') ∧
      p'.writer = q.writer.put (encodeF32s vector) ∧ p'.dim = q.dim := by
  have hbytes : (encodeF32s vector).length = q.byteLen := by
    rw [length_encodeF32s, hdim, byteLen]
  rw [append_eq, hq, if_neg (by omega), if_neg (fun hne => hne hbytes)]
  refine ⟨_, rfl, ?_, rfl⟩
  rw [Writer.put, hbytes]
  rfl

/-- An append goes through exactly if the vector is as long as a slot and a segment has
    room for one. -/
theorem append_outcome {p : VecSegmentPool} (h : p.activeCursor ≤ p.segSize)
    (vector : List F32) :
    (vector.length = p.dim ∧ p.byteLen ≤ p.segSize ∧ ∃ loc p', p.append vector = (.ok loc, p') ∧
      loc.len = p.byteLen % 2 ^ 32 ∧ p.Moved p') ∨
    (¬(vector.length = p.dim ∧ p.byteLen ≤ p.segSize) ∧
      ∃ err p', p.append vector = (.error err, p') ∧ p.Moved p') := by
  obtain ⟨hm, hroom⟩ := makeRoom_moved h
  rw [append_eq]
  generalize p.makeRoom = q at hm hroom
  have hbyte : q.byteLen = p.byteLen := by rw [byteLen, byteLen, hm.dim]
  rw [hbyte, hm.segSize]
  -- a rotation makes room for one vector unless no segment can hold it
  by_cases hfit : p.byteLen ≤ p.segSize
  · have hstay := hroom.mpr hfit
    rw [if_neg (Nat.not_lt.mpr hstay)]
    by_cases hdim : vector.length = p.dim
    · rw [if_neg (by rw [length_encodeF32s, hdim, byteLen]; exact fun hne => hne rfl)]
      refine Or.inl ⟨hdim, hfit, _, _, rfl, rfl, hm.dim, hm.segSize, ?_⟩
      rw [← hm.segSize] at hstay
      exact hstay
    · rw [if_pos (by rw [length_encodeF32s, byteLen]; omega)]
      exact Or.inr ⟨fun hc => hdim hc.1, _, _, rfl, hm⟩
  · rw [if_pos (by omega)]
    exact Or.inr ⟨fun hc => hfit hc.2, _, _, rfl, hm⟩

/-- An append into the active segment, wherever its cursor is. -/
theorem append_here {p : VecSegmentPool} {vector : List F32} (hdim : vector.length = p.dim)
    (hroom : p.activeCursor + p.byteLen ≤ p.segSize) :
    ∃ p', p.append vector =
        (.ok ⟨p.activeId, p.activeCursor % 2 ^ 32, p.byteLen % 2 ^ 32⟩, p') ∧
      p'.writer = p.writer.put (encodeF32s vector) ∧ p'.dim = p.dim := by
  have hstay : p.makeRoom = p := by
    unfold makeRoom remaining
    exact if_neg (by omega)
  exact append_put hstay hdim hroom

/-- An append that opens a new segment. -/
theorem append_rotated {p : VecSegmentPool} {vector : List F32} (hdim : vector.length = p.dim)
    (hfull : p.remaining < p.byteLen) (hfit : p.byteLen ≤ p.segSize) :
    ∃ p', p.append vector = (.ok ⟨p.activeId + 1, 0, p.byteLen % 2 ^ 32⟩, p') ∧
      p'.writer = p.writer.rotate.put (encodeF32s vector) ∧ p'.dim = p.dim := by
  have hrotate : p.makeRoom = p.sealAndRotate := if_pos hfull
  have hroom : 0 + p.byteLen ≤ p.segSize := by omega
  obtain ⟨p', happ, hw, hd⟩ := append_put hrotate hdim hroom
  exact ⟨p', happ, hw, hd⟩

/-- An aligned cursor with room for one more vector is the offset of an addressable slot. -/
theorem Inv.slot_le {p : VecSegmentPool} (h : p.Inv)
    (hroom : p.activeCursor + p.byteLen ≤ p.segSize) : p.activeCursor + p.byteLen ≤ u32Max := by
  obtain ⟨k, hk⟩ := h.aligned
  have hend : p.activeCursor + p.byteLen = (k + 1) * p.byteLen := by
    rw [hk, Nat.add_mul, Nat.one_mul, Nat.mul_comm]
  rw [hend] at hroom ⊢
  exact h.slots k hroom

/-- One append of a vector of the pool's dimension, if a segment can hold it at all. -/
theorem append_ok {p : VecSegmentPool} (h : p.Inv) {vector : List F32}
    (hdim : vector.length = p.dim) (hfit : p.byteLen ≤ p.segSize) :
    ∃ loc p', p.append vector = (.ok loc, p') ∧ p'.Inv ∧ p'.dim = p.dim ∧
      p.writer.Keeps p'.writer ∧ p'.writer.Holds loc ∧
      p'.writer.bytesAt loc = encodeF32s vector ∧ p'.Slot loc := by
  obtain ⟨hinv, hkeep, hsize, hdim', hroom⟩ := makeRoom_spec h
  generalize hq : p.makeRoom = q at *
  have hlen : q.byteLen = p.byteLen := by rw [byteLen, byteLen, hdim']
  have hstay : q.activeCursor + q.byteLen ≤ q.segSize := by
    rw [hlen, hsize]
    exact hroom.mpr hfit
  -- a slot fits behind the cursor, so nothing panics
  obtain ⟨p', happ, hw, hd⟩ := append_put hq (hdim.trans hdim'.symm) hstay
  -- the slot ends below 2 ^ 32, so the locator is the place of the vector
  have hend := hinv.slot_le hstay
  have hmax := hend
  unfold u32Max at hmax
  rw [Nat.mod_eq_of_lt (by omega), Nat.mod_eq_of_lt (by omega)] at happ
  have hbytes : (encodeF32s vector).length = q.byteLen := by
    rw [length_encodeF32s, hdim, hlen, byteLen]
  have hput : q.writer.cursor + (encodeF32s vector).length ≤ q.writer.segSize := hbytes ▸ hstay
  have hsize' : p'.segSize = q.segSize := congrArg Writer.segSize hw
  have hcur : p'.activeCursor = q.activeCursor + q.byteLen := by
    rw [← hbytes]
    exact congrArg Writer.cursor hw
  have hlen' : p'.byteLen = q.byteLen := by rw [byteLen, byteLen, hd]
  refine ⟨_, p', happ, ⟨hw ▸ Writer.inv_put hinv.writer hput, ?_, ?_⟩, hd.trans hdim', ?_, ?_, ?_,
    hlen'.symm, hend⟩
  · rw [hsize', hlen']
    exact hinv.slots
  · rw [hcur, hlen']
    exact Nat.dvd_add hinv.aligned (Nat.dvd_refl _)
  · exact hkeep.trans (hw ▸ Writer.keeps_put q.writer (encodeF32s vector))
  · rw [hw, ← hbytes]
    exact Writer.holds_put hinv.writer hput
  · rw [hw, ← hbytes]
    exact Writer.bytesAt_put q.writer (encodeF32s vector)

/-- A dimension whose vectors are larger than a segment: every append panics. -/
theorem append_error {p : VecSegmentPool} (h : p.Inv) (vector : List F32)
    (hfit : p.segSize < p.byteLen) :
    ∃ msg p', p.append vector = (.error (.panicked msg), p') ∧ p'.Inv ∧ p'.dim = p.dim ∧
      p.writer.Keeps p'.writer := by
  obtain ⟨hinv, hkeep, hsize, hdim', hroom⟩ := makeRoom_spec h
  rw [append_eq]
  generalize p.makeRoom = q at *
  have hlen : q.byteLen = p.byteLen := by rw [byteLen, byteLen, hdim']
  rw [if_pos (by omega)]
  exact ⟨_, q, rfl, hinv, hdim', hkeep⟩

/-- A flush moves nothing. -/
theorem inv_flush {p : VecSegmentPool} (h : p.Inv) : p.flush.Inv :=
  ⟨⟨h.writer.cursor_le, h.writer.mem, h.writer.le⟩, h.slots, h.aligned⟩

/-- Nor does it write. -/
theorem keeps_flush (p : VecSegmentPool) : p.writer.Keeps p.flush.writer :=
  p.writer.keeps_flushSeg

/-- `read_vec` returns the bytes of a locator the pool holds; only in a sealed segment does
    the end of the slot matter. -/
theorem readVec_of_end {p : VecSegmentPool} {loc : ValueLocator} (h : p.writer.Holds loc)
    (hlen : loc.len = p.byteLen) (hend : loc.segId ≠ p.activeId → loc.offset + loc.len ≤ u32Max) :
    p.readVec loc = .ok (decodeF32s (p.writer.bytesAt loc)) := by
  obtain ⟨hmem, hle, -⟩ := h
  simp only [writer] at hmem hle
  unfold readVec
  rw [← hlen]
  split
  · rw [if_neg (by omega)]
    rfl
  · rename_i hsealed
    have hfits := hend hsealed
    rw [if_neg (by omega), if_neg (by omega)]
    rfl

/-- Both read paths return the bytes of a locator the pool holds. -/
theorem readVec_of_holds {p : VecSegmentPool} {loc : ValueLocator} (h : p.writer.Holds loc)
    (hslot : p.Slot loc) : p.readVec loc = .ok (decodeF32s (p.writer.bytesAt loc)) :=
  readVec_of_end h hslot.1 fun _ => hslot.2

/-- A slot reads back as the floats of its bytes. -/
theorem vecSlice_of_holds {p : VecSegmentPool} {loc : ValueLocator} (h : p.writer.Holds loc)
    (hlen : loc.len = p.byteLen) : p.vecSlice loc = .ok (decodeF32s (p.writer.bytesAt loc)) := by
  obtain ⟨hmem, hle, -⟩ := h
  simp only [writer] at hmem hle
  have hdiv : loc.len / 4 * 4 = loc.len := by
    rw [hlen, byteLen]
    omega
  unfold vecSlice
  simp only [hdiv]
  rw [if_neg (fun hn => hn.2 hmem), if_neg (by omega)]
  rfl

/-- The number of floats is that of the locator. -/
theorem length_vecSlice {p : VecSegmentPool} {loc : ValueLocator} {v : List F32}
    (h : p.vecSlice loc = .ok v) : v.length = loc.len / 4 := by
  unfold vecSlice at h
  simp only at h
  split at h
  · exact nomatch h
  · split at h
    · exact nomatch h
    · obtain rfl := Except.ok.inj h
      rw [length_decodeF32s, length_read]
      omega

/-- In the active segment `read_vec` goes by the dimension of the pool. -/
theorem length_readVec {p : VecSegmentPool} {loc : ValueLocator} {v : List F32}
    (h : p.readVec loc = .ok v) : v.length = p.dim ∨ v.length = loc.len / 4 := by
  unfold readVec at h
  split at h
  · split at h
    · exact nomatch h
    · obtain rfl := Except.ok.inj h
      rw [length_decodeF32s, length_read, byteLen]
      omega
  · split at h
    · exact nomatch h
    split at h
    · exact nomatch h
    split at h
    · exact nomatch h
    · obtain rfl := Except.ok.inj h
      rw [length_decodeF32s, length_read]
      exact Or.inr rfl

/-- An open starts inside a segment. -/
theorem writer_inv_open (d : SegDir) (segSize dim : Nat) : («open» d segSize dim).writer.Inv :=
  Writer.inv_fresh d _

/-- A reopened vector pool starts a new segment, so it holds whatever is in a file. -/
theorem inv_open (d : SegDir) {segSize dim : Nat} (h : Addressable (sizeOf segSize) (dim * 4)) :
    («open» d segSize dim).Inv :=
  ⟨writer_inv_open d segSize dim, h, Nat.dvd_zero _⟩

/-- A locator of the directory is one of the pool that opens it. -/
theorem holds_open {d : SegDir} {segSize dim : Nat} {loc : ValueLocator}
    (hmem : loc.segId ∈ d.files) (hlen : loc.offset + loc.len ≤ sizeOf segSize) :
    («open» d segSize dim).writer.Holds loc :=
  ⟨SegDir.mem_createSeg.mpr (Or.inr hmem), hlen, Or.inl (SegDir.lt_nextSegId hmem)⟩

/-- An open writes no byte. -/
theorem bytesAt_open {d : SegDir} {segSize dim : Nat} {loc : ValueLocator}
    (hmem : loc.segId ∈ d.files) :
    («open» d segSize dim).writer.bytesAt loc =
      d.mem.volatile.read loc.segId loc.offset loc.len :=
  SegDir.read_createSeg hmem

end VecSegmentPool

end FusionStore
