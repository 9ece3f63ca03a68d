import FusionStore.ForStd.Run
import FusionStore.Native.Wal
import FusionStore.Spec.WalCodecCorrect

/-!
# The log file

What the calls of `Wal` do to `wal.log` as long as nothing crashes: the file holds the
frames of a list of entries, numbered 1, 2, 3, … in the order of the calls and filtered
at each truncation (first section).  Then what a crash inside `truncate_to` leaves: the
entries to keep are written back over the file itself, so from the truncating open on
they are gone until they are written again (second section).

## Key results

- `Wal.refines_list`: a run of calls computes the list of entries
- `Wal.crashAtomic_iff`: a truncation is atomic exactly if it has nothing to keep
-/

namespace FusionStore

open LittleEndian

/-! ### A list of entries -/

/-- The calls on an open log. -/
inductive WalCall where
  | append (op : WalOp)
  | appendBatch (ops : List WalOp)
  | truncateTo (appliedSeq : Nat)
  deriving DecidableEq

/-- One call; a call that fails leaves the log as it was. -/
def Wal.step (w : Wal) : WalCall → Wal
  | .append op =>
    match w.append op with
    | .ok (_, w') => w'
    | .error _ => w
  | .appendBatch ops =>
    match w.appendBatch ops with
    | .ok (_, w') => w'
    | .error _ => w
  | .truncateTo appliedSeq =>
    match w.truncateTo appliedSeq with
    | .ok w' => w'
    | .error _ => w

/-- `append` for one operation after the other. -/
def Wal.appendEach (w : Wal) : List WalOp → Except StoreError Wal
  | [] => .ok w
  | op :: ops => do
    let (_, w) ← w.append op
    w.appendEach ops

/-- The log as it is meant: how many operations were accepted, and the entries that
    are still there.  Sequence numbers are `u64`s. -/
structure EntryList where
  accepted : Nat
  entries : List (UInt64 × WalOp)

namespace EntryList

/-- Accept one operation under the next number. -/
def add (l : EntryList) (op : WalOp) : EntryList :=
  ⟨l.accepted + 1, l.entries ++ [(UInt64.ofNat (l.accepted + 1), op)]⟩

/-- An operation whose body the frame format can carry. -/
def Accepts (op : WalOp) : Prop := (encodeOp op).length ≤ u32Max

instance (op : WalOp) : Decidable (Accepts op) := inferInstanceAs (Decidable (_ ≤ _))

/-- One call: oversized operations are refused, a batch as a whole. -/
def step (l : EntryList) : WalCall → EntryList
  | .append op => if Accepts op then l.add op else l
  | .appendBatch ops => if ∀ op ∈ ops, Accepts op then ops.foldl add l else l
  | .truncateTo appliedSeq =>
    { l with entries := l.entries.filter fun e => appliedSeq < e.1.toNat }

/-- The entries as `read_all` returns them. -/
def toEntries (l : EntryList) : List WalEntry := l.entries.map fun e => ⟨e.1.toNat, e.2⟩

theorem toEntries_add (l : EntryList) (op : WalOp) :
    (l.add op).toEntries =
      l.toEntries ++ [⟨(UInt64.ofNat (l.accepted + 1)).toNat, op⟩] := by
  simp [toEntries, add]

end EntryList

namespace Wal

/-- The file holds the frames of the list, and numbering continues behind it. -/
structure Holds (w : Wal) (l : EntryList) : Prop where
  log : w.dir.log = frames l.toEntries
  nextSeq : w.nextSeq = l.accepted + 1
  accepts : ∀ e ∈ l.entries, EntryList.Accepts e.2

variable {w w' : Wal} {l : EntryList}

theorem Holds.fits (h : w.Holds l) : ∀ e ∈ l.toEntries, e.Fits := by
  intro e he
  obtain ⟨x, hx, rfl⟩ := List.mem_map.mp he
  exact ⟨x.1.toNat_lt, h.accepts x hx⟩

theorem Holds.readAll_eq (h : w.Holds l) : readAll w.dir.log = .ok l.toEntries := by
  rw [h.log, readAll_frames _ h.fits]

/-- A frame carries its number as a `u64`. -/
theorem frame_ofNat (seq : Nat) (op : WalOp) :
    frame ⟨(UInt64.ofNat seq).toNat, op⟩ = frame ⟨seq, op⟩ := by
  have hmod : (UInt64.ofNat seq).toNat = seq % 256 ^ 8 := by
    rw [UInt64.toNat_ofNat']
    norm_num
  simp only [frame, hmod, toLE_mod]

/-- The frame of the next operation goes to the end of the file. -/
private theorem Holds.add (h : w.Holds l) {op : WalOp} (hop : EntryList.Accepts op) :
    Holds ⟨{ w.dir with log := w.dir.log ++ frame ⟨w.nextSeq, op⟩ }, w.nextSeq + 1⟩ (l.add op) where
  log := by
    simp only [l.toEntries_add, frames_append, h.log, h.nextSeq]
    rw [show frames [⟨(UInt64.ofNat (l.accepted + 1)).toNat, op⟩] =
      frame ⟨(UInt64.ofNat (l.accepted + 1)).toNat, op⟩ from List.append_nil _, frame_ofNat]
  nextSeq := by
    simp only [EntryList.add, h.nextSeq]
  accepts := by
    intro e he
    rcases List.mem_append.mp he with he | he
    · exact h.accepts e he
    · rw [List.mem_singleton.mp he]
      exact hop

theorem Holds.append (h : w.Holds l) (op : WalOp) :
    (w.step (.append op)).Holds (l.step (.append op)) := by
  by_cases hop : EntryList.Accepts op
  · have hlen : ¬(encodeOp op).length > u32Max := Nat.not_lt.mpr hop
    simp only [step, EntryList.step, Wal.append, if_neg hlen, if_pos hop]
    exact h.add hop
  · have hlen : (encodeOp op).length > u32Max := Nat.lt_of_not_le hop
    simp only [step, EntryList.step, Wal.append, if_pos hlen, if_neg hop]
    exact h

/-- Appending one by one: it stops at the first operation that is too large. -/
private theorem appendEach_holds (h : w.Holds l) {ops : List WalOp}
    (hops : ∀ op ∈ ops, EntryList.Accepts op) :
    ∃ w', w.appendEach ops = .ok w' ∧ w'.Holds (ops.foldl EntryList.add l) := by
  induction ops generalizing w l with
  | nil => exact ⟨w, rfl, h⟩
  | cons op ops ih =>
    have hop := hops op List.mem_cons_self
    have hlen : ¬(encodeOp op).length > u32Max := Nat.not_lt.mpr hop
    obtain ⟨w', hw', hh⟩ := ih (h.add hop) fun x hx => hops x (List.mem_cons_of_mem _ hx)
    refine ⟨w', ?_, hh⟩
    rw [appendEach]
    simp only [Wal.append, if_neg hlen, bind, Except.bind]
    exact hw'

private theorem batchFrames_refused (seq : Nat) {ops : List WalOp}
    (h : ¬∀ op ∈ ops, EntryList.Accepts op) :
    ∃ op ∈ ops, ¬EntryList.Accepts op ∧
      batchFrames seq ops = .error (.valueTooLarge (encodeOp op).length) := by
  induction ops generalizing seq with
  | nil => exact absurd (by simp) h
  | cons op ops ih =>
    unfold batchFrames
    by_cases hop : EntryList.Accepts op
    · have hrest : ¬∀ x ∈ ops, EntryList.Accepts x := by
        intro hall
        exact h fun x hx => (List.mem_cons.mp hx).elim (fun heq => heq ▸ hop) (hall x)
      obtain ⟨x, hx, hn, heq⟩ := ih (seq + 1) hrest
      refine ⟨x, List.mem_cons_of_mem _ hx, hn, ?_⟩
      rw [if_neg (Nat.not_lt.mpr hop), heq]
      rfl
    · exact ⟨op, List.mem_cons_self, hop, if_pos (Nat.lt_of_not_le hop)⟩

/-- The buffer of a batch is what the appends of its operations would write. -/
private theorem batchFrames_accepted {ops : List WalOp} (hops : ∀ op ∈ ops, EntryList.Accepts op)
    (w : Wal) :
    ∃ buf, batchFrames w.nextSeq ops = .ok buf ∧ w.appendEach ops =
      .ok ⟨{ w.dir with log := w.dir.log ++ buf }, w.nextSeq + ops.length⟩ := by
  induction ops generalizing w with
  | nil =>
    refine ⟨[], rfl, ?_⟩
    rw [appendEach, List.append_nil]
    rfl
  | cons op ops ih =>
    have hlen : ¬(encodeOp op).length > u32Max := Nat.not_lt.mpr (hops op List.mem_cons_self)
    obtain ⟨buf, hbuf, heach⟩ := ih (fun x hx => hops x (List.mem_cons_of_mem _ hx))
      ⟨{ w.dir with log := w.dir.log ++ frame ⟨w.nextSeq, op⟩ }, w.nextSeq + 1⟩
    refine ⟨frame ⟨w.nextSeq, op⟩ ++ buf, ?_, ?_⟩
    · unfold batchFrames
      rw [if_neg hlen, hbuf]
      rfl
    · rw [appendEach]
      simp only [Wal.append, if_neg hlen, bind, Except.bind]
      have hnext : w.nextSeq + 1 + ops.length = w.nextSeq + (ops.length + 1) := by omega
      simp only [heach, List.append_assoc, List.length_cons, hnext]

/-- A batch that is accepted leaves what its appends would leave, a batch with an
    oversized operation is refused for that operation. -/
theorem appendBatch_cases (w : Wal) (ops : List WalOp) :
    ((∀ op ∈ ops, EntryList.Accepts op) ∧ ∃ w', w.appendBatch ops = .ok (w.nextSeq, w') ∧
      w.appendEach ops = .ok w') ∨
    ((¬∀ op ∈ ops, EntryList.Accepts op) ∧ ∃ op ∈ ops, ¬EntryList.Accepts op ∧
      w.appendBatch ops = .error (.valueTooLarge (encodeOp op).length)) := by
  by_cases hops : ∀ op ∈ ops, EntryList.Accepts op
  · refine Or.inl ⟨hops, ?_⟩
    obtain ⟨buf, hbuf, heach⟩ := batchFrames_accepted hops w
    unfold appendBatch
    cases ops with
    | nil => exact ⟨w, rfl, rfl⟩
    | cons op ops =>
      rw [if_neg (by simp), hbuf]
      exact ⟨_, rfl, heach⟩
  · refine Or.inr ⟨hops, ?_⟩
    obtain ⟨op, hop, hn, heq⟩ := batchFrames_refused w.nextSeq hops
    refine ⟨op, hop, hn, ?_⟩
    unfold appendBatch
    cases ops with
    | nil => exact nomatch hop
    | cons x ops =>
      rw [if_neg (by simp), heq]
      rfl

theorem Holds.appendBatch (h : w.Holds l) (ops : List WalOp) :
    (w.step (.appendBatch ops)).Holds (l.step (.appendBatch ops)) := by
  rcases appendBatch_cases w ops with ⟨hops, w', hb, heach⟩ | ⟨hops, op, -, -, hb⟩
  · simp only [step, EntryList.step, hb, if_pos hops]
    obtain ⟨w'', hw'', hh⟩ := appendEach_holds h hops
    rw [heach, Except.ok.injEq] at hw''
    exact hw'' ▸ hh
  · simp only [step, EntryList.step, hb, if_neg hops]
    exact h

theorem Holds.truncateTo (h : w.Holds l) (appliedSeq : Nat) :
    (w.step (.truncateTo appliedSeq)).Holds (l.step (.truncateTo appliedSeq)) := by
  have hfilter : (l.step (.truncateTo appliedSeq)).toEntries =
      l.toEntries.filter fun e => appliedSeq < e.seq := by
    simp only [EntryList.toEntries, EntryList.step, List.filter_map]
    rfl
  have haccepts : ∀ e ∈ (l.step (.truncateTo appliedSeq)).entries, EntryList.Accepts e.2 :=
    fun e he => h.accepts e (List.mem_filter.mp he).1
  simp only [step, Wal.truncateTo, truncateKeep, h.readAll_eq, bind, Except.bind]
  cases hes : l.toEntries with
  | nil =>
    -- an empty log is left alone
    rw [if_pos (by simp)]
    refine ⟨?_, h.nextSeq, haccepts⟩
    rw [h.log, hfilter, hes, List.filter_nil]
  | cons e es =>
    rw [if_neg (by simp)]
    refine ⟨?_, h.nextSeq, haccepts⟩
    rw [hfilter, hes]

theorem Holds.step (h : w.Holds l) (c : WalCall) : (w.step c).Holds (l.step c) := by
  cases c with
  | append op => exact h.append op
  | appendBatch ops => exact h.appendBatch ops
  | truncateTo appliedSeq => exact h.truncateTo appliedSeq

/-- A run of calls keeps the file and the list together. -/
theorem Holds.run (h : w.Holds l) (calls : List WalCall) :
    (Run.exec Wal.step w calls).Holds (Run.exec EntryList.step l calls) := by
  induction calls generalizing w l with
  | nil => exact h
  | cons c calls ih => exact ih (h.step c)

/-- From an empty directory on, a log is the list of the operations it accepted, numbered
    from 1, without those that truncations dropped; and a batch is its appends, or nothing. -/
theorem refines_list (calls : List WalCall) :
    ∃ w₀ : Wal, Wal.open ⟨[], none⟩ = .ok w₀ ∧
      let w := Run.exec Wal.step w₀ calls
      let l := Run.exec EntryList.step ⟨0, []⟩ calls
      readAll w.dir.log = .ok l.toEntries ∧ w.nextSeq = l.accepted + 1 ∧
        ∀ ops, (∀ first w', w.appendBatch ops = .ok (first, w') → w.appendEach ops = .ok w') ∧
          ∀ err, w.appendBatch ops = .error err →
            (∃ op ∈ ops, err = .valueTooLarge (encodeOp op).length) ∧
              w.step (.appendBatch ops) = w := by
  have hstart : Holds ⟨⟨[], none⟩, 1⟩ ⟨0, []⟩ := ⟨rfl, rfl, by simp⟩
  have h := hstart.run calls
  refine ⟨⟨⟨[], none⟩, 1⟩, rfl, h.readAll_eq, h.nextSeq, fun ops => ⟨?_, ?_⟩⟩
  · intro first w' hw'
    rcases appendBatch_cases _ ops with ⟨-, w'', hb, heach⟩ | ⟨-, op, -, -, hb⟩
    · rw [hb] at hw'
      obtain ⟨-, rfl⟩ := Prod.mk.inj (Except.ok.inj hw')
      exact heach
    · rw [hb] at hw'
      exact nomatch hw'
  · intro err herr
    rcases appendBatch_cases _ ops with ⟨-, w'', hb, -⟩ | ⟨-, op, hop, -, hb⟩
    · rw [hb] at herr
      exact nomatch herr
    · rw [hb, Except.error.injEq] at herr
      refine ⟨⟨op, hop, herr.symm⟩, ?_⟩
      simp only [step, hb]

/-! ### A crash inside `truncate_to` -/

/-- What `wal.log` may hold when the process or the machine stops inside `truncate_to`:
    the old contents, or, from the truncating open on, any beginning of what the writes
    put back.  What has not been synced may be missing after a machine stop, which leaves
    an earlier one of these contents. -/
def truncateCrash (w : Wal) (appliedSeq : Nat) : List Bytes :=
  match w.truncateKeep appliedSeq with
  | .ok (some keep) =>
    w.dir.log :: (List.range ((frames keep).length + 1)).map (frames keep).take
  | _ => [w.dir.log]

/-- Wherever `truncate_to` is cut short, the reopened log has every entry above
    `applied_seq` that the log had before. -/
def CrashAtomic (w : Wal) (appliedSeq : Nat) : Prop :=
  ∀ es, readAll w.dir.log = .ok es → ∀ log ∈ w.truncateCrash appliedSeq,
    ∃ w' es', Wal.open { w.dir with log } = .ok w' ∧ readAll w'.dir.log = .ok es' ∧
      ∀ e ∈ es, appliedSeq < e.seq → e ∈ es'

private theorem open_of_readable {d : WalDir} {es : List WalEntry} (h : readAll d.log = .ok es) :
    ∃ w', Wal.open d = .ok w' ∧ w'.dir = d := by
  unfold Wal.open maxSeq
  rw [h]
  exact ⟨_, rfl, rfl⟩

private theorem truncateKeep_of_readable {es : List WalEntry} (h : readAll w.dir.log = .ok es)
    (appliedSeq : Nat) :
    w.truncateKeep appliedSeq =
      .ok (if es = [] then none else some (es.filter fun e => appliedSeq < e.seq)) := by
  unfold truncateKeep
  simp only [h, bind, Except.bind]
  cases es with
  | nil => rfl
  | cons e es => rw [if_neg (by simp), if_neg (by simp)]

/-- A truncation survives every crash exactly if no entry lies above `applied_seq`. -/
theorem crashAtomic_iff (w : Wal) (appliedSeq : Nat) :
    w.CrashAtomic appliedSeq ↔
      ∀ es, readAll w.dir.log = .ok es → ∀ e ∈ es, e.seq ≤ appliedSeq := by
  constructor
  · intro h es hread e he
    by_contra hlt
    -- right after the truncating open the file is empty
    have hne : es ≠ [] := List.ne_nil_of_mem he
    have hempty : [] ∈ w.truncateCrash appliedSeq := by
      simp only [truncateCrash, truncateKeep_of_readable hread, if_neg hne, List.mem_cons,
        List.mem_map, List.mem_range]
      exact Or.inr ⟨0, Nat.succ_pos _, rfl⟩
    obtain ⟨w', es', hopen, hread', hkept⟩ := h es hread [] hempty
    have hnil : readAll { w.dir with log := [] }.log = .ok [] := rfl
    obtain ⟨w'', hopen', hdir⟩ := open_of_readable hnil
    rw [hopen, Except.ok.injEq] at hopen'
    rw [hopen', hdir] at hread'
    obtain rfl : [] = es' := Except.ok.inj hread'
    exact nomatch hkept e he (Nat.lt_of_not_le hlt)
  · intro h es hread log hlog
    have hlow := h es hread
    have hnone : es.filter (fun e => appliedSeq < e.seq) = [] := by
      rw [List.filter_eq_nil_iff]
      intro e he
      have := hlow e he
      simp
      omega
    -- nothing is written back, so the file is the old one or empty
    have hcontents : log = w.dir.log ∨ log = [] := by
      unfold truncateCrash at hlog
      rw [truncateKeep_of_readable hread, hnone] at hlog
      by_cases hne : es = []
      · rw [if_pos hne] at hlog
        exact Or.inl (List.mem_singleton.mp hlog)
      · rw [if_neg hne] at hlog
        rcases List.mem_cons.mp hlog with hlog | hlog
        · exact Or.inl hlog
        · obtain ⟨n, -, rfl⟩ := List.mem_map.mp hlog
          exact Or.inr List.take_nil
    have hreadable : ∃ es', readAll log = .ok es' := by
      rcases hcontents with rfl | rfl
      · exact ⟨es, hread⟩
      · exact ⟨[], rfl⟩
    obtain ⟨es', hread'⟩ := hreadable
    obtain ⟨w', hopen, hdir⟩ := open_of_readable (d := { w.dir with log }) hread'
    refine ⟨w', es', hopen, by rw [hdir]; exact hread', fun e he hlt => ?_⟩
    have := hlow e he
    omega

/-- A writer appended entry 2 after the checkpoint had read `next_seq - 1 = 1`; the process
    stops right after the truncating open. -/
theorem kept_entry_lost_in_truncation :
    let w : Wal := ⟨⟨frames [⟨1, .deleteVector 7⟩, ⟨2, .deleteVector 8⟩], none⟩, 3⟩
    readAll w.dir.log = .ok [⟨1, .deleteVector 7⟩, ⟨2, .deleteVector 8⟩] ∧
      [] ∈ w.truncateCrash 1 ∧ Wal.open { w.dir with log := [] } = .ok ⟨⟨[], none⟩, 1⟩ ∧
      readAll [] = .ok [] ∧ ¬w.CrashAtomic 1 := by
  intro w
  have hread : readAll w.dir.log = .ok [⟨1, .deleteVector 7⟩, ⟨2, .deleteVector 8⟩] := by decide
  refine ⟨hread, by decide, rfl, rfl, fun h => ?_⟩
  obtain ⟨w', es', hopen, hread', hkept⟩ := h _ hread [] (by decide)
  obtain rfl : (⟨⟨[], none⟩, 1⟩ : Wal) = w' := Except.ok.inj hopen
  obtain rfl : [] = es' := Except.ok.inj hread'
  exact nomatch hkept ⟨2, .deleteVector 8⟩ (by simp) (by decide)

end Wal

end FusionStore
