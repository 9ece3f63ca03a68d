import FusionStore.Native.Concurrent
import FusionStore.Spec.KvRestart

/-!
# Concurrent clients: the log

Whatever the threads do, the log holds exactly the writes above some sequence number
`cut`: appends go to its end, truncations take away its beginning.  Since a truncation
and its marker are one step, everything in the log is above the marker.
-/

namespace FusionStore

namespace Engine

/-- The flushes of a checkpoint touch neither the index nor the log. -/
theorem flush_frame (e : Engine) : e.flushKv.flushCol.kv = e.kv.flush ∧
    e.flushKv.flushCol.vec = e.vec ∧ e.flushKv.flushCol.wal = e.wal := by
  unfold flushCol
  split <;> exact ⟨rfl, rfl, rfl⟩

/-- The snapshot of a checkpoint changes nothing a reader sees. -/
theorem checkpointVec_frame (e : Engine) : e.checkpointVec.kv = e.kv ∧
    e.checkpointVec.wal = e.wal ∧ e.checkpointVec.schema = e.schema ∧
    ∀ id, e.checkpointVec.cell id = e.cell id := by
  unfold checkpointVec ensureVec schema cell
  cases hvec : e.vec with
  | closed d =>
    simp only [hvec]
    exact ⟨trivial, trivial, trivial, fun _ => trivial⟩
  | opened x => exact ⟨rfl, rfl, rfl, fun _ => rfl⟩

/-- The only well-formed vector write that is rejected is an insert of a stored id. -/
theorem stored_of_rejected (A : F32Arith) {s : VectorSchema} {e e' : Engine} (h : e.Inv s)
    {locked : Bool} {w : Write} {err : StoreError} (hform : w.op.Replayable e.schema)
    (hkv : (∃ id vector, w = .insertVector id vector) ∨ (∃ id, w = .deleteVector id) ∨
      locked = true ∧ QuotaFits e.kv.quotaLimit e.kv.env.volatile.used e.kv.lenOf [w.op])
    (hr : e.apply A locked w = (.error err, e')) :
    ∃ id vector, w = .insertVector id vector ∧ e.cell id ≠ .absent := by
  have hfit : QuotaFits e.kv.quotaLimit e.kv.env.volatile.used e.kv.lenOf [w.op] := by
    rcases hkv with ⟨id, v, rfl⟩ | ⟨id, rfl⟩ | ⟨-, hfit⟩
    · trivial
    · trivial
    · exact hfit
  -- the vector writes take no lock on the KV store
  have htrue : e.apply A true w = (.error err, e') := by
    rcases hkv with ⟨id, v, rfl⟩ | ⟨id, rfl⟩ | ⟨rfl, -⟩
    · exact hr
    · exact hr
    · exact hr
  -- so a replay would accept the operation
  have hrep : (e.replayOp A noIpc w.op).1 = .ok () :=
    (replayWrite_ok_iff A noIpc h w).mpr ⟨hform, hfit⟩
  rcases apply_of_accepted A noIpc hrep with hok | ⟨id, vector, j, rfl, -⟩
  · rw [htrue] at hok
    cases hok
  refine ⟨id, vector, rfl, fun habs => ?_⟩
  -- an absent id would have become live
  have hsame := (apply_replayOp A noIpc e (.insertVector id vector)).1
  rw [htrue] at hsame
  have hcell := (replayOp_ok A noIpc h (Prod.ext hrep hsame)).2 id
  rw [(apply_error A h htrue).2.1 id, habs] at hcell
  simp only [Write.op, Cell.apply, ↓reduceIte, Cell.insert] at hcell
  cases hcell

end Engine

/-- An operation that can be replayed has no empty key. -/
theorem WalOp.key_ne_of_replayable {schema : Option VectorSchema} {op : WalOp} {key : Bytes}
    (h : op.Replayable schema) (hk : kvEffect key op ≠ none) : key ≠ [] := by
  cases op with
  | putKv k v =>
    by_cases hkey : k = key
    · exact hkey ▸ h.1
    · exact absurd (if_neg hkey) hk
  | deleteKv k =>
    by_cases hkey : k = key
    · exact hkey ▸ h
    · exact absurd (if_neg hkey) hk
  | _ => exact absurd rfl hk

namespace Shared

/-- The writes of this run that are in flight or acknowledged. -/
def logged (c : Shared) : List WalEntry :=
  (c.inflight.map fun p => ⟨p.seq, p.write.op⟩) ++ c.done.map fun o => ⟨o.seq, o.op⟩

/-- What was logged belongs to a write in flight or to an acknowledged one. -/
theorem mem_logged {c : Shared} {x : WalEntry} :
    x ∈ c.logged ↔ (∃ p ∈ c.inflight, x = ⟨p.seq, p.write.op⟩) ∨
      ∃ o ∈ c.done, x = ⟨o.seq, o.op⟩ := by
  simp only [logged, List.mem_append, List.mem_map, eq_comm]

/-- What the log holds between two steps. -/
structure LogInv (c : Shared) : Prop where
  wal : c.engine.wal.Inv
  cut : ∃ cut, c.engine.wal.dir.appliedSeq ≤ cut ∧ cut < c.engine.wal.nextSeq ∧
    (∀ x ∈ c.engine.wal.dir.entries, cut < x.seq) ∧
    ∀ x ∈ c.logged, cut < x.seq → x ∈ c.engine.wal.dir.entries
  running : ∀ k ∈ c.checkpoints, k.appliedSeq < c.engine.wal.nextSeq
  bound : ∀ x ∈ c.logged, x.seq < c.engine.wal.nextSeq
  acked : ∀ o ∈ c.done, o.seq < o.ackedAt ∧ o.ackedAt ≤ c.engine.wal.nextSeq

/-- Everything in the log is pending. -/
theorem LogInv.pendingOps {c : Shared} (h : c.LogInv) :
    c.engine.wal.dir.pendingOps = c.engine.wal.dir.entries.map WalEntry.op := by
  obtain ⟨cut, hle, -, hcut, -⟩ := h.cut
  unfold LogDir.pendingOps LogDir.pending
  rw [List.filter_eq_self.mpr]
  intro x hx
  have hlt := hcut x hx
  rw [decide_eq_true_eq]
  omega

/-- A log without entries is in order. -/
theorem logInv_start {e : Engine} (hw : e.wal.Inv) (hlog : e.wal.dir.entries = [])
    (hnum : e.wal.dir.appliedSeq < e.wal.nextSeq) : (start e).LogInv where
  wal := hw
  cut := by
    refine ⟨_, Nat.le_refl _, hnum, fun x hx => ?_, fun x hx => nomatch hx⟩
    rw [show (start e).engine.wal.dir.entries = [] from hlog] at hx
    exact nomatch hx
  running := fun k hk => nomatch hk
  bound := fun x hx => nomatch hx
  acked := fun o ho => nomatch ho

/-- Everything an append can do. -/
theorem append_cases (c : Shared) (w : Write) :
    c.append w = c ∨ ∃ wal, c.engine.wal.append w.op = .ok (c.engine.wal.nextSeq, wal) ∧
      wal = ⟨{ c.engine.wal.dir with
        entries := c.engine.wal.dir.entries ++ [⟨c.engine.wal.nextSeq, w.op⟩] },
        c.engine.wal.nextSeq + 1⟩ ∧
      c.append w = { c with
        engine := { c.engine with wal }
        inflight := c.inflight ++ [⟨c.engine.wal.nextSeq, w⟩] } := by
  cases happ : c.engine.wal.append w.op with
  | error err => exact Or.inl (by simp only [append, happ])
  | ok p =>
    obtain ⟨seq, wal⟩ := p
    have hseq : seq = c.engine.wal.nextSeq := by
      unfold WalLog.append at happ
      split at happ
      · exact nomatch happ
      · exact (Prod.mk.inj (Except.ok.inj happ)).1.symm
    subst hseq
    exact Or.inr ⟨wal, rfl, WalLog.append_ok happ, by simp only [append, happ]⟩

/-- An append keeps the order of the numbers. -/
theorem logInv_append {c : Shared} (h : c.LogInv) (w : Write) : (c.append w).LogInv := by
  rcases append_cases c w with heq | ⟨wal, happ, hwal, heq⟩
  · rw [heq]
    exact h
  rw [heq]
  obtain ⟨cut, hle, hlt, hcut, hin⟩ := h.cut
  have hentries : wal.dir.entries =
      c.engine.wal.dir.entries ++ [⟨c.engine.wal.nextSeq, w.op⟩] := by rw [hwal]
  have hseq : wal.nextSeq = c.engine.wal.nextSeq + 1 := by rw [hwal]
  have hmarker : wal.dir.appliedSeq = c.engine.wal.dir.appliedSeq := by rw [hwal]; rfl
  -- the new record is the last entry
  have hlogged : ∀ x ∈ ({ c with engine := { c.engine with wal }, inflight := c.inflight ++
      [⟨c.engine.wal.nextSeq, w⟩] } : Shared).logged,
      x ∈ c.logged ∨ x = ⟨c.engine.wal.nextSeq, w.op⟩ := by
    intro x hx
    simp only [logged, List.map_append, List.map_cons, List.map_nil, List.mem_append,
      List.mem_singleton] at hx ⊢
    tauto
  -- the new number is the largest, and the cut stays
  refine ⟨WalLog.inv_append h.wal happ, ⟨cut, ?_, ?_, ?_, ?_⟩, ?_, ?_, ?_⟩
  · show wal.dir.appliedSeq ≤ cut
    omega
  · show cut < wal.nextSeq
    omega
  · intro x hx
    rw [show ({ c with engine := { c.engine with wal }, inflight := _ } : Shared).engine.wal = wal
      from rfl, hentries, List.mem_append, List.mem_singleton] at hx
    rcases hx with hx | rfl
    · exact hcut x hx
    · exact hlt
  · intro x hx hxc
    show x ∈ wal.dir.entries
    rw [hentries, List.mem_append, List.mem_singleton]
    exact (hlogged x hx).imp_left fun hx => hin x hx hxc
  · -- a running checkpoint has read an older number
    intro k hk
    have hb := h.running k hk
    show k.appliedSeq < wal.nextSeq
    omega
  · intro x hx
    show x.seq < wal.nextSeq
    rcases hlogged x hx with hx | rfl
    · have hb := h.bound x hx
      omega
    · rw [hseq]
      exact Nat.lt_succ_self _
  · -- an acknowledgement is not younger than the log
    intro o ho
    have hb := h.acked o ho
    exact ⟨hb.1, by show o.ackedAt ≤ wal.nextSeq; omega⟩

/-! ### The other steps -/

/-- The elements of a list are the one at a place and those of the rest. -/
theorem mem_eraseIdx {α : Type} {l : List α} {i : Nat} {p : α} (h : l[i]? = some p) {q : α} :
    q ∈ l ↔ q = p ∨ q ∈ l.eraseIdx i := by
  obtain ⟨hi, rfl⟩ := List.getElem?_eq_some_iff.mp h
  rw [← (List.getElem_cons_eraseIdx_perm hi).mem_iff, List.mem_cons]

variable (A : F32Arith)

/-- Everything the second half of a write can do. -/
theorem apply_cases (c : Shared) (i : Nat) (locked : Bool) :
    c.apply A i locked = c ∨ ∃ p r e, c.inflight[i]? = some p ∧
      c.engine.apply A locked p.write = (r, e) ∧
      c.apply A i locked = { c with
        engine := e
        inflight := c.inflight.eraseIdx i
        done := match r with
          | .ok _ => c.done ++ [⟨p.seq, p.write.op, c.engine.wal.nextSeq⟩]
          | .error _ => c.done } := by
  unfold apply
  cases hp : c.inflight[i]? with
  | none => exact Or.inl rfl
  | some p =>
    cases happ : c.engine.apply A locked p.write with
    | mk r e =>
      refine Or.inr ⟨p, r, e, rfl, happ, ?_⟩
      cases r <;> simp only [happ]

/-- The records are the same before and after, a rejected write apart. -/
theorem logged_apply {c : Shared} {i : Nat} {p : InFlight} (hp : c.inflight[i]? = some p)
    (e : Engine) (r : Except StoreError Unit) {x : WalEntry}
    (hx : x ∈ ({ c with
      engine := e
      inflight := c.inflight.eraseIdx i
      done := match r with
        | .ok _ => c.done ++ [⟨p.seq, p.write.op, c.engine.wal.nextSeq⟩]
        | .error _ => c.done } : Shared).logged) : x ∈ c.logged := by
  rw [mem_logged] at hx ⊢
  rcases hx with ⟨q, hq, rfl⟩ | ⟨o, ho, rfl⟩
  · exact Or.inl ⟨q, (mem_eraseIdx hp).mpr (Or.inr hq), rfl⟩
  · cases r with
    | error err => exact Or.inr ⟨o, ho, rfl⟩
    | ok u =>
      rcases List.mem_append.mp ho with ho | ho
      · exact Or.inr ⟨o, ho, rfl⟩
      · rw [List.mem_singleton] at ho
        subst ho
        exact Or.inl ⟨p, (mem_eraseIdx hp).mpr (Or.inl rfl), rfl⟩

/-- Applying a write changes nothing in the log. -/
theorem logInv_apply {c : Shared} (h : c.LogInv) {s : VectorSchema} (hinv : c.engine.Inv s)
    (i : Nat) (locked : Bool) : (c.apply A i locked).LogInv := by
  rcases apply_cases A c i locked with heq | ⟨p, r, e, hp, happ, heq⟩
  · rw [heq]
    exact h
  -- applying touches the stores only
  have hwal : e.wal = c.engine.wal := (Engine.apply_inv A hinv happ).2.wal
  have hback := fun {x : WalEntry} => logged_apply (x := x) hp e r
  obtain ⟨cut, hle, hlt, hcut, hin⟩ := h.cut
  rw [heq]
  refine ⟨hwal ▸ h.wal, ⟨cut, ?_, ?_, ?_, ?_⟩, ?_, ?_, ?_⟩
  · exact hwal ▸ hle
  · exact hwal ▸ hlt
  · exact hwal ▸ hcut
  · -- what is behind the cut is in the log
    intro x hx hxc
    show x ∈ e.wal.dir.entries
    rw [hwal]
    exact hin x (hback hx) hxc
  · exact hwal ▸ h.running
  · intro x hx
    show x.seq < e.wal.nextSeq
    rw [hwal]
    exact h.bound x (hback hx)
  · intro o ho
    show o.seq < o.ackedAt ∧ o.ackedAt ≤ e.wal.nextSeq
    rw [hwal]
    -- a failed write is not acknowledged
    cases r with
    | error err => exact h.acked o ho
    | ok u =>
      rcases List.mem_append.mp ho with ho | ho
      · exact h.acked o ho
      · rw [List.mem_singleton] at ho
        subst ho
        have hmem : (⟨p.seq, p.write.op⟩ : WalEntry) ∈ c.logged :=
          mem_logged.mpr (Or.inl ⟨p, (mem_eraseIdx hp).mpr (Or.inl rfl), rfl⟩)
        exact ⟨h.bound _ hmem, Nat.le_refl _⟩

/-- Everything a step of a checkpoint can do. -/
theorem advance_cases (c : Shared) (i : Nat) :
    c.advance i = c ∨
    (∃ n, c.checkpoints[i]? = some ⟨n, .flush⟩ ∧ c.advance i = { c with
      engine := c.engine.flushKv.flushCol, checkpoints := c.checkpoints.set i ⟨n, .snapshot⟩ }) ∨
    (∃ n, c.checkpoints[i]? = some ⟨n, .snapshot⟩ ∧ c.advance i = { c with
      engine := c.engine.checkpointVec, checkpoints := c.checkpoints.set i ⟨n, .truncate⟩ }) ∨
    ∃ n, c.checkpoints[i]? = some ⟨n, .truncate⟩ ∧ c.advance i = { c with
      engine := (c.engine.writeMarker n).truncateWal n
      checkpoints := c.checkpoints.eraseIdx i } := by
  unfold advance
  cases hk : c.checkpoints[i]? with
  | none => exact Or.inl rfl
  | some k =>
    obtain ⟨n, stage⟩ := k
    cases stage with
    | flush => exact Or.inr (Or.inl ⟨n, rfl, rfl⟩)
    | snapshot => exact Or.inr (Or.inr (Or.inl ⟨n, rfl, rfl⟩))
    | truncate => exact Or.inr (Or.inr (Or.inr ⟨n, rfl, rfl⟩))

/-- A step of a checkpoint that leaves the log alone. -/
private theorem logInv_same {c : Shared} (h : c.LogInv) {e : Engine} (hwal : e.wal = c.engine.wal)
    {i n : Nat} {stage stage' : Stage} (hk : c.checkpoints[i]? = some ⟨n, stage⟩) :
    ({ c with engine := e, checkpoints := c.checkpoints.set i ⟨n, stage'⟩ } : Shared).LogInv := by
  refine ⟨hwal ▸ h.wal, hwal ▸ h.cut, ?_, hwal ▸ h.bound, hwal ▸ h.acked⟩
  intro k hmem
  show k.appliedSeq < e.wal.nextSeq
  rw [hwal]
  rcases List.mem_or_eq_of_mem_set hmem with hmem | rfl
  · exact h.running k hmem
  · have hb := h.running _ (List.mem_of_getElem? hk)
    exact hb

/-- Each section of a checkpoint keeps the log in order. -/
theorem logInv_advance {c : Shared} (h : c.LogInv) (i : Nat) : (c.advance i).LogInv := by
  rcases advance_cases c i with heq | ⟨n, hk, heq⟩ | ⟨n, hk, heq⟩ | ⟨n, hk, heq⟩
  · rw [heq]
    exact h
  · -- the flush of the KV store, and the snapshot of the graph
    rw [heq]
    exact logInv_same h (Engine.flush_frame _).2.2 hk
  · rw [heq]
    exact logInv_same h (Engine.checkpointVec_frame _).2.1 hk
  · -- marker and truncation
    have hn : n < c.engine.wal.nextSeq := h.running _ (List.mem_of_getElem? hk)
    obtain ⟨cut, hle, hlt, hcut, hin⟩ := h.cut
    rw [heq]
    refine ⟨WalLog.inv_truncateTo (WalLog.inv_writeMarker h.wal _) n, ⟨max cut n, ?_, ?_, ?_, ?_⟩,
      ?_, h.bound, h.acked⟩
    · -- the marker may go back, when an older checkpoint finishes later
      exact Nat.le_max_right cut n
    · exact Nat.max_lt.mpr ⟨hlt, hn⟩
    · intro x hx
      obtain ⟨hmem, hxn⟩ := List.mem_filter.mp hx
      have hc := hcut x hmem
      rw [decide_eq_true_eq] at hxn
      exact Nat.max_lt.mpr ⟨hc, hxn⟩
    · intro x hx hxc
      obtain ⟨hc, hxn⟩ := Nat.max_lt.mp hxc
      exact List.mem_filter.mpr ⟨hin x hx hc, decide_eq_true hxn⟩
    · intro k hmem
      exact h.running k (List.mem_of_mem_eraseIdx hmem)

/-- Beginning a checkpoint only reads a number. -/
theorem logInv_begin {c : Shared} (h : c.LogInv) : (c.step A .begin).LogInv := by
  refine ⟨h.wal, h.cut, ?_, h.bound, h.acked⟩
  intro k hmem
  rcases List.mem_append.mp hmem with hmem | hmem
  · exact h.running k hmem
  · rw [List.mem_singleton] at hmem
    subst hmem
    have hpos := h.wal.pos
    show c.engine.wal.nextSeq - 1 < c.engine.wal.nextSeq
    omega

/-! ### The last entry of a key -/

/-- In a log in order the last effect on a key is that of its entry with the largest
    number. -/
theorem exists_last_entry {key : Bytes} {eff : Option Bytes} {entries : List WalEntry}
    (hsorted : entries.Pairwise fun a b => a.seq < b.seq)
    (h : lastEffect key (entries.map WalEntry.op) = some eff) :
    ∃ x ∈ entries, kvEffect key x.op = some eff ∧
      ∀ y ∈ entries, kvEffect key y.op ≠ none → y.seq ≤ x.seq := by
  -- induction from the end of the log
  induction entries using List.reverseRecOn with
  | nil => exact nomatch h
  | append_singleton entries last ih =>
    rw [List.map_append, List.map_cons, List.map_nil, lastEffect_concat] at h
    obtain ⟨hsorted', -, hlast⟩ := List.pairwise_append.mp hsorted
    cases hk : kvEffect key last.op with
    | some eff' =>
      rw [hk, Option.some_or, Option.some.injEq] at h
      subst h
      -- the last entry has the effect, and the largest number
      refine ⟨last, List.mem_append_right _ (List.mem_singleton_self _), hk, fun y hy _ => ?_⟩
      rcases List.mem_append.mp hy with hy | hy
      · exact Nat.le_of_lt (hlast y hy last (List.mem_singleton_self _))
      · rw [List.mem_singleton] at hy
        rw [hy]
    -- the last entry is about something else
    | none =>
      rw [hk, Option.none_or] at h
      obtain ⟨x, hx, heff, hmax⟩ := ih hsorted' h
      refine ⟨x, List.mem_append_left _ hx, heff, fun y hy hne => ?_⟩
      rcases List.mem_append.mp hy with hy | hy
      · exact hmax y hy hne
      · rw [List.mem_singleton] at hy
        subst hy
        exact absurd hk hne

end Shared

end FusionStore
