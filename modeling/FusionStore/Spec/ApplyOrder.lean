import FusionStore.Spec.ConcurrentCorrect
import FusionStore.Spec.Openable

/-!
# Log order and apply order

`put_kv` and `delete_kv` release the `wal` mutex before they take the KV write lock, so
two calls on one key may be applied in the other order than they were logged.  What a
reader sees then is not what recovery makes of the log.  Where every write is applied
before the later ones on its key, both agree.
-/

namespace FusionStore

/-- The key an operation writes. -/
def WalOp.kvKey : WalOp → Option Bytes
  | .putKv key _ => some key
  | .deleteKv key => some key
  | _ => none

theorem kvEffect_ne_none {key : Bytes} {op : WalOp} :
    kvEffect key op ≠ none ↔ op.kvKey = some key := by
  cases op <;> simp [kvEffect, WalOp.kvKey]

namespace Shared

/-- The log entries of the calls made since `e`. -/
def calls (e : Engine) (c : Shared) : List WalEntry :=
  c.engine.wal.dir.entries.drop e.wal.dir.entries.length

variable (A : F32Arith) (I : Ipc)

/-- Readers see what the calls come to in the order of the log, and so does a recovery
    after a kill. -/
def FollowsLog (e : Engine) (c : Shared) : Prop :=
  ∀ key eff, lastEffect key ((c.calls e).map WalEntry.op) = some eff →
    c.engine.getKvZeroCopy key = .ok eff ∧
    ∀ quota order, c.engine.dir.Openable quota →
      ∃ e', (Engine.open A I c.engine.dir none quota order).1 = .ok e' ∧
        e'.getKvZeroCopy key = .ok eff

/-- Calls on keys, each applied with success and before the later ones on its key. -/
def InOrderStep (c : Shared) : Action → Prop
  | .append w => w.op.kvKey.isSome
  | .apply i locked =>
    match c.inflight[i]? with
    | none => True
    | some p => locked = true ∧ p.write.op.Replayable c.engine.schema ∧
      QuotaFits c.engine.kv.quotaLimit c.engine.kv.env.volatile.used c.engine.kv.lenOf
        [p.write.op] ∧
      ∀ q ∈ c.inflight, q.write.op.kvKey = p.write.op.kvKey → p.seq ≤ q.seq
  | _ => False

instance (c : Shared) (a : Action) : Decidable (c.InOrderStep a) := by
  cases a with
  | append w => exact inferInstanceAs (Decidable (w.op.kvKey.isSome = true))
  | apply i locked =>
    dsimp only [InOrderStep]
    generalize c.inflight[i]? = o
    cases o with
    | none => exact .isTrue trivial
    | some p => exact inferInstanceAs (Decidable (_ ∧ _))
  | _ => exact .isFalse id

end Shared

/-! ### What a step in order keeps -/

/-- A log entry whose write has been applied. -/
private def Landed (c : Shared) (x : WalEntry) : Prop := ∀ p ∈ c.inflight, p.seq ≠ x.seq

/-- The applied entries of a key are a prefix of its entries, and the last of them is what
    readers see. -/
private structure InOrder (s : VectorSchema) (e : Engine) (new : List WalEntry) (c : Shared) :
    Prop where
  inv : c.engine.Inv s
  schema : c.engine.schema = e.schema
  entries : c.engine.wal.dir.entries = e.wal.dir.entries ++ new
  marker : c.engine.wal.dir.marker = e.wal.dir.marker
  keys : ∀ x ∈ new, x.op.kvKey.isSome
  above : ∀ x ∈ new, e.wal.nextSeq ≤ x.seq
  next : e.wal.nextSeq ≤ c.engine.wal.nextSeq
  flight : ∀ p ∈ c.inflight, (⟨p.seq, p.write.op⟩ : WalEntry) ∈ new
  sorted : c.inflight.Pairwise fun p q => p.seq < q.seq
  behind : ∀ p ∈ c.inflight, ∀ x ∈ new, x.op.kvKey = p.write.op.kvKey → Landed c x →
    x.seq < p.seq
  shown : ∀ x ∈ new, ∀ key eff, kvEffect key x.op = some eff → Landed c x →
    (∀ y ∈ new, y.op.kvKey = some key → Landed c y → y.seq ≤ x.seq) →
    key ≠ [] ∧ c.engine.kv.Good key ∧ c.engine.kv.view key = eff

variable {s : VectorSchema} {e : Engine} {new : List WalEntry} {c : Shared} (A : F32Arith)

private theorem InOrder.append (h : InOrder s e new c) {w : Write} (hw : w.op.kvKey.isSome) :
    ∃ new', InOrder s e new' (c.append w) := by
  obtain heq | ⟨wal, happ, hwal, heq⟩ := Shared.append_cases c w
  · rw [heq]
    exact ⟨new, h⟩
  have hbound : ∀ x ∈ new, x.seq < c.engine.wal.nextSeq := by
    intro x hx
    exact h.inv.wal.bound x (by rw [h.entries]; exact List.mem_append_right _ hx)
  rw [heq]
  -- the new entry is in flight, so what has landed is the same
  have hmem : ∀ x, x ∈ new ++ [(⟨c.engine.wal.nextSeq, w.op⟩ : WalEntry)] →
      Landed { c with
        engine := { c.engine with wal }
        inflight := c.inflight ++ [⟨c.engine.wal.nextSeq, w⟩] } x →
      x ∈ new ∧ Landed c x := by
    intro x hx hland
    simp only [List.mem_append, List.mem_singleton] at hx
    obtain hx | rfl := hx
    · exact ⟨hx, fun p hp => hland p (List.mem_append_left _ hp)⟩
    · exact absurd rfl (hland _ (List.mem_append_right _ (List.mem_singleton_self _)))
  have hland : ∀ x ∈ new, Landed c x → Landed { c with
      engine := { c.engine with wal }
      inflight := c.inflight ++ [⟨c.engine.wal.nextSeq, w⟩] } x := by
    intro x hx hl p hp
    have hlt := hbound x hx
    simp only [List.mem_append, List.mem_singleton] at hp
    obtain hp | rfl := hp
    · exact hl p hp
    · simp only
      omega
  refine ⟨new ++ [⟨c.engine.wal.nextSeq, w.op⟩], ⟨Engine.inv_logged h.inv happ, h.schema, ?_, ?_,
    ?_, ?_, ?_, ?_, ?_, ?_, ?_⟩⟩
  · simp only [hwal, h.entries, List.append_assoc]
  · simp only [hwal, h.marker]
  · intro x hx
    simp only [List.mem_append, List.mem_singleton] at hx
    obtain hx | rfl := hx
    · exact h.keys x hx
    · exact hw
  · intro x hx
    simp only [List.mem_append, List.mem_singleton] at hx
    obtain hx | rfl := hx
    · exact h.above x hx
    · exact h.next
  · have := h.next
    simp only [hwal]
    omega
  · intro p hp
    simp only [List.mem_append, List.mem_singleton] at hp ⊢
    obtain hp | rfl := hp
    · exact Or.inl (h.flight p hp)
    · exact Or.inr rfl
  · rw [List.pairwise_append]
    refine ⟨h.sorted, List.pairwise_singleton _ _, fun p hp q hq => ?_⟩
    rw [List.mem_singleton] at hq
    subst hq
    exact hbound _ (h.flight p hp)
  · intro p hp x hx hkey hl
    obtain ⟨hx', hl'⟩ := hmem x hx hl
    simp only [List.mem_append, List.mem_singleton] at hp
    obtain hp | rfl := hp
    · exact h.behind p hp x hx' hkey hl'
    · exact hbound x hx'
  · intro x hx key eff heff hl hmax
    obtain ⟨hx', hl'⟩ := hmem x hx hl
    refine h.shown x hx' key eff heff hl' fun y hy hkey hly => ?_
    exact hmax y (List.mem_append_left _ hy) hkey (hland y hy hly)

private theorem ne_of_mem_eraseIdx {l : List InFlight}
    (hs : l.Pairwise fun p q => p.seq < q.seq) {i : Nat} {p : InFlight} (hp : l[i]? = some p)
    {q : InFlight} (hq : q ∈ l.eraseIdx i) : q.seq ≠ p.seq := by
  obtain ⟨hi, rfl⟩ := List.getElem?_eq_some_iff.mp hp
  have hne : l.Pairwise fun p q => q.seq ≠ p.seq := hs.imp fun hlt => by omega
  have hperm := (List.getElem_cons_eraseIdx_perm hi).symm
  have hcons := (hperm.pairwise_iff fun hab => hab.symm).mp hne
  exact (List.pairwise_cons.mp hcons).1 q hq

/-- What has landed after an apply: its own entry, and what had landed before. -/
private theorem landed_apply {c' : Shared} (hs : c.inflight.Pairwise fun p q => p.seq < q.seq)
    {i : Nat} {p : InFlight} (hp : c.inflight[i]? = some p)
    (hflight : c'.inflight = c.inflight.eraseIdx i) (x : WalEntry) :
    Landed c' x ↔ x.seq = p.seq ∨ Landed c x := by
  have hmem := fun {q : InFlight} => Shared.mem_eraseIdx (q := q) hp
  constructor
  · intro hl
    by_cases hseq : x.seq = p.seq
    · exact Or.inl hseq
    · refine Or.inr fun q hq => ?_
      obtain rfl | hq := hmem.mp hq
      · exact fun heq => hseq heq.symm
      · exact hl q (hflight ▸ hq)
  · rintro (hseq | hl) q hq
    · rw [hflight] at hq
      exact fun heq => ne_of_mem_eraseIdx hs hp hq (heq.trans hseq)
    · rw [hflight] at hq
      exact hl q (hmem.mpr (Or.inr hq))

/-- The entries of the session have distinct numbers. -/
private theorem InOrder.entry_of_seq (h : InOrder s e new c) {x y : WalEntry} (hx : x ∈ new)
    (hy : y ∈ new) (hseq : x.seq = y.seq) : x = y := by
  have hsorted := h.inv.wal.dir.sorted
  rw [h.entries] at hsorted
  by_contra hne
  have hsymm : Std.Symm fun a b : WalEntry => a.seq ≠ b.seq := ⟨fun _ _ hab => hab.symm⟩
  have hdistinct := (List.pairwise_append.mp hsorted).2.1.imp (S := fun a b => a.seq ≠ b.seq)
    fun hlt => by omega
  exact hdistinct.forall hx hy hne hseq

private theorem InOrder.apply (h : InOrder s e new c) {i : Nat} {locked : Bool}
    (ha : c.InOrderStep (.apply i locked)) : InOrder s e new (c.apply A i locked) := by
  obtain heq | ⟨p, r, e', hp, happ, heq⟩ := Shared.apply_cases A c i locked
  · rw [heq]
    exact h
  simp only [Shared.InOrderStep, hp] at ha
  obtain ⟨rfl, hform, hfit, hfirst⟩ := ha
  have hmem := fun {q : InFlight} => Shared.mem_eraseIdx (q := q) hp
  have hpnew : (⟨p.seq, p.write.op⟩ : WalEntry) ∈ new := h.flight p (hmem.mpr (Or.inl rfl))
  cases r with
  | error err =>
    -- a write on a key that is well formed and fits is not rejected
    obtain ⟨id, v, hw, -⟩ :=
      Engine.stored_of_rejected A h.inv hform (Or.inr (Or.inr ⟨rfl, hfit⟩)) happ
    have hkey := h.keys _ hpnew
    simp [hw, Write.op, WalOp.kvKey] at hkey
  | ok u =>
    obtain ⟨hinv, hframe⟩ := Engine.apply_inv A h.inv happ
    obtain ⟨heff, -, -⟩ := Engine.apply_ok A h.inv happ
    have hflight : (c.apply A i true).inflight = c.inflight.eraseIdx i := by rw [heq]
    have hengine : (c.apply A i true).engine = e' := by rw [heq]
    have hland := landed_apply h.sorted hp hflight
    refine ⟨hengine ▸ hinv, ?_, ?_, ?_, h.keys, h.above, ?_, ?_, ?_, ?_, ?_⟩
    · rw [hengine, hframe.schema, h.schema]
    · rw [hengine, hframe.wal, h.entries]
    · rw [hengine, hframe.wal, h.marker]
    · rw [hengine, hframe.wal]
      exact h.next
    · -- what is still in flight was logged
      intro q hq
      exact h.flight q (hmem.mpr (Or.inr (hflight ▸ hq)))
    · rw [hflight]
      exact h.sorted.sublist (List.eraseIdx_sublist _ _)
    · -- of one key, what is in flight comes behind what has landed
      intro q hq x hx hkey hl
      rw [hflight] at hq
      have hq' : q ∈ c.inflight := hmem.mpr (Or.inr hq)
      obtain hseq | hl := (hland x).mp hl
      · obtain rfl := h.entry_of_seq hx hpnew hseq
        have hle := hfirst q hq' hkey.symm
        have hne := ne_of_mem_eraseIdx h.sorted hp hq
        simp only
        omega
      · exact h.behind q hq' x hx hkey hl
    · -- the last entry that landed is what readers see
      intro x hx key eff hxeff hl hmax
      rw [hengine]
      cases hpeff : kvEffect key p.write.op with
      | none =>
        -- another key: the last applied entry is the same
        have hl' : Landed c x := by
          refine ((hland x).mp hl).resolve_left fun hseq => ?_
          rw [h.entry_of_seq hx hpnew hseq] at hxeff
          cases hpeff.symm.trans hxeff
        obtain ⟨hne, hg, hv⟩ := h.shown x hx key eff hxeff hl'
          fun y hy hkey hly => hmax y hy hkey ((hland y).mpr (Or.inr hly))
        obtain ⟨hg', hv'⟩ := heff.untouched key hpeff hg
        exact ⟨hne, hg', hv'.trans hv⟩
      | some eff' =>
        have hpkey : p.write.op.kvKey = some key := by
          rw [← kvEffect_ne_none, hpeff]
          exact Option.some_ne_none _
        have hxkey : x.op.kvKey = some key := by
          rw [← kvEffect_ne_none, hxeff]
          exact Option.some_ne_none _
        obtain ⟨hg, hv⟩ := heff.touched key eff' hpeff
        -- everything applied before is behind `p`, so `x` is its entry
        have hseq : x.seq = p.seq := by
          obtain hseq | hl := (hland x).mp hl
          · exact hseq
          · have hlt := h.behind p (hmem.mpr (Or.inl rfl)) x hx (hxkey.trans hpkey.symm) hl
            have hle := hmax _ hpnew hpkey ((hland _).mpr (Or.inl rfl))
            simp only at hle
            omega
        rw [h.entry_of_seq hx hpnew hseq, hpeff, Option.some.injEq] at hxeff
        subst hxeff
        exact ⟨WalOp.key_ne_of_replayable hform (by simp [hpeff]), hg, hv⟩

private theorem inOrder_start (h : e.Inv s) : InOrder s e [] (.start e) where
  inv := h
  schema := rfl
  entries := (List.append_nil _).symm
  marker := rfl
  keys := by simp
  above := by simp
  next := Nat.le_refl _
  flight := by simp [Shared.start]
  sorted := .nil
  behind := by simp
  shown := by simp

theorem lastEffect_append {key : Bytes} {eff : Option Bytes} {ops : List WalOp}
    (h : lastEffect key ops = some eff) (before : List WalOp) :
    lastEffect key (before ++ ops) = some eff := by
  unfold lastEffect at h ⊢
  rw [List.reverse_append, List.findSome?_append, h, Option.some_or]

variable (I : Ipc)

/-- When every call has returned and each was applied before the later ones on its key,
    readers and recovery agree with the log. -/
theorem followsLog_of_guarded (es : List Event) (hes : ∀ ev ∈ es, ev.Uses s) {e₀ : Engine}
    (hup : (Session.run A I es).host = .up e₀)
    (hnum : e₀.wal.dir.appliedSeq < e₀.wal.nextSeq) (acts : List Action)
    (hrun : Run.Guarded (Shared.step A) Shared.InOrderStep (.start e₀) acts)
    (hidle : (Run.exec (Shared.step A) (.start e₀) acts).inflight = []) :
    (Run.exec (Shared.step A) (.start e₀) acts).FollowsLog A I e₀ := by
  have hinv : e₀.Inv s := by
    have hi := Session.inv_run A I hes
    rw [hup] at hi
    exact hi
  obtain ⟨new, h⟩ : ∃ new, InOrder s e₀ new (Run.exec (Shared.step A) (.start e₀) acts) := by
    refine hrun.invariant (fun c => ∃ new, InOrder s e₀ new c) ?_ ⟨[], inOrder_start hinv⟩
    rintro c a ⟨new, hc⟩ ha
    cases a with
    | append w => exact hc.append ha
    | apply i locked => exact ⟨new, hc.apply A ha⟩
    | begin => exact False.elim ha
    | advance i => exact False.elim ha
  generalize Run.exec (Shared.step A) (.start e₀) acts = c at h hidle
  intro key eff hlast
  have hcalls : c.calls e₀ = new := by
    unfold Shared.calls
    rw [h.entries, List.drop_left]
  rw [hcalls] at hlast
  have hland : ∀ x, Landed c x := by simp [Landed, hidle]
  have hsorted : new.Pairwise fun a b => a.seq < b.seq := by
    have hs := h.inv.wal.dir.sorted
    rw [h.entries] at hs
    exact (List.pairwise_append.mp hs).2.1
  obtain ⟨x, hx, hxeff, hmax⟩ := Shared.exists_last_entry hsorted hlast
  obtain ⟨hne, hg, hv⟩ := h.shown x hx key eff hxeff (hland x)
    fun y hy hkey _ => hmax y hy (kvEffect_ne_none.mpr hkey)
  refine ⟨by rw [Engine.getKvZeroCopy_eq hg hne, hv], fun quota order hopen => ?_⟩
  -- the entries of the calls are pending, and they come last
  have hpend : lastEffect key c.engine.dir.wal.pendingOps = some eff := by
    have hall : new.filter (fun x => e₀.wal.dir.appliedSeq < x.seq) = new := by
      rw [List.filter_eq_self]
      intro x hx
      have hle := h.above x hx
      rw [decide_eq_true_eq]
      omega
    have hmarker : c.engine.wal.dir.appliedSeq = e₀.wal.dir.appliedSeq := by
      unfold LogDir.appliedSeq
      rw [h.marker]
    have heq : c.engine.wal.dir.pending = e₀.wal.dir.pending ++ new := by
      unfold LogDir.pending
      rw [h.entries, hmarker, List.filter_append, hall]
    show lastEffect key (c.engine.wal.dir.pending.map WalEntry.op) = some eff
    rw [heq, List.map_append]
    exact lastEffect_append hlast _
  obtain ⟨e₁, hres, -⟩ := Engine.restores_none A I h.inv.dir quota order
  obtain ⟨e', hok⟩ := (Engine.open_none_iff A I h.inv.dir quota order).mpr hopen
  obtain ⟨hrec, -⟩ := hres.recovered h.inv.dir.kv hok
  obtain ⟨hg', hv'⟩ := hrec.touched key eff hpend
  exact ⟨e', hok, by rw [Engine.getKvZeroCopy_eq hg' hne, hv']⟩

/-- Two puts applied in the order of the log, a third key in between. -/
theorem followsLog_of_two_puts : ∃ e₀,
    (Session.run zeroArith noIpc [.restart none 0 .id]).host = .up e₀ ∧
    (Run.exec (Shared.step zeroArith) (.start e₀)
      [.append (.putKv [97] [1]), .append (.putKv [97] [2]), .append (.deleteKv [98]),
        .apply 2 true, .apply 0 true, .apply 0 true]).FollowsLog zeroArith noIpc e₀ :=
  ⟨_, rfl, followsLog_of_guarded (s := flatSchema) zeroArith noIpc [.restart none 0 .id]
    (by simp [Event.Uses]) rfl (by decide +kernel)
    [.append (.putKv [97] [1]), .append (.putKv [97] [2]), .append (.deleteKv [98]),
      .apply 2 true, .apply 0 true, .apply 0 true]
    (by decide +kernel) (List.length_eq_zero_iff.mp (by decide +kernel))⟩

/-- Two puts on one key, logged in one order and applied in the other: readers see the
    first, recovery makes it the second. -/
theorem puts_applied_out_of_order : ∃ e₀,
    (Session.run zeroArith noIpc [.restart none 0 .id]).host = .up e₀ ∧
    let c := Run.exec (Shared.step zeroArith) (.start e₀)
      [.append (.putKv [97] [1]), .append (.putKv [97] [2]), .apply 1 true, .apply 0 true]
    c.inflight = [] ∧
      c.done = [⟨2, .putKv [97] [2], 3⟩, ⟨1, .putKv [97] [1], 3⟩] ∧
      c.calls e₀ = [⟨1, .putKv [97] [1]⟩, ⟨2, .putKv [97] [2]⟩] ∧
      c.engine.getKvZeroCopy [97] = .ok (some [1]) ∧
      (∃ e, (Engine.open zeroArith noIpc c.engine.dir none 0 .id).1 = .ok e ∧
        e.getKvZeroCopy [97] = .ok (some [2])) ∧
      ¬c.FollowsLog zeroArith noIpc e₀ := by
  refine ⟨_, rfl, ?_⟩
  intro c
  have hget : c.engine.getKvZeroCopy [97] = .ok (some [1]) := by decide +kernel
  have hopen : ∃ e, (Engine.open zeroArith noIpc c.engine.dir none 0 .id).1 = .ok e ∧
      e.getKvZeroCopy [97] = .ok (some [2]) := by
    refine ⟨_, rfl, ?_⟩
    decide +kernel
  refine ⟨List.length_eq_zero_iff.mp (by decide +kernel), by decide +kernel, by decide +kernel,
    hget, hopen, fun hf => ?_⟩
  obtain ⟨hlog, -⟩ := hf [97] (some [2]) (by decide +kernel)
  rw [hget] at hlog
  exact absurd hlog (by decide)

end FusionStore
