import FusionStore.ForStd.TopK
import FusionStore.Spec.Reachability

/-!
# When every live node stays reachable

`navigable_iff_guarded` asks the search itself which nodes it selects.  Here the condition
is about the graph and the distances alone.  `Outcome` says what an exploration of width `ef`
from the entry point may end with, whatever its order and however it breaks ties; an insert
is `Linkable` if for each such outcome fewer than `M` full nodes are as near as some node
with room.  With at most `ef` live nodes the only outcome is all of them, and if no two are
equally far the condition is exact.

## Key results

- `outcome_searchLayer`: what `search_layer` finds is such an outcome
- `navigable_of_linkable`: linkable inserts keep every live node reachable
-/

namespace FusionStore

namespace NswGraph

variable {g : NswGraph} {dist : NodeId → F32} {ef : Nat} {entry : NodeId}
  {seen found : Finset NodeId}

/-! ### What a search may end with -/

/-- An exploration from `entry` has seen `seen` and holds the `ef` nearest live nodes of it,
    `found`.  It goes on past every node that is not farther than all of `found`. -/
structure Outcome (g : NswGraph) (dist : NodeId → F32) (ef : Nat) (entry : NodeId)
    (seen found : Finset NodeId) : Prop where
  start : entry ∈ seen
  reached : ∀ v ∈ seen, g.Reaches entry v
  live : ∀ v ∈ found, v ∈ seen ∧ g.isDeleted v = false
  room : found.card ≤ ef
  kept : ∀ v ∈ seen, g.isDeleted v = false → v ∈ found ∨
    ef ≤ found.card ∧ (g.Comparable dist entry →
      ∀ r ∈ found, F32.ieeeKey (dist r) ≤ F32.ieeeKey (dist v))
  closed : ∀ v ∈ seen, (∀ b, g.Edge v b → b ∈ seen) ∨
    ef ≤ found.card ∧ ∀ r ∈ found, F32.ieeeKey (dist r) < F32.ieeeKey (dist v)

/-- What `search_layer` returns is an outcome. -/
theorem outcome_searchLayer (g : NswGraph) (dist : NodeId → F32) (ef : Nat) (entry : NodeId)
    (hef : 1 ≤ ef) : ∃ seen, g.Outcome dist ef entry seen
      ((g.searchLayer dist ef entry fun _ => false).map Prod.fst).toFinset := by
  have hended := searchState_ended g dist ef entry
  have hex := exploring_searchState g dist ef entry fun _ => false
  have hh := hended.holding
  have hids := map_fst_searchLayer g dist ef entry fun _ => false
  have hcard : ((g.searchLayer dist ef entry fun _ => false).map Prod.fst).toFinset.card =
      (g.searchState dist ef entry fun _ => false).results.data.length := by
    rw [List.toFinset_card_of_nodup (nodup_searchLayer g dist ef entry), List.length_map]
    exact length_searchLayer g dist ef entry _
  have hmem : ∀ v, v ∈ ((g.searchLayer dist ef entry fun _ => false).map Prod.fst).toFinset ↔
      v ∈ (g.searchState dist ef entry fun _ => false).results.data.map Prod.snd := by
    intro v
    rw [List.mem_toFinset, hids.mem_iff]
  generalize ((g.searchLayer dist ef entry fun _ => false).map Prod.fst).toFinset = found at *
  generalize (g.searchState dist ef entry fun _ => false) = s at *
  -- each found node is a result with its own distance
  have hresult : ∀ r ∈ found, (dist r, r) ∈ s.results.data := by
    intro r hr
    obtain ⟨q, hq, rfl⟩ := List.mem_map.mp ((hmem r).mp hr)
    rw [← hh.own q hq]
    exact hq
  refine ⟨s.visited.toFinset, ?_, fun v hv => ?_, fun v hv => ?_, ?_, fun v hv hl => ?_,
    fun v hv => ?_⟩
  · exact List.mem_toFinset.mpr hex.start
  · exact hex.reached v (List.mem_toFinset.mp hv)
  · have hr := hresult v hv
    exact ⟨List.mem_toFinset.mpr (hh.seen _ hr), hh.live _ hr⟩
  · have hroom := hh.room
    omega
  · rw [hmem, hcard]
    refine (hh.kept v (List.mem_toFinset.mp hv) hl).imp_right fun hfull => ?_
    exact ⟨hfull.1, fun hcmp r hr => hfull.2 hcmp _ (hresult r hr)⟩
  · -- a seen node was expanded, or the search stopped in front of it
    obtain ⟨left, hk, hend⟩ := hended
    obtain ⟨d, hd⟩ | hc := hk.closed v (List.mem_toFinset.mp hv)
    · have hd : (d, v) ∈ left.data := hd
      obtain hleft | ⟨hfull, hfar⟩ := hend
      · rw [hleft] at hd
        cases hd
      · have hown : d = dist v := hk.own _ hd
        rw [hcard]
        exact .inr ⟨hfull, fun r hr => hown ▸ hfar _ hd _ (hresult r hr)⟩
    · refine .inl fun b hb => ?_
      obtain hb | hb := hc b hb
      · exact List.mem_toFinset.mpr hb
      · cases hb

/-- With room for all live nodes there is one outcome: all of them. -/
theorem Outcome.mem_found (h : g.Outcome dist ef entry seen found) (hlen : g.len ≤ ef)
    (hreach : ∀ v, g.isDeleted v = false → g.Reaches entry v) (v : NodeId) :
    v ∈ found ↔ g.isDeleted v = false := by
  refine ⟨fun hv => (h.live v hv).2, fun hv => ?_⟩
  by_cases hfull : ef ≤ found.card
  · -- as many as there are live nodes
    have hsub : found ⊆ g.allIds.toFinset := fun w hw =>
      List.mem_toFinset.mpr (mem_allIds.mpr (isDeleted_iff.mp (h.live w hw).2))
    have hcard := List.toFinset_card_le g.allIds
    rw [length_allIds] at hcard
    rw [Finset.eq_of_subset_of_card_le hsub (by omega)]
    exact List.mem_toFinset.mpr (mem_allIds.mpr (isDeleted_iff.mp hv))
  · -- nothing was left out on any path
    have hseen : ∀ w, g.Reaches entry w → w ∈ seen := by
      intro w hr
      induction hr with
      | refl => exact h.start
      | tail _ hedge ih => exact (h.closed _ ih).resolve_right (fun hc => hfull hc.1) _ hedge
    exact (h.kept v (hseen v (hreach v hv)) hv).resolve_right fun hc => hfull hc.1

/-! ### Room among the nearest -/

/-- The node takes another link. -/
def HasSpace (g : NswGraph) (v : NodeId) : Prop :=
  ∃ n ∈ g.nodes.lookup v, n.neighbors.length < nswM * 2

instance (g : NswGraph) (v : NodeId) : Decidable (g.HasSpace v) :=
  inferInstanceAs (Decidable (∃ n ∈ g.nodes.lookup v, n.neighbors.length < nswM * 2))

/-- Fewer than `M` full nodes of `found` are as near as one that takes a link. -/
def Offers (g : NswGraph) (dist : NodeId → F32) (found : Finset NodeId) : Prop :=
  ∃ w ∈ found, g.HasSpace w ∧
    (found.filter fun v => ¬g.HasSpace v ∧ F32.totalLe (dist v) (dist w) = true).card < nswM

/-- Whatever a search for the new vector ends with, its nearest nodes cannot all be full. -/
def Linkable (g : NswGraph) (dist : NodeId → F32) : Prop :=
  ∀ entry ∈ g.entryPoint, ∀ seen found,
    g.Outcome dist efConstruction entry seen found → g.Offers dist found

theorem hasRoom_iff (hentry : g.entryPoint = some entry) : g.HasRoom dist ↔
    ∃ c ∈ (g.searchLayer dist efConstruction entry fun _ => false).take nswM,
      g.HasSpace c.1 := by
  simp only [HasRoom, hentry, HasSpace]

/-- If the first `M` were all full, each of them would be as near as the node with room. -/
theorem Linkable.hasRoom (h : g.Linkable dist) : g.HasRoom dist := by
  cases hentry : g.entryPoint with
  | none => simp only [HasRoom, hentry]
  | some entry =>
    rw [hasRoom_iff hentry]
    obtain ⟨seen, hout⟩ := outcome_searchLayer g dist efConstruction entry (by decide)
    obtain ⟨w, hw, hspace, hfew⟩ := h entry hentry seen _ hout
    have hsorted := pairwise_sorted ((g.searchState dist efConstruction entry
      fun _ => false).results.data.map fun r => (r.2, r.1))
    have hnd := nodup_searchLayer g dist efConstruction entry
    have hown : ∀ r ∈ g.searchLayer dist efConstruction entry (fun _ => false),
        r.2 = dist r.1 := fun r hr =>
      (searchState_ended g dist efConstruction entry).holding.own _ (mem_searchLayer_iff.mp hr)
    change (g.searchLayer dist efConstruction entry fun _ => false).Pairwise _ at hsorted
    generalize g.searchLayer dist efConstruction entry (fun _ => false) = out at *
    obtain ⟨c, hc, rfl⟩ := List.mem_map.mp (List.mem_toFinset.mp hw)
    rw [← List.take_append_drop nswM out, List.mem_append] at hc
    obtain hc | hc := hc
    · exact ⟨c, hc, hspace⟩
    -- the node with room comes later, so there are `M` nodes before it
    by_contra hfull
    push Not at hfull
    have hlen : (out.take nswM).length = nswM := by
      have hpos := List.length_pos_of_mem hc
      rw [List.length_drop] at hpos
      rw [List.length_take]
      omega
    have hsub : ((out.take nswM).map Prod.fst).toFinset ⊆
        (out.map Prod.fst).toFinset.filter fun v =>
          ¬g.HasSpace v ∧ F32.totalLe (dist v) (dist c.1) = true := by
      intro v hv
      obtain ⟨r, hr, rfl⟩ := List.mem_map.mp (List.mem_toFinset.mp hv)
      have hmem : r ∈ out := List.mem_of_mem_take hr
      have hle : F32.totalLe r.2 c.2 = true := by
        rw [← List.take_append_drop nswM out] at hsorted
        exact (List.pairwise_append.mp hsorted).2.2 r hr c hc
      rw [hown r hmem, hown c (List.mem_of_mem_drop hc)] at hle
      exact Finset.mem_filter.mpr
        ⟨List.mem_toFinset.mpr (List.mem_map_of_mem hmem), hfull r hr, hle⟩
    have hcard := Finset.card_le_card hsub
    rw [List.toFinset_card_of_nodup, List.length_map, hlen] at hcard
    · omega
    · rw [List.map_take]
      exact hnd.sublist (List.take_sublist _ _)

/-- At most `ef_construction` live nodes, no two of them equally far. -/
def Decided (g : NswGraph) (dist : NodeId → F32) : Prop :=
  g.len ≤ efConstruction ∧ (g.allIds.map fun id => F32.totalKey (dist id)).Nodup

instance (g : NswGraph) (dist : NodeId → F32) : Decidable (g.Decided dist) :=
  inferInstanceAs (Decidable (_ ∧ _))

/-- Where the distances decide, a selected node with room has fewer than `M` nodes at all
    before it. -/
theorem HasRoom.linkable (h : g.HasRoom dist) (hdec : g.Decided dist)
    (hreach : ∀ entry, g.entryPoint = some entry →
      ∀ v, g.isDeleted v = false → g.Reaches entry v) : g.Linkable dist := by
  intro entry hentry seen found hout
  obtain ⟨c, hc, hspace⟩ := (hasRoom_iff hentry).mp h
  have hall := hout.mem_found hdec.1 (hreach entry hentry)
  obtain ⟨seen', hout'⟩ := outcome_searchLayer g dist efConstruction entry (by decide)
  have hall' := hout'.mem_found hdec.1 (hreach entry hentry)
  have hsorted := pairwise_sorted ((g.searchState dist efConstruction entry
    fun _ => false).results.data.map fun r => (r.2, r.1))
  have hown : ∀ r ∈ g.searchLayer dist efConstruction entry (fun _ => false),
      r.2 = dist r.1 := fun r hr =>
    (searchState_ended g dist efConstruction entry).holding.own _ (mem_searchLayer_iff.mp hr)
  change (g.searchLayer dist efConstruction entry fun _ => false).Pairwise _ at hsorted
  generalize g.searchLayer dist efConstruction entry (fun _ => false) = out at *
  have hcmem : c ∈ out := List.mem_of_mem_take hc
  refine ⟨c.1, ?_, hspace, ?_⟩
  · rw [hall, ← hall', List.mem_toFinset]
    exact List.mem_map_of_mem hcmem
  -- the full nodes as near as `c` are nearer, and lie before it in the list
  have htotal : Std.Total fun a b : NodeId × F32 => F32.totalLe a.2 b.2 = true := by
    refine ⟨fun a b => ?_⟩
    simp only [F32.totalLe, decide_eq_true_eq]
    omega
  have hbefore := TopK.countP_lt_of_mem_take hsorted hc
  have hsub : (found.filter fun v => ¬g.HasSpace v ∧ F32.totalLe (dist v) (dist c.1) = true) ⊆
      ((out.filter fun z => ¬F32.totalLe c.2 z.2 = true).map Prod.fst).toFinset := by
    intro v hv
    obtain ⟨hfound, hfull, hle⟩ := Finset.mem_filter.mp hv
    have hvlive := (hall v).mp hfound
    obtain ⟨r, hr, rfl⟩ := List.mem_map.mp (List.mem_toFinset.mp ((hall' v).mpr hvlive))
    refine List.mem_toFinset.mpr (List.mem_map_of_mem (List.mem_filter.mpr ⟨hr, ?_⟩))
    have hclive := (hall' c.1).mp (List.mem_toFinset.mpr (List.mem_map_of_mem hcmem))
    have hne : F32.totalKey (dist r.1) ≠ F32.totalKey (dist c.1) := by
      intro heq
      have hsame := List.inj_on_of_nodup_map hdec.2 (mem_allIds.mpr (isDeleted_iff.mp hvlive))
        (mem_allIds.mpr (isDeleted_iff.mp hclive)) heq
      exact hfull (hsame ▸ hspace)
    simp only [F32.totalLe, decide_eq_true_eq] at hle ⊢
    rw [hown r hr, hown c hcmem]
    omega
  have hcard := (Finset.card_le_card hsub).trans (List.toFinset_card_le _)
  rw [List.length_map, ← List.countP_eq_length_filter] at hcard
  omega

/-! ### Every run -/

/-- A new id is inserted while every search for it ends near a node with room. -/
def LinkableStep (g : NswGraph) : GraphEvent → Prop
  | .insert id dist => (g.nodes.lookup id).isSome ∨ g.Linkable dist
  | .delete _ => True

/-- An insert whose distances decide what its search finds. -/
def DecidedStep (g : NswGraph) : GraphEvent → Prop
  | .insert _ dist => g.Decided dist
  | .delete _ => True

instance (g : NswGraph) (ev : GraphEvent) : Decidable (g.DecidedStep ev) :=
  match ev with
  | .insert _ dist => inferInstanceAs (Decidable (g.Decided dist))
  | .delete _ => .isTrue trivial

theorem LinkableStep.linkStep {ev : GraphEvent} (h : g.LinkableStep ev) : g.LinkStep ev := by
  cases ev with
  | insert id dist => exact h.imp_right Linkable.hasRoom
  | delete id => trivial

theorem linkableStep_iff {ev : GraphEvent} (hnav : g.Navigable) (hdec : g.DecidedStep ev) :
    g.LinkableStep ev ↔ g.LinkStep ev := by
  refine ⟨LinkableStep.linkStep, fun h => ?_⟩
  cases ev with
  | insert id dist =>
    refine h.imp_right fun hroom => hroom.linkable hdec fun entry hentry v hv => ?_
    obtain ⟨entry', hentry', hr⟩ := hnav.reachable v hv
    obtain rfl := Option.some.inj (hentry.symm.trans hentry')
    exact hr
  | delete id => trivial

/-- Along a run from the empty graph whose inserts are all linkable, every state is
    navigable; where the distances decide, a run whose states are all navigable has only such
    inserts. -/
theorem navigable_of_linkable (es : List GraphEvent) :
    (Run.Guarded step LinkableStep .new es →
      ∀ pre, pre <+: es → (Run.exec step .new pre).Navigable) ∧
    (Run.Guarded step DecidedStep .new es →
      ((∀ pre, pre <+: es → (Run.exec step .new pre).Navigable) ↔
        Run.Guarded step LinkableStep .new es)) := by
  refine ⟨fun h => (navigable_iff_guarded es).mpr (h.imp fun g ev => LinkableStep.linkStep),
    fun hdec => ?_⟩
  rw [navigable_iff_guarded]
  refine (Run.guarded_congr (fun g : NswGraph => Grown g ∧ g.Navigable)
    (fun g ev hg hlink => ⟨hg.1.step ev, (hg.1.navigable_step hg.2 ev).mpr hlink⟩)
    (fun g ev hg hd => linkableStep_iff hg.2 hd) hdec ⟨⟨inv_new, ?_⟩, ?_⟩).symm
  · exact fun id n hn => nomatch hn
  · exact navigable_of_reachable fun id hid => nomatch hid

/-- The soft-deleted first node stays a way to the others. -/
theorem navigable_of_linkable_three :
    let dist := fun id : NodeId => id.toUInt32
    let es : List GraphEvent := [.insert 1 dist, .insert 2 dist, .delete 1, .insert 3 dist]
    Run.Guarded step LinkableStep .new es ∧
      ∀ pre, pre <+: es → (Run.exec step .new pre).Navigable := by
  intro dist es
  have hnav : ∀ pre, pre <+: es → (Run.exec step .new pre).Navigable :=
    (navigable_iff_guarded es).mpr (by decide +kernel)
  have hlink := ((navigable_of_linkable es).2 (by decide +kernel)).mp hnav
  exact ⟨hlink, (navigable_of_linkable es).1 hlink⟩

end NswGraph

end FusionStore
