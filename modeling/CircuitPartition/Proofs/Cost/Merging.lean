import CircuitPartition.Proofs.Cost.Charge
import CircuitPartition.Proofs.Cost.Relabeling

/-!
What becomes of a solution when blocks are merged. Nothing is cut or crossed that was not before,
and with exact arithmetic no slack is charged more.
-/

namespace CircuitPartition

theorem crossings_map_le (f : Nat → Nat) (blocks : List Nat) :
    crossings (blocks.map f) ≤ crossings blocks := by
  unfold crossings
  rw [← List.map_tail, List.zip_map, List.countP_map]
  apply List.countP_mono_left
  intro step _ hne
  simp only [Function.comp_apply, Prod.map, bne_iff_ne] at hne ⊢
  exact ne_of_apply_ne f hne

namespace CostModel.Admits

variable {α : Type} {model : CostModel α} {graph : Hypergraph α} {solution : Solution}
  (h : model.Admits graph solution) (hg : graph.WellFormed) (f : Nat → Nat)

include h hg

theorem cut_of_cut_map {e : Nat} (hcut : graph.cut (Solution.blockOf (solution.map f)) e = true) :
    graph.cut solution.blockOf e = true := by
  unfold Hypergraph.cut at hcut ⊢
  rw [h.map_blockOf_map_pins hg] at hcut
  exact apart_of_apart_map hcut

theorem crossings_map_le (p : Nat) :
    graph.crossings (Solution.blockOf (solution.map f)) p
      ≤
    graph.crossings solution.blockOf p := by
  unfold Hypergraph.crossings
  rw [h.map_blockOf_map_walk hg]
  exact CircuitPartition.crossings_map_le f _

end CostModel.Admits

section Slack

variable {α : Type} [ExactScalar α]

open List (Forall₂)

theorem forall₂_map_le {β : Type} {f g : β → α} {values : List β}
    (h : ∀ value ∈ values, f value ≤ g value) :
    Forall₂ (· ≤ ·) (values.map f) (values.map g) := by
  rwa [List.forall₂_map_left_iff, List.forall₂_map_right_iff, List.forall₂_same]

theorem ExactScalar.foldl_min_mono {a b : α} {as bs : List α} (hab : a ≤ b)
    (h : Forall₂ (· ≤ ·) as bs) : as.foldl Scalar.min a ≤ bs.foldl Scalar.min b := by
  induction h generalizing a b with
  | nil => exact hab
  | cons hle _ ih =>
    rw [List.foldl_cons, List.foldl_cons, min_eq_min, min_eq_min]
    exact ih (min_le_min hab hle)

namespace CostModel

theorem pick_mono {as bs : List α} (h : Forall₂ (· ≤ ·) as bs) (indices : List Nat) :
    Forall₂ (· ≤ ·) (pick as indices) (pick bs indices) := by
  have hle (i : Nat) : as[i]?.getD 0 ≤ bs[i]?.getD 0 := by
    induction h generalizing i with
    | nil => exact le_rfl
    | cons hle _ ih =>
      cases i with
      | zero => exact hle
      | succ i => exact ih i
  exact forall₂_map_le fun i _ => hle i

variable {model : CostModel α} {graph : Hypergraph α} {solution other : Solution}
  (hdelay : 0 ≤ model.cutDelay)
  (hcut : ∀ e, graph.cut other.blockOf e = true → graph.cut solution.blockOf e = true)

include hdelay hcut

theorem chargedPath_mono (path : TimingPath α) :
    model.chargedPath graph solution path ≤ model.chargedPath graph other path := by
  have hcount : path.hyperedges.countP (graph.cut other.blockOf)
      ≤ path.hyperedges.countP (graph.cut solution.blockOf) :=
    List.countP_mono_left fun e _ => hcut e
  unfold chargedPath
  rw [← List.countP_eq_length_filter, ← List.countP_eq_length_filter]
  exact sub_le_sub_left (mul_le_mul_of_nonneg_left (Nat.cast_le.mpr hcount) hdelay) _

theorem chargedHyperedge_mono (e : Nat) (base : α) {slacks slacks' : List α}
    (h : Forall₂ (· ≤ ·) slacks slacks') :
    model.chargedHyperedge graph solution e base slacks
      ≤
    model.chargedHyperedge graph other e base slacks' := by
  unfold chargedHyperedge
  apply ExactScalar.foldl_min_mono _ h
  by_cases he : graph.cut other.blockOf e = true
  . rw [if_pos he, if_pos (hcut e he)]
  . rw [if_neg he]
    split
    . exact sub_le_self base hdelay
    . exact le_rfl

theorem chargedSlacks_mono (timing : Timing α) :
    let before := model.chargedSlacks graph solution timing
    let after := model.chargedSlacks graph other timing
    Forall₂ (· ≤ ·) before.path after.path ∧ Forall₂ (· ≤ ·) before.hyperedge after.hyperedge := by
  have hpath : Forall₂ (· ≤ ·) (timing.paths.toList.map (model.chargedPath graph solution))
      (timing.paths.toList.map (model.chargedPath graph other)) :=
    forall₂_map_le fun path _ => chargedPath_mono hdelay hcut path
  refine ⟨hpath, ?_⟩
  apply forall₂_map_le
  rintro ⟨base, e⟩ _
  exact chargedHyperedge_mono hdelay hcut e base (pick_mono hpath _)

end CostModel

end Slack

namespace CostModel

theorem merging_cuts_no_more :
    (∀ {α : Type} [Scalar α] {graph : Hypergraph α} {model : CostModel α} {solution : Solution}
      {f : Nat → Nat},
      let merged : Solution := solution.map f
      graph.Reachable →
      model.Admits graph solution →
      (∀ block < model.numParts, f block < model.numParts) →
      (∃ cut cut', model.cutHyperedges graph solution = .ok cut ∧
        model.cutHyperedges graph merged = .ok cut' ∧ cut' ⊆ cut) ∧
      (∀ p, (blockRuns ((graph.walk p).map merged.blockOf)).length - 1
        ≤ (blockRuns ((graph.walk p).map solution.blockOf)).length - 1) ∧
      ∃ cuts cuts', model.timingCuts graph solution = .ok cuts ∧
        model.timingCuts graph merged = .ok cuts' ∧
        cuts'.total ≤ cuts.total ∧ cuts'.worst ≤ cuts.worst) ∧
    ∀ {α : Type} [ExactScalar α] {graph : Hypergraph α} {timing : Timing α} {model : CostModel α}
      {solution : Solution} {f : Nat → Nat},
      let merged : Solution := solution.map f
      graph.Reachable →
      graph.timing = some timing →
      model.Admits graph solution →
      (∀ block < model.numParts, f block < model.numParts) →
      0 ≤ model.cutDelay →
      ∃ before after,
        model.updateTiming graph solution = ⟨{ graph with timing := some before }, .ok ()⟩ ∧
        model.updateTiming graph merged = ⟨{ graph with timing := some after }, .ok ()⟩ ∧
        List.Forall₂ (· ≤ ·) before.slacks.path after.slacks.path ∧
        List.Forall₂ (· ≤ ·) before.slacks.hyperedge after.slacks.hyperedge := by
  constructor
  . intro α _ graph model solution f merged hgraph h hf
    have hg := hgraph.wellFormed
    have h' : model.Admits graph merged := h.map hf
    have hcrossings := h.crossings_map_le hg f
    refine ⟨⟨_, _, h.cutHyperedges hg, h'.cutHyperedges hg, ?_⟩, ?_,
      ⟨_, _, h.timingCuts hg, h'.timingCuts hg, ?_, ?_⟩⟩
    . exact (List.monotone_filter_right _ fun _ => h.cut_of_cut_map hg f).subset
    . intro p
      rw [length_blockRuns_sub_one, length_blockRuns_sub_one]
      exact hcrossings p
    . unfold Hypergraph.timingTable
      dsimp only
      exact Finset.sum_le_sum fun p _ => hcrossings p
    . unfold Hypergraph.timingTable
      dsimp only
      exact Finset.sup_mono_fun fun p _ => hcrossings p
  . intro α _ graph timing model solution f merged hgraph ht h hf hdelay
    have hg := hgraph.wellFormed
    obtain ⟨hpath, hhyperedge⟩ :=
      chargedSlacks_mono hdelay (fun _ => h.cut_of_cut_map hg f) timing
    refine ⟨_, _, updateTiming_eq_updatedTiming hg ht h,
      updateTiming_eq_updatedTiming hg ht (h.map hf), ?_, ?_⟩
    . rw [slacks_updatedTiming hg ht, slacks_updatedTiming hg ht]
      exact hpath
    . rw [slacks_updatedTiming hg ht, slacks_updatedTiming hg ht]
      exact hhyperedge

theorem merging_cuts_no_more_roundTrip :
    CostModel.standard.Admits Hypergraph.thereAndBack #[0, 1] ∧
      (∃ cut, CostModel.standard.cutHyperedges Hypergraph.thereAndBack #[0, 1] = .ok cut ∧
        ∃ cut', CostModel.standard.cutHyperedges Hypergraph.thereAndBack #[0, 0] = .ok cut' ∧
          cut' ⊆ cut) ∧
      CostModel.standard.Admits Hypergraph.roundTrip #[0, 1] ∧
      ∃ before after,
        CostModel.standard.updateTiming Hypergraph.roundTrip #[0, 1]
          = ⟨{ Hypergraph.roundTrip with timing := some before }, .ok ()⟩ ∧
        CostModel.standard.updateTiming Hypergraph.roundTrip #[0, 0]
          = ⟨{ Hypergraph.roundTrip with timing := some after }, .ok ()⟩ ∧
        List.Forall₂ (· ≤ ·) before.slacks.path after.slacks.path := by
  have hnames : Array.map (fun _ => 0) #[0, 1] = #[0, 0] := by simp
  have hf (block : Nat) (_ : block < 2) : 0 < 2 := Nat.zero_lt_two
  have h : CostModel.standard.Admits Hypergraph.thereAndBack #[0, 1] := checkSolution_eq_ok.mp rfl
  have h' : CostModel.standard.Admits Hypergraph.roundTrip #[0, 1] := checkSolution_eq_ok.mp rfl
  obtain ⟨⟨cut, cut', hcut, hcut', hsub⟩, _⟩ :=
    merging_cuts_no_more.left Hypergraph.obtained_thereAndBack.reachable h hf
  obtain ⟨before, after, hbefore, hafter, hle, _⟩ :=
    merging_cuts_no_more.right Hypergraph.reachable_roundTrip rfl h' hf (by decide)
  rw [hnames] at hcut' hafter
  exact ⟨h, ⟨cut, hcut, cut', hcut', hsub⟩, h', before, after, hbefore, hafter, hle⟩

end CostModel

end CircuitPartition
