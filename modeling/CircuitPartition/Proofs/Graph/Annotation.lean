import CircuitPartition.Proofs.Graph.Reachable

/-!
What the checks on paths and slacks amount to: every slack is finite, and every path passes a pin of
each hyperedge that it lists.
-/

namespace CircuitPartition

variable {α : Type}

def TimingPath.Meets (path : TimingPath α) (hyperedges : Array (Hyperedge α)) (e : Nat) : Prop :=
  ∃ h, hyperedges[e]? = some h ∧ ∃ v ∈ path.vertices, v ∈ h.pins

theorem TimingPath.Meets.push {path : TimingPath α} {hyperedges : Array (Hyperedge α)} {e : Nat}
    (h : path.Meets hyperedges e) (added : Hyperedge α) : path.Meets (hyperedges.push added) e := by
  obtain ⟨hyperedge, hget, hmeets⟩ := h
  refine ⟨hyperedge, ?_, hmeets⟩
  obtain ⟨he, _⟩ := Array.getElem?_eq_some_iff.mp hget
  have : e ≠ hyperedges.size := by omega
  rw [Array.getElem?_push, if_neg this]
  exact hget

variable [Scalar α]

structure Builder.Annotated (b : Builder α) : Prop where
  slack_finite : ∀ slack ∈ b.hyperedgeSlack, ∀ x ∈ slack, Scalar.isFinite x = true
  path_finite : ∀ path ∈ b.paths,
    Scalar.isFinite path.baseSlack = true ∧ Scalar.isFinite path.slack = true
  path_meets : ∀ path ∈ b.paths, ∀ e ∈ path.hyperedges, path.Meets b.hyperedges e

theorem Builder.Reachable.annotated {b : Builder α} (h : b.Reachable) : b.Annotated := by
  induction h with
  | empty vertex hyperedge => constructor <;> simp [Builder.empty]
  | withPlacementDimensions n _ ih => exact ⟨ih.slack_finite, ih.path_finite, ih.path_meets⟩
  | withClockPeriod period _ ih => exact ⟨ih.slack_finite, ih.path_finite, ih.path_meets⟩
  | addVertex weight location _ hstep ih =>
    obtain ⟨_, _, _, _, rfl⟩ := addVertex_eq_ok.mp hstep
    exact ⟨ih.slack_finite, ih.path_finite, ih.path_meets⟩
  | addHyperedge pins weight _ hstep ih =>
    obtain ⟨_, _, _, _, rfl⟩ := addHyperedge_eq_ok.mp hstep
    refine ⟨?_, ih.path_finite, ?_⟩
    . exact Array.forall_mem_push.mpr ⟨by simp, ih.slack_finite⟩
    . intro path hpath e he
      exact (ih.path_meets path hpath e he).push _
  | setHyperedgeSlack e slack _ hstep ih =>
    obtain ⟨_, hfinite, rfl⟩ := setHyperedgeSlack_eq_ok.mp hstep
    refine ⟨?_, ih.path_finite, ih.path_meets⟩
    apply forall_mem_set! ih.slack_finite
    simpa using hfinite
  | addPath vertices hyperedges slack _ hstep ih =>
    obtain ⟨_, hfinite, _, hmeets, rfl⟩ := addPath_eq_ok.mp hstep
    refine ⟨ih.slack_finite, ?_, ?_⟩
    . exact Array.forall_mem_push.mpr ⟨⟨hfinite, hfinite⟩, ih.path_finite⟩
    . exact Array.forall_mem_push.mpr ⟨hmeets, ih.path_meets⟩

namespace Timing

structure Annotated (hyperedges : Array (Hyperedge α)) (timing : Timing α) : Prop where
  clockPeriod_finite : Scalar.isFinite timing.clockPeriod = true
  clockPeriod_pos : 0 < timing.clockPeriod
  baseHyperedgeSlack_finite : ∀ slack ∈ timing.baseHyperedgeSlack, Scalar.isFinite slack = true
  hyperedgeSlack_finite : ∀ slack ∈ timing.hyperedgeSlack, Scalar.isFinite slack = true
  path_finite : ∀ path ∈ timing.paths,
    Scalar.isFinite path.baseSlack = true ∧ Scalar.isFinite path.slack = true
  path_meets : ∀ path ∈ timing.paths, ∀ e ∈ path.hyperedges, path.Meets hyperedges e

variable {hyperedges : Array (Hyperedge α)} {timing next : Timing α}

theorem Annotated.step (ht : timing.Annotated hyperedges) (h : timing.Step next) :
    next.Annotated hyperedges := by
  cases h with
  | setPathSlack p slack hset =>
    obtain ⟨_, hfinite, rfl⟩ := setPathSlack_eq_ok.mp hset
    refine ⟨ht.clockPeriod_finite, ht.clockPeriod_pos, ht.baseHyperedgeSlack_finite,
      ht.hyperedgeSlack_finite, ?_, ?_⟩
    . apply forall_mem_modify_slack ht.path_finite
      intro path hpath
      exact ⟨hpath.left, hfinite⟩
    . apply forall_mem_modify_slack ht.path_meets
      intro path hpath
      exact hpath
  | setHyperedgeSlack e slack hset =>
    obtain ⟨_, hfinite, rfl⟩ := setHyperedgeSlack_eq_ok.mp hset
    refine ⟨ht.clockPeriod_finite, ht.clockPeriod_pos, ht.baseHyperedgeSlack_finite, ?_,
      ht.path_finite, ht.path_meets⟩
    exact forall_mem_set! ht.hyperedgeSlack_finite hfinite e
  | setDerived derived hset =>
    obtain ⟨_, _, rfl⟩ := setDerived_eq_ok.mp hset
    exact ⟨ht.clockPeriod_finite, ht.clockPeriod_pos, ht.baseHyperedgeSlack_finite,
      ht.hyperedgeSlack_finite, ht.path_finite, ht.path_meets⟩

end Timing

theorem Builder.Annotated.timing {b : Builder α} (hb : b.Annotated) {timing : Timing α}
    (h : b.timing? = .ok (some timing)) : timing.Annotated b.hyperedges := by
  obtain ⟨period, _, hfinite, hpos, rfl⟩ := timing?_eq_ok_some.mp h
  have hslack : ∀ slack ∈ b.hyperedgeSlack.map (·.getD period), Scalar.isFinite slack = true := by
    intro slack hslack
    obtain ⟨given, hgiven, rfl⟩ := Array.mem_map.mp hslack
    cases given with
    | none => exact hfinite
    | some x => exact hb.slack_finite (some x) hgiven x rfl
  exact ⟨hfinite, hpos, hslack, hslack, hb.path_finite, hb.path_meets⟩

theorem Hypergraph.Reachable.annotated {graph : Hypergraph α} (h : graph.Reachable) :
    ∀ timing, graph.timing = some timing → timing.Annotated graph.hyperedges := by
  apply h.induction
  . intro b graph hb hbuild timing ht
    obtain ⟨_, _, _, htiming, rfl⟩ := Builder.build_eq_ok.mp hbuild
    dsimp only at ht
    subst ht
    exact hb.annotated.timing htiming
  . intro graph timing next hgraph ht hstep other hother
    rw [Option.some.injEq] at hother
    subst hother
    exact (hgraph timing ht).step hstep

end CircuitPartition
