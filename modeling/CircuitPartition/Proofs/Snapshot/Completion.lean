import CircuitPartition.Double
import CircuitPartition.Proofs.Snapshot.Decoding

/-!
A payload against what is stored of the hypergraph that it is read as. Of pins a set is made, and a
list of slacks that is too short is completed. Everything else comes back.
-/

namespace CircuitPartition.Snapshot

variable {α : Type}

theorem length_overlay {values current : List α} (h : values.length ≤ current.length) :
    (overlay values current).length = current.length := by
  unfold overlay
  rw [List.length_append, List.length_drop]
  omega

theorem overlay_eq_self {values current : List α} :
    overlay values current = values ↔ current.length ≤ values.length := by
  unfold overlay
  rw [List.append_right_eq_self, List.drop_eq_nil_iff]

namespace TimingPayload

def Covers (hyperedges : Nat) (stored : TimingPayload α) : Prop :=
  stored.baseHyperedgeSlack.length = hyperedges ∧ stored.hyperedgeSlack.length = hyperedges

theorem completed_eq_self {hyperedges : Nat} {stored : TimingPayload α}
    (hbase : stored.baseHyperedgeSlack.length ≤ hyperedges)
    (hslack : stored.hyperedgeSlack.length ≤ hyperedges) :
    stored.completed hyperedges = stored ↔ stored.Covers hyperedges := by
  have hlength : (overlay stored.baseHyperedgeSlack
      (List.replicate hyperedges stored.clockPeriod)).length = hyperedges := by
    rw [length_overlay (by simpa using hbase), List.length_replicate]
  have hcompleted : stored.completed hyperedges = stored
      ↔
      overlay stored.baseHyperedgeSlack (List.replicate hyperedges stored.clockPeriod)
          = stored.baseHyperedgeSlack ∧
        overlay stored.hyperedgeSlack
            (overlay stored.baseHyperedgeSlack (List.replicate hyperedges stored.clockPeriod))
          = stored.hyperedgeSlack := by
    cases stored
    simp [completed]
  rw [hcompleted, overlay_eq_self, overlay_eq_self, hlength, List.length_replicate]
  unfold Covers
  omega

end TimingPayload

namespace Payload

theorem ofGraph_indexed (payload : Payload α) :
    ofGraph payload.indexed = { payload with version := .current } := by
  obtain ⟨version, dimensions, vertices, hyperedges, timing⟩ := payload
  cases timing with
  | none => rfl
  | some stored => rfl

theorem completed_eq_canonical {payload : Payload α}
    (h : ∀ stored, payload.timing = some stored →
      stored.baseHyperedgeSlack.length ≤ payload.hyperedges.length ∧
        stored.hyperedgeSlack.length ≤ payload.hyperedges.length) :
    payload.completed = payload.canonical
      ↔
    ∀ stored, payload.timing = some stored → stored.Covers payload.hyperedges.length := by
  obtain ⟨version, dimensions, vertices, hyperedges, timing⟩ := payload
  cases timing with
  | none => simp [completed, canonical]
  | some stored =>
    obtain ⟨hbase, hslack⟩ := h stored rfl
    simpa [completed, canonical] using TimingPayload.completed_eq_self hbase hslack

variable [Scalar α]

theorem ofGraph_toGraph {payload : Payload α} {graph : Hypergraph α}
    (h : payload.toGraph = .ok graph) :
    ofGraph graph = payload.completed ∧
      (∀ stored, payload.timing = some stored →
        stored.baseHyperedgeSlack.length ≤ payload.hyperedges.length ∧
          stored.hyperedgeSlack.length ≤ payload.hyperedges.length) ∧
      (ofGraph graph = payload.canonical
        ↔
      ∀ stored, payload.timing = some stored → stored.Covers payload.hyperedges.length) := by
  obtain ⟨haccepted, rfl⟩ := toGraph_eq_ok.mp h
  have hlengths : ∀ stored, payload.timing = some stored →
      stored.baseHyperedgeSlack.length ≤ payload.hyperedges.length ∧
        stored.hyperedgeSlack.length ≤ payload.hyperedges.length := by
    intro stored ht
    have := haccepted.timing stored ht
    exact ⟨this.length_baseHyperedgeSlack, this.length_hyperedgeSlack⟩
  have hcompleted : ofGraph payload.completed.indexed = payload.completed :=
    ofGraph_indexed payload.completed
  rw [hcompleted]
  exact ⟨rfl, hlengths, completed_eq_canonical hlengths⟩

def redundant : Payload Double where
  version := ⟨1, 0, 7⟩
  dimensions := ⟨1, 1, 0⟩
  vertices := [⟨[1], []⟩, ⟨[1], []⟩]
  hyperedges := [⟨[1, 0, 1], [1]⟩]
  timing := some ⟨4.0, [3.0], [2.0], [⟨[0, 1], [0], 3.0, 1⟩], none⟩

theorem ofGraph_toGraph_redundant :
    ∃ graph, redundant.toGraph = .ok graph ∧ ofGraph graph = redundant.canonical := by
  have h : ∃ graph, redundant.toGraph = .ok graph :=
    ⟨redundant.completed.indexed, by decide +kernel⟩
  obtain ⟨graph, hread⟩ := h
  refine ⟨graph, hread, (ofGraph_toGraph hread).right.right.mpr ?_⟩
  intro stored ht
  rw [redundant, Option.some.injEq] at ht
  subst ht
  exact ⟨rfl, rfl⟩

def sparse : Payload Double where
  version := .current
  dimensions := ⟨1, 1, 0⟩
  vertices := [⟨[1], []⟩]
  hyperedges := [⟨[0], [1]⟩]
  timing := some ⟨4.0, [], [], [], none⟩

theorem completes_sparse :
    ∃ graph, sparse.toGraph = .ok graph ∧ ofGraph graph ≠ sparse.canonical ∧
      (ofGraph graph).timing = some ⟨4.0, [4.0], [4.0], [], none⟩ :=
  ⟨sparse.completed.indexed, by decide +kernel⟩

end Payload

end CircuitPartition.Snapshot
