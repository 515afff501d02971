import CircuitPartition.Proofs.Json.Record
import CircuitPartition.Proofs.Snapshot.Bounds
import CircuitPartition.Proofs.Snapshot.Encoding

/-!
Hypergraphs stored as JSON texts. They come back if every derived cost is finite: a cost that is not
finite is written as `null`, which is not read as a cost.
-/

namespace CircuitPartition

theorem SchemaVersion.ofJson?_toJson (v : SchemaVersion) : ofJson? v.toJson = some v := by
  unfold SchemaVersion.ofJson? SchemaVersion.toJson
  rw [Json.record?_ofFields (by decide) rfl]
  simp [Json.uint32?_ofNat]

theorem SchemaVersion.printable_toJson (v : SchemaVersion) : v.toJson.Printable :=
  Json.printable_ofFields (by simp [Json.printable_ofNat])

def DerivedCosts.doubles {α : Type} (derived : DerivedCosts α) : List α :=
  derived.pathCosts.toList ++ derived.hyperedgeWeights.toList

namespace Snapshot

variable {α : Type}

def TimingPayload.doubles (stored : TimingPayload α) : List α :=
  stored.clockPeriod :: (stored.baseHyperedgeSlack ++ stored.hyperedgeSlack
    ++ stored.paths.flatMap (fun path => [path.baseSlack, path.slack])
    ++ stored.derived.elim [] (·.doubles))

def Payload.doubles (payload : Payload α) : List α :=
  payload.vertices.flatMap (fun v => v.weight ++ v.location)
    ++ payload.hyperedges.flatMap (·.weight) ++ payload.timing.elim [] (·.doubles)

theorem vertexOfJson?_vertexToJson {v : Vertex Double}
    (h : ∀ x ∈ v.weight ++ v.location, Json.ReadsBack x) :
    vertexOfJson? (vertexToJson v) = some v := by
  rw [List.forall_mem_append] at h
  unfold vertexOfJson? vertexToJson
  rw [Json.record?_ofFields (by decide) rfl]
  simp [Json.orDefault?, Json.list?_ofDoubles h.left, Json.list?_ofDoubles h.right]

theorem hyperedgeOfJson?_hyperedgeToJson {e : Hyperedge Double} (hbounded : e.Bounded)
    (h : ∀ x ∈ e.weight, Json.ReadsBack x) :
    hyperedgeOfJson? (hyperedgeToJson e) = some e := by
  unfold hyperedgeOfJson? hyperedgeToJson
  rw [Json.record?_ofFields (by decide) rfl]
  simp [Json.list?_ofIndices hbounded.pin, Json.list?_ofDoubles h]

theorem pathOfJson?_pathToJson {p : TimingPath Double} (hbounded : p.Bounded)
    (hbase : Json.ReadsBack p.baseSlack) (hslack : Json.ReadsBack p.slack) :
    pathOfJson? (pathToJson p) = some p := by
  unfold Json.ReadsBack at hbase hslack
  unfold pathOfJson? pathToJson
  rw [Json.record?_ofFields (by decide) rfl]
  simp [Json.list?_ofIndices hbounded.vertex, Json.list?_ofIndices hbounded.hyperedge, hbase,
    hslack]

theorem derivedOfJson?_derivedToJson {d : DerivedCosts Double}
    (h : ∀ x ∈ d.doubles, Json.ReadsBack x) : derivedOfJson? (derivedToJson d) = some d := by
  unfold DerivedCosts.doubles at h
  rw [List.forall_mem_append] at h
  unfold derivedOfJson? derivedToJson
  rw [Json.record?_ofFields (by decide) rfl]
  simp [Json.list?_ofDoubles h.left, Json.list?_ofDoubles h.right]

theorem derivedOfJson?_derivedToJson_eq_none {d : DerivedCosts Double} {x : Double}
    (hx : x ∈ d.doubles) (h : x.isFinite = false) : derivedOfJson? (derivedToJson d) = none := by
  unfold derivedOfJson? derivedToJson
  rw [Json.record?_ofFields (by decide) rfl]
  cases List.mem_append.mp hx with
  | inl hx => simp [Json.list?_ofDoubles_eq_none hx h]
  | inr hx => simp [Json.list?_ofDoubles_eq_none hx h]

theorem printable_vertex {v : Vertex Double}
    (h : ∀ x ∈ v.weight ++ v.location, x.isFinite = true → Json.ReadsBack x) :
    (vertexToJson v).Printable := by
  rw [List.forall_mem_append] at h
  apply Json.printable_ofFields
  simp [Json.printable_ofDoubles h.left, Json.printable_ofDoubles h.right]

theorem printable_hyperedge {e : Hyperedge Double}
    (h : ∀ x ∈ e.weight, x.isFinite = true → Json.ReadsBack x) :
    (hyperedgeToJson e).Printable := by
  apply Json.printable_ofFields
  simp [Json.printable_ofIndices, Json.printable_ofDoubles h]

theorem printable_path {p : TimingPath Double}
    (h : ∀ x ∈ [p.baseSlack, p.slack], x.isFinite = true → Json.ReadsBack x) :
    (pathToJson p).Printable := by
  rw [List.forall_mem_cons, List.forall_mem_singleton] at h
  apply Json.printable_ofFields
  simp [Json.printable_ofIndices, Json.printable_ofDouble h.left,
    Json.printable_ofDouble h.right]

theorem printable_derived {d : DerivedCosts Double}
    (h : ∀ x ∈ d.doubles, x.isFinite = true → Json.ReadsBack x) :
    (derivedToJson d).Printable := by
  unfold DerivedCosts.doubles at h
  rw [List.forall_mem_append] at h
  apply Json.printable_ofFields
  simp [Json.printable_ofDoubles h.left, Json.printable_ofDoubles h.right]

namespace TimingPayload

theorem record?_toJson (t : TimingPayload Double) :
    t.toJson.record? [⟨"clock_period", .required⟩, ⟨"original_hyperedge_slack", .required⟩,
        ⟨"hyperedge_slack", .required⟩, ⟨"paths", .required⟩, ⟨"derived", .optional⟩]
      = some [some (.ofDouble t.clockPeriod), some (.ofDoubles t.baseHyperedgeSlack),
        some (.ofDoubles t.hyperedgeSlack), some (.array (t.paths.map pathToJson)),
        some (t.derived.elim .null derivedToJson)] :=
  Json.record?_ofFields (by decide) rfl

theorem printable_toJson {t : TimingPayload Double}
    (h : ∀ x ∈ t.doubles, x.isFinite = true → Json.ReadsBack x) : t.toJson.Printable := by
  simp only [doubles, List.forall_mem_cons, List.forall_mem_append, List.forall_mem_flatMap] at h
  obtain ⟨hperiod, ⟨⟨hbase, hslack⟩, hpaths⟩, hderived⟩ := h
  have hpath : (Json.array (t.paths.map pathToJson)).Printable := by
    apply Json.printable_map
    intro p hp
    exact printable_path (by simpa using hpaths p hp)
  have hcosts : (t.derived.elim .null derivedToJson).Printable := by
    apply Json.printable_elim
    intro d hd
    rw [hd] at hderived
    exact printable_derived hderived
  apply Json.printable_ofFields
  simp [Json.printable_ofDouble hperiod, Json.printable_ofDoubles hbase,
    Json.printable_ofDoubles hslack, hpath, hcosts]

theorem ofJson?_toJson {t : TimingPayload Double} (hbounded : t.Bounded)
    (h : ∀ x ∈ t.doubles, Json.ReadsBack x) : ofJson? t.toJson = some t := by
  simp only [doubles, List.forall_mem_cons, List.forall_mem_append, List.forall_mem_flatMap] at h
  obtain ⟨hperiod, ⟨⟨hbase, hslack⟩, hpaths⟩, hderived⟩ := h
  have hpath : Json.list? pathOfJson? (.array (t.paths.map pathToJson)) = some t.paths := by
    apply Json.list?_map
    intro p hp
    obtain ⟨hbase, hslack, _⟩ := hpaths p hp
    exact pathOfJson?_pathToJson (hbounded.path p hp) hbase hslack
  have hcosts : Json.optional? derivedOfJson? (some (t.derived.elim .null derivedToJson))
      = some t.derived := by
    apply Json.optional?_elim
    . intro d
      exact Json.noConfusion
    . intro d hd
      rw [hd] at hderived
      exact derivedOfJson?_derivedToJson hderived
  unfold Json.ReadsBack at hperiod
  unfold ofJson?
  rw [record?_toJson]
  simp [hperiod, Json.list?_ofDoubles hbase, Json.list?_ofDoubles hslack, hpath, hcosts]

theorem ofJson?_toJson_eq_none {t : TimingPayload Double} {d : DerivedCosts Double}
    (hd : t.derived = some d) {x : Double} (hx : x ∈ d.doubles) (h : x.isFinite = false) :
    ofJson? t.toJson = none := by
  have hcosts : Json.optional? derivedOfJson? (some (derivedToJson d)) = none := by
    rw [Json.optional?, derivedOfJson?_derivedToJson_eq_none hx h]
    . rfl
    . exact Json.noConfusion
  unfold ofJson?
  rw [record?_toJson, hd, Option.elim_some]
  simp [hcosts]

end TimingPayload

namespace Payload

theorem record?_toJson (p : Payload Double) :
    p.toJson.record? fields
      = some [some p.version.toJson, some (.ofNat p.dimensions.vertex),
        some (.ofNat p.dimensions.hyperedge), some (.ofNat p.dimensions.placement),
        some (.array (p.vertices.map vertexToJson)),
        some (.array (p.hyperedges.map hyperedgeToJson)),
        some (p.timing.elim .null TimingPayload.toJson)] :=
  Json.record?_ofFields (by decide) rfl

theorem printable_toJson {p : Payload Double}
    (h : ∀ x ∈ p.doubles, x.isFinite = true → Json.ReadsBack x) : p.toJson.Printable := by
  simp only [doubles, List.forall_mem_append, List.forall_mem_flatMap] at h
  obtain ⟨⟨hvertex, hhyperedge⟩, htiming⟩ := h
  have hvertices : (Json.array (p.vertices.map vertexToJson)).Printable := by
    apply Json.printable_map
    intro v hv
    exact printable_vertex (List.forall_mem_append.mpr (hvertex v hv))
  have hhyperedges : (Json.array (p.hyperedges.map hyperedgeToJson)).Printable := by
    apply Json.printable_map
    intro e he
    exact printable_hyperedge (hhyperedge e he)
  have hstored : (p.timing.elim .null TimingPayload.toJson).Printable := by
    apply Json.printable_elim
    intro t ht
    rw [ht] at htiming
    exact TimingPayload.printable_toJson htiming
  apply Json.printable_ofFields
  simp [SchemaVersion.printable_toJson, Json.printable_ofNat, hvertices, hhyperedges, hstored]

theorem ofJson?_toJson {p : Payload Double} (hbounded : p.Bounded)
    (h : ∀ x ∈ p.doubles, Json.ReadsBack x) : ofJson? p.toJson = some p := by
  simp only [doubles, List.forall_mem_append, List.forall_mem_flatMap] at h
  obtain ⟨⟨hvertex, hhyperedge⟩, htiming⟩ := h
  have hvertices : Json.list? vertexOfJson? (.array (p.vertices.map vertexToJson))
      = some p.vertices := by
    apply Json.list?_map
    intro v hv
    exact vertexOfJson?_vertexToJson (List.forall_mem_append.mpr (hvertex v hv))
  have hhyperedges : Json.list? hyperedgeOfJson? (.array (p.hyperedges.map hyperedgeToJson))
      = some p.hyperedges := by
    apply Json.list?_map
    intro e he
    exact hyperedgeOfJson?_hyperedgeToJson (hbounded.hyperedge e he) (hhyperedge e he)
  have hstored : Json.optional? TimingPayload.ofJson?
      (some (p.timing.elim .null TimingPayload.toJson)) = some p.timing := by
    apply Json.optional?_elim
    . intro t
      exact Json.noConfusion
    . intro t ht
      rw [ht] at htiming
      exact TimingPayload.ofJson?_toJson (hbounded.timing t ht) htiming
  unfold ofJson?
  rw [record?_toJson]
  simp [SchemaVersion.ofJson?_toJson, Json.index?_ofNat hbounded.vertex_dimensions,
    Json.index?_ofNat hbounded.hyperedge_dimensions,
    Json.index?_ofNat hbounded.placement_dimensions, hvertices, hhyperedges, hstored]

theorem ofJson?_toJson_eq_none {p : Payload Double} {t : TimingPayload Double}
    (ht : p.timing = some t) {d : DerivedCosts Double} (hd : t.derived = some d) {x : Double}
    (hx : x ∈ d.doubles) (h : x.isFinite = false) : ofJson? p.toJson = none := by
  have hstored : Json.optional? TimingPayload.ofJson? (some t.toJson) = none := by
    rw [Json.optional?, TimingPayload.ofJson?_toJson_eq_none hd hx h]
    . rfl
    . exact Json.noConfusion
  unfold ofJson?
  rw [record?_toJson, ht, Option.elim_some]
  simp [hstored]

theorem Acceptable.finite {p : Payload Double} (haccepted : p.Acceptable)
    (hcosts : ∀ t, p.timing = some t → ∀ d, t.derived = some d →
      ∀ x ∈ d.doubles, x.isFinite = true) :
    ∀ x ∈ p.doubles, x.isFinite = true := by
  -- Only derived costs need not be finite.
  simp only [doubles, List.forall_mem_append, List.forall_mem_flatMap]
  refine ⟨⟨?_, ?_⟩, ?_⟩
  . intro v hv
    exact (haccepted.vertex v hv).right.right
  . intro e he
    exact (haccepted.hyperedge e he).right.right.left
  . cases ht : p.timing with
    | none => simp
    | some t =>
      have hstored := haccepted.timing t ht
      simp only [Option.elim_some, TimingPayload.doubles, List.forall_mem_cons,
        List.forall_mem_append, List.forall_mem_flatMap]
      refine ⟨hstored.clockPeriod_finite, ⟨⟨hstored.baseHyperedgeSlack_finite,
        hstored.hyperedgeSlack_finite⟩, ?_⟩, ?_⟩
      . intro p hp
        exact ⟨(hstored.path p hp).right.left, hstored.path_finite p hp, by simp⟩
      . cases hd : t.derived with
        | none => simp
        | some d => exact hcosts t ht d hd

end Payload

end Snapshot

namespace Hypergraph

open Snapshot (Payload TimingPayload)

def FiniteCosts (graph : Hypergraph Double) : Prop :=
  ∀ derived, graph.derived? = some derived → ∀ x ∈ derived.doubles, x.isFinite = true

variable {graph : Hypergraph Double}

theorem ofJsonText_toJsonText
    (hread : ∀ x ∈ (Payload.ofGraph graph).doubles, x.isFinite = true → Json.ReadsBack x)
    (hbounded : (Payload.ofGraph graph).Bounded)
    (hfinite : ∀ x ∈ (Payload.ofGraph graph).doubles, x.isFinite = true) :
    ofJsonText graph.toJsonText = (Payload.ofGraph graph).toGraph := by
  have hback := Payload.ofJson?_toJson hbounded fun x hx => hread x hx (hfinite x hx)
  unfold ofJsonText toJsonText
  rw [(Payload.printable_toJson hread).parse?_pretty, Option.bind_some, hback]

theorem ofJsonText_toJsonText_of_not_finiteCosts
    (hread : ∀ x ∈ (Payload.ofGraph graph).doubles, x.isFinite = true → Json.ReadsBack x)
    (h : ¬graph.FiniteCosts) :
    ofJsonText graph.toJsonText = .error (.document .malformedJson) := by
  simp only [FiniteCosts, not_forall] at h
  obtain ⟨derived, hderived, x, hx, hinfinite⟩ := h
  obtain ⟨timing, ht, hd⟩ := Option.bind_eq_some_iff.mp hderived
  have hstored : (Payload.ofGraph graph).timing = some (.ofTiming timing) := by
    simp [Payload.ofGraph, ht]
  have hrefused := Payload.ofJson?_toJson_eq_none hstored hd hx (by simpa using hinfinite)
  unfold ofJsonText toJsonText
  rw [(Payload.printable_toJson hread).parse?_pretty, Option.bind_some, hrefused]

theorem json_read_back (h : graph.ObtainedPlaced) (hfits : graph.Fits)
    (changes : List (Change Double))
    (hread : ∀ x ∈ (Payload.ofGraph (graph.changeAll changes)).doubles,
      x.isFinite = true → Json.ReadsBack x) :
    ((graph.changeAll changes).FiniteCosts →
      ofJsonText (graph.changeAll changes).toJsonText = .ok (graph.changeAll changes)) ∧
      (¬(graph.changeAll changes).FiniteCosts →
        ofJsonText (graph.changeAll changes).toJsonText
          = .error (.document .malformedJson)) := by
  have hreachable := h.obtained.reachable.changeAll changes
  constructor
  . intro hcosts
    have haccepted := Payload.acceptable_ofGraph hreachable (h.placed.changeAll changes)
    rw [ofJsonText_toJsonText hread
      (Payload.bounded_ofGraph hreachable (hfits.changeAll changes))]
    . exact h.toGraph_ofGraph changes
    . apply haccepted.finite
      intro stored hstored derived hderived
      obtain ⟨timing, ht, rfl⟩ := Option.map_eq_some_iff.mp hstored
      exact hcosts derived (Option.bind_eq_some_iff.mpr ⟨timing, ht, hderived⟩)
  . exact ofJsonText_toJsonText_of_not_finiteCosts hread

theorem json_read_back_hop :
    hop.ObtainedPlaced ∧ hop.Fits ∧
      let graph := hop.changeAll [.setDerived ⟨#[0.25], #[1]⟩, .setPathSlack 0 (-1)]
      (∀ x ∈ (Payload.ofGraph graph).doubles, x.isFinite = true → Json.ReadsBack x) ∧
        graph.FiniteCosts ∧ ofJsonText graph.toJsonText = .ok graph := by
  have hread : ∀ x ∈ (Payload.ofGraph (hop.changeAll [.setDerived ⟨#[0.25], #[1]⟩,
      .setPathSlack 0 (-1)])).doubles, x.isFinite = true → Json.ReadsBack x := by
    decide +kernel
  have hcosts : (hop.changeAll [.setDerived ⟨#[0.25], #[1]⟩,
      .setPathSlack 0 (-1)]).FiniteCosts := by
    have hderived : (hop.changeAll [.setDerived ⟨#[0.25], #[1]⟩, .setPathSlack 0 (-1)]).derived?
        = some ⟨#[0.25], #[1]⟩ := by
      decide +kernel
    intro derived h
    rw [hderived, Option.some.injEq] at h
    subst h
    decide +kernel
  exact ⟨obtainedPlaced_hop, fits_hop, hread, hcosts,
    (json_read_back obtainedPlaced_hop fits_hop _ hread).left hcosts⟩

theorem not_read_back_hop :
    hop.ObtainedPlaced ∧
      let graph := hop.changeAll [.setDerived ⟨#[.infinity], #[0]⟩]
      graph.derived? = some ⟨#[.infinity], #[0]⟩ ∧
        (∀ x ∈ (Payload.ofGraph graph).doubles, x.isFinite = true → Json.ReadsBack x) ∧
        ofJsonText graph.toJsonText = .error (.document .malformedJson) := by
  have hderived : (hop.changeAll [.setDerived ⟨#[.infinity], #[0]⟩]).derived?
      = some ⟨#[.infinity], #[0]⟩ := by
    decide +kernel
  have hread : ∀ x ∈ (Payload.ofGraph (hop.changeAll [.setDerived ⟨#[.infinity], #[0]⟩])).doubles,
      x.isFinite = true → Json.ReadsBack x := by
    decide +kernel
  refine ⟨obtainedPlaced_hop, hderived, hread,
    ofJsonText_toJsonText_of_not_finiteCosts hread ?_⟩
  intro hcosts
  have hinfinity : Double.infinity.isFinite = true := hcosts _ hderived _ (by decide)
  exact absurd hinfinity (by decide)

end Hypergraph

end CircuitPartition
