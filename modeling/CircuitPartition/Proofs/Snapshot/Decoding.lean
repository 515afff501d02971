import CircuitPartition.Proofs.Snapshot.Replay

/-!
When a payload is read, and what is read from it.
-/

namespace CircuitPartition

variable {α : Type}

namespace Snapshot

namespace TimingPayload

def indexed (vertices hyperedges : Nat) (stored : TimingPayload α) : Timing α where
  clockPeriod := stored.clockPeriod
  baseHyperedgeSlack := stored.baseHyperedgeSlack.toArray
  hyperedgeSlack := stored.hyperedgeSlack.toArray
  paths := stored.paths.toArray
  vertexPaths := IndexSet.invert (stored.paths.map (·.vertices)) vertices
  hyperedgePaths := IndexSet.invert (stored.paths.map (·.hyperedges)) hyperedges
  derived := stored.derived

def completed (hyperedges : Nat) (stored : TimingPayload α) : TimingPayload α :=
  -- Where the lists of slacks end, the clock period and then the slack to begin with go on.
  let base := overlay stored.baseHyperedgeSlack (List.replicate hyperedges stored.clockPeriod)
  { stored with
    baseHyperedgeSlack := base
    hyperedgeSlack := overlay stored.hyperedgeSlack base }

def initial (stored : TimingPayload α) : TimingPayload α :=
  { stored with
    hyperedgeSlack := stored.baseHyperedgeSlack
    paths := stored.paths.map (·.initial)
    derived := none }

variable [Scalar α]

structure Acceptable (vertices : Nat) (hyperedges : List (Hyperedge α))
    (stored : TimingPayload α) : Prop where
  clockPeriod_finite : Scalar.isFinite stored.clockPeriod = true
  clockPeriod_pos : 0 < stored.clockPeriod
  length_baseHyperedgeSlack : stored.baseHyperedgeSlack.length ≤ hyperedges.length
  baseHyperedgeSlack_finite : ∀ x ∈ stored.baseHyperedgeSlack, Scalar.isFinite x = true
  length_hyperedgeSlack : stored.hyperedgeSlack.length ≤ hyperedges.length
  hyperedgeSlack_finite : ∀ x ∈ stored.hyperedgeSlack, Scalar.isFinite x = true
  path : ∀ path ∈ stored.paths, path.vertices ≠ [] ∧ Scalar.isFinite path.baseSlack = true ∧
    (∀ v ∈ path.vertices, v < vertices) ∧ ∀ e ∈ path.hyperedges, path.Meets hyperedges.toArray e
  path_finite : ∀ path ∈ stored.paths, Scalar.isFinite path.slack = true
  derived : ∀ derived, stored.derived = some derived →
    derived.pathCosts.size = stored.paths.length ∧
      derived.hyperedgeWeights.size = hyperedges.length

end TimingPayload

namespace Payload

def indexed (payload : Payload α) : Hypergraph α where
  dimensions := payload.dimensions
  vertices := payload.vertices.toArray
  hyperedges := payload.hyperedges.toArray
  vertexHyperedges :=
    IndexSet.invert (payload.hyperedges.map (·.pins)) payload.vertices.length
  timing := payload.timing.map (·.indexed payload.vertices.length payload.hyperedges.length)

def canonical (payload : Payload α) : Payload α :=
  { payload with
    version := .current
    hyperedges := payload.hyperedges.map (·.canonical) }

def completed (payload : Payload α) : Payload α :=
  { payload.canonical with
    timing := payload.timing.map (·.completed payload.hyperedges.length) }

variable [Scalar α]

structure Framed (payload : Payload α) : Prop where
  vertex : ∀ v ∈ payload.vertices, payload.dimensions.vertex = v.weight.length ∧
    payload.dimensions.placement = v.location.length ∧
    (∀ x ∈ v.weight, Scalar.isFinite x = true) ∧ ∀ x ∈ v.location, Scalar.isFinite x = true
  hyperedge : ∀ h ∈ payload.hyperedges, h.pins ≠ [] ∧
    payload.dimensions.hyperedge = h.weight.length ∧
    (∀ x ∈ h.weight, Scalar.isFinite x = true) ∧ ∀ v ∈ h.pins, v < payload.vertices.length

structure Acceptable (payload : Payload α) : Prop extends payload.Framed where
  version : SchemaVersion.current.reads payload.version = true
  vertex_ne_zero : payload.dimensions.vertex ≠ 0
  hyperedge_ne_zero : payload.dimensions.hyperedge ≠ 0
  timing : ∀ stored, payload.timing = some stored →
    stored.Acceptable payload.vertices.length payload.hyperedges

end Payload

namespace TimingPayload

variable [Scalar α] {stored : TimingPayload α} {timing next : Timing α}

theorem restoreTiming_eq_ok (hpaths : timing.paths = (stored.paths.map TimingPath.initial).toArray)
    (hderived : timing.derived = none) :
    Payload.restoreTiming stored timing = .ok next
      ↔
    stored.hyperedgeSlack.length ≤ timing.hyperedgeSlack.size ∧
      (∀ x ∈ stored.hyperedgeSlack, Scalar.isFinite x = true) ∧
      (∀ path ∈ stored.paths, Scalar.isFinite path.slack = true) ∧
      (∀ derived, stored.derived = some derived →
        derived.pathCosts.size = stored.paths.length ∧
          derived.hyperedgeWeights.size = timing.hyperedgeSlack.size) ∧
      { timing with
        hyperedgeSlack := (overlay stored.hyperedgeSlack timing.hyperedgeSlack.toList).toArray
        paths := stored.paths.toArray
        derived := stored.derived } = next := by
  unfold Payload.restoreTiming
  rw [bind_eq_ok]
  constructor
  . rintro ⟨slacked, hslacked, h⟩
    obtain ⟨hlength, hfinite, rfl⟩ := restoreSlacks_eq_ok.mp hslacked
    obtain ⟨pathed, hpathed, h⟩ := bind_eq_ok.mp h
    obtain ⟨hpath, rfl⟩ := (restorePathSlacks_eq_ok (by exact hpaths)).mp hpathed
    refine ⟨hlength, hfinite, hpath, ?_⟩
    split at h
    . next derived hsome =>
      obtain ⟨hcosts, hweights, rfl⟩ := Timing.setDerived_eq_ok.mp h
      rw [hsome]
      simp_all [overlay]
    . next hnone =>
      rw [pure_eq_ok, Except.ok.injEq] at h
      simp [hnone, ← h, hderived]
  . rintro ⟨hlength, hfinite, hpath, hsizes, rfl⟩
    refine ⟨_, restoreSlacks_eq_ok.mpr ⟨hlength, hfinite, rfl⟩, ?_⟩
    refine bind_eq_ok.mpr ⟨_, (restorePathSlacks_eq_ok (by exact hpaths)).mpr ⟨hpath, rfl⟩, ?_⟩
    split
    . next derived hsome =>
      obtain ⟨hcosts, hweights⟩ := hsizes derived hsome
      rw [Timing.setDerived_eq_ok]
      simp_all [overlay]
    . next hnone => simp [hnone, hderived]

theorem restoreTiming_initial_eq_ok {vertices hyperedges : Nat}
    (hlength : stored.baseHyperedgeSlack.length ≤ hyperedges) :
    Payload.restoreTiming stored ((stored.completed hyperedges).initial.indexed vertices hyperedges)
        = .ok next
      ↔
    stored.hyperedgeSlack.length ≤ hyperedges ∧
      (∀ x ∈ stored.hyperedgeSlack, Scalar.isFinite x = true) ∧
      (∀ path ∈ stored.paths, Scalar.isFinite path.slack = true) ∧
      (∀ derived, stored.derived = some derived →
        derived.pathCosts.size = stored.paths.length ∧
          derived.hyperedgeWeights.size = hyperedges) ∧
      (stored.completed hyperedges).indexed vertices hyperedges = next := by
  have hsize : ((stored.completed hyperedges).initial.indexed vertices
      hyperedges).hyperedgeSlack.size = hyperedges := by
    simp [indexed, initial, completed, overlay]
    omega
  rw [restoreTiming_eq_ok (by rfl) (by rfl), hsize]
  simp [indexed, initial, completed, TimingPath.initial, Function.comp_def]

end TimingPayload

namespace Payload

variable [Scalar α] {payload : Payload α} {graph : Hypergraph α}

def start (payload : Payload α) (clockPeriod : Option α) : Builder α where
  dimensions := payload.dimensions
  clockPeriod
  vertices := #[]
  hyperedges := #[]
  hyperedgeSlack := #[]
  paths := #[]

def frame (payload : Payload α) (clockPeriod : Option α) : Builder α where
  dimensions := payload.dimensions
  clockPeriod
  vertices := payload.vertices.toArray
  hyperedges := (payload.hyperedges.map (·.canonical)).toArray
  hyperedgeSlack := Array.replicate payload.hyperedges.length none
  paths := #[]

theorem frame_bind_eq_ok {clockPeriod : Option α}
    {rest : Builder α → Except (GraphError α) (Hypergraph α)} :
    (do
      let b ← addVertices (payload.start clockPeriod) payload.vertices
      let b ← addHyperedges b payload.hyperedges
      rest b) = .ok graph
      ↔
    payload.Framed ∧ rest (payload.frame clockPeriod) = .ok graph := by
  have hframe (b' : Builder α) : addHyperedges (⟨payload.dimensions, clockPeriod,
        payload.vertices.toArray, #[], #[], #[]⟩ : Builder α) payload.hyperedges = .ok b'
      ↔ (∀ h ∈ payload.hyperedges, h.pins ≠ [] ∧
          payload.dimensions.hyperedge = h.weight.length ∧
          (∀ x ∈ h.weight, Scalar.isFinite x = true) ∧ ∀ v ∈ h.pins, v < payload.vertices.length)
        ∧ payload.frame clockPeriod = b' := by
    rw [addHyperedges_eq_ok]
    simp [frame]
  simp only [bind_eq_ok, addVertices_eq_ok, start, Array.empty_append]
  constructor
  . rintro ⟨_, ⟨hvertex, rfl⟩, b', hb', hrest⟩
    obtain ⟨hhyperedge, rfl⟩ := (hframe b').mp hb'
    exact ⟨⟨hvertex, hhyperedge⟩, hrest⟩
  . rintro ⟨⟨hvertex, hhyperedge⟩, hrest⟩
    exact ⟨_, ⟨hvertex, rfl⟩, _, (hframe _).mpr ⟨hhyperedge, rfl⟩, hrest⟩

theorem build_frame_eq_ok (ht : payload.timing = none) :
    (payload.frame none).build = .ok graph
      ↔
    payload.dimensions.vertex ≠ 0 ∧ payload.dimensions.hyperedge ≠ 0 ∧
      payload.completed.indexed = graph := by
  have hannotations : (payload.frame none).hasAnnotations = false := by
    unfold Builder.hasAnnotations
    rw [Bool.or_eq_false_iff, Array.any_eq_false']
    simp [frame]
  have htiming : (payload.frame none).timing? = .ok none := by
    unfold Builder.timing?
    rw [hannotations]
    rfl
  rw [Builder.build_eq_ok, htiming]
  simp [frame, indexed, completed, canonical, ht]

omit [Scalar α] in
theorem meets_canonical {path : TimingPath α} {hyperedges : List (Hyperedge α)} {e : Nat} :
    path.Meets (hyperedges.map (·.canonical)).toArray e ↔ path.Meets hyperedges.toArray e := by
  unfold TimingPath.Meets
  simp only [List.getElem?_toArray, List.getElem?_map, Option.map_eq_some_iff]
  constructor
  . rintro ⟨_, ⟨h, hget, rfl⟩, v, hv, hmem⟩
    exact ⟨h, hget, v, hv, IndexSet.mem_ofList.mp hmem⟩
  . rintro ⟨h, hget, v, hv, hmem⟩
    exact ⟨h.canonical, ⟨h, hget, rfl⟩, v, hv, IndexSet.mem_ofList.mpr hmem⟩

def timedFrame (payload : Payload α) (stored : TimingPayload α) : Builder α :=
  { payload.frame (some stored.clockPeriod) with
    hyperedgeSlack := (overlay (stored.baseHyperedgeSlack.map some)
      (List.replicate payload.hyperedges.length none)).toArray
    paths := (stored.paths.map (·.initial)).toArray }

theorem timedFrame_bind_eq_ok {stored : TimingPayload α}
    {rest : Builder α → Except (GraphError α) (Hypergraph α)} :
    (do
      let b ← addSlacks (payload.frame (some stored.clockPeriod)) stored.baseHyperedgeSlack
      let b ← addPaths b stored.paths
      rest b) = .ok graph
      ↔
    stored.baseHyperedgeSlack.length ≤ payload.hyperedges.length ∧
      (∀ x ∈ stored.baseHyperedgeSlack, Scalar.isFinite x = true) ∧
      (∀ path ∈ stored.paths, path.vertices ≠ [] ∧ Scalar.isFinite path.baseSlack = true ∧
        (∀ v ∈ path.vertices, v < payload.vertices.length) ∧
        ∀ e ∈ path.hyperedges, path.Meets payload.hyperedges.toArray e) ∧
      rest (payload.timedFrame stored) = .ok graph := by
  have hslacks (b : Builder α) : addSlacks (payload.frame (some stored.clockPeriod))
        stored.baseHyperedgeSlack = .ok b
      ↔ stored.baseHyperedgeSlack.length ≤ payload.hyperedges.length ∧
        (∀ x ∈ stored.baseHyperedgeSlack, Scalar.isFinite x = true) ∧
        { payload.timedFrame stored with paths := #[] } = b := by
    rw [addSlacks_eq_ok (by simp [frame])]
    simp [frame, timedFrame]
  have hpaths (b : Builder α) : addPaths { payload.timedFrame stored with paths := #[] }
        stored.paths = .ok b
      ↔ (∀ path ∈ stored.paths, path.vertices ≠ [] ∧ Scalar.isFinite path.baseSlack = true ∧
          (∀ v ∈ path.vertices, v < payload.vertices.length) ∧
          ∀ e ∈ path.hyperedges, path.Meets payload.hyperedges.toArray e) ∧
        payload.timedFrame stored = b := by
    rw [addPaths_eq_ok]
    simp [frame, timedFrame, meets_canonical]
  simp only [bind_eq_ok, hslacks]
  constructor
  . rintro ⟨_, ⟨hlength, hfinite, rfl⟩, b, hb, hrest⟩
    obtain ⟨hpath, rfl⟩ := (hpaths b).mp hb
    exact ⟨hlength, hfinite, hpath, hrest⟩
  . rintro ⟨hlength, hfinite, hpath, hrest⟩
    exact ⟨_, ⟨hlength, hfinite, rfl⟩, _, (hpaths _).mpr ⟨hpath, rfl⟩, hrest⟩

theorem build_timedFrame_eq_ok {stored : TimingPayload α} :
    (payload.timedFrame stored).build = .ok graph
      ↔
    payload.dimensions.vertex ≠ 0 ∧ payload.dimensions.hyperedge ≠ 0 ∧
      Scalar.isFinite stored.clockPeriod = true ∧ 0 < stored.clockPeriod ∧
      { payload.canonical with
        timing := some (stored.completed payload.hyperedges.length).initial }.indexed = graph := by
  have htiming (timing : Option (Timing α)) : (payload.timedFrame stored).timing? = .ok timing
      ↔ Scalar.isFinite stored.clockPeriod = true ∧ 0 < stored.clockPeriod ∧
        some ((payload.timedFrame stored).timing stored.clockPeriod) = timing := by
    unfold Builder.timing?
    simp only [timedFrame, frame]
    split
    . next hperiod => simp [hperiod]
    . next hperiod =>
      simp only [reduceCtorEq, false_iff]
      tauto
  rw [Builder.build_eq_ok]
  simp only [htiming]
  simp [frame, timedFrame, Builder.timing, indexed, canonical, TimingPayload.indexed,
    TimingPayload.initial, TimingPayload.completed, map_overlay, and_assoc]

theorem build_eq_ok_of_none (ht : payload.timing = none) :
    payload.build = .ok graph
      ↔
    payload.Framed ∧ payload.dimensions.vertex ≠ 0 ∧ payload.dimensions.hyperedge ≠ 0 ∧
      payload.completed.indexed = graph := by
  unfold build
  rw [ht]
  exact frame_bind_eq_ok.trans (and_congr_right fun _ => build_frame_eq_ok ht)

theorem build_eq_ok_of_some {stored : TimingPayload α} (ht : payload.timing = some stored) :
    payload.build = .ok graph
      ↔
    payload.Framed ∧ stored.baseHyperedgeSlack.length ≤ payload.hyperedges.length ∧
      (∀ x ∈ stored.baseHyperedgeSlack, Scalar.isFinite x = true) ∧
      (∀ path ∈ stored.paths, path.vertices ≠ [] ∧ Scalar.isFinite path.baseSlack = true ∧
        (∀ v ∈ path.vertices, v < payload.vertices.length) ∧
        ∀ e ∈ path.hyperedges, path.Meets payload.hyperedges.toArray e) ∧
      payload.dimensions.vertex ≠ 0 ∧ payload.dimensions.hyperedge ≠ 0 ∧
      Scalar.isFinite stored.clockPeriod = true ∧ 0 < stored.clockPeriod ∧
      { payload.canonical with
        timing := some (stored.completed payload.hyperedges.length).initial }.indexed = graph := by
  unfold build
  rw [ht]
  refine frame_bind_eq_ok.trans (and_congr_right fun _ => ?_)
  refine timedFrame_bind_eq_ok.trans ?_
  rw [build_timedFrame_eq_ok]

theorem toGraph_eq_ok :
    payload.toGraph = .ok graph ↔ payload.Acceptable ∧ payload.completed.indexed = graph := by
  unfold toGraph
  simp only [throw_eq_error, error_bind]
  split
  . next hversion =>
    simp only [reduceCtorEq, false_iff]
    rintro ⟨haccepted, _⟩
    simp [haccepted.version] at hversion
  . next hversion =>
    simp only [bind_eq_ok, Failure.liftM_graph_eq_ok]
    cases ht : payload.timing with
    | none =>
      simp only [build_eq_ok_of_none ht, pure_eq_ok, Except.ok.injEq]
      constructor
      . rintro ⟨_, ⟨hframed, hvertex, hhyperedge, rfl⟩, rfl⟩
        refine ⟨⟨hframed, by simpa using hversion, hvertex, hhyperedge, ?_⟩, rfl⟩
        simp [ht]
      . rintro ⟨haccepted, rfl⟩
        exact ⟨_, ⟨haccepted.toFramed, haccepted.vertex_ne_zero, haccepted.hyperedge_ne_zero, rfl⟩,
          rfl⟩
    | some stored =>
      simp only [build_eq_ok_of_some ht]
      have hcount : payload.canonical.hyperedges.length = payload.hyperedges.length :=
        List.length_map _
      have hcompleted (timing : Timing α) :
          (stored.completed payload.hyperedges.length).indexed payload.vertices.length
            payload.hyperedges.length = timing →
          payload.completed.indexed
            = { payload.canonical.indexed with timing := some timing } := by
        rintro rfl
        simp [indexed, completed, canonical, ht]
      constructor
      . rintro ⟨_, ⟨hframed, hlength, hbase, hpath, hvertex, hhyperedge, hfinite, hpos, rfl⟩, h⟩
        simp only [indexed, Option.map_some, bind_eq_ok, Failure.liftM_graph_eq_ok, pure_eq_ok,
          Except.ok.injEq] at h
        obtain ⟨timing, hrestored, rfl⟩ := h
        rw [hcount] at hrestored
        obtain ⟨hslack, hslacks, hpaths, hderived, htiming⟩ :=
          (TimingPayload.restoreTiming_initial_eq_ok hlength).mp hrestored
        refine ⟨⟨hframed, by simpa using hversion, hvertex, hhyperedge, ?_⟩, hcompleted _ htiming⟩
        intro other hother
        rw [ht, Option.some.injEq] at hother
        subst hother
        exact ⟨hfinite, hpos, hlength, hbase, hslack, hslacks, hpath, hpaths, hderived⟩
      . rintro ⟨haccepted, rfl⟩
        obtain ⟨hfinite, hpos, hlength, hbase, hslack, hslacks, hpath, hpaths, hderived⟩ :=
          haccepted.timing stored ht
        refine ⟨_, ⟨haccepted.toFramed, hlength, hbase, hpath, haccepted.vertex_ne_zero,
          haccepted.hyperedge_ne_zero, hfinite, hpos, rfl⟩, ?_⟩
        simp only [indexed, Option.map_some, bind_eq_ok, Failure.liftM_graph_eq_ok, pure_eq_ok,
          Except.ok.injEq]
        refine ⟨_, ?_, (hcompleted _ rfl).symm⟩
        rw [hcount]
        exact (TimingPayload.restoreTiming_initial_eq_ok hlength).mpr
          ⟨hslack, hslacks, hpaths, hderived, rfl⟩

end Payload

end Snapshot

end CircuitPartition
