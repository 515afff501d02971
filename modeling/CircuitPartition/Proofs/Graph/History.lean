import CircuitPartition.Proofs.Cost.Slack
import CircuitPartition.Proofs.Graph.Changes
import CircuitPartition.Proofs.Snapshot.Replay

/-!
What changes of slacks and derived costs remember of those before them. The original slacks stay in
place, the charges of an update start from them, and the costs are derived from the slacks as they
are: after an update that succeeds it makes no difference what the current slacks were.
-/

namespace CircuitPartition

variable {α : Type}

def Timing.initial (timing : Timing α) : Timing α :=
  { timing with
    hyperedgeSlack := timing.baseHyperedgeSlack
    paths := timing.paths.map (·.initial)
    derived := none }

namespace Hypergraph

def initial (graph : Hypergraph α) : Hypergraph α :=
  { graph with timing := graph.timing.map (·.initial) }

def slacks? (graph : Hypergraph α) : Option (Slacks α) :=
  graph.timing.map (·.slacks)

end Hypergraph

theorem TimingPath.eq_of_initial_eq {path other : TimingPath α} (h : path.initial = other.initial)
    (hslack : path.slack = other.slack) : path = other := by
  cases path
  cases other
  simp_all [TimingPath.initial]

theorem Timing.eq_of_initial_eq {timing other : Timing α} (h : timing.initial = other.initial)
    (hslacks : timing.slacks = other.slacks) :
    { timing with derived := none } = { other with derived := none } := by
  have hpaths : timing.paths = other.paths := by
    apply Array.ext_getElem?
    intro p
    have hp := congrArg (·.paths[p]?) h
    have hslack := congrArg (·.path[p]?) hslacks
    simp only [Timing.initial, Timing.slacks, Array.getElem?_map, List.getElem?_map,
      Array.getElem?_toList] at hp hslack
    cases ht : timing.paths[p]? with
    | none => simpa [ht, eq_comm] using hp
    | some path =>
      rw [ht, Option.map_some, eq_comm, Option.map_eq_some_iff] at hp hslack
      obtain ⟨path', hpath', hinitial⟩ := hp
      obtain ⟨_, hsame, hslack⟩ := hslack
      rw [hpath', Option.some.injEq] at hsame
      subst hsame
      rw [hpath', TimingPath.eq_of_initial_eq hinitial hslack]
  cases timing
  cases other
  simp_all [Timing.initial, Timing.slacks]

theorem Timing.Step.initial_eq [Scalar α] {timing next : Timing α} (h : timing.Step next) :
    next.initial = timing.initial := by
  cases h with
  | setPathSlack p slack hset =>
    obtain ⟨_, _, rfl⟩ := setPathSlack_eq_ok.mp hset
    have hpaths : (timing.paths.modify p ({ · with slack })).map (·.initial)
        = timing.paths.map (·.initial) := by
      rw [← Array.toList_inj, Array.toList_map, Array.toList_map]
      exact map_modify_slack timing.paths (·.initial) (fun _ => rfl) p
    unfold Timing.initial
    rw [hpaths]
  | setHyperedgeSlack e slack hset =>
    obtain ⟨_, _, rfl⟩ := setHyperedgeSlack_eq_ok.mp hset
    rfl
  | setDerived derived hset =>
    obtain ⟨_, _, rfl⟩ := setDerived_eq_ok.mp hset
    rfl

namespace Hypergraph

theorem initial_changeAll [Scalar α] (graph : Hypergraph α) (changes : List (Change α)) :
    (graph.changeAll changes).initial = graph.initial := by
  apply changeAll_induction (P := fun other => other.initial = graph.initial) _ rfl
  intro other timing next hother ht hstep
  rw [← hother]
  unfold initial
  rw [ht, Option.map_some, Option.map_some, hstep.initial_eq]

end Hypergraph

section Overwriting

variable {β : Type} {write : β → α → β}

theorem fill_congr {slots others : Array β} (hsize : slots.size = others.size)
    (h : ∀ (i : Nat) slot other, slots[i]? = some slot → others[i]? = some other →
      write slot = write other)
    {values : List α} (hvalues : values.length = slots.size) :
    fill write slots values = fill write others values := by
  apply Array.ext_getElem?
  intro i
  rw [getElem?_fill, getElem?_fill]
  cases Nat.lt_or_ge i slots.size with
  | inl hi =>
    have hwrite := h i slots[i] others[i] (by simp [hi]) (by simp [hsize ▸ hi])
    simp [hi, hsize ▸ hi, hvalues, hwrite]
  | inr hi => simp [hi, hsize ▸ hi]

end Overwriting

namespace Timing.WellFormed

variable {vertices hyperedges : Nat} {timing : Timing α} (ht : timing.WellFormed vertices hyperedges)

include ht

theorem initial_withSlacks {slacks : Slacks α} (hpath : slacks.path.length = timing.paths.size)
    (hhyperedge : slacks.hyperedge.length = timing.hyperedgeSlack.size) :
    timing.initial.withSlacks slacks = { timing.withSlacks slacks with derived := none } := by
  have hpaths : fill (fun path slack => { path with slack }) timing.initial.paths slacks.path
      = fill (fun path slack => { path with slack }) timing.paths slacks.path := by
    apply fill_congr
    . simp [Timing.initial]
    . intro p path other hpath hother
      simp only [Timing.initial, Array.getElem?_map, hother, Option.map_some,
        Option.some.injEq] at hpath
      subst hpath
      rfl
    . simpa [Timing.initial] using hpath
  have hhyperedges : fill (fun _ slack => slack) timing.baseHyperedgeSlack slacks.hyperedge
      = fill (fun _ slack => slack) timing.hyperedgeSlack slacks.hyperedge := by
    have hsize := ht.hyperedgeSlack_size.trans ht.baseHyperedgeSlack_size.symm
    apply fill_congr hsize.symm
    . intros
      rfl
    . rw [hhyperedge, hsize]
  unfold withSlacks withHyperedgeSlacks withPathSlacks
  rw [hpaths]
  dsimp only [Timing.initial]
  rw [hhyperedges]

theorem initial : timing.initial.WellFormed vertices hyperedges := by
  have hmap {β : Type} (f : TimingPath α → β) (hf : ∀ path, f path.initial = f path) :
      timing.initial.paths.toList.map f = timing.paths.toList.map f := by
    simp [Timing.initial, hf]
  constructor
  . exact ht.baseHyperedgeSlack_size
  . exact ht.baseHyperedgeSlack_size
  . intro path hpath
    obtain ⟨other, hother, rfl⟩ := Array.mem_map.mp hpath
    exact ht.path_vertices other hother
  . intro path hpath
    obtain ⟨other, hother, rfl⟩ := Array.mem_map.mp hpath
    exact ht.path_hyperedges other hother
  . rw [hmap _ fun _ => rfl]
    exact ht.vertexPaths_eq
  . rw [hmap _ fun _ => rfl]
    exact ht.hyperedgePaths_eq
  . intro derived hderived
    simp [Timing.initial] at hderived

end Timing.WellFormed

theorem Hypergraph.WellFormed.initial {graph : Hypergraph α} (hg : graph.WellFormed) :
    graph.initial.WellFormed := by
  obtain ⟨h1, h2, h3, h4, h5, h6⟩ := hg
  refine ⟨h1, h2, h3, h4, h5, ?_⟩
  intro timing ht
  obtain ⟨other, hother, rfl⟩ := Option.map_eq_some_iff.mp ht
  exact (h6 other hother).initial

namespace CostModel

variable (model : CostModel α) {graph : Hypergraph α} {solution : Solution}

theorem admits_initial : model.Admits graph.initial solution ↔ model.Admits graph solution :=
  ⟨fun h => ⟨h.compatible, h.size_eq, h.lt⟩, fun h => ⟨h.compatible, h.size_eq, h.lt⟩⟩

variable [Scalar α]

variable (graph solution) in
theorem chargedSlacks_initial (timing : Timing α) :
    model.chargedSlacks graph.initial solution timing.initial
      =
    model.chargedSlacks graph solution timing := by
  have hpaths : timing.initial.paths.toList.map (model.chargedPath graph.initial solution)
      = timing.paths.toList.map (model.chargedPath graph solution) := by
    simp only [Timing.initial, Array.toList_map, List.map_map]
    rfl
  unfold chargedSlacks
  rw [hpaths]
  rfl

theorem updateTiming_initial (solution : Solution) (hg : graph.WellFormed) :
    (model.updateTiming graph.initial solution).outcome
        = (model.updateTiming graph solution).outcome ∧
      ((model.updateTiming graph solution).outcome = .ok () →
        model.updateTiming graph.initial solution = model.updateTiming graph solution) := by
  cases hcheck : model.checkSolution graph solution with
  | error failure =>
    have hinitial : model.checkSolution graph.initial solution = .error failure := hcheck
    unfold updateTiming
    rw [hcheck, hinitial]
    simp
  | ok _ =>
    rw [checkSolution_eq_ok] at hcheck
    cases ht : graph.timing with
    | none =>
      have hinitial : graph.initial = graph := by
        unfold Hypergraph.initial
        rw [ht, Option.map_none, ← ht]
      rw [hinitial]
      simp
    | some timing =>
      have hinitial : graph.initial.timing = some timing.initial := by
        simp [Hypergraph.initial, ht]
      have hwritten := (hg.timing timing ht).initial_withSlacks
        (model.length_chargedSlacks_path graph solution timing)
        (model.length_chargedSlacks_hyperedge hg ht solution)
      rw [model.updateTiming_of_admits hg ht hcheck,
        model.updateTiming_of_admits hg.initial hinitial (model.admits_initial.mpr hcheck),
        chargedSlacks_initial]
      dsimp only
      rw [hwritten]
      split
      . split
        . exact ⟨rfl, fun _ => rfl⟩
        . exact ⟨rfl, nofun⟩
      . exact ⟨rfl, nofun⟩

theorem priced_congr {other : Hypergraph α} (hinitial : other.initial = graph.initial)
    (hslacks : other.slacks? = graph.slacks?) : model.priced other = model.priced graph := by
  have htiming : other.timing.map (fun timing => { timing with derived := none })
      = graph.timing.map (fun timing => { timing with derived := none }) := by
    have hinitials := congrArg (·.timing) hinitial
    unfold Hypergraph.initial at hinitials
    unfold Hypergraph.slacks? at hslacks
    cases ht : other.timing with
    | none => simpa [ht, eq_comm] using hslacks
    | some timing =>
      simp only [ht, Option.map_some] at hinitials hslacks
      obtain ⟨timing', ht', hsame⟩ := Option.map_eq_some_iff.mp hinitials.symm
      rw [ht', Option.map_some, Option.some.injEq] at hslacks
      rw [ht', Option.map_some, Option.map_some, Timing.eq_of_initial_eq hsame.symm hslacks]
  have hpriced (graph : Hypergraph α) : model.priced graph
      = model.priced { graph.initial with
        timing := graph.timing.map fun timing => { timing with derived := none } } := by
    unfold priced
    cases graph.timing with
    | none => rfl
    | some timing => rfl
  rw [hpriced, hinitial, htiming, ← hpriced]

variable (graph) in
theorem initial_priced : (model.priced graph).initial = graph.initial := by
  unfold priced Hypergraph.initial
  cases graph.timing with
  | none => rfl
  | some timing => rfl

variable (graph) in
theorem priced_priced : model.priced (model.priced graph) = model.priced graph := by
  unfold priced
  cases graph.timing with
  | none => rfl
  | some timing => rfl

end CostModel

namespace Hypergraph

variable [Scalar α] {graph other : Hypergraph α}

theorem Reachable.initializeTiming_eq (h : graph.Reachable) (model : CostModel α) :
    model.initializeTiming graph = .ok (model.priced graph) ∧
      model.initializeTiming (model.priced graph) = .ok (model.priced graph) := by
  have hpriced := model.initializeTiming_eq h.wellFormed
  have hagain := model.initializeTiming_eq (h.initializeTiming model hpriced).wellFormed
  rw [model.priced_priced] at hagain
  exact ⟨hpriced, hagain⟩

theorem Reachable.updateTiming_congr (h : graph.Reachable) (hother : other.Reachable)
    (hinitial : other.initial = graph.initial) {model : CostModel α} {solution : Solution}
    (hok : (model.updateTiming graph solution).outcome = .ok ()) :
    model.updateTiming other solution = model.updateTiming graph solution := by
  obtain ⟨houtcome, heq⟩ := model.updateTiming_initial solution h.wellFormed
  obtain ⟨houtcome', heq'⟩ := model.updateTiming_initial solution hother.wellFormed
  rw [hinitial] at houtcome' heq'
  rw [← heq hok, heq']
  rw [← houtcome', houtcome, hok]

/--
Updates do not accumulate what happened before: one that succeeds leaves the same in all hypergraphs
that started out as the same, also after other updates. Deriving the costs always succeeds, looks at
no costs from before, and changes nothing the second time. Neither touches anything else.
-/
theorem timing_memoryless {graph : Hypergraph Double} (h : graph.Obtained)
    (changes : List (Change Double)) :
    let current := graph.changeAll changes
    (∀ (first second : CostModel Double) (s t : Solution),
      let updated := (first.updateTiming current s).graph
      (second.updateTiming updated t).outcome = .ok () →
        second.updateTiming updated t = second.updateTiming current t) ∧
    (∀ origin : Hypergraph Double, origin.Obtained → ∀ changes',
      let other := origin.changeAll changes'
      other.initial = current.initial →
        (∀ (model : CostModel Double) s, (model.updateTiming current s).outcome = .ok () →
          model.updateTiming other s = model.updateTiming current s) ∧
        (other.slacks? = current.slacks? → ∀ model : CostModel Double,
          model.initializeTiming other = model.initializeTiming current)) ∧
    (∀ model : CostModel Double,
      model.initializeTiming current = .ok (model.priced current) ∧
      model.initializeTiming (model.priced current) = .ok (model.priced current) ∧
      (model.priced current).initial = current.initial ∧
      ∀ s, (model.updateTiming current s).graph.initial = current.initial) ∧
    ∀ changes', (current.changeAll changes').initial = current.initial := by
  intro current
  have hcurrent : current.Reachable := h.reachable.changeAll changes
  refine ⟨?_, ?_, ?_, initial_changeAll current⟩
  . intro first second s t updated hok
    have hupdated : updated.Reachable := hcurrent.updateTiming first s
    have hinitial : updated.initial = current.initial :=
      initial_changeAll current [.updateTiming first s]
    exact (hupdated.updateTiming_congr hcurrent hinitial.symm hok).symm
  . intro origin horigin changes' other hinitial
    have hother : other.Reachable := horigin.reachable.changeAll changes'
    constructor
    . intro model s hok
      exact hcurrent.updateTiming_congr hother hinitial hok
    . intro hslacks model
      rw [(hother.initializeTiming_eq model).left, (hcurrent.initializeTiming_eq model).left,
        model.priced_congr hinitial hslacks]
  . intro model
    obtain ⟨hpriced, hagain⟩ := hcurrent.initializeTiming_eq model
    refine ⟨hpriced, hagain, model.initial_priced current, ?_⟩
    intro s
    exact initial_changeAll current [.updateTiming model s]

theorem timing_memoryless_thereAndBack :
    thereAndBack.Obtained ∧
      let model := CostModel.standard
      let updated := (model.updateTiming thereAndBack #[0, 1]).graph
      updated ≠ thereAndBack ∧
        (model.updateTiming updated #[0, 0]).outcome = .ok () ∧
        model.updateTiming updated #[0, 0] = model.updateTiming thereAndBack #[0, 0] := by
  have hok : (CostModel.standard.updateTiming
      (CostModel.standard.updateTiming thereAndBack #[0, 1]).graph #[0, 0]).outcome = .ok () := by
    decide +kernel
  have hchanged : (CostModel.standard.updateTiming thereAndBack #[0, 1]).graph ≠ thereAndBack := by
    decide +kernel
  exact ⟨obtained_thereAndBack, hchanged, hok,
    (timing_memoryless obtained_thereAndBack []).left .standard .standard #[0, 1] #[0, 0] hok⟩

end Hypergraph

end CircuitPartition
