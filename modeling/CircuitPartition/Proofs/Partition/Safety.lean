import CircuitPartition.Proofs.Cost.Safety
import CircuitPartition.Proofs.Partition.Consistency

/-!
Which faults moving vertices can run into. In a state of the right shape no index is out of range;
a pin can be missing only from degrees that are not those of the solution.
-/

namespace CircuitPartition

section Confined

variable {α β γ : Type} {possible : Fault → Prop}

def Confined (possible : Fault → Prop) (x : Except Fault β) : Prop :=
  ∀ fault, x = .error fault → possible fault

namespace Confined

theorem ok (b : β) : Confined possible (.ok b) :=
  nofun

theorem bind {x : Except Fault β} {f : β → Except Fault γ} (hx : Confined possible x)
    (hf : ∀ b, x = .ok b → Confined possible (f b)) : Confined possible (x >>= f) := by
  cases x with
  | error fault =>
    intro other h
    rw [error_bind, Except.error.injEq] at h
    exact hx other (congrArg _ h)
  | ok b => exact hf b rfl

theorem foldlM {f : β → α → Except Fault β} {P : β → Prop} {as : List α}
    (hstep : ∀ b, ∀ a ∈ as, P b → Confined possible (f b a))
    (hkeep : ∀ b, ∀ a ∈ as, ∀ next, P b → f b a = .ok next → P next) {b : β} (hb : P b) :
    Confined possible (as.foldlM f b) := by
  induction as generalizing b with
  | nil => exact ok b
  | cons a as ih =>
    rw [List.foldlM_cons]
    apply bind (hstep b a List.mem_cons_self hb)
    intro next hnext
    apply ih _ _ (hkeep b a List.mem_cons_self next hb hnext)
    . intro b a ha
      exact hstep b a (List.mem_cons_of_mem _ ha)
    . intro b a ha
      exact hkeep b a (List.mem_cons_of_mem _ ha)

theorem safe {fits : Prop} {x : Except Fault β} (h : Confined possible x) (hfits : fits) :
    Safe fits possible (liftM x : Except (Failure α) β) := by
  cases x with
  | ok b => exact .ok hfits b
  | error fault =>
    refine ⟨fun hnot => absurd hfits hnot, ?_⟩
    intro other hother
    rw [← Failure.fault.inj (Except.error.inj hother)]
    exact h fault rfl

end Confined

end Confined

namespace Counting

variable (counting : Counting)

theorem confined_enter {degrees : Degrees} {block : Nat} (h : block < degrees.size) :
    Confined counting.Raises (counting.enter degrees block) := by
  unfold enter
  rw [Array.getElem?_eq_getElem h, Fault.liftM_some, ok_bind]
  apply Confined.bind
  . intro fault
    exact raises_of_next
  . intro n _
    apply Confined.ok

theorem confined_leave {degrees : Degrees} {block : Nat} (h : block < degrees.size) :
    Confined counting.Raises (counting.leave degrees block) := by
  unfold leave
  rw [Array.getElem?_eq_getElem h, Fault.liftM_some, ok_bind]
  apply Confined.bind
  . intro fault
    exact raises_of_previous
  . intro n _
    apply Confined.ok

theorem confined_movePin {source target e columns : Nat} {table : Array Degrees}
    (he : e < table.size) (hcolumns : ∀ degrees ∈ table, degrees.size = columns)
    (hs : source < columns) (ht : target < columns) :
    Confined counting.Raises (counting.movePin source target table e) := by
  have hsize := hcolumns table[e] (Array.getElem_mem he)
  unfold movePin
  rw [Array.getElem?_eq_getElem he, Fault.liftM_some, ok_bind]
  apply Confined.bind
  . apply confined_leave
    omega
  . intro left hleft
    apply Confined.bind
    . apply confined_enter
      have := size_of_leave hleft
      omega
    . intro entered _
      apply Confined.ok

def Risks (secure : Prop) (fault : Fault) : Prop :=
  counting.Raises fault ∧ ¬secure

end Counting

def Contained {β : Type} (exact : Prop) (x : Except Fault β) : Prop :=
  ∀ fault, x = .error fault → fault = .noPinLeft ∧ ¬exact

theorem Confined.contained {β : Type} {exact : Prop} {x : Except Fault β}
    (h : Confined (Counting.unbounded.Risks exact) x) : Contained exact x := by
  intro fault hfault
  obtain ⟨hraises, hexact⟩ := h fault hfault
  cases hraises with
  | inl hmissing => exact ⟨hmissing.left, hexact⟩
  | inr htoo => simp at htoo

namespace PartitionState

variable {α : Type} [Scalar α] {model : CostModel α} {graph : Hypergraph α}
  {state : PartitionState α} {v target : Nat}

structure Secured (counting : Counting) (model : CostModel α) (graph : Hypergraph α)
    (secure : Prop) (state : PartitionState α) : Prop where
  shaped : state.Shaped model graph
  counted : secure → state.Counted model graph
  covers : secure → counting.Covers graph.numVertices

namespace Secured

variable {counting : Counting} {secure : Prop} (h : state.Secured counting model graph secure)
  (hg : graph.WellFormed)

include h hg

theorem move {next : PartitionState α} (hmove : counting.move graph state v target = .ok next) :
    next.Secured counting model graph secure :=
  ⟨h.shaped.move hmove, fun hsecure => (h.counted hsecure).move hg (h.covers hsecure) hmove,
    h.covers⟩

omit [Scalar α] in
theorem confined_movePins (hv : v < graph.numVertices) (ht : target < model.numParts) :
    Confined (counting.Risks secure) ((graph.incident v).foldlM
      (counting.movePin (state.solution.blockOf v) target) state.netDegrees) := by
  intro fault hfault
  constructor
  . refine Confined.foldlM (P := fun table => table.size = graph.numHyperedges ∧
      ∀ degrees ∈ table, degrees.size = model.numParts) ?_ ?_
      ⟨h.shaped.size_netDegrees, h.shaped.size_degrees⟩ fault hfault
    . intro table e he htable
      rw [hg.mem_incident hv] at he
      refine counting.confined_movePin ?_ htable.right (h.shaped.admits.blockOf_lt hv) ht
      rw [htable.left]
      exact Hypergraph.lt_of_mem_pins he
    . intro table e _ next htable hpin
      obtain ⟨hsize, hcolumns⟩ := Counting.size_of_movePin hpin htable.right
      exact ⟨hsize.trans htable.left, hcolumns⟩
  . intro hsecure
    rw [(h.counted hsecure).netDegrees_eq,
      foldlM_movePin_incident hg h.shaped.admits (h.covers hsecure) ht hv] at hfault
    simp at hfault

theorem confined_move (hv : v < graph.numVertices) (ht : target < model.numParts) :
    Confined (counting.Risks secure) (counting.move graph state v target) := by
  obtain ⟨x, _, hx, hweight⟩ := Hypergraph.vertex?_of_lt hv
  have hlength := hg.length_weight hv
  have hsource := h.shaped.admits.blockOf_lt hv
  have hleft := h.shaped.hasShape.modify (state.solution.blockOf v) (f := (takeOff · (graph.weight v)))
    (by simp)
  unfold Counting.move
  rw [h.shaped.admits.getElem?_of_lt hv, Fault.liftM_some, ok_bind]
  split
  . apply Confined.ok
  . rw [hx, hg.vertexHyperedges?_of_lt hv]
    simp only [Fault.liftM_some, ok_bind]
    apply (h.confined_movePins hg hv ht).bind
    intro netDegrees _
    rw [← hweight, h.shaped.hasShape.leave? hsource hlength, Fault.liftM_some, ok_bind,
      hleft.enter? ht hlength, Fault.liftM_some, ok_bind]
    apply Confined.ok

end Secured

theorem Shaped.refresh?_of_lt (h : state.Shaped model graph) (hg : graph.WellFormed)
    {paths : List Nat} (hpaths : ∀ p ∈ paths, p < graph.numPaths) :
    ∃ next, state.refresh? model graph paths = some next := by
  have hfold : ∀ costs : Array α, costs.size = graph.numPaths →
      ∃ final, paths.foldlM (refresh?.refreshPath model graph state) costs = some final := by
    induction paths with
    | nil => exact fun costs _ => ⟨costs, rfl⟩
    | cons p paths ih =>
      intro costs hsize
      rw [List.forall_mem_cons] at hpaths
      rw [List.foldlM_cons, refreshPath_of_lt hg h.admits hsize hpaths.left, some_bind]
      apply ih hpaths.right
      simpa using hsize
  obtain ⟨final, hfinal⟩ := hfold state.pathCosts h.size_pathCosts
  unfold PartitionState.refresh?
  rw [hfinal]
  exact ⟨_, rfl⟩

theorem guarded_ofSolution (model : CostModel α) (hg : graph.WellFormed) (solution : Solution) :
    model.Guarded graph solution (ofSolution model graph solution) where
  refused failure h := by
    unfold ofSolution
    rw [(model.guarded_blockBalance solution hg).refused failure h, error_bind]
  answered h := ⟨_, ofSolution_of_admits hg h⟩

variable (model graph state)

omit [Scalar α] in
theorem safe_checkShape (possible : Fault → Prop) :
    Safe (model.Admits graph state.solution) possible (state.checkShape model graph) := by
  unfold checkShape
  apply (model.safe_checkSolution graph state.solution possible).bind
  intro _ hcheck
  simp only [throw_eq_error, error_bind]
  split
  . exact .refusal nofun
  . split
    . exact .refusal nofun
    . split
      . exact .refusal nofun
      . exact .ok (CostModel.checkSolution_eq_ok.mp hcheck) ()

theorem safe_checkConsistency (hg : graph.WellFormed) (possible : Fault → Prop) :
    Safe (model.Admits graph state.solution) possible (state.checkConsistency model graph) := by
  unfold checkConsistency
  apply (safe_checkShape model graph state possible).bind
  intro _ hshape
  have hadmits := (checkShape_eq_ok.mp hshape).admits
  rw [ofSolution_of_admits hg hadmits, ok_bind]
  split
  . exact .refusal nofun
  . exact .ok hadmits ()

end PartitionState

end CircuitPartition
