import CircuitPartition.Proofs.Graph.Reachable

/-!
Assembling a hypergraph by calls in any order. A call that is refused leaves the builder as it is,
so that what is there in the end has come from the calls that were accepted.
-/

namespace CircuitPartition.Builder

inductive Call (α : Type) where
  | withPlacementDimensions (dimensions : Nat)
  | withClockPeriod (period : α)
  | addVertex (weight location : List α)
  | addHyperedge (pins : List Nat) (weight : List α)
  | setHyperedgeSlack (e : Nat) (slack : α)
  | addPath (vertices hyperedges : List Nat) (slack : α)
  deriving DecidableEq, Repr

variable {α : Type} [Scalar α]

def call (b : Builder α) : Call α → Except (GraphError α) (Builder α)
  | .withPlacementDimensions dimensions => .ok (b.withPlacementDimensions dimensions)
  | .withClockPeriod period => .ok (b.withClockPeriod period)
  | .addVertex weight location => b.addVertex weight location
  | .addHyperedge pins weight => b.addHyperedge pins weight
  | .setHyperedgeSlack e slack => b.setHyperedgeSlack e slack
  | .addPath vertices hyperedges slack => b.addPath vertices hyperedges slack

def Accepts (b : Builder α) (call : Call α) : Prop :=
  ∃ next, b.call call = .ok next

def perform (b : Builder α) (call : Call α) : Builder α :=
  match b.call call with
  | .ok next => next
  | .error _ => b

def performAll (b : Builder α) (calls : List (Call α)) : Builder α :=
  calls.foldl perform b

def assemble (vertexDimensions hyperedgeDimensions : Nat) (calls : List (Call α)) : Builder α :=
  (empty vertexDimensions hyperedgeDimensions).performAll calls

variable {b next : Builder α}

theorem Reachable.call (h : b.Reachable) {call : Call α} (hcall : b.call call = .ok next) :
    next.Reachable := by
  cases call with
  | withPlacementDimensions dimensions =>
    cases hcall
    exact h.withPlacementDimensions dimensions
  | withClockPeriod period =>
    cases hcall
    exact h.withClockPeriod period
  | addVertex weight location => exact h.addVertex weight location hcall
  | addHyperedge pins weight => exact h.addHyperedge pins weight hcall
  | setHyperedgeSlack e slack => exact h.setHyperedgeSlack e slack hcall
  | addPath vertices hyperedges slack => exact h.addPath vertices hyperedges slack hcall

theorem Reachable.perform (h : b.Reachable) (call : Call α) : (b.perform call).Reachable := by
  unfold Builder.perform
  split
  . next next hcall => exact h.call hcall
  . exact h

theorem Reachable.performAll (h : b.Reachable) (calls : List (Call α)) :
    (b.performAll calls).Reachable := by
  unfold Builder.performAll
  induction calls generalizing b with
  | nil => exact h
  | cons call calls ih => exact ih (h.perform call)

theorem reachable_assemble (vertexDimensions hyperedgeDimensions : Nat) (calls : List (Call α)) :
    (assemble vertexDimensions hyperedgeDimensions calls).Reachable :=
  (Reachable.empty vertexDimensions hyperedgeDimensions).performAll calls

theorem call_cases {call : Call α} (h : b.call call = .ok next) :
    (∃ dimensions, call = .withPlacementDimensions dimensions ∧
        next = b.withPlacementDimensions dimensions)
      ∨
    (∃ weight location, call = .addVertex weight location ∧
        b.dimensions.placement = location.length ∧
        next = { b with vertices := b.vertices.push ⟨weight, location⟩ })
      ∨
    ((∀ weight location, call ≠ .addVertex weight location) ∧
      next.dimensions = b.dimensions ∧ next.vertices = b.vertices) := by
  cases call with
  | withPlacementDimensions dimensions =>
    cases h
    exact .inl ⟨dimensions, rfl, rfl⟩
  | withClockPeriod period =>
    cases h
    exact .inr (.inr ⟨by simp, rfl, rfl⟩)
  | addVertex weight location =>
    obtain ⟨_, hlocation, _, _, rfl⟩ := addVertex_eq_ok.mp h
    exact .inr (.inl ⟨weight, location, rfl, hlocation, rfl⟩)
  | addHyperedge pins weight =>
    obtain ⟨_, _, _, _, rfl⟩ := addHyperedge_eq_ok.mp h
    exact .inr (.inr ⟨by simp, rfl, rfl⟩)
  | setHyperedgeSlack e slack =>
    obtain ⟨_, _, rfl⟩ := setHyperedgeSlack_eq_ok.mp h
    exact .inr (.inr ⟨by simp, rfl, rfl⟩)
  | addPath vertices hyperedges slack =>
    obtain ⟨_, _, _, _, rfl⟩ := addPath_eq_ok.mp h
    exact .inr (.inr ⟨by simp, rfl, rfl⟩)

theorem dimensions_perform (b : Builder α) (call : Call α) :
    (b.perform call).dimensions.vertex = b.dimensions.vertex ∧
      (b.perform call).dimensions.hyperedge = b.dimensions.hyperedge := by
  unfold perform
  split
  . next next hcall =>
    obtain ⟨_, _, rfl⟩ | ⟨_, _, _, _, rfl⟩ | ⟨_, hdimensions, _⟩ := call_cases hcall
    . exact ⟨rfl, rfl⟩
    . exact ⟨rfl, rfl⟩
    . rw [hdimensions]
      exact ⟨rfl, rfl⟩
  . exact ⟨rfl, rfl⟩

theorem mem_vertices_perform {call : Call α} {v : Vertex α} :
    v ∈ (b.perform call).vertices
      ↔
    v ∈ b.vertices ∨ (call = .addVertex v.weight v.location ∧ b.Accepts call) := by
  unfold perform Accepts
  split
  . next next hcall =>
    obtain ⟨_, rfl, rfl⟩ | ⟨weight, location, rfl, _, rfl⟩ | ⟨hother, _, hvertices⟩ :=
      call_cases hcall
    . simp [withPlacementDimensions]
    . rw [Array.mem_push]
      cases v
      simp [hcall, eq_comm]
    . simp [hvertices, hother]
  . next cause hcall => simp [hcall]

theorem mem_vertices_performAll {calls : List (Call α)} {v : Vertex α} :
    v ∈ (b.performAll calls).vertices
      ↔
    v ∈ b.vertices ∨ ∃ before after, calls = before ++ .addVertex v.weight v.location :: after ∧
      (b.performAll before).Accepts (.addVertex v.weight v.location) := by
  unfold performAll
  induction calls generalizing b with
  | nil => simp
  | cons call calls ih =>
    rw [List.foldl_cons, ih, mem_vertices_perform, or_assoc]
    apply or_congr_right
    constructor
    . rintro (⟨rfl, haccepts⟩ | ⟨before, after, rfl, haccepts⟩)
      . exact ⟨[], calls, rfl, haccepts⟩
      . exact ⟨call :: before, after, rfl, haccepts⟩
    . rintro ⟨before, after, hcalls, haccepts⟩
      cases before with
      | nil =>
        rw [List.nil_append, List.cons.injEq] at hcalls
        obtain ⟨rfl, rfl⟩ := hcalls
        exact .inl ⟨rfl, haccepts⟩
      | cons first before =>
        rw [List.cons_append, List.cons.injEq] at hcalls
        obtain ⟨rfl, rfl⟩ := hcalls
        exact .inr ⟨before, after, rfl, haccepts⟩

theorem mem_vertices_assemble {vertexDimensions hyperedgeDimensions : Nat} {calls : List (Call α)}
    {v : Vertex α} :
    v ∈ (assemble vertexDimensions hyperedgeDimensions calls).vertices
      ↔
    ∃ before after, calls = before ++ .addVertex v.weight v.location :: after ∧
      (assemble vertexDimensions hyperedgeDimensions before).Accepts
        (.addVertex v.weight v.location) := by
  unfold assemble
  rw [mem_vertices_performAll]
  simp [empty]

theorem dimensions_performAll (b : Builder α) (calls : List (Call α)) :
    (b.performAll calls).dimensions.vertex = b.dimensions.vertex ∧
      (b.performAll calls).dimensions.hyperedge = b.dimensions.hyperedge := by
  unfold performAll
  induction calls generalizing b with
  | nil => exact ⟨rfl, rfl⟩
  | cons call calls ih =>
    rw [List.foldl_cons, (ih _).left, (ih _).right]
    exact dimensions_perform b call

end CircuitPartition.Builder
