import CircuitPartition.Proofs.Graph.Reachable
import CircuitPartition.Proofs.Random.Sampler

/-!
The vertices and the hyperedges of a random hypergraph. Whatever is drawn for them, no step of
building refuses it.
-/

namespace CircuitPartition

open CircuitPartition.Random (Sampler Distinct isDrawable)

structure RandomShape.Drawable (shape : RandomShape) : Prop where
  vertices : 2 ≤ shape.numVertices
  vertexDimensions : 1 ≤ shape.dimensions.vertex
  hyperedgeDimensions : 1 ≤ shape.dimensions.hyperedge
  slack : shape.numPaths ≠ 0 →
    isDrawable (-0.5 * shape.clockPeriod) shape.clockPeriod = true

def RandomShape.pinLimit (shape : RandomShape) : Nat :=
  max 2 (min shape.maxPins shape.numVertices)

theorem RandomShape.pinLimit_le {shape : RandomShape} (h : 2 ≤ shape.numVertices) :
    shape.pinLimit ≤ shape.numVertices := by
  unfold pinLimit
  omega

structure Builder.Laid (shape : RandomShape) (vertices : Nat) (pinsOf : Array (List Nat))
    (b : Builder Double) : Prop where
  reachable : b.Reachable
  dimensions : b.dimensions = shape.dimensions
  clockPeriod : b.clockPeriod = if shape.numPaths = 0 then none else some shape.clockPeriod
  vertices : b.vertices.size = vertices
  pins : b.hyperedges.map (·.pins) = pinsOf.map IndexSet.ofList
  slack : b.hyperedgeSlack = Array.replicate pinsOf.size none
  paths : b.paths = #[]
  drawn : ∀ pins ∈ pinsOf, 2 ≤ pins.length ∧ pins.length ≤ shape.pinLimit ∧
    Distinct shape.numVertices pins.length pins

namespace Hypergraph

variable {σ : Type} {sampler : Sampler σ} {shape : RandomShape} {vertices : Nat}
  {pinsOf : Array (List Nat)} {b : Builder Double}

theorem isFinite_weight : ∀ n < 4, Scalar.isFinite ((1 + n : Nat) : Double) = true := by
  decide

theorem ensures_drawBetween (hs : sampler.Sound) {low high : Double}
    (h : isDrawable low high = true) :
    Ensures (drawBetween sampler low high) fun x => Scalar.isFinite x = true := by
  obtain ⟨_, hlow, hhigh, _⟩ := Random.isDrawable_iff.mp h
  refine ensures_bind (TryDraw.ensures_lift (hs.between? low high h)) ?_
  rintro _ ⟨x, rfl, hle, hlt⟩
  exact ensures_pure (Double.isFinite_of_le_of_lt hlow hhigh hle hlt)

theorem ensures_drawWeight (hs : sampler.Sound) (dimensions : Nat) {highest : Nat}
    (hpos : 0 < highest) (hle : highest ≤ 4) :
    Ensures (drawWeight sampler dimensions highest) fun weight =>
      weight.length = dimensions ∧ ∀ x ∈ weight, Scalar.isFinite x = true := by
  refine Ensures.mono (Ensures.mapM (P := fun x => Scalar.isFinite x = true) ?_) ?_
  . intro _ _
    apply ensures_bind (hs.below32 highest hpos)
    intro n hn
    exact ensures_pure (isFinite_weight n (lt_of_lt_of_le hn hle))
  . intro weight hweight
    rw [List.length_replicate] at hweight
    exact hweight

theorem ensures_drawVertex (hs : sampler.Sound) (h : b.Laid shape vertices pinsOf) :
    Ensures (drawVertex sampler shape b) (Builder.Laid shape (vertices + 1) pinsOf) := by
  have hweight := ensures_drawWeight hs shape.dimensions.vertex (show 0 < 4 by decide) (le_refl 4)
  refine ensures_bind (TryDraw.ensures_lift hweight) ?_
  rintro weight ⟨hlength, hfinite⟩
  refine ensures_bind (Ensures.mapM (P := fun x => Scalar.isFinite x = true) ?_) ?_
  . intro _ _
    exact ensures_drawBetween hs (by decide)
  . rintro location ⟨hcount, hplaced⟩
    rw [List.length_replicate] at hcount
    have hadd : b.addVertex weight location
        = .ok { b with vertices := b.vertices.push ⟨weight, location⟩ } := by
      rw [Builder.addVertex_eq_ok, h.dimensions]
      exact ⟨hlength.symm, hcount.symm, hfinite, hplaced, rfl⟩
    refine TryDraw.ensures_ofResult hadd ⟨h.reachable.addVertex weight location hadd, h.dimensions,
      h.clockPeriod, ?_, h.pins, h.slack, h.paths, h.drawn⟩
    rw [Array.size_push, h.vertices]

theorem ensures_drawHyperedge (hs : sampler.Sound) (hvertices : 2 ≤ shape.numVertices)
    (h : b.Laid shape shape.numVertices pinsOf) :
    Ensures (drawHyperedge sampler shape (b, pinsOf)) fun next =>
      next.1.Laid shape shape.numVertices next.2 ∧ next.2.size = pinsOf.size + 1 := by
  have hlimit := RandomShape.pinLimit_le hvertices
  have htwo : 2 ≤ shape.pinLimit := le_max_left _ _
  refine ensures_bind (TryDraw.ensures_lift (hs.below64 (shape.pinLimit - 1) (by omega))) ?_
  intro n hn
  refine ensures_bind (TryDraw.ensures_lift (hs.positions shape.numVertices (2 + n) (by omega))) ?_
  rintro pins hpins
  refine ensures_bind (TryDraw.ensures_lift
    (ensures_drawWeight hs shape.dimensions.hyperedge (by decide) (by decide))) ?_
  rintro weight ⟨hlength, hfinite⟩
  have hcount : pins.length = 2 + n := hpins.right.left
  have hadd : b.addHyperedge pins weight
      = .ok { b with
          hyperedges := b.hyperedges.push ⟨IndexSet.ofList pins, weight⟩
          hyperedgeSlack := b.hyperedgeSlack.push none } := by
    rw [Builder.addHyperedge_eq_ok, h.dimensions, h.vertices]
    refine ⟨?_, hlength.symm, hfinite, hpins.right.right, rfl⟩
    intro hnil
    rw [hnil, List.length_nil] at hcount
    omega
  refine ensures_bind
    (TryDraw.ensures_ofResult (P := Builder.Laid shape shape.numVertices (pinsOf.push pins)) hadd
      ⟨h.reachable.addHyperedge pins weight hadd, h.dimensions, h.clockPeriod, h.vertices, ?_, ?_,
        h.paths, ?_⟩) ?_
  . rw [Array.map_push, Array.map_push, h.pins]
  . rw [h.slack, Array.size_push, Array.replicate_succ]
  . rw [Array.forall_mem_push]
    refine ⟨⟨by omega, by omega, ?_⟩, h.drawn⟩
    rw [hcount]
    exact hpins
  . intro next hnext
    exact ensures_pure ⟨hnext, Array.size_push _⟩

end Hypergraph

variable {shape : RandomShape} {pinsOf : Array (List Nat)} {b : Builder Double}

theorem Builder.Laid.size_hyperedges {vertices : Nat} (h : b.Laid shape vertices pinsOf) :
    b.hyperedges.size = pinsOf.size := by
  rw [← Array.size_map (f := (·.pins)), h.pins, Array.size_map]

theorem Builder.Laid.pins_bounds (h : b.Laid shape shape.numVertices pinsOf) :
    ∀ h ∈ b.hyperedges, h.pins.Nodup ∧ 2 ≤ h.pins.length ∧
      h.pins.length ≤ shape.pinLimit := by
  intro hyperedge hmem
  have hpins : hyperedge.pins ∈ pinsOf.map IndexSet.ofList := by
    rw [← h.pins]
    exact Array.mem_map_of_mem hmem
  obtain ⟨pins, hdrawn, heq⟩ := Array.mem_map.mp hpins
  obtain ⟨hmin, hmax, hnodup, _⟩ := h.drawn pins hdrawn
  rw [← heq, IndexSet.length_ofList hnodup]
  exact ⟨(IndexSet.pairwise_ofList pins).imp Nat.ne_of_lt, hmin, hmax⟩

end CircuitPartition
