import CircuitPartition.Graph.Digest
import CircuitPartition.Proofs.Snapshot.Bytes

/-!
A digest is taken of everything that a hypergraph holds: what enters it can be read again, up to the
derived costs. These come last, and are there if anything is left.
-/

namespace CircuitPartition

open Snapshot (Payload TimingPayload)
open Snapshot.Binary

namespace Preimage

def frame : Format (Dimensions × List (Vertex Double) × List (Hyperedge Double)) :=
  pair dimensions (pair (list vertex) (list hyperedge))

def path : Format (TimingPath Double) :=
  via (pair (list index) (pair (list index) (pair double double)))
    (fun p => (p.vertices, p.hyperedges, p.slack, p.baseSlack))
    (fun (vertices, hyperedges, slack, baseSlack) => ⟨vertices, hyperedges, baseSlack, slack⟩)

def annotations : Format (Double × List Double × List Double × List (TimingPath Double)) :=
  pair double (pair (list double) (pair (list double) (list path)))

theorem readsBack_frame {payload : Payload Double} (h : payload.Bounded) :
    frame.ReadsBack (payload.dimensions, payload.vertices, payload.hyperedges) := by
  apply readsBack_pair (readsBack_dimensions h.vertex_dimensions h.hyperedge_dimensions
    h.placement_dimensions)
  apply readsBack_pair (readsBack_list h.vertices fun v hv => readsBack_vertex (h.vertex v hv))
  exact readsBack_list h.hyperedges fun e he => readsBack_hyperedge (h.hyperedge e he)

theorem readsBack_path {p : TimingPath Double} (h : p.Bounded) : path.ReadsBack p := by
  apply readsBack_via rfl
  apply readsBack_pair (readsBack_indices h.vertices h.vertex)
  apply readsBack_pair (readsBack_indices h.hyperedges h.hyperedge)
  exact readsBack_pair (readsBack_double p.slack) (readsBack_double p.baseSlack)

theorem readsBack_annotations {stored : TimingPayload Double} (h : stored.Bounded) :
    annotations.ReadsBack (stored.clockPeriod, stored.hyperedgeSlack, stored.baseHyperedgeSlack,
      stored.paths) := by
  apply readsBack_pair (readsBack_double stored.clockPeriod)
  apply readsBack_pair (readsBack_doubles h.hyperedgeSlack)
  apply readsBack_pair (readsBack_doubles h.baseHyperedgeSlack)
  exact readsBack_list h.paths fun p hp => readsBack_path (h.path p hp)

theorem ofDerived_eq (d : DerivedCosts Double) :
    ofDerived d = ofText "derived" ++ derived.write d := by
  unfold ofDerived
  rw [List.append_assoc]
  rfl

theorem ofPath_eq : ofPath = path.write := by
  funext p
  simp only [ofPath, List.append_assoc]
  rfl

def trailer : Option (TimingPayload Double) → List UInt8
  | none => ofText "timing:none"
  | some stored => ofText "timing:some"
    ++ (annotations.write (stored.clockPeriod, stored.hyperedgeSlack, stored.baseHyperedgeSlack,
        stored.paths)
      ++ stored.derived.elim [] ofDerived)

theorem ofTiming_eq (timing : Option (Timing Double)) :
    ofTiming timing = trailer (timing.map .ofTiming) := by
  cases timing with
  | none => rfl
  | some timing =>
    simp only [Option.map_some, ofTiming, trailer, annotations, pair, list, List.append_assoc,
      ofPath_eq]
    rfl

theorem elim_ofDerived_inj {a b : Option (DerivedCosts Double)}
    (ha : ∀ d, a = some d → d.Bounded) (hb : ∀ d, b = some d → d.Bounded)
    (h : a.elim [] ofDerived = b.elim [] ofDerived) : a = b := by
  have hne (d : DerivedCosts Double) : ofDerived d ≠ [] := by
    rw [ofDerived_eq]
    apply List.append_ne_nil_of_left_ne_nil
    decide +kernel
  cases a with
  | none =>
    cases b with
    | none => rfl
    | some d => exact absurd h.symm (hne d)
  | some d =>
    cases b with
    | none => exact absurd h (hne d)
    | some d' =>
      simp only [Option.elim_some, ofDerived_eq, List.append_cancel_left_eq] at h
      rw [← List.append_nil (derived.write d), ← List.append_nil (derived.write d')] at h
      rw [((readsBack_derived (ha d rfl)).append_inj (readsBack_derived (hb d' rfl)) h).left]

theorem trailer_inj {a b : Option (TimingPayload Double)}
    (ha : ∀ stored, a = some stored → stored.Bounded)
    (hb : ∀ stored, b = some stored → stored.Bounded) (h : trailer a = trailer b) : a = b := by
  -- The two tags have the same length, so neither begins with the other.
  have htag (stored : TimingPayload Double) : trailer none ≠ trailer (some stored) := by
    unfold trailer
    rw [← List.append_nil (ofText "timing:none")]
    intro h
    have := (List.append_inj h (by decide +kernel)).left
    exact absurd this (by decide +kernel)
  cases a with
  | none =>
    cases b with
    | none => rfl
    | some stored => exact absurd h (htag stored)
  | some stored =>
    cases b with
    | none => exact absurd h.symm (htag stored)
    | some stored' =>
      have hstored := ha stored rfl
      have hstored' := hb stored' rfl
      rw [trailer, trailer, List.append_cancel_left_eq] at h
      obtain ⟨hannotations, hderived⟩ := (readsBack_annotations hstored).append_inj
        (readsBack_annotations hstored') h
      have := elim_ofDerived_inj hstored.derived hstored'.derived hderived
      cases stored
      cases stored'
      simp_all

end Preimage

def Snapshot.Payload.preimage (payload : Payload Double) : List UInt8 :=
  Preimage.frame.write (payload.dimensions, payload.vertices, payload.hyperedges)
    ++ Preimage.trailer payload.timing

theorem Snapshot.Payload.preimage_inj {a b : Payload Double} (ha : a.Bounded) (hb : b.Bounded)
    (hversion : a.version = b.version) (h : a.preimage = b.preimage) : a = b := by
  obtain ⟨hframe, htrailer⟩ := (Preimage.readsBack_frame ha).append_inj
    (Preimage.readsBack_frame hb) h
  have := Preimage.trailer_inj ha.timing hb.timing htrailer
  cases a
  cases b
  simp_all

namespace Hypergraph

theorem preimage_eq (graph : Hypergraph Double) :
    graph.preimage = (Payload.ofGraph graph).preimage := by
  simp only [preimage, Payload.preimage, Payload.ofGraph, ← Preimage.ofTiming_eq, Preimage.frame,
    pair, List.append_assoc]
  rfl

variable {a b : Hypergraph Double}

theorem preimage_changeAll_inj (ha : a.Obtained) (hb : b.Obtained) (hafits : a.Fits)
    (hbfits : b.Fits) (changes changes' : List (Change Double)) :
    ((a.changeAll changes).preimage = (b.changeAll changes').preimage
        ↔
      Payload.ofGraph (a.changeAll changes) = Payload.ofGraph (b.changeAll changes')) ∧
      ((a.changeAll changes).preimage = (b.changeAll changes').preimage
        ↔
      a.changeAll changes = b.changeAll changes') := by
  have hareach := ha.reachable.changeAll changes
  have hbreach := hb.reachable.changeAll changes'
  have hpayload : (a.changeAll changes).preimage = (b.changeAll changes').preimage →
      Payload.ofGraph (a.changeAll changes) = Payload.ofGraph (b.changeAll changes') := by
    intro h
    rw [preimage_eq, preimage_eq] at h
    exact Payload.preimage_inj (Payload.bounded_ofGraph hareach (hafits.changeAll changes))
      (Payload.bounded_ofGraph hbreach (hbfits.changeAll changes')) rfl h
  refine ⟨⟨hpayload, ?_⟩, ?_, ?_⟩
  . intro h
    rw [preimage_eq, preimage_eq, h]
  . intro h
    rw [← Payload.indexed_ofGraph hareach.wellFormed, hpayload h,
      Payload.indexed_ofGraph hbreach.wellFormed]
  . intro h
    rw [h]

theorem preimage_changeAll_inj_hop :
    hop.Obtained ∧ hop.Fits ∧
      (hop.changeAll [.setDerived ⟨#[0], #[.nan]⟩]).preimage
        ≠ (hop.changeAll [.setDerived ⟨#[-0], #[.nan]⟩]).preimage := by
  have h := preimage_changeAll_inj obtainedPlaced_hop.obtained obtainedPlaced_hop.obtained fits_hop
    fits_hop [.setDerived ⟨#[0], #[.nan]⟩] [.setDerived ⟨#[-0], #[.nan]⟩]
  refine ⟨obtainedPlaced_hop.obtained, fits_hop, ?_⟩
  rw [ne_eq, h.right]
  decide +kernel

end Hypergraph

end CircuitPartition
