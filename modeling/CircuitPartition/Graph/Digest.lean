import CircuitPartition.Double
import CircuitPartition.Graph.Basic
import CircuitPartition.Sha256

/-!
A digest of a hypergraph with its timing annotations. Doubles enter it by their bits, lists with
their length in front.
-/

namespace CircuitPartition

namespace Preimage

def ofIndex (n : Nat) : List UInt8 :=
  Bytes.littleEndian 8 n

def ofDouble (x : Double) : List UInt8 :=
  Bytes.littleEndian 8 x.bits.toNat

def ofIndices (ns : List Nat) : List UInt8 :=
  ofIndex ns.length ++ ns.flatMap ofIndex

def ofDoubles (xs : List Double) : List UInt8 :=
  ofIndex xs.length ++ xs.flatMap ofDouble

def ofText (text : String) : List UInt8 :=
  text.toUTF8.toList

def ofPath (path : TimingPath Double) : List UInt8 :=
  ofIndices path.vertices ++ ofIndices path.hyperedges
    ++ ofDouble path.slack ++ ofDouble path.baseSlack

def ofDerived (derived : DerivedCosts Double) : List UInt8 :=
  ofText "derived" ++ ofDoubles derived.pathCosts.toList
    ++ ofDoubles derived.hyperedgeWeights.toList

def ofTiming : Option (Timing Double) → List UInt8
  | none => ofText "timing:none"
  | some timing =>
    ofText "timing:some"
      ++ ofDouble timing.clockPeriod
      ++ ofDoubles timing.hyperedgeSlack.toList
      ++ ofDoubles timing.baseHyperedgeSlack.toList
      ++ ofIndex timing.paths.size
      ++ timing.paths.toList.flatMap ofPath
      ++ timing.derived.elim [] ofDerived

end Preimage

namespace Hypergraph

def preimage (graph : Hypergraph Double) : List UInt8 :=
  Preimage.ofIndex graph.dimensions.vertex
    ++ Preimage.ofIndex graph.dimensions.hyperedge
    ++ Preimage.ofIndex graph.dimensions.placement
    ++ Preimage.ofIndex graph.numVertices
    ++ graph.vertices.toList.flatMap (fun v =>
      Preimage.ofDoubles v.weight ++ Preimage.ofDoubles v.location)
    ++ Preimage.ofIndex graph.numHyperedges
    ++ graph.hyperedges.toList.flatMap (fun e =>
      Preimage.ofIndices e.pins ++ Preimage.ofDoubles e.weight)
    ++ Preimage.ofTiming graph.timing

def digest (graph : Hypergraph Double) : String :=
  Bytes.toHex (Sha256.digest graph.preimage)

end Hypergraph

end CircuitPartition
