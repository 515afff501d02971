import CircuitPartition.Bytes
import CircuitPartition.Double
import CircuitPartition.Snapshot.Payload

/-!
Hypergraphs stored as bytes: numbers in little-endian order, lists with their length in front,
optional parts behind a byte that tells whether they are there.
-/

namespace CircuitPartition.Snapshot.Binary

structure Format (β : Type) where
  write : β → List UInt8
  read? : List UInt8 → Option (β × List UInt8)

def number (width : Nat) : Format Nat where
  write n := Bytes.littleEndian width n
  read? bytes :=
    let front := bytes.take width
    if front.length = width then some (Bytes.toNat front, bytes.drop width) else none

def index : Format Nat :=
  number 8

def version : Format UInt32 where
  write n := (number 4).write n.toNat
  read? bytes := ((number 4).read? bytes).map fun (n, rest) => (UInt32.ofNat n, rest)

def double : Format Double where
  write x := (number 8).write x.bits.toNat
  read? bytes := ((number 8).read? bytes).map fun (n, rest) => (⟨UInt64.ofNat n⟩, rest)

def readItems? {β : Type} (item : Format β) :
    (count : Nat) → List β → List UInt8 → Option (List β × List UInt8)
  | 0, items, bytes => some (items, bytes)
  | count + 1, items, bytes => do
    let (value, rest) ← item.read? bytes
    readItems? item count (value :: items) rest

def list {β : Type} (item : Format β) : Format (List β) where
  write items := index.write items.length ++ items.flatMap item.write
  read? bytes := do
    let (count, rest) ← index.read? bytes
    let (items, rest) ← readItems? item count [] rest
    return (items.reverse, rest)

def option {β : Type} (item : Format β) : Format (Option β) where
  write
    | none => [0]
    | some value => 1 :: item.write value
  read?
    | 0 :: rest => some (none, rest)
    | 1 :: rest => (item.read? rest).map fun (value, rest) => (some value, rest)
    | _ => none

def pair {β γ : Type} (first : Format β) (second : Format γ) : Format (β × γ) where
  write value := first.write value.1 ++ second.write value.2
  read? bytes := do
    let (a, rest) ← first.read? bytes
    let (b, rest) ← second.read? rest
    return ((a, b), rest)

def via {β γ : Type} (format : Format γ) (image : β → γ) (preimage : γ → β) :
    Format β where
  write value := format.write (image value)
  read? bytes := (format.read? bytes).map fun (value, rest) => (preimage value, rest)

def schemaVersion : Format SchemaVersion :=
  via (pair version (pair version version))
    (fun v => (v.major, v.minor, v.patch))
    (fun (major, minor, patch) => ⟨major, minor, patch⟩)

def dimensions : Format Dimensions :=
  via (pair index (pair index index))
    (fun d => (d.vertex, d.hyperedge, d.placement))
    (fun (vertex, hyperedge, placement) => ⟨vertex, hyperedge, placement⟩)

def vertex : Format (Vertex Double) :=
  via (pair (list double) (list double))
    (fun v => (v.weight, v.location))
    (fun (weight, location) => ⟨weight, location⟩)

def hyperedge : Format (Hyperedge Double) :=
  via (pair (list index) (list double))
    (fun h => (h.pins, h.weight))
    (fun (pins, weight) => ⟨pins, weight⟩)

def path : Format (TimingPath Double) :=
  via (pair (list index) (pair (list index) (pair double double)))
    (fun p => (p.vertices, p.hyperedges, p.baseSlack, p.slack))
    (fun (vertices, hyperedges, baseSlack, slack) =>
      ⟨vertices, hyperedges, baseSlack, slack⟩)

def derived : Format (DerivedCosts Double) :=
  via (pair (list double) (list double))
    (fun d => (d.pathCosts.toList, d.hyperedgeWeights.toList))
    (fun (costs, weights) => ⟨costs.toArray, weights.toArray⟩)

def timing : Format (TimingPayload Double) :=
  via (pair double (pair (list double) (pair (list double) (pair (list path) (option derived)))))
    (fun t => (t.clockPeriod, t.baseHyperedgeSlack, t.hyperedgeSlack, t.paths, t.derived))
    (fun (clockPeriod, base, slack, paths, derived) =>
      ⟨clockPeriod, base, slack, paths, derived⟩)

def payload : Format (Payload Double) :=
  via (pair schemaVersion (pair dimensions (pair (list vertex) (pair (list hyperedge)
      (option timing)))))
    (fun p => (p.version, p.dimensions, p.vertices, p.hyperedges, p.timing))
    (fun (version, dimensions, vertices, hyperedges, timing) =>
      ⟨version, dimensions, vertices, hyperedges, timing⟩)

end Snapshot.Binary

namespace Hypergraph

def toBytes (graph : Hypergraph Double) : List UInt8 :=
  Snapshot.Binary.payload.write (.ofGraph graph)

def ofBytes (bytes : List UInt8) : Except (Failure Double) (Hypergraph Double) :=
  -- Bytes after the end of the stored hypergraph do not count.
  match Snapshot.Binary.payload.read? bytes with
  | some (stored, _) => stored.toGraph
  | none => .error (.document .malformedBytes)

end Hypergraph

end CircuitPartition
