/-!
Versions of the layout of stored hypergraphs.
-/

namespace CircuitPartition

structure SchemaVersion where
  major : UInt32
  minor : UInt32
  patch : UInt32
  deriving DecidableEq, Ord, Repr

namespace SchemaVersion

def current : SchemaVersion :=
  ⟨1, 0, 0⟩

def reads (reader payload : SchemaVersion) : Bool :=
  reader.major == payload.major && payload.minor ≤ reader.minor

theorem reads_self (v : SchemaVersion) : v.reads v = true := by
  simp [reads]

def toString (v : SchemaVersion) : String :=
  s!"{v.major}.{v.minor}.{v.patch}"

end SchemaVersion

end CircuitPartition
