import CircuitPartition.SchemaVersion

/-!
Why an operation can refuse its input. A cause names the entities involved; its wording is left to
`CircuitPartition.Report`.
-/

namespace CircuitPartition

inductive Entity where
  | vertex
  | hyperedge
  | path
  deriving DecidableEq, Repr

inductive Quantity where
  | vertexWeight
  | placement
  | hyperedgeWeight
  | hyperedgeSlack
  | pathSlack
  deriving DecidableEq, Repr

inductive GraphError (α : Type) where
  | unknown (kind : Entity) (index count : Nat)
  | dimensionMismatch (what : Quantity) (expected actual : Nat)
  | nonFinite (what : Quantity) (index : Nat)
  | emptyHyperedge (hyperedge : Nat)
  | emptyPath (path : Nat)
  | detachedHyperedge (path hyperedge : Nat)
  | zeroDimensions (vertex hyperedge : Nat)
  | missingClockPeriod
  | invalidClockPeriod (period : α)
  | derivedLength (paths pathCosts hyperedges hyperedgeWeights : Nat)
  | tooFewVertices (count : Nat)
  deriving DecidableEq, Repr

inductive Factor where
  | cutDelay
  | hyperedgeWeights
  | vertexWeights
  | placement
  | timing
  | path
  | snaking
  | timingExponent
  deriving DecidableEq, Repr

inductive ConfigError where
  | tooFewParts (numParts : Nat)
  | nonFinite (factor : Factor)
  | factorCount (factor : Factor) (expected actual : Nat)
  deriving DecidableEq, Repr

inductive StateTable where
  | netDegrees
  | blockBalance
  | pathCosts
  deriving DecidableEq, Repr

inductive PreconditionError (α : Type) where
  | solutionLength (expected actual : Nat)
  | blockOutOfRange (vertex block numParts : Nat)
  | degenerateHyperedge (hyperedge pins : Nat)
  | unknownPath (path count : Nat)
  | stateShape (table : StateTable) (rows columns : Nat)
  | netDegreeDrift (hyperedge : Nat) (expected actual : Array Nat)
  | blockBalanceDrift (block : Nat) (expected actual : List α)
  | pathCostDrift (path : Nat) (expected actual : α)
  | boundsShape (numParts dimensions rows : Nat)
  deriving DecidableEq, Repr

inductive DocumentError where
  | malformedJson
  | malformedBytes
  | malformedYaml
  | unreadableFile (path : String)
  | unsupportedVersion (found : SchemaVersion)
  deriving DecidableEq, Repr

/-- What a computation can run into that well-formed arguments rule out. -/
inductive Fault where
  | outOfRange
  -- A pin leaves a block that is said to hold none.
  | noPinLeft
  -- A pin enters a block that is said to hold as many as a word can count.
  | tooManyPins
  -- A vector is asked for that no memory could hold.
  | overlong
  | emptyRange
  deriving DecidableEq, Repr

/-- What can come of an operation instead of its result: a refusal with its cause, or a fault. -/
inductive Failure (α : Type) where
  | graph (cause : GraphError α)
  | config (cause : ConfigError)
  | precondition (cause : PreconditionError α)
  | document (cause : DocumentError)
  | fault (cause : Fault)
  deriving DecidableEq, Repr

def Fault.ofLookup {β : Type} : Option β → Except Fault β
  | some b => .ok b
  | none => .error .outOfRange

instance : MonadLift Option (Except Fault) :=
  ⟨Fault.ofLookup⟩

namespace Failure

variable {α β : Type}

instance : MonadLift (Except (GraphError α)) (Except (Failure α)) :=
  ⟨Except.mapError .graph⟩

instance : MonadLift (Except ConfigError) (Except (Failure α)) :=
  ⟨Except.mapError .config⟩

instance : MonadLift (Except (PreconditionError α)) (Except (Failure α)) :=
  ⟨Except.mapError .precondition⟩

instance : MonadLift (Except Fault) (Except (Failure α)) :=
  ⟨Except.mapError .fault⟩

def ofLookup (b : Option β) : Except (Failure α) β :=
  (Fault.ofLookup b).mapError .fault

instance : MonadLift Option (Except (Failure α)) :=
  ⟨ofLookup⟩

end Failure

end CircuitPartition
