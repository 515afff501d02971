import CircuitPartition.Proofs.Graph.Annotation
import CircuitPartition.Snapshot.Payload

/-!
The loops that hand a payload to a builder and to its timing, one entry after the other: when each
of them gets to its end, and what it leaves. A loop over slacks looks at their positions only, so
that it gets to the end of a list that is too short as well.
-/

namespace CircuitPartition

theorem foldlM_eq_ok {α β ε : Type} {f : β → α → Except ε β} {P : β → α → Prop}
    {g : β → α → β} (hstep : ∀ b a next, f b a = .ok next ↔ P b a ∧ g b a = next)
    (hkeep : ∀ b a other, P (g b a) other ↔ P b other) {as : List α} {b next : β} :
    as.foldlM f b = .ok next ↔ (∀ a ∈ as, P b a) ∧ as.foldl g b = next := by
  induction as generalizing b with
  | nil => simp
  | cons a as ih =>
    rw [List.foldlM_cons, bind_eq_ok, List.forall_mem_cons, List.foldl_cons]
    simp only [hstep, ih]
    constructor
    . rintro ⟨_, ⟨ha, rfl⟩, has, hnext⟩
      exact ⟨⟨ha, fun other hother => (hkeep b a other).mp (has other hother)⟩, hnext⟩
    . rintro ⟨⟨ha, has⟩, hnext⟩
      exact ⟨g b a, ⟨ha, rfl⟩, fun other hother => (hkeep b a other).mpr (has other hother), hnext⟩

def Hyperedge.canonical {α : Type} (h : Hyperedge α) : Hyperedge α :=
  { h with pins := IndexSet.ofList h.pins }

def TimingPath.initial {α : Type} (path : TimingPath α) : TimingPath α :=
  { path with slack := path.baseSlack }

namespace Snapshot

variable {α : Type}

def overlay (values current : List α) : List α :=
  values ++ current.drop values.length

theorem map_overlay {β : Type} (f : α → β) (values current : List α) :
    (overlay values current).map f = overlay (values.map f) (current.map f) := by
  simp [overlay]

theorem foldl_update {β : Type} {g : Array α → β × Nat → Array α} {f : β → α → α}
    (hupdate : ∀ (before : List α) a behind value,
      g (before ++ a :: behind).toArray (value, before.length)
        = (before ++ f value a :: behind).toArray)
    {values : List β} {current : List α} (h : values.length ≤ current.length) (before : List α) :
    (values.zipIdx before.length).foldl g (before ++ current).toArray
      =
    (before ++ (List.zipWith f values current ++ current.drop values.length)).toArray := by
  induction values generalizing before current with
  | nil => simp
  | cons value values ih =>
    cases current with
    | nil => simp at h
    | cons a current =>
      rw [List.length_cons, List.length_cons, Nat.succ_le_succ_iff] at h
      have := ih h (before ++ [f value a])
      rw [List.length_append, List.length_singleton] at this
      rw [List.zipIdx_cons, List.foldl_cons, hupdate]
      simpa using this

theorem foldl_set! {β : Type} (f : β → α) {values : List β} {current : List α}
    (h : values.length ≤ current.length) :
    values.zipIdx.foldl (fun slots (value, i) => slots.set! i (f value)) current.toArray
      = (overlay (values.map f) current).toArray := by
  have := foldl_update (f := fun value _ => f value)
    (g := fun slots (value, i) => slots.set! i (f value)) (by simp) h []
  have hmap : List.zipWith (fun value _ => f value) values current = values.map f := by
    calc List.zipWith (fun value _ => f value) values current
        = ((values.zip current).map Prod.fst).map f := by
          rw [List.map_map, List.map_zip_eq_zipWith]
          rfl
      _ = values.map f := by rw [List.map_fst_zip h]
  rw [hmap] at this
  simpa [overlay] using this

theorem foldl_modify {β : Type} (f : β → α → α) {values : List β} {current : List α}
    (h : values.length = current.length) :
    values.zipIdx.foldl (fun slots (value, i) => slots.modify i (f value)) current.toArray
      = (List.zipWith f values current).toArray := by
  have := foldl_update (f := f) (g := fun slots (value, i) => slots.modify i (f value))
    (by simp [List.modify_eq_take_drop]) (Nat.le_of_eq h) []
  simpa [h] using this

theorem forall_mem_zipIdx {values : List α} {P : α → Prop} {count : Nat} :
    (∀ entry ∈ values.zipIdx, entry.2 < count ∧ P entry.1)
      ↔
    values.length ≤ count ∧ ∀ value ∈ values, P value := by
  simp only [Prod.forall, List.mem_zipIdx_iff_getElem?]
  constructor
  . intro h
    constructor
    . by_contra hlt
      have hlast : count < values.length := by omega
      have := (h values[count] count (List.getElem?_eq_getElem hlast)).left
      omega
    . intro value hvalue
      obtain ⟨i, hi⟩ := List.mem_iff_getElem?.mp hvalue
      exact (h value i hi).right
  . rintro ⟨hlength, h⟩ value i hi
    obtain ⟨hlt, rfl⟩ := List.getElem?_eq_some_iff.mp hi
    exact ⟨by omega, h _ (List.getElem_mem hlt)⟩

structure Slots (σ γ : Type) where
  read : σ → Array γ
  write : σ → Array γ → σ
  read_write : ∀ s row, read (write s row) = row := by intros; rfl
  write_write : ∀ s row row', write (write s row) row' = write s row' := by intros; rfl
  write_read : ∀ s, write s (read s) = s := by intros; rfl

theorem foldlM_zipIdx_eq_ok {σ β γ ε : Type} (slots : Slots σ γ)
    {set : σ → Nat → β → Except ε σ} (count : σ → Nat) (Valid : β → Prop)
    (change : β → Array γ → Nat → Array γ)
    (hset : ∀ s i value next, set s i value = .ok next
      ↔ i < count s ∧ Valid value ∧ slots.write s (change value (slots.read s) i) = next)
    (hcount : ∀ s i value, count (slots.write s (change value (slots.read s) i)) = count s)
    (values : List β) (s next : σ) :
    values.zipIdx.foldlM (fun s (value, i) => set s i value) s = .ok next
      ↔
    values.length ≤ count s ∧ (∀ value ∈ values, Valid value) ∧
      slots.write s (values.zipIdx.foldl (fun row (value, i) => change value row i) (slots.read s))
        = next := by
  -- The position and the value alone decide whether a value is taken.
  have hrun (entries : List (β × Nat)) (s : σ) :
      entries.foldl (fun s (value, i) => slots.write s (change value (slots.read s) i)) s
        = slots.write s (entries.foldl (fun row (value, i) => change value row i)
          (slots.read s)) := by
    induction entries generalizing s with
    | nil => exact (slots.write_read s).symm
    | cons entry entries ih =>
      rw [List.foldl_cons, ih, slots.read_write, slots.write_write, List.foldl_cons]
  rw [foldlM_eq_ok (P := fun s entry => entry.2 < count s ∧ Valid entry.1)
    (fun s entry next => by rw [hset, and_assoc]) (fun s entry other => by rw [hcount]),
    forall_mem_zipIdx, and_assoc, hrun]

namespace Payload

variable [Scalar α] {b next : Builder α}

theorem addVertices_eq_ok {vertices : List (Vertex α)} :
    addVertices b vertices = .ok next
      ↔
    (∀ v ∈ vertices, b.dimensions.vertex = v.weight.length ∧
        b.dimensions.placement = v.location.length ∧
        (∀ x ∈ v.weight, Scalar.isFinite x = true) ∧
        (∀ x ∈ v.location, Scalar.isFinite x = true)) ∧
      { b with vertices := b.vertices ++ vertices.toArray } = next := by
  have hrun : vertices.foldl (fun (b : Builder α) v => { b with vertices := b.vertices.push v }) b
      = { b with vertices := b.vertices ++ vertices.toArray } := by
    induction vertices generalizing b with
    | nil => simp
    | cons v vertices ih => rw [List.foldl_cons, ih]; simp
  unfold addVertices
  rw [← hrun]
  apply foldlM_eq_ok
  . intro b v next
    simp only [Builder.addVertex_eq_ok, and_assoc]
  . intro b v other
    rfl

theorem addHyperedges_eq_ok {hyperedges : List (Hyperedge α)} :
    addHyperedges b hyperedges = .ok next
      ↔
    (∀ h ∈ hyperedges, h.pins ≠ [] ∧ b.dimensions.hyperedge = h.weight.length ∧
        (∀ x ∈ h.weight, Scalar.isFinite x = true) ∧ (∀ v ∈ h.pins, v < b.vertices.size)) ∧
      { b with
        hyperedges := b.hyperedges ++ (hyperedges.map (·.canonical)).toArray
        hyperedgeSlack := b.hyperedgeSlack ++ Array.replicate hyperedges.length none }
          = next := by
  have hrun : hyperedges.foldl (fun (b : Builder α) h =>
        { b with
          hyperedges := b.hyperedges.push h.canonical
          hyperedgeSlack := b.hyperedgeSlack.push none }) b
      = { b with
          hyperedges := b.hyperedges ++ (hyperedges.map (·.canonical)).toArray
          hyperedgeSlack :=
            b.hyperedgeSlack ++ Array.replicate hyperedges.length none } := by
    induction hyperedges generalizing b with
    | nil => simp
    | cons h hyperedges ih =>
      rw [List.foldl_cons, ih]
      simp [← Array.toList_inj, List.replicate_succ]
  unfold addHyperedges
  rw [← hrun]
  apply foldlM_eq_ok
  . intro b h next
    simp only [Builder.addHyperedge_eq_ok, and_assoc]
    rfl
  . intro b h other
    rfl

def slackSlots : Slots (Builder α) (Option α) where
  read b := b.hyperedgeSlack
  write b slacks := { b with hyperedgeSlack := slacks }

theorem addSlacks_eq_ok {slacks : List α} (hsize : b.hyperedgeSlack.size = b.hyperedges.size) :
    addSlacks b slacks = .ok next
      ↔
    slacks.length ≤ b.hyperedges.size ∧ (∀ x ∈ slacks, Scalar.isFinite x = true) ∧
      { b with
        hyperedgeSlack := (overlay (slacks.map some) b.hyperedgeSlack.toList).toArray } = next := by
  have hrun := foldlM_zipIdx_eq_ok slackSlots (fun b : Builder α => b.hyperedges.size)
    (fun x => Scalar.isFinite x = true) (fun slack row e => row.set! e (some slack))
    (fun _ _ _ _ => Builder.setHyperedgeSlack_eq_ok) (fun _ _ _ => rfl) slacks b next
  unfold addSlacks
  rw [hrun]
  apply and_congr_right
  intro hlength
  rw [← foldl_set! some (by simpa [hsize] using hlength)]
  rfl

theorem addPaths_eq_ok {paths : List (TimingPath α)} :
    addPaths b paths = .ok next
      ↔
    (∀ path ∈ paths, path.vertices ≠ [] ∧ Scalar.isFinite path.baseSlack = true ∧
        (∀ v ∈ path.vertices, v < b.vertices.size) ∧
        (∀ e ∈ path.hyperedges, path.Meets b.hyperedges e)) ∧
      { b with paths := b.paths ++ (paths.map (·.initial)).toArray } = next := by
  have hrun : paths.foldl (fun (b : Builder α) path =>
        { b with paths := b.paths.push path.initial }) b
      = { b with paths := b.paths ++ (paths.map (·.initial)).toArray } := by
    induction paths generalizing b with
    | nil => simp
    | cons path paths ih => rw [List.foldl_cons, ih]; simp
  unfold addPaths
  rw [← hrun]
  apply foldlM_eq_ok
  . intro b path next
    simp only [Builder.addPath_eq_ok, and_assoc]
    rfl
  . intro b path other
    rfl

end Payload

namespace TimingPayload

variable [Scalar α] {timing next : Timing α}

def slackSlots : Slots (Timing α) α where
  read timing := timing.hyperedgeSlack
  write timing slacks := { timing with hyperedgeSlack := slacks }

def pathSlots : Slots (Timing α) (TimingPath α) where
  read timing := timing.paths
  write timing paths := { timing with paths }

theorem restoreSlacks_eq_ok {slacks : List α} :
    slacks.zipIdx.foldlM (fun (timing : Timing α) (slack, e) => timing.setHyperedgeSlack e slack)
        timing = .ok next
      ↔
    slacks.length ≤ timing.hyperedgeSlack.size ∧ (∀ x ∈ slacks, Scalar.isFinite x = true) ∧
      { timing with hyperedgeSlack := (overlay slacks timing.hyperedgeSlack.toList).toArray }
        = next := by
  have hrun := foldlM_zipIdx_eq_ok slackSlots
    (fun timing : Timing α => timing.hyperedgeSlack.size) (fun x => Scalar.isFinite x = true)
    (fun slack row e => row.set! e slack) (fun _ _ _ _ => Timing.setHyperedgeSlack_eq_ok)
    (fun _ _ _ => by simp [slackSlots]) slacks timing next
  rw [hrun]
  apply and_congr_right
  intro hlength
  have hset := foldl_set! id hlength
  rw [List.map_id] at hset
  rw [← hset]
  rfl

theorem restorePathSlacks_eq_ok {paths : List (TimingPath α)}
    (hpaths : timing.paths = (paths.map TimingPath.initial).toArray) :
    paths.zipIdx.foldlM (fun (timing : Timing α) (path, p) => timing.setPathSlack p path.slack)
        timing = .ok next
      ↔
    (∀ path ∈ paths, Scalar.isFinite path.slack = true) ∧
      { timing with paths := paths.toArray } = next := by
  have hmodify : paths.zipIdx.foldl
        (fun row (path, p) => row.modify p fun current => { current with slack := path.slack })
        timing.paths
      = paths.toArray := by
    rw [hpaths, foldl_modify
      (fun path current : TimingPath α => { current with slack := path.slack }) (by simp),
      List.zipWith_map_right, List.zipWith_self]
    exact congrArg _ (List.map_id paths)
  have hrun := foldlM_zipIdx_eq_ok pathSlots (fun timing : Timing α => timing.paths.size)
    (fun path => Scalar.isFinite path.slack = true)
    (fun path row p => row.modify p fun current => { current with slack := path.slack })
    (fun _ _ _ _ => Timing.setPathSlack_eq_ok) (fun _ _ _ => by simp [pathSlots]) paths timing next
  rw [hrun]
  simp [hpaths, pathSlots, ← hmodify]

end TimingPayload

end Snapshot
end CircuitPartition
