import CircuitPartition.Proofs.Graph.Laying
import CircuitPartition.Proofs.Snapshot.Replay

/-!
Random hypergraphs are what they are asked to be, whatever is drawn for them. Their paths are walks
from pin to pin, and their hyperedges have the slack of the worst path through them.
-/

namespace CircuitPartition

open CircuitPartition.Random (Sampler Distinct isDrawable)

/-! ### Walks -/

structure TimingPath.Walks {α : Type} (hyperedges : Array (Hyperedge α)) (path : TimingPath α) :
    Prop where
  length : path.vertices.length = path.hyperedges.length + 1
  step : ∀ (i : Nat) e, path.hyperedges[i]? = some e →
    ∃ u v h, path.vertices[i]? = some u ∧ path.vertices[i + 1]? = some v ∧ u ≠ v ∧
      hyperedges[e]? = some h ∧ u ∈ h.pins ∧ v ∈ h.pins

namespace Walk

variable {α σ : Type} {sampler : Sampler σ} {hyperedges : Array (Hyperedge α)}

inductive Follows (hyperedges : Array (Hyperedge α)) : Nat → List (Nat × Nat) → Prop where
  | nil {u : Nat} : Follows hyperedges u []
  | cons {u v e : Nat} {h : Hyperedge α} {steps : List (Nat × Nat)} (hget : hyperedges[e]? = some h)
    (hleft : u ∈ h.pins) (hright : v ∈ h.pins) (hne : u ≠ v) (hrest : Follows hyperedges v steps) :
    Follows hyperedges u ((e, v) :: steps)

theorem Follows.step {start : Nat} {steps : List (Nat × Nat)}
    (h : Follows hyperedges start steps) :
    ∀ (i : Nat) e, (steps.map (·.1))[i]? = some e →
      ∃ u v h, (start :: steps.map (·.2))[i]? = some u ∧ (steps.map (·.2))[i]? = some v ∧ u ≠ v ∧
        hyperedges[e]? = some h ∧ u ∈ h.pins ∧ v ∈ h.pins := by
  induction h with
  | nil =>
    intro i e hi
    simp at hi
  | cons hget hleft hright hne hrest ih =>
    intro i e hi
    cases i with
    | zero =>
      cases hi
      exact ⟨_, _, _, rfl, rfl, hne, hget, hleft, hright⟩
    | succ i => exact ih i e hi

theorem Follows.walks {walk : Walk} (h : Follows hyperedges walk.start walk.steps) (slack : α) :
    TimingPath.Walks hyperedges ⟨walk.vertices, walk.hyperedges, slack, slack⟩ where
  length := by simp [Walk.vertices, Walk.hyperedges]
  step := h.step

theorem Follows.attached {u : Nat} {steps : List (Nat × Nat)} (h : Follows hyperedges u steps) :
    ∀ e ∈ steps.map (·.1), ∃ h, hyperedges[e]? = some h ∧ ∃ v ∈ steps.map (·.2), v ∈ h.pins := by
  induction h with
  | nil =>
    intro e he
    simp at he
  | cons hget hleft hright hne hrest ih =>
    intro e he
    rw [List.map_cons]
    cases List.mem_cons.mp he with
    | inl heq =>
      subst heq
      exact ⟨_, hget, _, List.mem_cons_self, hright⟩
    | inr he =>
      obtain ⟨h, hget, v, hv, hpin⟩ := ih e he
      exact ⟨h, hget, v, List.mem_cons_of_mem _ hv, hpin⟩

theorem Follows.lt {count u : Nat} {steps : List (Nat × Nat)} (h : Follows hyperedges u steps)
    (hpins : ∀ h ∈ hyperedges, ∀ v ∈ h.pins, v < count) : ∀ v ∈ steps.map (·.2), v < count := by
  induction h with
  | nil =>
    intro v hv
    simp at hv
  | cons hget hleft hright hne hrest ih =>
    rw [List.map_cons, List.forall_mem_cons]
    exact ⟨hpins _ (Array.mem_of_getElem? hget) _ hright, ih⟩

theorem ensures_choose (hs : sampler.Sound) (items : List Nat) :
    Ensures (sampler.choose items) fun item => ∀ n, item = some n → n ∈ items := by
  cases items with
  | nil =>
    apply Ensures.mono hs.choose_nil
    rintro _ rfl n hn
    simp at hn
  | cons first items =>
    apply Ensures.mono (hs.choose (first :: items) (List.cons_ne_nil _ _))
    rintro _ ⟨n, hn, rfl⟩ m hm
    rw [← Option.some.inj hm]
    exact hn

def Leads (hyperedges : Array (Hyperedge α)) (pinsOf incident : Array (List Nat)) : Prop :=
  ∀ u, ∀ e ∈ incident.getD u [],
    ∃ h, hyperedges[e]? = some h ∧ u ∈ h.pins ∧ ∀ v ∈ pinsOf.getD e [], v ∈ h.pins

theorem ensures_extend (hs : sampler.Sound) {pinsOf incident : Array (List Nat)}
    (hleads : Leads hyperedges pinsOf incident) (n current : Nat) :
    Ensures (extend sampler pinsOf incident n current) fun steps =>
      Follows hyperedges current steps ∧ steps.length ≤ n := by
  induction n generalizing current with
  | zero => exact ensures_pure ⟨.nil, le_refl 0⟩
  | succ n ih =>
    apply ensures_bind (ensures_choose hs (incident.getD current []))
    intro e he
    cases e with
    | none => exact ensures_pure ⟨.nil, Nat.zero_le _⟩
    | some e =>
      apply ensures_bind (ensures_choose hs _)
      intro next hnext
      cases next with
      | none => exact ensures_pure ⟨.nil, Nat.zero_le _⟩
      | some next =>
        obtain ⟨h, hget, hleft, hright⟩ := hleads current e (he e rfl)
        obtain ⟨hmem, hne⟩ := List.mem_filter.mp (hnext next rfl)
        apply ensures_bind (ih next)
        rintro steps ⟨hfollows, hlength⟩
        apply ensures_pure
        refine ⟨.cons hget hleft (hright next hmem) ?_ hfollows, Nat.succ_le_succ hlength⟩
        intro hsame
        simp [hsame] at hne

end Walk

/-! ### Worst slacks -/

def IsWorst (P : Double → Prop) : Option Double → Prop
  | none => ∀ slack, ¬P slack
  | some worst => P worst ∧ ∀ slack, P slack → worst ≤ slack

theorem IsWorst.congr {P Q : Double → Prop} (hiff : ∀ slack, P slack ↔ Q slack)
    {worst : Option Double} (h : IsWorst P worst) : IsWorst Q worst := by
  rwa [← funext fun slack => propext (hiff slack)]

namespace Hypergraph

def lower (slack : Double) (worst : Option Double) : Option Double :=
  some (worst.elim slack (Scalar.min · slack))

theorem isWorst_lower {P : Double → Prop} (hP : ∀ slack, P slack → slack.isFinite = true)
    {slack : Double} (hslack : slack.isFinite = true) {worst : Option Double}
    (h : IsWorst P worst) : IsWorst (fun other => P other ∨ other = slack) (lower slack worst) := by
  have hself : slack ≤ slack := (Double.le_iff_of_isFinite hslack hslack).mpr (le_refl _)
  cases worst with
  | none =>
    refine ⟨.inr rfl, ?_⟩
    rintro other (hother | rfl)
    . exact absurd hother (h other)
    . exact hself
  | some worst =>
    obtain ⟨hworst, hleast⟩ := h
    have hfinite := hP worst hworst
    obtain ⟨hone, hle, hle'⟩ := Double.min_cases hfinite hslack
    have hmin : (Scalar.min worst slack).isFinite = true ∧
        (P (Scalar.min worst slack) ∨ Scalar.min worst slack = slack) := by
      cases hone with
      | inl heq =>
        rw [heq]
        exact ⟨hfinite, .inl hworst⟩
      | inr heq =>
        rw [heq]
        exact ⟨hslack, .inr rfl⟩
    refine ⟨hmin.right, ?_⟩
    rintro other (hother | rfl)
    . have hother' := hleast other hother
      rw [Double.le_iff_of_isFinite hfinite (hP other hother)] at hother'
      rw [Double.le_iff_of_isFinite hmin.left hfinite] at hle
      exact (Double.le_iff_of_isFinite hmin.left (hP other hother)).mpr (hle.trans hother')
    . exact hle'

theorem isWorst_foldl_lower {P : Nat → Double → Prop}
    (hP : ∀ e slack, P e slack → slack.isFinite = true) {slack : Double}
    (hslack : slack.isFinite = true) (taken : List Nat) {worst : Array (Option Double)}
    (h : ∀ (e : Nat) w, worst[e]? = some w → IsWorst (P e) w) :
    ∀ (e : Nat) w,
      (taken.foldl (fun worst e => worst.modify e (lower slack)) worst)[e]? = some w →
      IsWorst (fun other => P e other ∨ e ∈ taken ∧ other = slack) w := by
  induction taken generalizing P worst with
  | nil =>
    intro e w hw
    apply (h e w hw).congr
    simp
  | cons first taken ih =>
    intro e w hw
    rw [List.foldl_cons] at hw
    have hfirst := ih (P := fun e other => P e other ∨ e = first ∧ other = slack) ?_ ?_ e w hw
    . apply hfirst.congr
      intro other
      rw [List.mem_cons, or_and_right, or_assoc]
    . rintro e other (hother | ⟨_, rfl⟩)
      . exact hP e other hother
      . exact hslack
    . intro e w hw
      rw [Array.getElem?_modify] at hw
      split at hw
      . next heq =>
        subst heq
        rw [Option.map_eq_some_iff] at hw
        obtain ⟨before, hbefore, rfl⟩ := hw
        apply (isWorst_lower (hP first) hslack (h first before hbefore)).congr
        simp
      . next hne =>
        apply (h e w hw).congr
        intro other
        simp [Ne.symm hne]

theorem size_foldl_lower (slack : Double) (taken : List Nat) (worst : Array (Option Double)) :
    (taken.foldl (fun worst e => worst.modify e (lower slack)) worst).size = worst.size := by
  induction taken generalizing worst with
  | nil => rfl
  | cons e taken ih => rw [List.foldl_cons, ih, Array.size_modify]

/-! ### Paths -/

def Through (paths : Array (TimingPath Double)) (e : Nat) (slack : Double) : Prop :=
  ∃ path ∈ paths, e ∈ path.hyperedges ∧ path.slack = slack

structure Traced (shape : RandomShape) (laid : Builder Double) (n : Nat)
    (drawn : Builder Double × Array (Option Double)) : Prop where
  reachable : drawn.1.Reachable
  frame : drawn.1 = { laid with paths := drawn.1.paths }
  count : drawn.1.paths.size = n
  walks : ∀ path ∈ drawn.1.paths, path.Walks laid.hyperedges ∧
    path.vertices.length ≤ max 1 shape.maxPathLength
  finite : ∀ path ∈ drawn.1.paths, path.slack.isFinite = true
  size : drawn.2.size = laid.hyperedges.size
  worst : ∀ (e : Nat) worst, drawn.2[e]? = some worst → IsWorst (Through drawn.1.paths e) worst

variable {σ : Type} {sampler : Sampler σ} {shape : RandomShape} {laid : Builder Double}
  {pinsOf : Array (List Nat)}

theorem leads_invert (h : laid.Laid shape shape.numVertices pinsOf) :
    Walk.Leads laid.hyperedges pinsOf (IndexSet.invert pinsOf.toList shape.numVertices) := by
  intro u e he
  have hu : u < shape.numVertices := by
    by_contra hle
    rw [Array.getD_eq_getD_getElem?, Array.getElem?_eq_none (by simpa using hle)] at he
    simp at he
  obtain ⟨set, hset, _, hmem⟩ := IndexSet.inverts_invert pinsOf.toList shape.numVertices u hu
  dsimp only at hset hmem
  rw [Array.getD_eq_getD_getElem?, hset, Option.getD_some, hmem] at he
  cases hpins : pinsOf[e]? with
  | none => simp [hpins] at he
  | some pins =>
    rw [Array.getElem?_toList, hpins, Option.getD_some] at he
    have hsets := congrArg (·[e]?) h.pins
    simp only [Array.getElem?_map, hpins, Option.map_some, Option.map_eq_some_iff] at hsets
    obtain ⟨hyperedge, hget, heq⟩ := hsets
    refine ⟨hyperedge, hget, ?_, ?_⟩
    . rw [heq]
      exact IndexSet.mem_ofList.mpr he
    . intro v hv
      rw [Array.getD_eq_getD_getElem?, hpins, Option.getD_some] at hv
      rw [heq]
      exact IndexSet.mem_ofList.mpr hv

theorem Traced.accepts {n : Nat} {drawn : Builder Double × Array (Option Double)}
    (hdrawn : Traced shape laid n drawn) (h : laid.Laid shape shape.numVertices pinsOf)
    (walk : Walk) (hstart : walk.start < shape.numVertices)
    (hfollows : Walk.Follows laid.hyperedges walk.start walk.steps) {slack : Double}
    (hslack : slack.isFinite = true) :
    ∃ next, drawn.1.addPath walk.vertices walk.hyperedges slack = .ok next := by
  have hpins : ∀ h ∈ laid.hyperedges, ∀ v ∈ h.pins, v < shape.numVertices := by
    rw [← h.vertices]
    exact h.reachable.wellFormed.pins_lt
  simp only [Builder.addPath_eq_ok]
  rw [hdrawn.frame]
  dsimp only
  rw [h.vertices]
  refine ⟨_, List.cons_ne_nil _ _, hslack, ?_, ?_, rfl⟩
  . exact List.forall_mem_cons.mpr ⟨hstart, hfollows.lt hpins⟩
  . intro e he
    obtain ⟨hyperedge, hget, v, hv, hpin⟩ := hfollows.attached e he
    exact ⟨hyperedge, hget, v, List.mem_cons_of_mem _ hv, hpin⟩

theorem Traced.push {n : Nat} {drawn : Builder Double × Array (Option Double)}
    (hdrawn : Traced shape laid n drawn) {walk : Walk}
    (hfollows : Walk.Follows laid.hyperedges walk.start walk.steps)
    (hlength : walk.steps.length ≤ shape.maxPathLength - 1) {slack : Double}
    (hslack : slack.isFinite = true) {next : Builder Double}
    (hadd : drawn.1.addPath walk.vertices walk.hyperedges slack = .ok next) :
    Traced shape laid (n + 1) (next,
      walk.hyperedges.foldl (fun worst e => worst.modify e (lower slack)) drawn.2) := by
  have hreachable := hdrawn.reachable.addPath _ _ _ hadd
  obtain ⟨_, _, _, _, rfl⟩ := Builder.addPath_eq_ok.mp hadd
  constructor
  . exact hreachable
  . dsimp only
    rw [hdrawn.frame]
  . rw [Array.size_push, hdrawn.count]
  . rw [Array.forall_mem_push]
    refine ⟨⟨hfollows.walks slack, ?_⟩, hdrawn.walks⟩
    unfold Walk.vertices
    rw [List.length_cons, List.length_map]
    omega
  . exact Array.forall_mem_push.mpr ⟨hslack, hdrawn.finite⟩
  . rw [size_foldl_lower, hdrawn.size]
  . intro e worst hworst
    have hlowered := isWorst_foldl_lower ?_ hslack walk.hyperedges hdrawn.worst e worst hworst
    . apply hlowered.congr
      intro other
      unfold Through
      simp only [Array.mem_push, or_and_right, exists_or, exists_eq_left, eq_comm]
    . rintro e slack ⟨path, hpath, _, rfl⟩
      exact hdrawn.finite path hpath

theorem ensures_drawPath (hs : sampler.Sound) (h : laid.Laid shape shape.numVertices pinsOf)
    (hvertices : 2 ≤ shape.numVertices)
    (hslack : isDrawable (-0.5 * shape.clockPeriod) shape.clockPeriod = true) {n : Nat}
    {drawn : Builder Double × Array (Option Double)} (hdrawn : Traced shape laid n drawn) :
    Ensures (drawPath sampler shape pinsOf (IndexSet.invert pinsOf.toList shape.numVertices) drawn)
      (Traced shape laid (n + 1)) := by
  refine ensures_bind (ensures_drawBetween hs hslack) ?_
  intro slack hfinite
  refine ensures_bind (TryDraw.ensures_lift (hs.below64 shape.numVertices (by omega))) ?_
  intro start hstart
  refine ensures_bind (TryDraw.ensures_lift
    (Walk.ensures_extend hs (leads_invert h) (shape.maxPathLength - 1) start)) ?_
  rintro steps ⟨hfollows, hlength⟩
  obtain ⟨next, hadd⟩ := hdrawn.accepts h ⟨start, steps⟩ hstart hfollows hfinite
  refine ensures_bind (TryDraw.ensures_ofResult (P := (· = next)) hadd rfl) ?_
  rintro _ rfl
  exact ensures_pure (hdrawn.push hfollows hlength hfinite hadd)

/-! ### The whole -/

def mark (slots : Array (Option Double)) (entry : Option Double × Nat) : Array (Option Double) :=
  match entry.1 with
  | some slack => slots.set! entry.2 (some slack)
  | none => slots

theorem foldl_mark (slacks : List (Option Double)) :
    slacks.zipIdx.foldl mark (Array.replicate slacks.length none) = slacks.toArray := by
  have hzip : List.zipWith (fun value slot => value.or slot) slacks
      (List.replicate slacks.length none) = slacks := by
    induction slacks with
    | nil => rfl
    | cons slack slacks ih => simp [List.replicate_succ, ih]
  have hupdate (before : List (Option Double)) (slot : Option Double)
      (behind : List (Option Double)) (value : Option Double) :
      mark (before ++ slot :: behind).toArray (value, before.length)
        = (before ++ value.or slot :: behind).toArray := by
    cases value with
    | none => simp [mark]
    | some slack => simp [mark]
  have hfill := Snapshot.foldl_update hupdate
    (show slacks.length ≤ (List.replicate slacks.length none).length by simp) []
  simpa [hzip] using hfill

theorem annotate_eq_ok {b : Builder Double} {slacks : Array (Option Double)}
    (hnone : b.hyperedgeSlack = Array.replicate slacks.size none)
    (hsize : slacks.size = b.hyperedges.size)
    (hfinite : ∀ slack, some slack ∈ slacks → slack.isFinite = true) :
    annotate b slacks.toList = .ok { b with hyperedgeSlack := slacks } := by
  have hrun (entries : List (Option Double × Nat)) (b : Builder Double) :
      entries.foldl (fun b entry => { b with hyperedgeSlack := mark b.hyperedgeSlack entry }) b
        = { b with hyperedgeSlack := entries.foldl mark b.hyperedgeSlack } := by
    induction entries generalizing b with
    | nil => rfl
    | cons entry entries ih => rw [List.foldl_cons, ih, List.foldl_cons]
  unfold annotate
  rw [foldlM_eq_ok
    (P := fun (b : Builder Double) entry => ∀ slack, entry.1 = some slack →
      entry.2 < b.hyperedges.size ∧ Scalar.isFinite slack = true)
    (g := fun b entry => { b with hyperedgeSlack := mark b.hyperedgeSlack entry })]
  . constructor
    . rintro ⟨_, e⟩ hentry slack rfl
      rw [List.mem_zipIdx_iff_getElem?, Array.getElem?_toList] at hentry
      have he := (Array.getElem?_eq_some_iff.mp hentry).1
      exact ⟨by omega, hfinite slack (Array.mem_of_getElem? hentry)⟩
    . rw [hrun, hnone, ← Array.length_toList, foldl_mark]
  . rintro b ⟨entry, e⟩ next
    cases entry with
    | none => simp [mark]
    | some slack =>
      dsimp only
      rw [Builder.setHyperedgeSlack_eq_ok]
      simp [mark, and_assoc]
  . intro b entry other
    rfl

structure WorstSlacks (timing : Timing Double) : Prop where
  base : timing.baseHyperedgeSlack = timing.hyperedgeSlack
  worst : ∀ (e : Nat) slack, timing.hyperedgeSlack[e]? = some slack →
    (Through timing.paths e slack ∧ ∀ other, Through timing.paths e other → slack ≤ other)
      ∨
    (∀ path ∈ timing.paths, e ∉ path.hyperedges) ∧ slack = timing.clockPeriod

structure Generated (shape : RandomShape) (graph : Hypergraph Double) : Prop where
  reachable : graph.Reachable
  numVertices : graph.numVertices = shape.numVertices
  numHyperedges : graph.numHyperedges = shape.numHyperedges
  numPaths : graph.numPaths = if shape.numHyperedges = 0 then 0 else shape.numPaths
  pins : ∀ h ∈ graph.hyperedges,
    h.pins.Nodup ∧ 2 ≤ h.pins.length ∧ h.pins.length ≤ shape.pinLimit
  walks : ∀ timing, graph.timing = some timing → ∀ path ∈ timing.paths,
    path.vertices.length ≤ max 1 shape.maxPathLength ∧ path.Walks graph.hyperedges
  slack : ∀ timing, graph.timing = some timing →
    timing.clockPeriod = shape.clockPeriod ∧ WorstSlacks timing

theorem reachable_annotate {b next : Builder Double} {slacks : List (Option Double)}
    (hb : b.Reachable) (h : annotate b slacks = .ok next) : next.Reachable := by
  unfold annotate at h
  refine foldlM_induction (P := Builder.Reachable) ?_ hb h
  rintro b ⟨entry, e⟩ _ next hb hstep
  cases entry with
  | none =>
    cases hstep
    exact hb
  | some slack => exact hb.setHyperedgeSlack e slack hstep

theorem timing?_drawable {b : Builder Double} (h : shape.Drawable)
    (hperiod : b.clockPeriod = if shape.numPaths = 0 then none else some shape.clockPeriod)
    (hplain : shape.numPaths = 0 → b.hasAnnotations = false) :
    b.timing? = .ok (if shape.numPaths = 0 then none else some (b.timing shape.clockPeriod)) := by
  unfold Builder.timing?
  rw [hperiod]
  by_cases hzero : shape.numPaths = 0
  . rw [if_pos hzero, if_pos hzero]
    dsimp only
    rw [hplain hzero]
    rfl
  . rw [if_neg hzero, if_neg hzero]
    obtain ⟨hlt, _, hfinite, _⟩ := Random.isDrawable_iff.mp (h.slack hzero)
    exact if_pos ⟨hfinite, Double.pos_of_neg_half_mul_lt hfinite hlt⟩

def annotated (drawn : Builder Double × Array (Option Double)) : Builder Double :=
  { drawn.1 with hyperedgeSlack := drawn.2 }

section

variable {n : Nat} {drawn : Builder Double × Array (Option Double)}

theorem Traced.annotated_eq (h : Traced shape laid n drawn) :
    annotated drawn = { laid with hyperedgeSlack := drawn.2, paths := drawn.1.paths } := by
  unfold annotated
  rw [h.frame]

theorem Traced.annotate_eq (h : Traced shape laid n drawn)
    (hlaid : laid.Laid shape shape.numVertices pinsOf) :
    annotate drawn.1 drawn.2.toList = .ok (annotated drawn) := by
  apply annotate_eq_ok
  . rw [h.frame, h.size, hlaid.size_hyperedges]
    exact hlaid.slack
  . rw [h.size, h.frame]
  . intro slack hmem
    obtain ⟨e, he, heq⟩ := Array.mem_iff_getElem.mp hmem
    obtain ⟨path, hpath, _, rfl⟩ := (h.worst e _ (Array.getElem?_eq_some_iff.mpr ⟨he, heq⟩)).left
    exact h.finite path hpath

theorem Traced.hasAnnotations_eq (h : Traced shape laid n drawn) (hn : n = 0) :
    (annotated drawn).hasAnnotations = false := by
  have hpaths : drawn.1.paths = #[] := Array.size_eq_zero_iff.mp (h.count.trans hn)
  have hslack : drawn.2.any Option.isSome = false := by
    rw [Array.any_eq_false]
    intro e he
    have hworst := h.worst e drawn.2[e] (Array.getElem?_eq_getElem he)
    cases heq : drawn.2[e] with
    | none => simp
    | some slack =>
      rw [heq, hpaths] at hworst
      obtain ⟨path, hpath, _⟩ := hworst.left
      exact absurd hpath (Array.not_mem_empty path)
  unfold Builder.hasAnnotations annotated
  dsimp only
  rw [hpaths, hslack]
  rfl

theorem Traced.worstSlacks (h : Traced shape laid n drawn) :
    WorstSlacks ((annotated drawn).timing shape.clockPeriod) where
  base := rfl
  worst e slack hget := by
    unfold Builder.timing annotated at hget ⊢
    dsimp only at hget ⊢
    rw [Array.getElem?_map, Option.map_eq_some_iff] at hget
    obtain ⟨worst, hget, rfl⟩ := hget
    have hworst := h.worst e worst hget
    cases worst with
    | none =>
      refine .inr ⟨?_, rfl⟩
      intro path hpath he
      exact hworst path.slack ⟨path, hpath, he, rfl⟩
    | some slack => exact .inl hworst

theorem Traced.build_eq (htraced : Traced shape laid n drawn) (h : shape.Drawable)
    (hlaid : laid.Laid shape shape.numVertices pinsOf) (hn : shape.numPaths = 0 → n = 0) :
    (annotated drawn).build = .ok {
      dimensions := shape.dimensions
      vertices := laid.vertices
      hyperedges := laid.hyperedges
      vertexHyperedges := IndexSet.invert (laid.hyperedges.toList.map (·.pins)) laid.vertices.size
      timing :=
        if shape.numPaths = 0 then none
        else some ((annotated drawn).timing shape.clockPeriod) } := by
  have hperiod : (annotated drawn).clockPeriod = laid.clockPeriod := by
    rw [htraced.annotated_eq]
  have htiming := timing?_drawable h (hperiod.trans hlaid.clockPeriod)
    fun hzero => htraced.hasAnnotations_eq (hn hzero)
  rw [Builder.build_eq_ok]
  simp only [htiming, Except.ok.injEq, exists_eq_left']
  rw [htraced.annotated_eq]
  dsimp only
  rw [hlaid.dimensions]
  exact ⟨Nat.ne_of_gt h.vertexDimensions, Nat.ne_of_gt h.hyperedgeDimensions, rfl⟩

theorem Traced.build (htraced : Traced shape laid n drawn) (h : shape.Drawable)
    (hlaid : laid.Laid shape shape.numVertices pinsOf) (hcount : pinsOf.size = shape.numHyperedges)
    (hn : n = if shape.numHyperedges = 0 then 0 else shape.numPaths) :
    ∃ graph, (annotate drawn.1 drawn.2.toList).bind Builder.build = .ok graph ∧
      Generated shape graph := by
  have hnone : shape.numPaths = 0 → n = 0 := by
    intro hzero
    rw [hn, hzero, ite_self]
  have hannotate := htraced.annotate_eq hlaid
  have hbuild := htraced.build_eq h hlaid hnone
  have htimed : ∀ timing,
      (if shape.numPaths = 0 then none else some ((annotated drawn).timing shape.clockPeriod))
        = some timing →
      timing = (annotated drawn).timing shape.clockPeriod := by
    intro timing ht
    split at ht
    . cases ht
    . exact (Option.some.inj ht).symm
  refine ⟨_, by rw [hannotate]; exact hbuild, ?_⟩
  constructor
  . exact .build (reachable_annotate htraced.reachable hannotate) hbuild
  . exact hlaid.vertices
  . exact hlaid.size_hyperedges.trans hcount
  . rw [← hn]
    unfold numPaths
    dsimp only
    by_cases hzero : shape.numPaths = 0
    . rw [if_pos hzero, hnone hzero]
    . rw [if_neg hzero]
      exact htraced.count
  . exact hlaid.pins_bounds
  . intro timing ht path hpath
    rw [htimed timing ht] at hpath
    exact (htraced.walks path hpath).symm
  . intro timing ht
    rw [htimed timing ht]
    exact ⟨rfl, htraced.worstSlacks⟩

end

theorem laid_start (shape : RandomShape) :
    Builder.Laid shape 0 #[]
      (if shape.numPaths = 0 then
        (Builder.empty shape.dimensions.vertex shape.dimensions.hyperedge).withPlacementDimensions
          shape.dimensions.placement
      else
        ((Builder.empty shape.dimensions.vertex shape.dimensions.hyperedge).withPlacementDimensions
          shape.dimensions.placement).withClockPeriod shape.clockPeriod) := by
  have hempty := (Builder.Reachable.empty (α := Double) shape.dimensions.vertex
    shape.dimensions.hyperedge).withPlacementDimensions shape.dimensions.placement
  have hpins : (#[] : Array (Hyperedge Double)).map (·.pins)
      = (#[] : Array (List Nat)).map IndexSet.ofList := by
    rw [Array.map_empty, Array.map_empty]
  split
  . next hzero =>
    exact ⟨hempty, rfl, (if_pos hzero).symm, rfl, hpins, rfl, rfl, by simp⟩
  . next hzero =>
    exact ⟨hempty.withClockPeriod _, rfl, (if_neg hzero).symm, rfl, hpins, rfl, rfl,
      by simp⟩

theorem traced_start {b : Builder Double} (h : b.Laid shape shape.numVertices pinsOf) :
    Traced shape b 0 (b, Array.replicate b.hyperedges.size none) := by
  have hpaths := h.paths
  constructor
  . exact h.reachable
  . rfl
  . simp [hpaths]
  . simp [hpaths]
  . simp [hpaths]
  . simp
  . intro e worst hget
    have hnone : worst = none := by
      obtain ⟨_, heq⟩ := Array.getElem?_eq_some_iff.mp hget
      rw [← heq, Array.getElem_replicate]
    subst hnone
    rintro slack ⟨path, hpath, _⟩
    dsimp only at hpath
    rw [hpaths] at hpath
    exact Array.not_mem_empty path hpath

theorem randomFrom_generated (hs : sampler.Sound) (h : shape.Drawable) (source : σ) :
    ∃ graph, ((randomFrom sampler shape).run.run source).1 = .ok graph ∧ Generated shape graph := by
  suffices hensures : Ensures (randomFrom sampler shape) (Generated shape) by
    exact hensures.drawn source
  have htwo : ¬shape.numVertices < 2 := not_lt.mpr h.vertices
  unfold randomFrom
  rw [if_neg htwo]
  refine ensures_bind (Ensures.foldlM (fun n b => Builder.Laid shape n #[] b)
    (laid_start shape) (fun _ _ _ _ hb => ensures_drawVertex hs hb)) ?_
  intro b hb
  rw [List.length_replicate] at hb
  refine ensures_bind (Ensures.foldlM (fun m drawn =>
    Builder.Laid shape shape.numVertices drawn.2 drawn.1 ∧ drawn.2.size = m) ⟨hb, rfl⟩ ?_) ?_
  . rintro m _ ⟨b, pinsOf⟩ _ ⟨hb, rfl⟩
    exact ensures_drawHyperedge hs h.vertices hb
  . rintro ⟨laid, pinsOf⟩ ⟨hlaid, hcount⟩
    rw [List.length_replicate] at hcount
    have hstart := traced_start hlaid
    have hsizes := hlaid.size_hyperedges.trans hcount
    rw [hsizes] at hstart
    dsimp only
    split
    . next hnone =>
      obtain ⟨graph, hbuild, hgenerated⟩ := hstart.build h hlaid hcount (by
        obtain hzero | hzero := hnone
        . rw [hzero, ite_self]
        . rw [if_pos hzero])
      have hplain : annotated (laid, Array.replicate shape.numHyperedges none) = laid := by
        unfold annotated
        rw [← hcount, ← hlaid.slack]
      have hannotate := (hstart.annotate_eq hlaid).trans (congrArg Except.ok hplain)
      rw [hannotate] at hbuild
      exact TryDraw.ensures_ofResult hbuild hgenerated
    . next hsome =>
      rw [not_or] at hsome
      refine ensures_bind (Ensures.foldlM (fun n drawn => Traced shape laid n drawn) hstart ?_) ?_
      . intro _ _ _ _ hdrawn
        exact ensures_drawPath hs hlaid h.vertices (h.slack hsome.left) hdrawn
      . intro drawn hdrawn
        rw [List.length_replicate] at hdrawn
        obtain ⟨graph, hbuild, hgenerated⟩ := hdrawn.build h hlaid hcount (if_neg hsome.right).symm
        exact TryDraw.ensures_ofResult hbuild hgenerated

theorem randomFrom_generated_seeded :
    Sampler.words.Sound ∧ RandomShape.Drawable { RandomShape.standard with numPaths := 5 } ∧
      ∃ graph, ((randomFrom .words { RandomShape.standard with numPaths := 5 }).run.run
          (Random.Source.ofSeed 1)).1 = .ok graph ∧
        Generated { RandomShape.standard with numPaths := 5 } graph := by
  have h : RandomShape.Drawable { RandomShape.standard with numPaths := 5 } := {
    vertices := by decide
    vertexDimensions := by decide
    hyperedgeDimensions := by decide
    slack := fun _ => by decide +kernel
  }
  refine ⟨Sampler.sound_words, h, ?_⟩
  exact randomFrom_generated Sampler.sound_words h (Random.Source.ofSeed 1)

end Hypergraph

end CircuitPartition
