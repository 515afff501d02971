import CircuitPartition.Graph.Random
import Mathlib.Data.List.Basic

/-!
What draws give whatever the source of random numbers. For draws that can fail this says that they
do not.
-/

namespace CircuitPartition

class Ensuring (m : Type → Type) [Monad m] where
  Ensures {β : Type} : m β → (β → Prop) → Prop
  ensures_pure {β : Type} {b : β} {P : β → Prop} : P b → Ensures (pure b) P
  ensures_bind {β γ : Type} {x : m β} {f : β → m γ} {P : β → Prop} {Q : γ → Prop} :
    Ensures x P → (∀ b, P b → Ensures (f b) Q) → Ensures (x >>= f) Q

export Ensuring (Ensures ensures_pure ensures_bind)

variable {α β σ : Type}

section Loops

variable {m : Type → Type} [Monad m] [LawfulMonad m] [Ensuring m] {P Q : β → Prop}

theorem Ensures.mono {x : m β} (h : Ensures x P) (himp : ∀ b, P b → Q b) : Ensures x Q := by
  rw [← bind_pure x]
  exact ensures_bind h fun b hb => ensures_pure (himp b hb)

theorem Ensures.mapM {f : α → m β} {as : List α} (h : ∀ a ∈ as, Ensures (f a) P) :
    Ensures (as.mapM f) fun bs => bs.length = as.length ∧ ∀ b ∈ bs, P b := by
  induction as with
  | nil =>
    rw [List.mapM_nil]
    exact ensures_pure ⟨rfl, by simp⟩
  | cons a as ih =>
    rw [List.forall_mem_cons] at h
    rw [List.mapM_cons]
    apply ensures_bind h.left
    intro b hb
    apply ensures_bind (ih h.right)
    rintro bs ⟨hlength, hbs⟩
    apply ensures_pure
    exact ⟨by rw [List.length_cons, List.length_cons, hlength], List.forall_mem_cons.mpr ⟨hb, hbs⟩⟩

omit [LawfulMonad m] in
theorem Ensures.foldlM (P : Nat → β → Prop) {f : β → α → m β} {as : List α} {b : β} (hb : P 0 b)
    (hstep : ∀ (i : Nat) a b, as[i]? = some a → P i b → Ensures (f b a) (P (i + 1))) :
    Ensures (as.foldlM f b) (P as.length) := by
  induction as generalizing P b with
  | nil =>
    rw [List.foldlM_nil]
    exact ensures_pure hb
  | cons a as ih =>
    rw [List.foldlM_cons]
    apply ensures_bind (hstep 0 a b rfl hb)
    intro next hnext
    apply ih (fun i => P (i + 1)) hnext
    intro i a b hget
    exact hstep (i + 1) a b hget

end Loops

structure Draws (draw : StateM σ β) (P : β → Prop) : Prop where
  drawn : ∀ source, P (draw.run source).1

structure Succeeds (draw : TryDraw σ β) (P : β → Prop) : Prop where
  drawn : ∀ source, ∃ b, (draw.run.run source).1 = .ok b ∧ P b

instance : Ensuring (StateM σ) where
  Ensures := Draws
  ensures_pure h := ⟨fun _ => h⟩
  ensures_bind {_ _ x _ _ _} h hnext :=
    ⟨fun source => (hnext _ (h.drawn source)).drawn (x.run source).2⟩

theorem TryDraw.run_bind_of_ok {x : TryDraw σ β} {f : β → TryDraw σ α} {b : β} {source : σ}
    (h : (x.run.run source).1 = .ok b) :
    (x >>= f).run.run source = (f b).run.run (x.run.run source).2 := by
  have hbind : (x >>= f).run.run source
      = ((ExceptT.bindCont f (x.run.run source).1).run (x.run.run source).2) := rfl
  rw [hbind, h]
  rfl

instance : Ensuring (TryDraw σ) where
  Ensures := Succeeds
  ensures_pure h := ⟨fun _ => ⟨_, rfl, h⟩⟩
  ensures_bind h hnext := by
    constructor
    intro source
    obtain ⟨b, hok, hb⟩ := h.drawn source
    rw [TryDraw.run_bind_of_ok hok]
    exact (hnext b hb).drawn _

namespace TryDraw

variable {P : β → Prop}

theorem ensures_lift {draw : StateM σ β} (h : Ensures draw P) :
    Ensures (liftM draw : TryDraw σ β) P :=
  ⟨fun source => ⟨_, rfl, h.drawn source⟩⟩

theorem ensures_ofResult {result : Except (GraphError Double) β} {b : β} (h : result = .ok b)
    (hb : P b) : Ensures (TryDraw.ofResult result : TryDraw σ β) P := by
  subst h
  exact ⟨fun _ => ⟨b, rfl, hb⟩⟩

end TryDraw

end CircuitPartition
