import CircuitPartition.Proofs.Cost.Slack
import CircuitPartition.Proofs.Cost.Walk

/-!
Queries that refuse a solution that does not fit, and look up nothing that is not there when it does.
-/

namespace CircuitPartition

variable {α : Type}

def Failure.IsRefusal (failure : Failure α) : Prop :=
  ∀ fault, failure ≠ .fault fault

structure Safe {β : Type} (fits : Prop) (possible : Fault → Prop) (x : Except (Failure α) β) :
    Prop where
  refuses : ¬fits → ∃ failure, x = .error failure ∧ failure.IsRefusal
  fault : ∀ fault, x = .error (.fault fault) → possible fault

namespace Safe

variable {β γ : Type} {fits : Prop} {possible : Fault → Prop}

theorem ok (hfits : fits) (b : β) : Safe fits possible (.ok b : Except (Failure α) β) :=
  ⟨fun hnot => absurd hfits hnot, nofun⟩

theorem refusal {failure : Failure α} (h : failure.IsRefusal) :
    Safe fits possible (.error failure : Except (Failure α) β) := by
  refine ⟨fun _ => ⟨failure, rfl, h⟩, ?_⟩
  intro fault hfault
  exact absurd (Except.error.inj hfault) (h fault)

theorem fits_of_ok {b : β} (h : Safe fits possible (.ok b : Except (Failure α) β)) : fits := by
  by_contra hfits
  obtain ⟨_, herror, _⟩ := h.refuses hfits
  simp at herror

theorem error {failure : Failure α}
    (h : Safe fits possible (.error failure : Except (Failure α) β)) :
    Safe fits possible (.error failure : Except (Failure α) γ) := by
  constructor
  . intro hfits
    obtain ⟨other, hother, hrefusal⟩ := h.refuses hfits
    rw [Except.error.injEq] at hother
    subst hother
    exact ⟨failure, rfl, hrefusal⟩
  . intro fault hfault
    exact h.fault fault (congrArg Except.error (Except.error.inj hfault))

theorem bind {x : Except (Failure α) β} {f : β → Except (Failure α) γ}
    (hx : Safe fits possible x) (hf : ∀ b, x = .ok b → Safe fits possible (f b)) :
    Safe fits possible (x >>= f) := by
  cases x with
  | error failure => exact hx.error
  | ok b => exact hf b rfl

theorem imp {other : Fault → Prop} {x : Except (Failure α) β} (h : Safe fits possible x)
    (himp : ∀ fault, possible fault → other fault) : Safe fits other x :=
  ⟨h.refuses, fun fault hfault => himp fault (h.fault fault hfault)⟩

theorem discard {x : Except (Failure α) β} (h : Safe fits possible x) :
    Safe fits possible (discard x : Except (Failure α) Unit) := by
  cases x with
  | error failure => exact h.error
  | ok b => exact ok h.fits_of_ok ()

end Safe

namespace CostModel

variable {model : CostModel α} {graph : Hypergraph α} {solution : Solution}

theorem isRefusal_of_checkSolution {failure : Failure α}
    (h : model.checkSolution graph solution = .error failure) : failure.IsRefusal := by
  unfold checkSolution at h
  cases hcompatible : model.checkCompatible graph with
  | error cause =>
    rw [hcompatible] at h
    rw [← Except.error.inj h]
    exact nofun
  | ok _ =>
    rw [hcompatible, Failure.liftM_config_eq_ok.mpr rfl, ok_bind] at h
    simp only [throw_eq_error, error_bind] at h
    split at h
    . rw [← Except.error.inj h]
      exact nofun
    . split at h
      . rw [← Except.error.inj h]
        exact nofun
      . simp at h

structure Guarded {β : Type} (model : CostModel α) (graph : Hypergraph α) (solution : Solution)
    (x : Except (Failure α) β) : Prop where
  refused : ∀ failure, model.checkSolution graph solution = .error failure → x = .error failure
  answered : model.Admits graph solution → ∃ b, x = .ok b

variable (model graph solution) in
theorem safe_checkSolution (possible : Fault → Prop) :
    Safe (model.Admits graph solution) possible (model.checkSolution graph solution) := by
  cases hcheck : model.checkSolution graph solution with
  | error failure => exact .refusal (isRefusal_of_checkSolution hcheck)
  | ok _ => exact .ok (checkSolution_eq_ok.mp hcheck) ()

theorem Guarded.safe {β : Type} {x : Except (Failure α) β} (h : model.Guarded graph solution x)
    (possible : Fault → Prop) : Safe (model.Admits graph solution) possible x := by
  cases hcheck : model.checkSolution graph solution with
  | error failure =>
    rw [h.refused failure hcheck]
    exact .refusal (isRefusal_of_checkSolution hcheck)
  | ok _ =>
    have hadmits := checkSolution_eq_ok.mp hcheck
    obtain ⟨b, hb⟩ := h.answered hadmits
    rw [hb]
    exact .ok hadmits b

theorem Guarded.of_check {β : Type} {x : Unit → Except (Failure α) β}
    (h : model.Admits graph solution → ∃ b, (model.checkSolution graph solution >>= x) = .ok b) :
    model.Guarded graph solution (model.checkSolution graph solution >>= x) where
  refused failure hcheck := by rw [hcheck, error_bind]
  answered := h

variable (model solution) (hg : graph.WellFormed)

include hg

theorem guarded_netDegrees : model.Guarded graph solution (model.netDegrees graph solution) :=
  .of_check fun h => ⟨_, h.netDegrees hg⟩

theorem guarded_cutHyperedges : model.Guarded graph solution (model.cutHyperedges graph solution) :=
  .of_check fun h => ⟨_, h.cutHyperedges hg⟩

variable [Scalar α]

theorem guarded_blockBalance : model.Guarded graph solution (model.blockBalance graph solution) :=
  .of_check fun h => ⟨_, h.blockBalance hg⟩

theorem guarded_pathCosts : model.Guarded graph solution (model.pathCosts graph solution) :=
  .of_check fun h => ⟨_, h.pathCosts hg⟩

theorem guarded_timingCuts : model.Guarded graph solution (model.timingCuts graph solution) :=
  .of_check fun h => ⟨_, h.timingCuts hg⟩

theorem guarded_score : model.Guarded graph solution (model.score graph solution) where
  refused failure h := by
    unfold score
    rw [(guarded_cutHyperedges model solution hg).refused failure h, error_bind]
  answered h := ⟨_, h.score hg⟩

theorem safe_pathCost (p : Nat) (possible : Fault → Prop) :
    Safe (model.Admits graph solution) possible (model.pathCost graph p solution) := by
  unfold pathCost
  cases Nat.lt_or_ge p graph.numPaths with
  | inl hp =>
    rw [if_neg (by omega)]
    apply (model.safe_checkSolution graph solution possible).bind
    intro _ hcheck
    have hadmits := checkSolution_eq_ok.mp hcheck
    rw [hadmits.pathCostWith? hg hp]
    exact .ok hadmits _
  | inr hp =>
    rw [if_pos hp]
    exact .refusal nofun

theorem safe_updateTiming (possible : Fault → Prop) :
    Safe (model.Admits graph solution) possible (model.updateTiming graph solution).outcome := by
  cases hcheck : model.checkSolution graph solution with
  | error failure =>
    unfold updateTiming
    rw [hcheck]
    exact .refusal (isRefusal_of_checkSolution hcheck)
  | ok _ =>
    have hadmits := checkSolution_eq_ok.mp hcheck
    cases ht : graph.timing with
    | none =>
      unfold updateTiming
      rw [hcheck, ht]
      exact .ok hadmits ()
    | some timing =>
      rcases model.updateTiming_split hg ht hadmits with hdone | hpath | hhyperedge
      . rw [hdone.right.right]
        exact .ok hadmits ()
      . rw [hpath.right]
        exact .refusal nofun
      . rw [hhyperedge.right.right]
        exact .refusal nofun

end CostModel

end CircuitPartition
