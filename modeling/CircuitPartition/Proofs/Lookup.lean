import CircuitPartition.Error
import Mathlib.Data.List.Basic

/-!
Computations that may fail, step by step, and traversals of lists by look-ups. Where these all find
something, they come out as the plain traversals.
-/

namespace CircuitPartition

variable {α β γ ε : Type}

@[simp]
theorem ok_bind (b : β) (f : β → Except ε γ) : (Except.ok b >>= f) = f b := rfl

@[simp]
theorem error_bind (e : ε) (f : β → Except ε γ) : (Except.error e >>= f) = .error e := rfl

@[simp]
theorem pure_eq_ok (b : β) : (pure b : Except ε β) = .ok b := rfl

@[simp]
theorem throw_eq_error (e : ε) : (throw e : Except ε β) = .error e := rfl

theorem bind_eq_ok {x : Except ε β} {f : β → Except ε γ} {c : γ} :
    (x >>= f) = .ok c ↔ ∃ b, x = .ok b ∧ f b = .ok c := by
  cases x with
  | error e => simp
  | ok b => simp

theorem bind_congr_of_ok {x : Except ε β} {f g : β → Except ε γ}
    (h : ∀ b, x = .ok b → f b = g b) : (x >>= f) = (x >>= g) := by
  cases x with
  | error e => rw [error_bind, error_bind]
  | ok b => exact h b rfl

theorem check_bind_eq_ok {x : Except ε Unit} {f : Unit → Except ε γ} {c : γ} :
    (x >>= f) = .ok c ↔ x = .ok () ∧ f () = .ok c := by
  cases x with
  | error e => simp
  | ok b => simp

theorem forM_eq_ok {f : β → Except ε Unit} {bs : List β} :
    bs.forM f = .ok () ↔ ∀ b ∈ bs, f b = .ok () := by
  induction bs with
  | nil => simp [List.forM]
  | cons b bs ih =>
    unfold List.forM
    rw [check_bind_eq_ok, List.forall_mem_cons, ← ih]

theorem foldlM_induction {f : β → α → Except ε β} {P : β → Prop} {as : List α}
    (hstep : ∀ b, ∀ a ∈ as, ∀ next, P b → f b a = .ok next → P next) {b c : β} (hb : P b)
    (h : as.foldlM f b = .ok c) : P c := by
  induction as generalizing b with
  | nil =>
    rw [List.foldlM_nil, pure_eq_ok, Except.ok.injEq] at h
    rw [← h]
    exact hb
  | cons a as ih =>
    rw [List.foldlM_cons, bind_eq_ok] at h
    obtain ⟨next, hnext, hrest⟩ := h
    apply ih _ (hstep b a List.mem_cons_self next hb hnext) hrest
    intro b a ha
    exact hstep b a (List.mem_cons_of_mem _ ha)

@[simp]
theorem some_bind (b : β) (f : β → Option γ) : (some b >>= f) = f b := rfl

@[simp]
theorem Fault.liftM_some (b : β) : (liftM (some b) : Except Fault β) = .ok b := rfl

theorem Fault.liftM_eq_ok {x : Option β} {b : β} :
    (liftM x : Except Fault β) = .ok b ↔ x = some b := by
  cases x with
  | none => exact ⟨nofun, nofun⟩
  | some c => simp

@[simp]
theorem Failure.liftM_some (b : β) : (liftM (some b) : Except (Failure α) β) = .ok b := rfl

@[simp]
theorem Failure.liftM_ok (b : β) :
    (liftM (Except.ok b : Except Fault β) : Except (Failure α) β) = .ok b := rfl

@[simp]
theorem Failure.liftM_precondition_ok (b : β) :
    (liftM (Except.ok b : Except (PreconditionError α) β) : Except (Failure α) β) = .ok b := rfl

@[simp]
theorem Failure.ofLookup_some (b : β) :
    (Failure.ofLookup (some b) : Except (Failure α) β) = .ok b :=
  rfl

theorem mapError_eq_ok {δ : Type} {f : ε → δ} {x : Except ε β} {b : β} :
    x.mapError f = .ok b ↔ x = .ok b := by
  cases x with
  | error e => simp [Except.mapError]
  | ok b => simp [Except.mapError]

theorem Failure.liftM_graph_eq_ok {x : Except (GraphError α) β} {b : β} :
    (liftM x : Except (Failure α) β) = .ok b ↔ x = .ok b :=
  mapError_eq_ok

theorem Failure.liftM_config_eq_ok {x : Except ConfigError β} {b : β} :
    (liftM x : Except (Failure α) β) = .ok b ↔ x = .ok b :=
  mapError_eq_ok

theorem Failure.liftM_precondition_eq_ok {x : Except (PreconditionError α) β} {b : β} :
    (liftM x : Except (Failure α) β) = .ok b ↔ x = .ok b :=
  mapError_eq_ok

theorem Failure.liftM_fault_eq_ok {x : Except Fault β} {b : β} :
    (liftM x : Except (Failure α) β) = .ok b ↔ x = .ok b :=
  mapError_eq_ok

theorem Failure.liftM_fault_eq_error {x : Except Fault β} {failure : Failure α}
    (h : (liftM x : Except (Failure α) β) = .error failure) :
    ∃ fault, failure = .fault fault := by
  cases x with
  | ok b => simp at h
  | error fault => exact ⟨fault, (Except.error.inj h).symm⟩

theorem mapM_of_found {f : α → Option β} {g : α → β} {as : List α}
    (h : ∀ a ∈ as, f a = some (g a)) : as.mapM f = some (as.map g) := by
  induction as with
  | nil => rfl
  | cons a as ih =>
    rw [List.forall_mem_cons] at h
    rw [List.mapM_cons, h.left, ih h.right]
    rfl

theorem array_mapM_of_found {f : α → Option β} {g : α → β} {as : Array α}
    (h : ∀ a ∈ as, f a = some (g a)) : as.mapM f = some (as.map g) := by
  have hlist : as.toList.mapM f = some (as.toList.map g) := by
    apply mapM_of_found
    simpa using h
  rw [Array.mapM_eq_mapM_toList, hlist]
  simp [← Array.toList_map]

theorem foldlM_congr {f g : β → α → Option β} {as : List α}
    (h : ∀ b, ∀ a ∈ as, f b a = g b a) (b : β) : as.foldlM f b = as.foldlM g b := by
  induction as generalizing b with
  | nil => rfl
  | cons a as ih =>
    rw [List.foldlM_cons, List.foldlM_cons, h b a List.mem_cons_self]
    congr
    funext b
    apply ih
    intro b a ha
    exact h b a (List.mem_cons_of_mem _ ha)

theorem foldlM_of_found {f : β → α → Option β} {g : β → α → β} {as : List α}
    (h : ∀ b, ∀ a ∈ as, f b a = some (g b a)) (b : β) : as.foldlM f b = some (as.foldl g b) := by
  rw [foldlM_congr h]
  exact List.foldlM_pure

theorem filterAuxM_of_found {f : α → Option Bool} {p : α → Bool} {as : List α}
    (h : ∀ a ∈ as, f a = some (p a)) (acc : List α) :
    as.filterAuxM f acc = some ((as.filter p).reverse ++ acc) := by
  induction as generalizing acc with
  | nil => rfl
  | cons a as ih =>
    rw [List.forall_mem_cons] at h
    unfold List.filterAuxM
    rw [h.left, some_bind, ih h.right]
    cases hp : p a with
    | true => simp [hp]
    | false => simp [hp]

theorem filterM_of_found {f : α → Option Bool} {p : α → Bool} {as : List α}
    (h : ∀ a ∈ as, f a = some (p a)) : as.filterM f = some (as.filter p) := by
  unfold List.filterM
  rw [filterAuxM_of_found h]
  simp

theorem forall_mem_set! {P : β → Prop} {bs : Array β} (h : ∀ b ∈ bs, P b) {value : β}
    (hvalue : P value) (i : Nat) : ∀ b ∈ bs.set! i value, P b := by
  intro b hb
  rw [Array.set!_eq_setIfInBounds] at hb
  cases Array.mem_or_eq_of_mem_setIfInBounds hb with
  | inl hmem => exact h b hmem
  | inr heq =>
    rw [heq]
    exact hvalue

end CircuitPartition
