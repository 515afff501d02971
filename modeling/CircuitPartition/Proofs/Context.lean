import CircuitPartition.Report
import Mathlib.Data.List.Induction
import Mathlib.Data.String.Basic

/-!
Contexts as finite maps. Their keys ascend, whatever has been added in whatever order, and a key has
the value that it was given last; there is only one such context.
-/

namespace CircuitPartition.Context

def Ascending (context : Context) : Prop :=
  context.Pairwise fun a b => a.1 < b.1

def lastValue? (entries : List (String × String)) (key : String) : Option String :=
  entries.reverse.lookup key

theorem lookup_cons (context : Context) (key value k : String) :
    ((key, value) :: context).lookup k = if k = key then some value else context.lookup k := by
  rw [List.lookup_cons]
  cases h : k == key with
  | true => rw [if_pos (eq_of_beq h)]
  | false => rw [if_neg (ne_of_beq_false h)]

theorem lookup_insert (context : Context) (key value k : String) :
    (context.insert key value).lookup k = if k = key then some value else context.lookup k := by
  induction context with
  | nil => exact lookup_cons [] key value k
  | cons entry context ih =>
    obtain ⟨first, old⟩ := entry
    unfold insert
    split
    . exact lookup_cons _ key value k
    . split
      . next heq =>
        rw [lookup_cons, lookup_cons, heq]
        split <;> rfl
      . next hne =>
        rw [lookup_cons, lookup_cons, ih]
        split
        . next hfirst => rw [if_neg (hfirst ▸ Ne.symm hne)]
        . rfl

theorem mem_insert {context : Context} {key value : String} {entry : String × String}
    (h : entry ∈ context.insert key value) : entry = (key, value) ∨ entry ∈ context := by
  induction context with
  | nil => simpa [insert] using h
  | cons head context ih =>
    obtain ⟨first, old⟩ := head
    unfold insert at h
    split at h
    . exact List.mem_cons.mp h
    . split at h
      . exact (List.mem_cons.mp h).imp_right (List.mem_cons_of_mem _)
      . cases List.mem_cons.mp h with
        | inl heq => exact .inr (heq ▸ List.mem_cons_self)
        | inr hmem => exact (ih hmem).imp_right (List.mem_cons_of_mem _)

theorem Ascending.insert {context : Context} (h : context.Ascending) (key value : String) :
    (context.insert key value).Ascending := by
  induction context with
  | nil => exact List.pairwise_singleton _ _
  | cons head context ih =>
    obtain ⟨first, old⟩ := head
    obtain ⟨hfirst, hrest⟩ := List.pairwise_cons.mp h
    unfold Context.insert
    split
    . next hlt =>
      refine List.pairwise_cons.mpr ⟨List.forall_mem_cons.mpr ⟨hlt, ?_⟩, h⟩
      intro entry hentry
      exact hlt.trans (hfirst entry hentry)
    . next hge =>
      split
      . next heq =>
        subst heq
        exact List.pairwise_cons.mpr ⟨hfirst, hrest⟩
      . next hne =>
        refine List.pairwise_cons.mpr ⟨?_, ih hrest⟩
        intro entry hentry
        cases mem_insert hentry with
        | inl heq =>
          rw [heq]
          exact lt_of_le_of_ne (not_lt.mp hge) (Ne.symm hne)
        | inr hmem => exact hfirst entry hmem

theorem ofList_concat (entries : List (String × String)) (key value : String) :
    ofList (entries ++ [(key, value)]) = (ofList entries).insert key value := by
  simp [ofList]

theorem ascending_ofList (entries : List (String × String)) : (ofList entries).Ascending := by
  induction entries using List.reverseRecOn with
  | nil => exact List.Pairwise.nil
  | append_singleton entries entry ih =>
    obtain ⟨key, value⟩ := entry
    rw [ofList_concat]
    exact ih.insert key value

theorem lookup_ofList (entries : List (String × String)) (key : String) :
    (ofList entries).lookup key = lastValue? entries key := by
  induction entries using List.reverseRecOn with
  | nil => rfl
  | append_singleton entries entry ih =>
    obtain ⟨last, value⟩ := entry
    rw [ofList_concat, lookup_insert, ih]
    unfold lastValue?
    rw [List.reverse_append, List.reverse_singleton, List.singleton_append, lookup_cons]

theorem Ascending.lookup_eq_some_iff {context : Context} (h : context.Ascending)
    {key value : String} : context.lookup key = some value ↔ (key, value) ∈ context := by
  induction context with
  | nil => simp
  | cons head context ih =>
    obtain ⟨first, old⟩ := head
    obtain ⟨hfirst, hrest⟩ := List.pairwise_cons.mp h
    rw [lookup_cons, List.mem_cons, ← ih hrest]
    split
    . next hkey =>
      subst hkey
      have habsent : context.lookup key ≠ some value := by
        rw [ne_eq, ih hrest]
        intro hmem
        exact lt_irrefl key (hfirst _ hmem)
      simp [habsent, eq_comm]
    . next hkey => simp [hkey]

theorem Ascending.ext {a b : Context} (ha : a.Ascending) (hb : b.Ascending)
    (h : ∀ key, a.lookup key = b.lookup key) : a = b := by
  have hnodup {context : Context} (h : context.Ascending) : context.Nodup :=
    h.imp fun hlt heq => hlt.ne (congrArg Prod.fst heq)
  have hperm : a.Perm b := by
    rw [List.perm_ext_iff_of_nodup (hnodup ha) (hnodup hb)]
    rintro ⟨key, value⟩
    rw [← ha.lookup_eq_some_iff, ← hb.lookup_eq_some_iff, h]
  apply hperm.eq_of_pairwise _ ha hb
  intro x y _ _ hlt hgt
  exact absurd hgt hlt.asymm

theorem ofList_eq_iff {entries entries' : List (String × String)} :
    ofList entries = ofList entries'
      ↔ ∀ key, lastValue? entries key = lastValue? entries' key := by
  simp only [← lookup_ofList]
  constructor
  . intro h key
    rw [h]
  . exact (ascending_ofList entries).ext (ascending_ofList entries')

theorem insert_of_forall_lt {context : Context} {key : String} (value : String)
    (h : ∀ entry ∈ context, entry.1 < key) :
    context.insert key value = context ++ [(key, value)] := by
  induction context with
  | nil => rfl
  | cons head context ih =>
    rw [List.forall_mem_cons] at h
    unfold insert
    rw [if_neg h.left.asymm, if_neg h.left.ne', ih h.right]
    rfl

theorem Ascending.ofList_eq {context : Context} (h : context.Ascending) :
    ofList context = context := by
  induction context using List.reverseRecOn with
  | nil => rfl
  | append_singleton context entry ih =>
    obtain ⟨key, value⟩ := entry
    obtain ⟨hcontext, _, hlt⟩ := List.pairwise_append.mp h
    rw [ofList_concat, ih hcontext]
    apply insert_of_forall_lt
    intro other hother
    exact hlt other hother (key, value) List.mem_cons_self

end CircuitPartition.Context
