import Mathlib.Logic.Function.Basic
import Mathlib.Data.List.Nodup
import Mathlib.Algebra.BigOperators.Group.Finset.Piecewise
import Mathlib.Tactic.Abel

/-!
# Writing a list of entries into a function

`setAll f l` writes the entries of `l` into `f` in turn. A key that `l`
does not name keeps its value; with distinct keys, a key that `l` names
ends with its entry. Writing the old values back then restores `f`: the
undo of a batch of writes to distinct keys. A sum of weights over a set of
keys changes under a write by the new value's weight less the old one's.
-/

namespace Updates

set_option autoImplicit false

variable {α β : Type} [DecidableEq α]

/-- Write the entries of `l` into `f`, the first first. -/
def setAll (f : α → β) (l : List (α × β)) : α → β :=
  l.foldl (fun g p => Function.update g p.1 p.2) f

variable {f : α → β}

@[simp] theorem setAll_nil : setAll f [] = f := rfl

@[simp] theorem setAll_cons (p : α × β) (l : List (α × β)) :
    setAll f (p :: l) = setAll (Function.update f p.1 p.2) l := rfl

theorem setAll_append (l₁ l₂ : List (α × β)) : setAll f (l₁ ++ l₂) = setAll (setAll f l₁) l₂ :=
  List.foldl_append

theorem setAll_apply_of_not_mem : ∀ {l : List (α × β)} {f : α → β} {a : α}, a ∉ l.map Prod.fst →
    setAll f l a = f a
  | [], _, _, _ => rfl
  | p :: l, f, a, h => by
    simp only [List.map_cons, List.mem_cons, not_or] at h
    rw [setAll_cons, setAll_apply_of_not_mem h.2, Function.update_of_ne h.1]

theorem setAll_apply_of_mem : ∀ {l : List (α × β)} {f : α → β} {a : α} {b : β}, (l.map Prod.fst).Nodup →
    (a, b) ∈ l → setAll f l a = b
  | p :: l, f, a, b, hnd, h => by
    rw [List.map_cons, List.nodup_cons] at hnd
    rw [setAll_cons]
    rcases List.mem_cons.mp h with rfl | h
    · -- the last write to `a` is this one
      rw [setAll_apply_of_not_mem hnd.1, Function.update_self]
    · exact setAll_apply_of_mem hnd.2 h

/-- Writing distinct keys, then their old values, restores the function. -/
theorem setAll_restore {l : List (α × β)} (hnd : (l.map Prod.fst).Nodup) :
    setAll (setAll f l) (l.map fun p => (p.1, f p.1)) = f := by
  have hkeys : ((l.map fun p => (p.1, f p.1)).map Prod.fst) = l.map Prod.fst := by
    simp [Function.comp_def]
  funext a
  by_cases ha : a ∈ l.map Prod.fst
  · obtain ⟨p, hp, rfl⟩ := List.mem_map.mp ha
    exact setAll_apply_of_mem (hkeys ▸ hnd) (List.mem_map.mpr ⟨p, hp, rfl⟩)
  · rw [setAll_apply_of_not_mem (hkeys ▸ ha), setAll_apply_of_not_mem ha]

/-- Writing `b` at a key of `S` changes a sum over `S` by the weight of `b`
less the weight of the value it replaces. -/
theorem sum_comp_update_of_mem {M : Type} [AddCommGroup M] (w : β → M) {S : Finset α} {a : α} (ha : a ∈ S)
    (b : β) : ∑ x ∈ S, w (Function.update f a b x) = ∑ x ∈ S, w (f x) - w (f a) + w b := by
  have hcomp : (fun x => w (Function.update f a b x)) = Function.update (fun x => w (f x)) a (w b) := by
    funext x
    rw [Function.update_apply, Function.update_apply]
    split <;> rfl
  rw [hcomp, Finset.sum_update_of_mem ha, Finset.sum_eq_add_sum_sdiff_singleton_of_mem ha (fun x => w (f x))]
  abel

end Updates
