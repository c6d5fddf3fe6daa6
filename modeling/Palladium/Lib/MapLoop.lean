import Mathlib

/-!
# Finite maps with a running total, and loops over them

A structure that keeps a counter next to a finite map usually means the
counter to be the sum of some weight over the map's values, updated by hand
at each insertion and removal. `total w s` is that sum over an association
list, with the bookkeeping rules an update must follow: an insertion adds the
new value's weight to the total of the map without the key, and a removal
takes away the weight of what was there.

A loop over a map's entries that may throw is a `foldlM` in `Except`. Its two
rules: an invariant every successful pass keeps holds after the loop, and a
loop whose every pass succeeds, keeping an invariant that may speak of the
entries still to come, succeeds.
-/

namespace MapLoop

variable {α β M : Type} [AddCommMonoid M]

/-- The sum of `w` over the values of `s`. -/
def total (w : β → M) (s : AList (fun _ : α => β)) : M :=
  (s.entries.map fun e => w e.2).sum

variable (w : β → M)

@[simp] theorem total_empty : total w (∅ : AList (fun _ : α => β)) = 0 := rfl

variable [DecidableEq α]

theorem total_insert (a : α) (b : β) (s : AList (fun _ : α => β)) :
    total w (s.insert a b) = w b + total w (s.erase a) := by
  simp [total, AList.entries_insert, AList.erase]

/-- Removing a key takes away the weight of the value it had. -/
theorem total_erase_add {s : AList (fun _ : α => β)} {a : α} {b : β} (h : s.lookup a = some b) :
    total w (s.erase a) + w b = total w s := by
  have hmem : a ∈ s.entries.keys := AList.mem_keys.mp (AList.lookup_isSome.mp (by simp [h]))
  obtain ⟨b', l₁, l₂, ha, hl, hk⟩ := List.exists_of_kerase hmem
  -- the value found at `a` is the one the split exhibits
  have hb : b' = b := by
    have hlook : s.entries.dlookup a = some b' := by
      rw [hl, List.dlookup_append, List.dlookup_eq_none.mpr ha, Option.none_or, List.dlookup_cons_eq]
    exact Option.some.inj (hlook.symm.trans h)
  subst hb
  have herase : (s.erase a).entries = l₁ ++ l₂ := hk
  simp only [total, herase, hl, List.map_append, List.map_cons, List.sum_append, List.sum_cons]
  rw [add_assoc, add_comm (List.sum _) (w b')]

theorem total_erase_of_lookup_eq_none {s : AList (fun _ : α => β)} {a : α} (h : s.lookup a = none) :
    total w (s.erase a) = total w s := by
  have hs : s.erase a = s := AList.ext (List.kerase_of_notMem_keys (AList.lookup_eq_none.mp h))
  rw [hs]

/-! ## Loops that may throw -/

section Loops

variable {ε γ δ : Type}

theorem foldlM_invariant (P : γ → Prop) (f : γ → δ → Except ε γ)
    (hstep : ∀ a b a', P a → f a b = .ok a' → P a') :
    ∀ (l : List δ) (a a' : γ), P a → l.foldlM f a = .ok a' → P a'
  | [], a, a', ha, h => by
    cases h
    exact ha
  | b :: l, a, a', ha, h => by
    rw [List.foldlM_cons] at h
    cases hb : f a b with
    | error e => rw [hb] at h; cases h
    | ok a₁ =>
      rw [hb] at h
      exact foldlM_invariant P f hstep l a₁ a' (hstep a b a₁ ha hb) h

/-- The invariant `I a l` is about the state `a` with the entries `l` still to come. -/
theorem foldlM_ok_of_step (I : γ → List δ → Prop) (f : γ → δ → Except ε γ)
    (hstep : ∀ a b l, I a (b :: l) → ∃ a', f a b = .ok a' ∧ I a' l) :
    ∀ (l : List δ) (a : γ), I a l → ∃ a', l.foldlM f a = .ok a' ∧ I a' []
  | [], a, ha => ⟨a, rfl, ha⟩
  | b :: l, a, ha => by
    obtain ⟨a₁, hb, h₁⟩ := hstep a b l ha
    rw [List.foldlM_cons, hb]
    exact foldlM_ok_of_step I f hstep l a₁ h₁

end Loops

end MapLoop
