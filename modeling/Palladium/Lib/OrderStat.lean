import Mathlib.Data.List.Sort
import Mathlib.Order.Basic

/-!
# Order statistics of a list

The element at index `k` of a sorted list is at least `M` exactly when at
most `k` elements of the list lie below `M`. Counting is invariant under
permutation and monotone under sublists, so comparisons between order
statistics of two lists reduce to comparisons of counts, whatever order the
lists were built in.
-/

namespace OrderStat

variable {α : Type} [LinearOrder α]

/-- The number of elements of `l` below `M`. -/
def countLt (M : α) (l : List α) : Nat := l.countP (fun x => decide (x < M))

/-- A list sorted by `std::sort` with `<=`. Every sorting algorithm yields
the same sorted permutation; insertion sort recurses structurally, so
results on fixed lists can be evaluated. -/
def sortLE (l : List α) : List α := l.insertionSort (· ≤ ·)

@[simp] theorem countLt_nil (M : α) : countLt M ([] : List α) = 0 := rfl

theorem countLt_cons (M x : α) (l : List α) :
    countLt M (x :: l) = countLt M l + if x < M then 1 else 0 := by
  simp [countLt, List.countP_cons]

theorem countLt_cons_of_le {M x : α} (h : M ≤ x) (l : List α) : countLt M (x :: l) = countLt M l := by
  rw [countLt_cons, if_neg (not_lt.mpr h), Nat.add_zero]

theorem countLt_perm (M : α) {l₁ l₂ : List α} (h : l₁.Perm l₂) : countLt M l₁ = countLt M l₂ :=
  h.countP_eq _

theorem countLt_sublist (M : α) {l₁ l₂ : List α} (h : l₁.Sublist l₂) : countLt M l₁ ≤ countLt M l₂ :=
  h.countP_le

theorem sortLE_perm (l : List α) : (sortLE l).Perm l := List.perm_insertionSort _ _

@[simp] theorem length_sortLE (l : List α) : (sortLE l).length = l.length := (sortLE_perm l).length_eq

theorem sortLE_pairwise (l : List α) : (sortLE l).Pairwise (· ≤ ·) := List.pairwise_insertionSort _ _

/-- In a sorted list the elements below `M` form a prefix, so the element
at index `k` is at least `M` exactly when at most `k` of them are below `M`.
The induction follows the list. -/
theorem le_getElem_iff_of_pairwise {M : α} :
    ∀ {s : List α}, s.Pairwise (· ≤ ·) → ∀ {k : Nat} (hk : k < s.length), M ≤ s[k] ↔ countLt M s ≤ k
  | [], _, k, hk => absurd hk (by simp)
  | a :: t, hs, k, hk => by
    have hat := List.pairwise_cons.mp hs
    by_cases ha : M ≤ a
    · -- every element is at least `a`, hence at least `M`: no element is below `M`
      have hnone : countLt M (a :: t) = 0 := by
        simp only [countLt, List.countP_eq_zero, decide_eq_true_eq, not_lt]
        intro x hx
        rcases List.mem_cons.mp hx with rfl | hx
        · exact ha
        · exact le_trans ha (hat.1 x hx)
      have hle : M ≤ (a :: t)[k] := by
        cases k with
        | zero => exact ha
        | succ k => exact le_trans ha (hat.1 _ (List.getElem_mem _))
      simp [hnone, hle]
    · rw [not_le] at ha
      rw [countLt_cons, if_pos ha]
      cases k with
      | zero => simp [ha]
      | succ k =>
        rw [List.getElem_cons_succ, le_getElem_iff_of_pairwise hat.2 (by simpa using hk)]
        omega

/-- The order statistic at index `k`: at least `M` exactly when at most `k`
elements of the list lie below `M`. -/
theorem le_sortLE_getElem_iff {M : α} {l : List α} {k : Nat} (hk : k < (sortLE l).length) :
    M ≤ (sortLE l)[k] ↔ countLt M l ≤ k := by
  rw [le_getElem_iff_of_pairwise (sortLE_pairwise l) hk, countLt_perm M (sortLE_perm l)]

/-- The order statistic at index `k` itself has at most `k` elements below it. -/
theorem countLt_sortLE_getElem_le {l : List α} {k : Nat} (hk : k < (sortLE l).length) :
    countLt (sortLE l)[k] l ≤ k :=
  (le_sortLE_getElem_iff hk).mp le_rfl

/-- The number of elements of `l` in `[lo, hi]`. -/
def countIn (lo hi : α) (l : List α) : Nat := l.countP (fun x => decide (lo ≤ x ∧ x ≤ hi))

/-- No more elements lie in `[lo, hi]` than are not below `lo`. -/
theorem countLt_add_countIn_le (lo hi : α) (l : List α) : countLt lo l + countIn lo hi l ≤ l.length := by
  have hsplit := List.length_eq_countP_add_countP (fun x => decide (x < lo)) (l := l)
  have hin : countIn lo hi l ≤ l.countP (fun x => decide ¬(decide (x < lo)) = true) := by
    apply List.countP_mono_left
    intro x _ hx
    simp only [decide_eq_true_eq] at hx ⊢
    exact not_lt.mpr hx.1
  rw [countLt]
  omega

/-- The middle order statistic is robust: when more than half of `l` lies in
`[lo, hi]`, so does the element at index `l.length / 2` of the sorted list. -/
theorem sortLE_middle_mem_of_majority {lo hi : α} {l : List α} (d : α)
    (hmaj : l.length < 2 * countIn lo hi l) :
    lo ≤ (sortLE l).getD (l.length / 2) d ∧ (sortLE l).getD (l.length / 2) d ≤ hi := by
  have hk : l.length / 2 < (sortLE l).length := by
    have := List.countP_le_length (p := fun x => decide (lo ≤ x ∧ x ≤ hi)) (l := l)
    rw [length_sortLE]
    unfold countIn at hmaj
    omega
  rw [List.getD_eq_getElem?_getD, List.getElem?_eq_getElem hk, Option.getD_some]
  constructor
  · -- few enough elements lie below `lo`
    rw [le_sortLE_getElem_iff hk]
    have := countLt_add_countIn_le lo hi l
    omega
  · -- above `hi`, the middle would have every element of `[lo, hi]` below it
    by_contra hgt
    rw [not_le] at hgt
    have hin : countIn lo hi l ≤ countLt (sortLE l)[l.length / 2] l := by
      apply List.countP_mono_left
      intro x _ hx
      simp only [decide_eq_true_eq] at hx ⊢
      exact lt_of_le_of_lt hx.2 hgt
    have := countLt_sortLE_getElem_le hk
    omega

end OrderStat
