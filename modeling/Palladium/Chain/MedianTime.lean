import Palladium.Chain.BlockIndex
import Palladium.Lib.OrderStat

/-!
# Median time past

`CBlockIndex::GetMedianTimePast` (`chain.h`) sorts the timestamps of an entry
and of up to ten of its `pprev` ancestors and takes the upper median. A header
whose time is not above the median time past of its parent is rejected as
`time-too-old` (`ContextualCheckBlockHeader`, `validation.cpp`). The main
result is that along every chain of headers accepted by that rule the median
time past never decreases, also over the first blocks, where the window holds
fewer than eleven timestamps.
-/

namespace Palladium.Chain

namespace CBlockIndex

open OrderStat

set_option autoImplicit false

/-- `CBlockIndex::nMedianTimeSpan`. -/
def nMedianTimeSpan : Nat := 11

/-- The loop of `GetMedianTimePast`: the times of at most `n` entries from
`pindex` back along `pprev`, newest first. -/
def medianTimes : Nat → CBlockIndex → List Int
  | 0, _ => []
  | n + 1, mk f pprev s => (mk f pprev s).GetBlockTime ::
    match pprev with
    | some q => medianTimes n q
    | none => []

/-- `CBlockIndex::GetMedianTimePast`: the array is filled from its end, so it
holds the times oldest first, and is then sorted; the element at half its
length is returned. -/
def GetMedianTimePast (p : CBlockIndex) : Int :=
  let pmedian := sortLE (medianTimes nMedianTimeSpan p).reverse
  pmedian.getD (pmedian.length / 2) 0

/-- The `time-too-old` rule of `ContextualCheckBlockHeader`. -/
def TimeTooOld (nTime : Int) (pindexPrev : CBlockIndex) : Bool :=
  nTime ≤ pindexPrev.GetMedianTimePast

/-- Every header of the chain down from `p` passed the `time-too-old` rule
against its parent. -/
def TimesAccepted : CBlockIndex → Prop
  | mk _ none _ => True
  | mk f (some q) s => TimeTooOld (mk f (some q) s).GetBlockTime q = false ∧ TimesAccepted q

instance decTimesAccepted : (p : CBlockIndex) → Decidable (TimesAccepted p)
  | mk _ none _ => inferInstanceAs (Decidable True)
  | mk _ (some q) _ =>
    have := decTimesAccepted q
    inferInstanceAs (Decidable (_ ∧ _))

/-! ## The window -/

theorem medianTimes_pprev {p q : CBlockIndex} (h : p.pprev = some q) (n : Nat) :
    medianTimes (n + 1) p = p.GetBlockTime :: medianTimes n q := by
  obtain ⟨f, pp, s⟩ := p
  cases h
  rfl

theorem length_medianTimes_pos (n : Nat) (p : CBlockIndex) : 0 < (medianTimes (n + 1) p).length := by
  obtain ⟨f, pp, s⟩ := p
  simp [medianTimes]

/-- Shortening the window keeps its newest times: the loop of length `n` is a
prefix of the loop of length `n + 1`, at most one time shorter. -/
theorem medianTimes_prefix : ∀ (n : Nat) (p : CBlockIndex),
    ∃ tail : List Int, medianTimes (n + 1) p = medianTimes n p ++ tail ∧ tail.length ≤ 1
  | 0, mk f pp s => ⟨medianTimes 1 (mk f pp s), by simp [medianTimes], by cases pp <;> simp [medianTimes]⟩
  | n + 1, mk f none s => ⟨[], by simp [medianTimes], by simp⟩
  | n + 1, mk f (some q) s => by
    obtain ⟨tail, htail, hlen⟩ := medianTimes_prefix n q
    exact ⟨tail, by simp [medianTimes, htail], hlen⟩

/-- The window of `p` is its own time followed by the ten newest of its
parent's window. -/
theorem medianTimes_window {p q : CBlockIndex} (h : p.pprev = some q) :
    medianTimes nMedianTimeSpan p = p.GetBlockTime :: medianTimes 10 q :=
  medianTimes_pprev h 10

theorem median_index_lt (p : CBlockIndex) :
    (sortLE (medianTimes nMedianTimeSpan p).reverse).length / 2 <
      (sortLE (medianTimes nMedianTimeSpan p).reverse).length := by
  have hpos := length_medianTimes_pos 10 p
  simp only [length_sortLE, List.length_reverse]
  exact Nat.div_lt_self hpos (by norm_num)

theorem GetMedianTimePast_eq (p : CBlockIndex)
    (hk : (sortLE (medianTimes nMedianTimeSpan p).reverse).length / 2 <
      (sortLE (medianTimes nMedianTimeSpan p).reverse).length) :
    p.GetMedianTimePast =
      (sortLE (medianTimes nMedianTimeSpan p).reverse)[(sortLE (medianTimes nMedianTimeSpan p).reverse).length / 2] :=
  List.getD_eq_getElem _ _ hk

/-- Every time of the window is a `uint32_t` header time. -/
theorem medianTimes_range : ∀ (n : Nat) (p : CBlockIndex), ∀ t ∈ medianTimes n p, 0 ≤ t ∧ t < 2 ^ 32
  | 0, _, t, ht => by simp [medianTimes] at ht
  | n + 1, mk f pp s, t, ht => by
    simp only [medianTimes, List.mem_cons] at ht
    rcases ht with rfl | ht
    · have := f.nTime.toNat_lt
      simp only [GetBlockTime, fields]
      omega
    · cases pp with
      | none => cases ht
      | some q => exact medianTimes_range n q t ht

/-- The median time past is one of those times, or `0` for an empty window,
so it lies in the range of a `uint32_t`. -/
theorem GetMedianTimePast_range (p : CBlockIndex) : 0 ≤ p.GetMedianTimePast ∧ p.GetMedianTimePast < 2 ^ 32 := by
  rw [GetMedianTimePast_eq p (median_index_lt p)]
  apply medianTimes_range nMedianTimeSpan p
  rw [← List.mem_reverse, ← (sortLE_perm _).mem_iff]
  exact List.getElem_mem _

/-! ## Monotonicity -/

/-- One accepted header: if its time is above its parent's median time past,
its own median time past is not below its parent's. The parent's median has
at most half of the parent's window below it; the new window drops at most
the oldest of those times and adds one that is not below the median, so the
new median, taken at an index at least as large, is not below it either. -/
theorem GetMedianTimePast_le_of_pprev {p q : CBlockIndex} (h : p.pprev = some q)
    (htime : q.GetMedianTimePast < p.GetBlockTime) : q.GetMedianTimePast ≤ p.GetMedianTimePast := by
  have hkq := median_index_lt q
  have hkp := median_index_lt p
  have hq := countLt_sortLE_getElem_le hkq
  rw [← GetMedianTimePast_eq q hkq] at hq
  obtain ⟨tail, htail, hlen⟩ := medianTimes_prefix 10 q
  have htail' : medianTimes nMedianTimeSpan q = medianTimes 10 q ++ tail := htail
  -- the parent's window is at most one time longer than the ten it passes on
  have hindex : (sortLE (medianTimes nMedianTimeSpan q).reverse).length / 2 ≤
      (sortLE (medianTimes nMedianTimeSpan p).reverse).length / 2 := by
    apply Nat.div_le_div_right
    simp only [length_sortLE, List.length_reverse, htail', medianTimes_window h, List.length_append,
      List.length_cons]
    omega
  rw [GetMedianTimePast_eq p hkp]
  apply (le_sortLE_getElem_iff hkp).mpr
  calc countLt q.GetMedianTimePast (medianTimes nMedianTimeSpan p).reverse
      = countLt q.GetMedianTimePast (medianTimes 10 q) := by
        rw [countLt_perm _ (List.reverse_perm _), medianTimes_window h, countLt_cons_of_le htime.le]
    _ ≤ countLt q.GetMedianTimePast (medianTimes nMedianTimeSpan q) := by
        rw [htail']
        exact countLt_sublist _ (List.sublist_append_left _ _)
    _ = countLt q.GetMedianTimePast (medianTimes nMedianTimeSpan q).reverse :=
        (countLt_perm _ (List.reverse_perm _)).symm
    _ ≤ (sortLE (medianTimes nMedianTimeSpan q).reverse).length / 2 := hq
    _ ≤ (sortLE (medianTimes nMedianTimeSpan p).reverse).length / 2 := hindex

/-- The rule holds down every chain it holds for. -/
theorem TimesAccepted.ancestor : ∀ {p : CBlockIndex} {d : Nat} {a : CBlockIndex},
    TimesAccepted p → p.ancestor d = some a → TimesAccepted a
  | _, 0, _, hp, ha => by
    cases ha
    exact hp
  | mk _ none _, _ + 1, _, _, ha => by simp [CBlockIndex.ancestor, pprev] at ha
  | mk _ (some _) _, d + 1, _, ⟨_, hq⟩, ha => by
    rw [ancestor_succ rfl] at ha
    exact TimesAccepted.ancestor hq ha

/-- Along every chain of headers accepted by the `time-too-old` rule, the
median time past of each entry is at least that of its parent, and so at
least that of every entry below it. The induction is on the distance down
the chain. -/
theorem GetMedianTimePast_monotone : ∀ {p : CBlockIndex}, TimesAccepted p →
    (∀ q, p.pprev = some q → q.GetMedianTimePast ≤ p.GetMedianTimePast) ∧
    ∀ d a, p.ancestor d = some a → a.GetMedianTimePast ≤ p.GetMedianTimePast
  | mk f none s, _ => by
    refine ⟨fun q hq => (by cases hq), fun d a ha => ?_⟩
    cases d with
    | zero => cases ha; exact le_rfl
    | succ d => simp [ancestor] at ha
  | mk f (some q) s, ⟨hrule, hq⟩ => by
    have hstep : q.GetMedianTimePast ≤ (mk f (some q) s).GetMedianTimePast := by
      apply GetMedianTimePast_le_of_pprev rfl
      simpa [TimeTooOld] using hrule
    refine ⟨fun q' hq' => (by cases hq'; exact hstep), fun d a ha => ?_⟩
    cases d with
    | zero => cases ha; exact le_rfl
    | succ d =>
      rw [ancestor_succ rfl] at ha
      exact le_trans ((GetMedianTimePast_monotone hq).2 d a ha) hstep

theorem GetMedianTimePast_monotone_three_headers :
    TimesAccepted (mk ⟨2, 5, 0, 2⟩ (some (mk ⟨1, 4, 0, 1⟩ (some (mk ⟨0, 2, 0, 0⟩ none none))
      (some (mk ⟨0, 2, 0, 0⟩ none none)))) (some (mk ⟨0, 2, 0, 0⟩ none none))) ∧
    (∀ q, (mk ⟨2, 5, 0, 2⟩ (some (mk ⟨1, 4, 0, 1⟩ (some (mk ⟨0, 2, 0, 0⟩ none none))
        (some (mk ⟨0, 2, 0, 0⟩ none none)))) (some (mk ⟨0, 2, 0, 0⟩ none none))).pprev = some q →
      q.GetMedianTimePast ≤ (mk ⟨2, 5, 0, 2⟩ (some (mk ⟨1, 4, 0, 1⟩ (some (mk ⟨0, 2, 0, 0⟩ none none))
        (some (mk ⟨0, 2, 0, 0⟩ none none)))) (some (mk ⟨0, 2, 0, 0⟩ none none))).GetMedianTimePast) ∧
    ∀ d a, (mk ⟨2, 5, 0, 2⟩ (some (mk ⟨1, 4, 0, 1⟩ (some (mk ⟨0, 2, 0, 0⟩ none none))
        (some (mk ⟨0, 2, 0, 0⟩ none none)))) (some (mk ⟨0, 2, 0, 0⟩ none none))).ancestor d = some a →
      a.GetMedianTimePast ≤ (mk ⟨2, 5, 0, 2⟩ (some (mk ⟨1, 4, 0, 1⟩ (some (mk ⟨0, 2, 0, 0⟩ none none))
        (some (mk ⟨0, 2, 0, 0⟩ none none)))) (some (mk ⟨0, 2, 0, 0⟩ none none))).GetMedianTimePast := by
  have h : TimesAccepted (mk ⟨2, 5, 0, 2⟩ (some (mk ⟨1, 4, 0, 1⟩ (some (mk ⟨0, 2, 0, 0⟩ none none))
      (some (mk ⟨0, 2, 0, 0⟩ none none)))) (some (mk ⟨0, 2, 0, 0⟩ none none))) := by decide
  exact ⟨h, GetMedianTimePast_monotone h⟩

end CBlockIndex

end Palladium.Chain
