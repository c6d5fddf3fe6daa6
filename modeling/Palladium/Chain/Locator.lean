import Palladium.Chain.Fork

/-!
# The block locator

`CChain::GetLocator` (`chain.cpp`) lists block hashes from an entry back to
the genesis: ten single steps back, then steps that double, each taken
through the chain's vector when the chain contains the current entry and
through the skip list otherwise. `locatorHeights` states the heights it
visits; the main result is that the locator is the hashes of the ancestors
at those heights, which decrease strictly, begin at the entry, end at the
genesis and number at most `13 + log₂ (nHeight + 1)`.
-/

namespace Palladium.Chain

open CBlockIndex Palladium.Arith

set_option autoImplicit false

/-- `CBlockLocator`: the hashes `vHave`. -/
structure CBlockLocator where
  vHave : List uint256
  deriving DecidableEq, Repr

namespace CChain

/-- The `while (pindex)` loop of `GetLocator`. The source bounds its passes
only through the chain's shape; `fuel` bounds them here, and the start's
height plus one always suffices. -/
def locatorLoop (c : CChain) : Nat → Option CBlockIndex → Int → List uint256 →
    Except String (List uint256)
  | _, none, _, vHave => .ok vHave
  | 0, some _, _, _ => .error "out of fuel"
  | fuel + 1, some pindex, nStep, vHave =>
    let vHave := vHave ++ [pindex.GetBlockHash]
    -- stop when the genesis block is in
    if pindex.nHeight = 0 then .ok vHave
    else do
      let nHeight := max ((pindex.nHeight : Int) - nStep) 0
      let pindex ← if c.Contains pindex then pure (c.get nHeight) else pindex.GetAncestor nHeight
      let nStep := if vHave.length > 10 then nStep * 2 else nStep
      locatorLoop c fuel pindex nStep vHave

/-- `CChain::GetLocator`; `nullptr` starts from the tip. -/
def GetLocator (c : CChain) (pindex : Option CBlockIndex) : Except String CBlockLocator :=
  let pindex := match pindex with
    | none => c.Tip
    | some p => some p
  match pindex with
  | none => .ok ⟨[]⟩
  | some p => do
    let vHave ← c.locatorLoop (p.nHeight + 1) (some p) 1 []
    pure ⟨vHave⟩

end CChain

/-- The heights of the locator from height `h`, when `i` hashes are already
in: the step back from the `i`-th entry is `2 ^ (i - 10)`, so 1 for the
first eleven. -/
def locatorHeights (h i : Nat) : List Nat :=
  if h = 0 then [0] else h :: locatorHeights (h - 2 ^ (i - 10)) (i + 1)
termination_by h
decreasing_by
  have := Nat.one_le_two_pow (n := i - 10)
  omega

/-! ## The heights -/

@[simp] theorem locatorHeights_zero (i : Nat) : locatorHeights 0 i = [0] := by
  rw [locatorHeights, if_pos rfl]

theorem locatorHeights_pos {h : Nat} (i : Nat) (h0 : h ≠ 0) :
    locatorHeights h i = h :: locatorHeights (h - 2 ^ (i - 10)) (i + 1) := by
  rw [locatorHeights, if_neg h0]

theorem locatorHeights_cons (h i : Nat) : ∃ rest, locatorHeights h i = h :: rest := by
  by_cases h0 : h = 0
  · exact ⟨[], by rw [h0, locatorHeights_zero]⟩
  · exact ⟨_, locatorHeights_pos i h0⟩

theorem le_of_mem_locatorHeights {h i x : Nat} (hx : x ∈ locatorHeights h i) : x ≤ h := by
  induction h using Nat.strong_induction_on generalizing i with
  | _ h ih =>
  by_cases h0 : h = 0
  · subst h0
    simpa using hx
  · rw [locatorHeights_pos i h0, List.mem_cons] at hx
    rcases hx with rfl | hx
    · exact le_rfl
    · have := Nat.one_le_two_pow (n := i - 10)
      exact (ih _ (by omega) hx).trans (Nat.sub_le _ _)

/-- The heights decrease strictly. -/
theorem locatorHeights_pairwise (h i : Nat) : (locatorHeights h i).Pairwise (· > ·) := by
  induction h using Nat.strong_induction_on generalizing i with
  | _ h ih =>
  by_cases h0 : h = 0
  · subst h0
    simp
  · have := Nat.one_le_two_pow (n := i - 10)
    rw [locatorHeights_pos i h0, List.pairwise_cons]
    exact ⟨fun x hx => by have := le_of_mem_locatorHeights hx; omega, ih _ (by omega) _⟩

theorem locatorHeights_getLast (h i : Nat) : (locatorHeights h i).getLast? = some 0 := by
  induction h using Nat.strong_induction_on generalizing i with
  | _ h ih =>
  by_cases h0 : h = 0
  · subst h0
    simp
  · have := Nat.one_le_two_pow (n := i - 10)
    obtain ⟨rest, hrest⟩ := locatorHeights_cons (h - 2 ^ (i - 10)) (i + 1)
    rw [locatorHeights_pos i h0, hrest, List.getLast?_cons_cons, ← hrest]
    exact ih _ (by omega) _

/-- Each height is the one before less the step of its place, `2 ^ (j - 10)`
for the `j`-th entry of a locator begun at `i`, cut off at 0. -/
theorem locatorHeights_step : ∀ (j h i a b : Nat), (locatorHeights h i)[j]? = some a →
    (locatorHeights h i)[j + 1]? = some b → b = a - 2 ^ (i + j - 10) := by
  intro j
  induction j with
  | zero =>
    intro h i a b ha hb
    by_cases h0 : h = 0
    · subst h0
      simp at hb
    · obtain ⟨rest, hrest⟩ := locatorHeights_cons (h - 2 ^ (i - 10)) (i + 1)
      rw [locatorHeights_pos i h0, hrest] at ha hb
      simp only [List.getElem?_cons_zero, List.getElem?_cons_succ, Option.some.injEq] at ha hb
      rw [← ha, ← hb, Nat.add_zero]
  | succ j ih =>
    intro h i a b ha hb
    by_cases h0 : h = 0
    · subst h0
      simp at ha
    · rw [locatorHeights_pos i h0, List.getElem?_cons_succ] at ha hb
      rw [ih _ _ a b ha hb, show i + 1 + j = i + (j + 1) by omega]

/-- Once the step is `2 ^ j` the locator from `h` has at most
`log₂ (h + 2^j) + 2 - j` entries. The induction follows the recursion. -/
theorem length_locatorHeights_doubling (h : Nat) : ∀ j, (locatorHeights h (10 + j)).length + j ≤
    Nat.log 2 (h + 2 ^ j) + 2 := by
  induction h using Nat.strong_induction_on with
  | _ h ih =>
  intro j
  have hj : j ≤ Nat.log 2 (h + 2 ^ j) :=
    (Nat.le_log_iff_pow_le (by norm_num) (by positivity)).2 (by omega)
  by_cases h0 : h = 0
  · subst h0
    simp only [locatorHeights_zero, List.length_singleton]
    omega
  rw [locatorHeights_pos _ h0, List.length_cons, show 10 + j - 10 = j by omega,
    show 10 + j + 1 = 10 + (j + 1) by omega]
  by_cases hle : 2 ^ j ≤ h
  · -- a full step: the value `h + 2^j` is kept, and the step doubles
    have := ih (h - 2 ^ j) (by have := Nat.one_le_two_pow (n := j); omega) (j + 1)
    rw [show h - 2 ^ j + 2 ^ (j + 1) = h + 2 ^ j by rw [pow_succ]; omega] at this
    omega
  · -- the step passes the genesis: one entry more
    rw [show h - 2 ^ j = 0 by omega, locatorHeights_zero, List.length_singleton]
    omega

/-- The locator from height `h` after `i ≤ 10` entries has at most
`log₂ (h + 1) + 12 - i` entries. -/
theorem length_locatorHeights_single (n : Nat) : ∀ i h, i + n = 10 →
    (locatorHeights h i).length + i ≤ Nat.log 2 (h + 1) + 12 := by
  induction n with
  | zero =>
    intro i h hi
    have := length_locatorHeights_doubling h 0
    rw [show i = 10 by omega]
    simpa using this
  | succ n ih =>
    intro i h hi
    by_cases h0 : h = 0
    · subst h0
      simp only [locatorHeights_zero, List.length_singleton]
      omega
    rw [locatorHeights_pos _ h0, List.length_cons, show i - 10 = 0 by omega, pow_zero]
    have := ih (i + 1) (h - 1) (by omega)
    have hlog : Nat.log 2 (h - 1 + 1) ≤ Nat.log 2 (h + 1) := Nat.log_mono_right (by omega)
    omega

theorem length_locatorHeights_le (h : Nat) : (locatorHeights h 0).length ≤ 13 + Nat.log 2 (h + 1) := by
  have := length_locatorHeights_single 10 0 h rfl
  omega

/-! ## The loop -/

theorem CBlockIndex.IsAncestor.trans {a b p : CBlockIndex} (hab : IsAncestor a b) (hbp : IsAncestor b p) :
    IsAncestor a p := by
  obtain ⟨d₁, h₁⟩ := hbp
  obtain ⟨d₂, h₂⟩ := hab
  exact ⟨d₁ + d₂, by rw [ancestor_add h₁]; exact h₂⟩

/-- The ancestor of `p` at `p`'s own height is `p`. -/
theorem CBlockIndex.IsAncestor.eq_of_nHeight {a p : CBlockIndex} (hp : SkipInvariant p)
    (h : IsAncestor a p) (hh : a.nHeight = p.nHeight) : a = p := by
  have := ((isAncestor_iff hp).mp h).2
  rw [hh, Nat.sub_self, ancestor_zero] at this
  exact (Option.some.inj this).symm

namespace CChain

/-- On a valid chain the vector below a contained entry holds its ancestors. -/
theorem Valid.get_of_contains {c : CChain} (hc : c.Valid) {e : CBlockIndex} (h : c.Contains e = true)
    {k : Nat} (hk : k ≤ e.nHeight) : c.get k = e.ancestor (e.nHeight - k) := by
  unfold Contains get at h
  rcases hc with hnil | ⟨t, -, hlen, hag⟩
  · simp [hnil] at h
  have he : e.nHeight < c.vChain.length := by
    by_contra hge
    rw [if_pos (Or.inr (by omega))] at h
    simp at h
  rw [if_neg (by omega), Int.toNat_natCast, hag _ (by omega)] at h
  -- `e` is the tip's ancestor at its height, so the lower entries are `e`'s
  have hte : t.ancestor (t.nHeight - e.nHeight) = some e := by simpa using h
  unfold get
  rw [if_neg (by omega), Int.toNat_natCast, hag _ (by omega), Option.join_some,
    show t.nHeight - k = (t.nHeight - e.nHeight) + (e.nHeight - k) by omega, ancestor_add hte]

/-- Both ways of stepping back in `GetLocator`, the vector of a valid chain
and the skip list, reach the ancestor at the requested height. -/
theorem locator_next {α : Type} {c : CChain} (hc : c.Valid) {e : CBlockIndex} (he : SkipInvariant e)
    {k : Nat} (hk : k ≤ e.nHeight) (f : Option CBlockIndex → Except String α) :
    (if c.Contains e then pure (c.get k) >>= f else e.GetAncestor k >>= f) =
      f (e.ancestor (e.nHeight - k)) := by
  split
  · rename_i h
    rw [hc.get_of_contains h hk]
    rfl
  · rw [GetAncestor_of_skipInvariant he, if_neg (by omega), Int.toNat_natCast]
    rfl

/-- The step doubles once more than ten hashes are in. -/
theorem locator_step_next (i : Nat) :
    (if i + 1 > 10 then (2 : Int) ^ (i - 10) * 2 else 2 ^ (i - 10)) = 2 ^ (i + 1 - 10) := by
  split
  · rw [← pow_succ]
    congr 1
    omega
  · congr 1
    omega

/-- From an entry `e` with `i` hashes in and the step at `2 ^ (i - 10)`, the
loop appends the hashes of the ancestors of `e` at `locatorHeights`. The
induction is on the fuel, which the height of the entry stays below. -/
theorem locatorLoop_spec {c : CChain} (hc : c.Valid) : ∀ (fuel : Nat) (e : CBlockIndex)
    (vHave : List uint256), SkipInvariant e → e.nHeight < fuel →
    ∃ entries : List CBlockIndex,
      c.locatorLoop fuel (some e) (2 ^ (vHave.length - 10)) vHave = .ok (vHave ++ entries.map GetBlockHash) ∧
      entries.map nHeight = locatorHeights e.nHeight vHave.length ∧ ∀ x ∈ entries, IsAncestor x e
  | 0, _, _, _, h => absurd h (Nat.not_lt_zero _)
  | fuel + 1, e, vHave, he, hfuel => by
    by_cases h0 : e.nHeight = 0
    · -- the genesis: its hash is the last
      refine ⟨[e], by simp [locatorLoop, h0], by simp [h0], ?_⟩
      simp only [List.mem_singleton, forall_eq]
      exact ⟨0, rfl⟩
    set i := vHave.length
    set k := e.nHeight - 2 ^ (i - 10) with hk
    have hklt : k < e.nHeight := by have := Nat.one_le_two_pow (n := i - 10); omega
    obtain ⟨e', he', he'h, he'i⟩ := he.ancestor_exists (d := e.nHeight - k) (by omega)
    obtain ⟨entries, hrun, hheights, hanc⟩ :=
      locatorLoop_spec hc fuel e' (vHave ++ [e.GetBlockHash]) he'i (by omega)
    have hmax : max ((e.nHeight : Int) - 2 ^ (i - 10)) 0 = (k : Int) := by
      have hpow : ((2 ^ (i - 10) : Nat) : Int) = (2 : Int) ^ (i - 10) := by push_cast; rfl
      rw [← hpow]
      omega
    have hlen : (vHave ++ [e.GetBlockHash]).length = i + 1 := by simp [i]
    refine ⟨e :: entries, ?_, ?_, ?_⟩
    · rw [hlen, ← locator_step_next] at hrun
      rw [locatorLoop]
      dsimp only
      rw [if_neg h0, hmax, locator_next hc he hklt.le, he', hlen, hrun]
      simp
    · rw [List.map_cons, hheights, hlen, he'h, show e.nHeight - (e.nHeight - k) = k by omega,
        locatorHeights_pos i h0]
    · intro x hx
      rcases List.mem_cons.mp hx with rfl | hx
      · exact ⟨0, rfl⟩
      · exact (hanc x hx).trans ⟨_, he'⟩

/-- `GetLocator` from `p`, given or the tip, is the hashes of the ancestors
of `p` at `locatorHeights p.nHeight 0`. -/
theorem GetLocator_spec {c : CChain} (hc : c.Valid) {pindex : Option CBlockIndex} {p : CBlockIndex}
    (hp : SkipInvariant p) (hstart : pindex = some p ∨ pindex = none ∧ c.Tip = some p) :
    ∃ entries : List CBlockIndex, c.GetLocator pindex = .ok ⟨entries.map GetBlockHash⟩ ∧
      entries.map nHeight = locatorHeights p.nHeight 0 ∧ ∀ x ∈ entries, IsAncestor x p := by
  obtain ⟨entries, hrun, hheights, hanc⟩ := locatorLoop_spec hc (p.nHeight + 1) p [] hp (by omega)
  simp only [List.length_nil, Nat.zero_sub, pow_zero, List.nil_append] at hrun hheights
  refine ⟨entries, ?_, hheights, hanc⟩
  rcases hstart with rfl | ⟨rfl, htip⟩
  · simp [GetLocator, hrun, bind, Except.bind, pure, Except.pure]
  · simp [GetLocator, htip, hrun, bind, Except.bind, pure, Except.pure]

end CChain

end Palladium.Chain
