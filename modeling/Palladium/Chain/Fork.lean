import Palladium.Chain.Chain

/-!
# Forks: the last common ancestor and `FindFork`

`LastCommonAncestor` (`chain.cpp`) brings the higher of two entries down to
the other's height with `GetAncestor` and then walks both down `pprev` in
lock step until they meet. `CChain::FindFork` walks one entry down until the
active chain contains it, which is the same walk against the chain's entry
at each height. Over entries with correct skip pointers and one genesis,
both return the deepest common ancestor: every other common ancestor lies
below it.
-/

namespace Palladium.Chain

open CBlockIndex

set_option autoImplicit false

namespace CBlockIndex

/-- `a` is reached from `p` by following `pprev`. -/
def IsAncestor (a p : CBlockIndex) : Prop := ∃ d, p.ancestor d = some a

/-- The loop `while (pa != pb && pa && pb)` of `LastCommonAncestor`. -/
def lcaWalk : Option CBlockIndex → Option CBlockIndex → Option CBlockIndex × Option CBlockIndex
  | some (mk fa qa sa), some (mk fb qb sb) =>
    if mk fa qa sa = mk fb qb sb then (some (mk fa qa sa), some (mk fb qb sb)) else lcaWalk qa qb
  | pa, pb => (pa, pb)

/-- `LastCommonAncestor`: equalise the heights, walk down together, and
assert that the walks met. -/
def LastCommonAncestor (pa pb : CBlockIndex) : Except String (Option CBlockIndex) := do
  let start : Option CBlockIndex × Option CBlockIndex ←
    if pa.nHeight > pb.nHeight then do
      let a ← pa.GetAncestor pb.nHeight
      pure (a, some pb)
    else if pb.nHeight > pa.nHeight then do
      let b ← pb.GetAncestor pa.nHeight
      pure (some pa, b)
    else pure (some pa, some pb)
  let (pa, pb) := lcaWalk start.1 start.2
  if pa = pb then pure pa else .error "assert(pa == pb)"

/-! ## Ancestors under the skip invariant -/

theorem IsAncestor.nHeight_le {a p : CBlockIndex} (hp : SkipInvariant p) (h : IsAncestor a p) :
    a.nHeight ≤ p.nHeight := by
  obtain ⟨d, hd⟩ := h
  have := (hp.ancestor_nHeight hd).1
  omega

/-- An ancestor is the one at its own height. -/
theorem isAncestor_iff {a p : CBlockIndex} (hp : SkipInvariant p) :
    IsAncestor a p ↔ a.nHeight ≤ p.nHeight ∧ p.ancestor (p.nHeight - a.nHeight) = some a := by
  constructor
  · rintro ⟨d, hd⟩
    have := (hp.ancestor_nHeight hd).1
    exact ⟨by omega, by rw [show p.nHeight - a.nHeight = d by omega]; exact hd⟩
  · exact fun h => ⟨_, h.2⟩

/-- An ancestor of `p` no higher than another ancestor `a'` of `p` lies below `a'`. -/
theorem ancestor_sub_of_le {p a' c : CBlockIndex} {d i : Nat} (hp : SkipInvariant p)
    (ha : p.ancestor d = some a') (hc : p.ancestor i = some c) (hle : c.nHeight ≤ a'.nHeight) :
    a'.ancestor (i - d) = some c := by
  have h1 := (hp.ancestor_nHeight ha).1
  have h2 := (hp.ancestor_nHeight hc).1
  rw [← ancestor_add ha, show d + (i - d) = i by omega]
  exact hc

/-! ## The lock-step walk -/

theorem lcaWalk_self (a : CBlockIndex) : lcaWalk (some a) (some a) = (some a, some a) := by
  obtain ⟨f, q, s⟩ := a
  simp [lcaWalk]

theorem lcaWalk_pprev {a b qa qb : CBlockIndex} (hab : a ≠ b) (ha : a.pprev = some qa)
    (hb : b.pprev = some qb) : lcaWalk (some a) (some b) = lcaWalk (some qa) (some qb) := by
  obtain ⟨fa, pa, sa⟩ := a
  obtain ⟨fb, pb, sb⟩ := b
  simp only [mk_pprev] at ha hb
  subst ha hb
  rw [lcaWalk, if_neg hab]

/-- From two entries at height `n` with one genesis, the walk stops at the
first distance `m` where their ancestors agree, on that common entry. The
induction is on the height, which each pass lowers by one. -/
theorem lcaWalk_spec : ∀ (n : Nat) (a b : CBlockIndex), SkipInvariant a → SkipInvariant b →
    a.nHeight = n → b.nHeight = n → a.ancestor n = b.ancestor n →
    ∃ m c, lcaWalk (some a) (some b) = (some c, some c) ∧ a.ancestor m = some c ∧
      b.ancestor m = some c ∧ ∀ k < m, a.ancestor k ≠ b.ancestor k := by
  intro n
  induction n with
  | zero =>
    intro a b _ _ _ _ hroot
    simp only [ancestor_zero, Option.some.injEq] at hroot
    subst hroot
    exact ⟨0, a, lcaWalk_self a, rfl, rfl, fun _ h => absurd h (Nat.not_lt_zero _)⟩
  | succ n ih =>
    intro a b ha hb han hbn hroot
    by_cases hab : a = b
    · subst hab
      exact ⟨0, a, lcaWalk_self a, rfl, rfl, fun _ h => absurd h (Nat.not_lt_zero _)⟩
    obtain ⟨qa, hqa, hqai, hqah, -⟩ := ha.pprev_of_pos (by omega)
    obtain ⟨qb, hqb, hqbi, hqbh, -⟩ := hb.pprev_of_pos (by omega)
    rw [ancestor_succ hqa, ancestor_succ hqb] at hroot
    obtain ⟨m, c, hwalk, hm, hm', hmin⟩ := ih qa qb hqai hqbi (by omega) (by omega) hroot
    refine ⟨m + 1, c, by rw [lcaWalk_pprev hab hqa hqb, hwalk], by rw [ancestor_succ hqa, hm],
      by rw [ancestor_succ hqb, hm'], ?_⟩
    -- below the first agreement: the entries differ, and so do their `pprev` ancestors
    intro k hk
    cases k with
    | zero => simpa using hab
    | succ k => rw [ancestor_succ hqa, ancestor_succ hqb]; exact hmin k (by omega)

/-- The entry where two equally high entries first agree has every common
ancestor of them below it. -/
theorem isAncestor_of_first_agreement {a b c c' : CBlockIndex} {m : Nat} (ha : SkipInvariant a)
    (hb : SkipInvariant b) (hh : a.nHeight = b.nHeight) (hm : a.ancestor m = some c)
    (hmin : ∀ k < m, a.ancestor k ≠ b.ancestor k) (h1 : IsAncestor c' a) (h2 : IsAncestor c' b) :
    IsAncestor c' c := by
  obtain ⟨i, hi⟩ := h1
  obtain ⟨j, hj⟩ := h2
  have hi' := (ha.ancestor_nHeight hi).1
  have hj' := (hb.ancestor_nHeight hj).1
  -- a common ancestor sits at the same distance below both
  have hij : i = j := by omega
  subst hij
  have hmi : m ≤ i := Nat.le_of_not_lt fun hlt => hmin i hlt (by rw [hi, hj])
  refine ⟨i - m, ?_⟩
  rw [← ancestor_add hm, show m + (i - m) = i by omega]
  exact hi

/-- The deepest common ancestor of two entries with one genesis: the walk
from the two entries brought to the lower height meets on it. -/
theorem lcaWalk_deepest {x y : CBlockIndex} (hx : SkipInvariant x) (hy : SkipInvariant y)
    (hroot : x.ancestor x.nHeight = y.ancestor y.nHeight) :
    ∃ c, lcaWalk (x.ancestor (x.nHeight - min x.nHeight y.nHeight))
        (y.ancestor (y.nHeight - min x.nHeight y.nHeight)) = (some c, some c) ∧
      IsAncestor c x ∧ IsAncestor c y ∧ ∀ c', IsAncestor c' x → IsAncestor c' y → IsAncestor c' c := by
  set h := min x.nHeight y.nHeight
  obtain ⟨x', hx', hx'h, hx'i⟩ := hx.ancestor_exists (d := x.nHeight - h) (by omega)
  obtain ⟨y', hy', hy'h, hy'i⟩ := hy.ancestor_exists (d := y.nHeight - h) (by omega)
  -- the genesis is `h` below the two lowered entries
  have hroot' : x'.ancestor h = y'.ancestor h := by
    rw [← ancestor_add hx', ← ancestor_add hy', show x.nHeight - h + h = x.nHeight by omega,
      show y.nHeight - h + h = y.nHeight by omega]
    exact hroot
  obtain ⟨m, c, hwalk, hm, hm', hmin⟩ := lcaWalk_spec h x' y' hx'i hy'i (by omega) (by omega) hroot'
  refine ⟨c, by rw [hx', hy', hwalk], ⟨_, by rw [ancestor_add hx']; exact hm⟩,
    ⟨_, by rw [ancestor_add hy']; exact hm'⟩, fun c' h1 h2 => ?_⟩
  have hle : c'.nHeight ≤ h := le_min (h1.nHeight_le hx) (h2.nHeight_le hy)
  obtain ⟨i, hi⟩ := h1
  obtain ⟨j, hj⟩ := h2
  exact isAncestor_of_first_agreement hx'i hy'i (by omega) hm hmin
    ⟨_, ancestor_sub_of_le hx hx' hi (by omega)⟩ ⟨_, ancestor_sub_of_le hy hy' hj (by omega)⟩

/-- Under the skip invariant the first step of `LastCommonAncestor` lowers
both entries to the smaller height. -/
theorem LastCommonAncestor_of_skipInvariant {pa pb : CBlockIndex} (ha : SkipInvariant pa)
    (hb : SkipInvariant pb) :
    LastCommonAncestor pa pb =
      let r := lcaWalk (pa.ancestor (pa.nHeight - min pa.nHeight pb.nHeight))
        (pb.ancestor (pb.nHeight - min pa.nHeight pb.nHeight))
      if r.1 = r.2 then .ok r.1 else .error "assert(pa == pb)" := by
  unfold LastCommonAncestor
  rcases Nat.lt_trichotomy pa.nHeight pb.nHeight with hlt | heq | hgt
  · rw [if_neg (by omega), if_pos hlt, GetAncestor_of_skipInvariant hb, if_neg (by omega),
      min_eq_left hlt.le, Nat.sub_self]
    rfl
  · rw [if_neg (by omega), if_neg (by omega), heq, min_self, Nat.sub_self]
    rfl
  · rw [if_pos hgt, GetAncestor_of_skipInvariant ha, if_neg (by omega),
      min_eq_right hgt.le, Nat.sub_self]
    rfl

/-- `LastCommonAncestor` of two entries with one genesis passes its
assertion and returns a common ancestor that every common ancestor lies
below, so the one of greatest height. -/
theorem LastCommonAncestor_deepest {pa pb : CBlockIndex} (ha : SkipInvariant pa)
    (hb : SkipInvariant pb) (hroot : pa.ancestor pa.nHeight = pb.ancestor pb.nHeight) :
    ∃ c, LastCommonAncestor pa pb = .ok (some c) ∧ IsAncestor c pa ∧ IsAncestor c pb ∧
      ∀ c', IsAncestor c' pa → IsAncestor c' pb → IsAncestor c' c := by
  obtain ⟨c, hwalk, h1, h2, hdeep⟩ := lcaWalk_deepest ha hb hroot
  refine ⟨c, ?_, h1, h2, hdeep⟩
  rw [LastCommonAncestor_of_skipInvariant ha hb]
  simp only [hwalk, if_true]

end CBlockIndex

namespace CChain

/-- The loop `while (pindex && !Contains(pindex)) pindex = pindex->pprev`
of `FindFork`. -/
def findForkLoop (c : CChain) : Option CBlockIndex → Option CBlockIndex
  | some (CBlockIndex.mk f q s) =>
    if c.Contains (CBlockIndex.mk f q s) then some (CBlockIndex.mk f q s) else findForkLoop c q
  | none => none

/-- `CChain::FindFork`: lower `pindex` to the chain's height, then walk
down until the chain contains it. -/
def FindFork (c : CChain) (pindex : Option CBlockIndex) : Except String (Option CBlockIndex) :=
  match pindex with
  | none => .ok none
  | some p => do
    let p ← if (p.nHeight : Int) > c.Height then p.GetAncestor c.Height else pure (some p)
    pure (c.findForkLoop p)

section Tip

variable {c : CChain} {t : CBlockIndex}

/-- On a chain holding the ancestors of its tip `t`, `Contains` is being an
ancestor of `t`. -/
theorem contains_iff (ht : SkipInvariant t) (hlen : c.vChain.length = t.nHeight + 1)
    (hag : Agrees c.vChain t) (x : CBlockIndex) : c.Contains x = true ↔ IsAncestor x t := by
  rw [isAncestor_iff ht]
  unfold Contains get
  by_cases hx : x.nHeight ≤ t.nHeight
  · rw [if_neg (by omega), Int.toNat_natCast, hag _ hx]
    simp [hx]
  · rw [if_pos (by omega)]
    simp [hx]

theorem findForkLoop_some {a : CBlockIndex} (h : c.Contains a = true) :
    c.findForkLoop (some a) = some a := by
  obtain ⟨f, q, s⟩ := a
  simp [findForkLoop, h]

theorem findForkLoop_pprev {a q : CBlockIndex} (h : c.Contains a = false) (hq : a.pprev = some q) :
    c.findForkLoop (some a) = c.findForkLoop (some q) := by
  obtain ⟨f, p, s⟩ := a
  simp only [mk_pprev] at hq
  subst hq
  simp [findForkLoop, h]

/-- `FindFork`'s walk is the lock-step walk against the chain's entry at the
same height: `a` is in the chain exactly when it is that entry. The
induction is on the height. -/
theorem findForkLoop_eq_lcaWalk (ht : SkipInvariant t) (hlen : c.vChain.length = t.nHeight + 1)
    (hag : Agrees c.vChain t) : ∀ (n : Nat) (a b : CBlockIndex), SkipInvariant a → SkipInvariant b →
    a.nHeight = n → b.nHeight = n → t.ancestor (t.nHeight - n) = some b →
    c.findForkLoop (some a) = (lcaWalk (some a) (some b)).1 := by
  intro n
  induction n with
  | zero =>
    intro a b ha hb han hbn htb
    by_cases hab : a = b
    · subst hab
      rw [findForkLoop_some ((contains_iff ht hlen hag a).mpr ⟨_, htb⟩), lcaWalk_self]
    -- two different genesis entries: both walks fall off the bottom
    have hna : c.Contains a = false := by
      rw [Bool.eq_false_iff, ne_eq, contains_iff ht hlen hag, isAncestor_iff ht]
      rintro ⟨-, h⟩
      rw [han, htb] at h
      exact hab (Option.some.inj h).symm
    obtain ⟨fa, qa, sa⟩ := a
    obtain ⟨fb, qb, sb⟩ := b
    cases qa with
    | some _ => simp [SkipInvariant] at ha; simp at han; omega
    | none =>
      cases qb with
      | some _ => simp [SkipInvariant] at hb; simp at hbn; omega
      | none => simp [findForkLoop, hna, lcaWalk, hab]
  | succ n ih =>
    intro a b ha hb han hbn htb
    by_cases hab : a = b
    · subst hab
      rw [findForkLoop_some ((contains_iff ht hlen hag a).mpr ⟨_, htb⟩), lcaWalk_self]
    have hna : c.Contains a = false := by
      rw [Bool.eq_false_iff, ne_eq, contains_iff ht hlen hag, isAncestor_iff ht]
      rintro ⟨-, h⟩
      rw [han, htb] at h
      exact hab (Option.some.inj h).symm
    obtain ⟨qa, hqa, hqai, hqah, -⟩ := ha.pprev_of_pos (by omega)
    obtain ⟨qb, hqb, hqbi, hqbh, -⟩ := hb.pprev_of_pos (by omega)
    have hle : n + 1 ≤ t.nHeight := by
      have := (ht.ancestor_nHeight htb).1
      omega
    -- the chain's entry one height lower is the `pprev` of the one at this height
    have htqb : t.ancestor (t.nHeight - n) = some qb := by
      rw [show t.nHeight - n = t.nHeight - (n + 1) + 1 by omega, ancestor_add htb, ancestor_succ hqb,
        ancestor_zero]
    rw [findForkLoop_pprev hna hqa, lcaWalk_pprev hab hqa hqb]
    exact ih qa qb hqai hqbi (by omega) (by omega) htqb

theorem Height_of_tip (hlen : c.vChain.length = t.nHeight + 1) : c.Height = t.nHeight := by
  simp [Height, hlen]

/-- Under the skip invariant `FindFork` lowers the entry to the smaller of
its height and the chain's. -/
theorem FindFork_some (hlen : c.vChain.length = t.nHeight + 1) {p : CBlockIndex}
    (hp : SkipInvariant p) :
    c.FindFork (some p) = .ok (c.findForkLoop (p.ancestor (p.nHeight - min p.nHeight t.nHeight))) := by
  unfold FindFork
  dsimp only
  rw [Height_of_tip hlen]
  by_cases hgt : t.nHeight < p.nHeight
  · rw [if_pos (by omega), GetAncestor_of_skipInvariant hp, if_neg (by omega), min_eq_right hgt.le,
      Int.toNat_natCast]
    rfl
  · rw [if_neg (by omega), min_eq_left (by omega), Nat.sub_self]
    rfl

/-- On a chain holding the ancestors of its tip `t`, `FindFork` of an entry
with `t`'s genesis is the deepest common ancestor of the entry and `t`, so
the highest ancestor of the entry that the chain contains. -/
theorem FindFork_deepest (ht : SkipInvariant t) (hlen : c.vChain.length = t.nHeight + 1)
    (hag : Agrees c.vChain t) {p : CBlockIndex} (hp : SkipInvariant p)
    (hroot : p.ancestor p.nHeight = t.ancestor t.nHeight) :
    ∃ f, c.FindFork (some p) = .ok (some f) ∧ IsAncestor f p ∧ c.Contains f = true ∧
      ∀ f', IsAncestor f' p → c.Contains f' = true → IsAncestor f' f := by
  obtain ⟨f, hwalk, h1, h2, hdeep⟩ := lcaWalk_deepest hp ht hroot
  set h := min p.nHeight t.nHeight
  obtain ⟨p', hp', hp'h, hp'i⟩ := hp.ancestor_exists (d := p.nHeight - h) (by omega)
  obtain ⟨t', ht', ht'h, ht'i⟩ := ht.ancestor_exists (d := t.nHeight - h) (by omega)
  rw [hp', ht'] at hwalk
  have hloop := findForkLoop_eq_lcaWalk ht hlen hag h p' t' hp'i ht'i (by omega) (by omega) ht'
  refine ⟨f, by rw [FindFork_some hlen hp, hp', hloop, hwalk], h1,
    (contains_iff ht hlen hag f).mpr h2, fun f' hf hc => hdeep f' hf ((contains_iff ht hlen hag f').mp hc)⟩

end Tip

end CChain

/-- For two entries of one tree, `LastCommonAncestor` returns their common
ancestor of greatest height; for a chain holding the ancestors of its tip,
`FindFork` of an entry of the tree returns the highest ancestor of it that
the chain contains, and `FindFork(nullptr)` is `nullptr`. -/
theorem fork_point_is_deepest_common_ancestor :
    (∀ pa pb : CBlockIndex, SkipInvariant pa → SkipInvariant pb →
      pa.ancestor pa.nHeight = pb.ancestor pb.nHeight →
      ∃ c, LastCommonAncestor pa pb = .ok (some c) ∧ IsAncestor c pa ∧ IsAncestor c pb ∧
        ∀ c', IsAncestor c' pa → IsAncestor c' pb → IsAncestor c' c ∧ c'.nHeight ≤ c.nHeight) ∧
    (∀ (c : CChain) (t : CBlockIndex), SkipInvariant t → c.vChain.length = t.nHeight + 1 →
      CChain.Agrees c.vChain t → ∀ p : CBlockIndex, SkipInvariant p →
      p.ancestor p.nHeight = t.ancestor t.nHeight →
      ∃ f, c.FindFork (some p) = .ok (some f) ∧ IsAncestor f p ∧ c.Contains f = true ∧
        ∀ f', IsAncestor f' p → c.Contains f' = true → IsAncestor f' f ∧ f'.nHeight ≤ f.nHeight) ∧
    (∀ c : CChain, c.FindFork none = .ok none) := by
  refine ⟨fun pa pb ha hb hroot => ?_, fun c t ht hlen hag p hp hroot => ?_, fun _ => rfl⟩
  · obtain ⟨c, hlca, h1, h2, hdeep⟩ := LastCommonAncestor_deepest ha hb hroot
    obtain ⟨d, hd⟩ := h1
    have hci := (ha.ancestor_nHeight hd).2
    exact ⟨c, hlca, ⟨d, hd⟩, h2, fun c' h1' h2' =>
      ⟨hdeep c' h1' h2', (hdeep c' h1' h2').nHeight_le hci⟩⟩
  · obtain ⟨f, hff, h1, h2, hdeep⟩ := CChain.FindFork_deepest ht hlen hag hp hroot
    obtain ⟨d, hd⟩ := h1
    have hfi := (hp.ancestor_nHeight hd).2
    exact ⟨f, hff, ⟨d, hd⟩, h2, fun f' h1' h2' =>
      ⟨hdeep f' h1' h2', (hdeep f' h1' h2').nHeight_le hfi⟩⟩

/-- On the empty chain, which holds the ancestors of no tip, `FindFork`
returns `nullptr` for a genesis entry too. -/
theorem find_fork_empty_chain :
    CChain.FindFork ⟨[]⟩ (some (CBlockIndex.mk ⟨0, 0, 0, 0⟩ none none)) = .ok none := by
  simp [CChain.FindFork, CChain.Height, GetAncestor, CChain.findForkLoop]

end Palladium.Chain
