import Palladium.Chain.MedianTime
import Palladium.Lib.ExceptSpec

/-!
# BIP9 deployment states

`AbstractThresholdConditionChecker` (`versionbits.cpp`). `GetStateFor`
computes a deployment's state for the block after `pindexPrev` through a
cache keyed by the last entry of each period. It walks back a period at a
time to an entry the cache knows, or to one whose median time past is before
the start time, and then replays the transitions forward, filling the cache.

The reference is the recursion over period boundaries that BIP9 states:
`periodState`. On every chain accepted by the `time-too-old` rule,
`GetStateFor` returns the reference state from every cache that holds only
reference states, and it leaves such a cache behind. Its answers therefore
depend neither on the cache nor on the queries made before.
`GetStateSinceHeightFor` returns the first height of the run of periods
that share the current state.
-/

namespace Palladium.Chain

open ExceptSpec CBlockIndex

set_option autoImplicit false

/-- `ThresholdState`. -/
inductive ThresholdState where
  | DEFINED
  | STARTED
  | LOCKED_IN
  | ACTIVE
  | FAILED
  deriving DecidableEq, Repr

/-- `Consensus::BIP9Deployment::ALWAYS_ACTIVE`. -/
def ALWAYS_ACTIVE : Int := -1

/-- `ThresholdConditionCache`: the state of the period after each key; the
key `none` is the null pointer, the parent of the genesis block. -/
abbrev ThresholdConditionCache := Option CBlockIndex → Option ThresholdState

/-- The virtual methods of an `AbstractThresholdConditionChecker`, evaluated
at the consensus parameters. -/
structure ThresholdConditionChecker where
  Period : Nat
  Threshold : Int
  BeginTime : Int
  EndTime : Int
  Condition : CBlockIndex → Bool

/-- The entries of a chain the model's lemmas hold for: built by
`AddToBlockIndex` and accepted by the `time-too-old` rule. -/
def ChainAccepted : Option CBlockIndex → Prop
  | none => True
  | some p => WellFormed p ∧ TimesAccepted p

namespace ThresholdConditionChecker

variable (c : ThresholdConditionChecker)

/-! ## `GetStateFor` and `GetStateSinceHeightFor` -/

/-- The first move of `GetStateFor`: to the ancestor whose height is one
below a multiple of `nPeriod`, null below the first period. -/
def periodParent : Option CBlockIndex → Except String (Option CBlockIndex)
  | none => pure none
  | some p => p.GetAncestor ((p.nHeight : Int) - ((p.nHeight : Int) + 1) % (c.Period : Int))

/-- The backward loop of `GetStateFor`. It stops at an entry the cache
knows. For the null pointer, or an entry whose median time past is before
the start time, it caches `DEFINED` and stops. Otherwise it pushes the entry
on `vToCompute` and goes back one period. At most `fuel` periods are passed. -/
def walkBack (fuel : Nat) (pindexPrev : Option CBlockIndex) (cache : ThresholdConditionCache)
    (vToCompute : List CBlockIndex) :
    Except String (Option CBlockIndex × ThresholdConditionCache × List CBlockIndex) :=
  if (cache pindexPrev).isSome then pure (pindexPrev, cache, vToCompute)
  else match pindexPrev with
    | none => pure (none, Function.update cache none (some .DEFINED), vToCompute)
    | some p =>
      if p.GetMedianTimePast < c.BeginTime then
        pure (some p, Function.update cache (some p) (some .DEFINED), vToCompute)
      else match fuel with
        | 0 => throw "out of fuel"
        | fuel + 1 => do
          let q ← p.GetAncestor ((p.nHeight : Int) - (c.Period : Int))
          walkBack fuel q cache (p :: vToCompute)

/-- The counting loop of `GetStateFor`: `count` plus the number of the `n`
entries from `pindexCount` down along `pprev` that meet the condition. -/
def countCondition : Nat → Nat → Option CBlockIndex → Except String Nat
  | count, 0, _ => pure count
  | _, _ + 1, none => throw "pindexCount is null"
  | count, n + 1, some pindexCount =>
    countCondition (if c.Condition pindexCount then count + 1 else count) n pindexCount.pprev

/-- The `switch` of the forward loop: the state of the period after
`pindexPrev` from the state of the period it ends. -/
def nextState (state : ThresholdState) (pindexPrev : CBlockIndex) : Except String ThresholdState :=
  match state with
  | .DEFINED =>
    if pindexPrev.GetMedianTimePast ≥ c.EndTime then pure .FAILED
    else if pindexPrev.GetMedianTimePast ≥ c.BeginTime then pure .STARTED
    else pure .DEFINED
  | .STARTED =>
    if pindexPrev.GetMedianTimePast ≥ c.EndTime then pure .FAILED
    else do
      let count ← c.countCondition 0 c.Period (some pindexPrev)
      pure (if (count : Int) ≥ c.Threshold then .LOCKED_IN else .STARTED)
  | .LOCKED_IN => pure .ACTIVE
  | .FAILED => pure .FAILED
  | .ACTIVE => pure .ACTIVE

/-- One pass of the forward loop: the next state, cached at `pindexPrev`. -/
def forwardStep (acc : ThresholdState × ThresholdConditionCache) (pindexPrev : CBlockIndex) :
    Except String (ThresholdState × ThresholdConditionCache) := do
  let stateNext ← c.nextState acc.1 pindexPrev
  pure (stateNext, Function.update acc.2 (some pindexPrev) (some stateNext))

/-- The assertion after the backward loop and the forward loop, which pops
`vToCompute` from its most recent push, the oldest entry. -/
def walkForward : Option CBlockIndex × ThresholdConditionCache × List CBlockIndex →
    Except String (ThresholdState × ThresholdConditionCache)
  | (pindexPrev, cache, vToCompute) =>
    match cache pindexPrev with
    | none => throw "assert(cache.count(pindexPrev))"
    | some state => vToCompute.foldlM c.forwardStep (state, cache)

/-- `AbstractThresholdConditionChecker::GetStateFor`, returning the state and
the cache. The loop of the source has no bound; here the walk back may pass
as many periods as `pindexPrev` has entries. -/
def GetStateFor (pindexPrev : Option CBlockIndex) (cache : ThresholdConditionCache) :
    Except String (ThresholdState × ThresholdConditionCache) :=
  if c.BeginTime = ALWAYS_ACTIVE then pure (.ACTIVE, cache)
  else do
    let start ← c.periodParent pindexPrev
    let r ← c.walkBack ((pindexPrev.map CBlockIndex.nHeight).getD 0 + 1) start cache []
    c.walkForward r

/-- The loop of `GetStateSinceHeightFor`: back a period while the previous
period has the initial state, with at most `fuel` passes. -/
def sinceLoop (initialState : ThresholdState) :
    Nat → CBlockIndex → Option CBlockIndex → ThresholdConditionCache →
      Except String (Int × ThresholdConditionCache)
  | _, pindexPrev, none, cache => pure ((pindexPrev.nHeight : Int) + 1, cache)
  | fuel, pindexPrev, some previousPeriodParent, cache => do
    let (state, cache) ← c.GetStateFor (some previousPeriodParent) cache
    if state = initialState then
      match fuel with
      | 0 => throw "out of fuel"
      | fuel + 1 => do
        let q ← previousPeriodParent.GetAncestor
          ((previousPeriodParent.nHeight : Int) - (c.Period : Int))
        sinceLoop initialState fuel previousPeriodParent q cache
    else pure ((pindexPrev.nHeight : Int) + 1, cache)

/-- `AbstractThresholdConditionChecker::GetStateSinceHeightFor`. The source
dereferences `pindexPrev` after the `DEFINED` test; a null pointer there is
an error of the model. -/
def GetStateSinceHeightFor (pindexPrev : Option CBlockIndex) (cache : ThresholdConditionCache) :
    Except String (Int × ThresholdConditionCache) :=
  if c.BeginTime = ALWAYS_ACTIVE then pure (0, cache)
  else do
    let (initialState, cache) ← c.GetStateFor pindexPrev cache
    if initialState = .DEFINED then pure (0, cache)
    else match pindexPrev with
      | none => throw "pindexPrev is null"
      | some p => do
        let start ← c.periodParent (some p)
        match start with
        | none => throw "pindexPrev is null"
        | some b => do
          let previousPeriodParent ← b.GetAncestor ((b.nHeight : Int) - (c.Period : Int))
          c.sinceLoop initialState p.nHeight b previousPeriodParent cache

/-- Queries made one after another with one cache, as the callers of
`VersionBitsState` make them: the answers in order and the cache left. -/
def runQueries : List (Option CBlockIndex) → ThresholdConditionCache →
    Except String (List ThresholdState × ThresholdConditionCache)
  | [], cache => pure ([], cache)
  | q :: qs, cache => do
    let (state, cache) ← c.GetStateFor q cache
    let (states, cache) ← runQueries qs cache
    pure (state :: states, cache)

/-! ## The reference -/

/-- The number of the period's `nPeriod` entries, from `b` down, that meet
the condition. -/
def signalling (b : CBlockIndex) : Nat :=
  (List.range c.Period).countP fun i => (b.ancestor i).any c.Condition

/-- BIP9's transition at `b`, the last entry of a period. -/
def transition (state : ThresholdState) (b : CBlockIndex) : ThresholdState :=
  match state with
  | .DEFINED =>
    if c.EndTime ≤ b.GetMedianTimePast then .FAILED
    else if c.BeginTime ≤ b.GetMedianTimePast then .STARTED else .DEFINED
  | .STARTED =>
    if c.EndTime ≤ b.GetMedianTimePast then .FAILED
    else if c.Threshold ≤ (c.signalling b : Int) then .LOCKED_IN else .STARTED
  | .LOCKED_IN => .ACTIVE
  | .FAILED => .FAILED
  | .ACTIVE => .ACTIVE

/-- The last entry before period `j` of the chain down from `p`, at height
`j * nPeriod - 1`; null for the first period. -/
def boundary (p : CBlockIndex) (j : Nat) : Option CBlockIndex :=
  if j = 0 then none else p.ancestor (p.nHeight + 1 - j * c.Period)

/-- The reference recursion: the state of period `j`, the blocks from height
`j * nPeriod`, of the chain down from `p`. -/
def periodState (p : CBlockIndex) : Nat → ThresholdState
  | 0 => .DEFINED
  | j + 1 => match c.boundary p (j + 1) with
    | some b => c.transition (periodState p j) b
    | none => .DEFINED

/-- The reference state of the block after `pindexPrev`. -/
def stateSpec : Option CBlockIndex → ThresholdState
  | none => .DEFINED
  | some p => c.periodState p ((p.nHeight + 1) / c.Period)

/-- `k` is where the run of values `s` of `f` that ends at `K` starts. -/
def RunStart {α : Type} (f : Nat → α) (s : α) (K k : Nat) : Prop :=
  k ≤ K ∧ (∀ j, k ≤ j → j ≤ K → f j = s) ∧ (k = 0 ∨ f (k - 1) ≠ s)

/-- The reference for `GetStateSinceHeightFor`: 0 while the state is
`DEFINED`, and otherwise the first height of the earliest period in the run
of periods, ending at the current one, with the current state. -/
def StateSince : Option CBlockIndex → Int → Prop
  | none, h => h = 0
  | some p, h =>
    if c.periodState p ((p.nHeight + 1) / c.Period) = .DEFINED then h = 0
    else ∃ k : Nat, h = (k * c.Period : Nat) ∧
      RunStart (c.periodState p) (c.periodState p ((p.nHeight + 1) / c.Period))
        ((p.nHeight + 1) / c.Period) k

/-- A cache that holds only reference states. -/
def CacheSound (cache : ThresholdConditionCache) : Prop :=
  ∀ key state, cache key = some state → c.stateSpec key = state

/-- `x` succeeds with `v` and leaves a cache that holds only reference states. -/
def Answers {α : Type} (x : Except String (α × ThresholdConditionCache)) (v : α) : Prop :=
  ∃ cache', x = .ok (v, cache') ∧ c.CacheSound cache'

/-- The entries `acc`, replayed forward from the state of period `j`, reach
that of period `K`, from every cache holding only reference states. -/
def Replays (p : CBlockIndex) (K : Nat) (acc : List CBlockIndex) (j : Nat) : Prop :=
  ∀ cache, c.CacheSound cache →
    c.Answers (acc.foldlM c.forwardStep (c.periodState p j, cache)) (c.periodState p K)

/-! ## The reference along one chain -/

variable {c}

theorem CacheSound.update {cache : ThresholdConditionCache} (h : c.CacheSound cache)
    {key : Option CBlockIndex} {v : ThresholdState} (hv : c.stateSpec key = v) :
    c.CacheSound (Function.update cache key (some v)) := by
  intro key' state hkey
  by_cases hk : key' = key
  · subst hk
    rw [Function.update_self, Option.some.injEq] at hkey
    rw [← hkey, hv]
  · rw [Function.update_of_ne hk] at hkey
    exact h key' state hkey

theorem cacheSound_empty : c.CacheSound fun _ => none := by
  intro key state h
  cases h

@[simp] theorem boundary_zero (p : CBlockIndex) : c.boundary p 0 = none := rfl

theorem boundary_of_pos (p : CBlockIndex) {j : Nat} (hj : 0 < j) :
    c.boundary p j = p.ancestor (p.nHeight + 1 - j * c.Period) := by
  rw [boundary, if_neg (Nat.pos_iff_ne_zero.mp hj)]

theorem periodState_succ {p b : CBlockIndex} {j : Nat} (hb : c.boundary p (j + 1) = some b) :
    c.periodState p (j + 1) = c.transition (c.periodState p j) b := by
  simp [periodState, hb]

/-- Down the chain, the boundaries of the periods that the lower entry has
are the same. -/
theorem boundary_ancestor {p a : CBlockIndex} {d : Nat} (hp : SkipInvariant p)
    (ha : p.ancestor d = some a) {j : Nat} (hj : j * c.Period ≤ a.nHeight + 1) :
    c.boundary a j = c.boundary p j := by
  rcases Nat.eq_zero_or_pos j with rfl | hj0
  · rfl
  have had := (hp.ancestor_nHeight ha).1
  rw [boundary_of_pos a hj0, boundary_of_pos p hj0,
    show p.nHeight + 1 - j * c.Period = d + (a.nHeight + 1 - j * c.Period) by omega,
    ancestor_add ha]

/-- The reference of an entry down the chain is that of the chain, for every
period the entry has. -/
theorem periodState_ancestor {p a : CBlockIndex} {d : Nat} (hp : SkipInvariant p)
    (ha : p.ancestor d = some a) :
    ∀ j, j * c.Period ≤ a.nHeight + 1 → c.periodState a j = c.periodState p j
  | 0, _ => rfl
  | j + 1, hj => by
    have hj' : j * c.Period ≤ a.nHeight + 1 :=
      le_trans (Nat.mul_le_mul_right _ (Nat.le_succ j)) hj
    simp only [periodState, boundary_ancestor hp ha hj, periodState_ancestor hp ha j hj']

/-- The boundaries of a chain are ancestors of each later one. -/
theorem boundary_eq_ancestor {p b : CBlockIndex} {i j : Nat}
    (hi : 0 < i) (hij : i ≤ j) (hj : j * c.Period ≤ p.nHeight + 1)
    (hb : c.boundary p j = some b) :
    c.boundary p i = b.ancestor ((j - i) * c.Period) := by
  have hmul : i * c.Period ≤ j * c.Period := Nat.mul_le_mul_right _ hij
  rw [boundary_of_pos p (lt_of_lt_of_le hi hij)] at hb
  rw [boundary_of_pos p hi, Nat.sub_mul,
    show p.nHeight + 1 - i * c.Period =
      (p.nHeight + 1 - j * c.Period) + (j * c.Period - i * c.Period) by omega,
    ancestor_add hb]

/-- Two entries of one chain in the same period have one reference state. -/
theorem stateSpec_same_period {p a : CBlockIndex} {d : Nat} (hp : SkipInvariant p)
    (ha : p.ancestor d = some a) (hK : (a.nHeight + 1) / c.Period = (p.nHeight + 1) / c.Period) :
    c.stateSpec (some a) = c.stateSpec (some p) := by
  have hle : (p.nHeight + 1) / c.Period * c.Period ≤ a.nHeight + 1 := by
    rw [← hK]
    exact Nat.div_mul_le_self _ _
  rw [stateSpec, stateSpec, hK]
  exact periodState_ancestor hp ha _ hle

section Boundaries

variable (hP : 0 < c.Period)
include hP

/-- Every period up to the chain's own has its last entry, one below a
multiple of `nPeriod`. -/
theorem boundary_spec {p : CBlockIndex} (hp : SkipInvariant p) {j : Nat} (hj0 : 0 < j)
    (hj : j * c.Period ≤ p.nHeight + 1) :
    ∃ b, c.boundary p j = some b ∧ b.nHeight + 1 = j * c.Period ∧ SkipInvariant b := by
  have hpos : 0 < j * c.Period := Nat.mul_pos hj0 hP
  obtain ⟨b, hb, hbh, hbi⟩ := hp.ancestor_exists (d := p.nHeight + 1 - j * c.Period) (by omega)
  exact ⟨b, by rw [boundary_of_pos p hj0, hb], by omega, hbi⟩

/-- The reference read at a boundary is the chain's reference for its period. -/
theorem stateSpec_boundary {p : CBlockIndex} (hp : SkipInvariant p) {j : Nat}
    (hj : j * c.Period ≤ p.nHeight + 1) :
    c.stateSpec (c.boundary p j) = c.periodState p j := by
  rcases Nat.eq_zero_or_pos j with rfl | hj0
  · rfl
  obtain ⟨b, hb, hbh, -⟩ := boundary_spec hP hp hj0 hj
  have hpb : p.ancestor (p.nHeight + 1 - j * c.Period) = some b := by
    rw [← boundary_of_pos p hj0]
    exact hb
  rw [hb, stateSpec, hbh, Nat.mul_div_cancel _ hP]
  exact periodState_ancestor hp hpb j (le_of_eq hbh.symm)

/-- `GetStateFor`'s first move lands on the boundary of the chain's period. -/
theorem periodParent_some {p : CBlockIndex} (hp : SkipInvariant p) :
    c.periodParent (some p) = .ok (c.boundary p ((p.nHeight + 1) / c.Period)) := by
  have hdiv : (p.nHeight + 1) % c.Period + (p.nHeight + 1) / c.Period * c.Period =
      p.nHeight + 1 := Nat.mod_add_div' _ _
  have hcast : ((p.nHeight : Int) + 1) % (c.Period : Int) =
      (((p.nHeight + 1) % c.Period : Nat) : Int) := by push_cast; rfl
  rw [periodParent, GetAncestor_of_skipInvariant hp, hcast]
  rcases Nat.eq_zero_or_pos ((p.nHeight + 1) / c.Period) with hK | hK
  · rw [hK, Nat.zero_mul] at hdiv
    rw [hK, if_pos (by omega)]
    rfl
  · have hpos : 0 < (p.nHeight + 1) / c.Period * c.Period := Nat.mul_pos hK hP
    rw [if_neg (by omega), boundary_of_pos p hK]
    congr 2
    omega

/-- From the boundary of period `i + 1`, `GetAncestor` goes back to the
boundary of period `i`. -/
theorem GetAncestor_boundary_succ {p b : CBlockIndex} (hp : SkipInvariant p) {i : Nat}
    (hj : (i + 1) * c.Period ≤ p.nHeight + 1) (hb : c.boundary p (i + 1) = some b) :
    b.GetAncestor ((b.nHeight : Int) - (c.Period : Int)) = .ok (c.boundary p i) := by
  obtain ⟨b', hb', hbh, hbi⟩ := boundary_spec hP hp (j := i + 1) (Nat.succ_pos i) hj
  rw [hb] at hb'
  cases hb'
  rw [GetAncestor_of_skipInvariant hbi]
  rcases Nat.eq_zero_or_pos i with rfl | hi
  · rw [if_pos (by omega)]
    rfl
  · have hpos : 0 < i * c.Period := Nat.mul_pos hi hP
    rw [Nat.succ_mul] at hbh
    rw [if_neg (by omega), boundary_eq_ancestor hi (Nat.le_succ i) hj hb,
      show i + 1 - i = 1 by omega, Nat.one_mul]
    congr 2
    omega

end Boundaries

/-! ## The loops against the reference -/

/-- The counting loop counts the entries that meet the condition, as long
as the chain has them all. -/
theorem countCondition_eq : ∀ {b : CBlockIndex}, SkipInvariant b → ∀ n count,
    n ≤ b.nHeight + 1 →
      c.countCondition count n (some b) =
        .ok (count + (List.range n).countP fun i => (b.ancestor i).any c.Condition)
  | _, _, 0, count, _ => by simp [countCondition]
  | b, hb, n + 1, count, hn => by
    have hcons : ((List.range (n + 1)).countP fun i => (b.ancestor i).any c.Condition) =
        (if c.Condition b then 1 else 0) +
          (List.range n).countP fun i => (b.ancestor (i + 1)).any c.Condition := by
      rw [List.range_succ_eq_map, List.countP_cons, List.countP_map]
      by_cases hc : c.Condition b
      · simp [hc, Function.comp_def]
        omega
      · simp [hc, Function.comp_def]
    rw [countCondition, hcons]
    rcases Nat.eq_zero_or_pos n with rfl | hn0
    · by_cases hc : c.Condition b <;> simp [hc, countCondition]
    · obtain ⟨q, hq, hqi, hh, -⟩ := hb.pprev_of_pos (by omega)
      rw [hq, countCondition_eq hqi n _ (by omega)]
      simp only [ancestor_succ hq]
      by_cases hc : c.Condition b
      · simp [hc]
        omega
      · simp [hc]

/-- On an entry with a whole period below it, the `switch` of the forward
loop is BIP9's transition. -/
theorem nextState_eq {b : CBlockIndex} (hb : SkipInvariant b) (hP : c.Period ≤ b.nHeight + 1)
    (state : ThresholdState) : c.nextState state b = .ok (c.transition state b) := by
  by_cases hend : c.EndTime ≤ b.GetMedianTimePast
  · cases state <;> simp [nextState, transition, hend]
  cases state with
  | DEFINED =>
    by_cases hbeg : c.BeginTime ≤ b.GetMedianTimePast <;> simp [nextState, transition, hend, hbeg]
  | STARTED =>
    by_cases hcount : c.Threshold ≤
        ((List.range c.Period).countP fun i => (b.ancestor i).any c.Condition : Nat) <;>
      simp [nextState, transition, signalling, hend, countCondition_eq hb _ 0 hP, hcount]
  | LOCKED_IN => rfl
  | ACTIVE => rfl
  | FAILED => rfl

/-- The forward loop started from a state `s` at its entry. -/
theorem walkForward_of_cached {x : Option CBlockIndex} {cache : ThresholdConditionCache}
    {acc : List CBlockIndex} {s v : ThresholdState} (hx : cache x = some s)
    (hcache : c.CacheSound cache)
    (hrep : ∀ cache, c.CacheSound cache → c.Answers (acc.foldlM c.forwardStep (s, cache)) v) :
    c.Answers (c.walkForward (x, cache, acc)) v := by
  rw [walkForward, hx]
  exact hrep cache hcache

/-- From the null pointer, the backward loop stops with `DEFINED` cached. -/
theorem walkBack_none {cache : ThresholdConditionCache} (hcache : c.CacheSound cache)
    (fuel : Nat) (acc : List CBlockIndex) :
    ∃ cache', c.walkBack fuel none cache acc = .ok (none, cache', acc) ∧
      cache' none = some .DEFINED ∧ c.CacheSound cache' := by
  cases hc : cache none with
  | some v =>
    have hv : ThresholdState.DEFINED = v := hcache none v hc
    subst hv
    exact ⟨cache, by rw [walkBack.eq_def, if_pos (by simp [hc])]; rfl, hc, hcache⟩
  | none =>
    refine ⟨_, by rw [walkBack.eq_def, if_neg (by simp [hc])]; rfl, Function.update_self .., ?_⟩
    exact hcache.update rfl

section Replay

variable (hP : 0 < c.Period) (hse : c.BeginTime ≤ c.EndTime)
include hP hse

/-- The shortcut of the backward loop is sound: below a boundary whose median
time past is before the start time, every period is `DEFINED`, since the
median time past only grows along the chain and the start is not after the
timeout. -/
theorem periodState_eq_DEFINED {p b : CBlockIndex} (hp : SkipInvariant p)
    (hta : TimesAccepted p) {j : Nat} (hj : j * c.Period ≤ p.nHeight + 1)
    (hb : c.boundary p j = some b) (hmtp : b.GetMedianTimePast < c.BeginTime) :
    ∀ i ≤ j, c.periodState p i = .DEFINED := by
  have htb : TimesAccepted b := by
    have hj0 : 0 < j := Nat.pos_of_ne_zero fun h => by subst h; cases hb
    rw [boundary_of_pos p hj0] at hb
    exact hta.ancestor hb
  intro i
  induction i with
  | zero => intro _; rfl
  | succ i ih =>
    intro hi
    have hij : (i + 1) * c.Period ≤ p.nHeight + 1 :=
      le_trans (Nat.mul_le_mul_right _ hi) hj
    obtain ⟨b', hb', -, -⟩ := boundary_spec hP hp (j := i + 1) (Nat.succ_pos i) hij
    have hanc : b.ancestor ((j - (i + 1)) * c.Period) = some b' := by
      rw [← boundary_eq_ancestor (Nat.succ_pos i) hi hj hb, hb']
    have hle := (GetMedianTimePast_monotone htb).2 _ _ hanc
    rw [periodState_succ hb', ih (by omega), transition, if_neg (by omega), if_neg (by omega)]

/-- The backward loop from the boundary of period `j`, with the entries
`acc` still to replay, then the forward loop: the state of period `K`. The
induction is on `j`; a pass of the backward loop adds to `acc` the entry
that the forward loop replays first. -/
theorem walkBack_spec {p : CBlockIndex} (hp : SkipInvariant p) (hta : TimesAccepted p)
    {K : Nat} (hK : K * c.Period ≤ p.nHeight + 1) :
    ∀ j fuel cache acc, j ≤ K → j ≤ fuel → c.CacheSound cache → c.Replays p K acc j →
      c.Answers (c.walkBack fuel (c.boundary p j) cache acc >>= c.walkForward)
        (c.periodState p K) := by
  intro j
  induction j with
  | zero =>
    intro fuel cache acc _ _ hcache hrep
    obtain ⟨cache', hrun, hnone, hsound⟩ := walkBack_none hcache fuel acc
    rw [boundary_zero, hrun, ok_bind]
    exact walkForward_of_cached hnone hsound hrep
  | succ j ih =>
    intro fuel cache acc hjK hjf hcache hrep
    have hj : (j + 1) * c.Period ≤ p.nHeight + 1 := le_trans (Nat.mul_le_mul_right _ hjK) hK
    obtain ⟨b, hb, hbh, hbi⟩ := boundary_spec hP hp (j := j + 1) (Nat.succ_pos j) hj
    have hspec : c.stateSpec (some b) = c.periodState p (j + 1) := by
      rw [← hb]
      exact stateSpec_boundary hP hp hj
    rw [hb]
    cases hc : cache (some b) with
    | some v =>
      -- the cache knows the boundary, and holds its reference state
      rw [walkBack.eq_def, if_pos (by simp [hc]), pure_eq_ok, ok_bind]
      rw [← hcache _ v hc, hspec] at hc
      exact walkForward_of_cached hc hcache hrep
    | none =>
      rw [walkBack.eq_def, if_neg (by simp [hc])]
      by_cases hmtp : b.GetMedianTimePast < c.BeginTime
      · -- the shortcut: `DEFINED` without going further back
        have hdef := periodState_eq_DEFINED hP hse hp hta hj hb hmtp (j + 1) le_rfl
        have hx : Function.update cache (some b) (some .DEFINED) (some b) =
            some (c.periodState p (j + 1)) := by rw [Function.update_self, hdef]
        simp only [if_pos hmtp, pure_eq_ok, ok_bind]
        exact walkForward_of_cached hx (hcache.update (hspec.trans hdef)) hrep
      · -- one period back, with `b` to replay first
        obtain ⟨fuel, rfl⟩ : ∃ f, fuel = f + 1 := ⟨fuel - 1, by omega⟩
        simp only [if_neg hmtp, GetAncestor_boundary_succ hP hp hj hb, ok_bind]
        refine ih fuel cache (b :: acc) (by omega) (by omega) hcache fun cache' hcache' => ?_
        have hPb : c.Period ≤ b.nHeight + 1 := by
          rw [hbh]
          exact Nat.le_mul_of_pos_left _ (Nat.succ_pos j)
        rw [List.foldlM_cons, forwardStep, nextState_eq hbi hPb, ok_bind, pure_eq_ok,
          ok_bind, ← periodState_succ hb]
        exact hrep _ (hcache'.update hspec)

end Replay

/-! ## `GetStateFor` is the reference -/

theorem GetStateFor_none (hne : c.BeginTime ≠ ALWAYS_ACTIVE) {cache : ThresholdConditionCache}
    (hcache : c.CacheSound cache) : c.Answers (c.GetStateFor none cache) .DEFINED := by
  obtain ⟨cache', hrun, hnone, hsound⟩ := walkBack_none hcache 1 []
  rw [GetStateFor, if_neg hne]
  simp only [periodParent, pure_eq_ok, ok_bind, Option.map_none, Option.getD_none,
    Nat.zero_add, hrun]
  exact walkForward_of_cached hnone hsound fun cache h => ⟨cache, rfl, h⟩

section Queries

variable (hP : 0 < c.Period) (hse : c.BeginTime ≤ c.EndTime) (hne : c.BeginTime ≠ ALWAYS_ACTIVE)
include hP hse hne

theorem GetStateFor_some {p : CBlockIndex} (hp : SkipInvariant p) (hta : TimesAccepted p)
    {cache : ThresholdConditionCache} (hcache : c.CacheSound cache) :
    c.Answers (c.GetStateFor (some p) cache) (c.stateSpec (some p)) := by
  have hK : (p.nHeight + 1) / c.Period * c.Period ≤ p.nHeight + 1 := Nat.div_mul_le_self _ _
  rw [GetStateFor, if_neg hne]
  simp only [periodParent_some hP hp, ok_bind, Option.map_some, Option.getD_some]
  exact walkBack_spec hP hse hp hta hK _ _ cache [] le_rfl (Nat.div_le_self _ _) hcache
    fun cache h => ⟨cache, rfl, h⟩

/-- On every accepted chain and from every cache holding only reference
states, `GetStateFor` returns the reference state and leaves such a cache. -/
theorem GetStateFor_answers {pindexPrev : Option CBlockIndex} (hp : ChainAccepted pindexPrev)
    {cache : ThresholdConditionCache} (hcache : c.CacheSound cache) :
    c.Answers (c.GetStateFor pindexPrev cache) (c.stateSpec pindexPrev) := by
  cases pindexPrev with
  | none => exact GetStateFor_none hne hcache
  | some p => exact GetStateFor_some hP hse hne hp.1.skipInvariant hp.2 hcache

/-- Every sequence of queries on accepted chains gets the reference answers,
whatever the order, and leaves a cache holding only reference states. -/
theorem runQueries_answers : ∀ {queries : List (Option CBlockIndex)},
    (∀ q ∈ queries, ChainAccepted q) → ∀ {cache : ThresholdConditionCache},
      c.CacheSound cache → c.Answers (c.runQueries queries cache) (queries.map c.stateSpec)
  | [], _, cache, hcache => ⟨cache, rfl, hcache⟩
  | q :: qs, hqs, cache, hcache => by
    obtain ⟨cache₁, h₁, hs₁⟩ :=
      GetStateFor_answers hP hse hne (hqs q List.mem_cons_self) hcache
    obtain ⟨cache₂, h₂, hs₂⟩ :=
      runQueries_answers (fun q' hq' => hqs q' (List.mem_cons_of_mem q hq')) hs₁
    refine ⟨cache₂, ?_, hs₂⟩
    rw [runQueries, h₁, ok_bind]
    dsimp only
    rw [h₂, ok_bind, List.map_cons]
    rfl

/-- The loop of `GetStateSinceHeightFor` from the boundary of period `i + 1`,
while the periods from `i + 1` to `K` have the state `s`: the first period
of the run. The induction is on `i`. -/
theorem sinceLoop_spec {p : CBlockIndex} (hp : SkipInvariant p) (hta : TimesAccepted p)
    {K : Nat} (hK : K * c.Period ≤ p.nHeight + 1) {s : ThresholdState}
    (hs : s ≠ .DEFINED) :
    ∀ i fuel b cache, i + 1 ≤ K → i ≤ fuel → c.boundary p (i + 1) = some b →
      (∀ j, i + 1 ≤ j → j ≤ K → c.periodState p j = s) → c.CacheSound cache →
      ∃ k, RunStart (c.periodState p) s K k ∧
        c.Answers (c.sinceLoop s fuel b (c.boundary p i) cache) ((k * c.Period : Nat) : Int) := by
  intro i
  induction i with
  | zero =>
    intro fuel b cache hiK _ hb hrun hcache
    obtain ⟨b', hb', hbh, -⟩ := boundary_spec hP hp (j := 0 + 1) (Nat.succ_pos 0) (le_trans (Nat.mul_le_mul_right _ hiK) hK)
    rw [hb] at hb'
    cases hb'
    refine ⟨1, ⟨hiK, hrun, .inr fun h => hs (h.symm.trans rfl)⟩, cache, ?_, hcache⟩
    rw [boundary_zero, sinceLoop]
    congr 2
    omega
  | succ i ih =>
    intro fuel b cache hiK hif hb hrun hcache
    have hj : (i + 1 + 1) * c.Period ≤ p.nHeight + 1 := le_trans (Nat.mul_le_mul_right _ hiK) hK
    have hj' : (i + 1) * c.Period ≤ p.nHeight + 1 :=
      le_trans (Nat.mul_le_mul_right _ (Nat.le_succ _)) hj
    obtain ⟨b', hb', hbh, -⟩ := boundary_spec hP hp (j := i + 1 + 1) (Nat.succ_pos _) hj
    rw [hb] at hb'
    cases hb'
    obtain ⟨q, hq, -, hqi⟩ := boundary_spec hP hp (j := i + 1) (Nat.succ_pos i) hj'
    have hqa : TimesAccepted q := by
      rw [boundary_of_pos p (Nat.succ_pos i)] at hq
      exact hta.ancestor hq
    obtain ⟨cache₁, hget, hs₁⟩ := GetStateFor_some hP hse hne hqi hqa hcache
    have hstate : c.stateSpec (some q) = c.periodState p (i + 1) := by
      rw [← hq]
      exact stateSpec_boundary hP hp hj'
    rw [hq, sinceLoop, hget, ok_bind]
    dsimp only
    rw [hstate]
    by_cases heq : c.periodState p (i + 1) = s
    · -- the previous period has the state too: one period back
      obtain ⟨fuel, rfl⟩ : ∃ f, fuel = f + 1 := ⟨fuel - 1, by omega⟩
      rw [if_pos heq]
      simp only [GetAncestor_boundary_succ hP hp hj' hq, ok_bind]
      refine ih fuel q cache₁ (by omega) (by omega) hq (fun j hj1 hjK => ?_) hs₁
      rcases Nat.lt_or_ge j (i + 1 + 1) with hlt | hge
      · rw [show j = i + 1 by omega]
        exact heq
      · exact hrun j hge hjK
    · -- the run starts at period `i + 2`
      rw [if_neg heq]
      refine ⟨i + 1 + 1, ⟨hiK, hrun, .inr heq⟩, cache₁, ?_, hs₁⟩
      congr 2
      omega

/-- `GetStateSinceHeightFor` returns the first height of the run of periods
with the current state. -/
theorem GetStateSinceHeightFor_spec {pindexPrev : Option CBlockIndex}
    (hp : ChainAccepted pindexPrev) {cache : ThresholdConditionCache}
    (hcache : c.CacheSound cache) :
    ∃ h, c.StateSince pindexPrev h ∧ c.Answers (c.GetStateSinceHeightFor pindexPrev cache) h := by
  obtain ⟨cache₁, hget, hs₁⟩ := GetStateFor_answers hP hse hne hp hcache
  cases pindexPrev with
  | none =>
    refine ⟨0, rfl, cache₁, ?_, hs₁⟩
    rw [GetStateSinceHeightFor, if_neg hne, hget, ok_bind]
    rfl
  | some p =>
    obtain ⟨hwf, hta⟩ := hp
    have hpi := hwf.skipInvariant
    have hK : (p.nHeight + 1) / c.Period * c.Period ≤ p.nHeight + 1 := Nat.div_mul_le_self _ _
    rw [GetStateSinceHeightFor, if_neg hne, hget, ok_bind]
    dsimp only
    by_cases hdef : c.periodState p ((p.nHeight + 1) / c.Period) = .DEFINED
    · refine ⟨0, by rw [StateSince, if_pos hdef], cache₁, ?_, hs₁⟩
      rw [stateSpec, if_pos hdef]
      rfl
    · -- the state is not `DEFINED`, so the chain has reached a later period
      have hK0 : 0 < (p.nHeight + 1) / c.Period :=
        Nat.pos_of_ne_zero fun h => hdef (by rw [h]; rfl)
      have hKle : (p.nHeight + 1) / c.Period ≤ p.nHeight + 1 := Nat.div_le_self _ _
      obtain ⟨i, hi⟩ : ∃ i, (p.nHeight + 1) / c.Period = i + 1 := ⟨_, (Nat.succ_pred_eq_of_pos hK0).symm⟩
      obtain ⟨b, hb, -, -⟩ := boundary_spec hP hpi (j := i + 1) (Nat.succ_pos i) (hi ▸ hK)
      obtain ⟨k, hk, hans⟩ := sinceLoop_spec hP hse hne hpi hta hK hdef i p.nHeight b cache₁
        (by omega) (by omega) (hi ▸ hb)
        (fun j hj1 hjK => by rw [show j = (p.nHeight + 1) / c.Period by omega]) hs₁
      refine ⟨(k * c.Period : Nat), ?_, ?_⟩
      · rw [StateSince, if_neg hdef]
        exact ⟨k, rfl, hk⟩
      · rw [stateSpec, if_neg hdef, periodParent_some hP hpi, ok_bind, hi, hb]
        dsimp only
        rw [GetAncestor_boundary_succ hP hpi (hi ▸ hK) (hi ▸ hb), ok_bind, ← hi]
        exact hans

end Queries

/-- Three headers at heights 0 to 2 with times 2, 4 and 5. -/
def threeHeaders : CBlockIndex :=
  .mk ⟨2, 5, 0, 2⟩ (some (.mk ⟨1, 4, 0, 1⟩ (some (.mk ⟨0, 2, 0, 0⟩ none none))
    (some (.mk ⟨0, 2, 0, 0⟩ none none)))) (some (.mk ⟨0, 2, 0, 0⟩ none none))

/-- A deployment with periods of two blocks, started at time 0. -/
def twoBlockPeriods : ThresholdConditionChecker :=
  ⟨2, 1, 0, 100, fun _ => true⟩

example : (twoBlockPeriods.GetStateFor (some threeHeaders) fun _ => none).map Prod.fst =
    .ok .STARTED := rfl

end ThresholdConditionChecker

end Palladium.Chain
