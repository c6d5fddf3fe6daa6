import Palladium.Chain.BlockIndex

/-!
# Difficulty adjustment

`pow.cpp`: `GetNextWorkRequired` switches at height 29000 from the Bitcoin
retarget to `LwmaCalculateNextWorkRequired`, a linearly weighted moving
average over the last 240 blocks. The `int64_t` arithmetic of the source is
kept on `Int` (it stays far from the 64-bit range for the parameters used) and
the targets on `arith_uint256`; `GetAncestor` failures, null dereferences and
division by zero are the `Except` errors.
-/

namespace Palladium.Pow

open Palladium.Arith Palladium.Chain Palladium.Chain.CBlockIndex

set_option autoImplicit false

/-- The fields of `Consensus::Params` that `pow.cpp` reads. -/
structure Params where
  powLimit : uint256
  nPowTargetSpacing : Int
  nPowTargetSpacingV2 : Int
  nPowTargetTimespan : Int
  fPowAllowMinDifficultyBlocks : Bool
  fPowNoRetargeting : Bool

/-- `Consensus::Params::DifficultyAdjustmentInterval`. -/
def Params.DifficultyAdjustmentInterval (params : Params) : Int :=
  params.nPowTargetTimespan.tdiv params.nPowTargetSpacing

/-- `CMainParams` (`chainparams.cpp`), the proof-of-work part. -/
def mainParams : Params where
  powLimit := 0x00000000ffffffffffffffffffffffffffffffffffffffffffffffffffffffff
  nPowTargetSpacing := 10 * 60
  nPowTargetSpacingV2 := 2 * 60
  nPowTargetTimespan := 14 * 24 * 60 * 60
  fPowAllowMinDifficultyBlocks := false
  fPowNoRetargeting := false

/-- The header fields of the new block that `GetNextWorkRequired` reads. -/
structure CBlockHeader where
  nTime : UInt32

/-- The conversion of an `int64_t` to `arith_uint256` through `base_uint(uint64_t)`. -/
def ofInt64 (v : Int) : arith_uint256 := ofUInt64 (UInt64.ofInt v)

/-- Dereferencing a block index pointer. -/
def deref : Option CBlockIndex → Except String CBlockIndex
  | some p => .ok p
  | none => .error "null pointer dereference"

/-- The variables the LWMA loop carries from one block to the next. -/
structure LwmaState where
  previousTimestamp : Int
  t : Int
  j : Int
  sumTarget : arith_uint256

/-- One iteration of the loop of `LwmaCalculateNextWorkRequired`, for the
block at height `i`. -/
def lwmaStep (T : Int) (pindexLast : CBlockIndex) (i : Int) (st : LwmaState) :
    Except String LwmaState := do
  let N : Int := 240
  let k : Int := (N * (N + 1) * T).tdiv 2
  let block ← deref (← pindexLast.GetAncestor i)
  -- an out-of-order or equal timestamp counts one second after the previous
  let thisTimestamp := if block.GetBlockTime > st.previousTimestamp then block.GetBlockTime
    else st.previousTimestamp + 1
  let solvetime := min (6 * T) (thisTimestamp - st.previousTimestamp)
  let j := st.j + 1
  let target := (SetCompact block.nBits).value
  let share ← div target (ofInt64 (k * N))
  pure { previousTimestamp := thisTimestamp, t := st.t + solvetime * j, j,
         sumTarget := st.sumTarget + share }

/-- The loop `for (i = height - N + 1; i <= height; i++)`, as `count`
iterations from `i`. -/
def lwmaLoop (T : Int) (pindexLast : CBlockIndex) : Int → Nat → LwmaState → Except String LwmaState
  | _, 0, st => pure st
  | i, count + 1, st => do
    let st ← lwmaStep T pindexLast i st
    lwmaLoop T pindexLast (i + 1) count st

/-- `LwmaCalculateNextWorkRequired` up to the end of its loop: the weighted
solve-time sum `t` and the target sum `sumTarget` over the last 240 blocks. -/
def lwmaWindow (pindexLast : CBlockIndex) (params : Params) : Except String LwmaState := do
  let N : Int := 240
  let height : Int := pindexLast.nHeight
  let blockPreviousTimestamp ← deref (← pindexLast.GetAncestor (height - N))
  lwmaLoop params.nPowTargetSpacingV2 pindexLast (height - N + 1) 240
    { previousTimestamp := blockPreviousTimestamp.GetBlockTime, t := 0, j := 0, sumTarget := 0 }

/-- `LwmaCalculateNextWorkRequired`. -/
def LwmaCalculateNextWorkRequired (pindexLast : CBlockIndex) (params : Params) :
    Except String UInt32 := do
  let powLimit := UintToArith256 params.powLimit
  if (pindexLast.nHeight : Int) < 240 then return GetCompact powLimit false
  let st ← lwmaWindow pindexLast params
  let nextTarget := ofInt64 st.t * st.sumTarget
  let nextTarget := if nextTarget > powLimit then powLimit else nextTarget
  return GetCompact nextTarget false

/-- `CalculateNextWorkRequired`, the retarget of the first 28930 blocks. -/
def CalculateNextWorkRequired (pindexLast : CBlockIndex) (nFirstBlockTime : Int) (params : Params) :
    UInt32 :=
  if params.fPowNoRetargeting then pindexLast.nBits
  else
    -- limit the adjustment step
    let nActualTimespan := pindexLast.GetBlockTime - nFirstBlockTime
    let nActualTimespan := if nActualTimespan < params.nPowTargetTimespan.tdiv 4
      then params.nPowTargetTimespan.tdiv 4 else nActualTimespan
    let nActualTimespan := if nActualTimespan > params.nPowTargetTimespan * 4
      then params.nPowTargetTimespan * 4 else nActualTimespan
    let bnPowLimit := UintToArith256 params.powLimit
    -- `operator*=(uint32_t)`, then `operator/=` by the timespan as a `base_uint`
    let bnNew := (SetCompact pindexLast.nBits).value * BitVec.ofNat 256 (UInt32.ofInt nActualTimespan).toNat
    let bnNew := bnNew / ofInt64 params.nPowTargetTimespan
    let bnNew := if bnNew > bnPowLimit then bnPowLimit else bnNew
    GetCompact bnNew false

/-- The `while` loop of the testnet rule: the last block that is not a
special minimum-difficulty block. -/
def lastNonSpecial (interval : Int) (nProofOfWorkLimit : UInt32) : CBlockIndex → CBlockIndex
  | CBlockIndex.mk f (some q) s =>
    if (f.nHeight : Int).tmod interval ≠ 0 ∧ f.nBits = nProofOfWorkLimit then
      lastNonSpecial interval nProofOfWorkLimit q
    else CBlockIndex.mk f (some q) s
  | CBlockIndex.mk f none s => CBlockIndex.mk f none s

/-- `GetNextWorkRequired`. -/
def GetNextWorkRequired (pindexLast : CBlockIndex) (pblock : CBlockHeader) (params : Params) :
    Except String UInt32 := do
  let nProofOfWorkLimit := GetCompact (UintToArith256 params.powLimit) false
  let height : Int := pindexLast.nHeight
  -- reset difficulty for the new algorithm's average and Segwit/CSV activation
  if 28930 ≤ height ∧ height ≤ 28999 then return nProofOfWorkLimit
  if 29000 ≤ height then return ← LwmaCalculateNextWorkRequired pindexLast params
  if (height + 1).tmod params.DifficultyAdjustmentInterval ≠ 0 then
    if params.fPowAllowMinDifficultyBlocks then
      if (pblock.nTime.toNat : Int) > pindexLast.GetBlockTime + params.nPowTargetSpacing * 2 then
        return nProofOfWorkLimit
      else
        return (lastNonSpecial params.DifficultyAdjustmentInterval nProofOfWorkLimit pindexLast).nBits
    return pindexLast.nBits
  -- go back by what we want to be 14 days worth of blocks
  let nHeightFirst := height - (params.DifficultyAdjustmentInterval - 1)
  if nHeightFirst < 0 then throw "assert(nHeightFirst >= 0)"
  let pindexFirst ← deref (← pindexLast.GetAncestor nHeightFirst)
  return CalculateNextWorkRequired pindexLast pindexFirst.GetBlockTime params

/-- `CheckProofOfWork`. -/
def CheckProofOfWork (hash : uint256) (nBits : UInt32) (params : Params) : Bool :=
  let bnTarget := SetCompact nBits
  if bnTarget.fNegative || bnTarget.value == 0 || bnTarget.fOverflow ||
      bnTarget.value > UintToArith256 params.powLimit then false
  else !(UintToArith256 hash > bnTarget.value)

/-! ## The loop on a well formed chain -/

theorem ofInt64_toNat {v : Int} (h0 : 0 ≤ v) (h1 : v < 2 ^ 64) : (ofInt64 v).toNat = v.toNat := by
  simp [ofInt64, ofUInt64, UInt64.ofInt]
  omega

theorem GetAncestor_ok {p : CBlockIndex} (hp : SkipInvariant p) {i : Int} (hi0 : 0 ≤ i)
    (hi : i ≤ p.nHeight) {b : CBlockIndex} (hb : p.ancestor (p.nHeight - i.toNat) = some b) :
    p.GetAncestor i = .ok (some b) := by
  rw [GetAncestor_of_skipInvariant hp, if_neg (by omega), hb]

/-- The divisor `k * N` of the main network, `k = N(N+1)T/2` with `N = 240`, `T = 120`. -/
theorem ofInt64_kN : ofInt64 ((240 * (240 + 1) * 120 : Int).tdiv 2 * 240) = BitVec.ofNat 256 832896000 := by
  decide

/-- One LWMA iteration on a block of the chain: the solve time it adds is
clamped to `[1, 6T]`, and the block's target share is added to `sumTarget`. -/
theorem lwmaStep_ok {p : CBlockIndex} (hp : SkipInvariant p) {i : Int} (hi0 : 0 ≤ i)
    (hi : i ≤ p.nHeight) {b : CBlockIndex} (hb : p.ancestor (p.nHeight - i.toNat) = some b)
    (st : LwmaState) :
    ∃ s : Int, ∃ st1, 1 ≤ s ∧ s ≤ 720 ∧ lwmaStep 120 p i st = .ok st1 ∧
      st1.t = st.t + s * (st.j + 1) ∧ st1.j = st.j + 1 ∧
      st1.sumTarget = st.sumTarget + (SetCompact b.nBits).value / BitVec.ofNat 256 832896000 := by
  let thisTimestamp := if b.GetBlockTime > st.previousTimestamp then b.GetBlockTime
    else st.previousTimestamp + 1
  let solvetime := min (6 * 120) (thisTimestamp - st.previousTimestamp)
  refine ⟨solvetime, ⟨thisTimestamp, st.t + solvetime * (st.j + 1), st.j + 1,
    st.sumTarget + (SetCompact b.nBits).value / BitVec.ofNat 256 832896000⟩,
    ?_, ?_, ?_, rfl, rfl, rfl⟩
  · -- the timestamp clamp makes every solve time at least one second
    simp only [solvetime, thisTimestamp]
    split <;> omega
  · omega
  · simp only [lwmaStep, GetAncestor_ok hp hi0 hi hb, bind, Except.bind, deref, ofInt64_kN]
    rw [div_ok (by decide)]
    rfl

/-- The target share of one block, `target / (k * N)`. -/
def share (b : CBlockIndex) : Nat := ((SetCompact b.nBits).value / BitVec.ofNat 256 832896000).toNat

theorem share_le {P : Nat} {b : CBlockIndex} (h : (SetCompact b.nBits).value.toNat ≤ P) :
    share b ≤ P / 832896000 := by
  rw [share, BitVec.toNat_udiv]
  exact Nat.div_le_div_right h

/-- What `count` LWMA iterations from height `i` and state `st` guarantee
about the state `st'` they reach, for window targets at most `P`. -/
structure LwmaProgress (p : CBlockIndex) (P : Nat) (i : Int) (count : Nat) (st st' : LwmaState) :
    Prop where
  j_eq : st'.j = st.j + count
  t_lower : count * (2 * st.j + count + 1) ≤ 2 * (st'.t - st.t)
  t_upper : 2 * (st'.t - st.t) ≤ 720 * (count * (2 * st.j + count + 1))
  sum_upper : st'.sumTarget.toNat ≤ st.sumTarget.toNat + count * (P / 832896000)
  sum_mono : st.sumTarget.toNat ≤ st'.sumTarget.toNat
  share_le_sum : ∀ i', i ≤ i' → i' < i + count → ∀ b, p.ancestor (p.nHeight - i'.toNat) = some b →
    st.sumTarget.toNat + share b ≤ st'.sumTarget.toNat

/-- The LWMA loop over `count` blocks of the chain succeeds, and its sums
grow within the clamps. The induction is on the number of iterations left. -/
theorem lwmaLoop_progress {p : CBlockIndex} (hp : SkipInvariant p) {P : Nat} :
    ∀ (count : Nat) (i : Int) (st : LwmaState), 0 ≤ i → i + count ≤ p.nHeight + 1 → 0 ≤ st.j →
      (∀ i', i ≤ i' → i' < i + count → ∀ b, p.ancestor (p.nHeight - i'.toNat) = some b →
        (SetCompact b.nBits).value.toNat ≤ P) →
      st.sumTarget.toNat + count * (P / 832896000) < 2 ^ 256 →
      ∃ st', lwmaLoop 120 p i count st = .ok st' ∧ LwmaProgress p P i count st st' := by
  intro count
  induction count with
  | zero =>
    intro i st _ _ _ _ _
    exact ⟨st, rfl, ⟨by simp, by simp, by simp, by simp, le_rfl, fun _ _ _ => by omega⟩⟩
  | succ count ih =>
    intro i st hi0 hi hj hP hwrap
    have hcount : (count + 1) * (P / 832896000) = count * (P / 832896000) + P / 832896000 := by ring
    obtain ⟨b, hb, -, -⟩ := hp.ancestor_exists (d := p.nHeight - i.toNat) (by omega)
    obtain ⟨s, st1, hs1, hs2, hstep, ht1, hj1, hsum⟩ := lwmaStep_ok hp hi0 (by omega) hb st
    have hshare := share_le (hP i le_rfl (by omega) b hb)
    -- the block's share is added without wrapping around
    have hsum1 : st1.sumTarget.toNat = st.sumTarget.toNat + share b := by
      rw [hsum, BitVec.toNat_add, share]
      apply Nat.mod_eq_of_lt
      rw [← share]
      omega
    obtain ⟨st', hrun, hprog⟩ := ih (i + 1) st1 (by omega) (by omega) (by omega)
      (fun i' h1 h2 => hP i' (by omega) (by omega)) (by omega)
    refine ⟨st', by simp only [lwmaLoop, hstep, bind, Except.bind]; exact hrun, ?_⟩
    obtain ⟨hj', hlo, hup, hsu, hsm, hle⟩ := hprog
    rw [hj1] at hj' hlo hup
    rw [ht1] at hlo hup
    refine ⟨by rw [hj']; push_cast; ring, ?_, ?_, by omega, by omega, ?_⟩
    · push_cast
      nlinarith
    · push_cast
      nlinarith
    · -- the first block's share is in `st1`, the others' in what the rest adds
      intro i' h1 h2 b' hb'
      rcases eq_or_lt_of_le h1 with heq | hlt
      · subst heq
        rw [hb] at hb'
        cases hb'
        omega
      · have := hle i' (by omega) (by omega) b' hb'
        omega

/-! ## The next target -/

/-- `powLimit` of the main network is `2^224 - 1`. -/
theorem mainParams_powLimit : (UintToArith256 mainParams.powLimit).toNat = 2 ^ 224 - 1 := by
  decide

/-- The LWMA window of a well formed chain of at least 240 blocks is
computed without error; the weighted solve-time sum lies in
`[N(N+1)/2, 6k]` and the target sum is at most `N` shares of `P`. -/
theorem lwmaWindow_ok {p : CBlockIndex} (hp : SkipInvariant p) (hh : 240 ≤ p.nHeight) {P : Nat}
    (hP : P < 2 ^ 255)
    (hwin : ∀ d < 240, ∀ b, p.ancestor d = some b → (SetCompact b.nBits).value.toNat ≤ P) :
    ∃ st, lwmaWindow p mainParams = .ok st ∧ 28920 ≤ st.t ∧ st.t ≤ 20822400 ∧
      st.sumTarget.toNat ≤ 240 * (P / 832896000) ∧
      ∀ d < 240, ∀ b, p.ancestor d = some b → share b ≤ st.sumTarget.toNat := by
  obtain ⟨b0, hb0, -, -⟩ := hp.ancestor_exists (d := 240) hh
  have hstart := GetAncestor_ok hp (i := (p.nHeight : Int) - 240) (by omega) (by omega)
    (by rw [show p.nHeight - ((p.nHeight : Int) - 240).toNat = 240 by omega]; exact hb0)
  obtain ⟨st, hrun, hprog⟩ := lwmaLoop_progress hp 240 ((p.nHeight : Int) - 240 + 1)
    ⟨b0.GetBlockTime, 0, 0, 0⟩ (by omega) (by omega) le_rfl
    (fun i' h1 h2 b hb => hwin _ (by omega) b hb) (by simp; omega)
  obtain ⟨hj, hlo, hup, hsu, -, hle⟩ := hprog
  refine ⟨st, ?_, by simp at hlo; omega, by simp at hup; omega, by simpa using hsu, ?_⟩
  · simp only [lwmaWindow, hstart, bind, Except.bind, deref]
    exact hrun
  · intro d hd b hb
    have := hle ((p.nHeight : Int) - d) (by omega) (by omega) b
      (by rw [show p.nHeight - ((p.nHeight : Int) - d).toNat = d by omega]; exact hb)
    simpa using this

/-- The cap against `powLimit` keeps a value in `[1, powLimit]` when it was positive. -/
theorem cap_spec (x powLimit : arith_uint256) :
    (if x > powLimit then powLimit else x) ≤ powLimit ∧
      (0 < x.toNat → 0 < powLimit.toNat → 0 < (if x > powLimit then powLimit else x).toNat) := by
  split
  · exact ⟨BitVec.le_refl _, fun _ h => h⟩
  · rename_i h
    exact ⟨BitVec.not_lt.mp h, fun h _ => h⟩

theorem LwmaCalculateNextWorkRequired_of_window {p : CBlockIndex} {params : Params}
    (hh : 240 ≤ p.nHeight) {st : LwmaState} (hw : lwmaWindow p params = .ok st) :
    LwmaCalculateNextWorkRequired p params =
      .ok (GetCompact (if ofInt64 st.t * st.sumTarget > UintToArith256 params.powLimit
        then UintToArith256 params.powLimit else ofInt64 st.t * st.sumTarget) false) := by
  have h : ¬((p.nHeight : Int) < 240) := by omega
  unfold LwmaCalculateNextWorkRequired
  simp only [h, ↓reduceIte, hw]
  rfl

theorem GetNextWorkRequired_of_lwma {p : CBlockIndex} (hh : 29000 ≤ p.nHeight) (pblock : CBlockHeader)
    (params : Params) : GetNextWorkRequired p pblock params = LwmaCalculateNextWorkRequired p params := by
  have h1 : ¬(28930 ≤ (p.nHeight : Int) ∧ (p.nHeight : Int) ≤ 28999) := by omega
  have h2 : 29000 ≤ (p.nHeight : Int) := by omega
  unfold GetNextWorkRequired
  simp only [h1, h2, ↓reduceIte]

/-- From height 29000 on the main network, on a well formed chain whose last
240 targets are at most `powLimit`: the LWMA loop runs without error (no
division by zero, no null ancestor), `t ≤ 6k` and `sumTarget ≤ powLimit / k`
so that `t * sumTarget` does not wrap, and the next compact target decodes to
a target without sign or overflow, at most `powLimit`, and non-zero (so that
`CheckProofOfWork` compares the hash against it) once a window target reaches
`k * N`. -/
theorem lwma_next_target_in_range {p : CBlockIndex} (hp : WellFormed p) (hh : 29000 ≤ p.nHeight)
    (hwin : ∀ d < 240, ∀ b, p.ancestor d = some b →
      (SetCompact b.nBits).value ≤ UintToArith256 mainParams.powLimit)
    (pblock : CBlockHeader) :
    (∃ st, lwmaWindow p mainParams = .ok st ∧ 0 < st.t ∧ st.t ≤ 6 * 3470400 ∧
        st.sumTarget.toNat ≤ (UintToArith256 mainParams.powLimit).toNat / 3470400 ∧
        (ofInt64 st.t * st.sumTarget).toNat = st.t.toNat * st.sumTarget.toNat) ∧
      ∃ c, GetNextWorkRequired p pblock mainParams = .ok c ∧
        (SetCompact c).fNegative = false ∧ (SetCompact c).fOverflow = false ∧
        (SetCompact c).value ≤ UintToArith256 mainParams.powLimit ∧
        ((∃ d < 240, ∃ b, p.ancestor d = some b ∧
            BitVec.ofNat 256 832896000 ≤ (SetCompact b.nBits).value) →
          (SetCompact c).value ≠ 0 ∧ ∀ hash, CheckProofOfWork hash c mainParams =
            !(UintToArith256 hash > (SetCompact c).value)) := by
  have hpl := mainParams_powLimit
  obtain ⟨st, hw, hlo, hup, hsum, hshare⟩ := lwmaWindow_ok hp.skipInvariant (by omega)
    (P := 2 ^ 224 - 1) (by norm_num) (fun d hd b hb => by
      have := hwin d hd b hb
      rw [BitVec.le_def] at this
      omega)
  -- `t * sumTarget` stays below `2^256`
  have hsum' : st.sumTarget.toNat ≤ (2 ^ 224 - 1) / 3470400 := by
    have := Nat.mul_div_le ((2 ^ 224 - 1) / 3470400) 240
    rw [Nat.div_div_eq_div_mul] at this
    omega
  have ht : (ofInt64 st.t).toNat = st.t.toNat := ofInt64_toNat (by omega) (by omega)
  have hprod : (ofInt64 st.t * st.sumTarget).toNat = st.t.toNat * st.sumTarget.toNat := by
    rw [BitVec.toNat_mul, ht]
    apply Nat.mod_eq_of_lt
    calc st.t.toNat * st.sumTarget.toNat ≤ 20822400 * ((2 ^ 224 - 1) / 3470400) :=
          Nat.mul_le_mul (by omega) hsum'
      _ < 2 ^ 256 := by norm_num
  refine ⟨⟨st, hw, by omega, by omega, by rw [hpl]; exact hsum', hprod⟩, ?_⟩
  set next := ofInt64 st.t * st.sumTarget
  set capped := if next > UintToArith256 mainParams.powLimit then UintToArith256 mainParams.powLimit
    else next
  obtain ⟨hcap, hcap_pos⟩ := cap_spec next (UintToArith256 mainParams.powLimit)
  obtain ⟨hval, hneg, hovf⟩ := SetCompact_GetCompact capped
  refine ⟨GetCompact capped false, ?_, hneg, hovf, ?_, ?_⟩
  · rw [GetNextWorkRequired_of_lwma hh, LwmaCalculateNextWorkRequired_of_window (by omega) hw]
  · rw [BitVec.le_def, hval]
    exact le_trans (decoded_le capped) (BitVec.le_def.mp hcap)
  · rintro ⟨d, hd, b, hb, hge⟩
    -- one share of at least one makes `sumTarget`, hence the next target, positive
    have h1 : 1 ≤ share b := by
      rw [share, BitVec.toNat_udiv]
      exact (Nat.le_div_iff_mul_le (by norm_num)).mpr (by simpa [BitVec.le_def] using hge)
    have hs := hshare d hd b hb
    have hnext : 0 < next.toNat := by
      rw [hprod]
      exact Nat.mul_pos (by omega) (by omega)
    have hpos : 0 < (SetCompact (GetCompact capped false)).value.toNat := by
      rw [hval]
      exact decoded_pos (hcap_pos hnext (by rw [hpl]; norm_num))
    have hne : (SetCompact (GetCompact capped false)).value ≠ 0 := by
      intro h0
      rw [h0] at hpos
      simp at hpos
    refine ⟨hne, fun hash => ?_⟩
    have hle : ¬((SetCompact (GetCompact capped false)).value > UintToArith256 mainParams.powLimit) := by
      rw [BitVec.not_lt, BitVec.le_def, hval]
      exact le_trans (decoded_le capped) (BitVec.le_def.mp hcap)
    simp [CheckProofOfWork, hneg, hovf, hle]
    exact fun _ => hne

theorem lwma_next_target_in_range_uniform :
    WellFormed (uniformChain ⟨0, 0, 0x1d00ffff, 0⟩ 29000) ∧ 29000 ≤ (uniformChain ⟨0, 0, 0x1d00ffff, 0⟩ 29000).nHeight ∧
      (∀ d < 240, ∀ b, (uniformChain ⟨0, 0, 0x1d00ffff, 0⟩ 29000).ancestor d = some b →
        (SetCompact b.nBits).value ≤ UintToArith256 mainParams.powLimit) ∧
      ((∃ st, lwmaWindow (uniformChain ⟨0, 0, 0x1d00ffff, 0⟩ 29000) mainParams = .ok st ∧ 0 < st.t ∧
          st.t ≤ 6 * 3470400 ∧
          st.sumTarget.toNat ≤ (UintToArith256 mainParams.powLimit).toNat / 3470400 ∧
          (ofInt64 st.t * st.sumTarget).toNat = st.t.toNat * st.sumTarget.toNat) ∧
        ∃ c, GetNextWorkRequired (uniformChain ⟨0, 0, 0x1d00ffff, 0⟩ 29000) ⟨0⟩ mainParams = .ok c ∧
          (SetCompact c).fNegative = false ∧ (SetCompact c).fOverflow = false ∧
          (SetCompact c).value ≤ UintToArith256 mainParams.powLimit ∧
          ((∃ d < 240, ∃ b, (uniformChain ⟨0, 0, 0x1d00ffff, 0⟩ 29000).ancestor d = some b ∧
              BitVec.ofNat 256 832896000 ≤ (SetCompact b.nBits).value) →
            (SetCompact c).value ≠ 0 ∧ ∀ hash, CheckProofOfWork hash c mainParams =
              !(UintToArith256 hash > (SetCompact c).value))) := by
  have hwf := uniformChain_wellFormed ⟨0, 0, 0x1d00ffff, 0⟩ 29000
  have hh : 29000 ≤ (uniformChain ⟨0, 0, 0x1d00ffff, 0⟩ 29000).nHeight := by simp
  have hwin : ∀ d < 240, ∀ b, (uniformChain ⟨0, 0, 0x1d00ffff, 0⟩ 29000).ancestor d = some b →
      (SetCompact b.nBits).value ≤ UintToArith256 mainParams.powLimit := by
    intro d _ b hb
    rw [uniformChain_ancestor_nBits _ _ _ _ hb]
    decide
  exact ⟨hwf, hh, hwin, lwma_next_target_in_range hwf hh hwin ⟨0⟩⟩

/-! ## The window as sums

The loop adds, for the `j`-th block of the window, `j` times its clamped
solve time to `t` and its target share to `sumTarget`. Stated over the
window's blocks, `t` is `weightedSum` of `solvetimes` and `sumTarget` is
`shareSum` of the compact targets, which is what the stability and
monotonicity results below read. -/

/-- The timestamp the loop keeps for a block: its own when it is later than
the previous one, else one second after the previous. -/
def clampTime (prev time : Int) : Int := if time > prev then time else prev + 1

/-- The clamped solve times of the timestamps `times` that follow `prev`. -/
def solvetimes (T : Int) : Int → List Int → List Int
  | _, [] => []
  | prev, time :: times =>
    min (6 * T) (clampTime prev time - prev) :: solvetimes T (clampTime prev time) times

/-- The weighted sum `Σ (j0 + m + 1) * s_m`. -/
def weightedSum (j0 : Int) : List Int → Int
  | [] => 0
  | s :: ss => s * (j0 + 1) + weightedSum (j0 + 1) ss

/-- The sum of the shares `target / (k * N)` of compact targets. -/
def shareSum : List UInt32 → arith_uint256
  | [] => 0
  | c :: cs => (SetCompact c).value / BitVec.ofNat 256 832896000 + shareSum cs

/-- The entries down the `pprev` chain, `p` first. -/
def ancestors : CBlockIndex → List CBlockIndex
  | CBlockIndex.mk f none s => [CBlockIndex.mk f none s]
  | CBlockIndex.mk f (some q) s => CBlockIndex.mk f (some q) s :: ancestors q

/-- The 240 blocks of the LWMA window of `p`, oldest first. -/
def lwmaBlocks (p : CBlockIndex) : List CBlockIndex := ((ancestors p).take 240).reverse

/-- The clamped solve times of the window of `p`, the first one measured from
the block before the window. -/
def lwmaSolvetimes (p : CBlockIndex) : List Int :=
  solvetimes 120 (((ancestors p)[240]?.map GetBlockTime).getD 0) ((lwmaBlocks p).map GetBlockTime)

theorem ancestor_eq_getElem? : ∀ (d : Nat) (p : CBlockIndex), p.ancestor d = (ancestors p)[d]?
  | 0, CBlockIndex.mk _ none _ => rfl
  | 0, CBlockIndex.mk _ (some _) _ => rfl
  | d + 1, CBlockIndex.mk f none s => by simp [ancestor, ancestors, pprev]
  | d + 1, CBlockIndex.mk f (some q) s => by
    rw [ancestor_succ rfl, ancestor_eq_getElem? d q]
    rfl

theorem length_lwmaBlocks {p : CBlockIndex} (hp : SkipInvariant p) (hh : 240 ≤ p.nHeight) :
    (lwmaBlocks p).length = 240 := by
  obtain ⟨b, hb, -, -⟩ := hp.ancestor_exists (d := 240) hh
  rw [ancestor_eq_getElem?] at hb
  have : 240 < (ancestors p).length := by
    by_contra h
    rw [List.getElem?_eq_none (by omega)] at hb
    cases hb
  simp [lwmaBlocks]
  omega

/-- The `d`-th block of the window is the ancestor `239 - d` steps down. -/
theorem getElem?_lwmaBlocks {p : CBlockIndex} (hp : SkipInvariant p) (hh : 240 ≤ p.nHeight) {d : Nat}
    (hd : d < 240) : (lwmaBlocks p)[d]? = p.ancestor (239 - d) := by
  have hlen := length_lwmaBlocks hp hh
  rw [lwmaBlocks, List.length_reverse] at hlen
  rw [lwmaBlocks, List.getElem?_reverse (by omega), hlen, List.getElem?_take_of_lt (by omega),
    ancestor_eq_getElem?, show 240 - 1 - d = 239 - d by omega]

theorem mem_lwmaBlocks {p b : CBlockIndex} (hb : b ∈ lwmaBlocks p) : ∃ d < 240, p.ancestor d = some b := by
  rw [lwmaBlocks, List.mem_reverse, List.mem_iff_getElem?] at hb
  obtain ⟨d, hd⟩ := hb
  rw [List.getElem?_take] at hd
  split at hd
  · exact ⟨d, by omega, by rw [ancestor_eq_getElem?]; exact hd⟩
  · cases hd

/-- What one iteration of the loop does once `GetAncestor` has found the
block `b`, for `T = 120`. -/
def lwmaNext (b : CBlockIndex) (st : LwmaState) : LwmaState where
  previousTimestamp := clampTime st.previousTimestamp b.GetBlockTime
  t := st.t + min (6 * 120) (clampTime st.previousTimestamp b.GetBlockTime - st.previousTimestamp) * (st.j + 1)
  j := st.j + 1
  sumTarget := st.sumTarget + (SetCompact b.nBits).value / BitVec.ofNat 256 832896000

/-- One LWMA iteration on a block of the chain, exactly. -/
theorem lwmaStep_eq {p : CBlockIndex} (hp : SkipInvariant p) {i : Int} (hi0 : 0 ≤ i)
    (hi : i ≤ p.nHeight) {b : CBlockIndex} (hb : p.ancestor (p.nHeight - i.toNat) = some b)
    (st : LwmaState) : lwmaStep 120 p i st = .ok (lwmaNext b st) := by
  simp only [lwmaStep, GetAncestor_ok hp hi0 hi hb, bind, Except.bind, deref, ofInt64_kN]
  rw [div_ok (by decide)]
  rfl

/-- The LWMA loop over the blocks `bs` of the chain adds the weighted sum of
their clamped solve times to `t` and the sum of their shares to `sumTarget`.
The induction is on the blocks left. -/
theorem lwmaLoop_eq {p : CBlockIndex} (hp : SkipInvariant p) : ∀ (bs : List CBlockIndex) (i : Int)
    (st : LwmaState), 0 ≤ i → i + bs.length ≤ p.nHeight + 1 →
    (∀ d < bs.length, p.ancestor (p.nHeight - (i + d).toNat) = bs[d]?) →
    ∃ st', lwmaLoop 120 p i bs.length st = .ok st' ∧
      st'.t = st.t + weightedSum st.j (solvetimes 120 st.previousTimestamp (bs.map GetBlockTime)) ∧
      st'.sumTarget = st.sumTarget + shareSum (bs.map nBits)
  | [], _, st, _, _, _ => ⟨st, rfl, by simp [solvetimes, weightedSum], by simp [shareSum]⟩
  | b :: bs, i, st, hi0, hi, hbs => by
    rw [List.length_cons] at hi
    have hb : p.ancestor (p.nHeight - i.toNat) = some b := by simpa using hbs 0 (by simp)
    obtain ⟨st', hrun, ht, hsum⟩ := lwmaLoop_eq hp bs (i + 1) (lwmaNext b st) (by omega) (by omega)
      (fun d hd => by
        have := hbs (d + 1) (by simp; omega)
        rw [show i + ((d + 1 : Nat) : Int) = i + 1 + d by push_cast; ring] at this
        simpa using this)
    refine ⟨st', ?_, ?_, ?_⟩
    · simp only [List.length_cons, lwmaLoop, lwmaStep_eq hp hi0 (by omega) hb, bind, Except.bind]
      exact hrun
    · rw [ht]
      simp only [lwmaNext, List.map_cons, solvetimes, weightedSum]
      ring
    · rw [hsum]
      simp only [lwmaNext, List.map_cons, shareSum, BitVec.add_assoc]

/-- The LWMA window of a chain of at least 240 blocks, as sums. -/
theorem lwmaWindow_eq {p : CBlockIndex} (hp : SkipInvariant p) (hh : 240 ≤ p.nHeight) {params : Params}
    (hT : params.nPowTargetSpacingV2 = 120) :
    ∃ st, lwmaWindow p params = .ok st ∧ st.t = weightedSum 0 (lwmaSolvetimes p) ∧
      st.sumTarget = shareSum ((lwmaBlocks p).map nBits) := by
  obtain ⟨b0, hb0, -, -⟩ := hp.ancestor_exists (d := 240) hh
  have hstart := GetAncestor_ok hp (i := (p.nHeight : Int) - 240) (by omega) (by omega)
    (by rw [show p.nHeight - ((p.nHeight : Int) - 240).toNat = 240 by omega]; exact hb0)
  have hlen := length_lwmaBlocks hp hh
  obtain ⟨st, hrun, ht, hsum⟩ := lwmaLoop_eq hp (lwmaBlocks p) ((p.nHeight : Int) - 240 + 1)
    ⟨b0.GetBlockTime, 0, 0, 0⟩ (by omega) (by omega) (fun d hd => by
      rw [getElem?_lwmaBlocks hp hh (by omega)]
      congr 1
      omega)
  have hprev : ((ancestors p)[240]?.map GetBlockTime).getD 0 = b0.GetBlockTime := by
    rw [← ancestor_eq_getElem?, hb0]
    rfl
  refine ⟨st, ?_, by rw [ht, lwmaSolvetimes, hprev]; simp, by rw [hsum]; simp⟩
  simp only [lwmaWindow, hstart, bind, Except.bind, deref, hT]
  rw [hlen] at hrun
  exact hrun

theorem LwmaCalculateNextWorkRequired_eq {p : CBlockIndex} (hp : SkipInvariant p) (hh : 240 ≤ p.nHeight)
    {params : Params} (hT : params.nPowTargetSpacingV2 = 120) :
    LwmaCalculateNextWorkRequired p params = .ok (GetCompact
      (if ofInt64 (weightedSum 0 (lwmaSolvetimes p)) * shareSum ((lwmaBlocks p).map nBits) >
          UintToArith256 params.powLimit then UintToArith256 params.powLimit
        else ofInt64 (weightedSum 0 (lwmaSolvetimes p)) * shareSum ((lwmaBlocks p).map nBits)) false) := by
  obtain ⟨st, hw, ht, hs⟩ := lwmaWindow_eq hp hh hT
  rw [LwmaCalculateNextWorkRequired_of_window hh hw, ht, hs]

/-! ## Sums over a window -/

theorem length_solvetimes (T : Int) : ∀ (prev : Int) (times : List Int),
    (solvetimes T prev times).length = times.length
  | _, [] => rfl
  | prev, _ :: times => by simp [solvetimes, length_solvetimes T _ times]

/-- Every clamped solve time is between 1 and `6T`. -/
theorem mem_solvetimes : ∀ (prev : Int) (times : List Int) (s : Int), s ∈ solvetimes 120 prev times →
    1 ≤ s ∧ s ≤ 720
  | _, [], _, h => by cases h
  | prev, time :: times, s, h => by
    rw [solvetimes, List.mem_cons] at h
    rcases h with rfl | h
    · unfold clampTime
      split <;> omega
    · exact mem_solvetimes _ times s h

/-- Timestamps `T = 120` seconds apart give solve times of exactly `T`. -/
theorem solvetimes_steady : ∀ (times : List Int) (prev : Int),
    (∀ m < times.length, times[m]? = some (prev + 120 * (m + 1))) →
    solvetimes 120 prev times = List.replicate times.length 120
  | [], _, _ => rfl
  | time :: times, prev, h => by
    have h0 : time = prev + 120 := by simpa using h 0 (by simp)
    have hclamp : clampTime prev time = prev + 120 := by rw [clampTime, if_pos (by omega), h0]
    have hrest := solvetimes_steady times (prev + 120) (fun m hm => by
      have := h (m + 1) (by simp; omega)
      rw [List.getElem?_cons_succ] at this
      rw [this]
      push_cast
      ring_nf)
    rw [solvetimes, hclamp, hrest, List.length_cons, List.replicate_succ]
    congr 1
    omega

theorem weightedSum_mono {ss ss' : List Int} (h : List.Forall₂ (· ≤ ·) ss ss') :
    ∀ j0, 0 ≤ j0 → weightedSum j0 ss ≤ weightedSum j0 ss' := by
  induction h with
  | nil => exact fun _ _ => le_rfl
  | cons hab _ ih =>
    intro j0 hj
    have := ih (j0 + 1) (by omega)
    simp only [weightedSum]
    nlinarith

theorem weightedSum_replicate (c : Int) : ∀ (n : Nat) (j0 : Int),
    2 * weightedSum j0 (List.replicate n c) = c * n * (2 * j0 + n + 1)
  | 0, _ => by simp [weightedSum]
  | n + 1, j0 => by
    rw [List.replicate_succ, weightedSum, mul_add, weightedSum_replicate c n (j0 + 1)]
    push_cast
    ring

theorem forall₂_replicate_right {ss : List Int} {c : Int} (h : ∀ s ∈ ss, s ≤ c) :
    List.Forall₂ (· ≤ ·) ss (List.replicate ss.length c) := by
  induction ss with
  | nil => exact .nil
  | cons s ss ih => exact .cons (h s (by simp)) (ih fun s' hs' => h s' (by simp [hs']))

theorem forall₂_replicate_left {ss : List Int} {c : Int} (h : ∀ s ∈ ss, c ≤ s) :
    List.Forall₂ (· ≤ ·) (List.replicate ss.length c) ss := by
  induction ss with
  | nil => exact .nil
  | cons s ss ih => exact .cons (h s (by simp)) (ih fun s' hs' => h s' (by simp [hs']))

/-- The weighted solve-time sum of a window lies in `[0, 6k]`. -/
theorem weightedSum_lwmaSolvetimes {p : CBlockIndex} (hp : SkipInvariant p) (hh : 240 ≤ p.nHeight) :
    0 ≤ weightedSum 0 (lwmaSolvetimes p) ∧ weightedSum 0 (lwmaSolvetimes p) ≤ 20822400 := by
  have hlen : (lwmaSolvetimes p).length = 240 := by
    rw [lwmaSolvetimes, length_solvetimes, List.length_map, length_lwmaBlocks hp hh]
  have hmem : ∀ s ∈ lwmaSolvetimes p, 1 ≤ s ∧ s ≤ 720 := fun s hs => mem_solvetimes _ _ s hs
  have hlo := weightedSum_mono (@forall₂_replicate_left (lwmaSolvetimes p) 0
    fun s hs => by have := hmem s hs; omega) 0 le_rfl
  have hhi := weightedSum_mono (@forall₂_replicate_right (lwmaSolvetimes p) 720
    fun s hs => (hmem s hs).2) 0 le_rfl
  rw [hlen] at hlo hhi
  have h0 := weightedSum_replicate 0 240 0
  have h720 := weightedSum_replicate 720 240 0
  omega

theorem shareSum_toNat_le {P : Nat} : ∀ cs : List UInt32, (∀ c ∈ cs, (SetCompact c).value.toNat ≤ P) →
    (shareSum cs).toNat ≤ cs.length * (P / 832896000)
  | [], _ => by simp [shareSum]
  | c :: cs, h => by
    have hc : ((SetCompact c).value / BitVec.ofNat 256 832896000).toNat ≤ P / 832896000 := by
      rw [BitVec.toNat_udiv]
      exact Nat.div_le_div_right (h c (by simp))
    have hrest := shareSum_toNat_le cs fun c' hc' => h c' (by simp [hc'])
    rw [shareSum, BitVec.toNat_add, List.length_cons, Nat.succ_mul]
    exact le_trans (Nat.mod_le _ _) (by omega)

theorem shareSum_replicate_toNat (c : UInt32) : ∀ n : Nat,
    n * ((SetCompact c).value.toNat / 832896000) < 2 ^ 256 →
    (shareSum (List.replicate n c)).toNat = n * ((SetCompact c).value.toNat / 832896000)
  | 0, _ => by simp [shareSum]
  | n + 1, h => by
    rw [List.replicate_succ, shareSum, BitVec.toNat_add, BitVec.toNat_udiv,
      shareSum_replicate_toNat c n (lt_of_le_of_lt (Nat.mul_le_mul_right _ (by omega)) h)]
    rw [show (BitVec.ofNat 256 832896000).toNat = 832896000 by decide, Nat.mod_eq_of_lt (by rw [Nat.succ_mul] at h; omega)]
    ring

/-- The cap at `powLimit` is monotone. -/
theorem cap_mono {x y L : arith_uint256} (h : x ≤ y) :
    (if x > L then L else x) ≤ (if y > L then L else y) := by
  rw [BitVec.le_def] at h
  split <;> split <;> simp only [BitVec.le_def, BitVec.lt_def, gt_iff_lt] at * <;> omega

theorem SetCompact_GetCompact_mono {x y : arith_uint256} (h : x ≤ y) :
    (SetCompact (GetCompact x false)).value ≤ (SetCompact (GetCompact y false)).value := by
  rw [BitVec.le_def, (SetCompact_GetCompact x).1, (SetCompact_GetCompact y).1]
  exact decoded_mono h

/-! ## Stability and monotonicity -/

/-- With timestamps `T` apart, the ancestor `240 - n` steps down is `120 n`
seconds after the block before the window. -/
theorem time_of_steady {p : CBlockIndex} (hp : SkipInvariant p) (hh : 240 ≤ p.nHeight) {b0 : CBlockIndex}
    (hb0 : p.ancestor 240 = some b0)
    (htimes : ∀ d < 240, ∀ b b', p.ancestor d = some b → p.ancestor (d + 1) = some b' →
      b.GetBlockTime = b'.GetBlockTime + 120) :
    ∀ n ≤ 240, ∀ b, p.ancestor (240 - n) = some b → b.GetBlockTime = b0.GetBlockTime + 120 * n := by
  intro n
  induction n with
  | zero =>
    intro _ b hb
    rw [hb0] at hb
    cases hb
    simp
  | succ n ih =>
    intro hn b hb
    obtain ⟨b', hb', -, -⟩ := hp.ancestor_exists (d := 240 - n) (by omega)
    rw [htimes (240 - (n + 1)) (by omega) b b' hb (by rw [show 240 - (n + 1) + 1 = 240 - n by omega]; exact hb'),
      ih (by omega) b' hb']
    push_cast
    ring

/-- A window of equal compact targets `GetCompact X` with timestamps `T`
apart gives the next target `N k ⌊X' / (k N)⌋`, for `X'` the decoded target:
`t` is `k` and `sumTarget` is `N ⌊X' / (k N)⌋`. -/
theorem lwma_steady_window {p : CBlockIndex} (hp : SkipInvariant p) (hh : 240 ≤ p.nHeight)
    {X : arith_uint256} (hX : X ≤ UintToArith256 mainParams.powLimit)
    (hbits : ∀ d < 240, ∀ b, p.ancestor d = some b → b.nBits = GetCompact X false)
    (htimes : ∀ d < 240, ∀ b b', p.ancestor d = some b → p.ancestor (d + 1) = some b' →
      b.GetBlockTime = b'.GetBlockTime + 120) :
    LwmaCalculateNextWorkRequired p mainParams = .ok (GetCompact (BitVec.ofNat 256
      (832896000 * ((SetCompact (GetCompact X false)).value.toNat / 832896000))) false) := by
  have hX' : (SetCompact (GetCompact X false)).value.toNat ≤ X.toNat := by
    rw [(SetCompact_GetCompact X).1]
    exact decoded_le X
  set X' := (SetCompact (GetCompact X false)).value.toNat
  have hXlt : X.toNat < 2 ^ 256 := X.isLt
  have hlen := length_lwmaBlocks hp hh
  obtain ⟨b0, hb0, -, -⟩ := hp.ancestor_exists (d := 240) hh
  -- every solve time is `T`, so `t = T N (N + 1) / 2 = k`
  have hsolve : lwmaSolvetimes p = List.replicate 240 120 := by
    have hprev : ((ancestors p)[240]?.map GetBlockTime).getD 0 = b0.GetBlockTime := by
      rw [← ancestor_eq_getElem?, hb0]
      rfl
    rw [lwmaSolvetimes, hprev, solvetimes_steady, List.length_map, hlen]
    intro m hm
    rw [List.length_map, hlen] at hm
    rw [List.getElem?_map, getElem?_lwmaBlocks hp hh hm]
    obtain ⟨b, hb, -, -⟩ := hp.ancestor_exists (d := 239 - m) (by omega)
    rw [hb, Option.map_some, time_of_steady hp hh hb0 htimes (m + 1) (by omega) b
      (by rw [show 240 - (m + 1) = 239 - m by omega]; exact hb)]
    push_cast
    rfl
  have ht : weightedSum 0 (lwmaSolvetimes p) = 3470400 := by
    have := weightedSum_replicate 120 240 0
    rw [hsolve]
    omega
  -- every target is `X'`, so `sumTarget = N ⌊X' / (k N)⌋`
  have hbits' : (lwmaBlocks p).map nBits = List.replicate 240 (GetCompact X false) := by
    rw [List.eq_replicate_iff, List.length_map, hlen]
    refine ⟨rfl, fun c hc => ?_⟩
    obtain ⟨b, hb, rfl⟩ := List.mem_map.mp hc
    obtain ⟨d, hd, hbd⟩ := mem_lwmaBlocks hb
    exact hbits d hd b hbd
  have hS : (shareSum ((lwmaBlocks p).map nBits)).toNat = 240 * (X' / 832896000) := by
    rw [hbits']
    exact shareSum_replicate_toNat _ 240 (by omega)
  have hnext : (ofInt64 (weightedSum 0 (lwmaSolvetimes p)) * shareSum ((lwmaBlocks p).map nBits)) =
      BitVec.ofNat 256 (832896000 * (X' / 832896000)) := by
    apply BitVec.eq_of_toNat_eq
    have hle : 832896000 * (X' / 832896000) ≤ X' := Nat.mul_div_le X' 832896000
    rw [BitVec.toNat_mul, ht, ofInt64_toNat (by norm_num) (by norm_num), hS, BitVec.toNat_ofNat,
      show (3470400 : Int).toNat = 3470400 from rfl, Nat.mod_eq_of_lt (by omega), Nat.mod_eq_of_lt (by omega)]
    ring
  rw [LwmaCalculateNextWorkRequired_eq hp hh rfl, hnext, if_neg]
  simp only [gt_iff_lt, BitVec.lt_def, not_lt, BitVec.toNat_ofNat]
  rw [BitVec.le_def] at hX
  exact le_trans (Nat.mod_le _ _) (le_trans (Nat.mul_div_le X' 832896000) (le_trans hX' hX))

/-- Two windows with the same compact targets, at most `powLimit`, and
pointwise longer solve times in the second give a next target at least as
large in the second: `t * sumTarget` does not wrap, and the cap and the
compact rounding are monotone. -/
theorem lwma_monotone_window {p p' : CBlockIndex} (hp : SkipInvariant p) (hp' : SkipInvariant p')
    (hh : 240 ≤ p.nHeight) (hh' : 240 ≤ p'.nHeight) (hbits : (lwmaBlocks p).map nBits = (lwmaBlocks p').map nBits)
    (hle : ∀ b ∈ lwmaBlocks p, (SetCompact b.nBits).value ≤ UintToArith256 mainParams.powLimit)
    (hs : List.Forall₂ (· ≤ ·) (lwmaSolvetimes p) (lwmaSolvetimes p')) {c c' : UInt32}
    (hc : LwmaCalculateNextWorkRequired p mainParams = .ok c)
    (hc' : LwmaCalculateNextWorkRequired p' mainParams = .ok c') :
    (SetCompact c).value ≤ (SetCompact c').value := by
  rw [LwmaCalculateNextWorkRequired_eq hp hh rfl, Except.ok.injEq] at hc
  rw [LwmaCalculateNextWorkRequired_eq hp' hh' rfl, Except.ok.injEq, ← hbits] at hc'
  subst hc hc'
  set S := shareSum ((lwmaBlocks p).map nBits)
  obtain ⟨ht0, ht1⟩ := weightedSum_lwmaSolvetimes hp hh
  obtain ⟨ht0', ht1'⟩ := weightedSum_lwmaSolvetimes hp' hh'
  have htt' := weightedSum_mono hs 0 le_rfl
  -- every share is at most `powLimit / (k N)`, so `t * sumTarget < 2^256`
  have hS : S.toNat ≤ 240 * ((2 ^ 224 - 1) / 832896000) := by
    have := shareSum_toNat_le (P := 2 ^ 224 - 1) ((lwmaBlocks p).map nBits) (fun c hc => by
      obtain ⟨b, hb, rfl⟩ := List.mem_map.mp hc
      have := hle b hb
      rw [BitVec.le_def, mainParams_powLimit] at this
      exact this)
    rwa [List.length_map, length_lwmaBlocks hp hh] at this
  have hprod : ∀ t : Int, 0 ≤ t → t ≤ 20822400 → (ofInt64 t * S).toNat = t.toNat * S.toNat := by
    intro t h0 h1
    rw [BitVec.toNat_mul, ofInt64_toNat h0 (by omega)]
    apply Nat.mod_eq_of_lt
    calc t.toNat * S.toNat ≤ 20822400 * (240 * ((2 ^ 224 - 1) / 832896000)) := Nat.mul_le_mul (by omega) hS
      _ < 2 ^ 256 := by norm_num
  apply SetCompact_GetCompact_mono
  apply cap_mono
  rw [BitVec.le_def, hprod _ ht0 ht1, hprod _ ht0' ht1']
  exact Nat.mul_le_mul_right _ (by omega)

/-- The chain whose entry at height `n` has the header fields `gen n`, with
the skip pointers `BuildSkip` sets. -/
def genChain (gen : Nat → IndexFields) : Nat → CBlockIndex
  | 0 => CBlockIndex.mk { gen 0 with nHeight := 0 } none none
  | n + 1 => CBlockIndex.mk { gen (n + 1) with nHeight := n + 1 } (some (genChain gen n))
      ((genChain gen n).ancestor (n - GetSkipHeight (n + 1)))

@[simp] theorem genChain_nHeight (gen : Nat → IndexFields) (n : Nat) : (genChain gen n).nHeight = n := by
  cases n <;> rfl

theorem genChain_skipInvariant (gen : Nat → IndexFields) : ∀ n, SkipInvariant (genChain gen n)
  | 0 => ⟨rfl, rfl⟩
  | n + 1 => ⟨genChain_skipInvariant gen n, by simp, by simp⟩

theorem ancestors_genChain (gen : Nat → IndexFields) :
    ∀ n, ancestors (genChain gen n) = (List.range (n + 1)).reverse.map (genChain gen)
  | 0 => rfl
  | n + 1 => by
    rw [List.range_succ, List.reverse_append, List.map_append, ← ancestors_genChain gen n]
    rfl

/-- Headers one second apart, with the compact target `0x2100fe61`. -/
def fastFields (n : Nat) : IndexFields := ⟨n, n.toUInt32, 0x2100fe61, 0⟩

/-- Headers 120 seconds apart, the 36th one second and the 240th 92 seconds
later, with the same compact target. -/
def slowFields (n : Nat) : IndexFields :=
  ⟨n, (120 * n + (if 36 ≤ n then 1 else 0) + (if 240 ≤ n then 92 else 0)).toUInt32, 0x2100fe61, 0⟩

/-- Without the bound on the window targets, the next target is not monotone
in the solve times. Both windows hold the target `0xfe61 * 256^30`; the first
has solve times 1 and the second longer ones, with `t = 3492516`, and
`t * sumTarget` then wraps past `2^256` to a value below `powLimit`, while
the first product is capped at `powLimit`. -/
theorem lwma_monotone_wraps_counterexample :
    (lwmaBlocks (genChain fastFields 240)).map nBits = (lwmaBlocks (genChain slowFields 240)).map nBits ∧
      List.Forall₂ (· ≤ ·) (lwmaSolvetimes (genChain fastFields 240))
        (lwmaSolvetimes (genChain slowFields 240)) ∧
      ∃ c c', LwmaCalculateNextWorkRequired (genChain fastFields 240) mainParams = .ok c ∧
        LwmaCalculateNextWorkRequired (genChain slowFields 240) mainParams = .ok c' ∧
        (SetCompact c').value < (SetCompact c).value := by
  have hA := @LwmaCalculateNextWorkRequired_eq _ (genChain_skipInvariant fastFields 240) (by simp)
    mainParams rfl
  have hB := @LwmaCalculateNextWorkRequired_eq _ (genChain_skipInvariant slowFields 240) (by simp)
    mainParams rfl
  simp only [lwmaSolvetimes, lwmaBlocks, ancestors_genChain] at hA hB ⊢
  exact ⟨by decide +kernel, by decide +kernel, _, _, hA, hB, by decide +kernel⟩

/-- LWMA on the main network: (a) a window of equal targets `GetCompact X`,
for `X ≤ powLimit`, with timestamps `T` apart gives `GetCompact` of
`N k ⌊X' / (k N)⌋`, a target in `[X' - k N, X']` for the decoded `X'`; and
(b) two windows with the same compact targets, all at most `powLimit`, and
pointwise longer clamped solve times in the second give a decoded next
target at least as large in the second. -/
theorem lwma_steady_and_monotone :
    (∀ (p : CBlockIndex) (X : arith_uint256), SkipInvariant p → 240 ≤ p.nHeight →
      X ≤ UintToArith256 mainParams.powLimit →
      (∀ d < 240, ∀ b, p.ancestor d = some b → b.nBits = GetCompact X false) →
      (∀ d < 240, ∀ b b', p.ancestor d = some b → p.ancestor (d + 1) = some b' →
        b.GetBlockTime = b'.GetBlockTime + 120) →
      LwmaCalculateNextWorkRequired p mainParams = .ok (GetCompact (BitVec.ofNat 256
        (832896000 * ((SetCompact (GetCompact X false)).value.toNat / 832896000))) false) ∧
      (SetCompact (GetCompact X false)).value.toNat - 832896000 ≤
        832896000 * ((SetCompact (GetCompact X false)).value.toNat / 832896000) ∧
      832896000 * ((SetCompact (GetCompact X false)).value.toNat / 832896000) ≤
        (SetCompact (GetCompact X false)).value.toNat) ∧
    (∀ (p p' : CBlockIndex) (c c' : UInt32), SkipInvariant p → SkipInvariant p' →
      240 ≤ p.nHeight → 240 ≤ p'.nHeight → (lwmaBlocks p).map nBits = (lwmaBlocks p').map nBits →
      (∀ b ∈ lwmaBlocks p, (SetCompact b.nBits).value ≤ UintToArith256 mainParams.powLimit) →
      List.Forall₂ (· ≤ ·) (lwmaSolvetimes p) (lwmaSolvetimes p') →
      LwmaCalculateNextWorkRequired p mainParams = .ok c →
      LwmaCalculateNextWorkRequired p' mainParams = .ok c' →
      (SetCompact c).value ≤ (SetCompact c').value) := by
  refine ⟨fun p X hp hh hX hbits htimes => ⟨lwma_steady_window hp hh hX hbits htimes, ?_, ?_⟩,
    fun p p' c c' hp hp' hh hh' hbits hle hs hc hc' => lwma_monotone_window hp hp' hh hh' hbits hle hs hc hc'⟩
  · have := Nat.lt_div_mul_add (a := (SetCompact (GetCompact X false)).value.toNat) (by norm_num : 0 < 832896000)
    rw [Nat.mul_comm]
    omega
  · exact Nat.mul_div_le _ _

end Palladium.Pow
