import Palladium.Arith.Compact
import Palladium.Chain.BlockIndex

/-!
# The proof of a block

`GetBlockProof` (`chain.cpp`): the expected number of hashes behind a block
whose decoded `nBits` target is `t`, that is `2^256 / (t + 1)`. As `2^256`
does not fit in an `arith_uint256`, the source computes it as
`~t / (t + 1) + 1`. The main result is that it does so exactly for every
valid target and returns 0 for every other `nBits`; the work is then
non-increasing in the target, though not strictly.
-/

namespace Palladium.Chain

open Palladium.Arith

set_option autoImplicit false

/-- `GetBlockProof`; the quotient is the long division of `operator/`. -/
def GetBlockProof (block : CBlockIndex) : Except String arith_uint256 :=
  let bnTarget := SetCompact block.nBits
  if bnTarget.fNegative || bnTarget.fOverflow || bnTarget.value == 0 then .ok 0
  else do
    let q ← divide (~~~bnTarget.value) (bnTarget.value + 1)
    return q + 1

/-- The targets `GetBlockProof` gives a nonzero proof to. -/
def ValidTarget (c : Compact) : Prop :=
  c.fNegative = false ∧ c.fOverflow = false ∧ c.value ≠ 0

instance : DecidablePred ValidTarget := fun c => by unfold ValidTarget; infer_instance

/-- The work of a target `t`: the expected number of tries for a hash at
most `t`, `2^256 / (t + 1)`. -/
def blockWork (t : Nat) : Nat := 2 ^ 256 / (t + 1)

theorem blockWork_antitone : Antitone blockWork :=
  fun _ _ h => Nat.div_le_div_left (by omega) (by omega)

theorem one_le_blockWork {t : Nat} (ht : t < 2 ^ 256) : 1 ≤ blockWork t :=
  Nat.div_pos (by omega) (by omega)

theorem blockWork_lt {t : Nat} (ht : 0 < t) : blockWork t < 2 ^ 256 :=
  lt_of_le_of_lt (Nat.div_le_div_left (by omega : 2 ≤ t + 1) (by norm_num)) (by norm_num)

/-- The largest target `SetCompact` decodes without overflow is
`0xffff * 2^240`, so adding one to a decoded target never wraps. -/
theorem SetCompact_value_add_le (c : UInt32) (h : (SetCompact c).fOverflow = false) :
    (SetCompact c).value.toNat + 2 ^ 240 ≤ 2 ^ 256 := by
  have hw := SetCompactWord_lt c
  rw [SetCompact_value_toNat]
  split
  · have : (2 : Nat) ^ 23 + 2 ^ 240 ≤ 2 ^ 256 := by norm_num
    omega
  · rename_i hs
    set s := c.toNat / 2 ^ 24
    set w := (SetCompactWord c).toNat
    rw [SetCompact_fOverflow] at h
    simp only [Bool.and_eq_false_iff, decide_eq_false_iff_not, Bool.or_eq_false_iff,
      Bool.and_eq_false_iff, not_lt, not_not] at h
    refine le_trans (Nat.add_le_add_right (Nat.mod_le _ _) _) ?_
    rcases h with hw0 | ⟨⟨h34, h33⟩, h32⟩
    · have : w = 0 := hw0
      rw [this]; norm_num
    -- the three exponents at which the mantissa's top byte is bounded
    by_cases hs32 : s ≤ 32
    · have hpow : 2 ^ (8 * (s - 3)) ≤ 2 ^ 232 := Nat.pow_le_pow_right (by norm_num) (by omega)
      calc w * 2 ^ (8 * (s - 3)) + 2 ^ 240 ≤ 2 ^ 23 * 2 ^ 232 + 2 ^ 240 :=
            Nat.add_le_add_right (Nat.mul_le_mul (by omega) hpow) _
        _ ≤ 2 ^ 256 := by norm_num
    · obtain hs33 | hs34 : s = 33 ∨ s = 34 := by omega
      · have hw' : w ≤ 0xffff := by omega
        rw [hs33]
        calc w * 2 ^ (8 * (33 - 3)) + 2 ^ 240 ≤ 0xffff * 2 ^ 240 + 2 ^ 240 :=
              Nat.add_le_add_right (Nat.mul_le_mul_right _ hw') _
          _ ≤ 2 ^ 256 := by norm_num
      · have hw' : w ≤ 0xff := by omega
        rw [hs34]
        calc w * 2 ^ (8 * (34 - 3)) + 2 ^ 240 ≤ 0xff * 2 ^ 248 + 2 ^ 240 :=
              Nat.add_le_add_right (Nat.mul_le_mul_right _ hw') _
          _ ≤ 2 ^ 256 := by norm_num

/-- `~t / (t + 1) + 1` in 256-bit arithmetic is `2^256 / (t + 1)`, since
`~t` is `2^256 - 1 - t`, when `t + 1` does not wrap. -/
theorem not_div_succ_add_one {t : arith_uint256} (h0 : t ≠ 0) (hlt : t.toNat + 1 < 2 ^ 256) :
    ∃ q, divide (~~~t) (t + 1) = .ok q ∧ (q + 1).toNat = blockWork t.toNat := by
  have hone : (1 : arith_uint256).toNat = 1 := by simp
  have ht1 : (t + 1).toNat = t.toNat + 1 := by rw [BitVec.toNat_add, hone, Nat.mod_eq_of_lt hlt]
  have hne : t + 1 ≠ 0 := fun h => by
    have := congrArg BitVec.toNat h
    rw [ht1] at this
    simp at this
  have htpos : 0 < t.toNat := Nat.pos_of_ne_zero fun h => h0 (BitVec.eq_of_toNat_eq (by simp [h]))
  rw [divide_eq_div, div_ok hne]
  refine ⟨_, rfl, ?_⟩
  have hq : (2 ^ 256 - 1 - t.toNat) / (t.toNat + 1) + 1 < 2 ^ 256 :=
    lt_of_le_of_lt (Nat.add_le_add_right (Nat.div_le_self _ _) 1) (by omega)
  -- `2^256 / (t + 1)` takes one `t + 1` out of `2^256` before dividing
  have hid : blockWork t.toNat = (2 ^ 256 - 1 - t.toNat) / (t.toNat + 1) + 1 := by
    rw [blockWork, Nat.div_eq_sub_div (a := 2 ^ 256) (by omega) (by omega)]
    congr 2
    omega
  rw [BitVec.toNat_add, BitVec.toNat_udiv, BitVec.toNat_not, ht1, hone, Nat.mod_eq_of_lt hq, hid]

/-- `GetBlockProof` is `blockWork` of the decoded target when it is valid,
and 0 otherwise; it never reaches the division-by-zero error. -/
theorem GetBlockProof_eq (block : CBlockIndex) :
    GetBlockProof block = .ok (if ValidTarget (SetCompact block.nBits)
      then BitVec.ofNat 256 (blockWork (SetCompact block.nBits).value.toNat) else 0) := by
  unfold GetBlockProof
  dsimp only
  by_cases hv : ValidTarget (SetCompact block.nBits)
  · obtain ⟨hneg, hov, h0⟩ := hv
    have hlt : (SetCompact block.nBits).value.toNat + 1 < 2 ^ 256 := by
      have := SetCompact_value_add_le block.nBits hov
      have : (1 : Nat) < 2 ^ 240 := by norm_num
      omega
    obtain ⟨q, hq, hw⟩ := not_div_succ_add_one h0 hlt
    rw [if_neg (by simpa [hneg, hov] using h0), if_pos ⟨hneg, hov, h0⟩, hq, ← hw,
      BitVec.ofNat_toNat, BitVec.setWidth_eq]
    rfl
  · rw [if_neg hv, if_pos]
    simp only [ValidTarget, not_and_or, Bool.not_eq_false, ne_eq, not_not] at hv
    rcases hv with h | h | h <;> simp [h]

/-- On a valid target the proof is `blockWork` of it, without wrapping. -/
theorem GetBlockProof_of_valid {block : CBlockIndex} (hv : ValidTarget (SetCompact block.nBits)) :
    GetBlockProof block = .ok (BitVec.ofNat 256 (blockWork (SetCompact block.nBits).value.toNat)) ∧
      (BitVec.ofNat 256 (blockWork (SetCompact block.nBits).value.toNat)).toNat =
        blockWork (SetCompact block.nBits).value.toNat := by
  refine ⟨by rw [GetBlockProof_eq, if_pos hv], ?_⟩
  have hpos : 0 < (SetCompact block.nBits).value.toNat :=
    Nat.pos_of_ne_zero fun h => hv.2.2 (BitVec.eq_of_toNat_eq (by simp [h]))
  rw [BitVec.toNat_ofNat, Nat.mod_eq_of_lt (blockWork_lt hpos)]

/-- `GetBlockProof` returns the work `2^256 / (t + 1)` of every valid
decoded target `t`, at least 1, and 0 for every other `nBits`; between two
valid targets the larger has no more work. -/
theorem block_proof_is_work :
    (∀ block : CBlockIndex, ValidTarget (SetCompact block.nBits) →
      ∃ w, GetBlockProof block = .ok w ∧
        w.toNat = blockWork (SetCompact block.nBits).value.toNat ∧ 1 ≤ w.toNat) ∧
    (∀ block : CBlockIndex, ¬ ValidTarget (SetCompact block.nBits) → GetBlockProof block = .ok 0) ∧
    (∀ (a b : CBlockIndex) (wa wb : arith_uint256), GetBlockProof a = .ok wa →
      GetBlockProof b = .ok wb → ValidTarget (SetCompact a.nBits) → ValidTarget (SetCompact b.nBits) →
      (SetCompact a.nBits).value.toNat ≤ (SetCompact b.nBits).value.toNat → wb.toNat ≤ wa.toNat) := by
  refine ⟨fun block hv => ?_, fun block hv => ?_, fun a b wa wb ha hb hva hvb hle => ?_⟩
  · obtain ⟨hproof, hwork⟩ := GetBlockProof_of_valid hv
    exact ⟨_, hproof, hwork, by rw [hwork]; exact one_le_blockWork (BitVec.isLt _)⟩
  · rw [GetBlockProof_eq, if_neg hv]
  · obtain ⟨hpa, hwa⟩ := GetBlockProof_of_valid hva
    obtain ⟨hpb, hwb⟩ := GetBlockProof_of_valid hvb
    rw [ha, Except.ok.injEq] at hpa
    rw [hb, Except.ok.injEq] at hpb
    rw [hpa, hpb, hwa, hwb]
    exact blockWork_antitone hle

/-- The work is not strictly decreasing in the target: `0x207ffffe` and
`0x207fffff` decode to `0x7ffffe * 2^232 < 0x7fffff * 2^232`, both between
`2^254` and `2^255`, and both blocks get a proof of 2. -/
theorem block_proof_not_strictly_decreasing :
    let a := CBlockIndex.mk ⟨0, 0, 0x207ffffe, 0⟩ none none
    let b := CBlockIndex.mk ⟨0, 0, 0x207fffff, 0⟩ none none
    ValidTarget (SetCompact a.nBits) ∧ ValidTarget (SetCompact b.nBits) ∧
      (SetCompact a.nBits).value.toNat < (SetCompact b.nBits).value.toNat ∧
      GetBlockProof a = .ok 2 ∧ GetBlockProof b = .ok 2 := by
  intro a b
  refine ⟨by decide, by decide, by decide, ?_, ?_⟩
  · rw [GetBlockProof_eq, if_pos (by decide)]; decide
  · rw [GetBlockProof_eq, if_pos (by decide)]; decide

end Palladium.Chain
