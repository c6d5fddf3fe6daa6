import Palladium.Primitives.Transaction
import Palladium.Chain.MedianTime
import Palladium.Lib.ExceptSpec

/-!
# BIP 68 relative lock-times

`CalculateSequenceLocks` (`consensus/tx_verify.cpp`) folds the relative
lock-times of a transaction's inputs into the last height and the last time
at which it is still invalid, starting from `-1`; `EvaluateSequenceLocks`
compares them with the block's height and its parent's median time past.

Against BIP 68's own statement, each input's lock measured from the coin
it spends (`InputLockSatisfied`), `SequenceLocks` is exact: it holds when
every enforced input's lock has passed and fails otherwise. The fold's
`-1`s and its `max` are the "last invalid" form of that `∀`.

`int` and `int64_t` results are taken modulo `2 ^ 32` and `2 ^ 64` into
their signed range; with coin heights below `2 ^ 31 - 2 ^ 16` none wraps.
-/

namespace Palladium.Consensus

open Palladium.Primitives Palladium.Chain Palladium.Chain.CBlockIndex ExceptSpec

set_option autoImplicit false

/-- `LOCKTIME_VERIFY_SEQUENCE`: interpret sequence numbers as relative
lock-time constraints. -/
def LOCKTIME_VERIFY_SEQUENCE : UInt32 := (1 : UInt32) <<< 0

/-- An `int` result. -/
def int32 (x : Int) : Int := x.bmod (2 ^ 32)

/-- An `int64_t` result. -/
def int64 (x : Int) : Int := x.bmod (2 ^ 64)

/-- The lock-time in `nSequence`, `nSequence & SEQUENCE_LOCKTIME_MASK`. -/
def lockValue (txin : CTxIn) : UInt32 := txin.nSequence &&& CTxIn.SEQUENCE_LOCKTIME_MASK

/-- One pass of the loop of `CalculateSequenceLocks`: the new
`(nMinHeight, nMinTime)` and what is left in `(*prevHeights)[txinIndex]`.
The entry `GetAncestor` returns is dereferenced; a null one is an error. -/
def sequenceLockStep (block : CBlockIndex) (lockPair : Int × Int) (txin : CTxIn) (nCoinHeight : Int) :
    Except String ((Int × Int) × Int) :=
  -- the height of a disabled input is not relevant for sequence locks
  if txin.nSequence &&& CTxIn.SEQUENCE_LOCKTIME_DISABLE_FLAG ≠ 0 then .ok (lockPair, 0)
  else if txin.nSequence &&& CTxIn.SEQUENCE_LOCKTIME_TYPE_FLAG ≠ 0 then
    match block.GetAncestor (max (int32 (nCoinHeight - 1)) 0) with
    | .error e => .error e
    | .ok none => .error "GetAncestor(std::max(nCoinHeight-1, 0)) is nullptr"
    | .ok (some ancestor) =>
      let nCoinTime := ancestor.GetMedianTimePast
      -- subtract 1 to keep the semantics of the last invalid time
      .ok ((lockPair.1, max lockPair.2
        (int64 (nCoinTime + ((lockValue txin <<< CTxIn.SEQUENCE_LOCKTIME_GRANULARITY).toNat : Int) - 1))),
        nCoinHeight)
  else .ok ((max lockPair.1 (int32 (nCoinHeight + ((lockValue txin).toNat : Int) - 1)), lockPair.2), nCoinHeight)

/-- `for (txinIndex = 0; txinIndex < tx.vin.size(); txinIndex++)`, over the
inputs paired with their coin heights. -/
def sequenceLocksLoop (block : CBlockIndex) : Int × Int → List (CTxIn × Int) →
    Except String ((Int × Int) × List Int)
  | lockPair, [] => .ok (lockPair, [])
  | lockPair, (txin, nCoinHeight) :: rest => do
    let (lockPair', height) ← sequenceLockStep block lockPair txin nCoinHeight
    let (result, heights) ← sequenceLocksLoop block lockPair' rest
    pure (result, height :: heights)

/-- `CalculateSequenceLocks`, with `*prevHeights` as it leaves it. -/
def CalculateSequenceLocks (tx : CMutableTransaction) (flags : UInt32) (prevHeights : List Int)
    (block : CBlockIndex) : Except String ((Int × Int) × List Int) :=
  if prevHeights.length ≠ tx.vin.length then .error "assert(prevHeights->size() == tx.vin.size())"
  else
    -- the last invalid height and time: with `-1` every height and time is valid
    let nMinHeight : Int := -1
    let nMinTime : Int := -1
    -- `nVersion` is cast to unsigned, so that half its range does not turn BIP 68 off
    let fEnforceBIP68 := tx.nVersion.toUInt32 ≥ 2 ∧ flags &&& LOCKTIME_VERIFY_SEQUENCE ≠ 0
    if ¬fEnforceBIP68 then .ok ((nMinHeight, nMinTime), prevHeights)
    else sequenceLocksLoop block (nMinHeight, nMinTime) (tx.vin.zip prevHeights)

def EvaluateSequenceLocks (block : CBlockIndex) (lockPair : Int × Int) : Except String Bool :=
  match block.pprev with
  | none => .error "assert(block.pprev)"
  | some pprev =>
    let nBlockTime := pprev.GetMedianTimePast
    if lockPair.1 ≥ block.nHeight ∨ lockPair.2 ≥ nBlockTime then .ok false else .ok true

def SequenceLocks (tx : CMutableTransaction) (flags : UInt32) (prevHeights : List Int) (block : CBlockIndex) :
    Except String Bool := do
  let (lockPair, _) ← CalculateSequenceLocks tx flags prevHeights block
  EvaluateSequenceLocks block lockPair

/-! ## BIP 68, input by input -/

/-- BIP 68 for one input of a transaction in `block`, whose parent is
`pprev`, spending a coin of height `nCoinHeight`: a disabled input has no
lock; a time lock has passed when the parent's median time past is at least
that of the block before the coin's, plus the lock in units of 512 seconds;
a height lock has passed when the block is at least the lock above the
coin. -/
def InputLockSatisfied (block pprev : CBlockIndex) (txin : CTxIn) (nCoinHeight : Int) : Prop :=
  txin.nSequence &&& CTxIn.SEQUENCE_LOCKTIME_DISABLE_FLAG = 0 →
    (txin.nSequence &&& CTxIn.SEQUENCE_LOCKTIME_TYPE_FLAG ≠ 0 →
      ∃ ancestor, block.GetAncestor (max (nCoinHeight - 1) 0) = .ok (some ancestor) ∧
        ancestor.GetMedianTimePast + (lockValue txin).toNat * 512 ≤ pprev.GetMedianTimePast) ∧
    (txin.nSequence &&& CTxIn.SEQUENCE_LOCKTIME_TYPE_FLAG = 0 →
      nCoinHeight + (lockValue txin).toNat ≤ block.nHeight)

/-! ## No result wraps -/

theorem int32_of_range {x : Int} (hlo : -2 ^ 31 ≤ x) (hhi : x < 2 ^ 31) : int32 x = x :=
  Int.bmod_eq_of_le hlo hhi

theorem int64_of_range {x : Int} (hlo : -2 ^ 63 ≤ x) (hhi : x < 2 ^ 63) : int64 x = x :=
  Int.bmod_eq_of_le hlo hhi

theorem lockValue_lt (txin : CTxIn) : (lockValue txin).toNat < 2 ^ 16 := by
  have : (lockValue txin).toNat ≤ 0xffff := by
    rw [lockValue, UInt32.toNat_and]
    exact Nat.and_le_right
  omega

/-- `(nSequence & SEQUENCE_LOCKTIME_MASK) << SEQUENCE_LOCKTIME_GRANULARITY` does
not overflow its `uint32_t`: it is the lock in seconds. -/
theorem lockValue_shift (txin : CTxIn) :
    (lockValue txin <<< CTxIn.SEQUENCE_LOCKTIME_GRANULARITY).toNat = (lockValue txin).toNat * 512 := by
  have hlt := lockValue_lt txin
  rw [UInt32.toNat_shiftLeft, Nat.shiftLeft_eq]
  show (lockValue txin).toNat * 2 ^ 9 % 2 ^ 32 = (lockValue txin).toNat * 512
  omega

/-! ## Each input, then the loop -/

section Inputs

variable {block pprev : CBlockIndex} {txin : CTxIn} {nCoinHeight : Int}

theorem InputLockSatisfied_of_disabled (hdis : txin.nSequence &&& CTxIn.SEQUENCE_LOCKTIME_DISABLE_FLAG ≠ 0) :
    InputLockSatisfied block pprev txin nCoinHeight :=
  fun h => absurd h hdis

theorem InputLockSatisfied_of_time (hdis : ¬txin.nSequence &&& CTxIn.SEQUENCE_LOCKTIME_DISABLE_FLAG ≠ 0)
    (htype : txin.nSequence &&& CTxIn.SEQUENCE_LOCKTIME_TYPE_FLAG ≠ 0) :
    InputLockSatisfied block pprev txin nCoinHeight ↔
      ∃ ancestor, block.GetAncestor (max (nCoinHeight - 1) 0) = .ok (some ancestor) ∧
        ancestor.GetMedianTimePast + (lockValue txin).toNat * 512 ≤ pprev.GetMedianTimePast := by
  refine ⟨fun h => (h (not_not.mp hdis)).1 htype, fun h _ => ⟨fun _ => h, fun h0 => absurd h0 htype⟩⟩

theorem InputLockSatisfied_of_height (hdis : ¬txin.nSequence &&& CTxIn.SEQUENCE_LOCKTIME_DISABLE_FLAG ≠ 0)
    (htype : ¬txin.nSequence &&& CTxIn.SEQUENCE_LOCKTIME_TYPE_FLAG ≠ 0) :
    InputLockSatisfied block pprev txin nCoinHeight ↔ nCoinHeight + (lockValue txin).toNat ≤ block.nHeight := by
  refine ⟨fun h => (h (not_not.mp hdis)).2 (not_not.mp htype), fun h _ => ⟨fun h1 => absurd h1 htype, fun _ => h⟩⟩

/-- One input: the pass fails only on an input whose lock cannot hold, and
otherwise the new pair is below the block's height and time exactly when
the old one is and the input's lock has passed. -/
theorem sequenceLockStep_ends (lockPair : Int × Int) (hlo : -2 ^ 31 < nCoinHeight)
    (hhi : nCoinHeight < 2 ^ 31 - 2 ^ 16) :
    Ends (fun _ => ¬InputLockSatisfied block pprev txin nCoinHeight)
      (fun r : (Int × Int) × Int => (r.1.1 < block.nHeight ∧ r.1.2 < pprev.GetMedianTimePast) ↔
        (lockPair.1 < block.nHeight ∧ lockPair.2 < pprev.GetMedianTimePast ∧
          InputLockSatisfied block pprev txin nCoinHeight))
      (sequenceLockStep block lockPair txin nCoinHeight) := by
  unfold sequenceLockStep
  by_cases hdis : txin.nSequence &&& CTxIn.SEQUENCE_LOCKTIME_DISABLE_FLAG ≠ 0
  · rw [if_pos hdis, ends_ok]
    have hsat : InputLockSatisfied block pprev txin nCoinHeight := InputLockSatisfied_of_disabled hdis
    exact ⟨fun h => ⟨h.1, h.2, hsat⟩, fun h => ⟨h.1, h.2.1⟩⟩
  rw [if_neg hdis]
  have hm := lockValue_lt txin
  by_cases htype : txin.nSequence &&& CTxIn.SEQUENCE_LOCKTIME_TYPE_FLAG ≠ 0
  · -- a time lock, from the median time past of the block before the coin's
    rw [if_pos htype, int32_of_range (by omega) (by omega), InputLockSatisfied_of_time hdis htype]
    cases hanc : block.GetAncestor (max (nCoinHeight - 1) 0) with
    | error e =>
      rintro ⟨a, ha, -⟩
      cases ha
    | ok o =>
      cases o with
      | none =>
        rintro ⟨a, ha, -⟩
        cases ha
      | some a =>
        have hrange := a.GetMedianTimePast_range
        rw [ends_ok, lockValue_shift, int64_of_range (by omega) (by omega)]
        simp only [Except.ok.injEq, Option.some.injEq, exists_eq_left', max_lt_iff]
        omega
  · -- a height lock
    rw [if_neg htype, ends_ok, int32_of_range (by omega) (by omega), InputLockSatisfied_of_height hdis htype]
    simp only [max_lt_iff]
    omega

/-- The loop, from any pair: it fails only if some input's lock cannot hold,
and otherwise ends below the block's height and time exactly when it
started below them and every input's lock has passed. The induction follows
the inputs. -/
theorem sequenceLocksLoop_ends : ∀ (lockPair : Int × Int) (l : List (CTxIn × Int)),
    (∀ p ∈ l, -2 ^ 31 < p.2 ∧ p.2 < 2 ^ 31 - 2 ^ 16) →
    Ends (fun _ => ¬∀ p ∈ l, InputLockSatisfied block pprev p.1 p.2)
      (fun r : (Int × Int) × List Int => (r.1.1 < block.nHeight ∧ r.1.2 < pprev.GetMedianTimePast) ↔
        (lockPair.1 < block.nHeight ∧ lockPair.2 < pprev.GetMedianTimePast ∧
          ∀ p ∈ l, InputLockSatisfied block pprev p.1 p.2))
      (sequenceLocksLoop block lockPair l)
  | lockPair, [], _ => by simp [sequenceLocksLoop]
  | lockPair, (txin, nCoinHeight) :: rest, hl => by
    have hhead := hl (txin, nCoinHeight) List.mem_cons_self
    have hrest : ∀ p ∈ rest, -2 ^ 31 < p.2 ∧ p.2 < 2 ^ 31 - 2 ^ 16 := fun p hp => hl p (List.mem_cons_of_mem _ hp)
    rw [sequenceLocksLoop]
    refine ((sequenceLockStep_ends lockPair hhead.1 hhead.2).imp
      (fun _ h hall => h (hall _ List.mem_cons_self)) (fun _ h => h)).bind ?_
    rintro ⟨lockPair', height⟩ hstep
    refine ((sequenceLocksLoop_ends lockPair' rest hrest).imp
      (fun _ h hall => h fun p hp => hall p (List.mem_cons_of_mem _ hp)) (fun _ h => h)).bind ?_
    rintro ⟨result, heights⟩ hloop
    -- the head's lock joins those of the rest
    dsimp only at hstep hloop
    show (result.1 < (block.nHeight : Int) ∧ result.2 < pprev.GetMedianTimePast) ↔ _
    rw [hloop, ← and_assoc, hstep, List.forall_mem_cons]
    simp only [and_assoc]

/-- What the loop leaves in `*prevHeights`: each height, with those of the
disabled inputs set to `0`. -/
theorem sequenceLocksLoop_heights (block : CBlockIndex) : ∀ (lockPair : Int × Int) (l : List (CTxIn × Int))
    {r : (Int × Int) × List Int}, sequenceLocksLoop block lockPair l = .ok r →
    r.2 = l.map fun p => if p.1.nSequence &&& CTxIn.SEQUENCE_LOCKTIME_DISABLE_FLAG ≠ 0 then 0 else p.2
  | lockPair, [], r, h => by
    cases h
    rfl
  | lockPair, (txin, nCoinHeight) :: rest, r, h => by
    rw [sequenceLocksLoop] at h
    cases hstep : sequenceLockStep block lockPair txin nCoinHeight with
    | error e =>
      rw [hstep] at h
      cases h
    | ok s =>
      obtain ⟨lockPair', height⟩ := s
      rw [hstep, ok_bind] at h
      dsimp only at h
      cases hloop : sequenceLocksLoop block lockPair' rest with
      | error e =>
        rw [hloop] at h
        cases h
      | ok t =>
        obtain ⟨result, heights⟩ := t
        rw [hloop] at h
        cases h
        -- the pass leaves `0` for a disabled input and the height otherwise
        have hhead : height = if txin.nSequence &&& CTxIn.SEQUENCE_LOCKTIME_DISABLE_FLAG ≠ 0 then 0
            else nCoinHeight := by
          unfold sequenceLockStep at hstep
          by_cases hdis : txin.nSequence &&& CTxIn.SEQUENCE_LOCKTIME_DISABLE_FLAG ≠ 0
          · rw [if_pos hdis] at hstep
            cases hstep
            rw [if_pos hdis]
          · rw [if_neg hdis] at hstep
            rw [if_neg hdis]
            split at hstep
            · split at hstep
              · cases hstep
              · cases hstep
              · cases hstep
                rfl
            · cases hstep
              rfl
        rw [List.map_cons, ← hhead, ← sequenceLocksLoop_heights block lockPair' rest hloop]

end Inputs

/-! ## `SequenceLocks` -/

theorem EvaluateSequenceLocks_eq {block pprev : CBlockIndex} (hpprev : block.pprev = some pprev)
    (lockPair : Int × Int) :
    EvaluateSequenceLocks block lockPair =
      .ok (decide (lockPair.1 < block.nHeight ∧ lockPair.2 < pprev.GetMedianTimePast)) := by
  rw [EvaluateSequenceLocks, hpprev]
  dsimp only
  by_cases h : lockPair.1 < block.nHeight ∧ lockPair.2 < pprev.GetMedianTimePast
  · rw [if_neg (by omega), decide_eq_true h]
  · rw [if_pos (by omega), decide_eq_false h]

/-- **BIP 68 is enforced exactly.** For a block entry with a parent and one
coin height for each input: when the version read as unsigned is at least 2
and `LOCKTIME_VERIFY_SEQUENCE` is set, `SequenceLocks` holds exactly when
every input's relative lock has passed, for coin heights below
`2 ^ 31 - 2 ^ 16` (above `INT_MIN`, where `nCoinHeight - 1` would overflow);
otherwise it always holds. -/
theorem sequence_locks_exact (tx : CMutableTransaction) (flags : UInt32) (prevHeights : List Int)
    {block pprev : CBlockIndex} (hpprev : block.pprev = some pprev) (hlen : prevHeights.length = tx.vin.length) :
    (tx.nVersion.toUInt32 ≥ 2 → flags &&& LOCKTIME_VERIFY_SEQUENCE ≠ 0 →
      (∀ h ∈ prevHeights, -2 ^ 31 < h ∧ h < 2 ^ 31 - 2 ^ 16) →
      (SequenceLocks tx flags prevHeights block = .ok true ↔
        ∀ p ∈ tx.vin.zip prevHeights, InputLockSatisfied block pprev p.1 p.2)) ∧
    (tx.nVersion.toUInt32 < 2 ∨ flags &&& LOCKTIME_VERIFY_SEQUENCE = 0 →
      SequenceLocks tx flags prevHeights block = .ok true) := by
  have hY := pprev.GetMedianTimePast_range
  unfold SequenceLocks CalculateSequenceLocks
  rw [if_neg (by omega)]
  dsimp only
  constructor
  · intro hv hf hheights
    rw [if_neg (not_not.mpr ⟨hv, hf⟩)]
    have hzip : ∀ p ∈ tx.vin.zip prevHeights, -2 ^ 31 < p.2 ∧ p.2 < 2 ^ 31 - 2 ^ 16 :=
      fun p hp => hheights p.2 (List.of_mem_zip hp).2
    have hends := @sequenceLocksLoop_ends block pprev (-1, -1) _ hzip
    cases hloop : sequenceLocksLoop block (-1, -1) (tx.vin.zip prevHeights) with
    | error e =>
      rw [hloop] at hends
      exact ⟨fun h => (by cases h), fun h => absurd h hends⟩
    | ok r =>
      rw [hloop] at hends
      obtain ⟨lockPair, heights⟩ := r
      -- the pair starts at `-1`, below every height and median time past
      rw [ok_bind, EvaluateSequenceLocks_eq hpprev, Except.ok.injEq, decide_eq_true_iff]
      rw [ends_ok] at hends
      dsimp only at hends ⊢
      rw [hends]
      exact ⟨fun h => h.2.2, fun h => ⟨by omega, by omega, h⟩⟩
  · intro hnot
    have hoff : ¬(tx.nVersion.toUInt32 ≥ 2 ∧ flags &&& LOCKTIME_VERIFY_SEQUENCE ≠ 0) := fun h =>
      hnot.elim (fun h1 => absurd (UInt32.le_iff_toNat_le.mp h.1) (by have := UInt32.lt_iff_toNat_lt.mp h1; omega))
        (fun h2 => h.2 h2)
    rw [if_pos hoff, ok_bind, EvaluateSequenceLocks_eq hpprev, Except.ok.injEq, decide_eq_true_iff]
    dsimp only
    omega

theorem sequence_locks_exact_height_lock :
    (CBlockIndex.mk ⟨1, 20, 0, 1⟩ (some (.mk ⟨0, 10, 0, 0⟩ none none)) (some (.mk ⟨0, 10, 0, 0⟩ none none))).pprev =
        some (.mk ⟨0, 10, 0, 0⟩ none none) ∧
      [(0 : Int)].length = [(⟨⟨0, 0⟩, [], 1, ⟨[]⟩⟩ : CTxIn)].length ∧
      (SequenceLocks ⟨[⟨⟨0, 0⟩, [], 1, ⟨[]⟩⟩], [], 2, 0⟩ LOCKTIME_VERIFY_SEQUENCE [0]
          (.mk ⟨1, 20, 0, 1⟩ (some (.mk ⟨0, 10, 0, 0⟩ none none)) (some (.mk ⟨0, 10, 0, 0⟩ none none))) = .ok true ↔
        ∀ p ∈ [(⟨⟨0, 0⟩, [], 1, ⟨[]⟩⟩ : CTxIn)].zip [(0 : Int)],
          InputLockSatisfied (.mk ⟨1, 20, 0, 1⟩ (some (.mk ⟨0, 10, 0, 0⟩ none none))
            (some (.mk ⟨0, 10, 0, 0⟩ none none))) (.mk ⟨0, 10, 0, 0⟩ none none) p.1 p.2) :=
  ⟨rfl, rfl, (sequence_locks_exact ⟨[⟨⟨0, 0⟩, [], 1, ⟨[]⟩⟩], [], 2, 0⟩ LOCKTIME_VERIFY_SEQUENCE [0] rfl rfl).1
    (by decide) (by decide) (by decide)⟩

end Palladium.Consensus
