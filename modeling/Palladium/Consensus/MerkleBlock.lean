import Palladium.Consensus.Merkle
import Palladium.Consensus.Consensus
import Palladium.Serialize.CompactSize
import Mathlib.Order.Bounds.Defs
import Mathlib.Tactic.Ring
import Mathlib.Data.Nat.Bitwise

/-!
# Partial Merkle trees

`CPartialMerkleTree` (`merkleblock.cpp`) proves that some transactions are in
a block. The constructor walks the block's Merkle tree depth first, storing
for each visited node one bit, whether a matched transaction lies below it,
and the hash of each node it does not descend into. `ExtractMatches` walks
the stored data back, recomputing the root and collecting the matches.

`CalcHash` computes a node by recursion on its height, and its root is the
`ComputeMerkleRoot` of the leaves. Through the serialized form, extraction
gives back the root and the matched transactions of any tree built over
distinct transactions; on any tree it reads only inside the stored vectors
and reports matched positions in increasing order.
-/

namespace Palladium.Consensus

open ByteStream Palladium.Serialize

set_option autoImplicit false

/-! ## The code -/

/-- `CalcTreeWidth`: the number of nodes at `height` over `nTransactions` leaves. -/
def CalcTreeWidth (nTransactions height : Nat) : Nat :=
  (nTransactions + (1 <<< height) - 1) >>> height

/-- `while (CalcTreeWidth(nHeight) > 1) nHeight++`, for at most `fuel` more
iterations; `none` if they do not suffice. -/
def heightLoop (nTransactions : Nat) : Nat → Nat → Option Nat
  | 0, nHeight => if CalcTreeWidth nTransactions nHeight > 1 then none else some nHeight
  | fuel + 1, nHeight =>
    if CalcTreeWidth nTransactions nHeight > 1 then heightLoop nTransactions fuel (nHeight + 1)
    else some nHeight

/-- The height of the tree, as the constructor and `ExtractMatches` compute it. -/
def treeHeight (nTransactions : Nat) : Option Nat := heightLoop nTransactions nTransactions 0

structure CPartialMerkleTree (β : Type) where
  nTransactions : Nat
  /-- node-is-parent-of-matched-txid bits -/
  vBits : List Bool
  /-- txids and internal hashes -/
  vHash : List β
  /-- flag set when encountering invalid data -/
  fBad : Bool
  deriving DecidableEq, Repr

section Build

variable {β : Type} (SHA256D64 : β → β → β)

/-- `CalcHash(height, pos, vTxid)` in a tree over `nTransactions` leaves;
`none` where the source asserts or reads past `vTxid`. A missing right child
is replaced by the left one. -/
def CalcHash (nTransactions : Nat) (vTxid : List β) : Nat → Nat → Option β
  | 0, pos => if vTxid.length = 0 then none else vTxid[pos]?
  | height + 1, pos =>
    if vTxid.length = 0 then none else
    (CalcHash nTransactions vTxid height (pos * 2)).bind fun left =>
      (if pos * 2 + 1 < CalcTreeWidth nTransactions height then
        CalcHash nTransactions vTxid height (pos * 2 + 1) else some left).map (SHA256D64 left)

/-- The first loop of `TraverseAndBuild`: whether a matched transaction lies
below node `pos` at `height`; `none` if it reads past `vMatch`. -/
def parentOfMatch (vMatch : List Bool) (nTransactions height pos : Nat) : Option Bool :=
  (List.range' (pos <<< height) (min ((pos + 1) <<< height) nTransactions - (pos <<< height))).foldlM
    (fun fParentOfMatch p => (fParentOfMatch || ·) <$> vMatch[p]?) false

/-- Store the flag bit and the hash of the node, and stop. -/
def storeHash (nTransactions : Nat) (vTxid : List β) (height pos : Nat) (fParentOfMatch : Bool)
    (acc : List Bool × List β) : Option (List Bool × List β) :=
  (CalcHash SHA256D64 nTransactions vTxid height pos).map fun hash =>
    (acc.1 ++ [fParentOfMatch], acc.2 ++ [hash])

/-- `TraverseAndBuild(height, pos, vTxid, vMatch)`, appending to `(vBits, vHash)`. -/
def TraverseAndBuild (nTransactions : Nat) (vTxid : List β) (vMatch : List Bool) :
    Nat → Nat → List Bool × List β → Option (List Bool × List β)
  | 0, pos, acc =>
    (parentOfMatch vMatch nTransactions 0 pos).bind fun fParentOfMatch =>
      storeHash SHA256D64 nTransactions vTxid 0 pos fParentOfMatch acc
  | height + 1, pos, acc =>
    (parentOfMatch vMatch nTransactions (height + 1) pos).bind fun fParentOfMatch =>
      if fParentOfMatch then
        (TraverseAndBuild nTransactions vTxid vMatch height (pos * 2) (acc.1 ++ [true], acc.2)).bind
          fun acc =>
            if pos * 2 + 1 < CalcTreeWidth nTransactions height then
              TraverseAndBuild nTransactions vTxid vMatch height (pos * 2 + 1) acc
            else some acc
      else storeHash SHA256D64 nTransactions vTxid (height + 1) pos false acc

/-- The constructor `CPartialMerkleTree(vTxid, vMatch)`. -/
def CPartialMerkleTree.create (vTxid : List β) (vMatch : List Bool) : Option (CPartialMerkleTree β) :=
  (treeHeight vTxid.length).bind fun nHeight =>
    (TraverseAndBuild SHA256D64 vTxid.length vTxid vMatch nHeight 0 ([], [])).map fun acc =>
      ⟨vTxid.length, acc.1, acc.2, false⟩

end Build

/-- The cursors and outputs of `TraverseAndExtract`, with the tree's `fBad`. -/
structure ExtractState (β : Type) where
  nBitsUsed : Nat
  nHashUsed : Nat
  vMatch : List β
  vnIndex : List Nat
  fBad : Bool

/-- What `ExtractMatches` returns and writes: the root, `uint256()` on
failure, the matched hashes and their indices, and the tree's `fBad`. -/
structure Extracted (β : Type) where
  hashMerkleRoot : β
  vMatch : List β
  vnIndex : List Nat
  fBad : Bool
  deriving DecidableEq, Repr

section Extract

variable {β : Type} [DecidableEq β] (SHA256D64 : β → β → β) (zero : β)

/-- The branch of `TraverseAndExtract` that uses the next stored hash and does
not descend; at height 0 a set bit marks a matched transaction. -/
def useStoredHash (tree : CPartialMerkleTree β) (height pos : Nat) (fParentOfMatch : Bool)
    (st : ExtractState β) : Option (β × ExtractState β) :=
  if tree.vHash.length ≤ st.nHashUsed then
    -- overflowed the hash array
    some (zero, { st with fBad := true })
  else tree.vHash[st.nHashUsed]?.map fun hash =>
    if height = 0 ∧ fParentOfMatch = true then
      (hash, { st with
        nHashUsed := st.nHashUsed + 1, vMatch := st.vMatch ++ [hash], vnIndex := st.vnIndex ++ [pos] })
    else (hash, { st with nHashUsed := st.nHashUsed + 1 })

/-- `TraverseAndExtract(height, pos, nBitsUsed, nHashUsed, vMatch, vnIndex)`;
`none` where it would read past `vBits` or `vHash`. -/
def TraverseAndExtract (tree : CPartialMerkleTree β) : Nat → Nat → ExtractState β → Option (β × ExtractState β)
  | 0, pos, st =>
    if tree.vBits.length ≤ st.nBitsUsed then some (zero, { st with fBad := true }) else
    tree.vBits[st.nBitsUsed]?.bind fun fParentOfMatch =>
      useStoredHash zero tree 0 pos fParentOfMatch { st with nBitsUsed := st.nBitsUsed + 1 }
  | height + 1, pos, st =>
    if tree.vBits.length ≤ st.nBitsUsed then some (zero, { st with fBad := true }) else
    tree.vBits[st.nBitsUsed]?.bind fun fParentOfMatch =>
      if fParentOfMatch then
        (TraverseAndExtract tree height (pos * 2) { st with nBitsUsed := st.nBitsUsed + 1 }).bind
          fun (left, st) =>
            if pos * 2 + 1 < CalcTreeWidth tree.nTransactions height then
              (TraverseAndExtract tree height (pos * 2 + 1) st).map fun (right, st) =>
                -- the two branches cover different transactions, so equal hashes are invalid
                (SHA256D64 left right, if right = left then { st with fBad := true } else st)
            else some (SHA256D64 left left, st)
      else useStoredHash zero tree (height + 1) pos false { st with nBitsUsed := st.nBitsUsed + 1 }

/-- `ExtractMatches(vMatch, vnIndex)`: `vMatch` is cleared, `vnIndex` is
appended to. `none` where the traversal would read out of range or the height
loop would not stop. -/
def ExtractMatches (tree : CPartialMerkleTree β) (vnIndex : List Nat) : Option (Extracted β) :=
  let fail : Extracted β := ⟨zero, [], vnIndex, tree.fBad⟩
  if tree.nTransactions = 0 then some fail
  else if MAX_BLOCK_WEIGHT / MIN_TRANSACTION_WEIGHT < tree.nTransactions then some fail
  else if tree.nTransactions < tree.vHash.length then some fail
  else if tree.vBits.length < tree.vHash.length then some fail
  else (treeHeight tree.nTransactions).bind fun nHeight =>
    (TraverseAndExtract SHA256D64 zero tree nHeight 0 ⟨0, 0, [], vnIndex, tree.fBad⟩).map
      fun (hashMerkleRoot, st) =>
        if st.fBad then ⟨zero, st.vMatch, st.vnIndex, st.fBad⟩
        -- all bits consumed, except the padding of their byte serialization
        else if (st.nBitsUsed + 7) / 8 ≠ (tree.vBits.length + 7) / 8 then ⟨zero, st.vMatch, st.vnIndex, st.fBad⟩
        else if st.nHashUsed ≠ tree.vHash.length then ⟨zero, st.vMatch, st.vnIndex, st.fBad⟩
        else ⟨hashMerkleRoot, st.vMatch, st.vnIndex, st.fBad⟩

end Extract

/-! ## Widths -/

theorem CalcTreeWidth_eq (n h : Nat) : CalcTreeWidth n h = (n + 2 ^ h - 1) / 2 ^ h := by
  simp [CalcTreeWidth, Nat.shiftLeft_eq, Nat.shiftRight_eq_div_pow]

@[simp] theorem CalcTreeWidth_zero (n : Nat) : CalcTreeWidth n 0 = n := by
  simp [CalcTreeWidth_eq]

/-- A node exists at `pos` exactly when its first leaf does. -/
theorem lt_CalcTreeWidth_iff {n h pos : Nat} : pos < CalcTreeWidth n h ↔ pos * 2 ^ h < n := by
  have hpos : 1 ≤ 2 ^ h := Nat.one_le_two_pow
  rw [CalcTreeWidth_eq, ← Nat.succ_le_iff, Nat.le_div_iff_mul_le (by omega), Nat.succ_mul]
  omega

theorem CalcTreeWidth_succ (n h : Nat) : CalcTreeWidth n (h + 1) = (CalcTreeWidth n h + 1) / 2 := by
  have hpos : 1 ≤ 2 ^ h := Nat.one_le_two_pow
  rw [CalcTreeWidth_eq, CalcTreeWidth_eq, ← Nat.add_div_right _ (by omega : 0 < 2 ^ h),
    Nat.div_div_eq_div_mul, ← Nat.pow_succ, Nat.pow_succ]
  congr 1
  omega

/-- The left child of an existing node exists. -/
theorem left_lt_CalcTreeWidth {n h pos : Nat} (hp : pos < CalcTreeWidth n (h + 1)) :
    pos * 2 < CalcTreeWidth n h := by
  rw [lt_CalcTreeWidth_iff] at hp ⊢
  rwa [Nat.mul_assoc, ← Nat.pow_succ']

/-- The height loop stops at the first height of width at most one, if the
fuel reaches it. -/
theorem heightLoop_spec {n : Nat} : ∀ (fuel nHeight : Nat), (∀ j < nHeight, 1 < CalcTreeWidth n j) →
    CalcTreeWidth n (nHeight + fuel) ≤ 1 →
    ∃ H, heightLoop n fuel nHeight = some H ∧ CalcTreeWidth n H ≤ 1 ∧ ∀ j < H, 1 < CalcTreeWidth n j
  | 0, nHeight, hlt, hw => by
    rw [Nat.add_zero] at hw
    exact ⟨nHeight, by rw [heightLoop, if_neg (by omega)], hw, hlt⟩
  | fuel + 1, nHeight, hlt, hw => by
    by_cases h1 : CalcTreeWidth n nHeight > 1
    · rw [heightLoop, if_pos h1]
      apply heightLoop_spec fuel (nHeight + 1) _ (by rwa [Nat.add_right_comm, Nat.add_assoc])
      intro j hj
      rcases Nat.lt_succ_iff_lt_or_eq.mp hj with hj | rfl
      · exact hlt j hj
      · exact h1
    · exact ⟨nHeight, by rw [heightLoop, if_neg h1], by omega, hlt⟩

/-- The loop always stops: the width is at most one by height `nTransactions`. -/
theorem treeHeight_spec (n : Nat) :
    ∃ H, treeHeight n = some H ∧ CalcTreeWidth n H ≤ 1 ∧ ∀ j < H, 1 < CalcTreeWidth n j := by
  apply heightLoop_spec n 0 (fun j hj => absurd hj (Nat.not_lt_zero j))
  have hpow : n < 2 ^ n := Nat.lt_two_pow_self
  rw [Nat.zero_add, CalcTreeWidth_eq, ← Nat.lt_succ_iff, Nat.div_lt_iff_lt_mul Nat.one_le_two_pow]
  omega

/-! ## `CalcHash` computes the levels of `ComputeMerkleRoot` -/

section Levels

variable {β : Type} (SHA256D64 : β → β → β)

theorem length_iterate_hashLevel (l : List β) :
    ∀ h, ((hashLevel SHA256D64)^[h] l).length = CalcTreeWidth l.length h
  | 0 => by simp
  | h + 1 => by
    rw [Function.iterate_succ_apply', length_hashLevel, length_iterate_hashLevel l h, CalcTreeWidth_succ]

/-- Node `pos` of the next level hashes nodes `2 pos` and `2 pos + 1`, or
`2 pos` with itself when it is the last. -/
theorem getElem?_hashLevel : ∀ (l : List β) (pos : Nat),
    (hashLevel SHA256D64 l)[pos]? = l[pos * 2]?.map fun a => SHA256D64 a (l[pos * 2 + 1]?.getD a)
  | [], _ => by simp [hashLevel]
  | [_], 0 => by simp [hashLevel]
  | [_], pos + 1 => by simp [hashLevel]
  | _ :: _ :: _, 0 => by simp [hashLevel]
  | a :: b :: rest, pos + 1 => by
    rw [show (pos + 1) * 2 = pos * 2 + 1 + 1 by omega]
    simp [hashLevel, getElem?_hashLevel rest pos]

/-- Below the width, `CalcHash` reads the level of `ComputeMerkleRoot`. -/
theorem CalcHash_eq_getElem? (l : List β) :
    ∀ h pos, pos < CalcTreeWidth l.length h →
      CalcHash SHA256D64 l.length l h pos = ((hashLevel SHA256D64)^[h] l)[pos]?
  | 0, pos, hp => by
    rw [CalcTreeWidth_zero] at hp
    rw [CalcHash, if_neg (by omega)]
    rfl
  | h + 1, pos, hp => by
    have hleft := left_lt_CalcTreeWidth hp
    have hl : l.length ≠ 0 := by
      rw [lt_CalcTreeWidth_iff] at hleft
      omega
    obtain ⟨left, hget⟩ : ∃ left, ((hashLevel SHA256D64)^[h] l)[pos * 2]? = some left :=
      List.getElem?_eq_some_iff.mpr ⟨by rwa [length_iterate_hashLevel], rfl⟩ |> fun h => ⟨_, h⟩
    rw [CalcHash, if_neg hl, CalcHash_eq_getElem? l h (pos * 2) hleft, Function.iterate_succ_apply',
      getElem?_hashLevel, hget, Option.bind_some, Option.map_some]
    split_ifs with hright
    · rw [CalcHash_eq_getElem? l h _ hright]
      obtain ⟨right, hr⟩ : ∃ right, ((hashLevel SHA256D64)^[h] l)[pos * 2 + 1]? = some right :=
        ⟨_, List.getElem?_eq_some_iff.mpr ⟨by rwa [length_iterate_hashLevel], rfl⟩⟩
      rw [hr]
      rfl
    · rw [List.getElem?_eq_none (by rw [length_iterate_hashLevel]; omega)]
      rfl

variable [DecidableEq β] (zero : β)

/-- At the first height of width one, `CalcHash` of the root is the
`ComputeMerkleRoot` of the leaves. -/
theorem CalcHash_root {l : List β} {H : Nat} (hne : l ≠ []) (hH : CalcTreeWidth l.length H ≤ 1)
    (hlt : ∀ j < H, 1 < CalcTreeWidth l.length j) :
    CalcHash SHA256D64 l.length l H 0 = some (ComputeMerkleRoot SHA256D64 zero l).1 := by
  have hpos : 0 < CalcTreeWidth l.length H :=
    lt_CalcTreeWidth_iff.mpr (by simpa using List.length_pos_iff.mpr hne)
  obtain ⟨r, hr⟩ : ∃ r, (hashLevel SHA256D64)^[H] l = [r] := by
    apply List.length_eq_one_iff.mp
    rw [length_iterate_hashLevel]
    omega
  have hroot := ComputeMerkleRoot_fst_of_least SHA256D64 zero hr
    (fun j hj => by rw [length_iterate_hashLevel]; exact hlt j hj)
  rw [CalcHash_eq_getElem? SHA256D64 l H 0 hpos, hr, hroot]
  rfl

theorem partial_tree_root_eq_merkle_root (l : List β) (hne : l ≠ []) (H : Nat)
    (hH : IsLeast {h | CalcTreeWidth l.length h = 1} H) :
    CalcHash SHA256D64 l.length l H 0 = some (ComputeMerkleRoot SHA256D64 zero l).1 := by
  apply CalcHash_root SHA256D64 zero hne (Nat.le_of_eq hH.1)
  intro j hj
  -- below `H` the width is not one, and it is never zero over leaves
  have hpos : 0 < CalcTreeWidth l.length j :=
    lt_CalcTreeWidth_iff.mpr (by simpa using List.length_pos_iff.mpr hne)
  have hne1 : CalcTreeWidth l.length j ≠ 1 := fun h1 => absurd (hH.2 h1) (by omega)
  omega

end Levels

theorem partial_tree_root_eq_merkle_root_three_leaves :
    IsLeast {h | CalcTreeWidth 3 h = 1} 2 ∧
      CalcHash FreeHash.node 3 [.leaf 1, .leaf 2, .leaf (3 : Nat)] 2 0 =
        some (ComputeMerkleRoot FreeHash.node (.leaf 0) [.leaf 1, .leaf 2, .leaf 3]).1 := by
  have hleast : IsLeast {h | CalcTreeWidth 3 h = 1} 2 := by
    refine ⟨(by decide : CalcTreeWidth 3 2 = 1), fun h (hh : CalcTreeWidth 3 h = 1) => ?_⟩
    match h, hh with
    | 0, hh => exact absurd hh (by decide)
    | 1, hh => exact absurd hh (by decide)
    | h + 2, _ => omega
  exact ⟨hleast, partial_tree_root_eq_merkle_root FreeHash.node (.leaf 0) _ (by decide) 2 hleast⟩

/-! ## The leaves below a node -/

/-- The leaf positions below node `pos` at `height`, in order. -/
def leavesBelow (n height pos : Nat) : List Nat :=
  List.range' (pos * 2 ^ height) (min ((pos + 1) * 2 ^ height) n - pos * 2 ^ height)

/-- The matched positions below node `pos` at `height`, in order. -/
def matchesBelow (vMatch : List Bool) (n height pos : Nat) : List Nat :=
  (leavesBelow n height pos).filter (vMatch.getD · false)

theorem mem_leavesBelow {n h pos i : Nat} :
    i ∈ leavesBelow n h pos ↔ pos * 2 ^ h ≤ i ∧ i < (pos + 1) * 2 ^ h ∧ i < n := by
  rw [leavesBelow, List.mem_range'_1]
  omega

theorem leavesBelow_zero {n pos : Nat} (hp : pos < n) : leavesBelow n 0 pos = [pos] := by
  rw [leavesBelow, List.range'_eq_singleton_iff]
  refine ⟨Nat.mul_one pos, ?_⟩
  simp only [Nat.pow_zero, Nat.mul_one]
  omega

/-- At the top of the tree all leaves lie below the root. -/
theorem leavesBelow_root {n H : Nat} (hH : CalcTreeWidth n H ≤ 1) : leavesBelow n H 0 = List.range n := by
  have hn : ¬ 1 * 2 ^ H < n := fun h => absurd (lt_CalcTreeWidth_iff.mpr h) (by omega)
  rw [leavesBelow, Nat.zero_mul, Nat.zero_add, Nat.sub_zero, Nat.min_eq_right (by omega), List.range_eq_range']

theorem range'_split {s t u : Nat} (hst : s ≤ t) (htu : t ≤ u) :
    List.range' s (t - s) ++ List.range' t (u - t) = List.range' s (u - s) := by
  have h := @List.range'_append s (t - s) (u - t) 1
  rwa [Nat.one_mul, Nat.add_sub_cancel' hst, show t - s + (u - t) = u - s by omega] at h

/-- A node's leaves are its left child's, then its right child's if it has one. -/
theorem leavesBelow_succ {n h pos : Nat} :
    leavesBelow n (h + 1) pos = leavesBelow n h (pos * 2) ++
      (if pos * 2 + 1 < CalcTreeWidth n h then leavesBelow n h (pos * 2 + 1) else []) := by
  have e1 : pos * 2 ^ (h + 1) = pos * 2 * 2 ^ h := by rw [Nat.pow_succ]; ring
  have e2 : (pos + 1) * 2 ^ (h + 1) = pos * 2 * 2 ^ h + 2 * 2 ^ h := by rw [Nat.pow_succ]; ring
  have e3 : (pos * 2 + 1) * 2 ^ h = pos * 2 * 2 ^ h + 2 ^ h := by ring
  have e4 : (pos * 2 + 1 + 1) * 2 ^ h = pos * 2 * 2 ^ h + 2 * 2 ^ h := by ring
  simp only [leavesBelow, e1, e2, e3, e4]
  split_ifs with hc
  · rw [lt_CalcTreeWidth_iff, e3] at hc
    rw [show min (pos * 2 * 2 ^ h + 2 ^ h) n = pos * 2 * 2 ^ h + 2 ^ h by omega]
    exact (range'_split (by omega) (by omega)).symm
  · rw [lt_CalcTreeWidth_iff, e3] at hc
    rw [Nat.min_eq_right (by omega), Nat.min_eq_right (by omega), List.append_nil]

theorem matchesBelow_succ {vMatch : List Bool} {n h pos : Nat} :
    matchesBelow vMatch n (h + 1) pos = matchesBelow vMatch n h (pos * 2) ++
      (if pos * 2 + 1 < CalcTreeWidth n h then matchesBelow vMatch n h (pos * 2 + 1) else []) := by
  rw [matchesBelow, leavesBelow_succ, List.filter_append]
  split_ifs <;> rfl

theorem length_leavesBelow_pos {n h pos : Nat} (hp : pos < CalcTreeWidth n h) :
    0 < (leavesBelow n h pos).length := by
  rw [lt_CalcTreeWidth_iff] at hp
  rw [leavesBelow, List.length_range', Nat.succ_mul]
  have : 0 < 2 ^ h := Nat.two_pow_pos h
  omega

theorem foldlM_or_getElem? (vMatch : List Bool) : ∀ (l : List Nat) (init : Bool), (∀ p ∈ l, p < vMatch.length) →
    l.foldlM (fun fParentOfMatch p => vMatch[p]?.map (fParentOfMatch || ·)) init =
      some (init || l.any (vMatch.getD · false))
  | [], init, _ => by simp
  | p :: l, init, hl => by
    have hp := hl p List.mem_cons_self
    rw [List.foldlM_cons, List.getElem?_eq_getElem hp, Option.map_some]
    simp only [Option.bind_eq_bind, Option.bind_some,
      foldlM_or_getElem? vMatch l _ (fun q hq => hl q (List.mem_cons_of_mem p hq))]
    simp [Bool.or_assoc, List.getD_eq_getElem?_getD, List.getElem?_eq_getElem hp]

/-- The first loop of `TraverseAndBuild` tells whether a leaf below is matched. -/
theorem parentOfMatch_eq {vMatch : List Bool} {n h pos : Nat} (hlen : n ≤ vMatch.length) :
    parentOfMatch vMatch n h pos = some ((leavesBelow n h pos).any (vMatch.getD · false)) := by
  have hl : ∀ p ∈ leavesBelow n h pos, p < vMatch.length := fun p hp => by
    have := mem_leavesBelow.mp hp
    omega
  have hfold := foldlM_or_getElem? vMatch (leavesBelow n h pos) false hl
  rw [Bool.false_or] at hfold
  rw [← hfold]
  simp only [parentOfMatch, leavesBelow, Nat.shiftLeft_eq, Option.map_eq_map]

theorem matchesBelow_eq_nil {vMatch : List Bool} {n h pos : Nat}
    (hf : (leavesBelow n h pos).any (vMatch.getD · false) = false) : matchesBelow vMatch n h pos = [] := by
  rw [matchesBelow, List.filter_eq_nil_iff]
  exact List.any_eq_false.mp hf

/-! ## Building -/

section BuildSpec

variable {β : Type} (SHA256D64 : β → β → β)

theorem CalcHash_isSome {l : List β} {h pos : Nat} (hp : pos < CalcTreeWidth l.length h) :
    ∃ v, CalcHash SHA256D64 l.length l h pos = some v := by
  rw [CalcHash_eq_getElem? SHA256D64 l h pos hp]
  exact ⟨_, List.getElem?_eq_some_iff.mpr ⟨by rwa [length_iterate_hashLevel], rfl⟩⟩

variable {n : Nat} {vTxid : List β} {vMatch : List Bool}

/-- The walk appends to the vectors it is given. -/
theorem TraverseAndBuild_append : ∀ (h pos : Nat) (acc : List Bool × List β),
    TraverseAndBuild SHA256D64 n vTxid vMatch h pos acc =
      (TraverseAndBuild SHA256D64 n vTxid vMatch h pos ([], [])).map fun r => (acc.1 ++ r.1, acc.2 ++ r.2)
  | 0, pos, acc => by
    simp only [TraverseAndBuild, storeHash]
    cases parentOfMatch vMatch n 0 pos <;> cases CalcHash SHA256D64 n vTxid 0 pos <;> simp
  | h + 1, pos, acc => by
    simp only [TraverseAndBuild, storeHash]
    rcases parentOfMatch vMatch n (h + 1) pos with _ | _ | _
    · rfl
    · cases CalcHash SHA256D64 n vTxid (h + 1) pos <;> simp
    · simp only [Option.bind_some, if_true]
      rw [TraverseAndBuild_append h (pos * 2) (acc.1 ++ [true], acc.2),
        TraverseAndBuild_append h (pos * 2) ([] ++ [true], [])]
      rcases TraverseAndBuild SHA256D64 n vTxid vMatch h (pos * 2) ([], []) with _ | r
      · rfl
      · simp only [Option.map_some, Option.bind_some]
        split_ifs
        · rw [TraverseAndBuild_append h (pos * 2 + 1) _,
            TraverseAndBuild_append h (pos * 2 + 1) ([] ++ [true] ++ r.1, [] ++ r.2)]
          cases TraverseAndBuild SHA256D64 n vTxid vMatch h (pos * 2 + 1) ([], []) <;> simp
        · simp

/-- The walk over existing nodes succeeds; it stores at most one hash per bit
and per leaf, and at most one bit per node of the full subtree. -/
theorem TraverseAndBuild_spec (hlen : vMatch.length = vTxid.length) :
    ∀ h pos, pos < CalcTreeWidth vTxid.length h → ∃ B H,
      TraverseAndBuild SHA256D64 vTxid.length vTxid vMatch h pos ([], []) = some (B, H) ∧
      H.length ≤ B.length ∧ H.length ≤ (leavesBelow vTxid.length h pos).length ∧ B.length < 2 ^ (h + 1)
  | 0, pos, hp => by
    obtain ⟨v, hv⟩ := CalcHash_isSome SHA256D64 hp
    have hleaf := length_leavesBelow_pos hp
    refine ⟨[(leavesBelow vTxid.length 0 pos).any (vMatch.getD · false)], [v], ?_, by simp,
      Nat.succ_le_of_lt hleaf, by simp⟩
    rw [TraverseAndBuild, parentOfMatch_eq (by omega), Option.bind_some, storeHash, hv, Option.map_some]
    rfl
  | h + 1, pos, hp => by
    rw [TraverseAndBuild, parentOfMatch_eq (by omega), Option.bind_some]
    have hpow : 2 ^ (h + 1 + 1) = 2 * 2 ^ (h + 1) := Nat.pow_succ'
    split_ifs with hf hright
    · -- a matched transaction below: both children are walked
      obtain ⟨B₁, H₁, hb₁, hh₁, hl₁, hn₁⟩ := TraverseAndBuild_spec hlen h (pos * 2) (left_lt_CalcTreeWidth hp)
      obtain ⟨B₂, H₂, hb₂, hh₂, hl₂, hn₂⟩ := TraverseAndBuild_spec hlen h (pos * 2 + 1) hright
      refine ⟨[true] ++ B₁ ++ B₂, H₁ ++ H₂, ?_, by simp; omega, ?_, by simp; omega⟩
      · rw [TraverseAndBuild_append, hb₁, Option.map_some, Option.bind_some, TraverseAndBuild_append, hb₂,
          Option.map_some]
        simp
      · rw [leavesBelow_succ, if_pos hright, List.length_append, List.length_append]
        omega
    · obtain ⟨B₁, H₁, hb₁, hh₁, hl₁, hn₁⟩ := TraverseAndBuild_spec hlen h (pos * 2) (left_lt_CalcTreeWidth hp)
      refine ⟨[true] ++ B₁, H₁, ?_, by simp; omega, ?_, by simp; omega⟩
      · rw [TraverseAndBuild_append, hb₁, Option.map_some, Option.bind_some]
        simp
      · rw [leavesBelow_succ, if_neg hright, List.append_nil]
        exact hl₁
    · obtain ⟨v, hv⟩ := CalcHash_isSome SHA256D64 hp
      have hleaf := length_leavesBelow_pos hp
      refine ⟨[false], [v], ?_, by simp, Nat.succ_le_of_lt hleaf, by simp⟩
      rw [storeHash, hv, Option.map_some]
      rfl

theorem CalcHash_succ_eq_some {h pos : Nat} {v : β} (hv : CalcHash SHA256D64 n vTxid (h + 1) pos = some v) :
    ∃ left right, CalcHash SHA256D64 n vTxid h (pos * 2) = some left ∧ v = SHA256D64 left right := by
  by_cases hl : vTxid.length = 0
  · rw [CalcHash, if_pos hl] at hv
    cases hv
  · rw [CalcHash, if_neg hl] at hv
    obtain ⟨left, hleft, hv⟩ := Option.bind_eq_some_iff.mp hv
    obtain ⟨right, -, rfl⟩ := Option.map_eq_some_iff.mp hv
    exact ⟨left, right, hleft, rfl⟩

/-- Over distinct leaves and an injective hash, distinct nodes of one height
have distinct hashes. -/
theorem CalcHash_inj (hnd : vTxid.Nodup) (hinj : ∀ a b c d, SHA256D64 a b = SHA256D64 c d → a = c ∧ b = d) :
    ∀ h pos pos' v, CalcHash SHA256D64 n vTxid h pos = some v → CalcHash SHA256D64 n vTxid h pos' = some v →
      pos = pos'
  | 0, pos, pos', v, hv, hv' => by
    rw [CalcHash] at hv hv'
    split_ifs at hv hv'
    obtain ⟨hp, rfl⟩ := List.getElem?_eq_some_iff.mp hv
    obtain ⟨hp', heq⟩ := List.getElem?_eq_some_iff.mp hv'
    exact ((List.Nodup.getElem_inj_iff hnd).mp heq).symm
  | h + 1, pos, pos', v, hv, hv' => by
    obtain ⟨left, right, hleft, rfl⟩ := CalcHash_succ_eq_some SHA256D64 hv
    obtain ⟨left', right', hleft', heq⟩ := CalcHash_succ_eq_some SHA256D64 hv'
    obtain ⟨rfl, -⟩ := hinj _ _ _ _ heq
    have := CalcHash_inj hnd hinj h (pos * 2) (pos' * 2) left hleft hleft'
    omega

end BuildSpec

/-! ## Extracting -/

section Cursor

variable {α : Type} {l : List α} {k : Nat}

/-- A stored value at the cursor is read there. -/
theorem getElem?_of_cons_prefix_drop {a : α} {rest : List α} (h : a :: rest <+: l.drop k) :
    k < l.length ∧ l[k]? = some a ∧ rest <+: l.drop (k + 1) := by
  obtain ⟨t, ht⟩ := h
  have hget : l[k]? = some a := by
    rw [← Nat.add_zero k, ← List.getElem?_drop, ← ht]
    rfl
  refine ⟨(List.getElem?_eq_some_iff.mp hget).1, hget, t, ?_⟩
  rw [← List.drop_drop, ← ht]
  rfl

theorem prefix_drop_append {X Y : List α} (h : X ++ Y <+: l.drop k) :
    X <+: l.drop k ∧ Y <+: l.drop (k + X.length) := by
  obtain ⟨t, ht⟩ := h
  refine ⟨⟨Y ++ t, by rw [← ht, List.append_assoc]⟩, t, ?_⟩
  rw [← List.drop_drop, ← ht, List.append_assoc, List.drop_left]

end Cursor

section ExtractSpec

variable {β : Type} [DecidableEq β] (SHA256D64 : β → β → β) (zero : β)
variable {vTxid : List β} {vMatch : List Bool}

/-- Extraction walks the data that the constructor stored in step with it:
from a cursor at a subtree's bits and hashes, it returns the subtree's hash
and collects its matched transactions, consuming exactly what was stored.
The induction is on the height, following both walks. -/
theorem TraverseAndExtract_of_build (hlen : vMatch.length = vTxid.length) (hnd : vTxid.Nodup)
    (hinj : ∀ a b c d, SHA256D64 a b = SHA256D64 c d → a = c ∧ b = d) :
    ∀ h pos B H, pos < CalcTreeWidth vTxid.length h →
      TraverseAndBuild SHA256D64 vTxid.length vTxid vMatch h pos ([], []) = some (B, H) →
      ∀ (tree : CPartialMerkleTree β) (st : ExtractState β), tree.nTransactions = vTxid.length →
        B <+: tree.vBits.drop st.nBitsUsed → H <+: tree.vHash.drop st.nHashUsed →
        ∃ v, CalcHash SHA256D64 vTxid.length vTxid h pos = some v ∧
          TraverseAndExtract SHA256D64 zero tree h pos st = some (v, { st with
            nBitsUsed := st.nBitsUsed + B.length, nHashUsed := st.nHashUsed + H.length,
            vMatch := st.vMatch ++ (matchesBelow vMatch vTxid.length h pos).map (vTxid.getD · zero),
            vnIndex := st.vnIndex ++ matchesBelow vMatch vTxid.length h pos })
  | 0, pos, B, H, hp, hb, tree, st, _, hB, hH => by
    rw [CalcTreeWidth_zero] at hp
    rw [TraverseAndBuild, parentOfMatch_eq (by omega), Option.bind_some, storeHash,
      leavesBelow_zero hp] at hb
    obtain ⟨v, hv, hBH⟩ := Option.map_eq_some_iff.mp hb
    simp only [List.nil_append, Prod.mk.injEq, List.any_cons, List.any_nil, Bool.or_false] at hBH
    obtain ⟨rfl, rfl⟩ := hBH
    obtain ⟨hk, hbit, -⟩ := getElem?_of_cons_prefix_drop hB
    obtain ⟨hk', hhash, -⟩ := getElem?_of_cons_prefix_drop hH
    have hget : vTxid[pos]? = some v := by
      rw [CalcHash, if_neg (by omega)] at hv
      exact hv
    refine ⟨v, hv, ?_⟩
    rw [TraverseAndExtract, if_neg (by omega), hbit, Option.bind_some, useStoredHash,
      if_neg (by dsimp only; omega), hhash, Option.map_some]
    simp only [matchesBelow, leavesBelow_zero hp, List.filter_cons, List.filter_nil]
    cases vMatch.getD pos false <;> simp [hget]
  | h + 1, pos, B, H, hp, hb, tree, st, hn, hB, hH => by
    rw [TraverseAndBuild, parentOfMatch_eq (by omega), Option.bind_some] at hb
    rw [TraverseAndExtract]
    split_ifs at hb with hf hright
    · -- a matched transaction below: both children are walked, left then right
      obtain ⟨B₁, H₁, hb₁, -⟩ := TraverseAndBuild_spec SHA256D64 hlen h (pos * 2) (left_lt_CalcTreeWidth hp)
      obtain ⟨B₂, H₂, hb₂, -⟩ := TraverseAndBuild_spec SHA256D64 hlen h (pos * 2 + 1) hright
      rw [TraverseAndBuild_append, hb₁, Option.map_some, Option.bind_some, TraverseAndBuild_append, hb₂,
        Option.map_some] at hb
      simp only [List.nil_append, Option.some.injEq, Prod.mk.injEq] at hb
      obtain ⟨rfl, rfl⟩ := hb
      obtain ⟨hk, hbit, hB'⟩ := getElem?_of_cons_prefix_drop hB
      obtain ⟨hB₁, hB₂⟩ := prefix_drop_append hB'
      obtain ⟨hH₁, hH₂⟩ := prefix_drop_append hH
      obtain ⟨v₁, hv₁, he₁⟩ := TraverseAndExtract_of_build hlen hnd hinj h (pos * 2) B₁ H₁
        (left_lt_CalcTreeWidth hp) hb₁ tree { st with nBitsUsed := st.nBitsUsed + 1 } hn hB₁ hH₁
      obtain ⟨v₂, hv₂, he₂⟩ := TraverseAndExtract_of_build hlen hnd hinj h (pos * 2 + 1) B₂ H₂
        hright hb₂ tree { st with
          nBitsUsed := st.nBitsUsed + 1 + B₁.length, nHashUsed := st.nHashUsed + H₁.length,
          vMatch := st.vMatch ++ (matchesBelow vMatch vTxid.length h (pos * 2)).map (vTxid.getD · zero),
          vnIndex := st.vnIndex ++ matchesBelow vMatch vTxid.length h (pos * 2) } hn hB₂ hH₂
      have hne : v₂ ≠ v₁ := fun heq => by
        have := CalcHash_inj SHA256D64 hnd hinj h _ _ _ hv₁ (heq ▸ hv₂)
        omega
      refine ⟨SHA256D64 v₁ v₂, ?_, ?_⟩
      · rw [CalcHash, if_neg (by rw [lt_CalcTreeWidth_iff] at hp; omega), hv₁, Option.bind_some,
          if_pos hright, hv₂, Option.map_some]
      · rw [if_neg (by omega), hbit, Option.bind_some, if_pos rfl, he₁, Option.bind_some]
        dsimp only
        rw [hn, if_pos hright, he₂, Option.map_some]
        dsimp only
        rw [if_neg hne, matchesBelow_succ, if_pos hright]
        simp only [ExtractState.mk.injEq, Option.some.injEq, Prod.mk.injEq, List.length_append, List.map_append,
          List.append_assoc, List.length_singleton, true_and, and_true]
        omega
    · obtain ⟨B₁, H₁, hb₁, -⟩ := TraverseAndBuild_spec SHA256D64 hlen h (pos * 2) (left_lt_CalcTreeWidth hp)
      rw [TraverseAndBuild_append, hb₁, Option.map_some, Option.bind_some] at hb
      simp only [List.nil_append, Option.some.injEq, Prod.mk.injEq] at hb
      obtain ⟨rfl, rfl⟩ := hb
      obtain ⟨hk, hbit, hB₁⟩ := getElem?_of_cons_prefix_drop hB
      obtain ⟨v₁, hv₁, he₁⟩ := TraverseAndExtract_of_build hlen hnd hinj h (pos * 2) B₁ H₁
        (left_lt_CalcTreeWidth hp) hb₁ tree { st with nBitsUsed := st.nBitsUsed + 1 } hn hB₁ hH
      refine ⟨SHA256D64 v₁ v₁, ?_, ?_⟩
      · rw [CalcHash, if_neg (by rw [lt_CalcTreeWidth_iff] at hp; omega), hv₁, Option.bind_some,
          if_neg hright, Option.map_some]
      · rw [if_neg (by omega), hbit, Option.bind_some, if_pos rfl, he₁, Option.bind_some]
        dsimp only
        rw [hn, if_neg hright, matchesBelow_succ, if_neg hright]
        simp only [ExtractState.mk.injEq, Option.some.injEq, Prod.mk.injEq, List.length_append, List.append_nil,
          List.length_singleton, true_and, and_true]
        omega
    · -- nothing matched below: the node's hash is stored
      obtain ⟨v, hv, hBH⟩ := Option.map_eq_some_iff.mp hb
      simp only [List.nil_append, Prod.mk.injEq] at hBH
      obtain ⟨rfl, rfl⟩ := hBH
      obtain ⟨hk, hbit, -⟩ := getElem?_of_cons_prefix_drop hB
      obtain ⟨hk', hhash, -⟩ := getElem?_of_cons_prefix_drop hH
      refine ⟨v, hv, ?_⟩
      rw [if_neg (by omega), hbit, Option.bind_some, if_neg (by simp), useStoredHash,
        if_neg (by dsimp only; omega), hhash, Option.map_some, matchesBelow_eq_nil (Bool.eq_false_iff.mpr hf)]
      simp

/-- What the stored-hash branch adds to `vnIndex`: nothing, or the node's
position at height 0. -/
theorem useStoredHash_vnIndex (tree : CPartialMerkleTree β) (height pos : Nat) (fParentOfMatch : Bool)
    (st : ExtractState β) : ∃ v st', useStoredHash zero tree height pos fParentOfMatch st = some (v, st') ∧
      (st'.vnIndex = st.vnIndex ∨ height = 0 ∧ st'.vnIndex = st.vnIndex ++ [pos]) := by
  rw [useStoredHash]
  by_cases hk : tree.vHash.length ≤ st.nHashUsed
  · rw [if_pos hk]
    exact ⟨_, _, rfl, Or.inl rfl⟩
  rw [if_neg hk, List.getElem?_eq_getElem (by omega), Option.map_some]
  by_cases hleaf : height = 0 ∧ fParentOfMatch = true
  · rw [if_pos hleaf]
    exact ⟨_, _, rfl, Or.inr ⟨hleaf.1, rfl⟩⟩
  · rw [if_neg hleaf]
    exact ⟨_, _, rfl, Or.inl rfl⟩

/-- On any tree, extraction from an existing node reads only inside the
stored vectors and adds positions below the node, in increasing order. The
induction is on the height; the left subtree's positions all precede the
right subtree's. -/
theorem TraverseAndExtract_indices (tree : CPartialMerkleTree β) :
    ∀ h pos (st : ExtractState β), pos < CalcTreeWidth tree.nTransactions h →
      ∃ v st', TraverseAndExtract SHA256D64 zero tree h pos st = some (v, st') ∧
        ∃ new, st'.vnIndex = st.vnIndex ++ new ∧ new.Pairwise (· < ·) ∧
          ∀ i ∈ new, i ∈ leavesBelow tree.nTransactions h pos
  | 0, pos, st, hp => by
    rw [CalcTreeWidth_zero] at hp
    rw [TraverseAndExtract]
    by_cases hk : tree.vBits.length ≤ st.nBitsUsed
    · rw [if_pos hk]
      exact ⟨_, _, rfl, [], by simp, .nil, by simp⟩
    rw [if_neg hk, List.getElem?_eq_getElem (by omega), Option.bind_some]
    obtain ⟨v, st', hu, hst' | ⟨-, hst'⟩⟩ := useStoredHash_vnIndex zero tree 0 pos _ _
    · exact ⟨v, st', hu, [], by simpa using hst', .nil, by simp⟩
    · refine ⟨v, st', hu, [pos], hst', List.pairwise_singleton _ _, ?_⟩
      simp [leavesBelow_zero hp]
  | h + 1, pos, st, hp => by
    rw [TraverseAndExtract]
    by_cases hk : tree.vBits.length ≤ st.nBitsUsed
    · rw [if_pos hk]
      exact ⟨_, _, rfl, [], by simp, .nil, by simp⟩
    rw [if_neg hk, List.getElem?_eq_getElem (by omega), Option.bind_some]
    cases tree.vBits[st.nBitsUsed] with
    | false =>
      -- the stored hash of a node above the leaves adds no position
      obtain ⟨v, st', hu, hst' | ⟨hzero, -⟩⟩ := useStoredHash_vnIndex zero tree (h + 1) pos false _
      · rw [if_neg (by simp)]
        exact ⟨v, st', hu, [], by simpa using hst', .nil, by simp⟩
      · exact absurd hzero (Nat.succ_ne_zero h)
    | true =>
      obtain ⟨v₁, st₁, he₁, new₁, hn₁, hs₁, hm₁⟩ :=
        TraverseAndExtract_indices tree h (pos * 2) _ (left_lt_CalcTreeWidth hp)
      rw [if_pos rfl, he₁, Option.bind_some]
      dsimp only
      by_cases hright : pos * 2 + 1 < CalcTreeWidth tree.nTransactions h
      · obtain ⟨v₂, st₂, he₂, new₂, hn₂, hs₂, hm₂⟩ := TraverseAndExtract_indices tree h (pos * 2 + 1) st₁ hright
        rw [if_pos hright, he₂, Option.map_some]
        refine ⟨_, _, rfl, new₁ ++ new₂, ?_, ?_, ?_⟩
        · split_ifs <;> simp [hn₂, hn₁]
        · refine List.pairwise_append.mpr ⟨hs₁, hs₂, fun a ha b hb => ?_⟩
          have ha' := (mem_leavesBelow.mp (hm₁ a ha)).2.1
          have hb' := (mem_leavesBelow.mp (hm₂ b hb)).1
          omega
        · intro i hi
          rw [leavesBelow_succ, if_pos hright, List.mem_append]
          exact (List.mem_append.mp hi).imp (hm₁ i) (hm₂ i)
      · rw [if_neg hright]
        refine ⟨_, _, rfl, new₁, by simpa using hn₁, hs₁, fun i hi => ?_⟩
        rw [leavesBelow_succ, if_neg hright, List.append_nil]
        exact hm₁ i hi

/-- On any tree, `ExtractMatches` stops, reads only inside the stored vectors,
and appends matched positions below `nTransactions` in increasing order. -/
theorem ExtractMatches_indices (tree : CPartialMerkleTree β) (vnIndex : List Nat) :
    ∃ r, ExtractMatches SHA256D64 zero tree vnIndex = some r ∧
      ∃ new, r.vnIndex = vnIndex ++ new ∧ new.Pairwise (· < ·) ∧ ∀ i ∈ new, i < tree.nTransactions := by
  dsimp only [ExtractMatches]
  split_ifs with h0 hmax hhash hbits
  any_goals exact ⟨_, rfl, [], by simp, .nil, by simp⟩
  obtain ⟨H, hH, -, -⟩ := treeHeight_spec tree.nTransactions
  obtain ⟨v, st', he, new, hnew, hs, hm⟩ := TraverseAndExtract_indices SHA256D64 zero tree H 0
    ⟨0, 0, [], vnIndex, tree.fBad⟩ (lt_CalcTreeWidth_iff.mpr (by omega))
  rw [hH, Option.bind_some, he, Option.map_some]
  refine ⟨_, rfl, new, ?_, hs, fun i hi => (mem_leavesBelow.mp (hm i hi)).2.2⟩
  dsimp only
  split_ifs <;> exact hnew

/-- The whole walk of `ExtractMatches` over data that the constructor stored,
with the bits padded as their byte serialization pads them. -/
theorem ExtractMatches_of_build (hlen : vMatch.length = vTxid.length) (hnd : vTxid.Nodup)
    (hinj : ∀ a b c d, SHA256D64 a b = SHA256D64 c d → a = c ∧ b = d) (hne : vTxid ≠ [])
    (hmax : vTxid.length ≤ MAX_BLOCK_WEIGHT / MIN_TRANSACTION_WEIGHT) {nHeight : Nat} {B : List Bool} {H : List β}
    (hH : treeHeight vTxid.length = some nHeight)
    (hb : TraverseAndBuild SHA256D64 vTxid.length vTxid vMatch nHeight 0 ([], []) = some (B, H))
    (pad : Nat) (hpad : (B.length + pad + 7) / 8 = (B.length + 7) / 8) :
    ExtractMatches SHA256D64 zero ⟨vTxid.length, B ++ List.replicate pad false, H, false⟩ [] =
      some ⟨(ComputeMerkleRoot SHA256D64 zero vTxid).1,
        ((List.range vTxid.length).filter (vMatch.getD · false)).map (vTxid.getD · zero),
        (List.range vTxid.length).filter (vMatch.getD · false), false⟩ := by
  obtain ⟨nHeight', hH', hw, hlt⟩ := treeHeight_spec vTxid.length
  rw [hH] at hH'
  cases hH'
  have hn : 0 < vTxid.length := List.length_pos_iff.mpr hne
  have hroot : 0 < CalcTreeWidth vTxid.length nHeight := lt_CalcTreeWidth_iff.mpr (by omega)
  obtain ⟨B', H', hb', hHB, hHleaves, -⟩ := TraverseAndBuild_spec SHA256D64 hlen nHeight 0 hroot
  rw [hb] at hb'
  cases hb'
  rw [leavesBelow_root hw, List.length_range] at hHleaves
  obtain ⟨v, hv, he⟩ := TraverseAndExtract_of_build SHA256D64 zero hlen hnd hinj nHeight 0 B H hroot hb
    ⟨vTxid.length, B ++ List.replicate pad false, H, false⟩ ⟨0, 0, [], [], false⟩ rfl
    (List.prefix_append B _) (List.prefix_refl H)
  rw [CalcHash_root SHA256D64 zero hne hw hlt, Option.some.injEq] at hv
  subst hv
  dsimp only [ExtractMatches]
  rw [if_neg (by omega), if_neg (by omega), if_neg (by omega), if_neg (by simp; omega), hH, Option.bind_some, he,
    Option.map_some]
  dsimp only
  rw [if_neg Bool.false_ne_true, if_neg (by simp; omega), if_neg (by simp), matchesBelow, leavesBelow_root hw]
  simp

end ExtractSpec

/-! ## Serialization -/

section Bits

/-- Setting bit `k < 8` of a byte sets exactly that bit. -/
theorem testBit_or_shiftLeft (x : UInt8) (b : Bool) {k j : Nat} (hk : k < 8) (hj : j < 8) :
    (x ||| (b.toUInt8 <<< k.toUInt8)).toNat.testBit j = (x.toNat.testBit j || (b && j == k)) := by
  have hk' : k.toUInt8.toNat = k := by simp [Nat.toUInt8, UInt8.toNat_ofNat']; omega
  have hb : b.toUInt8.toNat = b.toNat := by cases b <;> rfl
  rw [UInt8.toNat_or, Nat.testBit_or, UInt8.toNat_shiftLeft, hk', hb, Nat.mod_eq_of_lt hk,
    Nat.testBit_mod_two_pow, Nat.testBit_shiftLeft]
  congr 1
  cases b
  · rw [Bool.toNat_false, Nat.zero_testBit]
    simp
  · rw [Bool.toNat_true, show 1 = 2 ^ 0 from rfl, Nat.testBit_two_pow, Bool.true_and, ← Bool.decide_and,
      ← Bool.decide_and, beq_eq_decide]
    exact decide_eq_decide.mpr (by omega)

/-- Masking with bit `k < 8` tests that bit. -/
theorem and_shiftLeft_ne_zero (x : UInt8) {k : Nat} (hk : k < 8) :
    ((x &&& (1 <<< k.toUInt8)) != 0) = x.toNat.testBit k := by
  have hk' : k.toUInt8.toNat = k := by simp [Nat.toUInt8, UInt8.toNat_ofNat']; omega
  have htoNat : (x &&& (1 <<< k.toUInt8)).toNat = (x.toNat.testBit k).toNat * 2 ^ k := by
    rw [UInt8.toNat_and, UInt8.toNat_shiftLeft, hk', Nat.mod_eq_of_lt hk, UInt8.toNat_one, Nat.one_shiftLeft,
      Nat.mod_eq_of_lt (Nat.pow_lt_pow_right (by omega) hk), Nat.and_two_pow]
  cases h : x.toNat.testBit k <;> simp [← UInt8.toNat_inj, htoNat, h]

end Bits

/-- One step of the writing loop of `SerializationOp`:
`vBytes[p / 8] |= vBits[p] << (p % 8)`. -/
def orBit (vBytes : List UInt8) (bp : Bool × Nat) : List UInt8 :=
  vBytes.modify (bp.2 / 8) (· ||| (bp.1.toUInt8 <<< (bp.2 % 8).toUInt8))

/-- The bits packed into bytes, bit `p` at bit `p % 8` of byte `p / 8`. -/
def packBits (vBits : List Bool) : List UInt8 :=
  vBits.zipIdx.foldl orBit (List.replicate ((vBits.length + 7) / 8) 0)

/-- The reading loop: every bit of every byte. -/
def unpackBits (vBytes : List UInt8) : List Bool :=
  (List.range (vBytes.length * 8)).map fun p => (vBytes.getD (p / 8) 0 &&& (1 <<< (p % 8).toUInt8)) != 0

section Serialize

variable {β : Type} (ser : β → List UInt8) (des : Reader β)

/-- `SerializationOp` writing: `nTransactions`, `vHash`, then the packed bits. -/
def CPartialMerkleTree.Serialize (tree : CPartialMerkleTree β) : List UInt8 :=
  writeLE 4 tree.nTransactions ++ WriteCompactSize tree.vHash.length ++ tree.vHash.flatMap ser ++
    WriteCompactSize (packBits tree.vBits).length ++ packBits tree.vBits

/-- `SerializationOp` reading, which also clears `fBad`. -/
def CPartialMerkleTree.Unserialize : Reader (CPartialMerkleTree β) := do
  let nTransactions ← readLE 4
  let nHash ← ReadCompactSize
  let vHash ← readN des nHash
  let nBytes ← ReadCompactSize
  let vBytes ← readBytes nBytes
  pure ⟨nTransactions, unpackBits vBytes, vHash, false⟩

end Serialize

theorem length_foldl_orBit : ∀ (L : List (Bool × Nat)) (init : List UInt8), (L.foldl orBit init).length = init.length
  | [], _ => rfl
  | bp :: L, init => by
    rw [List.foldl_cons, length_foldl_orBit L, orBit, List.length_modify]

theorem length_packBits (bits : List Bool) : (packBits bits).length = (bits.length + 7) / 8 := by
  rw [packBits, length_foldl_orBit, List.length_replicate]

/-- The writing loop sets the bits it is given and keeps the others. -/
theorem testBit_foldl_orBit : ∀ (L : List (Bool × Nat)) (init : List UInt8) {i j : Nat}, i < init.length → j < 8 →
    ((L.foldl orBit init).getD i 0).toNat.testBit j =
      ((init.getD i 0).toNat.testBit j || L.any fun bp => bp.1 && bp.2 == 8 * i + j)
  | [], _, _, _, _, _ => by simp
  | (b, p) :: L, init, i, j, hi, hj => by
    rw [List.foldl_cons, testBit_foldl_orBit L _ (by rwa [orBit, List.length_modify]) hj, List.any_cons,
      ← Bool.or_assoc]
    congr 1
    rw [orBit, List.getD_eq_getElem?_getD, List.getElem?_modify, List.getElem?_eq_getElem hi,
      List.getD_eq_getElem?_getD, List.getElem?_eq_getElem hi]
    simp only [Option.map_eq_map, Option.map_some, Option.getD_some]
    by_cases hp : p / 8 = i
    · rw [if_pos hp,
        testBit_or_shiftLeft _ _ (Nat.mod_lt _ (by omega)) hj]
      congr 1
      rw [beq_eq_decide, beq_eq_decide]
      congr 2
      exact propext (by omega)
    · rw [if_neg hp]
      have : p ≠ 8 * i + j := by omega
      simp [this]

theorem any_zipIdx_eq : ∀ (bits : List Bool) (s k : Nat),
    (bits.zipIdx s).any (fun bp => bp.1 && bp.2 == k) = (decide (s ≤ k) && bits.getD (k - s) false)
  | [], _, _ => by simp
  | b :: bits, s, k => by
    rw [List.zipIdx_cons, List.any_cons, any_zipIdx_eq bits (s + 1) k]
    rcases Nat.lt_trichotomy k s with hk | rfl | hk
    · simp [show ¬ s ≤ k by omega, show ¬ s + 1 ≤ k by omega, show s ≠ k by omega]
    · simp
    · rw [show k - s = k - (s + 1) + 1 by omega]
      simp [show s ≤ k by omega, show s + 1 ≤ k by omega, show s ≠ k by omega]

/-- The reader gets back the written bits, then the padding of the last byte. -/
theorem unpackBits_packBits (bits : List Bool) :
    unpackBits (packBits bits) = bits ++ List.replicate ((bits.length + 7) / 8 * 8 - bits.length) false := by
  apply List.ext_getElem?
  intro p
  by_cases hp : p < (bits.length + 7) / 8 * 8
  · have hbit : ((packBits bits).getD (p / 8) 0 &&& 1 <<< (p % 8).toUInt8 != 0) = bits.getD p false := by
      rw [and_shiftLeft_ne_zero _ (Nat.mod_lt _ (by omega)), packBits,
        testBit_foldl_orBit _ _ (by rw [List.length_replicate]; omega) (Nat.mod_lt _ (by omega)),
        any_zipIdx_eq, Nat.div_add_mod]
      simp
    rw [unpackBits, length_packBits, List.getElem?_map, List.getElem?_range hp, Option.map_some, hbit]
    by_cases hlt : p < bits.length
    · rw [List.getElem?_append_left hlt, List.getD_eq_getElem?_getD, List.getElem?_eq_getElem hlt]
      rfl
    · rw [List.getElem?_append_right (by omega), List.getElem?_replicate, if_pos (by omega),
        List.getD_eq_default _ _ (by omega)]
  · rw [List.getElem?_eq_none (by simp [unpackBits, length_packBits]; omega),
      List.getElem?_eq_none (by simp; omega)]

/-- A tree of at most `MAX_SIZE` hashes and bit bytes reads back as written,
with its bits padded to whole bytes and `fBad` cleared. -/
theorem Unserialize_Serialize {β : Type} {ser : β → List UInt8} {des : Reader β}
    (hcodec : ∀ b, Decodes des (ser b) b) {tree : CPartialMerkleTree β} (hn : tree.nTransactions < 2 ^ 32)
    (hh : tree.vHash.length ≤ MAX_SIZE) (hb : (tree.vBits.length + 7) / 8 ≤ MAX_SIZE) :
    Decodes (CPartialMerkleTree.Unserialize des) (tree.Serialize ser)
      ⟨tree.nTransactions, unpackBits (packBits tree.vBits), tree.vHash, false⟩ := by
  have hn' : tree.nTransactions < 256 ^ 4 := by simpa using hn
  have hbytes : tree.Serialize ser = writeLE 4 tree.nTransactions ++ (WriteCompactSize tree.vHash.length ++
      (tree.vHash.flatMap ser ++ (WriteCompactSize (packBits tree.vBits).length ++ (packBits tree.vBits ++ [])))) := by
    simp [CPartialMerkleTree.Serialize]
  rw [hbytes]
  refine (readLE_decodes 4 _ hn').bind ?_
  refine (ReadCompactSize_WriteCompactSize hh).bind ?_
  refine (readN_decodes_flatMap tree.vHash fun b _ => hcodec b).bind ?_
  refine (ReadCompactSize_WriteCompactSize (by rwa [length_packBits])).bind ?_
  exact (readBytes_decodes _).bind (Decodes.pure _)

section RoundTrip

variable {β : Type} [DecidableEq β] (SHA256D64 : β → β → β) (zero : β) (ser : β → List UInt8) (des : Reader β)

theorem partial_merkle_tree_round_trip (hinj : ∀ a b c d, SHA256D64 a b = SHA256D64 c d → a = c ∧ b = d)
    (hcodec : ∀ b, Decodes des (ser b) b) :
    (∀ (vTxid : List β) (vMatch : List Bool), vTxid ≠ [] →
      vTxid.length ≤ MAX_BLOCK_WEIGHT / MIN_TRANSACTION_WEIGHT → vTxid.Nodup → vMatch.length = vTxid.length →
      ∃ tree tree', CPartialMerkleTree.create SHA256D64 vTxid vMatch = some tree ∧
        (CPartialMerkleTree.Unserialize des).run (tree.Serialize ser) = .ok (tree', []) ∧
        ExtractMatches SHA256D64 zero tree' [] = some ⟨(ComputeMerkleRoot SHA256D64 zero vTxid).1,
          ((List.range vTxid.length).filter (vMatch.getD · false)).map (vTxid.getD · zero),
          (List.range vTxid.length).filter (vMatch.getD · false), false⟩) ∧
    ∀ (tree : CPartialMerkleTree β) (vnIndex : List Nat), ∃ r, ExtractMatches SHA256D64 zero tree vnIndex = some r ∧
      ∃ new, r.vnIndex = vnIndex ++ new ∧ new.Pairwise (· < ·) ∧ ∀ i ∈ new, i < tree.nTransactions := by
  refine ⟨fun vTxid vMatch hne hmax hnd hlen => ?_, ExtractMatches_indices SHA256D64 zero⟩
  obtain ⟨nHeight, hH, hw, hlt⟩ := treeHeight_spec vTxid.length
  have hn : 0 < vTxid.length := List.length_pos_iff.mpr hne
  obtain ⟨B, H, hb, hHB, hHleaves, hBpow⟩ :=
    TraverseAndBuild_spec SHA256D64 hlen nHeight 0 (lt_CalcTreeWidth_iff.mpr (by omega))
  rw [leavesBelow_root hw, List.length_range] at hHleaves
  have hmax' : vTxid.length ≤ 16666 := hmax
  -- the height is below 16, so the bits fit a few thousand bytes
  have hbytes : (B.length + 7) / 8 ≤ MAX_SIZE := by
    have hsmall : 2 ^ (nHeight + 1) ≤ 2 ^ 16 := by
      rcases nHeight with _ | h
      · decide
      · have h1 := lt_CalcTreeWidth_iff.mp (hlt h (Nat.lt_succ_self h))
        have h2 : 2 ^ h < 2 ^ 15 := by omega
        have h3 := (Nat.pow_lt_pow_iff_right (by omega)).mp h2
        exact Nat.pow_le_pow_right (by omega) (by omega)
    simp only [MAX_SIZE]
    omega
  refine ⟨⟨vTxid.length, B, H, false⟩, ⟨vTxid.length, unpackBits (packBits B), H, false⟩, ?_, ?_, ?_⟩
  · rw [CPartialMerkleTree.create, hH, Option.bind_some, hb, Option.map_some]
  · have hdec : Decodes (CPartialMerkleTree.Unserialize des) (CPartialMerkleTree.Serialize ser ⟨vTxid.length, B, H, false⟩)
        ⟨vTxid.length, unpackBits (packBits B), H, false⟩ :=
      Unserialize_Serialize hcodec (show vTxid.length < 2 ^ 32 by omega)
        (show H.length ≤ MAX_SIZE by simp only [MAX_SIZE]; omega) hbytes
    have hrun := hdec []
    rwa [List.append_nil] at hrun
  · rw [unpackBits_packBits]
    exact ExtractMatches_of_build SHA256D64 zero hlen hnd hinj hne hmax hH hb _ (by omega)

end RoundTrip

/-- A byte encoding of `FreeHash UInt8`, for the witness below: a tag byte,
then a leaf's byte or a node's two halves. -/
def FreeHash.ser : FreeHash UInt8 → List UInt8
  | .leaf a => [0, a]
  | .node l r => 1 :: (FreeHash.ser l ++ FreeHash.ser r)

/-- Its reader, descending at most `fuel` levels. -/
def FreeHash.readFuel : Nat → Reader (FreeHash UInt8)
  | 0 => throw "too deep"
  | fuel + 1 => do
    let tag ← readByte
    if tag = 0 then FreeHash.leaf <$> readByte
    else do
      let l ← FreeHash.readFuel fuel
      let r ← FreeHash.readFuel fuel
      pure (FreeHash.node l r)

/-- Every value has fewer levels than bytes, so the stream's length is fuel enough. -/
def FreeHash.des : Reader (FreeHash UInt8) := fun s => FreeHash.readFuel s.length s

theorem FreeHash.readFuel_decodes : ∀ (b : FreeHash UInt8) (fuel : Nat), (FreeHash.ser b).length ≤ fuel →
    Decodes (FreeHash.readFuel fuel) (FreeHash.ser b) b
  | .leaf a, fuel + 1, _ => by
    refine ((readByte_decodes 0).bind ?_).congr rfl
    rw [if_pos rfl]
    exact ((readByte_decodes a).map FreeHash.leaf)
  | .node l r, fuel + 1, hf => by
    simp only [FreeHash.ser, List.length_cons, List.length_append] at hf
    refine ((readByte_decodes 1).bind ?_).congr rfl
    rw [if_neg (by decide)]
    refine (FreeHash.readFuel_decodes l fuel (by omega)).bind ?_
    exact (FreeHash.readFuel_decodes r fuel (by omega)).bind_pure (FreeHash.node l)
  | .leaf _, 0, hf => absurd hf (by simp [FreeHash.ser])
  | .node _ _, 0, hf => absurd hf (by simp [FreeHash.ser])

theorem FreeHash.des_decodes (b : FreeHash UInt8) : Decodes FreeHash.des (FreeHash.ser b) b := fun rest =>
  FreeHash.readFuel_decodes b _ (by simp) rest

theorem partial_merkle_tree_round_trip_two_leaves :
    (∀ a b c d : FreeHash UInt8, FreeHash.node a b = FreeHash.node c d → a = c ∧ b = d) ∧
    (∀ b, Decodes FreeHash.des (FreeHash.ser b) b) ∧
    ∃ tree tree', CPartialMerkleTree.create FreeHash.node [.leaf 1, .leaf 2] [true, false] = some tree ∧
      (CPartialMerkleTree.Unserialize FreeHash.des).run (tree.Serialize FreeHash.ser) = .ok (tree', []) ∧
      ExtractMatches FreeHash.node (.leaf 0) tree' [] = some
        ⟨(ComputeMerkleRoot FreeHash.node (.leaf 0) [.leaf 1, .leaf 2]).1, [.leaf 1], [0], false⟩ :=
  ⟨FreeHash.node_inj, FreeHash.des_decodes,
    (partial_merkle_tree_round_trip FreeHash.node (.leaf 0) FreeHash.ser FreeHash.des FreeHash.node_inj
      FreeHash.des_decodes).1 [.leaf 1, .leaf 2] [true, false] (by decide) (by decide) (by decide) rfl⟩

end Palladium.Consensus
