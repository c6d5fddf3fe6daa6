import Mathlib.Logic.Function.Iterate
import Mathlib.Data.List.Nodup

/-!
# Merkle roots and the duplication malleation

`ComputeMerkleRoot` (`consensus/merkle.cpp`) hashes a level's nodes in
pairs, duplicating the last node of an odd level, until one node is left. Two
transaction lists can then share a root (CVE-2012-2459); the defence is the
`mutated` flag, raised when a level has two equal nodes at an even position
and the next one. The 64-byte double SHA-256 is the parameter `SHA256D64`;
the results assume it injective, and its outputs distinct from the leaves.

The main result is that the flag is complete for this malleation: two
different non-empty leaf lists with one root cannot both be reported
unmutated; and pairwise distinct leaves are never reported mutated.
-/

namespace Palladium.Consensus

set_option autoImplicit false

section Model

variable {β : Type} (SHA256D64 : β → β → β)

/-- The mutation check of one level: equal nodes at positions `pos` and
`pos + 1` for an even `pos`. -/
def hasEqualPair [DecidableEq β] : List β → Bool
  | a :: b :: rest => a == b || hasEqualPair rest
  | _ => false

/-- `if (hashes.size() & 1) hashes.push_back(hashes.back())`. -/
def padOdd (hashes : List β) : List β :=
  if hashes.length % 2 = 1 then hashes ++ hashes.getLast?.toList else hashes

/-- `SHA256D64` over consecutive pairs, then `resize(hashes.size() / 2)`. -/
def hashPairs : List β → List β
  | a :: b :: rest => SHA256D64 a b :: hashPairs rest
  | _ => []

/-- The `while (hashes.size() > 1)` loop, for at most `fuel` iterations; the
flag accumulates `mutation`. -/
def merkleLoop [DecidableEq β] : Nat → List β → Bool → List β × Bool
  | 0, hashes, mutation => (hashes, mutation)
  | fuel + 1, hashes, mutation =>
    if hashes.length > 1 then
      merkleLoop fuel (hashPairs SHA256D64 (padOdd hashes)) (mutation || hasEqualPair hashes)
    else (hashes, mutation)

/-- `ComputeMerkleRoot(hashes, &mutated)`: the root, `uint256()` (here
`zero`) for no leaves, and the flag. Each iteration shortens the list, so its
length bounds the iterations. -/
def ComputeMerkleRoot [DecidableEq β] (zero : β) (hashes : List β) : β × Bool :=
  let (hashes, mutation) := merkleLoop SHA256D64 hashes.length hashes false
  (hashes.headD zero, mutation)

/-- `BlockMerkleRoot`: the root over the transactions' hashes. -/
def BlockMerkleRoot [DecidableEq β] {τ : Type} (zero : β) (GetHash : τ → β) (vtx : List τ) : β × Bool :=
  ComputeMerkleRoot SHA256D64 zero (vtx.map GetHash)

/-! ## One level -/

/-- A level after padding and pairing: each pair hashed, the last node of an
odd level hashed with itself. -/
def hashLevel : List β → List β
  | a :: b :: rest => SHA256D64 a b :: hashLevel rest
  | [a] => [SHA256D64 a a]
  | [] => []

theorem padOdd_cons_cons (a b : β) (rest : List β) :
    padOdd (a :: b :: rest) = a :: b :: padOdd rest := by
  unfold padOdd
  by_cases h : rest.length % 2 = 1
  · -- an odd `rest` is not empty, and its last node is the list's last node
    obtain ⟨c, rest', rfl⟩ := List.exists_cons_of_ne_nil (by rintro rfl; simp at h : rest ≠ [])
    simp only [List.length_cons] at h ⊢
    rw [if_pos (by omega), if_pos h, List.getLast?_cons_cons, List.getLast?_cons_cons]
    rfl
  · simp only [List.length_cons]
    rw [if_neg (by omega), if_neg h]

theorem hashPairs_padOdd : ∀ l : List β, hashPairs SHA256D64 (padOdd l) = hashLevel SHA256D64 l
  | [] => by simp [padOdd, hashPairs, hashLevel]
  | [a] => by simp [padOdd, hashPairs, hashLevel]
  | a :: b :: rest => by
    rw [padOdd_cons_cons, hashPairs, hashLevel, hashPairs_padOdd rest]

theorem length_hashLevel : ∀ l : List β, (hashLevel SHA256D64 l).length = (l.length + 1) / 2
  | [] => by simp [hashLevel]
  | [_] => by simp [hashLevel]
  | _ :: _ :: rest => by
    simp only [hashLevel, List.length_cons, length_hashLevel rest]
    omega

theorem hashLevel_eq_nil_iff {l : List β} : hashLevel SHA256D64 l = [] ↔ l = [] := by
  rw [← List.length_eq_zero_iff, length_hashLevel, ← List.length_eq_zero_iff]
  omega

/-- Every node of the next level is an output of `SHA256D64` on nodes of
this one. -/
theorem mem_hashLevel {x : β} : ∀ {l : List β}, x ∈ hashLevel SHA256D64 l →
    ∃ a b, a ∈ l ∧ b ∈ l ∧ x = SHA256D64 a b
  | [], h => by simp [hashLevel] at h
  | [a], h => by
    simp only [hashLevel, List.mem_singleton] at h
    exact ⟨a, a, by simp, by simp, h⟩
  | a :: b :: rest, h => by
    simp only [hashLevel, List.mem_cons] at h
    rcases h with h | h
    · exact ⟨a, b, by simp, by simp, h⟩
    · obtain ⟨c, d, hc, hd, rfl⟩ := mem_hashLevel h
      exact ⟨c, d, by simp [hc], by simp [hd], rfl⟩

/-! ## The whole loop -/

/-- The flag the loop raises over its first `k` levels. -/
def mutatedBelow [DecidableEq β] : Nat → List β → Bool
  | 0, _ => false
  | k + 1, l => hasEqualPair l || mutatedBelow k (hashLevel SHA256D64 l)

theorem mutatedBelow_eq_false_iff [DecidableEq β] : ∀ (k : Nat) (l : List β),
    mutatedBelow SHA256D64 k l = false ↔ ∀ j < k, hasEqualPair ((hashLevel SHA256D64)^[j] l) = false
  | 0, l => by simp [mutatedBelow]
  | k + 1, l => by
    rw [mutatedBelow, Bool.or_eq_false_iff, mutatedBelow_eq_false_iff k]
    constructor
    · rintro ⟨h0, hs⟩ j hj
      cases j with
      | zero => exact h0
      | succ j => rw [Function.iterate_succ_apply]; exact hs j (by omega)
    · intro h
      exact ⟨h 0 (by omega), fun j hj => by
        have := h (j + 1) (by omega)
        rwa [Function.iterate_succ_apply] at this⟩

/-- The loop hashes level after level until at most one node is left, and
reports whether any of those levels had an equal pair. The induction is on
the fuel, which each level's shorter length keeps ahead of. -/
theorem merkleLoop_run [DecidableEq β] : ∀ (fuel : Nat) (l : List β) (m : Bool), l.length ≤ fuel + 1 →
    ∃ k, merkleLoop SHA256D64 fuel l m =
        ((hashLevel SHA256D64)^[k] l, m || mutatedBelow SHA256D64 k l) ∧
      ((hashLevel SHA256D64)^[k] l).length ≤ 1
  | 0, l, m, hl => ⟨0, by simp [merkleLoop, mutatedBelow], hl⟩
  | fuel + 1, l, m, hl => by
    by_cases h1 : l.length > 1
    · have hlen := length_hashLevel SHA256D64 l
      obtain ⟨k, hrun, hk⟩ := merkleLoop_run fuel (hashLevel SHA256D64 l) (m || hasEqualPair l)
        (by omega)
      refine ⟨k + 1, ?_, by rwa [Function.iterate_succ_apply]⟩
      rw [merkleLoop, if_pos h1, hashPairs_padOdd, hrun, Function.iterate_succ_apply, mutatedBelow,
        Bool.or_assoc]
    · exact ⟨0, by simp [merkleLoop, h1, mutatedBelow], by simp; omega⟩

/-- `ComputeMerkleRoot` on a non-empty list: the single node of the level
where the loop stops, and the flag over the levels below it. -/
theorem ComputeMerkleRoot_run [DecidableEq β] (zero : β) {l : List β} (hl : l ≠ []) :
    ∃ k r, (hashLevel SHA256D64)^[k] l = [r] ∧
      ComputeMerkleRoot SHA256D64 zero l = (r, mutatedBelow SHA256D64 k l) := by
  obtain ⟨k, hrun, hk⟩ := merkleLoop_run SHA256D64 l.length l false (by omega)
  -- hashing keeps a level non-empty, so exactly one node is left
  have hne : ∀ j, (hashLevel SHA256D64)^[j] l ≠ [] := by
    intro j
    induction j with
    | zero => exact hl
    | succ j ih =>
      rw [Function.iterate_succ_apply', Ne, hashLevel_eq_nil_iff]
      exact ih
  obtain ⟨r, hr⟩ : ∃ r, (hashLevel SHA256D64)^[k] l = [r] := by
    match h : (hashLevel SHA256D64)^[k] l, hne k, hk with
    | [r], _, _ => exact ⟨r, rfl⟩
    | _ :: _ :: _, _, hk => simp at hk
  refine ⟨k, r, hr, ?_⟩
  simp only [ComputeMerkleRoot, hrun, hr, List.headD_cons, Bool.false_or]

/-- The loop stops at the first level of at most one node, when the fuel
reaches it. -/
theorem merkleLoop_fst_of_least [DecidableEq β] : ∀ (H fuel : Nat) (l : List β) (m : Bool), H ≤ fuel →
    (∀ j < H, 1 < ((hashLevel SHA256D64)^[j] l).length) → ((hashLevel SHA256D64)^[H] l).length ≤ 1 →
    (merkleLoop SHA256D64 fuel l m).1 = (hashLevel SHA256D64)^[H] l
  | 0, 0, _, _, _, _, _ => rfl
  | 0, fuel + 1, l, m, _, _, hH => by
    rw [merkleLoop, if_neg (by simpa using hH)]
    rfl
  | H + 1, 0, _, _, hf, _, _ => absurd hf (by omega)
  | H + 1, fuel + 1, l, m, hf, hlt, hH => by
    have h1 : l.length > 1 := hlt 0 (Nat.succ_pos H)
    rw [merkleLoop, if_pos h1, hashPairs_padOdd, Function.iterate_succ_apply]
    apply merkleLoop_fst_of_least H fuel _ _ (by omega)
    · intro j hj
      simpa only [Function.iterate_succ_apply] using hlt (j + 1) (by omega)
    · simpa only [Function.iterate_succ_apply] using hH

/-- Levels longer than one node shrink by at least one node each. -/
theorem length_iterate_add_le {l : List β} {H : Nat}
    (hlt : ∀ j < H, 1 < ((hashLevel SHA256D64)^[j] l).length) :
    ∀ j ≤ H, ((hashLevel SHA256D64)^[j] l).length + j ≤ l.length
  | 0, _ => by simp
  | j + 1, hj => by
    have ih := length_iterate_add_le hlt j (by omega)
    have h1 := hlt j (by omega)
    rw [Function.iterate_succ_apply', length_hashLevel]
    omega

/-- The root is the single node of the first level that has one. -/
theorem ComputeMerkleRoot_fst_of_least [DecidableEq β] (zero : β) {l : List β} {H : Nat} {r : β}
    (hr : (hashLevel SHA256D64)^[H] l = [r]) (hlt : ∀ j < H, 1 < ((hashLevel SHA256D64)^[j] l).length) :
    (ComputeMerkleRoot SHA256D64 zero l).1 = r := by
  have hH : H ≤ l.length := by
    have := length_iterate_add_le SHA256D64 hlt H (Nat.le_refl H)
    rw [hr] at this
    simp only [List.length_singleton] at this
    omega
  have hloop := merkleLoop_fst_of_least SHA256D64 H l.length l false hH hlt (by simp [hr])
  rcases hp : merkleLoop SHA256D64 l.length l false with ⟨hashes, mutation⟩
  rw [hp, hr] at hloop
  simp only [ComputeMerkleRoot, hp, hloop, List.headD_cons]

end Model

/-! ## Completeness of the mutation check -/

section Injective

variable {β : Type} [DecidableEq β] {SHA256D64 : β → β → β}
variable (hinj : ∀ a b c d, SHA256D64 a b = SHA256D64 c d → a = c ∧ b = d)
include hinj

/-- Without an equal pair, a level is determined by the next one: pairs are
recovered by injectivity, and a duplicated last node cannot stand for a pair
of two different nodes. -/
theorem hashLevel_inj : ∀ {l l' : List β}, hasEqualPair l = false → hasEqualPair l' = false →
    hashLevel SHA256D64 l = hashLevel SHA256D64 l' → l = l'
  | [], [], _, _, _ => rfl
  | [a], [a'], _, _, h => by
    simp only [hashLevel, List.cons.injEq, and_true] at h
    rw [(hinj _ _ _ _ h).1]
  | a :: b :: rest, a' :: b' :: rest', hl, hl', h => by
    simp only [hasEqualPair, Bool.or_eq_false_iff, beq_eq_false_iff_ne] at hl hl'
    simp only [hashLevel, List.cons.injEq] at h
    obtain ⟨rfl, rfl⟩ := hinj _ _ _ _ h.1
    rw [hashLevel_inj hl.2 hl'.2 h.2]
  | [a], a' :: b' :: rest', _, hl', h => by
    -- the duplicated node would be the pair `a', b'`, which differ
    simp only [hasEqualPair, Bool.or_eq_false_iff, beq_eq_false_iff_ne] at hl'
    simp only [hashLevel, List.cons.injEq] at h
    obtain ⟨rfl, rfl⟩ := hinj _ _ _ _ h.1
    exact absurd rfl hl'.1
  | a :: b :: rest, [a'], hl, _, h => by
    simp only [hasEqualPair, Bool.or_eq_false_iff, beq_eq_false_iff_ne] at hl
    simp only [hashLevel, List.cons.injEq] at h
    obtain ⟨rfl, rfl⟩ := hinj _ _ _ _ h.1
    exact absurd rfl hl.1
  | [], _ :: _, _, _, h => absurd ((hashLevel_eq_nil_iff SHA256D64).mp h.symm) (List.cons_ne_nil _ _)
  | _ :: _, [], _, _, h => absurd ((hashLevel_eq_nil_iff SHA256D64).mp h) (List.cons_ne_nil _ _)

/-- Levels without equal pairs are determined by the level `k` above them. -/
theorem iterate_hashLevel_inj : ∀ (k : Nat) {l l' : List β},
    (∀ j < k, hasEqualPair ((hashLevel SHA256D64)^[j] l) = false) →
    (∀ j < k, hasEqualPair ((hashLevel SHA256D64)^[j] l') = false) →
    (hashLevel SHA256D64)^[k] l = (hashLevel SHA256D64)^[k] l' → l = l'
  | 0, _, _, _, _, h => h
  | k + 1, l, l', hl, hl', h => by
    rw [Function.iterate_succ_apply, Function.iterate_succ_apply] at h
    have hnext := iterate_hashLevel_inj k
      (fun j hj => by simpa only [Function.iterate_succ_apply] using hl (j + 1) (by omega))
      (fun j hj => by simpa only [Function.iterate_succ_apply] using hl' (j + 1) (by omega)) h
    exact hashLevel_inj hinj (hl 0 (by omega)) (hl' 0 (by omega)) hnext

/-- Two unmutated runs with one root, the first stopping no later than the
second: the first leaf list is the second's level `k' - k`. -/
theorem leaves_eq_level {l l' : List β} {k k' : Nat} {r : β} (hk : k ≤ k')
    (hr : (hashLevel SHA256D64)^[k] l = [r]) (hr' : (hashLevel SHA256D64)^[k'] l' = [r])
    (hl : mutatedBelow SHA256D64 k l = false) (hl' : mutatedBelow SHA256D64 k' l' = false) :
    l = (hashLevel SHA256D64)^[k' - k] l' := by
  rw [mutatedBelow_eq_false_iff] at hl hl'
  apply iterate_hashLevel_inj hinj k hl
  · intro j hj
    rw [← Function.iterate_add_apply]
    exact hl' _ (by omega)
  · rw [hr, ← Function.iterate_add_apply, show k + (k' - k) = k' by omega, hr']

/-- If the leaves are no outputs of `SHA256D64`, two unmutated runs with one
root, the first stopping no later, start from the same leaves. -/
theorem leaves_eq_of_root_eq {l l' : List β}
    (hleaf : ∀ a b, SHA256D64 a b ∉ l) (hne : l ≠ []) {k k' : Nat} {r : β} (hk : k ≤ k')
    (hr : (hashLevel SHA256D64)^[k] l = [r]) (hr' : (hashLevel SHA256D64)^[k'] l' = [r])
    (hl : mutatedBelow SHA256D64 k l = false) (hl' : mutatedBelow SHA256D64 k' l' = false) :
    l = l' := by
  have heq := leaves_eq_level hinj hk hr hr' hl hl'
  rcases Nat.eq_zero_or_pos (k' - k) with h0 | hpos
  · rwa [h0, Function.iterate_zero_apply] at heq
  · -- otherwise every leaf would be an output of the hash
    obtain ⟨x, hx⟩ := List.exists_mem_of_ne_nil l hne
    have hx' : x ∈ hashLevel SHA256D64 ((hashLevel SHA256D64)^[k' - k - 1] l') := by
      rw [← Function.iterate_succ_apply' (hashLevel SHA256D64), show (k' - k - 1).succ = k' - k by omega,
        ← heq]
      exact hx
    obtain ⟨a, b, -, -, rfl⟩ := mem_hashLevel SHA256D64 hx'
    exact (hleaf a b hx).elim

/-- CVE-2012-2459: for an injective `SHA256D64` whose outputs are no leaves,
two different non-empty leaf lists with the same Merkle root are not both
reported unmutated. -/
theorem ComputeMerkleRoot_mutation_complete (zero : β) {L L' : List β}
    (hleaf : ∀ a b, SHA256D64 a b ∉ L) (hleaf' : ∀ a b, SHA256D64 a b ∉ L')
    (hL : L ≠ []) (hL' : L' ≠ []) (hdiff : L ≠ L')
    (hroot : (ComputeMerkleRoot SHA256D64 zero L).1 = (ComputeMerkleRoot SHA256D64 zero L').1) :
    (ComputeMerkleRoot SHA256D64 zero L).2 = true ∨ (ComputeMerkleRoot SHA256D64 zero L').2 = true := by
  obtain ⟨k, r, hr, hrun⟩ := ComputeMerkleRoot_run SHA256D64 zero hL
  obtain ⟨k', r', hr', hrun'⟩ := ComputeMerkleRoot_run SHA256D64 zero hL'
  rw [hrun, hrun'] at hroot ⊢
  simp only at hroot ⊢
  subst hroot
  by_contra hboth
  simp only [not_or, Bool.not_eq_true] at hboth
  rcases Nat.le_total k k' with hk | hk
  · exact hdiff (leaves_eq_of_root_eq hinj hleaf hL hk hr hr' hboth.1 hboth.2)
  · exact hdiff (leaves_eq_of_root_eq hinj hleaf' hL' hk hr' hr hboth.2 hboth.1).symm

omit [DecidableEq β] in
/-- Distinct nodes stay distinct one level up: a repeated output would repeat
its first input. -/
theorem hashLevel_nodup : ∀ {l : List β}, l.Nodup → (hashLevel SHA256D64 l).Nodup
  | [], _ => by simp [hashLevel]
  | [_], _ => by simp [hashLevel]
  | a :: b :: rest, hl => by
    rw [List.nodup_cons, List.mem_cons, not_or] at hl
    obtain ⟨⟨-, ha⟩, hl⟩ := hl
    rw [hashLevel, List.nodup_cons]
    refine ⟨fun hmem => ?_, hashLevel_nodup (List.nodup_cons.mp hl).2⟩
    obtain ⟨c, d, hc, -, he⟩ := mem_hashLevel SHA256D64 hmem
    exact ha ((hinj _ _ _ _ he).1 ▸ hc)

omit hinj in
theorem hasEqualPair_eq_false_of_nodup : ∀ {l : List β}, l.Nodup → hasEqualPair l = false
  | [], _ => rfl
  | [_], _ => rfl
  | a :: b :: rest, hl => by
    rw [List.nodup_cons, List.mem_cons, not_or] at hl
    rw [hasEqualPair, Bool.or_eq_false_iff, beq_eq_false_iff_ne]
    exact ⟨hl.1.1, hasEqualPair_eq_false_of_nodup (List.nodup_cons.mp hl.2).2⟩

/-- The duplication defence of `ComputeMerkleRoot` for an injective
`SHA256D64`: two different non-empty leaf lists with one root, whose leaves
are no outputs of the hash, are not both reported unmutated; and pairwise
distinct leaves are never reported mutated. -/
theorem ComputeMerkleRoot_mutated_complete (zero : β) :
    (∀ L L' : List β, (∀ a b, SHA256D64 a b ∉ L) → (∀ a b, SHA256D64 a b ∉ L') → L ≠ [] → L' ≠ [] →
      L ≠ L' → (ComputeMerkleRoot SHA256D64 zero L).1 = (ComputeMerkleRoot SHA256D64 zero L').1 →
      (ComputeMerkleRoot SHA256D64 zero L).2 = true ∨ (ComputeMerkleRoot SHA256D64 zero L').2 = true) ∧
    ∀ L : List β, L.Nodup → (ComputeMerkleRoot SHA256D64 zero L).2 = false := by
  refine ⟨fun L L' hleaf hleaf' hL hL' hdiff hroot =>
    ComputeMerkleRoot_mutation_complete hinj zero hleaf hleaf' hL hL' hdiff hroot, fun L hnd => ?_⟩
  by_cases hL : L = []
  · subst hL
    rfl
  · obtain ⟨k, r, -, hrun⟩ := ComputeMerkleRoot_run SHA256D64 zero hL
    -- every level keeps its nodes distinct, so none has an equal pair
    have hall : ∀ j, ((hashLevel SHA256D64)^[j] L).Nodup := by
      intro j
      induction j with
      | zero => exact hnd
      | succ j ih => rw [Function.iterate_succ_apply']; exact hashLevel_nodup hinj ih
    rw [hrun, mutatedBelow_eq_false_iff]
    exact fun j _ => hasEqualPair_eq_false_of_nodup (hall j)

end Injective

/-- The double SHA-256 of 64 bytes as a free pair constructor over leaves of
type `α`: injective, and no output is a leaf. -/
inductive FreeHash (α : Type) where
  | leaf (a : α)
  | node (l r : FreeHash α)
  deriving DecidableEq

theorem FreeHash.node_inj {α : Type} (a b c d : FreeHash α) (h : FreeHash.node a b = FreeHash.node c d) :
    a = c ∧ b = d := FreeHash.node.inj h

/-- The malleation of the source's comment, on leaves `1, 2, 3` and
`1, 2, 3, 3`: one root, and only the second list is reported mutated. -/
example :
    (ComputeMerkleRoot FreeHash.node (FreeHash.leaf 0) [.leaf 1, .leaf 2, .leaf 3]).1 =
      (ComputeMerkleRoot FreeHash.node (FreeHash.leaf 0) [.leaf 1, .leaf 2, .leaf 3, .leaf 3]).1 ∧
    (ComputeMerkleRoot FreeHash.node (FreeHash.leaf 0) [.leaf (1 : Nat), .leaf 2, .leaf 3]).2 = false ∧
    (ComputeMerkleRoot FreeHash.node (FreeHash.leaf 0) [.leaf (1 : Nat), .leaf 2, .leaf 3, .leaf 3]).2 = true := by
  decide

theorem ComputeMerkleRoot_mutated_complete_free :
    (∀ a b c d : FreeHash Nat, FreeHash.node a b = FreeHash.node c d → a = c ∧ b = d) ∧
    (∀ L L' : List (FreeHash Nat), (∀ a b, FreeHash.node a b ∉ L) → (∀ a b, FreeHash.node a b ∉ L') →
      L ≠ [] → L' ≠ [] → L ≠ L' →
      (ComputeMerkleRoot FreeHash.node (FreeHash.leaf 0) L).1 =
        (ComputeMerkleRoot FreeHash.node (FreeHash.leaf 0) L').1 →
      (ComputeMerkleRoot FreeHash.node (FreeHash.leaf 0) L).2 = true ∨
        (ComputeMerkleRoot FreeHash.node (FreeHash.leaf 0) L').2 = true) ∧
    ∀ L : List (FreeHash Nat), L.Nodup → (ComputeMerkleRoot FreeHash.node (FreeHash.leaf 0) L).2 = false :=
  ⟨FreeHash.node_inj, ComputeMerkleRoot_mutated_complete FreeHash.node_inj (FreeHash.leaf 0)⟩

end Palladium.Consensus
