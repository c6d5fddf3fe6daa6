import Palladium.Validation.Connect
import Palladium.Consensus.Consensus
import Mathlib.Data.List.GetD

/-!
# Disconnecting a block

`DisconnectBlock` (`validation.cpp`) reads the block's undo data and goes
through its transactions from the last: each spendable output is spent and
must be as the block made it, then `ApplyTxInUndo` puts back the coins the
inputs spent, from the last input. Any difference makes the result
`DISCONNECT_UNCLEAN`; undo data that does not fit the block, `FAILED`.

On a map, disconnecting undoes connecting: the outputs were added where no
coin was, and each input's coin was there when it was spent (`spendAll`),
so putting the old values back in the reverse order restores the map. The
main theorem carries that to the code, through the undo file's bytes.
-/

namespace Palladium.Coins

/-- A coin that the undo data puts back exactly: one the node stores, above
height 0, so that its record carries its metadata, and spendable, so that
`AddCoin` does not skip it. -/
structure Coin.Restorable (c : Coin) : Prop where
  storable : c.Storable
  height_pos : 0 < c.nHeight
  spendable : IsUnspendable c.out.scriptPubKey = false

theorem Coin.Restorable.unspent {c : Coin} (h : c.Restorable) : c.IsSpent = false := by
  have := h.storable.nonneg
  simp only [Coin.IsSpent, CTxOut.IsNull, beq_eq_false_iff_ne]
  omega

end Palladium.Coins

namespace Palladium.Validation

open Palladium.Coins Palladium.Serialize Palladium.Consensus ByteStream Updates

set_option autoImplicit false

/-! ## The code -/

inductive DisconnectResult where
  | DISCONNECT_OK
  | DISCONNECT_UNCLEAN
  | DISCONNECT_FAILED
  deriving DecidableEq, Repr

/-- `MIN_TRANSACTION_OUTPUT_WEIGHT`: a null `CTxOut` serializes to nine
bytes, its amount and an empty script's length. -/
def MIN_TRANSACTION_OUTPUT_WEIGHT : Nat := WITNESS_SCALE_FACTOR * 9

def MAX_OUTPUTS_PER_BLOCK : Nat := MAX_BLOCK_WEIGHT / MIN_TRANSACTION_OUTPUT_WEIGHT

/-- The loop of `AccessByTxid` from output `n`, `fuel` outputs before
`MAX_OUTPUTS_PER_BLOCK`. -/
def accessByTxidFrom (txid : BitVec 256) : Nat → Nat → CoinsStack → Except String (Coin × CoinsStack)
  | 0, _, view => .ok (coinEmpty, view)
  | fuel + 1, n, view => do
    let (alternate, view) ← view.AccessCoin ⟨txid, UInt32.ofNat n⟩
    if !alternate.IsSpent then pure (alternate, view) else accessByTxidFrom txid fuel (n + 1) view

/-- `AccessByTxid`: an unspent output of the transaction, if one is found. -/
def AccessByTxid (view : CoinsStack) (txid : BitVec 256) : Except String (Coin × CoinsStack) :=
  accessByTxidFrom txid MAX_OUTPUTS_PER_BLOCK 0 view

/-- The undo coin with its metadata: older undo records leave height and
coinbase flag out for all but the last spend of a transaction's outputs,
so they are taken from an unspent output of the same transaction, and
there must be one. -/
def undoMetadata (undo : Coin) (view : CoinsStack) (out : COutPoint) : Except String (Option Coin × CoinsStack) :=
  if undo.nHeight = 0 then do
    let (alternate, view) ← AccessByTxid view out.hash
    pure (if !alternate.IsSpent then some { undo with nHeight := alternate.nHeight, fCoinBase := alternate.fCoinBase }
      else none, view)
  else pure (some undo, view)

/-- `ApplyTxInUndo`. -/
def ApplyTxInUndo (undo : Coin) (view : CoinsStack) (out : COutPoint) : Except String (DisconnectResult × CoinsStack) := do
  -- a coin already there is overwritten, and the disconnect is unclean
  let (haveCoin, view) ← view.HaveCoin out
  let fClean := !haveCoin
  let (undo, view) ← undoMetadata undo view out
  match undo with
  | none => pure (.DISCONNECT_FAILED, view)
  | some undo => do
    let view ← view.AddCoin out undo !fClean
    pure (if fClean then .DISCONNECT_OK else .DISCONNECT_UNCLEAN, view)

/-- One output of a transaction `DisconnectBlock` undoes: a spendable output
is spent, and must have been there as the block made it. -/
def spendOutput (hash : BitVec 256) (is_coinbase : Bool) (nHeight : Nat) (acc : CoinsStack × Bool)
    (e : CTxOut × Nat) : Except String (CoinsStack × Bool) :=
  if !IsUnspendable e.1.scriptPubKey then do
    let (moved, view) ← acc.1.SpendCoin ⟨hash, UInt32.ofNat e.2⟩
    let is_spent := moved.isSome
    -- `coin` stays `Coin()` when nothing was spent
    let coin := moved.getD coinEmpty
    let mismatch := !is_spent || e.1 != coin.out || nHeight != coin.nHeight || is_coinbase != coin.fCoinBase
    pure (view, acc.2 && !mismatch)
  else pure acc

/-- `ApplyTxInUndo` on inputs with their undo coins, in the order given;
`none` is `DISCONNECT_FAILED`, which ends the loop. -/
def restoreInputs : List (CTxIn × Coin) → CoinsStack → Bool → Except String (CoinsStack × Option Bool)
  | [], view, fClean => .ok (view, some fClean)
  | (txin, undo) :: rest, view, fClean => do
    let (res, view) ← ApplyTxInUndo undo view txin.prevout
    if res = .DISCONNECT_FAILED then pure (view, none)
    else restoreInputs rest view (fClean && res != .DISCONNECT_UNCLEAN)

/-- The inputs of transaction `i`, from the last: none for the coinbase,
and undo data of another length than the inputs is
"transaction and undo data inconsistent". -/
def restoreTx (vtxundo : List CTxUndo) (tx : CTransaction) (i : Nat) (view : CoinsStack) (fClean : Bool) :
    Except String (CoinsStack × Option Bool) :=
  if i > 0 then
    if (vtxundo.getD (i - 1) ⟨[]⟩).vprevout.length ≠ tx.vin.length then .ok (view, none)
    else restoreInputs (tx.vin.zip (vtxundo.getD (i - 1) ⟨[]⟩).vprevout).reverse view fClean
  else .ok (view, some fClean)

/-- The loop of `DisconnectBlock` over the transactions with their indexes,
the last first. -/
def disconnectTxs (vtxundo : List CTxUndo) (nHeight : Nat) :
    List (CTransaction × Nat) → CoinsStack → Bool → Except String (CoinsStack × Option Bool)
  | [], view, fClean => .ok (view, some fClean)
  | (tx, i) :: rest, view, fClean => do
    let (view, fClean) ← tx.vout.zipIdx.foldlM (spendOutput tx.GetHash tx.IsCoinBase nHeight) (view, fClean)
    let (view, r) ← restoreTx vtxundo tx i view fClean
    match r with
    | none => pure (view, none)
    | some fClean => disconnectTxs vtxundo nHeight rest view fClean

/-- `UndoReadFromDisk`, from the bytes of the block's undo data; the
checksum that follows them is not modelled. -/
def UndoReadFromDisk (k : Secp256k1) (bytes : List UInt8) : Option CBlockUndo :=
  match (CBlockUndo.Unserialize k).run bytes with
  | .ok (blockundo, _) => some blockundo
  | .error _ => none

/-- `CChainState::DisconnectBlock` at the block's height `nHeight`, without
the move of the best block. -/
def DisconnectBlock (k : Secp256k1) (block : CBlock) (undoBytes : List UInt8) (nHeight : Nat) (view : CoinsStack) :
    Except String (DisconnectResult × CoinsStack) :=
  match UndoReadFromDisk k undoBytes with
  | none => .ok (.DISCONNECT_FAILED, view)
  | some blockUndo =>
    if blockUndo.vtxundo.length + 1 ≠ block.vtx.length then .ok (.DISCONNECT_FAILED, view)
    else do
      let (view, r) ← disconnectTxs blockUndo.vtxundo nHeight block.vtx.zipIdx.reverse view true
      pure (match r with
        | none => .DISCONNECT_FAILED
        | some fClean => if fClean then .DISCONNECT_OK else .DISCONNECT_UNCLEAN, view)

/-! ## Undoing on a map -/

/-- The entry that puts an input's coin back. -/
def restoreEntry (p : CTxIn × Coin) : COutPoint × Option Coin := (p.1.prevout, some p.2)

/-- Each input's outpoint holds no coin when its coin is put back, in turn. -/
def FreshSeq : CoinsMap → List (CTxIn × Coin) → Prop
  | _, [] => True
  | M, p :: rest => M p.1.prevout = none ∧ FreshSeq (Function.update M p.1.prevout (some p.2)) rest

theorem FreshSeq_append : ∀ {M : CoinsMap} (A B : List (CTxIn × Coin)),
    FreshSeq M (A ++ B) ↔ FreshSeq M A ∧ FreshSeq (setAll M (A.map restoreEntry)) B
  | _, [], _ => by simp [FreshSeq]
  | M, p :: A, B => by
    rw [List.cons_append, FreshSeq, FreshSeq, FreshSeq_append A B, List.map_cons, setAll_cons]
    exact ⟨fun ⟨h₁, h₂, h₃⟩ => ⟨⟨h₁, h₂⟩, h₃⟩, fun ⟨⟨h₁, h₂⟩, h₃⟩ => ⟨h₁, h₂, h₃⟩⟩

/-- Spent coins put back from the last input restore the map, each into an
outpoint that holds no coin: the undo log of `spendAll`. -/
theorem spendAll_restore : ∀ (vin : List CTxIn) {m m' : CoinsMap} {us : List Coin},
    spendAll m (vin.map CTxIn.prevout) = some (m', us) →
    us.length = vin.length ∧ FreshSeq m' (vin.zip us).reverse ∧
      setAll m' ((vin.zip us).reverse.map restoreEntry) = m
  | [], m, m', us, h => by
    cases h
    exact ⟨rfl, trivial, rfl⟩
  | txin :: vin, m, m', us, h => by
    obtain ⟨u, r', hu, hr', hr⟩ := spendAll_cons_eq_some h
    cases hr
    obtain ⟨hlen, hfresh, hset⟩ := spendAll_restore vin hr'
    -- the first input's coin goes back last, into the map it was spent from
    have hlast : ((txin :: vin).zip (u :: r'.2)).reverse = (vin.zip r'.2).reverse ++ [(txin, u)] := by
      simp
    refine ⟨by simp [hlen], ?_, ?_⟩
    · rw [hlast, FreshSeq_append, hset]
      exact ⟨hfresh, Function.update_self _ _ _, trivial⟩
    · rw [hlast, List.map_append, setAll_append, hset]
      simp only [List.map_cons, List.map_nil, setAll_cons, setAll_nil, restoreEntry]
      rw [Function.update_idem, ← hu, Function.update_eq_self]

theorem spendAll_coins {P : Coin → Prop} : ∀ (os : List COutPoint) {m m' : CoinsMap} {us : List Coin},
    (∀ o c, m o = some c → P c) → spendAll m os = some (m', us) → (∀ u ∈ us, P u) ∧ ∀ o c, m' o = some c → P c
  | [], m, m', us, hm, h => by
    cases h
    exact ⟨by simp, hm⟩
  | o :: os, m, m', us, hm, h => by
    obtain ⟨u, r', hu, hr', hr⟩ := spendAll_cons_eq_some h
    cases hr
    have hm' : ∀ o' c, Function.update m o none o' = some c → P c := by
      intro o' c hc
      rw [Function.update_apply] at hc
      split at hc
      · cases hc
      · exact hm o' c hc
    obtain ⟨hus, hrest⟩ := spendAll_coins os hm' hr'
    exact ⟨by simpa [hm o u hu] using hus, hrest⟩

theorem addAll_coins {P : Coin → Prop} : ∀ (l : List (COutPoint × Coin)) {m : CoinsMap},
    (∀ o c, m o = some c → P c) → (∀ p ∈ l, P p.2) → ∀ o c, addAll m l o = some c → P c
  | [], _, hm, _ => hm
  | p :: l, m, hm, hl => by
    have hm' : ∀ o c, Function.update m p.1 (some p.2) o = some c → P c := by
      intro o c hc
      rw [Function.update_apply] at hc
      split at hc
      · cases hc
        exact hl p List.mem_cons_self
      · exact hm o c hc
    exact addAll_coins l hm' fun q hq => hl q (List.mem_cons_of_mem p hq)

/-- A key that a batch of distinct added coins names holds its coin. -/
theorem addAll_apply_of_mem {m : CoinsMap} {l : List (COutPoint × Coin)} (hnd : (l.map Prod.fst).Nodup)
    {p : COutPoint × Coin} (hp : p ∈ l) : addAll m l p.1 = some p.2 := by
  have hkeys : (l.map fun q => (q.1, some q.2)).map Prod.fst = l.map Prod.fst := by
    simp [Function.comp_def]
  exact setAll_apply_of_mem (hkeys ▸ hnd) (List.mem_map.mpr ⟨p, hp, rfl⟩)

/-- Removing coins added at outpoints that held none restores the map. -/
theorem addAll_remove {m : CoinsMap} {l : List (COutPoint × Coin)} (hnd : (l.map Prod.fst).Nodup)
    (hfresh : ∀ p ∈ l, m p.1 = none) : setAll (addAll m l) (l.map fun p => (p.1, none)) = m := by
  have hkeys : (l.map fun q => (q.1, some q.2)).map Prod.fst = l.map Prod.fst := by
    simp [Function.comp_def]
  have hold : (l.map fun p => ((p.1, none) : COutPoint × Option Coin)) =
      (l.map fun q => (q.1, some q.2)).map fun q => (q.1, m q.1) := by
    simp only [List.map_map]
    exact List.map_congr_left fun p hp => by simp [hfresh p hp]
  rw [addAll, hold]
  exact setAll_restore (hkeys ▸ hnd)

/-- The coins a transaction adds are restorable when the amounts are in
range and the height in `(0, 2^31)`. -/
theorem txOutputs_restorable {tx : CTransaction} {nHeight : Nat} (hh : 0 < nHeight) (hh' : nHeight < 2 ^ 31)
    (hval : ∀ out ∈ tx.vout, 0 ≤ out.nValue ∧ out.nValue ≤ MAX_MONEY) :
    ∀ p ∈ txOutputs tx nHeight, p.2.Restorable := by
  intro p hp
  obtain ⟨e, he, rfl⟩ := List.mem_map.mp hp
  obtain ⟨he, hsp⟩ := List.mem_filter.mp he
  have hsp : IsUnspendable e.1.scriptPubKey = false := by simpa using hsp
  have hv := hval e.1 (List.fst_mem_of_mem_zipIdx he)
  have hscript : e.1.scriptPubKey.length ≤ MAX_SCRIPT_SIZE := by
    simp only [IsUnspendable, Bool.or_eq_false_iff, decide_eq_false_iff_not] at hsp
    omega
  exact ⟨⟨hh', hv.1, hv.2, hscript⟩, hh, hsp⟩

/-- `applyTx` keeps every coin restorable and spends only restorable coins. -/
theorem applyTx_coins {nHeight : Nat} (hh : 0 < nHeight) (hh' : nHeight < 2 ^ 31) {m M : CoinsMap}
    {tx : CTransaction} {us : List Coin} (hval : ∀ out ∈ tx.vout, 0 ≤ out.nValue ∧ out.nValue ≤ MAX_MONEY)
    (hm : ∀ o c, m o = some c → c.Restorable) (h : applyTx nHeight m tx = some (M, us)) :
    (∀ u ∈ us, u.Restorable) ∧ ∀ o c, M o = some c → c.Restorable := by
  obtain ⟨m', hspend, -, -, rfl⟩ := applyTx_eq_some h
  obtain ⟨hus, hm'⟩ : (∀ u ∈ us, u.Restorable) ∧ ∀ o c, m' o = some c → c.Restorable := by
    unfold spentBy at hspend
    split at hspend
    · cases hspend
      exact ⟨by simp, hm⟩
    · exact spendAll_coins _ hm hspend
  exact ⟨hus, addAll_coins _ hm' (txOutputs_restorable hh hh' hval)⟩

theorem connectAll_append_singleton {nHeight : Nat} {m M : CoinsMap} {pre : List CTransaction}
    {tx : CTransaction} {uss : List (List Coin)} (h : connectAll nHeight m (pre ++ [tx]) = some (M, uss)) :
    ∃ M' uss' us, connectAll nHeight m pre = some (M', uss') ∧ applyTx nHeight M' tx = some (M, us) ∧
      uss = uss' ++ [us] := by
  induction pre generalizing m uss with
  | nil =>
    obtain ⟨m', us, r', happ, hrest, hr⟩ := connectAll_cons_eq_some h
    cases hrest
    cases hr
    exact ⟨m, [], us, rfl, happ, rfl⟩
  | cons tx' pre ih =>
    obtain ⟨m', us', r', happ, hrest, hr⟩ := connectAll_cons_eq_some h
    cases hr
    obtain ⟨M', uss', us, hpre, hlast, huss⟩ := ih hrest
    refine ⟨M', us' :: uss', us, ?_, hlast, by rw [huss]; rfl⟩
    simp [connectAll, happ, hpre]

theorem connectAll_length {nHeight : Nat} : ∀ {m M : CoinsMap} {txs : List CTransaction}
    {uss : List (List Coin)}, connectAll nHeight m txs = some (M, uss) → uss.length = txs.length
  | _, _, [], _, h => by cases h; rfl
  | _, _, _ :: _, _, h => by
    obtain ⟨m', us, r', -, hrest, hr⟩ := connectAll_cons_eq_some h
    cases hr
    simp [connectAll_length hrest]

/-- Connecting keeps every coin restorable, and what it records for undo is
restorable coins, as many for each transaction as it has inputs at most. -/
theorem connectAll_coins {nHeight : Nat} (hh : 0 < nHeight) (hh' : nHeight < 2 ^ 31) :
    ∀ {m M : CoinsMap} {txs : List CTransaction} {uss : List (List Coin)},
    (∀ tx ∈ txs, ∀ out ∈ tx.vout, 0 ≤ out.nValue ∧ out.nValue ≤ MAX_MONEY) →
    (∀ o c, m o = some c → c.Restorable) → connectAll nHeight m txs = some (M, uss) →
    (∀ o c, M o = some c → c.Restorable) ∧
      ∀ us ∈ uss, (∀ u ∈ us, u.Restorable) ∧ ∃ tx ∈ txs, us.length ≤ tx.vin.length
  | _, _, [], _, _, hm, h => by
    cases h
    exact ⟨hm, by simp⟩
  | m, M, tx :: txs, uss, hval, hm, h => by
    obtain ⟨m', us, r', happ, hrest, hr⟩ := connectAll_cons_eq_some h
    cases hr
    obtain ⟨hus, hm'⟩ := applyTx_coins hh hh' (hval tx List.mem_cons_self) hm happ
    obtain ⟨hM, huss⟩ := connectAll_coins hh hh' (fun t ht => hval t (List.mem_cons_of_mem tx ht)) hm' hrest
    refine ⟨hM, ?_⟩
    intro us' hus'
    rcases List.mem_cons.mp hus' with rfl | hus'
    · -- the first transaction's record: none for a coinbase, one coin an input otherwise
      refine ⟨hus, tx, List.mem_cons_self, ?_⟩
      obtain ⟨m₁, hspend, -⟩ := applyTx_eq_some happ
      unfold spentBy at hspend
      split at hspend
      · cases hspend
        exact Nat.zero_le _
      · rw [(spendAll_restore tx.vin hspend).1]
    · obtain ⟨h₁, t, ht, h₂⟩ := huss us' hus'
      exact ⟨h₁, t, List.mem_cons_of_mem tx ht, h₂⟩

/-! ## The code undoes as the map does -/

variable {s : CoinsStack} {M : CoinsMap}

/-- `ApplyTxInUndo` of a restorable coin into an outpoint that holds none
puts it back cleanly. -/
theorem ApplyTxInUndo_spec {undo : Coin} {out : COutPoint} (h : s.Represents M) (hfresh : M out = none)
    (hu : undo.Restorable) :
    ∃ s', ApplyTxInUndo undo s out = .ok (.DISCONNECT_OK, s') ∧ s'.Represents (Function.update M out (some undo)) := by
  obtain ⟨s₁, hhave, hs₁, -⟩ := CoinsStack.HaveCoin_spec h out
  rw [hfresh] at hhave
  -- the record has its height, so no other output is asked for it
  have hmeta : undoMetadata undo s₁ out = .ok (some undo, s₁) := by
    rw [undoMetadata, if_neg (Nat.pos_iff_ne_zero.mp hu.height_pos)]
    rfl
  obtain ⟨s₂, hadd, hs₂, -⟩ := CoinsStack.AddCoin_spec hs₁ (o := out) hu.unspent
    (Or.inr hfresh : (!!false) = true ∨ _)
  rw [hu.spendable, if_neg Bool.false_ne_true] at hs₂
  refine ⟨s₂, ?_, hs₂⟩
  rw [ApplyTxInUndo, hhave]
  show (do let (undo, view) ← undoMetadata undo s₁ out; _) = _
  rw [hmeta]
  show (do let view ← s₁.AddCoin out undo (!!false); _) = _
  rw [hadd]
  rfl

/-- The inputs' coins go back cleanly, in turn. -/
theorem restoreInputs_spec : ∀ (l : List (CTxIn × Coin)) {s : CoinsStack} {M : CoinsMap} (fClean : Bool),
    s.Represents M → (∀ p ∈ l, p.2.Restorable) → FreshSeq M l →
    ∃ s', restoreInputs l s fClean = .ok (s', some fClean) ∧ s'.Represents (setAll M (l.map restoreEntry))
  | [], s, _, _, h, _, _ => ⟨s, rfl, h⟩
  | (txin, undo) :: l, s, M, fClean, h, hl, ⟨hfresh, hrest⟩ => by
    obtain ⟨s₁, happly, hs₁⟩ := ApplyTxInUndo_spec h hfresh (hl _ List.mem_cons_self)
    obtain ⟨s', hloop, hs'⟩ := restoreInputs_spec l fClean hs₁ (fun p hp => hl p (List.mem_cons_of_mem _ hp)) hrest
    refine ⟨s', ?_, hs'⟩
    rw [restoreInputs, happly]
    show (if DisconnectResult.DISCONNECT_OK = .DISCONNECT_FAILED then pure (s₁, none)
      else restoreInputs l s₁ (fClean && DisconnectResult.DISCONNECT_OK != .DISCONNECT_UNCLEAN)) = _
    have hclean : (DisconnectResult.DISCONNECT_OK != .DISCONNECT_UNCLEAN) = true := by decide
    rw [if_neg (by decide), hclean, Bool.and_true]
    exact hloop

/-- The outputs' loop spends the coins the transaction added, each where it
was added, and the disconnect stays as clean as it was. -/
theorem spendOutputs_spec (tx : CTransaction) (nHeight : Nat) : ∀ (l : List (CTxOut × Nat)) {s : CoinsStack}
    {M : CoinsMap} (fClean : Bool), s.Represents M → (∀ p ∈ outputsOf tx nHeight l, M p.1 = some p.2) →
    ((outputsOf tx nHeight l).map Prod.fst).Nodup →
    ∃ s', l.foldlM (spendOutput tx.GetHash tx.IsCoinBase nHeight) (s, fClean) = .ok (s', fClean) ∧
      s'.Represents (setAll M ((outputsOf tx nHeight l).map fun p => (p.1, none)))
  | [], s, _, _, h, _, _ => ⟨s, rfl, h⟩
  | e :: l, s, M, fClean, h, hhas, hnd => by
    rw [List.foldlM_cons]
    by_cases hsp : IsUnspendable e.1.scriptPubKey = true
    · -- an unspendable output was never added
      have hskip : outputsOf tx nHeight (e :: l) = outputsOf tx nHeight l := by
        simp [outputsOf, hsp]
      rw [hskip] at hhas hnd ⊢
      have hstep : spendOutput tx.GetHash tx.IsCoinBase nHeight (s, fClean) e = .ok (s, fClean) := by
        rw [spendOutput, if_neg (by simp [hsp])]
        rfl
      rw [hstep]
      exact spendOutputs_spec tx nHeight l fClean h hhas hnd
    · have hcons : outputsOf tx nHeight (e :: l) = outputCoin tx nHeight e :: outputsOf tx nHeight l := by
        simp [outputsOf, hsp]
      rw [hcons] at hhas hnd ⊢
      rw [List.map_cons, List.nodup_cons] at hnd
      have hkey := hhas _ List.mem_cons_self
      obtain ⟨r, s₁, hspend, hs₁, -, hr⟩ := CoinsStack.SpendCoin_spec h (outputCoin tx nHeight e).1
      -- the output is there as the block made it
      have hstep : spendOutput tx.GetHash tx.IsCoinBase nHeight (s, fClean) e = .ok (s₁, fClean) := by
        rw [spendOutput, if_pos (by simpa using hsp)]
        show (do let (moved, view) ← s.SpendCoin (outputCoin tx nHeight e).1; _) = _
        rw [hspend, hr _ hkey]
        simp [outputCoin]
      have hhas' : ∀ p ∈ outputsOf tx nHeight l, Function.update M (outputCoin tx nHeight e).1 none p.1 = some p.2 := by
        intro p hp
        rw [Function.update_of_ne (fun heq => hnd.1 (by rw [← heq]; exact List.mem_map_of_mem hp))]
        exact hhas p (List.mem_cons_of_mem _ hp)
      obtain ⟨s', hloop, hs'⟩ := spendOutputs_spec tx nHeight l fClean hs₁ hhas' hnd.2
      refine ⟨s', ?_, hs'⟩
      rw [hstep]
      exact hloop

/-- The first transaction is a coinbase and no other is, as `CheckBlock`
requires of a block. -/
def CoinBaseOnlyFirst (txs : List CTransaction) : Prop := ∀ p ∈ txs.zipIdx, p.1.IsCoinBase = decide (p.2 = 0)

instance (txs : List CTransaction) : Decidable (CoinBaseOnlyFirst txs) :=
  inferInstanceAs (Decidable (∀ p ∈ txs.zipIdx, p.1.IsCoinBase = decide (p.2 = 0)))

/-- Transaction `i` gets its inputs' coins back: none for the coinbase at
index 0, the coins of its undo record for the others. -/
theorem restoreTx_spec {vtxundo : List CTxUndo} {tx : CTransaction} {i : Nat} {M' m₁ : CoinsMap} {us : List Coin}
    (fClean : Bool) (h : s.Represents m₁) (hspent : spentBy M' tx = some (m₁, us))
    (hcb : tx.IsCoinBase = decide (i = 0)) (hundo : 0 < i → vtxundo.getD (i - 1) ⟨[]⟩ = ⟨us⟩)
    (hM' : ∀ o c, M' o = some c → c.Restorable) :
    ∃ s', restoreTx vtxundo tx i s fClean = .ok (s', some fClean) ∧ s'.Represents M' := by
  unfold spentBy at hspent
  rcases Nat.eq_zero_or_pos i with rfl | hi
  · rw [hcb, if_pos (by decide)] at hspent
    cases hspent
    exact ⟨s, by rw [restoreTx, if_neg (Nat.lt_irrefl 0)], h⟩
  · rw [hcb, decide_eq_false (Nat.pos_iff_ne_zero.mp hi), if_neg Bool.false_ne_true] at hspent
    obtain ⟨hlen, hfresh, hset⟩ := spendAll_restore tx.vin hspent
    obtain ⟨hus, -⟩ := spendAll_coins _ hM' hspent
    have hcoins : ∀ p ∈ (tx.vin.zip us).reverse, p.2.Restorable := fun p hp =>
      hus p.2 (List.of_mem_zip (show (p.1, p.2) ∈ tx.vin.zip us from List.mem_reverse.mp hp)).2
    obtain ⟨s', hloop, hs'⟩ := restoreInputs_spec _ fClean h hcoins hfresh
    rw [hset] at hs'
    refine ⟨s', ?_, hs'⟩
    rw [restoreTx, if_pos hi, hundo hi, if_neg (by simp [hlen])]
    exact hloop

/-- The loop of `DisconnectBlock` over a block's first transactions, the
last first, undoes what connecting them did; the induction takes off the
last transaction, whose outputs go and whose inputs come back. -/
theorem disconnectTxs_spec (vtxundo : List CTxUndo) {nHeight : Nat} (hh : 0 < nHeight) (hh' : nHeight < 2 ^ 31)
    {m : CoinsMap} (hm : ∀ o c, m o = some c → c.Restorable) :
    ∀ (pre : List CTransaction) {M : CoinsMap} {uss : List (List Coin)} {s : CoinsStack} (fClean : Bool),
      (∀ tx ∈ pre, ∀ out ∈ tx.vout, 0 ≤ out.nValue ∧ out.nValue ≤ MAX_MONEY) → CoinBaseOnlyFirst pre →
      connectAll nHeight m pre = some (M, uss) →
      (∀ i, 0 < i → i < pre.length → vtxundo.getD (i - 1) ⟨[]⟩ = ⟨uss.getD i []⟩) → s.Represents M →
      ∃ s', disconnectTxs vtxundo nHeight pre.zipIdx.reverse s fClean = .ok (s', some fClean) ∧ s'.Represents m := by
  intro pre
  induction pre using List.reverseRecOn with
  | nil =>
    intro M uss s fClean _ _ hc _ h
    cases hc
    exact ⟨s, rfl, h⟩
  | append_singleton pre tx ih =>
    intro M uss s fClean hval hcb hc hundo h
    obtain ⟨M', uss', us, hpre, happ, rfl⟩ := connectAll_append_singleton hc
    have hlen := connectAll_length hpre
    have hval' : ∀ t ∈ pre, ∀ out ∈ t.vout, 0 ≤ out.nValue ∧ out.nValue ≤ MAX_MONEY :=
      fun t ht => hval t (List.mem_append_left _ ht)
    have hcb' : CoinBaseOnlyFirst pre := fun p hp => hcb p (by rw [List.zipIdx_append]; exact List.mem_append_left _ hp)
    have hcbtx : tx.IsCoinBase = decide (pre.length = 0) := hcb (tx, pre.length) (by simp [List.zipIdx_append])
    obtain ⟨hM', -⟩ := connectAll_coins hh hh' hval' hm hpre
    obtain ⟨m₁, hspent, hfresh, hnd, rfl⟩ := applyTx_eq_some happ
    -- the outputs go, back to the map the inputs were spent into
    obtain ⟨s₁, hout, hs₁⟩ := spendOutputs_spec tx nHeight tx.vout.zipIdx fClean h
      (fun p hp => addAll_apply_of_mem hnd hp) hnd
    rw [show outputsOf tx nHeight tx.vout.zipIdx = txOutputs tx nHeight from rfl, addAll_remove hnd hfresh] at hs₁
    -- the inputs come back, from the record at this transaction's index
    have hundo_tx : 0 < pre.length → vtxundo.getD (pre.length - 1) ⟨[]⟩ = ⟨us⟩ := fun hi => by
      rw [hundo _ hi (by simp), List.getD_append_right _ _ _ _ (by omega), hlen, Nat.sub_self]
      rfl
    obtain ⟨s₂, hres, hs₂⟩ := restoreTx_spec fClean hs₁ hspent hcbtx hundo_tx hM'
    have hundo' : ∀ i, 0 < i → i < pre.length → vtxundo.getD (i - 1) ⟨[]⟩ = ⟨uss'.getD i []⟩ := by
      intro i hi hi'
      rw [hundo i hi (by simp; omega), List.getD_append _ _ _ _ (by omega)]
    obtain ⟨s', hrest, hs'⟩ := ih fClean hval' hcb' hpre hundo' hs₂
    refine ⟨s', ?_, hs'⟩
    have hzip : (pre ++ [tx]).zipIdx.reverse = (tx, pre.length) :: pre.zipIdx.reverse := by
      simp [List.zipIdx_append]
    rw [hzip, disconnectTxs, hout]
    show (do let (view, r) ← restoreTx vtxundo tx pre.length s₁ fClean; _) = _
    rw [hres]
    exact hrest

/-- The undo records a block keeps, the coinbase's apart, as
`DisconnectBlock` looks them up. -/
theorem getD_tail_map {uss : List (List Coin)} {i : Nat} (hi : 0 < i) :
    (uss.tail.map CTxUndo.mk).getD (i - 1) ⟨[]⟩ = ⟨uss.getD i []⟩ := by
  obtain ⟨j, rfl⟩ : ∃ j, i = j + 1 := ⟨i - 1, by omega⟩
  cases uss with
  | nil => rfl
  | cons u us => exact List.getD_map us [] CTxUndo.mk

/-- Connecting a block to a coins view and then disconnecting it, through
its undo data written and read back, restores the view: `DisconnectBlock`
reports `DISCONNECT_OK` and the stack answers as before. The block's first
transaction is its only coinbase, its amounts are in the money range and its
vectors within `MAX_SIZE`; each input spends a coin there when it is spent
and no output is added where a coin is (`connectAll`); the view's coins are
ones the node stores, above height 0; and libsecp256k1 restores fully valid
uncompressed keys. -/
theorem connect_disconnect_restores {k : Secp256k1} (hk : k.DecompressRestores) {s : CoinsStack} {m : CoinsMap}
    (hs : s.Represents m) (hm : ∀ o c, m o = some c → c.Restorable) {block : CBlock} {nHeight : Nat}
    (hh : 0 < nHeight) (hh' : nHeight < 2 ^ 31) (hne : block.vtx ≠ []) (hcb : CoinBaseOnlyFirst block.vtx)
    (hval : ∀ tx ∈ block.vtx, ∀ out ∈ tx.vout, 0 ≤ out.nValue ∧ out.nValue ≤ MAX_MONEY)
    (hsize : block.vtx.length ≤ MAX_SIZE + 1) (hvin : ∀ tx ∈ block.vtx, tx.vin.length ≤ MAX_SIZE)
    (hconnect : (connectAll nHeight m block.vtx).isSome) :
    ∃ blockundo s₁ bytes s₂, ConnectBlockCoins block nHeight s = .ok (blockundo, s₁) ∧
      blockundo.Serialize k = .ok bytes ∧
      DisconnectBlock k block bytes nHeight s₁ = .ok (.DISCONNECT_OK, s₂) ∧ s₂.Represents m := by
  obtain ⟨⟨M, uss⟩, hc⟩ := Option.isSome_iff_exists.mp hconnect
  have hlen := connectAll_length hc
  have hpos : 0 < block.vtx.length := List.length_pos_iff.mpr hne
  obtain ⟨s₁, hconn, hs₁⟩ := ConnectBlockCoins_spec hs hc fun tx htx out hout => by
    have := (hval tx htx out hout).1
    omega
  obtain ⟨-, huss⟩ := connectAll_coins hh hh' hval hm hc
  -- the undo data is written and read back
  have hmem : ∀ u ∈ uss.tail.map CTxUndo.mk, u.vprevout ∈ uss := by
    intro u hu
    obtain ⟨us, hus, rfl⟩ := List.mem_map.mp hu
    exact List.mem_of_mem_tail hus
  obtain ⟨bytes, hser, hdec⟩ : ∃ bytes, (⟨uss.tail.map CTxUndo.mk⟩ : CBlockUndo).Serialize k = .ok bytes ∧
      Decodes (CBlockUndo.Unserialize k) bytes ⟨uss.tail.map CTxUndo.mk⟩ := by
    refine CBlockUndo_round_trip hk (by simp; omega) (fun u hu => ?_) (fun u hu c hc => ((huss _ (hmem u hu)).1 c hc).storable)
    obtain ⟨-, tx, htx, hle⟩ := huss _ (hmem u hu)
    exact hle.trans (hvin tx htx)
  have hread : UndoReadFromDisk k bytes = some ⟨uss.tail.map CTxUndo.mk⟩ := by
    have hrun := hdec []
    rw [List.append_nil] at hrun
    rw [UndoReadFromDisk, hrun]
  -- the disconnect undoes every transaction
  obtain ⟨s₂, hdisc, hs₂⟩ := disconnectTxs_spec (uss.tail.map CTxUndo.mk) hh hh' hm block.vtx true
    hval hcb hc (fun i hi _ => getD_tail_map hi) hs₁
  refine ⟨_, s₁, bytes, s₂, hconn, hser, ?_, hs₂⟩
  have hcount : (uss.tail.map CTxUndo.mk).length + 1 = block.vtx.length := by
    simp only [List.length_map, List.length_tail, hlen]
    omega
  rw [DisconnectBlock, hread]
  simp only [hcount, ne_eq, not_true_eq_false, ↓reduceIte]
  rw [hdisc]
  rfl

/-- A coinbase paying `OP_TRUE` at hash 1, then a transaction spending it. -/
def coinbaseThenSpend : CBlock :=
  ⟨[⟨[⟨⟨0, NULL_INDEX⟩⟩], [⟨50, [0x51]⟩], 1⟩, ⟨[⟨⟨1, 0⟩⟩], [⟨40, [0x52]⟩], 3⟩]⟩

theorem connect_disconnect_restores_spend_in_block :
    ∃ blockundo s₁ bytes s₂, ConnectBlockCoins coinbaseThenSpend 1 CoinsStack.emptyStack = .ok (blockundo, s₁) ∧
      blockundo.Serialize rejectingSecp256k1 = .ok bytes ∧
      DisconnectBlock rejectingSecp256k1 coinbaseThenSpend bytes 1 s₁ = .ok (.DISCONNECT_OK, s₂) ∧
      s₂.Represents fun _ => none :=
  connect_disconnect_restores rejectingSecp256k1_restores CoinsStack.emptyStack_represents (fun _ _ h => by cases h)
    (by decide) (by decide) (by decide) (by decide) (by decide) (by decide) (by decide) (by decide)

/-- Two coinbases, at hashes 1 and 2. -/
def twoCoinbases : CBlock :=
  ⟨[⟨[⟨⟨0, NULL_INDEX⟩⟩], [⟨50, [0x51]⟩], 1⟩, ⟨[⟨⟨0, NULL_INDEX⟩⟩], [⟨50, [0x51]⟩], 2⟩]⟩

theorem connect_disconnect_second_coinbase_fails :
    twoCoinbases.vtx.head?.map CTransaction.IsCoinBase = some true ∧
      (connectAll 1 (fun _ => none) twoCoinbases.vtx).isSome ∧
      ∃ blockundo s₁ bytes s₂, ConnectBlockCoins twoCoinbases 1 CoinsStack.emptyStack = .ok (blockundo, s₁) ∧
        blockundo.Serialize rejectingSecp256k1 = .ok bytes ∧
        DisconnectBlock rejectingSecp256k1 twoCoinbases bytes 1 s₁ = .ok (.DISCONNECT_FAILED, s₂) :=
  ⟨by decide, by decide, _, _, _, _, rfl, rfl, rfl⟩

end Palladium.Validation
