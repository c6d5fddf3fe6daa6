import Palladium.Coins.CacheStack
import Palladium.Coins.Undo
import Palladium.Lib.Updates

/-!
# Connecting a block's transactions to the coins view

`UpdateCoins` (`validation.cpp`) spends a transaction's inputs, moving each
spent coin into the transaction's undo record, and `AddCoins` (`coins.cpp`)
adds its outputs. `ConnectBlock` does this for each transaction of a block
in order and keeps the undo records of all but the coinbase.

On a map of unspent coins, connecting a transaction spends inputs that are
there and adds outputs that are not (`applyTx`). On any stack of caches that
answers as a map, the code does exactly that and records the spent coins.
-/

namespace Palladium.Coins

set_option autoImplicit false

/-- `COutPoint::NULL_INDEX`. -/
def NULL_INDEX : UInt32 := 0xFFFFFFFF

/-- `COutPoint::IsNull`. -/
def COutPoint.IsNull (o : COutPoint) : Bool := o.hash == 0 && o.n == NULL_INDEX

/-- `CTxIn`; only the outpoint it spends is read here. -/
structure CTxIn where
  prevout : COutPoint
  deriving DecidableEq, Repr

/-- `CTransaction`, with the hash it computes once and keeps. -/
structure CTransaction where
  vin : List CTxIn
  vout : List CTxOut
  hash : BitVec 256
  deriving DecidableEq, Repr

def CTransaction.GetHash (tx : CTransaction) : BitVec 256 := tx.hash

/-- `CTransaction::IsCoinBase`: one input, spending the null outpoint. -/
def CTransaction.IsCoinBase (tx : CTransaction) : Bool :=
  match tx.vin with
  | [txin] => txin.prevout.IsNull
  | _ => false

/-- `CBlock`; only its transactions are read here. -/
structure CBlock where
  vtx : List CTransaction
  deriving DecidableEq, Repr

end Palladium.Coins

namespace Palladium.Validation

open Palladium.Coins Updates

set_option autoImplicit false

/-! ## The code -/

/-- `AddCoins`' `overwrite`: asked of the cache with `check`, else a
coinbase may overwrite, for the duplicate coinbases before BIP30. -/
def addCoinsOverwrite (tx : CTransaction) (check : Bool) (cache : CoinsStack) (outpoint : COutPoint) :
    Except String (Bool × CoinsStack) :=
  if check then cache.HaveCoin outpoint else pure (tx.IsCoinBase, cache)

/-- One output of `AddCoins`. -/
def addOutput (tx : CTransaction) (nHeight : Nat) (check : Bool) (cache : CoinsStack) (e : CTxOut × Nat) :
    Except String CoinsStack := do
  let outpoint : COutPoint := ⟨tx.GetHash, UInt32.ofNat e.2⟩
  let (overwrite, cache) ← addCoinsOverwrite tx check cache outpoint
  cache.AddCoin outpoint ⟨e.1, tx.IsCoinBase, nHeight⟩ overwrite

/-- `AddCoins`. -/
def AddCoins (cache : CoinsStack) (tx : CTransaction) (nHeight : Nat) (check : Bool) : Except String CoinsStack :=
  tx.vout.zipIdx.foldlM (addOutput tx nHeight check) cache

/-- One input of `UpdateCoins`: `txundo.vprevout.emplace_back()`, then
`SpendCoin` moves the spent coin into it. -/
def spendInput (acc : CoinsStack × CTxUndo) (txin : CTxIn) : Except String (CoinsStack × CTxUndo) := do
  let (moveout, inputs) ← acc.1.SpendCoin txin.prevout
  match moveout with
  | some coin => pure (inputs, ⟨acc.2.vprevout ++ [coin]⟩)
  | none => throw "assert(is_spent)"

/-- The inputs of `UpdateCoins`, which a coinbase does not spend. -/
def spendInputs (tx : CTransaction) (inputs : CoinsStack) (txundo : CTxUndo) : Except String (CoinsStack × CTxUndo) :=
  if !tx.IsCoinBase then tx.vin.foldlM spendInput (inputs, txundo) else pure (inputs, txundo)

/-- `UpdateCoins`. -/
def UpdateCoins (tx : CTransaction) (inputs : CoinsStack) (txundo : CTxUndo) (nHeight : Nat) :
    Except String (CoinsStack × CTxUndo) := do
  let (inputs, txundo) ← spendInputs tx inputs txundo
  let inputs ← AddCoins inputs tx nHeight false
  pure (inputs, txundo)

/-- One transaction of `ConnectBlock`'s loop: the coinbase's undo record is
`undoDummy` and dropped, the others are kept in `blockundo`. -/
def connectTx (nHeight : Nat) (acc : CBlockUndo × CoinsStack) (e : CTransaction × Nat) :
    Except String (CBlockUndo × CoinsStack) :=
  if e.2 > 0 then do
    let (view, txundo) ← UpdateCoins e.1 acc.2 ⟨[]⟩ nHeight
    pure (⟨acc.1.vtxundo ++ [txundo]⟩, view)
  else do
    let (view, _) ← UpdateCoins e.1 acc.2 ⟨[]⟩ nHeight
    pure (acc.1, view)

/-- What `ConnectBlock` does to the coins view: `UpdateCoins` on each
transaction in order, at the block's height, collecting the undo data. -/
def ConnectBlockCoins (block : CBlock) (nHeight : Nat) (view : CoinsStack) : Except String (CBlockUndo × CoinsStack) :=
  block.vtx.zipIdx.foldlM (connectTx nHeight) (⟨[]⟩, view)

/-! ## Connecting on a map -/

/-- The outpoint and the coin that `AddCoins` makes of output `e`. -/
def outputCoin (tx : CTransaction) (nHeight : Nat) (e : CTxOut × Nat) : COutPoint × Coin :=
  (⟨tx.GetHash, UInt32.ofNat e.2⟩, ⟨e.1, tx.IsCoinBase, nHeight⟩)

/-- The spendable ones among outputs `l`, as coins. -/
def outputsOf (tx : CTransaction) (nHeight : Nat) (l : List (CTxOut × Nat)) : List (COutPoint × Coin) :=
  (l.filter fun e => !IsUnspendable e.1.scriptPubKey).map (outputCoin tx nHeight)

/-- The coins a transaction adds. -/
def txOutputs (tx : CTransaction) (nHeight : Nat) : List (COutPoint × Coin) := outputsOf tx nHeight tx.vout.zipIdx

/-- Add coins to a map. -/
def addAll (m : CoinsMap) (l : List (COutPoint × Coin)) : CoinsMap := setAll m (l.map fun p => (p.1, some p.2))

/-- Spend outpoints one after another, each of which must hold a coin; the
new map and the coins spent. -/
def spendAll (m : CoinsMap) : List COutPoint → Option (CoinsMap × List Coin)
  | [] => some (m, [])
  | o :: os =>
    match m o with
    | none => none
    | some u => (spendAll (Function.update m o none) os).map fun r => (r.1, u :: r.2)

/-- The inputs a transaction spends, none for a coinbase. -/
def spentBy (m : CoinsMap) (tx : CTransaction) : Option (CoinsMap × List Coin) :=
  if tx.IsCoinBase then some (m, []) else spendAll m (tx.vin.map CTxIn.prevout)

/-- Connecting a transaction to a map of unspent coins: its inputs are spent
and must be there; its outputs are added, at distinct outpoints that hold
no coin. -/
def applyTx (nHeight : Nat) (m : CoinsMap) (tx : CTransaction) : Option (CoinsMap × List Coin) := do
  let (m', us) ← spentBy m tx
  if (∀ p ∈ txOutputs tx nHeight, m' p.1 = none) ∧ ((txOutputs tx nHeight).map Prod.fst).Nodup then
    some (addAll m' (txOutputs tx nHeight), us)
  else none

/-- Connecting a block's transactions in order, with the coins each spent. -/
def connectAll (nHeight : Nat) : CoinsMap → List CTransaction → Option (CoinsMap × List (List Coin))
  | m, [] => some (m, [])
  | m, tx :: txs => do
    let (m', us) ← applyTx nHeight m tx
    let (m'', uss) ← connectAll nHeight m' txs
    pure (m'', us :: uss)

/-! ## The map lemmas -/

theorem spendAll_cons_eq_some {m : CoinsMap} {o : COutPoint} {os : List COutPoint} {r : CoinsMap × List Coin}
    (h : spendAll m (o :: os) = some r) :
    ∃ u r', m o = some u ∧ spendAll (Function.update m o none) os = some r' ∧ r = (r'.1, u :: r'.2) := by
  unfold spendAll at h
  cases hm : m o with
  | none => rw [hm] at h; cases h
  | some u =>
    rw [hm] at h
    obtain ⟨r', hr', rfl⟩ := Option.map_eq_some_iff.mp h
    exact ⟨u, r', rfl, hr', rfl⟩

theorem applyTx_eq_some {nHeight : Nat} {m M : CoinsMap} {tx : CTransaction} {us : List Coin}
    (h : applyTx nHeight m tx = some (M, us)) :
    ∃ m', spentBy m tx = some (m', us) ∧
      (∀ p ∈ txOutputs tx nHeight, m' p.1 = none) ∧ ((txOutputs tx nHeight).map Prod.fst).Nodup ∧
      M = addAll m' (txOutputs tx nHeight) := by
  unfold applyTx at h
  obtain ⟨⟨m', us'⟩, hspend, hrest⟩ := Option.bind_eq_some_iff.mp h
  dsimp only at hrest
  by_cases hok : (∀ p ∈ txOutputs tx nHeight, m' p.1 = none) ∧ ((txOutputs tx nHeight).map Prod.fst).Nodup
  · rw [if_pos hok] at hrest
    cases hrest
    exact ⟨m', hspend, hok.1, hok.2, rfl⟩
  · rw [if_neg hok] at hrest
    cases hrest

theorem connectAll_cons_eq_some {nHeight : Nat} {m : CoinsMap} {tx : CTransaction} {txs : List CTransaction}
    {r : CoinsMap × List (List Coin)} (h : connectAll nHeight m (tx :: txs) = some r) :
    ∃ m' us r', applyTx nHeight m tx = some (m', us) ∧ connectAll nHeight m' txs = some r' ∧
      r = (r'.1, us :: r'.2) := by
  obtain ⟨⟨m', us⟩, happ, hrest⟩ := Option.bind_eq_some_iff.mp h
  obtain ⟨r', hr', hr⟩ := Option.bind_eq_some_iff.mp hrest
  cases hr
  exact ⟨m', us, r', happ, hr', rfl⟩

/-! ## The code refines it -/

variable {s : CoinsStack} {m : CoinsMap}

/-- The inputs' loop spends what `spendAll` spends and records the coins. -/
theorem spendInputs_spec : ∀ (vin : List CTxIn) {s : CoinsStack} {m m' : CoinsMap} {us : List Coin}
    (txundo : CTxUndo), s.Represents m → spendAll m (vin.map CTxIn.prevout) = some (m', us) →
    ∃ s', vin.foldlM spendInput (s, txundo) = .ok (s', ⟨txundo.vprevout ++ us⟩) ∧ s'.Represents m'
  | [], s, m, m', us, txundo, h, hsp => by
    cases hsp
    exact ⟨s, by rw [List.append_nil]; rfl, h⟩
  | txin :: vin, s, m, m', us, txundo, h, hsp => by
    obtain ⟨u, r', hu, hr', hr⟩ := spendAll_cons_eq_some hsp
    cases hr
    obtain ⟨r, s₁, hspend, hs₁, -, hr⟩ := CoinsStack.SpendCoin_spec h txin.prevout
    have hstep : spendInput (s, txundo) txin = .ok (s₁, ⟨txundo.vprevout ++ [u]⟩) := by
      rw [spendInput, hspend, hr u hu]
      rfl
    obtain ⟨s', hrest, hs'⟩ := spendInputs_spec vin ⟨txundo.vprevout ++ [u]⟩ hs₁ hr'
    rw [List.append_assoc, List.singleton_append] at hrest
    refine ⟨s', ?_, hs'⟩
    rw [List.foldlM_cons, hstep]
    exact hrest

/-- The outputs' loop adds the spendable outputs, at outpoints that hold no
coin; each output is unspent, its amount not the null `-1`. -/
theorem addOutputs_spec (tx : CTransaction) (nHeight : Nat) : ∀ (l : List (CTxOut × Nat)) {s : CoinsStack}
    {m : CoinsMap}, s.Represents m → (∀ e ∈ l, e.1.nValue ≠ -1) →
    (∀ p ∈ outputsOf tx nHeight l, m p.1 = none) → ((outputsOf tx nHeight l).map Prod.fst).Nodup →
    ∃ s', l.foldlM (addOutput tx nHeight false) s = .ok s' ∧ s'.Represents (addAll m (outputsOf tx nHeight l))
  | [], s, m, h, _, _, _ => ⟨s, rfl, h⟩
  | e :: l, s, m, h, hval, hfresh, hnd => by
    have hspent : (outputCoin tx nHeight e).2.IsSpent = false := by
      simpa [Coin.IsSpent, CTxOut.IsNull, outputCoin] using hval e List.mem_cons_self
    have hval' : ∀ e' ∈ l, e'.1.nValue ≠ -1 := fun e' he' => hval e' (List.mem_cons_of_mem e he')
    rw [List.foldlM_cons]
    by_cases hsp : IsUnspendable e.1.scriptPubKey = true
    · -- an unspendable output is not added
      have hskip : outputsOf tx nHeight (e :: l) = outputsOf tx nHeight l := by
        simp [outputsOf, hsp]
      rw [hskip] at hfresh hnd ⊢
      have hadd : addOutput tx nHeight false s e = .ok s :=
        CoinsStack.AddCoin_of_unspendable h hspent hsp
      rw [hadd]
      exact addOutputs_spec tx nHeight l h hval' hfresh hnd
    · have hcons : outputsOf tx nHeight (e :: l) = outputCoin tx nHeight e :: outputsOf tx nHeight l := by
        simp [outputsOf, hsp]
      rw [hcons] at hfresh hnd ⊢
      rw [List.map_cons, List.nodup_cons] at hnd
      obtain ⟨s₁, hadd, hs₁, -⟩ := CoinsStack.AddCoin_spec h (o := (outputCoin tx nHeight e).1) hspent
        (Or.inr (hfresh _ List.mem_cons_self) : tx.IsCoinBase = true ∨ _)
      rw [if_neg (by simpa [outputCoin] using hsp)] at hs₁
      -- the later outputs are at other outpoints, still without a coin
      have hfresh' : ∀ p ∈ outputsOf tx nHeight l,
          Function.update m (outputCoin tx nHeight e).1 (some (outputCoin tx nHeight e).2) p.1 = none := by
        intro p hp
        rw [Function.update_of_ne (fun heq => hnd.1 (by rw [← heq]; exact List.mem_map_of_mem hp))]
        exact hfresh p (List.mem_cons_of_mem _ hp)
      obtain ⟨s', hrest, hs'⟩ := addOutputs_spec tx nHeight l hs₁ hval' hfresh' hnd.2
      refine ⟨s', ?_, hs'⟩
      rw [show addOutput tx nHeight false s e = .ok s₁ from hadd]
      exact hrest

theorem AddCoins_spec {tx : CTransaction} {nHeight : Nat} (h : s.Represents m)
    (hval : ∀ out ∈ tx.vout, out.nValue ≠ -1) (hfresh : ∀ p ∈ txOutputs tx nHeight, m p.1 = none)
    (hnd : ((txOutputs tx nHeight).map Prod.fst).Nodup) :
    ∃ s', AddCoins s tx nHeight false = .ok s' ∧ s'.Represents (addAll m (txOutputs tx nHeight)) :=
  addOutputs_spec tx nHeight tx.vout.zipIdx h (fun e he => hval e.1 (List.fst_mem_of_mem_zipIdx he)) hfresh hnd

/-- `UpdateCoins` connects a transaction as `applyTx` does, and appends the
coins it spent to its undo record. -/
theorem UpdateCoins_spec {tx : CTransaction} {nHeight : Nat} {M : CoinsMap} {us : List Coin} (txundo : CTxUndo)
    (h : s.Represents m) (happ : applyTx nHeight m tx = some (M, us)) (hval : ∀ out ∈ tx.vout, out.nValue ≠ -1) :
    ∃ s', UpdateCoins tx s txundo nHeight = .ok (s', ⟨txundo.vprevout ++ us⟩) ∧ s'.Represents M := by
  obtain ⟨m', hspend, hfresh, hnd, rfl⟩ := applyTx_eq_some happ
  -- the inputs: nothing for a coinbase, `spendAll` for the others
  obtain ⟨s₁, hin, hs₁⟩ : ∃ s₁, spendInputs tx s txundo = .ok (s₁, ⟨txundo.vprevout ++ us⟩) ∧
      s₁.Represents m' := by
    unfold spendInputs
    unfold spentBy at hspend
    cases hcb : tx.IsCoinBase
    · rw [hcb] at hspend
      exact spendInputs_spec tx.vin txundo h hspend
    · rw [hcb, if_pos rfl] at hspend
      cases hspend
      exact ⟨s, by rw [List.append_nil]; rfl, h⟩
  obtain ⟨s', hout, hs'⟩ := AddCoins_spec hs₁ hval hfresh hnd
  refine ⟨s', ?_, hs'⟩
  rw [UpdateCoins, hin]
  show (do let inputs ← AddCoins s₁ tx nHeight false; pure (inputs, _)) = _
  rw [hout]
  rfl

/-- One pass of the loop: `UpdateCoins` connects the transaction as
`applyTx` does, and its undo record is kept unless it is the first. -/
theorem connectTx_spec {tx : CTransaction} {nHeight : Nat} {M : CoinsMap} {us : List Coin} (blockundo : CBlockUndo)
    (i : Nat) (h : s.Represents m) (happ : applyTx nHeight m tx = some (M, us))
    (hval : ∀ out ∈ tx.vout, out.nValue ≠ -1) :
    ∃ s', connectTx nHeight (blockundo, s) (tx, i) =
      .ok (if i > 0 then ⟨blockundo.vtxundo ++ [⟨us⟩]⟩ else blockundo, s') ∧ s'.Represents M := by
  obtain ⟨s', hupd, hs'⟩ := UpdateCoins_spec ⟨[]⟩ h happ hval
  refine ⟨s', ?_, hs'⟩
  simp only [connectTx]
  by_cases hi : i > 0
  · rw [if_pos hi, if_pos hi, hupd]
    rfl
  · rw [if_neg hi, if_neg hi, hupd]
    rfl

/-- The transactions from index `i + 1` on each keep their undo record. -/
theorem connectTxs_spec {nHeight : Nat} :
    ∀ (txs : List CTransaction) (i : Nat) {s : CoinsStack} {m M : CoinsMap} {uss : List (List Coin)}
      (blockundo : CBlockUndo), (∀ tx ∈ txs, ∀ out ∈ tx.vout, out.nValue ≠ -1) → s.Represents m →
      connectAll nHeight m txs = some (M, uss) →
      ∃ s', (txs.zipIdx (i + 1)).foldlM (connectTx nHeight) (blockundo, s) =
        .ok (⟨blockundo.vtxundo ++ uss.map CTxUndo.mk⟩, s') ∧ s'.Represents M
  | [], _, s, m, M, uss, blockundo, _, h, hc => by
    cases hc
    exact ⟨s, by rw [List.map_nil, List.append_nil]; rfl, h⟩
  | tx :: txs, i, s, m, M, uss, blockundo, hval, h, hc => by
    obtain ⟨m', us, r', happ, hrest, hr⟩ := connectAll_cons_eq_some hc
    cases hr
    obtain ⟨s₁, hstep, hs₁⟩ := connectTx_spec blockundo (i + 1) h happ (hval tx List.mem_cons_self)
    rw [if_pos (Nat.succ_pos i)] at hstep
    obtain ⟨s', hfold, hs'⟩ := connectTxs_spec txs (i + 1) ⟨blockundo.vtxundo ++ [⟨us⟩]⟩
      (fun tx' htx' => hval tx' (List.mem_cons_of_mem tx htx')) hs₁ hrest
    refine ⟨s', ?_, hs'⟩
    rw [List.zipIdx_cons, List.foldlM_cons, hstep]
    rw [List.append_assoc, List.singleton_append] at hfold
    exact hfold

/-- `ConnectBlockCoins` refines `connectAll`: from a stack that answers as
`m`, it connects the block as `connectAll` does and keeps the spent coins of
every transaction but the first. -/
theorem ConnectBlockCoins_spec {block : CBlock} {nHeight : Nat} {M : CoinsMap} {uss : List (List Coin)}
    (h : s.Represents m) (hc : connectAll nHeight m block.vtx = some (M, uss))
    (hval : ∀ tx ∈ block.vtx, ∀ out ∈ tx.vout, out.nValue ≠ -1) :
    ∃ s', ConnectBlockCoins block nHeight s = .ok (⟨uss.tail.map CTxUndo.mk⟩, s') ∧ s'.Represents M := by
  unfold ConnectBlockCoins
  cases hvtx : block.vtx with
  | nil =>
    rw [hvtx] at hc
    cases hc
    exact ⟨s, rfl, h⟩
  | cons tx txs =>
    rw [hvtx] at hc hval
    obtain ⟨m', us, r', happ, hrest, hr⟩ := connectAll_cons_eq_some hc
    cases hr
    -- the coinbase's record is dropped
    obtain ⟨s₁, hstep, hs₁⟩ := connectTx_spec ⟨[]⟩ 0 h happ (hval tx List.mem_cons_self)
    rw [if_neg (Nat.lt_irrefl 0)] at hstep
    obtain ⟨s', hfold, hs'⟩ := connectTxs_spec txs 0 ⟨[]⟩ (fun tx' htx' => hval tx' (List.mem_cons_of_mem tx htx'))
      hs₁ hrest
    refine ⟨s', ?_, hs'⟩
    rw [List.zipIdx_cons, List.foldlM_cons, hstep]
    simp only [List.nil_append] at hfold
    exact hfold

end Palladium.Validation
