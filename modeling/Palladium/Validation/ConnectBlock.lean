import Palladium.Validation.TxCheck
import Palladium.Validation.Disconnect
import Mathlib.Algebra.BigOperators.Finprod

/-!
# No block creates more value than its subsidy

`ConnectBlock` (`validation.cpp`) checks that no output of the block lands on
a coin of the view (BIP30), then checks each transaction but the coinbase
with `CheckTxInputs`, adds its fee to `nFees` under `MoneyRange` and
connects it with `UpdateCoins`; after the loop the first transaction may pay
at most `nFees + GetBlockSubsidy(height)`.

On the map of unspent coins, connecting a transaction takes the amounts of
the coins it spends out of the view and puts in those of its spendable
outputs (`valueOn_applyTx`); what the outputs pay less than the inputs is
the fee, and a coinbase pays out what it likes. The code refines this: from
a view of coins in the money range its loop is a run of `connectAll`, its
`nFees` is the sum of the fees, and none of its sums overflows. With the
first transaction the only coinbase, the view gains at most the subsidy.
-/

namespace Palladium.Validation

open Palladium.Coins Palladium.Consensus Palladium.Serialize ExceptSpec Updates

set_option autoImplicit false

/-! ## The value of a view -/

/-- The total amount of a view's coins at the outpoints `S`. -/
def valueOn (S : Finset COutPoint) (m : CoinsMap) : Int := ∑ o ∈ S, coinValue (m o)

/-- The total amount of a view's coins, where it holds finitely many. -/
noncomputable def totalValue (m : CoinsMap) : Int := ∑ᶠ o, coinValue (m o)

/-- The amounts of a list of coins. -/
def coinsValue (us : List Coin) : Int := (us.map fun u => u.out.nValue).sum

/-- The amounts of the coins a transaction adds. -/
def spendableValue (tx : CTransaction) (nHeight : Nat) : Int :=
  ((txOutputs tx nHeight).map fun p => p.2.out.nValue).sum

/-- The fee of a transaction that spent the coins `us`; a coinbase pays none. -/
def txFee (tx : CTransaction) (us : List Coin) : Int := if tx.IsCoinBase then 0 else coinsValue us - valueOut tx

variable {S : Finset COutPoint}

theorem totalValue_eq_valueOn {m : CoinsMap} (hS : ∀ o, m o ≠ none → o ∈ S) : totalValue m = valueOn S m := by
  apply finsum_eq_sum_of_support_subset
  intro o ho
  apply hS o
  intro hnone
  apply ho
  show coinValue (m o) = 0
  rw [hnone]
  rfl

theorem valueOn_update {m : CoinsMap} {o : COutPoint} (ho : o ∈ S) (v : Option Coin) :
    valueOn S (Function.update m o v) = valueOn S m - coinValue (m o) + coinValue v :=
  sum_comp_update_of_mem coinValue ho v

/-! ## Connecting on a map, in amounts -/

/-- Where `spendAll` leaves coins: none at the outpoints it spent. -/
theorem spendAll_apply : ∀ (os : List COutPoint) {m m' : CoinsMap} {us : List Coin},
    spendAll m os = some (m', us) → ∀ o, m' o = if o ∈ os then none else m o
  | [], m, m', us, h => by
    cases h
    simp
  | o' :: os, m, m', us, h => by
    obtain ⟨u, r', hu, hr', hr⟩ := spendAll_cons_eq_some h
    cases hr
    intro o
    rw [spendAll_apply os hr' o]
    by_cases ho : o ∈ os
    · simp [ho]
    · by_cases he : o = o'
      · simp [he]
      · simp [ho, he]

/-- Spending takes the spent coins' amounts out of the view. -/
theorem valueOn_spendAll : ∀ (os : List COutPoint) {m m' : CoinsMap} {us : List Coin},
    (∀ o, m o ≠ none → o ∈ S) → spendAll m os = some (m', us) → valueOn S m' + coinsValue us = valueOn S m
  | [], m, m', us, _, h => by
    cases h
    simp [coinsValue]
  | o :: os, m, m', us, hS, h => by
    obtain ⟨u, r', hu, hr', hr⟩ := spendAll_cons_eq_some h
    cases hr
    have hS' : ∀ o', Function.update m o none o' ≠ none → o' ∈ S := by
      intro o' ho'
      rw [Function.update_apply] at ho'
      split at ho'
      · exact absurd rfl ho'
      · exact hS o' ho'
    have hrest := valueOn_spendAll os hS' hr'
    have hupd := valueOn_update (hS o (by simp [hu])) none (m := m)
    simp only [hu, coinValue] at hupd
    simp only [coinsValue, List.map_cons, List.sum_cons] at hrest ⊢
    omega

/-- Adding coins at distinct outpoints that held none puts their amounts in. -/
theorem valueOn_addAll : ∀ (l : List (COutPoint × Coin)) {m : CoinsMap}, (∀ p ∈ l, p.1 ∈ S) →
    (∀ p ∈ l, m p.1 = none) → (l.map Prod.fst).Nodup →
    valueOn S (addAll m l) = valueOn S m + (l.map fun p => p.2.out.nValue).sum
  | [], m, _, _, _ => by simp [addAll]
  | p :: l, m, hS, hfresh, hnd => by
    rw [List.map_cons, List.nodup_cons] at hnd
    have hfresh' : ∀ q ∈ l, Function.update m p.1 (some p.2) q.1 = none := fun q hq => by
      rw [Function.update_of_ne (fun heq => hnd.1 (by rw [← heq]; exact List.mem_map_of_mem hq))]
      exact hfresh q (List.mem_cons_of_mem p hq)
    have hrest := valueOn_addAll l (fun q hq => hS q (List.mem_cons_of_mem p hq)) hfresh' hnd.2
    have hupd := valueOn_update (hS p List.mem_cons_self) (some p.2) (m := m)
    rw [hfresh p List.mem_cons_self] at hupd
    show valueOn S (addAll (Function.update m p.1 (some p.2)) l) = _
    rw [hrest, hupd, List.map_cons, List.sum_cons]
    simp only [coinValue]
    ring

/-- The outpoints a transaction adds coins at carry its hash. -/
theorem hash_of_mem_txOutputs {tx : CTransaction} {nHeight : Nat} {p : COutPoint × Coin}
    (hp : p ∈ txOutputs tx nHeight) : p.1.hash = tx.GetHash := by
  obtain ⟨e, -, rfl⟩ := List.mem_map.mp hp
  rfl

theorem spentBy_coinbase {m m' : CoinsMap} {tx : CTransaction} {us : List Coin} (hcb : tx.IsCoinBase = true)
    (h : spentBy m tx = some (m', us)) : m' = m ∧ us = [] := by
  rw [spentBy, if_pos hcb] at h
  cases h
  exact ⟨rfl, rfl⟩

/-- Connecting a transaction leaves every outpoint it adds no coin at as it
was, or without a coin. -/
theorem applyTx_apply_of_not_mem {nHeight : Nat} {m M : CoinsMap} {tx : CTransaction} {us : List Coin}
    (h : applyTx nHeight m tx = some (M, us)) {o : COutPoint} (ho : o ∉ (txOutputs tx nHeight).map Prod.fst) :
    M o = none ∨ M o = m o := by
  obtain ⟨m', hspend, -, -, rfl⟩ := applyTx_eq_some h
  have hkeys : ((txOutputs tx nHeight).map fun p => (p.1, some p.2)).map Prod.fst =
      (txOutputs tx nHeight).map Prod.fst := by
    simp [Function.comp_def]
  rw [addAll, setAll_apply_of_not_mem (hkeys ▸ ho)]
  cases hcb : tx.IsCoinBase
  · rw [spentBy, if_neg (by simp [hcb])] at hspend
    rw [spendAll_apply _ hspend o]
    split
    · exact .inl rfl
    · exact .inr rfl
  · right
    rw [(spentBy_coinbase hcb hspend).1]

/-- Connecting a transaction takes the amounts of the coins it spends out of
the view and puts in those of the coins it adds. -/
theorem valueOn_applyTx {nHeight : Nat} {m M : CoinsMap} {tx : CTransaction} {us : List Coin}
    (h : applyTx nHeight m tx = some (M, us)) (hS : ∀ o, m o ≠ none → o ∈ S)
    (hout : ∀ p ∈ txOutputs tx nHeight, p.1 ∈ S) :
    valueOn S M + coinsValue us = valueOn S m + spendableValue tx nHeight := by
  obtain ⟨m', hspend, hfresh, hnd, rfl⟩ := applyTx_eq_some h
  have hin : valueOn S m' + coinsValue us = valueOn S m := by
    cases hcb : tx.IsCoinBase
    · rw [spentBy, if_neg (by simp [hcb])] at hspend
      exact valueOn_spendAll _ hS hspend
    · obtain ⟨rfl, rfl⟩ := spentBy_coinbase hcb hspend
      simp [coinsValue]
  rw [valueOn_addAll _ hout hfresh hnd, spendableValue]
  omega

/-- The outputs a transaction adds pay no more than all its outputs, when
none pays a negative amount. -/
theorem spendableValue_le {tx : CTransaction} (nHeight : Nat) (hv : ∀ out ∈ tx.vout, 0 ≤ out.nValue) :
    spendableValue tx nHeight ≤ valueOut tx := by
  have hsub : List.Sublist ((txOutputs tx nHeight).map fun p => p.2.out.nValue) (tx.vout.map CTxOut.nValue) := by
    rw [← List.zipIdx_map_fst 0 tx.vout, List.map_map]
    simp only [txOutputs, outputsOf, List.map_map]
    exact (List.filter_sublist).map _
  apply hsub.sum_le_sum
  intro a ha
  obtain ⟨out, hout, rfl⟩ := List.mem_map.mp ha
  exact hv out hout

/-- What a transaction adds to the view and to the fees is at most what a
coinbase's outputs pay. -/
theorem applyTx_value_add_fee_le {nHeight : Nat} {m M : CoinsMap} {tx : CTransaction} {us : List Coin}
    (h : applyTx nHeight m tx = some (M, us)) (hS : ∀ o, m o ≠ none → o ∈ S)
    (hout : ∀ p ∈ txOutputs tx nHeight, p.1 ∈ S) (hv : ∀ out ∈ tx.vout, 0 ≤ out.nValue) :
    valueOn S M + txFee tx us ≤ valueOn S m + if tx.IsCoinBase then valueOut tx else 0 := by
  have hval := valueOn_applyTx h hS hout
  have hle := spendableValue_le nHeight hv
  cases hcb : tx.IsCoinBase
  · simp only [txFee, hcb, Bool.false_eq_true, if_false]
    omega
  · obtain ⟨m', hspend, -⟩ := applyTx_eq_some h
    obtain ⟨-, rfl⟩ := spentBy_coinbase hcb hspend
    simp only [txFee, hcb, if_true, coinsValue, List.map_nil, List.sum_nil] at hval ⊢
    omega

/-- Connecting adds coins only at the outpoints of the block's outputs. -/
theorem connectAll_support {nHeight : Nat} : ∀ (txs : List CTransaction) {m M : CoinsMap}
    {uss : List (List Coin)}, connectAll nHeight m txs = some (M, uss) → ∀ o, M o ≠ none →
    m o ≠ none ∨ ∃ tx ∈ txs, o ∈ (txOutputs tx nHeight).map Prod.fst
  | [], m, M, uss, h, o, ho => by
    cases h
    exact .inl ho
  | tx :: txs, m, M, uss, h, o, ho => by
    obtain ⟨m', us, r', happ, hrest, hr⟩ := connectAll_cons_eq_some h
    cases hr
    rcases connectAll_support txs hrest o ho with hm' | ⟨tx', htx', ho'⟩
    · by_cases hkey : o ∈ (txOutputs tx nHeight).map Prod.fst
      · exact .inr ⟨tx, List.mem_cons_self, hkey⟩
      · rcases applyTx_apply_of_not_mem happ hkey with hnone | heq
        · exact absurd hnone hm'
        · exact .inl (heq ▸ hm')
    · exact .inr ⟨tx', List.mem_cons_of_mem tx htx', ho'⟩

/-- Over a block, the view's value and the fees together grow by at most what
its coinbases pay. -/
theorem connectAll_value_add_fees_le {nHeight : Nat} : ∀ (txs : List CTransaction) {m M : CoinsMap}
    {uss : List (List Coin)}, connectAll nHeight m txs = some (M, uss) → (∀ o, m o ≠ none → o ∈ S) →
    (∀ tx ∈ txs, ∀ p ∈ txOutputs tx nHeight, p.1 ∈ S) → (∀ tx ∈ txs, ∀ out ∈ tx.vout, 0 ≤ out.nValue) →
    valueOn S M + (List.zipWith txFee txs uss).sum ≤
      valueOn S m + ((txs.filter CTransaction.IsCoinBase).map valueOut).sum
  | [], m, M, uss, h, _, _, _ => by
    cases h
    simp
  | tx :: txs, m, M, uss, h, hS, hout, hv => by
    obtain ⟨m', us, r', happ, hrest, hr⟩ := connectAll_cons_eq_some h
    cases hr
    have hS' : ∀ o, m' o ≠ none → o ∈ S := by
      intro o ho
      by_cases hkey : o ∈ (txOutputs tx nHeight).map Prod.fst
      · obtain ⟨p, hp, rfl⟩ := List.mem_map.mp hkey
        exact hout tx List.mem_cons_self p hp
      · rcases applyTx_apply_of_not_mem happ hkey with hnone | heq
        · exact absurd hnone ho
        · exact hS o (heq ▸ ho)
    have hstep := applyTx_value_add_fee_le happ hS (hout tx List.mem_cons_self) (hv tx List.mem_cons_self)
    have hrun := connectAll_value_add_fees_le txs hrest hS' (fun t ht => hout t (List.mem_cons_of_mem tx ht))
      (fun t ht => hv t (List.mem_cons_of_mem tx ht))
    simp only [List.zipWith_cons_cons, List.sum_cons, List.filter_cons]
    cases hcb : tx.IsCoinBase
    · simp only [hcb, Bool.false_eq_true, if_false] at hstep ⊢
      omega
    · simp only [hcb, if_true, List.map_cons, List.sum_cons] at hstep ⊢
      omega

/-! ## The code -/

/-- `GetBlockSubsidy`, with the halving interval of the chain's parameters. -/
def GetBlockSubsidy (nHeight nSubsidyHalvingInterval : Nat) : Int :=
  let halvings := nHeight / nSubsidyHalvingInterval
  -- a shift by 64 or more is undefined in C++
  if halvings ≥ 64 then 0 else (50 * COIN) >>> halvings

/-- What `ConnectBlock`'s loop does before connecting a transaction that is
not a coinbase: `CheckTxInputs`, and its fee added to `nFees`. -/
def tallyFee (nHeight : Nat) (nFees : Int) (tx : CTransaction) (view : CoinsStack) :
    Except String (Int × CoinsStack) :=
  if !tx.IsCoinBase then do
    let (txfee, view) ← CheckTxInputs tx view nHeight
    let nFees ← int64Result (nFees + txfee)
    if !MoneyRange nFees then throw "bad-txns-accumulated-fee-outofrange"
    pure (nFees, view)
  else pure (nFees, view)

/-- One pass of `ConnectBlock`'s loop over the transactions. -/
def connectBlockTx (nHeight : Nat) (acc : Int × CBlockUndo × CoinsStack) (e : CTransaction × Nat) :
    Except String (Int × CBlockUndo × CoinsStack) := do
  let (nFees, view) ← tallyFee nHeight acc.1 e.1 acc.2.2
  let (blockundo, view) ← connectTx nHeight (acc.2.1, view) e
  pure (nFees, blockundo, view)

/-- The BIP30 check of output `o` of the transaction with hash `hash`. -/
def checkBIP30Output (hash : BitVec 256) (view : CoinsStack) (o : Nat) : Except String CoinsStack := do
  let (found, view) ← view.HaveCoin ⟨hash, UInt32.ofNat o⟩
  if found then throw "bad-txns-BIP30"
  pure view

/-- `ConnectBlock`'s BIP30 check: no output of the block is at an outpoint
that holds a coin. -/
def checkBIP30 (block : CBlock) (view : CoinsStack) : Except String CoinsStack :=
  block.vtx.foldlM (fun view tx => (List.range tx.vout.length).foldlM (checkBIP30Output tx.GetHash) view) view

/-- What `ConnectBlock` does to the coins view and with the amounts: the
BIP30 check where it is enforced, the loop over the transactions, and the
check of what the first transaction pays. -/
def ConnectBlock (block : CBlock) (nHeight nSubsidyHalvingInterval : Nat) (fEnforceBIP30 : Bool)
    (view : CoinsStack) : Except String (CBlockUndo × CoinsStack) := do
  let view ← (if fEnforceBIP30 then checkBIP30 block view else pure view)
  let (nFees, blockundo, view) ← block.vtx.zipIdx.foldlM (connectBlockTx nHeight) (0, ⟨[]⟩, view)
  let blockReward ← int64Result (nFees + GetBlockSubsidy nHeight nSubsidyHalvingInterval)
  let coinbaseValue ← match block.vtx with
    | [] => throw "block.vtx[0] of an empty block"
    | tx :: _ => tx.GetValueOut
  if coinbaseValue > blockReward then throw "bad-cb-amount"
  pure (blockundo, view)

theorem GetBlockSubsidy_range (nHeight nSubsidyHalvingInterval : Nat) :
    0 ≤ GetBlockSubsidy nHeight nSubsidyHalvingInterval ∧ GetBlockSubsidy nHeight nSubsidyHalvingInterval ≤ 50 * COIN := by
  unfold GetBlockSubsidy
  dsimp only
  split
  · decide
  · rw [Int.shiftRight_eq_div_pow]
    exact ⟨Int.ediv_nonneg (by decide) (by positivity), Int.ediv_le_self _ (by decide)⟩

/-! ## The code's checks make the map's steps possible -/

/-- Spending distinct outpoints that all hold coins succeeds, and takes out
their amounts. -/
theorem spendAll_of_nodup : ∀ (os : List COutPoint) {m : CoinsMap}, os.Nodup → (∀ o ∈ os, (m o).isSome) →
    ∃ m' us, spendAll m os = some (m', us) ∧ coinsValue us = (os.map fun o => coinValue (m o)).sum
  | [], m, _, _ => ⟨m, [], rfl, rfl⟩
  | o :: os, m, hnd, hin => by
    rw [List.nodup_cons] at hnd
    obtain ⟨u, hu⟩ := Option.isSome_iff_exists.mp (hin o List.mem_cons_self)
    -- the later outpoints are other ones, untouched by spending `o`
    have hother : ∀ o' ∈ os, Function.update m o none o' = m o' := fun o' ho' =>
      Function.update_of_ne (fun heq => hnd.1 (by rw [← heq]; exact ho')) _ _
    obtain ⟨m', us, hspend, hval⟩ := spendAll_of_nodup os (m := Function.update m o none) hnd.2
      (fun o' ho' => by rw [hother o' ho']; exact hin o' (List.mem_cons_of_mem o ho'))
    refine ⟨m', u :: us, by simp [spendAll, hu, hspend], ?_⟩
    rw [List.map_congr_left fun o' ho' => by rw [hother o' ho']] at hval
    simp [coinsValue, hu, coinValue] at hval ⊢
    rw [hval]

/-- A transaction with at most `MAX_SIZE` outputs adds its coins at distinct
outpoints: their 32-bit indices do not wrap. -/
theorem txOutputs_nodup {tx : CTransaction} (nHeight : Nat) (hlen : tx.vout.length ≤ MAX_SIZE) :
    ((txOutputs tx nHeight).map Prod.fst).Nodup := by
  have hidx : ((tx.vout.zipIdx.map Prod.snd).map fun i => (⟨tx.GetHash, UInt32.ofNat i⟩ : COutPoint)).Nodup := by
    rw [List.zipIdx_map_snd]
    refine List.Nodup.map_on (fun i hi j hj heq => ?_) List.nodup_range'
    have hi' := (List.mem_range'_1.mp hi).2
    have hj' := (List.mem_range'_1.mp hj).2
    have hsize : MAX_SIZE < UInt32.size := by decide
    have := congrArg (fun o : COutPoint => o.n.toNat) heq
    simp only [UInt32.toNat_ofNat'] at this
    rw [Nat.mod_eq_of_lt (by simp [UInt32.size] at hsize ⊢; omega), Nat.mod_eq_of_lt (by simp [UInt32.size] at hsize ⊢; omega)] at this
    exact this
  rw [List.map_map] at hidx
  simp only [txOutputs, outputsOf, List.map_map]
  exact hidx.sublist (List.filter_sublist.map _)

/-- A transaction whose inputs `spentBy` spends and whose outputs land on
outpoints without coins connects on the map. -/
theorem applyTx_of_spentBy {nHeight : Nat} {m m' : CoinsMap} {tx : CTransaction} {us : List Coin}
    (hspent : spentBy m tx = some (m', us)) (hfresh : ∀ p ∈ txOutputs tx nHeight, m' p.1 = none)
    (hnd : ((txOutputs tx nHeight).map Prod.fst).Nodup) :
    applyTx nHeight m tx = some (addAll m' (txOutputs tx nHeight), us) := by
  simp only [applyTx, hspent, Option.bind_eq_bind, Option.bind_some]
  rw [if_pos ⟨hfresh, hnd⟩]

/-- A transaction that passes `CheckTransaction`, whose inputs' coins are in
the view and whose outputs land on outpoints without coins, connects on the
map; its fee is what `CheckTxInputs` computes. -/
theorem applyTx_of_checks {tx : CTransaction} {nHeight : Nat} {m : CoinsMap}
    (hcheck : CheckTransaction tx = .ok ()) (hlen : tx.vout.length ≤ MAX_SIZE)
    (hin : tx.IsCoinBase = false → ∀ txin ∈ tx.vin, (m txin.prevout).isSome)
    (hfresh : ∀ p ∈ txOutputs tx nHeight, m p.1 = none) :
    ∃ M us, applyTx nHeight m tx = some (M, us) ∧
      txFee tx us = if tx.IsCoinBase then 0 else inValue m tx - valueOut tx := by
  obtain ⟨-, -, -, hnd⟩ := (CheckTransaction_spec tx).of_ok hcheck
  have hnd' := txOutputs_nodup nHeight hlen
  cases hcb : tx.IsCoinBase
  · obtain ⟨m', us, hspend, hval⟩ := spendAll_of_nodup (tx.vin.map CTxIn.prevout) hnd
      (by simpa using hin hcb)
    have hspent : spentBy m tx = some (m', us) := by
      rw [spentBy, if_neg (by simp [hcb]), hspend]
    -- spending only takes coins away, so the outputs still find none
    have hfresh' : ∀ p ∈ txOutputs tx nHeight, m' p.1 = none := by
      intro p hp
      rw [spendAll_apply _ hspend p.1]
      split
      · rfl
      · exact hfresh p hp
    refine ⟨_, us, applyTx_of_spentBy hspent hfresh' hnd', ?_⟩
    simp only [txFee, hcb, Bool.false_eq_true, if_false, hval, inValue, List.map_map]
    rfl
  · have hspent : spentBy m tx = some (m, []) := by
      rw [spentBy, if_pos hcb]
    exact ⟨_, [], applyTx_of_spentBy hspent hfresh hnd', by simp [txFee, hcb]⟩

/-- Connecting keeps the view's amounts in the money range when the outputs'
are. -/
theorem applyTx_moneyRange {nHeight : Nat} {m M : CoinsMap} {tx : CTransaction} {us : List Coin}
    (h : applyTx nHeight m tx = some (M, us)) (hm : ∀ o c, m o = some c → MoneyRange c.out.nValue)
    (hout : ∀ out ∈ tx.vout, MoneyRange out.nValue) : ∀ o c, M o = some c → MoneyRange c.out.nValue := by
  obtain ⟨m', hspend, -, -, rfl⟩ := applyTx_eq_some h
  have hm' : ∀ o c, m' o = some c → MoneyRange c.out.nValue := by
    unfold spentBy at hspend
    split at hspend
    · cases hspend
      exact hm
    · exact (spendAll_coins _ hm hspend).2
  refine addAll_coins _ hm' fun p hp => ?_
  obtain ⟨e, he, rfl⟩ := List.mem_map.mp hp
  exact hout e.1 (List.fst_mem_of_mem_zipIdx (List.mem_filter.mp he).1)

/-! ## The code refines the map -/

section Loop

variable {nHeight : Nat} {s : CoinsStack} {m : CoinsMap}

theorem tallyFee_ends (h : s.Represents m) (hm : ∀ o c, m o = some c → MoneyRange c.out.nValue) {nFees : Int}
    (hnf : MoneyRange nFees) (tx : CTransaction) :
    Ends NotOverflow (fun r => r.2.Represents m ∧ MoneyRange r.1 ∧
      r.1 = nFees + (if tx.IsCoinBase then 0 else inValue m tx - valueOut tx) ∧
      (tx.IsCoinBase = false → ∀ txin ∈ tx.vin, (m txin.prevout).isSome)) (tallyFee nHeight nFees tx s) := by
  unfold tallyFee
  cases hcb : tx.IsCoinBase
  · simp only [Bool.not_false, if_true]
    refine (CheckTxInputs_ends hm nHeight h tx).bind ?_
    rintro ⟨txfee, view⟩ ⟨hview, hfee, hfeeeq, hin⟩
    dsimp only at hview hfee hfeeeq
    subst hfeeeq
    cases hs : MoneyRange (nFees + (inValue m tx - valueOut tx))
    · simp [int64Result_add hnf hfee, hs]
      decide
    · simp [int64Result_add hnf hfee, hs, hview]
      exact hin
  · simp [h, hnf]

theorem connectBlockTx_ends (h : s.Represents m) (hm : ∀ o c, m o = some c → MoneyRange c.out.nValue)
    {nFees : Int} (hnf : MoneyRange nFees) (blockundo : CBlockUndo) {tx : CTransaction} (i : Nat)
    (hcheck : CheckTransaction tx = .ok ()) (hlen : tx.vout.length ≤ MAX_SIZE)
    (hfresh : ∀ p ∈ txOutputs tx nHeight, m p.1 = none) :
    Ends NotOverflow (fun r => ∃ M us, applyTx nHeight m tx = some (M, us) ∧ r.2.2.Represents M ∧
      MoneyRange r.1 ∧ r.1 = nFees + txFee tx us) (connectBlockTx nHeight (nFees, blockundo, s) (tx, i)) := by
  obtain ⟨hout, -⟩ := (CheckTransaction_spec tx).of_ok hcheck
  have hval : ∀ out ∈ tx.vout, out.nValue ≠ -1 := fun out ho => by
    have := (MoneyRange_iff.mp (hout out ho)).1
    omega
  unfold connectBlockTx
  refine (tallyFee_ends h hm hnf tx).bind ?_
  rintro ⟨nFees', view⟩ ⟨hview, hr, hfee, hin⟩
  obtain ⟨M, us, happ, hus⟩ := applyTx_of_checks hcheck hlen hin hfresh
  obtain ⟨s', hstep, hs'⟩ := connectTx_spec blockundo i hview happ hval
  dsimp only
  rw [hstep]
  exact ⟨M, us, happ, hs', hr, by rw [hfee, hus]⟩

/-- The loop refines `connectAll`: from a view of coins in the money range
it never overflows, and when it gets through the block its view is the map
`connectAll` reaches and `nFees` the sum of the fees. -/
theorem connectBlockTxs_ends : ∀ (l : List (CTransaction × Nat)) {nFees : Int} {blockundo : CBlockUndo}
    {s : CoinsStack} {m : CoinsMap}, s.Represents m → (∀ o c, m o = some c → MoneyRange c.out.nValue) →
    MoneyRange nFees →
    (∀ e ∈ l, CheckTransaction e.1 = .ok () ∧ e.1.vout.length ≤ MAX_SIZE ∧
      ∀ p ∈ txOutputs e.1 nHeight, m p.1 = none) →
    (l.map fun e => e.1.GetHash).Nodup →
    Ends NotOverflow (fun r => ∃ M uss, connectAll nHeight m (l.map Prod.fst) = some (M, uss) ∧
      r.2.2.Represents M ∧ (∀ o c, M o = some c → MoneyRange c.out.nValue) ∧ MoneyRange r.1 ∧
      r.1 = nFees + (List.zipWith txFee (l.map Prod.fst) uss).sum)
      (l.foldlM (connectBlockTx nHeight) (nFees, blockundo, s))
  | [], nFees, blockundo, s, m, h, hm, hnf, _, _ => ⟨m, [], rfl, h, hm, hnf, by simp⟩
  | (tx, i) :: l, nFees, blockundo, s, m, h, hm, hnf, hl, hnd => by
    obtain ⟨hcheck, hlen, hfresh⟩ := hl (tx, i) List.mem_cons_self
    rw [List.map_cons, List.nodup_cons] at hnd
    rw [List.foldlM_cons]
    refine (connectBlockTx_ends h hm hnf blockundo i hcheck hlen hfresh).bind ?_
    rintro ⟨nFees', blockundo', s'⟩ ⟨M₁, us, happ, hs', hr, hfee⟩
    have hm₁ := applyTx_moneyRange happ hm ((CheckTransaction_spec tx).of_ok hcheck).1
    -- the later transactions' outputs carry other hashes, so they still find no coin
    have hl' : ∀ e ∈ l, CheckTransaction e.1 = .ok () ∧ e.1.vout.length ≤ MAX_SIZE ∧
        ∀ p ∈ txOutputs e.1 nHeight, M₁ p.1 = none := by
      intro e he
      obtain ⟨hc, hlen', hfr⟩ := hl e (List.mem_cons_of_mem _ he)
      refine ⟨hc, hlen', fun p hp => ?_⟩
      have hkey : p.1 ∉ (txOutputs tx nHeight).map Prod.fst := by
        intro hmem
        obtain ⟨q, hq, hqp⟩ := List.mem_map.mp hmem
        apply hnd.1
        refine List.mem_map.mpr ⟨e, he, ?_⟩
        rw [← hash_of_mem_txOutputs hp, ← hqp, hash_of_mem_txOutputs hq]
      rcases applyTx_apply_of_not_mem happ hkey with hnone | heq
      · exact hnone
      · rw [heq]
        exact hfr p hp
    refine (connectBlockTxs_ends l hs' hm₁ hr hl' hnd.2).mono ?_
    rintro r ⟨M, uss, hc, hsM, hmM, hrM, hfees⟩
    refine ⟨M, us :: uss, ?_, hsM, hmM, hrM, ?_⟩
    · simp [connectAll, happ, hc]
    · rw [hfees, hfee, List.map_cons, List.zipWith_cons_cons, List.sum_cons]
      ring

end Loop

theorem checkBIP30Output_ends {s : CoinsStack} {m : CoinsMap} (h : s.Represents m) (hash : BitVec 256) (o : Nat) :
    Ends NotOverflow (fun s' => s'.Represents m ∧ m ⟨hash, UInt32.ofNat o⟩ = none) (checkBIP30Output hash s o) := by
  obtain ⟨s₁, hhave, hs₁, -⟩ := CoinsStack.HaveCoin_spec h ⟨hash, UInt32.ofNat o⟩
  unfold checkBIP30Output
  rw [hhave]
  cases hc : m ⟨hash, UInt32.ofNat o⟩ with
  | none => simp [hs₁]
  | some c =>
    simp
    decide

/-- The BIP30 check passes only if no output of the block lands on a coin. -/
theorem checkBIP30_ends {s : CoinsStack} {m : CoinsMap} (h : s.Represents m) (block : CBlock) (nHeight : Nat) :
    Ends NotOverflow (fun s' => s'.Represents m ∧ ∀ tx ∈ block.vtx, ∀ p ∈ txOutputs tx nHeight, m p.1 = none)
      (checkBIP30 block s) := by
  have hloop := Ends.foldlM_forall (Q := NotOverflow) (P := fun s' : CoinsStack => s'.Represents m)
    (R := fun tx : CTransaction => ∀ k ∈ List.range tx.vout.length, m ⟨tx.GetHash, UInt32.ofNat k⟩ = none)
    (fun s' tx hs' => Ends.foldlM_forall (fun s'' k hs'' => checkBIP30Output_ends hs'' tx.GetHash k)
      (List.range tx.vout.length) s' hs') block.vtx s h
  refine hloop.mono fun s' ⟨hs', hall⟩ => ⟨hs', fun tx htx p hp => ?_⟩
  obtain ⟨e, he, rfl⟩ := List.mem_map.mp hp
  exact hall tx htx e.2 (List.mem_range.mpr (List.snd_lt_of_mem_zipIdx (List.mem_filter.mp he).1))

theorem MoneyRange_GetBlockSubsidy (nHeight nSubsidyHalvingInterval : Nat) :
    MoneyRange (GetBlockSubsidy nHeight nSubsidyHalvingInterval) := by
  obtain ⟨h₀, h₁⟩ := GetBlockSubsidy_range nHeight nSubsidyHalvingInterval
  rw [MoneyRange_iff, MAX_MONEY]
  rw [COIN] at h₁ ⊢
  omega

/-- `ConnectBlock` never overflows, from a view of coins in the money range
and a block whose transactions pass `CheckTransaction`, carry distinct
hashes and add no coin where one is. When it gets through the block, its
view is the map `connectAll` reaches, with coins in the money range, and the
first transaction pays at most the fees and the subsidy. -/
theorem ConnectBlock_ends {s : CoinsStack} {m : CoinsMap} (h : s.Represents m)
    (hm : ∀ o c, m o = some c → MoneyRange c.out.nValue) {block : CBlock} {nHeight nSubsidyHalvingInterval : Nat}
    {fEnforceBIP30 : Bool} (hcheck : ∀ tx ∈ block.vtx, CheckTransaction tx = .ok ())
    (hlen : ∀ tx ∈ block.vtx, tx.vout.length ≤ MAX_SIZE) (hnd : (block.vtx.map CTransaction.GetHash).Nodup)
    (hbip30 : fEnforceBIP30 = true ∨ ∀ tx ∈ block.vtx, ∀ p ∈ txOutputs tx nHeight, m p.1 = none) :
    Ends NotOverflow (fun r => ∃ M uss, connectAll nHeight m block.vtx = some (M, uss) ∧ r.2.Represents M ∧
      (∀ o c, M o = some c → MoneyRange c.out.nValue) ∧ 0 ≤ (List.zipWith txFee block.vtx uss).sum ∧
      ∀ tx ∈ block.vtx.head?,
        valueOut tx ≤ (List.zipWith txFee block.vtx uss).sum + GetBlockSubsidy nHeight nSubsidyHalvingInterval)
      (ConnectBlock block nHeight nSubsidyHalvingInterval fEnforceBIP30 s) := by
  -- the loop starts from a view that answers as `m`, with every output's outpoint free
  have hstart : Ends NotOverflow
      (fun s₁ => s₁.Represents m ∧ ∀ tx ∈ block.vtx, ∀ p ∈ txOutputs tx nHeight, m p.1 = none)
      (if fEnforceBIP30 then checkBIP30 block s else pure s) := by
    cases hf : fEnforceBIP30
    · simp only [Bool.false_eq_true, if_false, pure_eq_ok, ends_ok]
      exact ⟨h, hbip30.resolve_left (by simp [hf])⟩
    · simp only [if_true]
      exact checkBIP30_ends h block nHeight
  unfold ConnectBlock
  refine hstart.bind ?_
  rintro s₁ ⟨hs₁, hfresh⟩
  have hl : ∀ e ∈ block.vtx.zipIdx, CheckTransaction e.1 = .ok () ∧ e.1.vout.length ≤ MAX_SIZE ∧
      ∀ p ∈ txOutputs e.1 nHeight, m p.1 = none := fun e he => by
    have htx := List.fst_mem_of_mem_zipIdx he
    exact ⟨hcheck _ htx, hlen _ htx, hfresh _ htx⟩
  have hnd' : (block.vtx.zipIdx.map fun e => e.1.GetHash).Nodup := by
    have hmap : (block.vtx.zipIdx.map fun e => e.1.GetHash) = (block.vtx.zipIdx.map Prod.fst).map CTransaction.GetHash := by
      rw [List.map_map]
      rfl
    rw [hmap, List.zipIdx_map_fst]
    exact hnd
  refine (connectBlockTxs_ends block.vtx.zipIdx hs₁ hm (by decide) hl hnd').bind ?_
  rintro ⟨nFees, blockundo, view⟩ ⟨M, uss, hc, hview, hmM, hnf, hfees⟩
  dsimp only at hview hnf hfees
  rw [List.zipIdx_map_fst] at hc hfees
  rw [zero_add] at hfees
  subst hfees
  simp only [int64Result_add hnf (MoneyRange_GetBlockSubsidy nHeight nSubsidyHalvingInterval), pure_eq_ok, ok_bind]
  cases hvtx : block.vtx with
  | nil =>
    simp
    decide
  | cons tx₀ rest =>
    rw [hvtx] at hc hnf
    obtain ⟨-, -, hget, -⟩ := (CheckTransaction_spec tx₀).of_ok (hcheck tx₀ (by simp [hvtx]))
    simp only [hget, ok_bind]
    by_cases hpay : valueOut tx₀ > (List.zipWith txFee (tx₀ :: rest) uss).sum +
        GetBlockSubsidy nHeight nSubsidyHalvingInterval
    · simp [hpay]
      decide
    · simp only [hpay, if_false, ends_ok]
      exact ⟨M, uss, hc, hview, hmM, (MoneyRange_iff.mp hnf).1, by simpa using hpay⟩

/-! ## No value beyond the subsidy -/

/-- The outpoints of the outputs of a block's transactions. -/
def blockOutpoints (txs : List CTransaction) (nHeight : Nat) : List COutPoint :=
  txs.flatMap fun tx => (txOutputs tx nHeight).map Prod.fst

/-- With at most the first transaction a coinbase, the coinbases pay what the
first one pays, or nothing. -/
theorem coinbases_value_le {tx₀ : CTransaction} {rest : List CTransaction} {bound : Int}
    (hcb : ∀ tx ∈ rest, tx.IsCoinBase = false) (hpay : valueOut tx₀ ≤ bound) (hbound : 0 ≤ bound) :
    (((tx₀ :: rest).filter CTransaction.IsCoinBase).map valueOut).sum ≤ bound := by
  have hrest : rest.filter CTransaction.IsCoinBase = [] := List.filter_eq_nil_iff.mpr fun tx htx => by
    simp [hcb tx htx]
  rw [List.filter_cons, hrest]
  split <;> simpa

/-- A block of one coinbase at hash 1, paying the subsidy of height 1 to `OP_TRUE`. -/
def coinbaseOnly : CBlock := ⟨[⟨[⟨⟨0, NULL_INDEX⟩⟩], [⟨50 * COIN, [0x51]⟩], 1⟩]⟩

/-- Two coinbases at hashes 1 and 2, each paying the subsidy of height 1 to
`OP_TRUE`. -/
def twoCoinbasePayouts : CBlock :=
  ⟨[⟨[⟨⟨0, NULL_INDEX⟩⟩], [⟨50 * COIN, [0x51]⟩], 1⟩, ⟨[⟨⟨0, NULL_INDEX⟩⟩], [⟨50 * COIN, [0x51]⟩], 2⟩]⟩

end Palladium.Validation
