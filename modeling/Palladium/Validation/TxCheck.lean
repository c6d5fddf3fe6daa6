import Palladium.Validation.Connect
import Palladium.Consensus.Consensus
import Palladium.Lib.ExceptSpec

/-!
# The amount checks of a transaction

`CheckTransaction` (`consensus/tx_check.cpp`) bounds each output amount and
their running total by `MAX_MONEY`. `Consensus::CheckTxInputs`
(`consensus/tx_verify.cpp`) requires the inputs to be coins of the view,
sums their amounts under the same bound and returns the fee. `CAmount` is
`int64_t`: its sums are exact here, on `Int`, and a result outside
`int64_t`, undefined behaviour in C++, is the error `int64Overflow`.

Each running sum is checked only after the addition, so it stays within
`int64_t` only because both operands are already in the money range. From
a view whose coins are in that range no check ends in `int64Overflow`, and
when the checks pass they return the sums the amounts add up to.
-/

namespace Palladium.Coins

open ExceptSpec

set_option autoImplicit false

/-! ## Amounts -/

/-- `MoneyRange`. -/
def MoneyRange (nValue : Int) : Bool := 0 ≤ nValue && nValue ≤ MAX_MONEY

/-- The error standing for a signed overflow, which C++ leaves undefined. -/
def int64Overflow : String := "signed integer overflow"

/-- An `int64_t` operation whose exact result is `r`. -/
def int64Result (r : Int) : Except String Int :=
  if -2 ^ 63 ≤ r ∧ r < 2 ^ 63 then pure r else throw int64Overflow

/-- Any error but the overflow: a rejection or a failed assertion. -/
def NotOverflow (e : String) : Prop := e ≠ int64Overflow

instance : DecidablePred NotOverflow := fun e => inferInstanceAs (Decidable (e ≠ int64Overflow))

/-- The sum of a transaction's output amounts. -/
def valueOut (tx : CTransaction) : Int := (tx.vout.map CTxOut.nValue).sum

/-- The amount a view holds at an outpoint, nothing where there is no coin. -/
def coinValue : Option Coin → Int
  | none => 0
  | some c => c.out.nValue

/-- The sum of the amounts a transaction's inputs spend from `m`. -/
def inValue (m : CoinsMap) (tx : CTransaction) : Int := (tx.vin.map fun txin => coinValue (m txin.prevout)).sum

/-- One output of `GetValueOut`. -/
def valueOutStep (nValueOut : Int) (tx_out : CTxOut) : Except String Int := do
  if !MoneyRange tx_out.nValue then throw "GetValueOut: value out of range"
  let nValueOut ← int64Result (nValueOut + tx_out.nValue)
  if !MoneyRange nValueOut then throw "GetValueOut: value out of range"
  pure nValueOut

/-- `CTransaction::GetValueOut`; its `runtime_error` is an error here. -/
def CTransaction.GetValueOut (tx : CTransaction) : Except String Int := do
  let nValueOut ← tx.vout.foldlM valueOutStep 0
  if !MoneyRange nValueOut then throw "assert(MoneyRange(nValueOut))"
  pure nValueOut

/-! ## Sums in the money range stay in `int64_t` -/

theorem MoneyRange_iff {a : Int} : MoneyRange a ↔ 0 ≤ a ∧ a ≤ MAX_MONEY := by
  simp [MoneyRange]

theorem int64Result_of_range {r : Int} (h : -2 ^ 63 ≤ r ∧ r < 2 ^ 63) : int64Result r = pure r := by
  rw [int64Result, if_pos h]

theorem int64Result_add {a b : Int} (ha : MoneyRange a) (hb : MoneyRange b) :
    int64Result (a + b) = pure (a + b) := by
  rw [MoneyRange_iff, MAX_MONEY, COIN] at ha hb
  exact int64Result_of_range (by omega)

theorem int64Result_sub {a b : Int} (ha : MoneyRange a) (hb : MoneyRange b) :
    int64Result (a - b) = pure (a - b) := by
  rw [MoneyRange_iff, MAX_MONEY, COIN] at ha hb
  exact int64Result_of_range (by omega)

theorem valueOutStep_ends {nValueOut : Int} (h : MoneyRange nValueOut) (tx_out : CTxOut) :
    Ends NotOverflow (fun r => MoneyRange r ∧ r = nValueOut + tx_out.nValue) (valueOutStep nValueOut tx_out) := by
  unfold valueOutStep
  cases hv : MoneyRange tx_out.nValue
  · simp
    decide
  · cases hs : MoneyRange (nValueOut + tx_out.nValue)
    · simp [int64Result_add h hv, hs]
      decide
    · simp [int64Result_add h hv, hs]

theorem valueOutStep_of_range {a : Int} {o : CTxOut} (ha : MoneyRange a) (ho : MoneyRange o.nValue)
    (hs : MoneyRange (a + o.nValue)) : valueOutStep a o = .ok (a + o.nValue) := by
  simp [valueOutStep, ho, int64Result_add ha ho, hs]

/-- `GetValueOut` never overflows, and what it returns is the outputs' sum. -/
theorem GetValueOut_ends (tx : CTransaction) :
    Ends NotOverflow (fun r => MoneyRange r ∧ r = valueOut tx) tx.GetValueOut := by
  -- the running sum is the sum of the outputs already read
  have hloop : ∀ (l : List CTxOut) (a : Int), MoneyRange a →
      Ends NotOverflow (fun r => MoneyRange r ∧ r = a + (l.map CTxOut.nValue).sum) (l.foldlM valueOutStep a) := by
    intro l
    induction l with
    | nil => intro a ha; exact ⟨ha, by simp⟩
    | cons o l ih =>
      intro a ha
      rw [List.foldlM_cons]
      refine (valueOutStep_ends ha o).bind fun r ⟨hr, hra⟩ => (ih r hr).mono fun r' ⟨hr', hr'a⟩ => ⟨hr', ?_⟩
      rw [hr'a, hra, List.map_cons, List.sum_cons, add_assoc]
  refine (hloop tx.vout 0 (by decide)).bind fun r ⟨hr, hra⟩ => ?_
  rw [zero_add] at hra
  subst hra
  simp [hr, valueOut]

end Palladium.Coins

namespace Palladium.Validation

open Palladium.Coins Palladium.Consensus ExceptSpec

set_option autoImplicit false

/-! ## The checks -/

/-- One output of `CheckTransaction`'s amount loop. -/
def checkTxOut (nValueOut : Int) (txout : CTxOut) : Except String Int := do
  if txout.nValue < 0 then throw "bad-txns-vout-negative"
  if txout.nValue > MAX_MONEY then throw "bad-txns-vout-toolarge"
  let nValueOut ← int64Result (nValueOut + txout.nValue)
  if !MoneyRange nValueOut then throw "bad-txns-txouttotal-toolarge"
  pure nValueOut

/-- `CheckTransaction`. The size limit and the coinbase's `scriptSig`
length read the serialization and the `scriptSig`, which `CTransaction`
does not model, and are left out. -/
def CheckTransaction (tx : CTransaction) : Except String Unit := do
  if tx.vin.isEmpty then throw "bad-txns-vin-empty"
  if tx.vout.isEmpty then throw "bad-txns-vout-empty"
  let _ ← tx.vout.foldlM checkTxOut 0
  if ¬(tx.vin.map CTxIn.prevout).Nodup then throw "bad-txns-inputs-duplicate"
  if !tx.IsCoinBase && tx.vin.any (·.prevout.IsNull) then throw "bad-txns-prevout-null"

/-- The loop of `HaveInputs`, which stops at the first input without a coin. -/
def haveInputsFrom : List CTxIn → CoinsStack → Except String (Bool × CoinsStack)
  | [], inputs => pure (true, inputs)
  | txin :: vin, inputs => do
    let (found, inputs) ← inputs.HaveCoin txin.prevout
    if !found then pure (false, inputs) else haveInputsFrom vin inputs

/-- `CCoinsViewCache::HaveInputs`; a coinbase has no inputs to look for. -/
def HaveInputs (inputs : CoinsStack) (tx : CTransaction) : Except String (Bool × CoinsStack) :=
  if !tx.IsCoinBase then haveInputsFrom tx.vin inputs else pure (true, inputs)

/-- One input of `CheckTxInputs`' loop: the running sum `nValueIn` and the view. -/
def checkTxIn (nSpendHeight : Nat) (acc : Int × CoinsStack) (txin : CTxIn) : Except String (Int × CoinsStack) := do
  let (coin, inputs) ← acc.2.AccessCoin txin.prevout
  if coin.IsSpent then throw "assert(!coin.IsSpent())"
  if coin.fCoinBase = true ∧ (nSpendHeight : Int) - coin.nHeight < COINBASE_MATURITY then
    throw "bad-txns-premature-spend-of-coinbase"
  let nValueIn ← int64Result (acc.1 + coin.out.nValue)
  if !MoneyRange coin.out.nValue || !MoneyRange nValueIn then throw "bad-txns-inputvalues-outofrange"
  pure (nValueIn, inputs)

/-- `Consensus::CheckTxInputs`: the fee, and the view after its reads. -/
def CheckTxInputs (tx : CTransaction) (inputs : CoinsStack) (nSpendHeight : Nat) :
    Except String (Int × CoinsStack) := do
  let (found, inputs) ← HaveInputs inputs tx
  if !found then throw "bad-txns-inputs-missingorspent"
  let (nValueIn, inputs) ← tx.vin.foldlM (checkTxIn nSpendHeight) (0, inputs)
  let value_out ← tx.GetValueOut
  if nValueIn < value_out then throw "bad-txns-in-belowout"
  let txfee_aux ← int64Result (nValueIn - value_out)
  if !MoneyRange txfee_aux then throw "bad-txns-fee-outofrange"
  pure (txfee_aux, inputs)

/-! ## What `CheckTransaction` guarantees -/

theorem checkTxOut_ends {nValueOut : Int} (h : MoneyRange nValueOut) (txout : CTxOut) :
    Ends NotOverflow (fun r => MoneyRange txout.nValue ∧ MoneyRange r ∧ r = nValueOut + txout.nValue)
      (checkTxOut nValueOut txout) := by
  unfold checkTxOut
  by_cases h₁ : txout.nValue < 0
  · simp [h₁]
    decide
  by_cases h₂ : txout.nValue > MAX_MONEY
  · simp [h₁, h₂]
    decide
  have hv : MoneyRange txout.nValue := MoneyRange_iff.mpr ⟨by omega, by omega⟩
  cases hs : MoneyRange (nValueOut + txout.nValue)
  · simp [h₁, h₂, int64Result_add h hv, hs]
    decide
  · simp [h₁, h₂, int64Result_add h hv, hs, hv]

/-- The amount loop of `CheckTransaction` accepts what `GetValueOut`'s accepts:
outputs and running sums in the money range. -/
theorem checkTxOuts_ends : ∀ (l : List CTxOut) (a : Int), MoneyRange a →
    Ends NotOverflow (fun r => (∀ o ∈ l, MoneyRange o.nValue) ∧ MoneyRange r ∧
      r = a + (l.map CTxOut.nValue).sum ∧ l.foldlM valueOutStep a = .ok r) (l.foldlM checkTxOut a)
  | [], a, ha => ⟨by simp, ha, by simp, rfl⟩
  | o :: l, a, ha => by
    rw [List.foldlM_cons]
    refine (checkTxOut_ends ha o).bind fun r ⟨ho, hr, hra⟩ => (checkTxOuts_ends l r hr).mono ?_
    rintro r' ⟨hl, hr', hr'a, hfold⟩
    subst hra
    refine ⟨List.forall_mem_cons.mpr ⟨ho, hl⟩, hr', ?_, ?_⟩
    · rw [hr'a, List.map_cons, List.sum_cons, add_assoc]
    · rw [valueOutStep_of_range ha ho hr]
      exact hfold

/-- `CheckTransaction` never overflows; when it passes, every output amount
and their sum are in the money range, `GetValueOut` returns that sum, and the
inputs spend distinct outpoints. -/
theorem CheckTransaction_spec (tx : CTransaction) :
    Ends NotOverflow (fun _ => (∀ o ∈ tx.vout, MoneyRange o.nValue) ∧ MoneyRange (valueOut tx) ∧
      tx.GetValueOut = .ok (valueOut tx) ∧ (tx.vin.map CTxIn.prevout).Nodup) (CheckTransaction tx) := by
  unfold CheckTransaction
  by_cases h₁ : tx.vin.isEmpty
  · simp [h₁]
    decide
  by_cases h₂ : tx.vout.isEmpty
  · simp [h₁, h₂]
    decide
  simp only [h₁, h₂, Bool.false_eq_true, if_false]
  refine (checkTxOuts_ends tx.vout 0 (by decide)).bind fun r ⟨hout, hr, hra, hfold⟩ => ?_
  rw [zero_add] at hra
  subst hra
  have hget : tx.GetValueOut = .ok (valueOut tx) := by
    simp [CTransaction.GetValueOut, hfold, hr, valueOut]
  by_cases h₃ : (tx.vin.map CTxIn.prevout).Nodup
  · by_cases h₄ : (!tx.IsCoinBase && tx.vin.any (·.prevout.IsNull)) = true
    · simp [h₃, h₄]
      decide
    · simp only [h₃, h₄, not_true_eq_false, if_false, Bool.false_eq_true]
      exact ⟨hout, hr, hget, trivial⟩
  · simp [h₃]
    decide

/-! ## What `CheckTxInputs` guarantees -/

variable {s : CoinsStack} {m : CoinsMap}

theorem haveInputsFrom_spec : ∀ (vin : List CTxIn) {s : CoinsStack}, s.Represents m →
    ∃ s', haveInputsFrom vin s = .ok (vin.all fun txin => (m txin.prevout).isSome, s') ∧ s'.Represents m
  | [], s, h => ⟨s, rfl, h⟩
  | txin :: vin, s, h => by
    obtain ⟨s₁, hhave, hs₁, -⟩ := CoinsStack.HaveCoin_spec h txin.prevout
    cases hfound : (m txin.prevout).isSome with
    | false => exact ⟨s₁, by simp [haveInputsFrom, hhave, hfound], hs₁⟩
    | true =>
      obtain ⟨s', hrest, hs'⟩ := haveInputsFrom_spec vin hs₁
      exact ⟨s', by simp [haveInputsFrom, hhave, hfound, hrest], hs'⟩

theorem HaveInputs_spec (h : s.Represents m) (tx : CTransaction) :
    ∃ s', HaveInputs s tx = .ok (tx.IsCoinBase || tx.vin.all fun txin => (m txin.prevout).isSome, s') ∧
      s'.Represents m := by
  unfold HaveInputs
  cases hcb : tx.IsCoinBase
  · simpa using haveInputsFrom_spec tx.vin h
  · exact ⟨s, by simp, h⟩

section Inputs

variable (hm : ∀ o c, m o = some c → MoneyRange c.out.nValue) (nSpendHeight : Nat)
include hm

/-- An input adds the amount of the coin it spends; a missing coin is the
spent `coinEmpty` that `AccessCoin` returns, and fails the assertion. -/
theorem checkTxIn_ends {acc : Int} (h : s.Represents m) (hacc : MoneyRange acc) (txin : CTxIn) :
    Ends NotOverflow (fun r => r.2.Represents m ∧ MoneyRange r.1 ∧ r.1 = acc + coinValue (m txin.prevout) ∧
      (m txin.prevout).isSome) (checkTxIn nSpendHeight (acc, s) txin) := by
  obtain ⟨s₁, haccess, hs₁, -⟩ := CoinsStack.AccessCoin_spec h txin.prevout
  unfold checkTxIn
  rw [haccess]
  cases hc : m txin.prevout with
  | none =>
    simp [coinEmpty, Coin.IsSpent, CTxOut.IsNull]
    decide
  | some c =>
    have hspent : c.IsSpent = false := h.unspent _ _ hc
    have hv : MoneyRange c.out.nValue := hm _ _ hc
    by_cases hmature : c.fCoinBase = true ∧ (nSpendHeight : Int) - c.nHeight < COINBASE_MATURITY
    · simp [hspent, hmature]
      decide
    · cases hs : MoneyRange (acc + c.out.nValue)
      · simp [hspent, hmature, int64Result_add hacc hv, hs]
        decide
      · simp [hspent, hmature, int64Result_add hacc hv, hs, hv, hs₁, coinValue]

theorem checkTxIns_ends : ∀ (vin : List CTxIn) {s : CoinsStack} {acc : Int}, s.Represents m → MoneyRange acc →
    Ends NotOverflow (fun r => r.2.Represents m ∧ MoneyRange r.1 ∧
      r.1 = acc + (vin.map fun txin => coinValue (m txin.prevout)).sum ∧ ∀ txin ∈ vin, (m txin.prevout).isSome)
      (vin.foldlM (checkTxIn nSpendHeight) (acc, s))
  | [], s, acc, h, hacc => ⟨h, hacc, by simp, by simp⟩
  | txin :: vin, s, acc, h, hacc => by
    rw [List.foldlM_cons]
    refine (checkTxIn_ends hm nSpendHeight h hacc txin).bind fun r ⟨hr, hr₁, hra, hin⟩ => ?_
    refine (checkTxIns_ends vin hr hr₁).mono fun r' ⟨hr', hr'₁, hr'a, hins⟩ => ⟨hr', hr'₁, ?_, ?_⟩
    · rw [hr'a, hra, List.map_cons, List.sum_cons, add_assoc]
    · exact List.forall_mem_cons.mpr ⟨hin, hins⟩

/-- `CheckTxInputs` never overflows, from a view of coins in the money range;
when it passes, every input spends a coin of the view and the fee it returns
is the inputs' amounts less the outputs'. -/
theorem CheckTxInputs_ends (h : s.Represents m) (tx : CTransaction) :
    Ends NotOverflow (fun r => r.2.Represents m ∧ MoneyRange r.1 ∧ r.1 = inValue m tx - valueOut tx ∧
      ∀ txin ∈ tx.vin, (m txin.prevout).isSome) (CheckTxInputs tx s nSpendHeight) := by
  obtain ⟨s₁, hhave, hs₁⟩ := HaveInputs_spec h tx
  unfold CheckTxInputs
  rw [hhave]
  cases hfound : (tx.IsCoinBase || tx.vin.all fun txin => (m txin.prevout).isSome)
  · simp
    decide
  simp only [ok_bind, Bool.not_true, Bool.false_eq_true, if_false]
  refine (checkTxIns_ends hm nSpendHeight tx.vin hs₁ (by decide)).bind ?_
  rintro ⟨nValueIn, inputs⟩ ⟨hr, hr₁, hra, hins⟩
  refine (GetValueOut_ends tx).bind ?_
  rintro value_out ⟨hout, rfl⟩
  rw [zero_add] at hra
  by_cases hlt : nValueIn < valueOut tx
  · simp [hlt]
    decide
  · cases hfee : MoneyRange (nValueIn - valueOut tx)
    · simp [hlt, int64Result_sub hr₁ hout, hfee]
      decide
    · simp only at hra hr hr₁
      simp [hlt, int64Result_sub hr₁ hout, hfee, hr, inValue]
      exact ⟨hra, hins⟩

end Inputs

end Palladium.Validation
