import Palladium.Serialize.VarInt
import Mathlib.Tactic.Ring
import Mathlib.Tactic.NormNum

/-!
# Compressed transaction outputs

`compressor.cpp` and `compressor.h`: the amount bijection `CompressAmount`,
the script codec with its six special cases, and `TxOutCompression`, the
format in which the UTXO set and the undo data store outputs. `uint64_t`
arithmetic is kept on `Nat` with the wrap-around written where a value can
pass `2^64`. The elliptic-curve operations of `CPubKey` come from
libsecp256k1 and are parameters (`Secp256k1`). The main results are the
round trips of each codec on the values the node stores.
-/

namespace Palladium.Coins

open ByteStream Palladium.Serialize

set_option autoImplicit false

/-! ## Amounts -/

/-- `COIN`. -/
def COIN : Int := 100000000

/-- `MAX_MONEY`. -/
def MAX_MONEY : Int := 21000000 * COIN

/-- The loop of `CompressAmount`: divide out trailing decimal zeros, at most
nine of them. -/
def compressAmountLoop (n e : Nat) : Nat × Nat :=
  if n % 10 = 0 ∧ e < 9 then compressAmountLoop (n / 10) (e + 1) else (n, e)
termination_by 9 - e

/-- `CompressAmount`; the assertion on the last digit is the error. -/
def CompressAmount (n : Nat) : Except String Nat :=
  if n = 0 then .ok 0
  else
    let (n, e) := compressAmountLoop n 0
    if e < 9 then
      let d := n % 10
      if ¬(d ≥ 1 ∧ d ≤ 9) then .error "assert(d >= 1 && d <= 9)"
      else
        let n := n / 10
        .ok ((1 + (n * 9 + d - 1) * 10 + e) % 2 ^ 64)
    else .ok ((1 + (n - 1) * 10 + 9) % 2 ^ 64)

/-- The loop `while (e) { n *= 10; e--; }` of `DecompressAmount`. -/
def decompressAmountLoop : Nat → Nat → Nat
  | n, 0 => n
  | n, e + 1 => decompressAmountLoop (n * 10 % 2 ^ 64) e

/-- `DecompressAmount`. -/
def DecompressAmount (x : Nat) : Nat :=
  if x = 0 then 0
  else
    let x := x - 1
    let e := x % 10
    let x := x / 10
    let n := if e < 9 then
        let d := x % 9 + 1
        let x := x / 9
        x * 10 + d
      else x + 1
    decompressAmountLoop n e

/-- The loop divides `n` into `m * 10^e` with `m` not a multiple of ten
unless nine zeros were taken. The induction follows the loop. -/
theorem compressAmountLoop_spec (n e : Nat) (hn : n ≠ 0) (he : e ≤ 9) :
    ∃ m e', compressAmountLoop n e = (m, e') ∧ n * 10 ^ e = m * 10 ^ e' ∧ m ≠ 0 ∧ e' ≤ 9 ∧
      (e' < 9 → m % 10 ≠ 0) := by
  induction n, e using compressAmountLoop.induct with
  | case1 n e h ih =>
    rw [compressAmountLoop, if_pos h]
    obtain ⟨m, e', hrun, heq, hm, he', hmod⟩ := ih (by omega) (by omega)
    refine ⟨m, e', hrun, ?_, hm, he', hmod⟩
    rw [← heq, Nat.pow_succ]
    have : n = n / 10 * 10 := (Nat.div_mul_cancel (Nat.dvd_of_mod_eq_zero h.1)).symm
    calc n * 10 ^ e = n / 10 * 10 * 10 ^ e := by rw [← this]
      _ = n / 10 * (10 ^ e * 10) := by ring
  | case2 n e h =>
    rw [compressAmountLoop, if_neg h]
    exact ⟨n, e, rfl, rfl, hn, he, fun he' => fun h0 => h ⟨h0, he'⟩⟩

theorem decompressAmountLoop_eq : ∀ (e n : Nat), n * 10 ^ e < 2 ^ 64 → decompressAmountLoop n e = n * 10 ^ e
  | 0, n, _ => by simp [decompressAmountLoop]
  | e + 1, n, h => by
    have hstep : n * 10 < 2 ^ 64 := by
      have : n * 10 ≤ n * 10 ^ (e + 1) := Nat.mul_le_mul_left n (by
        calc 10 = 10 ^ 1 := rfl
          _ ≤ 10 ^ (e + 1) := Nat.pow_le_pow_right (by decide) (by omega))
      omega
    rw [decompressAmountLoop, Nat.mod_eq_of_lt hstep, decompressAmountLoop_eq e (n * 10) (by
      rw [Nat.mul_assoc, ← Nat.pow_succ']; exact h), Nat.mul_assoc, ← Nat.pow_succ']

/-- `DecompressAmount` inverts `CompressAmount` on every amount up to
`MAX_MONEY`, and the compressed value fits in 64 bits. -/
theorem DecompressAmount_CompressAmount {n : Nat} (hn : (n : Int) ≤ MAX_MONEY) :
    ∃ c, CompressAmount n = .ok c ∧ c < 2 ^ 64 ∧ DecompressAmount c = n := by
  have hmax : n ≤ 2100000000000000 := by simp [MAX_MONEY, COIN] at hn; omega
  by_cases h0 : n = 0
  · exact ⟨0, by simp [CompressAmount, h0], by norm_num, by simp [DecompressAmount, h0]⟩
  obtain ⟨m, e, hrun, heq, hm, he, hmod⟩ := compressAmountLoop_spec n 0 h0 (by omega)
  simp only [pow_zero, mul_one] at heq
  -- `m * 10^e` is `n`, so `m` and every intermediate product stay below `2^64`
  have hpow : 1 ≤ 10 ^ e := Nat.one_le_pow _ _ (by decide)
  have hm_le : m ≤ n := by
    calc m = m * 1 := (mul_one m).symm
      _ ≤ m * 10 ^ e := Nat.mul_le_mul_left m hpow
      _ = n := heq.symm
  rcases Nat.lt_or_ge e 9 with he9 | he9
  · have hd := hmod he9
    refine ⟨1 + (m / 10 * 9 + m % 10 - 1) * 10 + e, ?_, by omega, ?_⟩
    · simp only [CompressAmount, h0, if_false, hrun, if_pos he9]
      rw [if_neg (by omega), Nat.mod_eq_of_lt (by omega)]
    · have hx : (1 + (m / 10 * 9 + m % 10 - 1) * 10 + e - 1) % 10 = e := by omega
      have hx' : (1 + (m / 10 * 9 + m % 10 - 1) * 10 + e - 1) / 10 = m / 10 * 9 + m % 10 - 1 := by omega
      have hd' : (m / 10 * 9 + m % 10 - 1) % 9 + 1 = m % 10 := by omega
      have hq : (m / 10 * 9 + m % 10 - 1) / 9 = m / 10 := by omega
      simp only [DecompressAmount, if_neg (by omega : 1 + (m / 10 * 9 + m % 10 - 1) * 10 + e ≠ 0),
        hx, hx', if_pos he9, hd', hq]
      rw [show m / 10 * 10 + m % 10 = m by omega, decompressAmountLoop_eq e m (by omega), heq]
  · have he9' : e = 9 := by omega
    subst he9'
    refine ⟨1 + (m - 1) * 10 + 9, ?_, by omega, ?_⟩
    · simp only [CompressAmount, h0, if_false, hrun, lt_irrefl, if_false]
      rw [Nat.mod_eq_of_lt (by omega)]
    · have hx : (1 + (m - 1) * 10 + 9 - 1) % 10 = 9 := by omega
      have hx' : (1 + (m - 1) * 10 + 9 - 1) / 10 = m - 1 := by omega
      simp only [DecompressAmount, if_neg (by omega : 1 + (m - 1) * 10 + 9 ≠ 0), hx, hx', lt_irrefl,
        if_false]
      rw [show m - 1 + 1 = m by omega, decompressAmountLoop_eq 9 m (by omega), heq]

/-! ### The bijection in unbounded arithmetic

`compressedValue` and `decompressedValue` are the two functions as their
comment in `compressor.cpp` states them, with no 64-bit wrap-around. They are
inverse to each other on all numbers, and the code computes them whenever the
result fits in 64 bits. -/

/-- `1 + 10*(9*n + d - 1) + e`, or `1 + 10*(n - 1) + 9` after nine zeros. -/
def compressedValue (n : Nat) : Nat :=
  if n = 0 then 0
  else
    let (m, e) := compressAmountLoop n 0
    if e < 9 then 1 + (m / 10 * 9 + m % 10 - 1) * 10 + e else 1 + (m - 1) * 10 + 9

/-- The amount `x` stands for: `DecompressAmount` with an unbounded loop. -/
def decompressedValue (x : Nat) : Nat :=
  if x = 0 then 0
  else
    let x := x - 1
    let e := x % 10
    let x := x / 10
    let n := if e < 9 then x / 9 * 10 + (x % 9 + 1) else x + 1
    n * 10 ^ e

/-- The loop takes exactly the zeros of `m * 10^k` when `m` ends in another
digit or the nine are used up. -/
theorem compressAmountLoop_mul_pow : ∀ (k e m : Nat), m ≠ 0 → e + k ≤ 9 →
    (e + k < 9 → m % 10 ≠ 0) → compressAmountLoop (m * 10 ^ k) e = (m, e + k)
  | 0, e, m, _, _, hlast => by
    rw [compressAmountLoop, if_neg (fun h => by have := hlast (by omega); simp_all), pow_zero,
      Nat.mul_one, Nat.add_zero]
  | k + 1, e, m, hm, hle, hlast => by
    have hzero : m * 10 ^ (k + 1) % 10 = 0 := by
      rw [pow_succ, ← Nat.mul_assoc, Nat.mul_mod_left]
    rw [compressAmountLoop, if_pos ⟨hzero, by omega⟩,
      show m * 10 ^ (k + 1) / 10 = m * 10 ^ k by rw [pow_succ, ← Nat.mul_assoc, Nat.mul_div_cancel _ (by norm_num)],
      compressAmountLoop_mul_pow k (e + 1) m hm (by omega) (fun h => hlast (by omega))]
    congr 1
    omega

theorem decompressedValue_compressedValue (n : Nat) : decompressedValue (compressedValue n) = n := by
  by_cases h0 : n = 0
  · simp [compressedValue, decompressedValue, h0]
  obtain ⟨m, e, hrun, heq, hm, he, hmod⟩ := compressAmountLoop_spec n 0 h0 (by omega)
  simp only [pow_zero, mul_one] at heq
  rcases Nat.lt_or_ge e 9 with he9 | he9
  · -- a last digit `d = m % 10` in `1..9` is kept beside the nine-fold quotient
    have hd := hmod he9
    have hx : (1 + (m / 10 * 9 + m % 10 - 1) * 10 + e - 1) % 10 = e := by omega
    have hx' : (1 + (m / 10 * 9 + m % 10 - 1) * 10 + e - 1) / 10 = m / 10 * 9 + m % 10 - 1 := by
      omega
    have hd' : (m / 10 * 9 + m % 10 - 1) % 9 + 1 = m % 10 := by omega
    have hq : (m / 10 * 9 + m % 10 - 1) / 9 = m / 10 := by omega
    simp only [compressedValue, h0, if_false, hrun, if_pos he9, decompressedValue,
      if_neg (by omega : 1 + (m / 10 * 9 + m % 10 - 1) * 10 + e ≠ 0), hx, hx', hd', hq]
    rw [show m / 10 * 10 + m % 10 = m by omega, heq]
  · -- nine zeros taken: `m` itself, less one
    obtain rfl : e = 9 := by omega
    have hx : (1 + (m - 1) * 10 + 9 - 1) % 10 = 9 := by omega
    have hx' : (1 + (m - 1) * 10 + 9 - 1) / 10 = m - 1 := by omega
    simp only [compressedValue, h0, if_false, hrun, lt_irrefl, decompressedValue,
      if_neg (by omega : 1 + (m - 1) * 10 + 9 ≠ 0), hx, hx']
    rw [show m - 1 + 1 = m by omega, heq]

theorem compressedValue_decompressedValue (x : Nat) : compressedValue (decompressedValue x) = x := by
  by_cases h0 : x = 0
  · simp [compressedValue, decompressedValue, h0]
  -- `x - 1` is `10 * q + e`
  obtain ⟨q, e, rfl, he10⟩ : ∃ q e, x = 1 + q * 10 + e ∧ e < 10 :=
    ⟨(x - 1) / 10, (x - 1) % 10, by omega, Nat.mod_lt _ (by norm_num)⟩
  have h1 : (1 + q * 10 + e - 1) % 10 = e := by omega
  have h2 : (1 + q * 10 + e - 1) / 10 = q := by omega
  rcases Nat.lt_or_ge e 9 with he9 | he9
  · -- the digit `q % 9 + 1` ends the number, so the loop takes exactly `e` zeros
    have hdv : decompressedValue (1 + q * 10 + e) = (q / 9 * 10 + (q % 9 + 1)) * 10 ^ e := by
      simp only [decompressedValue, if_neg h0, h1, h2, if_pos he9]
    have hrun := compressAmountLoop_mul_pow e 0 (q / 9 * 10 + (q % 9 + 1)) (by omega) (by omega)
      (fun _ => by omega)
    have hpos : (q / 9 * 10 + (q % 9 + 1)) * 10 ^ e ≠ 0 := Nat.mul_ne_zero (by omega) (by positivity)
    rw [hdv]
    simp only [compressedValue, if_neg hpos, hrun, Nat.zero_add, if_pos he9]
    omega
  · -- nine zeros: the loop stops at nine whatever `q + 1` ends in
    have he : e = 9 := by omega
    have hdv : decompressedValue (1 + q * 10 + e) = (q + 1) * 10 ^ e := by
      simp only [decompressedValue, if_neg h0, h1, h2, if_neg (by omega : ¬ e < 9)]
    have hrun := compressAmountLoop_mul_pow e 0 (q + 1) (by omega) (by omega) (fun h => by omega)
    have hpos : (q + 1) * 10 ^ e ≠ 0 := by positivity
    rw [hdv]
    simp only [compressedValue, if_neg hpos, hrun, Nat.zero_add, if_neg (by omega : ¬ e < 9)]
    omega

/-- `CompressAmount` computes `compressedValue` whenever it fits in 64 bits:
its assertion holds and nothing wraps. -/
theorem CompressAmount_eq_compressedValue {n : Nat} (h : compressedValue n < 2 ^ 64) :
    CompressAmount n = .ok (compressedValue n) := by
  by_cases h0 : n = 0
  · simp [CompressAmount, compressedValue, h0]
  obtain ⟨m, e, hrun, -, -, -, hmod⟩ := compressAmountLoop_spec n 0 h0 (by omega)
  rcases Nat.lt_or_ge e 9 with he9 | he9
  · have hd := hmod he9
    simp only [compressedValue, h0, if_false, hrun, if_pos he9] at h ⊢
    simp only [CompressAmount, h0, if_false, hrun, if_pos he9]
    rw [if_neg (by omega), Nat.mod_eq_of_lt h]
  · simp only [compressedValue, h0, if_false, hrun, if_neg (by omega : ¬ e < 9)] at h ⊢
    simp only [CompressAmount, h0, if_false, hrun, if_neg (by omega : ¬ e < 9)]
    rw [Nat.mod_eq_of_lt h]

/-- `DecompressAmount` computes `decompressedValue` whenever it fits in 64
bits. -/
theorem DecompressAmount_eq_decompressedValue {x : Nat} (h : decompressedValue x < 2 ^ 64) :
    DecompressAmount x = decompressedValue x := by
  by_cases h0 : x = 0
  · simp [DecompressAmount, decompressedValue, h0]
  simp only [decompressedValue, h0, if_false] at h ⊢
  simp only [DecompressAmount, h0, if_false]
  exact decompressAmountLoop_eq _ _ h

/-- The compressed form of an amount is at most about nine times it. -/
theorem compressedValue_le (n : Nat) : compressedValue n ≤ 9 * n + 90 := by
  by_cases h0 : n = 0
  · simp [compressedValue, h0]
  obtain ⟨m, e, hrun, heq, -, he, -⟩ := compressAmountLoop_spec n 0 h0 (by omega)
  simp only [pow_zero, mul_one] at heq
  have hm : m ≤ n := by
    calc m = m * 1 := (mul_one m).symm
      _ ≤ m * 10 ^ e := Nat.mul_le_mul_left m (Nat.one_le_pow _ _ (by decide))
      _ = n := heq.symm
  simp only [compressedValue, h0, if_false, hrun]
  split
  · omega
  · -- nine zeros were taken, so `m` is at most a tenth of `n`
    have h10 : m * 10 ≤ n := by
      rw [heq]
      exact Nat.mul_le_mul_left m (by
        calc 10 = 10 ^ 1 := rfl
          _ ≤ 10 ^ e := Nat.pow_le_pow_right (by decide) (by omega))
    omega

/-- Amount compression is a bijection onto its image, with no wrap-around:
every amount up to `MAX_MONEY` compresses without overflow to a value that
decompresses without overflow back to it; every 64-bit value whose decoded
amount fits in 64 bits decompresses to it and compresses back; and
`CompressAmount` is injective on `[0, MAX_MONEY]`. -/
theorem amount_compression_bijection :
    (∀ n : Nat, (n : Int) ≤ MAX_MONEY →
      compressedValue n < 2 ^ 64 ∧ CompressAmount n = .ok (compressedValue n) ∧
        decompressedValue (compressedValue n) = n ∧ DecompressAmount (compressedValue n) = n) ∧
    (∀ x : Nat, x < 2 ^ 64 → decompressedValue x < 2 ^ 64 →
      DecompressAmount x = decompressedValue x ∧ CompressAmount (DecompressAmount x) = .ok x) ∧
    (∀ n m : Nat, (n : Int) ≤ MAX_MONEY → (m : Int) ≤ MAX_MONEY →
      CompressAmount n = CompressAmount m → n = m) := by
  -- below `MAX_MONEY` both directions stay far from `2^64`
  have hfits : ∀ n : Nat, (n : Int) ≤ MAX_MONEY → compressedValue n < 2 ^ 64 := by
    intro n hn
    have : n ≤ 2100000000000000 := by simp [MAX_MONEY, COIN] at hn; omega
    have := compressedValue_le n
    omega
  refine ⟨fun n hn => ?_, fun x hx hdx => ?_, fun n m hn hm heq => ?_⟩
  · have hback := decompressedValue_compressedValue n
    have : n ≤ 2100000000000000 := by simp [MAX_MONEY, COIN] at hn; omega
    refine ⟨hfits n hn, CompressAmount_eq_compressedValue (hfits n hn), hback, ?_⟩
    rw [DecompressAmount_eq_decompressedValue (by omega), hback]
  · have hdec := DecompressAmount_eq_decompressedValue hdx
    refine ⟨hdec, ?_⟩
    rw [hdec, CompressAmount_eq_compressedValue (by rw [compressedValue_decompressedValue]; exact hx),
      compressedValue_decompressedValue]
  · rw [CompressAmount_eq_compressedValue (hfits n hn), CompressAmount_eq_compressedValue (hfits m hm)]
      at heq
    have := congrArg decompressedValue (Except.ok.inj heq)
    rwa [decompressedValue_compressedValue, decompressedValue_compressedValue] at this

/-- `DecompressAmount`'s loop wraps: `x = 16602069666338596452` encodes
`1844674407370955162 * 10`, which wraps to `4`, and `4` compresses to `31`. -/
theorem decompress_amount_wraps_counterexample :
    DecompressAmount 16602069666338596452 = 4 ∧ (4 : Int) ≤ MAX_MONEY ∧
      CompressAmount 4 = .ok 31 := by
  refine ⟨by decide, by decide, ?_⟩
  simp [CompressAmount, compressAmountLoop]

/-! ## Scripts -/

def OP_RETURN : UInt8 := 0x6a
def OP_DUP : UInt8 := 0x76
def OP_EQUAL : UInt8 := 0x87
def OP_EQUALVERIFY : UInt8 := 0x88
def OP_HASH160 : UInt8 := 0xa9
def OP_CHECKSIG : UInt8 := 0xac

/-- `MAX_SCRIPT_SIZE`. -/
def MAX_SCRIPT_SIZE : Nat := 10000

/-- `ScriptCompression::nSpecialScripts`. -/
def nSpecialScripts : Nat := 6

/-- The libsecp256k1 operations on public keys that the script codec calls. -/
structure Secp256k1 where
  /-- `CPubKey::IsFullyValid` of a serialized key. -/
  IsFullyValid : List UInt8 → Bool
  /-- `CPubKey::Decompress` of a 33-byte key: the 65-byte key, or failure. -/
  Decompress : List UInt8 → Option (List UInt8)

/-- What the codec assumes of libsecp256k1: a fully valid uncompressed key
is restored from its x-coordinate and the parity of its y-coordinate. -/
def Secp256k1.DecompressRestores (k : Secp256k1) : Prop :=
  ∀ pubkey : List UInt8, pubkey.length = 65 → pubkey[0]? = some 0x04 → k.IsFullyValid pubkey = true →
    k.Decompress ((0x02 ||| (pubkey.getD 64 0 &&& 0x01)) :: (pubkey.drop 1).take 32) = some pubkey

/-- `IsToKeyID`: a pay-to-public-key-hash script, and its hash. -/
def IsToKeyID (script : List UInt8) : Option (List UInt8) :=
  if script.length = 25 ∧ script[0]? = some OP_DUP ∧ script[1]? = some OP_HASH160 ∧
      script[2]? = some 20 ∧ script[23]? = some OP_EQUALVERIFY ∧ script[24]? = some OP_CHECKSIG then
    some ((script.drop 3).take 20)
  else none

/-- `IsToScriptID`: a pay-to-script-hash script, and its hash. -/
def IsToScriptID (script : List UInt8) : Option (List UInt8) :=
  if script.length = 23 ∧ script[0]? = some OP_HASH160 ∧ script[1]? = some 20 ∧
      script[22]? = some OP_EQUAL then
    some ((script.drop 2).take 20)
  else none

/-- `IsToPubKey`: a pay-to-public-key script, and its key; an uncompressed key
must be fully valid, since an invalid one could not be restored. -/
def IsToPubKey (k : Secp256k1) (script : List UInt8) : Option (List UInt8) :=
  if script.length = 35 ∧ script[0]? = some 33 ∧ script[34]? = some OP_CHECKSIG ∧
      (script[1]? = some 0x02 ∨ script[1]? = some 0x03) then
    some ((script.drop 1).take 33)
  else if script.length = 67 ∧ script[0]? = some 65 ∧ script[66]? = some OP_CHECKSIG ∧
      script[1]? = some 0x04 then
    if k.IsFullyValid ((script.drop 1).take 65) then some ((script.drop 1).take 65) else none
  else none

/-- `CompressScript`: the special encodings, tag byte first. -/
def CompressScript (k : Secp256k1) (script : List UInt8) : Option (List UInt8) :=
  match IsToKeyID script with
  | some hash => some (0x00 :: hash)
  | none =>
    match IsToScriptID script with
    | some hash => some (0x01 :: hash)
    | none =>
      match IsToPubKey k script with
      | some pubkey =>
        if pubkey[0]? = some 0x02 ∨ pubkey[0]? = some 0x03 then
          some (pubkey.getD 0 0 :: (pubkey.drop 1).take 32)
        else if pubkey[0]? = some 0x04 then
          some ((0x04 ||| (pubkey.getD 64 0 &&& 0x01)) :: (pubkey.drop 1).take 32)
        else none
      | none => none

/-- `GetSpecialScriptSize`. -/
def GetSpecialScriptSize (nSize : Nat) : Nat :=
  if nSize = 0 ∨ nSize = 1 then 20
  else if nSize = 2 ∨ nSize = 3 ∨ nSize = 4 ∨ nSize = 5 then 32
  else 0

/-- `DecompressScript`: whether it succeeded, and the script, left as it was
on failure; the assertion on the decompressed key's size is the error. -/
def DecompressScript (k : Secp256k1) (script : List UInt8) (nSize : Nat) (vin : List UInt8) :
    Except String (Bool × List UInt8) :=
  match nSize with
  | 0 => .ok (true, [OP_DUP, OP_HASH160, 20] ++ vin.take 20 ++ [OP_EQUALVERIFY, OP_CHECKSIG])
  | 1 => .ok (true, [OP_HASH160, 20] ++ vin.take 20 ++ [OP_EQUAL])
  | 2 | 3 => .ok (true, [33, UInt8.ofNat nSize] ++ vin.take 32 ++ [OP_CHECKSIG])
  | 4 | 5 =>
    match k.Decompress (UInt8.ofNat (nSize - 2) :: vin.take 32) with
    | none => .ok (false, script)
    | some pubkey =>
      if pubkey.length ≠ 65 then .error "assert(pubkey.size() == 65)"
      else .ok (true, [65] ++ pubkey ++ [OP_CHECKSIG])
  | _ => .ok (false, script)

/-- `ScriptCompression::Ser`: a special encoding, or the size plus six and
the raw bytes. -/
def ScriptCompression.Ser (k : Secp256k1) (script : List UInt8) : List UInt8 :=
  match CompressScript k script with
  | some compr => compr
  | none => WriteVarInt ((script.length + nSpecialScripts) % 2 ^ 32) ++ script

/-- `ScriptCompression::Unser` after the size is read, into `script`. -/
def ScriptCompression.unserSize (k : Secp256k1) (script : List UInt8) (nSize : Nat) :
    Reader (List UInt8) :=
  if nSize < nSpecialScripts then do
    let vch ← readBytes (GetSpecialScriptSize nSize)
    let r ← StateT.lift (DecompressScript k script nSize vch)
    pure r.2
  else
    let nSize := nSize - nSpecialScripts
    if nSize > MAX_SCRIPT_SIZE then do
      -- an overly long script is replaced with a short invalid one
      ignore nSize
      pure (script ++ [OP_RETURN])
    else readBytes nSize

/-- `ScriptCompression::Unser`, into `script`. -/
def ScriptCompression.Unser (k : Secp256k1) (script : List UInt8) : Reader (List UInt8) := do
  let nSize ← ReadVarInt 32
  ScriptCompression.unserSize k script nSize

/-! ## The script round trip -/

theorem WriteVarInt_small {n : Nat} (h : n ≤ 0x7F) : WriteVarInt n = [UInt8.ofNat n] := by
  rw [WriteVarInt, varIntDigits_small h, if_neg (by simp), List.reverse_singleton, Nat.mod_eq_of_lt (by omega),
    Nat.or_zero]

theorem IsToKeyID_spec {script hash : List UInt8} (h : IsToKeyID script = some hash) :
    hash.length = 20 ∧ script = [OP_DUP, OP_HASH160, 20] ++ hash ++ [OP_EQUALVERIFY, OP_CHECKSIG] := by
  unfold IsToKeyID at h
  split at h
  · rename_i hc
    obtain ⟨hlen, h0, h1, h2, h23, h24⟩ := hc
    cases h
    have hl : ((script.drop 3).take 20).length = 20 := by simp; omega
    refine ⟨hl, eq_append_of_frame (by simp [hlen]) ?_ (by simp) ?_⟩
    · intro i hi
      match i, hi with
      | 0, _ => exact h0
      | 1, _ => exact h1
      | 2, _ => exact h2
    · intro i hi
      simp only [List.length_cons, List.length_nil, hl] at hi ⊢
      match i, hi with
      | 0, _ => exact h23
      | 1, _ => exact h24
  · cases h

theorem IsToScriptID_spec {script hash : List UInt8} (h : IsToScriptID script = some hash) :
    hash.length = 20 ∧ script = [OP_HASH160, 20] ++ hash ++ [OP_EQUAL] := by
  unfold IsToScriptID at h
  split at h
  · rename_i hc
    obtain ⟨hlen, h0, h1, h22⟩ := hc
    cases h
    have hl : ((script.drop 2).take 20).length = 20 := by simp; omega
    refine ⟨hl, eq_append_of_frame (by simp [hlen]) ?_ (by simp) ?_⟩
    · intro i hi
      match i, hi with
      | 0, _ => exact h0
      | 1, _ => exact h1
    · intro i hi
      simp only [List.length_cons, List.length_nil, hl] at hi ⊢
      match i, hi with
      | 0, _ => exact h22
  · cases h

/-- The key of a pay-to-public-key script sits between its length byte and
`OP_CHECKSIG`: 33 bytes after `0x02` or `0x03`, or a fully valid 65-byte key
after `0x04`. -/
theorem IsToPubKey_spec {k : Secp256k1} {script pubkey : List UInt8} (h : IsToPubKey k script = some pubkey) :
    (pubkey.length = 33 ∧ (pubkey[0]? = some 0x02 ∨ pubkey[0]? = some 0x03) ∧
        script = [33] ++ pubkey ++ [OP_CHECKSIG]) ∨
      (pubkey.length = 65 ∧ pubkey[0]? = some 0x04 ∧ k.IsFullyValid pubkey = true ∧
        script = [65] ++ pubkey ++ [OP_CHECKSIG]) := by
  unfold IsToPubKey at h
  split at h
  · rename_i hc
    obtain ⟨hlen, h0, h34, h1⟩ := hc
    cases h
    have hl : ((script.drop 1).take 33).length = 33 := by simp; omega
    refine Or.inl ⟨hl, by simpa using h1, eq_append_of_frame (by simp [hlen]) ?_ (by simp) ?_⟩
    · intro i hi
      match i, hi with
      | 0, _ => exact h0
    · intro i hi
      simp only [List.length_cons, List.length_nil, hl] at hi ⊢
      match i, hi with
      | 0, _ => exact h34
  · split at h
    · rename_i hc
      obtain ⟨hlen, h0, h66, h1⟩ := hc
      split at h
      · rename_i hvalid
        cases h
        have hl : ((script.drop 1).take 65).length = 65 := by simp; omega
        refine Or.inr ⟨hl, by simpa using h1, hvalid, eq_append_of_frame (by simp [hlen]) ?_ (by simp) ?_⟩
        · intro i hi
          match i, hi with
          | 0, _ => exact h0
        · intro i hi
          simp only [List.length_cons, List.length_nil, hl] at hi ⊢
          match i, hi with
          | 0, _ => exact h66
      · cases h
    · cases h

theorem and_one_cases (b : UInt8) : b &&& 0x01 = 0 ∨ b &&& 0x01 = 1 := by
  have h : (b &&& 0x01).toNat = b.toNat % 2 := by
    rw [UInt8.toNat_and]
    exact Nat.and_one_is_mod _
  rcases Nat.mod_two_eq_zero_or_one b.toNat with h2 | h2
  · exact Or.inl (UInt8.toNat_inj.mp (by rw [h, h2]; rfl))
  · exact Or.inr (UInt8.toNat_inj.mp (by rw [h, h2]; rfl))

/-- The tag of an uncompressed key, `4` or `5` by the parity of its last
byte, and the compressed header `2` or `3` that `DecompressScript` makes of it. -/
theorem uncompressed_tag (b : UInt8) :
    ((0x04 ||| (b &&& 0x01) : UInt8).toNat = 4 ∨ (0x04 ||| (b &&& 0x01) : UInt8).toNat = 5) ∧
    UInt8.ofNat ((0x04 ||| (b &&& 0x01) : UInt8).toNat - 2) = 0x02 ||| (b &&& 0x01) := by
  rcases and_one_cases b with h | h <;> rw [h] <;> decide

theorem take_of_length_eq {l : List UInt8} {n : Nat} (h : l.length = n) : l.take n = l :=
  List.take_of_length_le (by omega)

/-- Every special encoding is a tag below six followed by as many bytes as
`GetSpecialScriptSize` reads, and `DecompressScript` rebuilds the script
from them. -/
theorem CompressScript_spec {k : Secp256k1} (hk : k.DecompressRestores) {script compr : List UInt8}
    (h : CompressScript k script = some compr) :
    ∃ t body, compr = t :: body ∧ t.toNat < nSpecialScripts ∧ body.length = GetSpecialScriptSize t.toNat ∧
      ∀ init, DecompressScript k init t.toNat body = .ok (true, script) := by
  unfold CompressScript at h
  cases hkey : IsToKeyID script with
  | some hash =>
    simp only [hkey, Option.some.injEq] at h
    subst h
    obtain ⟨hl, hs⟩ := IsToKeyID_spec hkey
    refine ⟨0x00, hash, rfl, by decide, by simp [hl, GetSpecialScriptSize], fun init => ?_⟩
    simp [DecompressScript, take_of_length_eq hl, hs]
  | none =>
  simp only [hkey] at h
  cases hsh : IsToScriptID script with
  | some hash =>
    simp only [hsh, Option.some.injEq] at h
    subst h
    obtain ⟨hl, hs⟩ := IsToScriptID_spec hsh
    refine ⟨0x01, hash, rfl, by decide, by simp [hl, GetSpecialScriptSize], fun init => ?_⟩
    simp [DecompressScript, take_of_length_eq hl, hs]
  | none =>
  simp only [hsh] at h
  cases hpk : IsToPubKey k script with
  | none => simp [hpk] at h
  | some pubkey =>
  simp only [hpk] at h
  rcases IsToPubKey_spec hpk with ⟨hl, h0, hs⟩ | ⟨hl, h0, hvalid, hs⟩
  · -- a compressed key is stored as it is
    rw [if_pos h0] at h
    cases h
    obtain ⟨t, body, rfl⟩ : ∃ t body, pubkey = t :: body := List.exists_cons_of_ne_nil (by
      rintro rfl; simp at hl)
    simp only [List.getElem?_cons_zero, Option.some.injEq] at h0
    have hbody : body.length = 32 := by simpa using hl
    refine ⟨t, body, by simp [take_of_length_eq hbody], ?_, ?_, fun init => ?_⟩
    · rcases h0 with rfl | rfl <;> decide
    · rcases h0 with rfl | rfl <;> simp [GetSpecialScriptSize, hbody]
    · rcases h0 with rfl | rfl <;> simp [DecompressScript, take_of_length_eq hbody, hs]
  · -- an uncompressed key keeps its x-coordinate and the parity of its y-coordinate
    rw [if_neg (by rw [h0]; decide), if_pos h0] at h
    cases h
    obtain ⟨htag, hhead⟩ := uncompressed_tag (pubkey.getD 64 0)
    have hbody : ((pubkey.drop 1).take 32).length = 32 := by simp; omega
    have hdec := hk pubkey hl h0 hvalid
    refine ⟨_, _, rfl, by rcases htag with h | h <;> rw [h] <;> decide, ?_, fun init => ?_⟩
    · rcases htag with h | h <;> rw [h] <;> simp [GetSpecialScriptSize, hl]
    · rcases htag with h | h <;> rw [h] at hhead ⊢ <;> unfold DecompressScript <;>
        rw [hhead, take_of_length_eq hbody, hdec] <;> simp [hl, hs]

/-- `ScriptCompression` reads back every script of at most `MAX_SCRIPT_SIZE`
bytes, special or raw, consuming exactly the bytes written, whatever script
it reads into. -/
theorem ScriptCompression_round_trip {k : Secp256k1} (hk : k.DecompressRestores) (init : List UInt8)
    {script : List UInt8} (hsize : script.length ≤ MAX_SCRIPT_SIZE) :
    Decodes (ScriptCompression.Unser k init) (ScriptCompression.Ser k script) script := by
  unfold ScriptCompression.Ser
  cases hc : CompressScript k script with
  | some compr =>
    obtain ⟨t, body, rfl, ht, hbody, hdec⟩ := CompressScript_spec hk hc
    -- the tag is a one-byte VARINT
    have ht6 : t.toNat < 6 := ht
    have htag : Decodes (ReadVarInt 32) [t] t.toNat := by
      have := ReadVarInt_WriteVarInt (w := 32) (by decide) (n := t.toNat) (by omega)
      rwa [WriteVarInt_small (by omega), UInt8.ofNat_toNat] at this
    -- then the fixed number of bytes the tag calls for, decompressed
    have hspecial : Decodes (ScriptCompression.unserSize k init t.toNat) body script := by
      rw [ScriptCompression.unserSize, if_pos ht, ← hbody]
      have hdec' : Decodes (StateT.lift (DecompressScript k init t.toNat body) >>= fun r => (pure r.2 : Reader _))
          ([] ++ []) script :=
        (Decodes.lift (hdec init)).bind (Decodes.pure _)
      exact ((readBytes_decodes body).bind hdec').congr (by simp)
    exact htag.bind hspecial
  | none =>
    have hlen : (script.length + nSpecialScripts) % 2 ^ 32 = script.length + nSpecialScripts := by
      simp [MAX_SCRIPT_SIZE, nSpecialScripts] at hsize ⊢
      omega
    rw [hlen]
    have hraw : Decodes (ScriptCompression.unserSize k init (script.length + nSpecialScripts)) script script := by
      rw [ScriptCompression.unserSize, if_neg (by omega), Nat.add_sub_cancel, if_neg (by omega)]
      exact readBytes_decodes script
    exact (ReadVarInt_WriteVarInt (by decide) (by simp [MAX_SCRIPT_SIZE, nSpecialScripts] at hsize ⊢; omega)).bind hraw

end Palladium.Coins
