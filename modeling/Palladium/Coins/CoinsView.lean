import Palladium.Coins.Coin
import Palladium.Lib.MapLoop
import Mathlib.Data.UInt

/-!
# The coins cache

`CCoinsViewCache` (`coins.cpp`) keeps a map from outpoints to cache entries
over a base view, each entry with its coin and the `DIRTY` and `FRESH` bits of
its flags, and a counter `cachedCoinsUsage` of the heap memory its coins use.
Reads pull the base's coin into the map (`FetchCoin`); writes mark entries
dirty, and `Flush` hands the map to the base's `BatchWrite`.

The base is a parameter: a function that reads the map may change the base's
state (a cache below pulls entries in as well), so each such function takes
the base's state and what the base's `GetCoin` answers at the outpoint with
the state it leaves, and uses the answer only where the source calls the base.
`AddCoin` can throw, and a throw leaves the object as it was at the throw, so
it returns an `EStateM.Result`. The bottom of a stack is the coins database
(`CCoinsViewDB`, `txdb.cpp`), which stores unspent coins.

`cachedCoinsUsage` is a `size_t`; it is a `UInt64` here, whose arithmetic
wraps as the source's does. Every operation keeps it equal to the sum of the
coins' usage, except `AddCoin` on the path where it throws.
-/

namespace Palladium.Coins

set_option autoImplicit false

/-- `COutPoint`: a transaction hash and an output index. -/
structure COutPoint where
  hash : BitVec 256
  n : UInt32
  deriving DecidableEq, Repr

/-- `Coin()`: the value `CTxOut()` sets with `SetNull`, no coinbase flag, height 0. -/
def coinEmpty : Coin := ⟨⟨-1, []⟩, false, 0⟩

/-- `Coin::Clear`. -/
def Coin.Clear (c : Coin) : Coin :=
  { c with out := { c.out with nValue := -1, scriptPubKey := [] }, fCoinBase := false, nHeight := 0 }

/-- `CScript::IsUnspendable`. -/
def IsUnspendable (script : List UInt8) : Bool :=
  (script.length > 0 && script.head? == some OP_RETURN) || script.length > MAX_SCRIPT_SIZE

/-- `memusage::MallocUsage` on a 64-bit platform. -/
def MallocUsage (alloc : UInt64) : UInt64 :=
  if alloc = 0 then 0 else ((alloc + 31) >>> 4) <<< 4

/-- `allocated_memory` of a script, a `prevector<28, unsigned char>`: nothing
while it fits the 28 inline bytes. The heap capacity is taken to be the
script's length, as it is for scripts read from the network or the database. -/
def allocated_memory (script : List UInt8) : UInt64 :=
  if script.length ≤ 28 then 0 else UInt64.ofNat script.length

/-- `Coin::DynamicMemoryUsage`. -/
def Coin.DynamicMemoryUsage (c : Coin) : UInt64 := MallocUsage (allocated_memory c.out.scriptPubKey)

/-- `CCoinsCacheEntry`; `dirty` and `fresh` are the `DIRTY` and `FRESH` bits of `flags`. -/
structure CCoinsCacheEntry where
  coin : Coin
  dirty : Bool
  fresh : Bool
  deriving DecidableEq, Repr

/-- `CCoinsMap`; the order of its entries stands for the unspecified order of
the `unordered_map`. -/
abbrev CCoinsMap := AList (fun _ : COutPoint => CCoinsCacheEntry)

/-- `CCoinsViewCache`, without the base pointer and the best block hash. -/
structure CCoinsViewCache where
  cacheCoins : CCoinsMap
  cachedCoinsUsage : UInt64

namespace CCoinsViewCache

variable {σ : Type}

/-- `FetchCoin`; `baseGetCoin` is `base->GetCoin(outpoint, tmp)`, asked only on a miss. -/
def FetchCoin (c : CCoinsViewCache) (outpoint : COutPoint) (base : σ) (baseGetCoin : Option Coin × σ) :
    Option CCoinsCacheEntry × CCoinsViewCache × σ :=
  match c.cacheCoins.lookup outpoint with
  | some entry => (some entry, c, base)
  | none =>
    match baseGetCoin with
    | (none, base') => (none, c, base')
    | (some tmp, base') =>
      -- a spent coin from the base means the base only has an empty entry: ours is FRESH
      let entry : CCoinsCacheEntry := ⟨tmp, false, tmp.IsSpent⟩
      (some entry, ⟨c.cacheCoins.insert outpoint entry, c.cachedCoinsUsage + tmp.DynamicMemoryUsage⟩, base')

/-- `GetCoin`: the coin when it is unspent. -/
def GetCoin (c : CCoinsViewCache) (outpoint : COutPoint) (base : σ) (baseGetCoin : Option Coin × σ) :
    Option Coin × CCoinsViewCache × σ :=
  match c.FetchCoin outpoint base baseGetCoin with
  | (some entry, c', base') => (if entry.coin.IsSpent then none else some entry.coin, c', base')
  | (none, c', base') => (none, c', base')

/-- `AccessCoin`. -/
def AccessCoin (c : CCoinsViewCache) (outpoint : COutPoint) (base : σ) (baseGetCoin : Option Coin × σ) :
    Coin × CCoinsViewCache × σ :=
  match c.FetchCoin outpoint base baseGetCoin with
  | (some entry, c', base') => (entry.coin, c', base')
  | (none, c', base') => (coinEmpty, c', base')

/-- `HaveCoin`. -/
def HaveCoin (c : CCoinsViewCache) (outpoint : COutPoint) (base : σ) (baseGetCoin : Option Coin × σ) :
    Bool × CCoinsViewCache × σ :=
  match c.FetchCoin outpoint base baseGetCoin with
  | (some entry, c', base') => (!entry.coin.IsSpent, c', base')
  | (none, c', base') => (false, c', base')

/-- `HaveCoinInCache`: the map alone, without asking the base. -/
def HaveCoinInCache (c : CCoinsViewCache) (outpoint : COutPoint) : Bool :=
  match c.cacheCoins.lookup outpoint with
  | some entry => !entry.coin.IsSpent
  | none => false

/-- The new entry `cacheCoins.emplace` makes: flags 0 and a default coin. -/
def emptyEntry : CCoinsCacheEntry := ⟨coinEmpty, false, false⟩

/-- `AddCoin`. The usage of the entry found is taken off before the
`possible_overwrite` check, and the throw leaves it off. -/
def AddCoin (c : CCoinsViewCache) (outpoint : COutPoint) (coin : Coin) (possible_overwrite : Bool) :
    EStateM.Result String CCoinsViewCache Unit :=
  if coin.IsSpent then .error "assert(!coin.IsSpent())" c
  else if IsUnspendable coin.out.scriptPubKey then .ok () c
  else
    -- `cacheCoins.emplace`: the entry already there, or a new empty one
    let (entry, cacheCoins, cachedCoinsUsage) := match c.cacheCoins.lookup outpoint with
      | some entry => (entry, c.cacheCoins, c.cachedCoinsUsage - entry.coin.DynamicMemoryUsage)
      | none => (emptyEntry, c.cacheCoins.insert outpoint emptyEntry, c.cachedCoinsUsage)
    if !possible_overwrite && !entry.coin.IsSpent then
      .error "Adding new coin that replaces non-pruned entry" ⟨cacheCoins, cachedCoinsUsage⟩
    else
      let fresh := !possible_overwrite && !entry.dirty
      .ok () ⟨cacheCoins.insert outpoint ⟨coin, true, entry.fresh || fresh⟩,
        cachedCoinsUsage + coin.DynamicMemoryUsage⟩

/-- `SpendCoin`; the result is the coin moved out, `none` when it returns false. -/
def SpendCoin (c : CCoinsViewCache) (outpoint : COutPoint) (base : σ) (baseGetCoin : Option Coin × σ) :
    Option Coin × CCoinsViewCache × σ :=
  match c.FetchCoin outpoint base baseGetCoin with
  | (none, c', base') => (none, c', base')
  | (some entry, c', base') =>
    let cachedCoinsUsage := c'.cachedCoinsUsage - entry.coin.DynamicMemoryUsage
    if entry.fresh then (some entry.coin, ⟨c'.cacheCoins.erase outpoint, cachedCoinsUsage⟩, base')
    else
      (some entry.coin,
        ⟨c'.cacheCoins.insert outpoint { entry with coin := entry.coin.Clear, dirty := true }, cachedCoinsUsage⟩,
        base')

/-- One pass of the loop of `BatchWrite`: the child's entry for `outpoint`. -/
def batchWriteEntry (c : CCoinsViewCache) (outpoint : COutPoint) (child : CCoinsCacheEntry) :
    Except String CCoinsViewCache :=
  -- non-dirty entries are ignored
  if !child.dirty then .ok c
  else
    match c.cacheCoins.lookup outpoint with
    | none =>
      -- a FRESH and spent entry never reaches a parent that lacks it
      if child.fresh && child.coin.IsSpent then .ok c
      else .ok ⟨c.cacheCoins.insert outpoint ⟨child.coin, true, child.fresh⟩,
        c.cachedCoinsUsage + child.coin.DynamicMemoryUsage⟩
    | some us =>
      if child.fresh && !us.coin.IsSpent then
        .error "FRESH flag misapplied to cache entry for base transaction with spendable outputs"
      else if us.fresh && child.coin.IsSpent then
        .ok ⟨c.cacheCoins.erase outpoint, c.cachedCoinsUsage - us.coin.DynamicMemoryUsage⟩
      else
        .ok ⟨c.cacheCoins.insert outpoint { us with coin := child.coin, dirty := true },
          c.cachedCoinsUsage - us.coin.DynamicMemoryUsage + child.coin.DynamicMemoryUsage⟩

/-- `BatchWrite`: the child's entries in map order. -/
def BatchWrite (c : CCoinsViewCache) (mapCoins : CCoinsMap) : Except String CCoinsViewCache :=
  mapCoins.entries.foldlM (fun c e => c.batchWriteEntry e.1 e.2) c

/-- `Flush`; `baseBatchWrite` is the base's `BatchWrite`. -/
def Flush (c : CCoinsViewCache) (baseBatchWrite : CCoinsMap → Except String σ) :
    Except String (CCoinsViewCache × σ) := do
  let base' ← baseBatchWrite c.cacheCoins
  pure (⟨∅, 0⟩, base')

/-- `Uncache`: drop an entry whose flags are 0. -/
def Uncache (c : CCoinsViewCache) (hash : COutPoint) : CCoinsViewCache :=
  match c.cacheCoins.lookup hash with
  | some entry =>
    if !entry.dirty && !entry.fresh then ⟨c.cacheCoins.erase hash, c.cachedCoinsUsage - entry.coin.DynamicMemoryUsage⟩
    else c
  | none => c

end CCoinsViewCache

/-- `CCoinsViewDB`: the coin stored under each outpoint. -/
structure CCoinsViewDB where
  coins : COutPoint → Option Coin

namespace CCoinsViewDB

/-- `CCoinsViewDB::GetCoin`. -/
def GetCoin (db : CCoinsViewDB) (outpoint : COutPoint) : Option Coin := db.coins outpoint

/-- One pass of the loop of the database's `BatchWrite`: a dirty entry is
erased when spent and written otherwise. -/
def writeEntry (db : CCoinsViewDB) (e : Σ _ : COutPoint, CCoinsCacheEntry) : CCoinsViewDB :=
  if e.2.dirty then
    if e.2.coin.IsSpent then ⟨Function.update db.coins e.1 none⟩
    else ⟨Function.update db.coins e.1 (some e.2.coin)⟩
  else db

/-- The database's `BatchWrite`. -/
def BatchWrite (db : CCoinsViewDB) (mapCoins : CCoinsMap) : CCoinsViewDB :=
  mapCoins.entries.foldl writeEntry db

end CCoinsViewDB

/-! ## Memory accounting -/

/-- The usage of the coins of a map, as `SelfTest` adds it up. -/
def cacheUsage (m : CCoinsMap) : UInt64 :=
  MapLoop.total (fun e : CCoinsCacheEntry => e.coin.DynamicMemoryUsage) m

namespace CCoinsViewCache

/-- The counter agrees with the map. -/
def UsageExact (c : CCoinsViewCache) : Prop := c.cachedCoinsUsage = cacheUsage c.cacheCoins

instance (c : CCoinsViewCache) : Decidable c.UsageExact := inferInstanceAs (Decidable (_ = _))

end CCoinsViewCache

theorem coinEmpty_DynamicMemoryUsage : coinEmpty.DynamicMemoryUsage = 0 := by decide

@[simp] theorem Coin.Clear_eq (c : Coin) : c.Clear = coinEmpty := rfl

theorem cacheUsage_insert_of_lookup_eq_none {m : CCoinsMap} {o : COutPoint} (h : m.lookup o = none)
    (e : CCoinsCacheEntry) : cacheUsage (m.insert o e) = cacheUsage m + e.coin.DynamicMemoryUsage := by
  rw [cacheUsage, MapLoop.total_insert, MapLoop.total_erase_of_lookup_eq_none _ h, add_comm]
  rfl

theorem cacheUsage_erase {m : CCoinsMap} {o : COutPoint} {e : CCoinsCacheEntry} (h : m.lookup o = some e) :
    cacheUsage (m.erase o) = cacheUsage m - e.coin.DynamicMemoryUsage :=
  eq_sub_of_add_eq (MapLoop.total_erase_add _ h)

theorem cacheUsage_insert_of_lookup_eq_some {m : CCoinsMap} {o : COutPoint} {e : CCoinsCacheEntry}
    (h : m.lookup o = some e) (e' : CCoinsCacheEntry) :
    cacheUsage (m.insert o e') = cacheUsage m - e.coin.DynamicMemoryUsage + e'.coin.DynamicMemoryUsage := by
  rw [cacheUsage, MapLoop.total_insert, ← cacheUsage, cacheUsage_erase h, add_comm]

namespace CCoinsViewCache

variable {σ : Type} {c : CCoinsViewCache} {o : COutPoint}

/-! ### What each function does, case by case -/

theorem FetchCoin_hit {e : CCoinsCacheEntry} (h : c.cacheCoins.lookup o = some e) (base : σ) (r : Option Coin × σ) :
    c.FetchCoin o base r = (some e, c, base) := by
  simp [FetchCoin, h]

theorem FetchCoin_miss_none (h : c.cacheCoins.lookup o = none) (base base' : σ) :
    c.FetchCoin o base (none, base') = (none, c, base') := by
  simp [FetchCoin, h]

theorem FetchCoin_miss_some (h : c.cacheCoins.lookup o = none) (base base' : σ) (tmp : Coin) :
    c.FetchCoin o base (some tmp, base') =
      (some ⟨tmp, false, tmp.IsSpent⟩,
        ⟨c.cacheCoins.insert o ⟨tmp, false, tmp.IsSpent⟩, c.cachedCoinsUsage + tmp.DynamicMemoryUsage⟩, base') := by
  simp [FetchCoin, h]

/-- The entry `FetchCoin` returns is the one its map then holds. -/
theorem FetchCoin_lookup {base base' : σ} {r : Option Coin × σ} {e : CCoinsCacheEntry} {c' : CCoinsViewCache}
    (h : c.FetchCoin o base r = (some e, c', base')) : c'.cacheCoins.lookup o = some e := by
  obtain ⟨_ | tmp, b⟩ := r
  · cases hl : c.cacheCoins.lookup o with
    | some e₀ =>
      rw [FetchCoin_hit hl] at h
      cases h
      exact hl
    | none => rw [FetchCoin_miss_none hl] at h; cases h
  · cases hl : c.cacheCoins.lookup o with
    | some e₀ =>
      rw [FetchCoin_hit hl] at h
      cases h
      exact hl
    | none =>
      rw [FetchCoin_miss_some hl] at h
      cases h
      exact AList.lookup_insert _

/-- The readers leave the cache as `FetchCoin` does. -/
theorem GetCoin_snd (base : σ) (r : Option Coin × σ) : (c.GetCoin o base r).2 = (c.FetchCoin o base r).2 := by
  unfold GetCoin
  split <;> simp_all

theorem AccessCoin_snd (base : σ) (r : Option Coin × σ) : (c.AccessCoin o base r).2 = (c.FetchCoin o base r).2 := by
  unfold AccessCoin
  split <;> simp_all

theorem HaveCoin_snd (base : σ) (r : Option Coin × σ) : (c.HaveCoin o base r).2 = (c.FetchCoin o base r).2 := by
  unfold HaveCoin
  split <;> simp_all

/-- `AddCoin` past its two early exits, on an entry already there. -/
theorem AddCoin_found {coin : Coin} {possible_overwrite : Bool} {e : CCoinsCacheEntry}
    (hspent : coin.IsSpent = false) (hsp : IsUnspendable coin.out.scriptPubKey = false)
    (h : c.cacheCoins.lookup o = some e) :
    c.AddCoin o coin possible_overwrite =
      if !possible_overwrite && !e.coin.IsSpent then
        .error "Adding new coin that replaces non-pruned entry"
          ⟨c.cacheCoins, c.cachedCoinsUsage - e.coin.DynamicMemoryUsage⟩
      else .ok () ⟨c.cacheCoins.insert o ⟨coin, true, e.fresh || (!possible_overwrite && !e.dirty)⟩,
        c.cachedCoinsUsage - e.coin.DynamicMemoryUsage + coin.DynamicMemoryUsage⟩ := by
  simp only [AddCoin, hspent, hsp, h]
  rfl

/-- `AddCoin` past its two early exits, on an outpoint the map lacks. -/
theorem AddCoin_new {coin : Coin} {possible_overwrite : Bool}
    (hspent : coin.IsSpent = false) (hsp : IsUnspendable coin.out.scriptPubKey = false)
    (h : c.cacheCoins.lookup o = none) :
    c.AddCoin o coin possible_overwrite =
      .ok () ⟨c.cacheCoins.insert o ⟨coin, true, !possible_overwrite⟩,
        c.cachedCoinsUsage + coin.DynamicMemoryUsage⟩ := by
  have hempty : emptyEntry.coin.IsSpent = true := rfl
  simp only [AddCoin, hspent, hsp, h, hempty, AList.insert_insert]
  cases possible_overwrite <;> rfl

theorem AddCoin_spent {coin : Coin} {possible_overwrite : Bool} (hspent : coin.IsSpent = true) :
    c.AddCoin o coin possible_overwrite = .error "assert(!coin.IsSpent())" c := by
  simp [AddCoin, hspent]

theorem AddCoin_unspendable {coin : Coin} {possible_overwrite : Bool} (hspent : coin.IsSpent = false)
    (hsp : IsUnspendable coin.out.scriptPubKey = true) : c.AddCoin o coin possible_overwrite = .ok () c := by
  simp [AddCoin, hspent, hsp]

/-! ### The counter follows the map -/

theorem UsageExact.FetchCoin (hc : c.UsageExact) (base : σ) (r : Option Coin × σ) :
    (c.FetchCoin o base r).2.1.UsageExact := by
  obtain ⟨_ | tmp, base'⟩ := r
  · cases hl : c.cacheCoins.lookup o with
    | some e => rwa [FetchCoin_hit hl]
    | none => rwa [FetchCoin_miss_none hl]
  · cases hl : c.cacheCoins.lookup o with
    | some e => rwa [FetchCoin_hit hl]
    | none =>
      rw [FetchCoin_miss_some hl]
      show _ = cacheUsage _
      rw [cacheUsage_insert_of_lookup_eq_none hl, ← hc]

theorem UsageExact.AddCoin (hc : c.UsageExact) {coin : Coin} {possible_overwrite : Bool} {c' : CCoinsViewCache}
    (h : c.AddCoin o coin possible_overwrite = .ok () c') : c'.UsageExact := by
  cases hspent : coin.IsSpent
  · cases hsp : IsUnspendable coin.out.scriptPubKey
    · cases hl : c.cacheCoins.lookup o with
      | none =>
        rw [AddCoin_new hspent hsp hl] at h
        cases h
        show _ = cacheUsage _
        rw [cacheUsage_insert_of_lookup_eq_none hl, ← hc]
      | some e =>
        rw [AddCoin_found hspent hsp hl] at h
        split at h
        · cases h
        · cases h
          show _ = cacheUsage _
          rw [cacheUsage_insert_of_lookup_eq_some hl, ← hc]
    · rw [AddCoin_unspendable hspent hsp] at h
      cases h
      exact hc
  · rw [AddCoin_spent hspent] at h
    cases h

theorem UsageExact.SpendCoin (hc : c.UsageExact) (base : σ) (r : Option Coin × σ) :
    (c.SpendCoin o base r).2.1.UsageExact := by
  unfold CCoinsViewCache.SpendCoin
  split
  · rename_i c' base' hfetch
    simpa [hfetch] using hc.FetchCoin (o := o) base r
  · rename_i entry c' base' hfetch
    have hf : c'.UsageExact := by simpa [hfetch] using hc.FetchCoin (o := o) base r
    have hl : c'.cacheCoins.lookup o = some entry := FetchCoin_lookup hfetch
    split
    · show _ = cacheUsage _
      rw [cacheUsage_erase hl, ← hf]
    · show _ = cacheUsage _
      rw [cacheUsage_insert_of_lookup_eq_some hl, ← hf, Coin.Clear_eq, coinEmpty_DynamicMemoryUsage, add_zero]

theorem UsageExact.batchWriteEntry (hc : c.UsageExact) {child : CCoinsCacheEntry} {c' : CCoinsViewCache}
    (h : c.batchWriteEntry o child = .ok c') : c'.UsageExact := by
  unfold CCoinsViewCache.batchWriteEntry at h
  split at h
  · cases h; exact hc
  · split at h
    · rename_i hl
      split at h
      · cases h; exact hc
      · cases h
        show _ = cacheUsage _
        rw [cacheUsage_insert_of_lookup_eq_none hl, ← hc]
    · rename_i us hl
      split at h
      · cases h
      · split at h
        · cases h
          show _ = cacheUsage _
          rw [cacheUsage_erase hl, ← hc]
        · cases h
          show _ = cacheUsage _
          rw [cacheUsage_insert_of_lookup_eq_some hl, ← hc]

theorem UsageExact.BatchWrite (hc : c.UsageExact) {mapCoins : CCoinsMap} {c' : CCoinsViewCache}
    (h : c.BatchWrite mapCoins = .ok c') : c'.UsageExact :=
  MapLoop.foldlM_invariant UsageExact _ (fun _ _ _ ha hb => ha.batchWriteEntry hb) _ c c' hc h

theorem UsageExact.Flush {baseBatchWrite : CCoinsMap → Except String σ} {c' : CCoinsViewCache} {base' : σ}
    (h : c.Flush baseBatchWrite = .ok (c', base')) : c'.UsageExact := by
  unfold CCoinsViewCache.Flush at h
  cases hb : baseBatchWrite c.cacheCoins with
  | error msg => rw [hb] at h; cases h
  | ok b => rw [hb] at h; cases h; rfl

theorem UsageExact.Uncache (hc : c.UsageExact) : (c.Uncache o).UsageExact := by
  unfold CCoinsViewCache.Uncache
  split
  · rename_i e hl
    split
    · show _ = cacheUsage _
      rw [cacheUsage_erase hl, ← hc]
    · exact hc
  · exact hc

/-! ### The throw of `AddCoin` -/

/-- Adding over an unspent cached coin without `possible_overwrite` throws,
with the map as it was and the old coin's usage taken off the counter. -/
theorem AddCoin_throw {coin : Coin} {e : CCoinsCacheEntry}
    (hspent : coin.IsSpent = false) (hsp : IsUnspendable coin.out.scriptPubKey = false)
    (h : c.cacheCoins.lookup o = some e) (he : e.coin.IsSpent = false) :
    c.AddCoin o coin false = .error "Adding new coin that replaces non-pruned entry"
      ⟨c.cacheCoins, c.cachedCoinsUsage - e.coin.DynamicMemoryUsage⟩ := by
  rw [AddCoin_found hspent hsp h, he]
  rfl

/-- After that throw the counter is exact again only if the old coin used no heap memory. -/
theorem UsageExact_after_throw_iff (hc : c.UsageExact) (u : UInt64) :
    (⟨c.cacheCoins, c.cachedCoinsUsage - u⟩ : CCoinsViewCache).UsageExact ↔ u = 0 := by
  unfold UsageExact at hc ⊢
  rw [← hc]
  constructor
  · intro h
    simpa using h
  · intro h
    rw [h, sub_zero]

/-- A pay-to-public-key script: a push of a 33-byte compressed key, then
`OP_CHECKSIG`; at 35 bytes it is kept on the heap. -/
def p2pkScript : List UInt8 := 33 :: (2 :: List.replicate 32 0x11) ++ [OP_CHECKSIG]

/-- Two outputs to the same outpoint without `possible_overwrite`, from an
empty cache: the first is added, the second throws, and the counter is left
64 bytes short of the map it is meant to add up. -/
theorem AddCoin_throw_loses_usage :
    ∃ c₁ c₂ : CCoinsViewCache,
      (⟨∅, 0⟩ : CCoinsViewCache).AddCoin ⟨0, 0⟩ ⟨⟨5000000000, p2pkScript⟩, true, 1⟩ false = .ok () c₁ ∧
      c₁.UsageExact ∧
      c₁.AddCoin ⟨0, 0⟩ ⟨⟨100, p2pkScript⟩, false, 2⟩ false =
        .error "Adding new coin that replaces non-pruned entry" c₂ ∧
      c₂.cacheCoins = c₁.cacheCoins ∧ c₂.cachedCoinsUsage = 0 ∧ cacheUsage c₂.cacheCoins = 64 := by
  refine ⟨_, _, AddCoin_new (by decide) (by decide) rfl, by decide,
    AddCoin_throw (by decide) (by decide) (AList.lookup_insert _) (by decide), rfl, by decide, by decide⟩

end CCoinsViewCache

end Palladium.Coins
