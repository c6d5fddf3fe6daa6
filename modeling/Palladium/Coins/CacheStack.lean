import Palladium.Coins.CacheView

/-!
# A stack of caches over the database

The node stacks caches: the chainstate's cache over the database, a cache for
the block being connected over that, and so on. A layer's base is the layer
below it, so `GetCoin` asked of a layer asks down the stack until a layer has
the entry, and every layer on the way pulls the answer in (`stackGetCoin`).
Any layer can be flushed into the one below or uncached; the top can be
written, read, pushed, and popped (flushed, then dropped).

A run of these operations stands for one map of unspent coins that only
`AddCoin` and `SpendCoin` change (`absStep`). The main result is that the
stack refines it: from a consistent stack, a run whose `AddCoin`s are as the
callers make them never throws, each read answers as the map does, and
flushing every layer leaves the map in the database. The invariant is
`StackConsistent`: each layer is `Consistent` over what the layers below it
answer.
-/

namespace Palladium.Coins

set_option autoImplicit false

open CCoinsCacheEntry

/-- `GetCoin` asked of the top of `caches`; the database answers at the bottom. -/
def stackGetCoin (db : CCoinsViewDB) (o : COutPoint) : List CCoinsViewCache → Option Coin × List CCoinsViewCache
  | [] => (db.GetCoin o, [])
  | c :: below =>
    let r := c.GetCoin o below (stackGetCoin db o below)
    (r.1, r.2.1 :: r.2.2)

/-- A function of the top cache that may ask its base, the stack below it. -/
abbrev TopFn (α : Type) :=
  CCoinsViewCache → COutPoint → List CCoinsViewCache → Option Coin × List CCoinsViewCache →
    α × CCoinsViewCache × List CCoinsViewCache

/-- Call `f` on the top cache; a stack without caches has no top. -/
def onTop {α : Type} (db : CCoinsViewDB) (o : COutPoint) (f : TopFn α) :
    List CCoinsViewCache → Except String (α × List CCoinsViewCache)
  | [] => .error "no cache"
  | c :: below =>
    let r := f c o below (stackGetCoin db o below)
    .ok (r.1, r.2.1 :: r.2.2)

/-- `Flush` of layer `i`: into the layer below, or into the database from the bottom. -/
def flushAt (db : CCoinsViewDB) : Nat → List CCoinsViewCache → Except String (List CCoinsViewCache × CCoinsViewDB)
  | _, [] => .ok ([], db)
  | 0, [c] => do
    let r ← c.Flush (fun m => .ok (db.BatchWrite m))
    pure ([r.1], r.2)
  | 0, c :: p :: rest => do
    let r ← c.Flush p.BatchWrite
    pure (r.1 :: r.2 :: rest, db)
  | i + 1, c :: below => do
    let r ← flushAt db i below
    pure (c :: r.1, r.2)

/-- `Uncache` of layer `i`. -/
def uncacheAt (o : COutPoint) : Nat → List CCoinsViewCache → List CCoinsViewCache
  | _, [] => []
  | 0, c :: below => c.Uncache o :: below
  | i + 1, c :: below => c :: uncacheAt o i below

/-- A stack of caches, the top first, over the database. -/
structure CoinsStack where
  caches : List CCoinsViewCache
  db : CCoinsViewDB

/-- The operations of a run. -/
inductive CacheOp where
  | AddCoin (outpoint : COutPoint) (coin : Coin) (possible_overwrite : Bool)
  | SpendCoin (outpoint : COutPoint)
  | GetCoin (outpoint : COutPoint)
  | HaveCoin (outpoint : COutPoint)
  | AccessCoin (outpoint : COutPoint)
  | Uncache (layer : Nat) (outpoint : COutPoint)
  | Flush (layer : Nat)
  | push
  | pop
  deriving DecidableEq

/-- What a read returns. -/
inductive Answer where
  | coin (c : Option Coin)
  | haveCoin (b : Bool)
  | access (c : Coin)
  deriving DecidableEq

namespace CoinsStack

/-- `AddCoin` on the top cache. -/
def AddCoin (s : CoinsStack) (o : COutPoint) (coin : Coin) (possible_overwrite : Bool) :
    Except String CoinsStack :=
  match s.caches with
  | [] => .error "no cache"
  | c :: below =>
    match c.AddCoin o coin possible_overwrite with
    | .ok () c' => .ok ⟨c' :: below, s.db⟩
    | .error e _ => .error e

/-- `SpendCoin` on the top cache, with the coin it moves out. -/
def SpendCoin (s : CoinsStack) (o : COutPoint) : Except String (Option Coin × CoinsStack) := do
  let r ← onTop s.db o CCoinsViewCache.SpendCoin s.caches
  pure (r.1, ⟨r.2, s.db⟩)

/-- `GetCoin` on the top cache. -/
def GetCoin (s : CoinsStack) (o : COutPoint) : Except String (Option Coin × CoinsStack) := do
  let r ← onTop s.db o CCoinsViewCache.GetCoin s.caches
  pure (r.1, ⟨r.2, s.db⟩)

/-- `HaveCoin` on the top cache. -/
def HaveCoin (s : CoinsStack) (o : COutPoint) : Except String (Bool × CoinsStack) := do
  let r ← onTop s.db o CCoinsViewCache.HaveCoin s.caches
  pure (r.1, ⟨r.2, s.db⟩)

/-- `AccessCoin` on the top cache. -/
def AccessCoin (s : CoinsStack) (o : COutPoint) : Except String (Coin × CoinsStack) := do
  let r ← onTop s.db o CCoinsViewCache.AccessCoin s.caches
  pure (r.1, ⟨r.2, s.db⟩)

/-- One operation; a throw ends the run. -/
def step (s : CoinsStack) : CacheOp → Except String (CoinsStack × Option Answer)
  | .AddCoin o coin possible_overwrite => do
    let s' ← s.AddCoin o coin possible_overwrite
    pure (s', none)
  | .SpendCoin o => do
    let r ← s.SpendCoin o
    pure (r.2, none)
  | .GetCoin o => do
    let r ← s.GetCoin o
    pure (r.2, some (.coin r.1))
  | .HaveCoin o => do
    let r ← s.HaveCoin o
    pure (r.2, some (.haveCoin r.1))
  | .AccessCoin o => do
    let r ← s.AccessCoin o
    pure (r.2, some (.access r.1))
  | .Uncache i o => .ok (⟨uncacheAt o i s.caches, s.db⟩, none)
  | .Flush i => do
    let r ← flushAt s.db i s.caches
    pure (⟨r.1, r.2⟩, none)
  | .push => .ok (⟨⟨∅, 0⟩ :: s.caches, s.db⟩, none)
  | .pop =>
    match s.caches with
    | [] => .ok (s, none)
    | _ :: _ => do
      let r ← flushAt s.db 0 s.caches
      pure (⟨r.1.tail, r.2⟩, none)

/-- A run, with the answers of its reads. -/
def run (s : CoinsStack) : List CacheOp → Except String (CoinsStack × List Answer)
  | [] => .ok (s, [])
  | op :: ops => do
    let r ← s.step op
    let r' ← r.1.run ops
    pure (r'.1, r.2.toList ++ r'.2)

end CoinsStack

/-! ## The map a run stands for -/

/-- `AddCoin` sets a coin unless its script is unspendable, `SpendCoin`
removes one, the reads answer from the map, and nothing else changes it. -/
def absStep (m : CoinsMap) : CacheOp → CoinsMap × Option Answer
  | .AddCoin o coin _ => (if IsUnspendable coin.out.scriptPubKey then m else Function.update m o (some coin), none)
  | .SpendCoin o => (Function.update m o none, none)
  | .GetCoin o => (m, some (.coin (m o)))
  | .HaveCoin o => (m, some (.haveCoin (m o).isSome))
  | .AccessCoin o => (m, some (.access ((m o).getD coinEmpty)))
  | _ => (m, none)

def absRun (m : CoinsMap) : List CacheOp → CoinsMap × List Answer
  | [] => (m, [])
  | op :: ops =>
    let r := absStep m op
    let r' := absRun r.1 ops
    (r'.1, r.2.toList ++ r'.2)

/-- The number of caches after an operation. -/
def CacheOp.height (n : Nat) : CacheOp → Nat
  | .push => n + 1
  | .pop => n - 1
  | _ => n

/-- What the callers promise: the top's operations need a cache, and
`AddCoin` adds an unspent coin, without `possible_overwrite` only where the
map has no coin. -/
def CacheOp.Allowed (m : CoinsMap) (n : Nat) : CacheOp → Prop
  | .AddCoin o coin possible_overwrite => 0 < n ∧ coin.IsSpent = false ∧ (possible_overwrite = true ∨ m o = none)
  | .SpendCoin _ | .GetCoin _ | .HaveCoin _ | .AccessCoin _ => 0 < n
  | _ => True

instance CacheOp.decAllowed (m : CoinsMap) (n : Nat) : (op : CacheOp) → Decidable (op.Allowed m n)
  | .AddCoin o coin possible_overwrite =>
    inferInstanceAs (Decidable (0 < n ∧ coin.IsSpent = false ∧ (possible_overwrite = true ∨ m o = none)))
  | .SpendCoin _ | .GetCoin _ | .HaveCoin _ | .AccessCoin _ => inferInstanceAs (Decidable (0 < n))
  | .Uncache _ _ | .Flush _ | .push | .pop => inferInstanceAs (Decidable True)

/-- Every operation of a run is allowed where the run has got to. -/
def AllowedRun : CoinsMap → Nat → List CacheOp → Prop
  | _, _, [] => True
  | m, n, op :: ops => op.Allowed m n ∧ AllowedRun (absStep m op).1 (op.height n) ops

instance decAllowedRun : (m : CoinsMap) → (n : Nat) → (ops : List CacheOp) → Decidable (AllowedRun m n ops)
  | _, _, [] => inferInstanceAs (Decidable True)
  | m, n, op :: ops =>
    haveI := decAllowedRun (absStep m op).1 (op.height n) ops
    inferInstanceAs (Decidable (op.Allowed m n ∧ AllowedRun (absStep m op).1 (op.height n) ops))

/-! ## The invariant -/

/-- What the top of `caches` answers. -/
def stackView (db : CCoinsViewDB) : List CCoinsViewCache → CoinsMap
  | [] => db.coins
  | c :: below => mapView c.cacheCoins (stackView db below)

/-- Each layer is consistent over the layers below it, and the database holds unspent coins. -/
def StackConsistent (db : CCoinsViewDB) : List CCoinsViewCache → Prop
  | [] => Unspent db.coins
  | c :: below => Consistent (stackView db below) c.cacheCoins ∧ StackConsistent db below

namespace CoinsStack

def view (s : CoinsStack) : CoinsMap := stackView s.db s.caches

def Consistent (s : CoinsStack) : Prop := StackConsistent s.db s.caches

/-- A consistent stack with a cache on top, answering as `m`: what code given
a `CCoinsViewCache` works on. -/
structure Represents (s : CoinsStack) (m : CoinsMap) : Prop where
  consistent : s.Consistent
  top : 0 < s.caches.length
  view : s.view = m

end CoinsStack

/-! ## Asking down the stack -/

variable {db : CCoinsViewDB} {o : COutPoint} {c : CCoinsViewCache} {below : List CCoinsViewCache}

theorem StackConsistent.unspent : ∀ {cs : List CCoinsViewCache}, StackConsistent db cs → Unspent (stackView db cs)
  | [], h => h
  | _ :: _, h => (StackConsistent.unspent h.2).mapView _

theorem stackGetCoin_cons : stackGetCoin db o (c :: below) =
    ((c.GetCoin o below (stackGetCoin db o below)).1,
      (c.GetCoin o below (stackGetCoin db o below)).2.1 :: (c.GetCoin o below (stackGetCoin db o below)).2.2) := rfl

theorem onTop_cons {α : Type} (f : TopFn α) : onTop db o f (c :: below) =
    .ok ((f c o below (stackGetCoin db o below)).1,
      (f c o below (stackGetCoin db o below)).2.1 :: (f c o below (stackGetCoin db o below)).2.2) := rfl

/-- What `stackGetCoin` does to a consistent stack: it answers what the top
answers, and leaves the stack consistent, answering as before, as high as before. -/
structure GetCoinSpec (db : CCoinsViewDB) (o : COutPoint) (cs : List CCoinsViewCache) : Prop where
  answer : (stackGetCoin db o cs).1 = stackView db cs o
  consistent : StackConsistent db (stackGetCoin db o cs).2
  view : stackView db (stackGetCoin db o cs).2 = stackView db cs
  length : (stackGetCoin db o cs).2.length = cs.length

theorem GetCoinSpec.eq {cs : List CCoinsViewCache} (h : GetCoinSpec db o cs) :
    stackGetCoin db o cs = (stackView db cs o, (stackGetCoin db o cs).2) :=
  Prod.ext h.answer rfl

/-- What a function of the top leaves below it, having asked it at most once. -/
theorem below_spec (hbelow : StackConsistent db below) (hget : GetCoinSpec db o below) {b : List CCoinsViewCache}
    (hb : b = below ∨ b = (stackGetCoin db o below).2) :
    StackConsistent db b ∧ stackView db b = stackView db below ∧ b.length = below.length := by
  rcases hb with rfl | rfl
  · exact ⟨hbelow, rfl, rfl⟩
  · exact ⟨hget.consistent, hget.view, hget.length⟩

/-- What a read of the top leaves: the top as `FetchCoin` left it, over the
stack below as it was or as its `GetCoin` left it. -/
theorem fetch_top (hc : Consistent (stackView db below) c.cacheCoins) (hbelow : StackConsistent db below)
    (hget : GetCoinSpec db o below) {r : Option CCoinsCacheEntry} {c' : CCoinsViewCache}
    {b : List CCoinsViewCache} (hf : c.FetchCoin o below (stackGetCoin db o below) = (r, c', b)) :
    StackConsistent db (c' :: b) ∧ stackView db (c' :: b) = stackView db (c :: below) ∧ b.length = below.length := by
  rw [hget.eq] at hf
  obtain ⟨hc', hv, -, -, hb⟩ := CCoinsViewCache.FetchCoin_spec hbelow.unspent hc hf
  obtain ⟨hb₁, hb₂, hb₃⟩ := below_spec hbelow hget hb
  refine ⟨⟨by rw [hb₂]; exact hc', hb₁⟩, ?_, hb₃⟩
  simp only [stackView, hb₂, hv]

/-- `GetCoin` asked of the top; the induction is on the stack, each layer
asking the one below only on a miss. -/
theorem stackGetCoin_spec : ∀ {cs : List CCoinsViewCache}, StackConsistent db cs → GetCoinSpec db o cs
  | [], h => ⟨rfl, h, rfl, rfl⟩
  | c :: below, ⟨hc, hbelow⟩ => by
    have hget := stackGetCoin_spec hbelow
    rcases hf : c.FetchCoin o below (stackGetCoin db o below) with ⟨r, c', b⟩
    obtain ⟨hcons, hview, hlen⟩ := fetch_top hc hbelow hget hf
    have hsnd : (c.GetCoin o below (stackGetCoin db o below)).2 = (c', b) := by
      rw [CCoinsViewCache.GetCoin_snd, hf]
    refine ⟨?_, ?_, ?_, ?_⟩ <;> rw [stackGetCoin_cons]
    · rw [hget.eq]
      exact CCoinsViewCache.GetCoin_spec hbelow.unspent hc _ _
    · rw [hsnd]
      exact hcons
    · rw [hsnd]
      exact hview
    · rw [hsnd]
      simp [hlen]

/-! ## One call on the top -/

namespace CoinsStack

variable {s : CoinsStack} {m : CoinsMap}

/-- The top cache of a stack that represents `m`, and the stack below it. -/
theorem Represents.cons (h : s.Represents m) :
    ∃ c below, s.caches = c :: below ∧ Coins.Consistent (stackView s.db below) c.cacheCoins ∧
      StackConsistent s.db below ∧ mapView c.cacheCoins (stackView s.db below) = m := by
  obtain ⟨hs, htop, hview⟩ := h
  obtain ⟨c, below, hcs⟩ := List.exists_cons_of_length_pos htop
  rw [CoinsStack.Consistent, hcs] at hs
  rw [CoinsStack.view, hcs] at hview
  exact ⟨c, below, hcs, hs.1, hs.2, hview⟩

/-- The coins a represented map holds are unspent. -/
theorem Represents.unspent (h : s.Represents m) : Unspent m :=
  h.view ▸ StackConsistent.unspent h.consistent

theorem AddCoin_spec (h : s.Represents m) {coin : Coin} {possible_overwrite : Bool}
    (hspent : coin.IsSpent = false) (hallowed : possible_overwrite = true ∨ m o = none) :
    ∃ s', s.AddCoin o coin possible_overwrite = .ok s' ∧
      s'.Represents (if IsUnspendable coin.out.scriptPubKey then m else Function.update m o (some coin)) ∧
      s'.caches.length = s.caches.length := by
  obtain ⟨c, below, hcs, hc, hbelow, rfl⟩ := h.cons
  obtain ⟨c', hadd, hc', hv⟩ := CCoinsViewCache.AddCoin_spec hc hspent hallowed
  refine ⟨⟨c' :: below, s.db⟩, ?_, ⟨⟨hc', hbelow⟩, by simp, hv⟩, by simp [hcs]⟩
  simp only [AddCoin, hcs, hadd]

/-- `AddCoin` of an unspendable coin leaves the stack as it was. -/
theorem AddCoin_of_unspendable (h : s.Represents m) {coin : Coin} {possible_overwrite : Bool}
    (hspent : coin.IsSpent = false) (hunspendable : IsUnspendable coin.out.scriptPubKey = true) :
    s.AddCoin o coin possible_overwrite = .ok s := by
  obtain ⟨c, below, hcs, -⟩ := h.cons
  obtain ⟨caches, db⟩ := s
  simp only at hcs
  subst hcs
  simp only [AddCoin, CCoinsViewCache.AddCoin_unspendable hspent hunspendable]

theorem SpendCoin_spec (h : s.Represents m) (o : COutPoint) :
    ∃ r s', s.SpendCoin o = .ok (r, s') ∧ s'.Represents (Function.update m o none) ∧
      s'.caches.length = s.caches.length ∧ ∀ x, m o = some x → r = some x := by
  obtain ⟨c, below, hcs, hc, hbelow, rfl⟩ := h.cons
  have hget := stackGetCoin_spec (o := o) hbelow
  rcases hs : c.SpendCoin o below (stackGetCoin s.db o below) with ⟨r, c', b⟩
  have hs' := hs
  rw [hget.eq] at hs'
  obtain ⟨hc', hv, hr, hb⟩ := CCoinsViewCache.SpendCoin_spec hbelow.unspent hc hs'
  obtain ⟨hb₁, hb₂, hb₃⟩ := below_spec hbelow hget hb
  refine ⟨r, ⟨c' :: b, s.db⟩, ?_, ⟨⟨by rw [hb₂]; exact hc', hb₁⟩, by simp, ?_⟩, by simp [hcs, hb₃], hr⟩
  · rw [SpendCoin, hcs, onTop_cons, hs]
    rfl
  · show mapView c'.cacheCoins (stackView s.db b) = _
    rw [hb₂, hv]

theorem GetCoin_spec (h : s.Represents m) (o : COutPoint) :
    ∃ s', s.GetCoin o = .ok (m o, s') ∧ s'.Represents m ∧ s'.caches.length = s.caches.length := by
  obtain ⟨c, below, hcs, hc, hbelow, rfl⟩ := h.cons
  have hget : GetCoinSpec s.db o (c :: below) := stackGetCoin_spec ⟨hc, hbelow⟩
  refine ⟨⟨(stackGetCoin s.db o (c :: below)).2, s.db⟩, ?_, ⟨hget.consistent, by simp [hget.length], hget.view⟩,
    by simp [hcs, hget.length]⟩
  rw [GetCoin, hcs, onTop_cons]
  exact congrArg (fun a => Except.ok (a, _)) hget.answer

/-- A read of the top that only fetches leaves the stack as `FetchCoin` left
it, answering as before. -/
theorem fetch_spec (hc : Coins.Consistent (stackView s.db below) c.cacheCoins) (hbelow : StackConsistent s.db below)
    {r : Option CCoinsCacheEntry} {c' : CCoinsViewCache} {b : List CCoinsViewCache}
    (hf : c.FetchCoin o below (stackGetCoin s.db o below) = (r, c', b)) :
    (⟨c' :: b, s.db⟩ : CoinsStack).Represents (mapView c.cacheCoins (stackView s.db below)) ∧
      b.length = below.length := by
  obtain ⟨hcons, hview, hlen⟩ := fetch_top hc hbelow (stackGetCoin_spec hbelow) hf
  exact ⟨⟨hcons, by simp, hview⟩, hlen⟩

theorem HaveCoin_spec (h : s.Represents m) (o : COutPoint) :
    ∃ s', s.HaveCoin o = .ok ((m o).isSome, s') ∧ s'.Represents m ∧ s'.caches.length = s.caches.length := by
  obtain ⟨c, below, hcs, hc, hbelow, rfl⟩ := h.cons
  rcases hf : c.FetchCoin o below (stackGetCoin s.db o below) with ⟨r, c', b⟩
  obtain ⟨hs', hlen⟩ := fetch_spec hc hbelow hf
  have hans : (c.HaveCoin o below (stackGetCoin s.db o below)).1 =
      (mapView c.cacheCoins (stackView s.db below) o).isSome := by
    rw [(stackGetCoin_spec hbelow).eq]
    exact CCoinsViewCache.HaveCoin_spec hbelow.unspent hc _ _
  refine ⟨⟨c' :: b, s.db⟩, ?_, hs', by simp [hcs, hlen]⟩
  rw [HaveCoin, hcs, onTop_cons, hans, CCoinsViewCache.HaveCoin_snd, hf]
  rfl

theorem AccessCoin_spec (h : s.Represents m) (o : COutPoint) :
    ∃ s', s.AccessCoin o = .ok ((m o).getD coinEmpty, s') ∧ s'.Represents m ∧
      s'.caches.length = s.caches.length := by
  obtain ⟨c, below, hcs, hc, hbelow, rfl⟩ := h.cons
  rcases hf : c.FetchCoin o below (stackGetCoin s.db o below) with ⟨r, c', b⟩
  obtain ⟨hs', hlen⟩ := fetch_spec hc hbelow hf
  have hans : (c.AccessCoin o below (stackGetCoin s.db o below)).1 =
      (mapView c.cacheCoins (stackView s.db below) o).getD coinEmpty := by
    rw [(stackGetCoin_spec hbelow).eq]
    exact CCoinsViewCache.AccessCoin_spec hbelow.unspent hc _ _
  refine ⟨⟨c' :: b, s.db⟩, ?_, hs', by simp [hcs, hlen]⟩
  rw [AccessCoin, hcs, onTop_cons, hans, CCoinsViewCache.AccessCoin_snd, hf]
  rfl

end CoinsStack

/-- `Uncache` of any layer changes no answer; the induction goes down to the layer. -/
theorem uncacheAt_spec : ∀ (i : Nat) {cs : List CCoinsViewCache}, StackConsistent db cs →
    StackConsistent db (uncacheAt o i cs) ∧ stackView db (uncacheAt o i cs) = stackView db cs ∧
      (uncacheAt o i cs).length = cs.length
  | i, [], h => by cases i <;> exact ⟨h, rfl, rfl⟩
  | 0, c :: below, ⟨hc, hbelow⟩ => by
    obtain ⟨hc', hv⟩ := CCoinsViewCache.Uncache_spec (o := o) hc
    exact ⟨⟨hc', hbelow⟩, hv, rfl⟩
  | i + 1, c :: below, ⟨hc, hbelow⟩ => by
    obtain ⟨h₁, h₂, h₃⟩ := uncacheAt_spec i hbelow
    refine ⟨⟨by rw [h₂]; exact hc, h₁⟩, ?_, by simp [uncacheAt, h₃]⟩
    show mapView c.cacheCoins (stackView db (uncacheAt o i below)) = _
    rw [h₂]
    rfl

/-- `Flush` of any layer of a consistent stack does not throw and changes no
answer of that layer or those above it; those above are as they were, and the
flushed layer is empty. -/
theorem flushAt_spec : ∀ (i : Nat) {cs : List CCoinsViewCache} {db : CCoinsViewDB}, StackConsistent db cs →
    ∃ cs' db', flushAt db i cs = .ok (cs', db') ∧ StackConsistent db' cs' ∧ stackView db' cs' = stackView db cs ∧
      cs'.length = cs.length ∧ cs'.take i = cs.take i ∧ ∀ e, cs'[i]? = some e → e.cacheCoins = ∅
  | i, [], db, h => by cases i <;> exact ⟨[], db, rfl, h, rfl, rfl, rfl, by simp⟩
  | 0, [c], db, ⟨hc, hdb⟩ => by
    -- the bottom layer is written to the database
    have hw := CCoinsViewDB.BatchWrite_spec hc
    refine ⟨[⟨∅, 0⟩], db.BatchWrite c.cacheCoins, rfl, ⟨Consistent.empty _, ?_⟩, ?_, rfl, rfl, ?_⟩
    · show Unspent (db.BatchWrite c.cacheCoins).coins
      rw [hw]
      exact hdb.mapView _
    · show mapView ∅ (db.BatchWrite c.cacheCoins).coins = mapView c.cacheCoins db.coins
      rw [mapView_empty, hw]
    · intro e he
      cases he
      rfl
  | 0, c :: p :: rest, db, ⟨hc, hp, hrest⟩ => by
    -- a layer is written into the one below it
    obtain ⟨p', hbw, hp', hv⟩ := CCoinsViewCache.BatchWrite_spec hp hc
    refine ⟨⟨∅, 0⟩ :: p' :: rest, db, ?_, ⟨Consistent.empty _, hp', hrest⟩, ?_, rfl, rfl, ?_⟩
    · show (do let r ← c.Flush p.BatchWrite; pure (r.1 :: r.2 :: rest, db)) = _
      simp only [CCoinsViewCache.Flush, hbw]
      rfl
    · show mapView ∅ (mapView p'.cacheCoins (stackView db rest)) = _
      rw [mapView_empty, hv]
      rfl
    · intro e he
      cases he
      rfl
  | i + 1, c :: below, db, ⟨hc, hbelow⟩ => by
    obtain ⟨below', db', hf, h₁, h₂, h₃, h₄, h₅⟩ := flushAt_spec i hbelow
    refine ⟨c :: below', db', ?_, ⟨by rw [h₂]; exact hc, h₁⟩, ?_, by simp [h₃], by simp [h₄], h₅⟩
    · rw [flushAt, hf]
      rfl
    · show mapView c.cacheCoins (stackView db' below') = _
      rw [h₂]
      rfl

/-! ## Runs -/

namespace CoinsStack

theorem run_cons_of_step {s s₁ : CoinsStack} {op : CacheOp} {a : Option Answer} (ops : List CacheOp)
    (h : s.step op = .ok (s₁, a)) :
    s.run (op :: ops) = s₁.run ops >>= fun r => pure (r.1, a.toList ++ r.2) := by
  rw [run, h]
  rfl

/-- One allowed operation on a consistent stack does not throw, keeps the
invariant, answers as the map does and changes the stack's answers as it
changes the map. -/
theorem step_refines {s : CoinsStack} {op : CacheOp} (hs : s.Consistent)
    (hop : op.Allowed s.view s.caches.length) :
    ∃ s' : CoinsStack, s.step op = .ok (s', (absStep s.view op).2) ∧ s'.Consistent ∧
      s'.view = (absStep s.view op).1 ∧ s'.caches.length = op.height s.caches.length := by
  cases op with
  | AddCoin o coin possible_overwrite =>
    obtain ⟨hn, hspent, hallowed⟩ := hop
    obtain ⟨s', hadd, hs', hlen⟩ := AddCoin_spec ⟨hs, hn, rfl⟩ hspent hallowed
    refine ⟨s', ?_, hs'.consistent, hs'.view, hlen⟩
    rw [step, hadd]
    rfl
  | SpendCoin o =>
    obtain ⟨r, s', hsp, hs', hlen, -⟩ := SpendCoin_spec ⟨hs, hop, rfl⟩ o
    refine ⟨s', ?_, hs'.consistent, hs'.view, hlen⟩
    rw [step, hsp]
    rfl
  | GetCoin o =>
    obtain ⟨s', hget, hs', hlen⟩ := GetCoin_spec ⟨hs, hop, rfl⟩ o
    refine ⟨s', ?_, hs'.consistent, hs'.view, hlen⟩
    rw [step, hget]
    rfl
  | HaveCoin o =>
    obtain ⟨s', hhave, hs', hlen⟩ := HaveCoin_spec ⟨hs, hop, rfl⟩ o
    refine ⟨s', ?_, hs'.consistent, hs'.view, hlen⟩
    rw [step, hhave]
    rfl
  | AccessCoin o =>
    obtain ⟨s', hacc, hs', hlen⟩ := AccessCoin_spec ⟨hs, hop, rfl⟩ o
    refine ⟨s', ?_, hs'.consistent, hs'.view, hlen⟩
    rw [step, hacc]
    rfl
  | Uncache i o =>
    obtain ⟨h₁, h₂, h₃⟩ := uncacheAt_spec (o := o) i hs
    exact ⟨_, rfl, h₁, h₂, h₃⟩
  | Flush i =>
    obtain ⟨cs', db', hf, h₁, h₂, h₃, -⟩ := flushAt_spec i hs
    refine ⟨⟨cs', db'⟩, ?_, h₁, h₂, h₃⟩
    rw [step, hf]
    rfl
  | push => exact ⟨_, rfl, ⟨Consistent.empty _, hs⟩, mapView_empty _, rfl⟩
  | pop =>
    obtain ⟨caches, db⟩ := s
    cases caches with
    | nil => exact ⟨_, rfl, hs, rfl, rfl⟩
    | cons c below =>
      obtain ⟨cs', db', hf, h₁, h₂, h₃, -, h₅⟩ := flushAt_spec 0 hs
      obtain ⟨e, rest, rfl⟩ := List.exists_cons_of_length_pos (by simp [h₃] : 0 < cs'.length)
      -- the flushed top is empty, so dropping it changes no answer
      have he : e.cacheCoins = ∅ := h₅ e rfl
      refine ⟨⟨rest, db'⟩, ?_, h₁.2, ?_, by simpa [CacheOp.height] using h₃⟩
      · rw [step, hf]
        rfl
      · show stackView db' rest = stackView db (c :: below)
        rw [← h₂]
        show _ = mapView e.cacheCoins _
        rw [he, mapView_empty]

/-- A run of allowed operations from a consistent stack does not throw, and
answers and ends as the map does; the induction is on the run, one
`step_refines` an operation. -/
theorem run_refines : ∀ (ops : List CacheOp) {s : CoinsStack}, s.Consistent →
    AllowedRun s.view s.caches.length ops →
    ∃ s' : CoinsStack, s.run ops = .ok (s', (absRun s.view ops).2) ∧ s'.Consistent ∧ s'.view = (absRun s.view ops).1
  | [], s, hs, _ => ⟨s, rfl, hs, rfl⟩
  | op :: ops, s, hs, ⟨hop, hops⟩ => by
    obtain ⟨s₁, hstep, hs₁, hview₁, hlen₁⟩ := step_refines hs hop
    rw [← hview₁, ← hlen₁] at hops
    obtain ⟨s₂, hrun, hs₂, hview₂⟩ := run_refines ops hs₁ hops
    rw [hview₁] at hrun hview₂
    refine ⟨s₂, ?_, hs₂, hview₂⟩
    rw [run_cons_of_step ops hstep, hrun]
    rfl

end CoinsStack

/-! ## Flushing every layer -/

/-- A stack whose layers are all empty answers as the database does. -/
theorem stackView_of_empty : ∀ {cs : List CCoinsViewCache}, (∀ c ∈ cs, c.cacheCoins = ∅) → stackView db cs = db.coins
  | [], _ => rfl
  | c :: below, h => by
    show mapView c.cacheCoins (stackView db below) = db.coins
    rw [h c List.mem_cons_self, mapView_empty, stackView_of_empty fun x hx => h x (List.mem_cons_of_mem _ hx)]

namespace CoinsStack

/-- Flushing layers `i`, `i + 1`, … in turn, over a stack whose top `i` layers
are empty, empties `k` more of them and changes no answer: each flush leaves
the layers above it as they were. -/
theorem run_flushes : ∀ (k i : Nat) {s : CoinsStack}, s.Consistent → (∀ c ∈ s.caches.take i, c.cacheCoins = ∅) →
    ∃ s' : CoinsStack, s.run ((List.range' i k).map CacheOp.Flush) = .ok (s', []) ∧ s'.Consistent ∧
      s'.view = s.view ∧ s'.caches.length = s.caches.length ∧ ∀ c ∈ s'.caches.take (i + k), c.cacheCoins = ∅
  | 0, _, s, hs, htop => ⟨s, rfl, hs, rfl, rfl, htop⟩
  | k + 1, i, s, hs, htop => by
    obtain ⟨cs', db', hf, h₁, h₂, h₃, h₄, h₅⟩ := flushAt_spec i hs
    have htop' : ∀ c ∈ cs'.take (i + 1), c.cacheCoins = ∅ := by
      intro c hc
      rw [List.take_add_one, List.mem_append, h₄] at hc
      rcases hc with hc | hc
      · exact htop c hc
      · exact h₅ c (Option.mem_toList.mp hc)
    obtain ⟨s'', hrun, hs'', hv, hlen, hempty⟩ := run_flushes k (i + 1) (s := ⟨cs', db'⟩) h₁ htop'
    have hstep : s.step (.Flush i) = .ok (⟨cs', db'⟩, none) := by
      rw [step, hf]
      rfl
    refine ⟨s'', ?_, hs'', hv.trans h₂, hlen.trans h₃, by rwa [← Nat.add_assoc, Nat.add_right_comm]⟩
    rw [List.range'_succ, List.map_cons, run_cons_of_step _ hstep, hrun]
    rfl

/-- A stack of caches over the database refines one map of unspent coins: a
run of allowed operations from a consistent stack never throws, its reads
answer as the map does, the stack stays consistent and answers as the map,
and flushing every layer, top first, leaves the map in the database. -/
theorem stack_refines_utxo_map {s : CoinsStack} {ops : List CacheOp} (hs : s.Consistent)
    (hops : AllowedRun s.view s.caches.length ops) :
    ∃ s' : CoinsStack, s.run ops = .ok (s', (absRun s.view ops).2) ∧ s'.Consistent ∧
      s'.view = (absRun s.view ops).1 ∧
      ∃ s'' : CoinsStack, s'.run ((List.range s'.caches.length).map CacheOp.Flush) = .ok (s'', []) ∧
        s''.db.coins = (absRun s.view ops).1 := by
  obtain ⟨s', hrun, hs', hview⟩ := run_refines ops hs hops
  obtain ⟨s'', hflush, -, hview', hlen, hempty⟩ := run_flushes s'.caches.length 0 hs' (by simp)
  refine ⟨s', hrun, hs', hview, s'', by rwa [List.range_eq_range'], ?_⟩
  have hall : ∀ c ∈ s''.caches, c.cacheCoins = ∅ := by
    rwa [Nat.zero_add, ← hlen, List.take_length] at hempty
  calc s''.db.coins = s''.view := (stackView_of_empty hall).symm
    _ = s'.view := hview'
    _ = _ := hview

/-- One empty cache over an empty database, as the node starts. -/
def emptyStack : CoinsStack := ⟨[⟨∅, 0⟩], ⟨fun _ => none⟩⟩

theorem emptyStack_represents : emptyStack.Represents fun _ => none :=
  ⟨⟨Consistent.empty _, fun _ _ h => by cases h⟩, by decide, funext fun _ => rfl⟩

theorem stack_refines_utxo_map_two_layers :
    emptyStack.Consistent ∧
      AllowedRun emptyStack.view 1 [.AddCoin ⟨1, 0⟩ ⟨⟨50, [0x51]⟩, false, 1⟩ false, .push,
        .AddCoin ⟨2, 0⟩ ⟨⟨70, List.replicate 30 0⟩, false, 1⟩ false, .SpendCoin ⟨1, 0⟩, .Flush 0,
        .GetCoin ⟨1, 0⟩, .pop, .HaveCoin ⟨2, 0⟩] ∧
      ∃ s' : CoinsStack, emptyStack.run [.AddCoin ⟨1, 0⟩ ⟨⟨50, [0x51]⟩, false, 1⟩ false, .push,
          .AddCoin ⟨2, 0⟩ ⟨⟨70, List.replicate 30 0⟩, false, 1⟩ false, .SpendCoin ⟨1, 0⟩, .Flush 0,
          .GetCoin ⟨1, 0⟩, .pop, .HaveCoin ⟨2, 0⟩] =
          .ok (s', (absRun emptyStack.view [.AddCoin ⟨1, 0⟩ ⟨⟨50, [0x51]⟩, false, 1⟩ false, .push,
            .AddCoin ⟨2, 0⟩ ⟨⟨70, List.replicate 30 0⟩, false, 1⟩ false, .SpendCoin ⟨1, 0⟩, .Flush 0,
            .GetCoin ⟨1, 0⟩, .pop, .HaveCoin ⟨2, 0⟩]).2) ∧ s'.Consistent ∧
        s'.view = (absRun emptyStack.view [.AddCoin ⟨1, 0⟩ ⟨⟨50, [0x51]⟩, false, 1⟩ false, .push,
          .AddCoin ⟨2, 0⟩ ⟨⟨70, List.replicate 30 0⟩, false, 1⟩ false, .SpendCoin ⟨1, 0⟩, .Flush 0,
          .GetCoin ⟨1, 0⟩, .pop, .HaveCoin ⟨2, 0⟩]).1 ∧
        ∃ s'' : CoinsStack, s'.run ((List.range s'.caches.length).map CacheOp.Flush) = .ok (s'', []) ∧
          s''.db.coins = (absRun emptyStack.view [.AddCoin ⟨1, 0⟩ ⟨⟨50, [0x51]⟩, false, 1⟩ false, .push,
            .AddCoin ⟨2, 0⟩ ⟨⟨70, List.replicate 30 0⟩, false, 1⟩ false, .SpendCoin ⟨1, 0⟩, .Flush 0,
            .GetCoin ⟨1, 0⟩, .pop, .HaveCoin ⟨2, 0⟩]).1 := by
  have hs : emptyStack.Consistent := ⟨Consistent.empty _, fun _ _ h => by cases h⟩
  have hops : AllowedRun emptyStack.view 1 [.AddCoin ⟨1, 0⟩ ⟨⟨50, [0x51]⟩, false, 1⟩ false, .push,
      .AddCoin ⟨2, 0⟩ ⟨⟨70, List.replicate 30 0⟩, false, 1⟩ false, .SpendCoin ⟨1, 0⟩, .Flush 0,
      .GetCoin ⟨1, 0⟩, .pop, .HaveCoin ⟨2, 0⟩] := by decide
  exact ⟨hs, hops, stack_refines_utxo_map hs hops⟩

end CoinsStack

end Palladium.Coins
