import Palladium.Coins.CoinsView

/-!
# What a cache answers

A coins view answers, for each outpoint, the unspent coin there or nothing: a
`CoinsMap`. A map of cache entries over a base that answers `P` answers from
its entry where it has one and as `P` elsewhere (`mapView`). What makes this
sound is `Consistent P`: an entry that is not DIRTY answers as the base does,
a FRESH entry's outpoint has no unspent coin in the base, and a spent entry
holds the cleared coin. Each function of `CCoinsViewCache` keeps the invariant
and changes the answers as the map of unspent coins changes: reads change
nothing, `AddCoin` sets a coin, `SpendCoin` removes one, `Uncache` changes
nothing, and `BatchWrite` makes the parent answer what the child answered.
-/

namespace Palladium.Coins

set_option autoImplicit false

/-- The answers of a coins view: the unspent coin at each outpoint. -/
abbrev CoinsMap := COutPoint → Option Coin

/-- A view answers only unspent coins. -/
def Unspent (P : CoinsMap) : Prop := ∀ o x, P o = some x → x.IsSpent = false

namespace CCoinsCacheEntry

/-- What an entry answers: its coin when it is unspent. -/
def view (e : CCoinsCacheEntry) : Option Coin := if e.coin.IsSpent then none else some e.coin

theorem view_eq_none_iff {e : CCoinsCacheEntry} : e.view = none ↔ e.coin.IsSpent = true := by
  cases h : e.coin.IsSpent <;> simp [view, h]

theorem view_of_unspent {e : CCoinsCacheEntry} (h : e.coin.IsSpent = false) : e.view = some e.coin := by
  simp [view, h]

theorem eq_of_view_eq_some {e : CCoinsCacheEntry} {x : Coin} (h : e.view = some x) :
    e.coin = x ∧ e.coin.IsSpent = false := by
  cases hs : e.coin.IsSpent <;> simp_all [view]

/-- An entry over a base that answers `below` at its outpoint. -/
structure Sound (below : Option Coin) (e : CCoinsCacheEntry) : Prop where
  clean : e.dirty = false → below = e.view
  fresh : e.fresh = true → below = none
  cleared : e.coin.IsSpent = true → e.coin = coinEmpty

end CCoinsCacheEntry

open CCoinsCacheEntry

/-- What a list of entries answers over a base answering `P`. -/
def entriesView (l : List (Σ _ : COutPoint, CCoinsCacheEntry)) (P : CoinsMap) : CoinsMap := fun o =>
  match l.dlookup o with
  | some e => e.view
  | none => P o

/-- What a map of entries answers over a base answering `P`. -/
def mapView (m : CCoinsMap) (P : CoinsMap) : CoinsMap := entriesView m.entries P

/-- Every entry of `m` is sound over the base `P`. -/
def Consistent (P : CoinsMap) (m : CCoinsMap) : Prop := ∀ o e, m.lookup o = some e → e.Sound (P o)

variable {P : CoinsMap} {m : CCoinsMap} {o : COutPoint} {e : CCoinsCacheEntry}

theorem mapView_apply (m : CCoinsMap) (P : CoinsMap) (o : COutPoint) :
    mapView m P o = match m.lookup o with
      | some e => e.view
      | none => P o := rfl

theorem mapView_of_lookup_some (h : m.lookup o = some e) : mapView m P o = e.view := by
  rw [mapView_apply, h]

theorem mapView_of_lookup_none (h : m.lookup o = none) : mapView m P o = P o := by
  rw [mapView_apply, h]

@[simp] theorem mapView_empty (P : CoinsMap) : mapView ∅ P = P := rfl

theorem mapView_insert (m : CCoinsMap) (P : CoinsMap) (o : COutPoint) (e : CCoinsCacheEntry) :
    mapView (m.insert o e) P = Function.update (mapView m P) o e.view := by
  funext x
  by_cases hx : x = o
  · subst hx
    rw [mapView_of_lookup_some (AList.lookup_insert _), Function.update_self]
  · rw [mapView_apply, AList.lookup_insert_ne hx, Function.update_of_ne hx, mapView_apply]

theorem mapView_erase (m : CCoinsMap) (P : CoinsMap) (o : COutPoint) :
    mapView (m.erase o) P = Function.update (mapView m P) o (P o) := by
  funext x
  by_cases hx : x = o
  · subst hx
    rw [mapView_of_lookup_none (AList.lookup_erase _ _), Function.update_self]
  · rw [mapView_apply, AList.lookup_erase_ne hx, Function.update_of_ne hx, mapView_apply]

/-- The loop of `BatchWrite` sees the entries one at a time: the first sets
its outpoint's answer, and the others cannot change it. -/
theorem entriesView_cons {l : List (Σ _ : COutPoint, CCoinsCacheEntry)} (h : o ∉ l.keys) (P : CoinsMap) :
    entriesView (⟨o, e⟩ :: l) P = entriesView l (Function.update P o e.view) := by
  funext x
  by_cases hx : x = o
  · subst hx
    simp [entriesView, List.dlookup_cons_eq, List.dlookup_eq_none.mpr h]
  · simp only [entriesView, List.dlookup_cons_ne l ⟨o, e⟩ hx, Function.update_of_ne hx]

theorem Unspent.mapView (hP : Unspent P) (m : CCoinsMap) : Unspent (mapView m P) := by
  intro x c h
  cases hl : m.lookup x with
  | some e =>
    rw [mapView_of_lookup_some hl] at h
    obtain ⟨rfl, hs⟩ := eq_of_view_eq_some h
    exact hs
  | none =>
    rw [mapView_of_lookup_none hl] at h
    exact hP x c h

theorem Consistent.empty (P : CoinsMap) : Consistent P ∅ := by
  intro x e h
  cases h

theorem Consistent.insert (hm : Consistent P m) (he : e.Sound (P o)) : Consistent P (m.insert o e) := by
  intro x e' hx
  by_cases hxo : x = o
  · subst hxo
    rw [AList.lookup_insert] at hx
    cases hx
    exact he
  · rw [AList.lookup_insert_ne hxo] at hx
    exact hm x e' hx

theorem Consistent.erase (hm : Consistent P m) : Consistent P (m.erase o) := by
  intro x e' hx
  by_cases hxo : x = o
  · subst hxo
    rw [AList.lookup_erase] at hx
    cases hx
  · rw [AList.lookup_erase_ne hxo] at hx
    exact hm x e' hx

/-! ## The functions of the cache over a base answering `P` -/

namespace CCoinsViewCache

variable {σ : Type} {c : CCoinsViewCache}

/-- `FetchCoin`: the map it leaves is consistent and answers as before, the
entry it returns is the map's at `o` (none only where the base has nothing),
and it leaves the base as it was or as the base's `GetCoin` left it. -/
theorem FetchCoin_spec (hP : Unspent P) (hc : Consistent P c.cacheCoins) {base base' b : σ}
    {r : Option CCoinsCacheEntry} {c' : CCoinsViewCache} (h : c.FetchCoin o base (P o, base') = (r, c', b)) :
    Consistent P c'.cacheCoins ∧ mapView c'.cacheCoins P = mapView c.cacheCoins P ∧
      c'.cacheCoins.lookup o = r ∧ (r = none → P o = none) ∧ (b = base ∨ b = base') := by
  cases hl : c.cacheCoins.lookup o with
  | some e =>
    rw [FetchCoin_hit hl] at h
    simp only [Prod.mk.injEq] at h
    obtain ⟨rfl, rfl, rfl⟩ := h
    exact ⟨hc, rfl, hl, by simp, .inl rfl⟩
  | none =>
    cases hPo : P o with
    | none =>
      rw [hPo, FetchCoin_miss_none hl] at h
      simp only [Prod.mk.injEq] at h
      obtain ⟨rfl, rfl, rfl⟩ := h
      exact ⟨hc, rfl, hl, fun _ => rfl, .inr rfl⟩
    | some tmp =>
      have htmp : tmp.IsSpent = false := hP o tmp hPo
      rw [hPo, FetchCoin_miss_some hl] at h
      simp only [Prod.mk.injEq] at h
      obtain ⟨rfl, rfl, rfl⟩ := h
      -- the pulled entry is clean, not FRESH, and answers the base's coin
      have hview : (⟨tmp, false, tmp.IsSpent⟩ : CCoinsCacheEntry).view = some tmp := view_of_unspent htmp
      refine ⟨hc.insert ⟨fun _ => hPo.trans hview.symm, by simp [htmp], by simp [htmp]⟩, ?_,
        AList.lookup_insert _, by simp, .inr rfl⟩
      rw [mapView_insert, Function.update_eq_self_iff, hview, mapView_of_lookup_none hl, hPo]

theorem GetCoin_spec (hP : Unspent P) (hc : Consistent P c.cacheCoins) (base base' : σ) :
    (c.GetCoin o base (P o, base')).1 = mapView c.cacheCoins P o := by
  rcases hf : c.FetchCoin o base (P o, base') with ⟨r, c', b⟩
  obtain ⟨-, hview, hl, hnone, -⟩ := FetchCoin_spec hP hc hf
  rw [← hview]
  unfold GetCoin
  rw [hf]
  cases r with
  | some e => rw [mapView_of_lookup_some hl]; rfl
  | none => rw [mapView_of_lookup_none hl, hnone rfl]

theorem HaveCoin_spec (hP : Unspent P) (hc : Consistent P c.cacheCoins) (base base' : σ) :
    (c.HaveCoin o base (P o, base')).1 = (mapView c.cacheCoins P o).isSome := by
  rcases hf : c.FetchCoin o base (P o, base') with ⟨r, c', b⟩
  obtain ⟨-, hview, hl, hnone, -⟩ := FetchCoin_spec hP hc hf
  rw [← hview]
  unfold HaveCoin
  rw [hf]
  cases r with
  | some e =>
    rw [mapView_of_lookup_some hl]
    cases hs : e.coin.IsSpent <;> simp [view, hs]
  | none => rw [mapView_of_lookup_none hl, hnone rfl]; rfl

/-- `AccessCoin` answers the cleared coin where there is no unspent one. -/
theorem AccessCoin_spec (hP : Unspent P) (hc : Consistent P c.cacheCoins) (base base' : σ) :
    (c.AccessCoin o base (P o, base')).1 = (mapView c.cacheCoins P o).getD coinEmpty := by
  rcases hf : c.FetchCoin o base (P o, base') with ⟨r, c', b⟩
  obtain ⟨hc', hview, hl, hnone, -⟩ := FetchCoin_spec hP hc hf
  rw [← hview]
  unfold AccessCoin
  rw [hf]
  cases r with
  | some e =>
    rw [mapView_of_lookup_some hl]
    show e.coin = e.view.getD coinEmpty
    cases hs : e.coin.IsSpent
    · rw [view_of_unspent hs]
      rfl
    · rw [view_eq_none_iff.mpr hs, (hc' o e hl).cleared hs]
      rfl
  | none => rw [mapView_of_lookup_none hl, hnone rfl]; rfl

/-- `SpendCoin`: the outpoint answers nothing afterwards, and an unspent coin
there is the one moved out. -/
theorem SpendCoin_spec (hP : Unspent P) (hc : Consistent P c.cacheCoins) {base base' b : σ}
    {r : Option Coin} {c' : CCoinsViewCache} (h : c.SpendCoin o base (P o, base') = (r, c', b)) :
    Consistent P c'.cacheCoins ∧ mapView c'.cacheCoins P = Function.update (mapView c.cacheCoins P) o none ∧
      (∀ x, mapView c.cacheCoins P o = some x → r = some x) ∧ (b = base ∨ b = base') := by
  rcases hf : c.FetchCoin o base (P o, base') with ⟨r₀, c₁, b₁⟩
  obtain ⟨hc₁, hview, hl, hnone, hb⟩ := FetchCoin_spec hP hc hf
  unfold SpendCoin at h
  rw [hf] at h
  cases r₀ with
  | none =>
    -- nothing to spend: the outpoint answers nothing already
    simp only [Prod.mk.injEq] at h
    obtain ⟨rfl, rfl, rfl⟩ := h
    have h0 : mapView c.cacheCoins P o = none := by rw [← hview, mapView_of_lookup_none hl, hnone rfl]
    refine ⟨hc₁, ?_, fun x hx => (by rw [h0] at hx; cases hx), hb⟩
    rw [hview, eq_comm, Function.update_eq_self_iff, h0]
  | some e =>
    have hsound := hc₁ o e hl
    have hmoved : ∀ x, mapView c.cacheCoins P o = some x → some e.coin = some x := by
      intro x hx
      rw [← hview, mapView_of_lookup_some hl] at hx
      rw [(eq_of_view_eq_some hx).1]
    dsimp only at h
    split at h
    · -- a FRESH entry is erased: the base has nothing there
      rename_i hfresh
      simp only [Prod.mk.injEq] at h
      obtain ⟨rfl, rfl, rfl⟩ := h
      refine ⟨hc₁.erase, ?_, hmoved, hb⟩
      rw [mapView_erase, hview, hsound.fresh hfresh]
    · -- otherwise the entry is cleared and marked DIRTY
      rename_i hfresh
      simp only [Prod.mk.injEq] at h
      obtain ⟨rfl, rfl, rfl⟩ := h
      refine ⟨hc₁.insert ⟨by simp, fun hf => absurd hf hfresh, by simp⟩, ?_, hmoved, hb⟩
      rw [mapView_insert, hview]
      rfl

/-- `AddCoin` with `possible_overwrite`, or where nothing unspent is
answered, does not throw; it sets the coin unless its script is unspendable. -/
theorem AddCoin_spec (hc : Consistent P c.cacheCoins) {coin : Coin} {possible_overwrite : Bool}
    (hspent : coin.IsSpent = false) (hallowed : possible_overwrite = true ∨ mapView c.cacheCoins P o = none) :
    ∃ c', c.AddCoin o coin possible_overwrite = .ok () c' ∧ Consistent P c'.cacheCoins ∧
      mapView c'.cacheCoins P = if IsUnspendable coin.out.scriptPubKey then mapView c.cacheCoins P
        else Function.update (mapView c.cacheCoins P) o (some coin) := by
  cases hsp : IsUnspendable coin.out.scriptPubKey
  · have hview : ∀ f : Bool, (⟨coin, true, f⟩ : CCoinsCacheEntry).view = some coin :=
      fun _ => view_of_unspent hspent
    cases hl : c.cacheCoins.lookup o with
    | none =>
      -- a new entry; FRESH without `possible_overwrite`, when the base answers nothing
      have hfresh : (!possible_overwrite) = true → P o = none := by
        intro hf
        rcases hallowed with h | h
        · simp [h] at hf
        · rwa [mapView_of_lookup_none hl] at h
      refine ⟨_, AddCoin_new hspent hsp hl, hc.insert ⟨by simp, hfresh, by simp [hspent]⟩, ?_⟩
      rw [mapView_insert, hview]
      rfl
    | some e =>
      have he := hc o e hl
      -- without `possible_overwrite` the entry found is spent, so nothing throws
      have hnothrow : (!possible_overwrite && !e.coin.IsSpent) = false := by
        rcases hallowed with h | h
        · simp [h]
        · rw [mapView_of_lookup_some hl, view_eq_none_iff] at h
          simp [h]
      have hfresh : (e.fresh || (!possible_overwrite && !e.dirty)) = true → P o = none := by
        intro hf
        rcases Bool.or_eq_true_iff.mp hf with hf | hf
        · exact he.fresh hf
        · simp only [Bool.and_eq_true, Bool.not_eq_true'] at hf
          rcases hallowed with h | h
          · simp [h] at hf
          · rw [he.clean hf.2, ← mapView_of_lookup_some hl]
            exact h
      rw [AddCoin_found hspent hsp hl, hnothrow]
      refine ⟨_, rfl, hc.insert ⟨by simp, hfresh, by simp [hspent]⟩, ?_⟩
      rw [mapView_insert, hview]
      rfl
  · exact ⟨c, AddCoin_unspendable hspent hsp, hc, by simp⟩

/-- `Uncache` drops only entries that answer as the base does. -/
theorem Uncache_spec (hc : Consistent P c.cacheCoins) :
    Consistent P (c.Uncache o).cacheCoins ∧ mapView (c.Uncache o).cacheCoins P = mapView c.cacheCoins P := by
  unfold Uncache
  cases hl : c.cacheCoins.lookup o with
  | none => exact ⟨hc, rfl⟩
  | some e =>
    dsimp only
    split
    · rename_i hflags
      have hclean : e.dirty = false := by simp_all
      refine ⟨hc.erase, ?_⟩
      rw [mapView_erase, Function.update_eq_self_iff, mapView_of_lookup_some hl]
      exact (hc o e hl).clean hclean
    · exact ⟨hc, rfl⟩

/-- One pass of `BatchWrite`, for a child entry sound over what the parent
answers: it does not throw, and the parent then answers as the child entry. -/
theorem batchWriteEntry_spec (hc : Consistent P c.cacheCoins) {child : CCoinsCacheEntry}
    (hchild : child.Sound (mapView c.cacheCoins P o)) :
    ∃ c', c.batchWriteEntry o child = .ok c' ∧ Consistent P c'.cacheCoins ∧
      mapView c'.cacheCoins P = Function.update (mapView c.cacheCoins P) o child.view := by
  unfold batchWriteEntry
  cases hd : child.dirty
  · -- a clean entry is ignored, and it answers as the parent already does
    refine ⟨c, rfl, hc, ?_⟩
    rw [eq_comm, Function.update_eq_self_iff]
    exact (hchild.clean hd).symm
  · cases hl : c.cacheCoins.lookup o with
    | none =>
      have hbelow : mapView c.cacheCoins P o = P o := mapView_of_lookup_none hl
      by_cases hskip : (child.fresh && child.coin.IsSpent) = true
      · -- FRESH and spent: dropped, and the parent answers nothing there already
        simp only [Bool.and_eq_true] at hskip
        simp only [Bool.not_true, Bool.false_eq_true, ↓reduceIte, hskip, Bool.and_self]
        refine ⟨c, rfl, hc, ?_⟩
        rw [eq_comm, Function.update_eq_self_iff, view_eq_none_iff.mpr hskip.2]
        exact (hchild.fresh hskip.1).symm
      · -- written up, DIRTY, and FRESH if it was FRESH
        simp only [Bool.not_true, Bool.false_eq_true, ↓reduceIte, hskip]
        refine ⟨_, rfl, hc.insert ⟨by simp, fun hf => ?_, hchild.cleared⟩, by rw [mapView_insert]; rfl⟩
        rw [← hbelow]
        exact hchild.fresh hf
    | some us =>
      have hus := hc o us hl
      -- a FRESH child means the parent answers nothing, so the parent's entry is spent
      have hcheck : (child.fresh && !us.coin.IsSpent) = false := by
        cases hf : child.fresh
        · rfl
        · have h0 := hchild.fresh hf
          rw [mapView_of_lookup_some hl, view_eq_none_iff] at h0
          simp [h0]
      simp only [Bool.not_true, Bool.false_eq_true, ↓reduceIte, hcheck]
      by_cases herase : (us.fresh && child.coin.IsSpent) = true
      · -- the parent's entry was FRESH: the spent child lets it go
        simp only [herase, ↓reduceIte]
        simp only [Bool.and_eq_true] at herase
        refine ⟨_, rfl, hc.erase, ?_⟩
        rw [mapView_erase, hus.fresh herase.1, view_eq_none_iff.mpr herase.2]
      · -- a normal modification: the child's coin, DIRTY, the parent's FRESH bit kept
        simp only [herase, Bool.false_eq_true, ↓reduceIte]
        refine ⟨_, rfl, hc.insert ⟨by simp, hus.fresh, hchild.cleared⟩, ?_⟩
        rw [mapView_insert]
        rfl

/-- The loop of `BatchWrite` into `c`, at the parent `cur` with the child's
entries `rest` still to come. -/
structure BatchWriteProgress (P : CoinsMap) (c : CCoinsViewCache) (mapCoins : CCoinsMap)
    (cur : CCoinsViewCache) (rest : List (Σ _ : COutPoint, CCoinsCacheEntry)) : Prop where
  consistent : Consistent P cur.cacheCoins
  nodup : rest.NodupKeys
  sound : ∀ o e, rest.dlookup o = some e → e.Sound (mapView cur.cacheCoins P o)
  answers : entriesView rest (mapView cur.cacheCoins P) = mapView mapCoins (mapView c.cacheCoins P)

theorem ne_of_dlookup_eq_some {l : List (Σ _ : COutPoint, CCoinsCacheEntry)} {x : COutPoint}
    {e' : CCoinsCacheEntry} (hx : l.dlookup x = some e') (ho : o ∉ l.keys) : x ≠ o := by
  rintro rfl
  exact ho (List.dlookup_isSome.mp (by simp [hx]))

theorem BatchWriteProgress.step {mapCoins : CCoinsMap} {cur : CCoinsViewCache} {b : Σ _ : COutPoint, CCoinsCacheEntry}
    {rest : List (Σ _ : COutPoint, CCoinsCacheEntry)} (hp : BatchWriteProgress P c mapCoins cur (b :: rest)) :
    ∃ cur', cur.batchWriteEntry b.1 b.2 = .ok cur' ∧ BatchWriteProgress P c mapCoins cur' rest := by
  obtain ⟨o, e⟩ := b
  have hnd := List.nodupKeys_cons.mp hp.nodup
  obtain ⟨cur', h, hc', hv⟩ := batchWriteEntry_spec hp.consistent (hp.sound o e (List.dlookup_cons_eq _ _ _))
  refine ⟨cur', h, ⟨hc', hnd.2, fun x e' hx => ?_, ?_⟩⟩
  · -- the entries still to come are at other outpoints, whose answers the pass left alone
    have hxo := ne_of_dlookup_eq_some hx hnd.1
    rw [hv, Function.update_of_ne hxo]
    exact hp.sound x e' (by rw [List.dlookup_cons_ne rest ⟨o, e⟩ hxo]; exact hx)
  · rw [hv, ← entriesView_cons hnd.1]
    exact hp.answers

/-- `BatchWrite` of a child consistent over this cache never throws, and this
cache then answers what the child answered. -/
theorem BatchWrite_spec (hc : Consistent P c.cacheCoins) {mapCoins : CCoinsMap}
    (hm : Consistent (mapView c.cacheCoins P) mapCoins) :
    ∃ c', c.BatchWrite mapCoins = .ok c' ∧ Consistent P c'.cacheCoins ∧
      mapView c'.cacheCoins P = mapView mapCoins (mapView c.cacheCoins P) := by
  obtain ⟨c', h, hp⟩ := MapLoop.foldlM_ok_of_step (BatchWriteProgress P c mapCoins)
    (fun c e => c.batchWriteEntry e.1 e.2) (fun _ _ _ hp => hp.step) mapCoins.entries c
    ⟨hc, mapCoins.nodupKeys, hm, rfl⟩
  exact ⟨c', h, hp.consistent, hp.answers⟩

end CCoinsViewCache

namespace CCoinsViewDB

theorem writeEntry_coins {db : CCoinsViewDB} {e : CCoinsCacheEntry} (h : e.Sound (db.coins o)) :
    (db.writeEntry ⟨o, e⟩).coins = Function.update db.coins o e.view := by
  unfold writeEntry
  cases hd : e.dirty
  · -- a clean entry is skipped: the database holds what it answers
    simp only [Bool.false_eq_true, ↓reduceIte]
    rw [eq_comm, Function.update_eq_self_iff]
    exact (h.clean hd).symm
  · cases hs : e.coin.IsSpent
    · simp [view_of_unspent hs]
    · simp [view_eq_none_iff.mpr hs]

theorem foldl_writeEntry : ∀ (l : List (Σ _ : COutPoint, CCoinsCacheEntry)) (db : CCoinsViewDB),
    l.NodupKeys → (∀ o e, l.dlookup o = some e → e.Sound (db.coins o)) →
      (l.foldl writeEntry db).coins = entriesView l db.coins
  | [], _, _, _ => rfl
  | ⟨o, e⟩ :: rest, db, hnd, hsound => by
    have hnd' := List.nodupKeys_cons.mp hnd
    have h₁ := writeEntry_coins (hsound o e (List.dlookup_cons_eq _ _ _))
    have hrest : ∀ x e', rest.dlookup x = some e' → e'.Sound ((db.writeEntry ⟨o, e⟩).coins x) := by
      intro x e' hx
      have hxo := CCoinsViewCache.ne_of_dlookup_eq_some hx hnd'.1
      rw [h₁, Function.update_of_ne hxo]
      exact hsound x e' (by rw [List.dlookup_cons_ne rest ⟨o, e⟩ hxo]; exact hx)
    rw [List.foldl_cons, foldl_writeEntry rest _ hnd'.2 hrest, h₁, entriesView_cons hnd'.1]

/-- The database then answers what the child answered. -/
theorem BatchWrite_spec {db : CCoinsViewDB} {mapCoins : CCoinsMap} (hm : Consistent db.coins mapCoins) :
    (db.BatchWrite mapCoins).coins = mapView mapCoins db.coins :=
  foldl_writeEntry mapCoins.entries db mapCoins.nodupKeys hm

end CCoinsViewDB

end Palladium.Coins
