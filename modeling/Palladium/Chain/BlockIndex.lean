import Palladium.Arith.Compact

/-!
# Block index entries and the skip list

`CBlockIndex` (`chain.h`) as a value: the header fields it keeps and its two
pointers `pprev` and `pskip`, each holding the entry it points at. Entries
are made by `AddToBlockIndex`, which links `pprev`, sets the height and calls
`BuildSkip`; `GetAncestor` then walks `pskip` and `pprev` pointers. The main
result is that on such entries the walk returns the ancestor reached by
following `pprev`, without reaching its assertion.
-/

namespace Palladium.Chain

open Palladium.Arith

set_option autoImplicit false

/-- The fields of a `CBlockIndex` other than its two pointers. -/
structure IndexFields where
  nHeight : Nat
  nTime : UInt32
  nBits : UInt32
  hashBlock : uint256
  deriving DecidableEq, Repr

/-- A `CBlockIndex` entry; `none` is a null pointer. -/
inductive CBlockIndex where
  | mk (fields : IndexFields) (pprev : Option CBlockIndex) (pskip : Option CBlockIndex)

mutual
/-- Equality of entries; a pointer comparison in the source, where every
entry has its own block hash. -/
def CBlockIndex.decEq : (a b : CBlockIndex) → Decidable (a = b)
  | .mk f p s, .mk f' p' s' =>
    if hf : f = f' then
      match CBlockIndex.decEqOpt p p', CBlockIndex.decEqOpt s s' with
      | isTrue hp, isTrue hs => isTrue (by subst hf hp hs; rfl)
      | isFalse hp, _ => isFalse (fun h => by cases h; exact hp rfl)
      | _, isFalse hs => isFalse (fun h => by cases h; exact hs rfl)
    else isFalse (fun h => by cases h; exact hf rfl)

/-- Equality of nullable entry pointers. -/
def CBlockIndex.decEqOpt : (a b : Option CBlockIndex) → Decidable (a = b)
  | none, none => isTrue rfl
  | some a, some b =>
    match CBlockIndex.decEq a b with
    | isTrue h => isTrue (h ▸ rfl)
    | isFalse h => isFalse (fun e => h (Option.some.inj e))
  | none, some _ => isFalse (fun e => by cases e)
  | some _, none => isFalse (fun e => by cases e)
end

instance : DecidableEq CBlockIndex := CBlockIndex.decEq

namespace CBlockIndex

def fields : CBlockIndex → IndexFields
  | mk f _ _ => f

def pprev : CBlockIndex → Option CBlockIndex
  | mk _ p _ => p

def pskip : CBlockIndex → Option CBlockIndex
  | mk _ _ s => s

def nHeight (p : CBlockIndex) : Nat := p.fields.nHeight

def nBits (p : CBlockIndex) : UInt32 := p.fields.nBits

/-- `GetBlockTime`: `(int64_t)nTime`. -/
def GetBlockTime (p : CBlockIndex) : Int := p.fields.nTime.toNat

def GetBlockHash (p : CBlockIndex) : uint256 := p.fields.hashBlock

@[simp] theorem mk_pprev (f : IndexFields) (p s : Option CBlockIndex) : (mk f p s).pprev = p := rfl
@[simp] theorem mk_pskip (f : IndexFields) (p s : Option CBlockIndex) : (mk f p s).pskip = s := rfl
@[simp] theorem mk_nHeight (f : IndexFields) (p s : Option CBlockIndex) :
    (mk f p s).nHeight = f.nHeight := rfl

/-- `InvertLowestOne`: turn the lowest set bit off. -/
def InvertLowestOne (n : Nat) : Nat := n &&& (n - 1)

/-- `GetSkipHeight`: the height `pskip` jumps back to. -/
def GetSkipHeight (height : Nat) : Nat :=
  if height < 2 then 0
  else if height &&& 1 ≠ 0 then InvertLowestOne (InvertLowestOne (height - 1)) + 1
  else InvertLowestOne height

/-- The `while (heightWalk > height)` loop of `GetAncestor`: take `pskip`
unless `pprev->pskip` would be better, else `pprev`; the error is the failed
`assert(pindexWalk->pprev)`. -/
def walk (height : Nat) : CBlockIndex → Nat → Except String CBlockIndex
  | mk f pprev pskip, heightWalk =>
    if height < heightWalk then
      let heightSkip := GetSkipHeight heightWalk
      let heightSkipPrev := GetSkipHeight (heightWalk - 1)
      match pskip with
      | some s =>
        if heightSkip = height ∨
            (height < heightSkip ∧ ¬(heightSkipPrev + 2 < heightSkip ∧ height ≤ heightSkipPrev)) then
          walk height s heightSkip
        else
          match pprev with
          | some q => walk height q (heightWalk - 1)
          | none => .error "assert(pindexWalk->pprev)"
      | none =>
        match pprev with
        | some q => walk height q (heightWalk - 1)
        | none => .error "assert(pindexWalk->pprev)"
    else .ok (mk f pprev pskip)

/-- `CBlockIndex::GetAncestor(int height)`; `none` is `nullptr`. -/
def GetAncestor (p : CBlockIndex) (height : Int) : Except String (Option CBlockIndex) :=
  if (p.nHeight : Int) < height ∨ height < 0 then .ok none
  else some <$> walk height.toNat p p.nHeight

/-- `CBlockIndex::BuildSkip`: set `pskip` from `pprev`. -/
def BuildSkip : CBlockIndex → Except String CBlockIndex
  | mk f (some q) _ => do
    let s ← q.GetAncestor (GetSkipHeight f.nHeight)
    pure (mk f (some q) s)
  | mk f none s => pure (mk f none s)

/-- The linking part of `BlockManager::AddToBlockIndex`: a new entry for the
header `f` gets `pprev`, the next height and its skip pointer. -/
def AddToBlockIndex (f : IndexFields) : Option CBlockIndex → Except String CBlockIndex
  | some q => BuildSkip (mk { f with nHeight := q.nHeight + 1 } (some q) none)
  | none => pure (mk { f with nHeight := 0 } none none)

/-- The entries `AddToBlockIndex` builds: heights go up by one from a genesis
at 0, and each `pskip` is what `BuildSkip` set. -/
def WellFormed : CBlockIndex → Prop
  | mk f none s => f.nHeight = 0 ∧ s = none
  | mk f (some q) s => WellFormed q ∧ f.nHeight = q.nHeight + 1 ∧
      q.GetAncestor (GetSkipHeight f.nHeight) = .ok s

instance decWellFormed : (p : CBlockIndex) → Decidable (WellFormed p)
  | mk _ none _ => inferInstanceAs (Decidable (_ ∧ _))
  | mk _ (some q) _ =>
    have := decWellFormed q
    inferInstanceAs (Decidable (_ ∧ _ ∧ _))

/-- The entry reached by following `pprev` `d` times. -/
def ancestor : CBlockIndex → Nat → Option CBlockIndex
  | p, 0 => some p
  | p, d + 1 => match p.pprev with
    | some q => q.ancestor d
    | none => none

/-! ## The walk returns the `pprev` ancestor -/

theorem InvertLowestOne_le (n : Nat) : InvertLowestOne n ≤ n - 1 := Nat.and_le_right

theorem GetSkipHeight_lt {h : Nat} (hpos : 0 < h) : GetSkipHeight h < h := by
  unfold GetSkipHeight
  split
  · omega
  · have h1 := InvertLowestOne_le (h - 1)
    have h2 := InvertLowestOne_le (InvertLowestOne (h - 1))
    have h3 := InvertLowestOne_le h
    split <;> omega

@[simp] theorem ancestor_zero (p : CBlockIndex) : p.ancestor 0 = some p := rfl

theorem ancestor_succ {p q : CBlockIndex} (h : p.pprev = some q) (d : Nat) :
    p.ancestor (d + 1) = q.ancestor d := by
  simp [ancestor, h]

theorem ancestor_add {p a : CBlockIndex} {d₁ : Nat} (h : p.ancestor d₁ = some a) (d₂ : Nat) :
    p.ancestor (d₁ + d₂) = a.ancestor d₂ := by
  induction d₁ generalizing p with
  | zero =>
    simp only [ancestor_zero, Option.some.injEq] at h
    subst h
    simp
  | succ d ih =>
    cases hq : p.pprev with
    | none => simp [ancestor, hq] at h
    | some q =>
      rw [ancestor_succ hq] at h
      rw [show d + 1 + d₂ = (d + d₂) + 1 by omega, ancestor_succ hq]
      exact ih h

/-- The invariant behind `GetAncestor`: heights go down by one along `pprev`
to a genesis at 0, and every `pskip` is the ancestor at its skip height. -/
def SkipInvariant : CBlockIndex → Prop
  | mk f none s => f.nHeight = 0 ∧ s = none
  | mk f (some q) s => SkipInvariant q ∧ f.nHeight = q.nHeight + 1 ∧
      s = q.ancestor (q.nHeight - GetSkipHeight f.nHeight)

theorem SkipInvariant.pprev_of_pos {p : CBlockIndex} (hp : SkipInvariant p) (h : 0 < p.nHeight) :
    ∃ q, p.pprev = some q ∧ SkipInvariant q ∧ p.nHeight = q.nHeight + 1 ∧
      p.pskip = q.ancestor (q.nHeight - GetSkipHeight p.nHeight) := by
  match p, hp with
  | mk f none s, ⟨h0, _⟩ => simp [h0] at h
  | mk f (some q) s, ⟨hq, hh, hs⟩ => exact ⟨q, rfl, hq, hh, hs⟩

/-- Under the invariant, every height up to `nHeight` has its ancestor,
which keeps the invariant. -/
theorem SkipInvariant.ancestor_exists {p : CBlockIndex} (hp : SkipInvariant p) {d : Nat}
    (hd : d ≤ p.nHeight) :
    ∃ a, p.ancestor d = some a ∧ a.nHeight = p.nHeight - d ∧ SkipInvariant a := by
  induction d generalizing p with
  | zero => exact ⟨p, rfl, by omega, hp⟩
  | succ d ih =>
    obtain ⟨q, hq, hqi, hh, -⟩ := hp.pprev_of_pos (by omega)
    obtain ⟨a, ha, hah, hai⟩ := ih hqi (by omega)
    exact ⟨a, by rw [ancestor_succ hq]; exact ha, by omega, hai⟩

/-- Under the invariant, the entry `d` steps down sits `d` below and keeps
the invariant. -/
theorem SkipInvariant.ancestor_nHeight : ∀ {p : CBlockIndex} {d : Nat} {a : CBlockIndex},
    SkipInvariant p → p.ancestor d = some a → a.nHeight + d = p.nHeight ∧ SkipInvariant a
  | _, 0, _, hp, ha => by
    cases ha
    exact ⟨rfl, hp⟩
  | mk _ none _, _ + 1, _, _, ha => by simp [ancestor, pprev] at ha
  | mk f (some q) _, d + 1, a, ⟨hq, hh, _⟩, ha => by
    rw [ancestor_succ rfl] at ha
    obtain ⟨had, hai⟩ := SkipInvariant.ancestor_nHeight hq ha
    refine ⟨?_, hai⟩
    show a.nHeight + (d + 1) = f.nHeight
    omega

/-- The walk of `GetAncestor` from an entry at height `n` returns the
ancestor at the requested height, whichever of `pskip` and `pprev` it takes.
The induction is on the height of the current entry, which each step lowers. -/
theorem walk_eq_ancestor (n : Nat) : ∀ p : CBlockIndex, SkipInvariant p → p.nHeight = n →
    ∀ height a, height ≤ n → p.ancestor (n - height) = some a → walk height p n = .ok a := by
  induction n using Nat.strong_induction_on with
  | _ n ih =>
  intro p hp hn height a hle ha
  rcases Nat.lt_or_eq_of_le hle with hlt | heq
  · obtain ⟨q, hq, hqi, hh, hs⟩ := hp.pprev_of_pos (by omega)
    have hskip := GetSkipHeight_lt (show 0 < n by omega)
    obtain ⟨s, hsq, hsh, hsi⟩ := hqi.ancestor_exists (d := q.nHeight - GetSkipHeight n) (by omega)
    rw [hn, hsq] at hs
    -- the ancestor reached through `pprev` and through `pskip`
    have hviaq : q.ancestor (n - 1 - height) = some a := by
      rw [show n - height = (n - 1 - height) + 1 by omega, ancestor_succ hq] at ha
      exact ha
    have hvias : s.ancestor (GetSkipHeight n - height) = some a ∨ height > GetSkipHeight n := by
      by_cases hle' : height ≤ GetSkipHeight n
      · left
        rw [← ancestor_add hsq, show q.nHeight - GetSkipHeight n + (GetSkipHeight n - height) =
          n - 1 - height by omega]
        exact hviaq
      · exact Or.inr (by omega)
    cases p with
    | mk f pp ps =>
      simp only [mk_pprev, mk_pskip] at hq hs
      subst hq hs
      unfold walk
      rw [if_pos hlt]
      simp only
      split
      · rename_i hcond
        have hle' : height ≤ GetSkipHeight n := by omega
        rcases hvias with hv | hv
        · exact ih _ hskip s hsi (by omega) height a hle' hv
        · omega
      · exact ih (n - 1) (by omega) q hqi (by omega) height a (by omega) hviaq
  · subst heq
    cases p with
    | mk f pp ps =>
      unfold walk
      rw [if_neg (by omega)]
      simp only [Nat.sub_self, ancestor_zero, Option.some.injEq] at ha
      rw [ha]

theorem GetAncestor_of_skipInvariant {p : CBlockIndex} (hp : SkipInvariant p) (h : Int) :
    p.GetAncestor h =
      if (p.nHeight : Int) < h ∨ h < 0 then .ok none else .ok (p.ancestor (p.nHeight - h.toNat)) := by
  unfold GetAncestor
  split
  · rfl
  · rename_i hr
    obtain ⟨a, ha, -, -⟩ := hp.ancestor_exists (d := p.nHeight - h.toNat) (by omega)
    rw [walk_eq_ancestor p.nHeight p hp rfl h.toNat a (by omega) ha, ha]
    rfl

/-- Entries built by `AddToBlockIndex` keep the skip invariant. The recursion
follows `pprev`, whose `GetAncestor` set the entry's `pskip`. -/
theorem WellFormed.skipInvariant : ∀ {p : CBlockIndex}, WellFormed p → SkipInvariant p
  | mk _ none _, h => h
  | mk f (some q) s, ⟨hq, hh, hs⟩ => by
    have hqi := WellFormed.skipInvariant hq
    have hlt := GetSkipHeight_lt (show 0 < f.nHeight by omega)
    rw [GetAncestor_of_skipInvariant hqi, if_neg (by omega)] at hs
    refine ⟨hqi, hh, ?_⟩
    rw [Except.ok.injEq, Int.toNat_natCast] at hs
    exact hs.symm

theorem AddToBlockIndex_genesis (f : IndexFields) :
    ∃ p, AddToBlockIndex f none = .ok p ∧ WellFormed p ∧ p.pprev = none := by
  refine ⟨_, rfl, ?_, rfl⟩
  exact ⟨rfl, rfl⟩

/-- `AddToBlockIndex` keeps every entry well formed: the new entry sits one
above its `pprev` with the skip pointer `BuildSkip` computes. -/
theorem AddToBlockIndex_wellFormed {q : CBlockIndex} (hq : WellFormed q) (f : IndexFields) :
    ∃ p, AddToBlockIndex f (some q) = .ok p ∧ WellFormed p ∧ p.pprev = some q ∧
      p.nHeight = q.nHeight + 1 := by
  have hskip := GetAncestor_of_skipInvariant hq.skipInvariant (GetSkipHeight (q.nHeight + 1))
  have hlt := GetSkipHeight_lt (show 0 < q.nHeight + 1 by omega)
  rw [if_neg (by omega)] at hskip
  refine ⟨mk { f with nHeight := q.nHeight + 1 } (some q)
    (q.ancestor (q.nHeight - (GetSkipHeight (q.nHeight + 1) : Int).toNat)), ?_, ?_, rfl, rfl⟩
  · simp only [AddToBlockIndex, BuildSkip, hskip]
    rfl
  · exact ⟨hq, rfl, hskip⟩

/-- The chain of entries with the header fields `f` that `AddToBlockIndex`
builds from a genesis entry, `n` entries above it. -/
def uniformChain (f : IndexFields) : Nat → CBlockIndex
  | 0 => mk { f with nHeight := 0 } none none
  | n + 1 => mk { f with nHeight := n + 1 } (some (uniformChain f n))
      ((uniformChain f n).ancestor (n - GetSkipHeight (n + 1)))

@[simp] theorem uniformChain_nHeight (f : IndexFields) (n : Nat) : (uniformChain f n).nHeight = n := by
  cases n <;> rfl

/-- On a well formed `uniformChain`, `AddToBlockIndex` builds the next one. -/
theorem AddToBlockIndex_uniformChain (f : IndexFields) {n : Nat} (hq : WellFormed (uniformChain f n)) :
    AddToBlockIndex f (some (uniformChain f n)) = .ok (uniformChain f (n + 1)) := by
  have hlt := GetSkipHeight_lt (show 0 < n + 1 by omega)
  have hskip := GetAncestor_of_skipInvariant hq.skipInvariant (GetSkipHeight (n + 1))
  rw [uniformChain_nHeight, if_neg (by omega), Int.toNat_natCast] at hskip
  simp only [AddToBlockIndex, BuildSkip, uniformChain_nHeight, hskip]
  rfl

theorem uniformChain_wellFormed (f : IndexFields) : ∀ n, WellFormed (uniformChain f n)
  | 0 => ⟨rfl, rfl⟩
  | n + 1 => by
    have hq := uniformChain_wellFormed f n
    obtain ⟨p, hp, hwf, -, -⟩ := AddToBlockIndex_wellFormed hq f
    rw [AddToBlockIndex_uniformChain f hq, Except.ok.injEq] at hp
    exact hp ▸ hwf

/-- Every entry of `uniformChain f n` carries the header fields of `f`. -/
theorem uniformChain_ancestor_nBits (f : IndexFields) :
    ∀ n d b, (uniformChain f n).ancestor d = some b → b.nBits = f.nBits
  | 0, 0, b, h => by cases h; rfl
  | 0, _ + 1, b, h => by cases h
  | n + 1, 0, b, h => by cases h; rfl
  | n + 1, d + 1, b, h => uniformChain_ancestor_nBits f n d b h
/-- On every entry built by `AddToBlockIndex`, `GetAncestor h` is `nullptr`
outside `[0, nHeight]` and otherwise the entry `nHeight - h` steps up the
`pprev` chain; the walk always ends without reaching its assertion. -/
theorem GetAncestor_follows_pprev {p : CBlockIndex} (hp : WellFormed p) (h : Int) :
    ((h < 0 ∨ (p.nHeight : Int) < h) → p.GetAncestor h = .ok none) ∧
    (0 ≤ h → h ≤ p.nHeight →
      ∃ a, p.ancestor (p.nHeight - h.toNat) = some a ∧ p.GetAncestor h = .ok (some a)) := by
  have hi := hp.skipInvariant
  rw [GetAncestor_of_skipInvariant hi]
  refine ⟨fun hr => if_pos (Or.symm hr), fun h0 h1 => ?_⟩
  obtain ⟨a, ha, -, -⟩ := hi.ancestor_exists (d := p.nHeight - h.toNat) (by omega)
  exact ⟨a, ha, by rw [if_neg (by omega), ha]⟩

theorem GetAncestor_follows_pprev_height_two :
    WellFormed (mk ⟨2, 0, 0, 2⟩ (some (mk ⟨1, 0, 0, 1⟩ (some (mk ⟨0, 0, 0, 0⟩ none none))
        (some (mk ⟨0, 0, 0, 0⟩ none none)))) (some (mk ⟨0, 0, 0, 0⟩ none none))) ∧
      (mk ⟨2, 0, 0, 2⟩ (some (mk ⟨1, 0, 0, 1⟩ (some (mk ⟨0, 0, 0, 0⟩ none none))
        (some (mk ⟨0, 0, 0, 0⟩ none none)))) (some (mk ⟨0, 0, 0, 0⟩ none none))).GetAncestor 0 =
        .ok (some (mk ⟨0, 0, 0, 0⟩ none none)) := by
  have hwf : WellFormed (mk ⟨2, 0, 0, 2⟩ (some (mk ⟨1, 0, 0, 1⟩ (some (mk ⟨0, 0, 0, 0⟩ none none))
      (some (mk ⟨0, 0, 0, 0⟩ none none)))) (some (mk ⟨0, 0, 0, 0⟩ none none))) := by decide
  obtain ⟨a, ha, hg⟩ := (GetAncestor_follows_pprev hwf 0).2 le_rfl (by decide)
  refine ⟨hwf, ?_⟩
  rw [hg]
  cases ha
  rfl

end CBlockIndex

end Palladium.Chain
