import Palladium.Chain.BlockIndex

/-!
# The active chain

`CChain` (`chain.h`, `chain.cpp`) keeps the entries of one chain in a vector
indexed by height. `SetTip` resizes the vector to the new tip's height and
then writes the tip and its `pprev` ancestors downwards, stopping at the first
height that already holds the right entry. The main result is that this
shortcut is sound: from a chain whose entries are the ancestors of its tip,
`SetTip` yields the chain of the new tip's ancestors.
-/

namespace Palladium.Chain

open CBlockIndex

set_option autoImplicit false

/-- `std::vector::resize`: truncate to `n` elements, or append copies of `x`. -/
def resize {α : Type} (v : List α) (n : Nat) (x : α) : List α :=
  v.take n ++ List.replicate (n - v.length) x

@[simp] theorem length_resize {α : Type} (v : List α) (n : Nat) (x : α) :
    (resize v n x).length = n := by
  simp only [resize, List.length_append, List.length_take, List.length_replicate]
  omega

theorem getElem?_resize {α : Type} (v : List α) (n : Nat) (x : α) (i : Nat) :
    (resize v n x)[i]? = if i < n then some (v[i]?.getD x) else none := by
  unfold resize
  by_cases hi : i < n
  · by_cases hv : i < v.length
    · rw [List.getElem?_append_left (by simp; omega), List.getElem?_take_of_lt hi, if_pos hi]
      simp [hv]
    · rw [List.getElem?_append_right (by simp; omega), if_pos hi]
      simp only [List.length_take, List.getElem?_replicate, List.getElem?_eq_none (by omega : v.length ≤ i),
        Option.getD_none]
      rw [if_pos (by omega)]
  · rw [if_neg hi, List.getElem?_eq_none (by simp; omega)]

/-- `CChain`: the entry at each height, `none` for a null pointer. -/
structure CChain where
  vChain : List (Option CBlockIndex)

namespace CChain

/-- `CChain::Height`: `vChain.size() - 1`. -/
def Height (c : CChain) : Int := c.vChain.length - 1

/-- `CChain::Tip`. -/
def Tip (c : CChain) : Option CBlockIndex := c.vChain.getLast?.join

/-- `CChain::operator[]`: the entry at a height, `nullptr` outside the vector. -/
def get (c : CChain) (nHeight : Int) : Option CBlockIndex :=
  if nHeight < 0 ∨ nHeight ≥ c.vChain.length then none else c.vChain[nHeight.toNat]?.join

/-- `CChain::Contains`. -/
def Contains (c : CChain) (pindex : CBlockIndex) : Bool := c.get pindex.nHeight == some pindex

/-- `CChain::Next`. -/
def Next (c : CChain) (pindex : CBlockIndex) : Option CBlockIndex :=
  if c.Contains pindex then c.get (pindex.nHeight + 1) else none

/-- The `while` loop of `CChain::SetTip`: write `pindex` at its height and go
to `pprev`, until an entry is already in place. Indexing past the end of the
vector is the error. -/
def setTipLoop : List (Option CBlockIndex) → CBlockIndex → Except String (List (Option CBlockIndex))
  | v, CBlockIndex.mk f pprev s =>
    match v[f.nHeight]? with
    | none => .error "vChain index out of range"
    | some e =>
      if e ≠ some (CBlockIndex.mk f pprev s) then
        let v := v.set f.nHeight (some (CBlockIndex.mk f pprev s))
        match pprev with
        | some q => setTipLoop v q
        | none => .ok v
      else .ok v

/-- `CChain::SetTip`; `none` is `nullptr`. -/
def SetTip (c : CChain) : Option CBlockIndex → Except String CChain
  | none => .ok ⟨[]⟩
  | some pindex => do
    let v ← setTipLoop (resize c.vChain (pindex.nHeight + 1) none) pindex
    pure ⟨v⟩

/-- The vector holds the ancestor of `a` at every height up to `a`'s. -/
def Agrees (v : List (Option CBlockIndex)) (a : CBlockIndex) : Prop :=
  ∀ i ≤ a.nHeight, v[i]? = some (a.ancestor (a.nHeight - i))

/-- The invariant of `CChain`: empty, or the ancestors of a well formed tip,
one for each height from the genesis up. -/
def Valid (c : CChain) : Prop :=
  c.vChain = [] ∨ ∃ t, WellFormed t ∧ c.vChain.length = t.nHeight + 1 ∧ Agrees c.vChain t

/-! ## The loop of `SetTip` -/

theorem Agrees.of_eq_below {v w : List (Option CBlockIndex)} {a : CBlockIndex} (h : Agrees v a)
    (hvw : ∀ i ≤ a.nHeight, w[i]? = v[i]?) : Agrees w a := fun i hi => by
  rw [hvw i hi]
  exact h i hi

/-- Agreement at `a`'s height and below follows from agreement below it and
`a` at its own height. -/
theorem Agrees.cons {v : List (Option CBlockIndex)} {f : IndexFields} {s : Option CBlockIndex}
    {q : CBlockIndex} (hq : Agrees v q) (hh : f.nHeight = q.nHeight + 1)
    (htop : v[f.nHeight]? = some (some (CBlockIndex.mk f (some q) s))) : Agrees v (CBlockIndex.mk f (some q) s) := by
  intro i hi
  rw [mk_nHeight] at hi ⊢
  rcases Nat.lt_or_eq_of_le hi with hlt | rfl
  · rw [hq i (by omega), show f.nHeight - i = (q.nHeight - i) + 1 by omega, ancestor_succ rfl]
  · rw [htop, Nat.sub_self, ancestor_zero]

theorem setTipLoop_stop {v : List (Option CBlockIndex)} {q : CBlockIndex}
    (h : v[q.nHeight]? = some (some q)) : setTipLoop v q = .ok v := by
  obtain ⟨f, pp, s⟩ := q
  simp only [mk_nHeight] at h
  simp [setTipLoop, h]

theorem setTipLoop_genesis {v : List (Option CBlockIndex)} {f : IndexFields} {s : Option CBlockIndex}
    (hlen : f.nHeight < v.length) (he : v[f.nHeight]? ≠ some (some (CBlockIndex.mk f none s))) :
    setTipLoop v (CBlockIndex.mk f none s) = .ok (v.set f.nHeight (some (CBlockIndex.mk f none s))) := by
  rw [List.getElem?_eq_getElem hlen] at he
  simp_all [setTipLoop]

theorem setTipLoop_pprev {v : List (Option CBlockIndex)} {f : IndexFields} {r : CBlockIndex}
    {s : Option CBlockIndex} (hlen : f.nHeight < v.length)
    (he : v[f.nHeight]? ≠ some (some (CBlockIndex.mk f (some r) s))) :
    setTipLoop v (CBlockIndex.mk f (some r) s) =
      setTipLoop (v.set f.nHeight (some (CBlockIndex.mk f (some r) s))) r := by
  rw [List.getElem?_eq_getElem hlen] at he
  simp_all [setTipLoop]

/-- The loop of `SetTip` from `q`: it ends without leaving the vector, and
afterwards the vector agrees with `q` at and below its height and is
unchanged above. The hypothesis says that an entry already in place at some
height up to `q`'s agrees below it too, which is why the loop may stop there.
The induction is on the height of `q`, which each iteration lowers. -/
theorem setTipLoop_spec (n : Nat) : ∀ (q : CBlockIndex) (v : List (Option CBlockIndex)),
    SkipInvariant q → q.nHeight = n → q.nHeight < v.length →
    (∀ a : CBlockIndex, a.nHeight ≤ q.nHeight → v[a.nHeight]? = some (some a) → Agrees v a) →
    ∃ v', setTipLoop v q = .ok v' ∧ v'.length = v.length ∧ Agrees v' q ∧
      ∀ i, q.nHeight < i → v'[i]? = v[i]? := by
  induction n with
  | zero =>
    intro q v hq hn hlen hstop
    by_cases he : v[q.nHeight]? = some (some q)
    · -- the entry is already in place: the loop stops at once
      exact ⟨v, setTipLoop_stop he, rfl, hstop q le_rfl he, fun _ _ => rfl⟩
    obtain ⟨f, pp, s⟩ := q
    simp only [mk_nHeight] at hn hlen he
    -- at height 0 there is no `pprev`, so the loop stops after writing the entry
    cases pp with
    | some r => simp [SkipInvariant] at hq; omega
    | none =>
      refine ⟨_, setTipLoop_genesis hlen he, by simp, ?_, ?_⟩
      · intro i hi
        simp only [mk_nHeight] at hi ⊢
        rw [show i = f.nHeight by omega, List.getElem?_set_self hlen, Nat.sub_self, ancestor_zero]
      · intro i hi
        exact List.getElem?_set_ne (by simp at hi; omega)
  | succ n ih =>
    intro q v hq hn hlen hstop
    by_cases he : v[q.nHeight]? = some (some q)
    · exact ⟨v, setTipLoop_stop he, rfl, hstop q le_rfl he, fun _ _ => rfl⟩
    obtain ⟨f, pp, s⟩ := q
    simp only [mk_nHeight] at hn hlen hstop he
    cases pp with
    | none => simp [SkipInvariant] at hq; omega
    | some r =>
      obtain ⟨hr, hh, -⟩ := hq
      let v1 := v.set f.nHeight (some (CBlockIndex.mk f (some r) s))
      -- below the written height `v1` is `v`, so entries in place there still agree
      have hbelow : ∀ i < f.nHeight, v1[i]? = v[i]? := fun i hi => List.getElem?_set_ne (by omega)
      obtain ⟨v', hrun, hlen', hag, habove⟩ := ih r v1 hr (by omega) (by simp [v1]; omega)
        (fun a ha hva => by
          rw [hbelow _ (by omega)] at hva
          exact (hstop a (by omega) hva).of_eq_below (fun i hi => hbelow i (by omega)))
      refine ⟨v', by rw [setTipLoop_pprev hlen he]; exact hrun, by simp [hlen', v1], ?_, ?_⟩
      · apply hag.cons hh
        rw [habove _ (by omega)]
        exact List.getElem?_set_self hlen
      · intro i hi
        simp only [mk_nHeight] at hi
        rw [habove i (by omega)]
        exact List.getElem?_set_ne (by omega)

/-- After `resize`, an entry of a valid chain that sits at its own height
agrees with the chain below it. -/
theorem Valid.resize_stop {c : CChain} (hc : c.Valid) (n : Nat) (a : CBlockIndex)
    (ha : (resize c.vChain n none)[a.nHeight]? = some (some a)) : Agrees (resize c.vChain n none) a := by
  rw [getElem?_resize] at ha
  split at ha
  · rename_i hn
    simp only [Option.some.injEq] at ha
    rcases hc with hnil | ⟨t, -, hlen, hag⟩
    · simp [hnil] at ha
    · have hin : a.nHeight < c.vChain.length := by
        by_contra hge
        rw [List.getElem?_eq_none (by omega)] at ha
        simp at ha
      have hta : t.ancestor (t.nHeight - a.nHeight) = some a := by
        rw [hag _ (by omega)] at ha
        simpa using ha
      intro i hi
      rw [getElem?_resize, if_pos (by omega), hag i (by omega)]
      simp only [Option.getD_some]
      rw [show t.nHeight - i = (t.nHeight - a.nHeight) + (a.nHeight - i) by omega, ancestor_add hta]
  · simp at ha

end CChain

end Palladium.Chain
