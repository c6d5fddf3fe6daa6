import Mathlib
import Palladium.Bloom.FilteredBlock
import Palladium.Lib.ExceptSpec

/-!
# The filter messages of a peer

A light client loads a Bloom filter into a node with `filterload`, extends it with
`filteradd` and drops it with `filterclear` (`ProcessMessage`, `net_processing.cpp`).
The node then checks every transaction it would announce against the filter
(`SendMessages`), and answers a request for a filtered block with a `CMerkleBlock`
built over the filter; both update the filter under its flags. A node without
`NODE_BLOOM` punishes `filterload` and `filteradd`, and so does a node with it for a
filter or a data item that is too large.

`TxRelay()` gives every peer the default filter, which is full. Over every sequence of
events from there: no call divides by zero, the peer always has a filter that keeps the
invariant of `CBloomFilter`, and a peer whose score reaches a positive `banscore` is
marked to be discouraged. A key added by `filteradd` stays contained until the next
`filterload` or `filterclear`, and under `BLOOM_UPDATE_ALL` a transaction spending an
output that matched the filter is announced.
-/

set_option autoImplicit false

namespace Palladium.Net

open Palladium.Bloom Palladium.Script Palladium.Primitives CBloomFilter

/-- `NO_BLOOM_VERSION`: from this version on, `filterload` or `filteradd` to a node
without `NODE_BLOOM` is punished rather than answered by a disconnection. -/
def NO_BLOOM_VERSION : Int := 70011

/-- `DEFAULT_BANSCORE_THRESHOLD`, the default of `-banscore`. -/
def DEFAULT_BANSCORE_THRESHOLD : Int := 100

/-- What the filter messages read and write of a peer: the filter and `fRelayTxes` of
its `m_tx_relay`, the score and mark of its `CNodeState`, and its version and
`fDisconnect`. -/
structure PeerFilter where
  pfilter : Option CBloomFilter
  fRelayTxes : Bool
  nMisbehavior : Int
  m_should_discourage : Bool
  nVersion : Int
  fDisconnect : Bool
deriving DecidableEq, Repr

/-- A peer after `version`: `TxRelay()` gives it the default filter, and `fRelay` of the
message sets `fRelayTxes`. -/
def PeerFilter.init (nVersion : Int) (fRelay : Bool) : PeerFilter :=
  ⟨some CBloomFilter.default, fRelay, 0, false, nVersion, false⟩

/-- What happens to a peer's filter: the three filter messages, the check of a
transaction before it is announced, and a `getdata` for a filtered block. -/
inductive FilterEvent where
  | FILTERLOAD (filter : CBloomFilter)
  | FILTERADD (vData : List UInt8)
  | FILTERCLEAR
  | relay (tx : CMutableTransaction)
  | FILTERED_BLOCK (vtx : List CMutableTransaction)
deriving Repr

/-- The events after which the peer keeps its filter, extended or not. -/
def FilterEvent.KeepsFilter : FilterEvent → Bool
  | .FILTERLOAD _ | .FILTERCLEAR => false
  | .FILTERADD _ | .relay _ | .FILTERED_BLOCK _ => true

section Process

variable (MurmurHash3 : UInt32 → List UInt8 → UInt32) (GetHash : CMutableTransaction → BitVec 256)
  (SHA256D64 : BitVec 256 → BitVec 256 → BitVec 256) (nodeBloom : Bool) (banscore : Int)

/-- `Misbehaving(pnode, howmuch)`: the score grows, and the peer is marked when the score
crosses `banscore`, the value of `-banscore`. -/
def Misbehaving (st : PeerFilter) (howmuch : Int) : PeerFilter :=
  if howmuch = 0 then st
  else
    let nMisbehavior := st.nMisbehavior + howmuch
    if nMisbehavior ≥ banscore ∧ nMisbehavior - howmuch < banscore then
      { st with nMisbehavior, m_should_discourage := true }
    else { st with nMisbehavior }

/-- The check at the top of `ProcessMessage` for `filterload` and `filteradd` on a node
without `NODE_BLOOM`. -/
def RejectNoBloom (st : PeerFilter) : PeerFilter :=
  if st.nVersion ≥ NO_BLOOM_VERSION then Misbehaving banscore st 100 else { st with fDisconnect := true }

/-- One event: the handlers of `filterload`, `filteradd` and `filterclear` in
`ProcessMessage`, with `nodeBloom` for `NODE_BLOOM` among the local services; the check
in `SendMessages` of a transaction to announce; and the answer to `MSG_FILTERED_BLOCK`.
The new state, and whether the transaction is announced or the merkle block sent. -/
def ProcessFilterEvent (st : PeerFilter) : FilterEvent → Except String (PeerFilter × Bool)
  | .FILTERLOAD filter =>
    if !nodeBloom then .ok (RejectNoBloom banscore st, false)
    -- there is no excuse for sending a too-large filter
    else if !filter.IsWithinSizeConstraints then .ok (Misbehaving banscore st 100, false)
    else .ok ({ st with pfilter := some filter.UpdateEmptyFull, fRelayTxes := true }, false)
  | .FILTERADD vData =>
    if !nodeBloom then .ok (RejectNoBloom banscore st, false)
    -- nodes must never send a data item larger than a script element
    else if vData.length > MAX_SCRIPT_ELEMENT_SIZE then .ok (Misbehaving banscore st 100, false)
    else match st.pfilter with
      | some f => do
        let f ← CBloomFilter.insert MurmurHash3 f vData
        pure ({ st with pfilter := some f }, false)
      | none => .ok (Misbehaving banscore st 100, false)
  | .FILTERCLEAR =>
    if nodeBloom then .ok ({ st with pfilter := some CBloomFilter.default, fRelayTxes := true }, false)
    else .ok ({ st with fRelayTxes := true }, false)
  | .relay tx =>
    match st.pfilter with
    | some f => do
      let (relevant, f) ← IsRelevantAndUpdate MurmurHash3 GetHash f tx
      pure ({ st with pfilter := some f }, relevant)
    | none => .ok (st, true)
  | .FILTERED_BLOCK vtx =>
    match st.pfilter with
    | some f => do
      let (_, f) ← CMerkleBlock.create MurmurHash3 GetHash id SHA256D64 vtx f
      pure ({ st with pfilter := some f }, true)
    | none => .ok (st, false)

/-- A peer's events in turn: the final state and the answers. -/
def ProcessFilterEvents : PeerFilter → List FilterEvent → Except String (PeerFilter × List Bool)
  | st, [] => .ok (st, [])
  | st, e :: es => do
    let (st', announced) ← ProcessFilterEvent MurmurHash3 GetHash SHA256D64 nodeBloom banscore st e
    let (st'', rest) ← ProcessFilterEvents st' es
    pure (st'', announced :: rest)

end Process

/-! ## The score -/

section Score

variable (banscore : Int)

/-- The score is never negative, and a peer whose score reached a positive `banscore`
is marked to be discouraged. -/
structure ScoreOk (st : PeerFilter) : Prop where
  nonneg : 0 ≤ st.nMisbehavior
  discourage : 0 < banscore → banscore ≤ st.nMisbehavior → st.m_should_discourage = true

theorem ScoreOk.of_eq {st st' : PeerFilter} (hs : ScoreOk banscore st) (hn : st'.nMisbehavior = st.nMisbehavior)
    (hd : st'.m_should_discourage = st.m_should_discourage) : ScoreOk banscore st' :=
  ⟨hn ▸ hs.nonneg, fun hb hle => hd ▸ hs.discourage hb (hn ▸ hle)⟩

@[simp] theorem Misbehaving_pfilter (st : PeerFilter) (howmuch : Int) :
    (Misbehaving banscore st howmuch).pfilter = st.pfilter := by
  unfold Misbehaving
  dsimp only
  split_ifs <;> rfl

@[simp] theorem Misbehaving_nMisbehavior (st : PeerFilter) (howmuch : Int) :
    (Misbehaving banscore st howmuch).nMisbehavior = st.nMisbehavior + howmuch := by
  unfold Misbehaving
  dsimp only
  split_ifs with h0
  · rw [h0, Int.add_zero]
  all_goals rfl

@[simp] theorem RejectNoBloom_pfilter (st : PeerFilter) : (RejectNoBloom banscore st).pfilter = st.pfilter := by
  unfold RejectNoBloom
  split_ifs
  · exact Misbehaving_pfilter banscore st 100
  · rfl

theorem le_RejectNoBloom_nMisbehavior (st : PeerFilter) :
    st.nMisbehavior ≤ (RejectNoBloom banscore st).nMisbehavior := by
  unfold RejectNoBloom
  split_ifs
  · rw [Misbehaving_nMisbehavior]
    omega
  · exact le_refl _

/-- A punishment keeps the score sound: if the score crosses `banscore` now the peer is
marked now, and if it does not, it had crossed before. -/
theorem ScoreOk_Misbehaving {st : PeerFilter} (hs : ScoreOk banscore st) {howmuch : Int} (hh : 0 ≤ howmuch) :
    ScoreOk banscore (Misbehaving banscore st howmuch) := by
  have hnonneg := hs.nonneg
  unfold Misbehaving
  by_cases h0 : howmuch = 0
  · rw [if_pos h0]
    exact hs
  rw [if_neg h0]
  dsimp only
  by_cases hcross : st.nMisbehavior + howmuch ≥ banscore ∧ st.nMisbehavior + howmuch - howmuch < banscore
  · rw [if_pos hcross]
    exact ⟨by dsimp only; omega, fun _ _ => rfl⟩
  · rw [if_neg hcross]
    refine ⟨by dsimp only; omega, fun hb hle => ?_⟩
    have hold : banscore ≤ st.nMisbehavior := by
      dsimp only at hle
      omega
    exact hs.discourage hb hold

theorem ScoreOk_RejectNoBloom {st : PeerFilter} (hs : ScoreOk banscore st) :
    ScoreOk banscore (RejectNoBloom banscore st) := by
  unfold RejectNoBloom
  split_ifs
  · exact ScoreOk_Misbehaving banscore hs (by decide)
  · exact hs.of_eq banscore rfl rfl

end Score

/-- What every reachable state keeps: a filter with the invariant of `CBloomFilter`, and
a sound score. -/
structure PeerFilter.Inv (banscore : Int) (st : PeerFilter) : Prop where
  filter : ∃ f, st.pfilter = some f ∧ f.Inv
  score : ScoreOk banscore st

theorem PeerFilter.Inv.filter_Inv {banscore : Int} {st : PeerFilter} (hi : st.Inv banscore) {f : CBloomFilter}
    (hf : st.pfilter = some f) : f.Inv := by
  obtain ⟨f', hf', hi'⟩ := hi.filter
  rw [hf] at hf'
  cases hf'
  exact hi'

theorem Inv_init (banscore nVersion : Int) (fRelay : Bool) : (PeerFilter.init nVersion fRelay).Inv banscore where
  filter := ⟨_, rfl, Inv_default⟩
  score := ⟨le_refl 0, fun hb hle => absurd hle (not_le.mpr hb)⟩

/-! ## One event -/

section Step

variable (MurmurHash3 : UInt32 → List UInt8 → UInt32) (GetHash : CMutableTransaction → BitVec 256)
  (SHA256D64 : BitVec 256 → BitVec 256 → BitVec 256) (nodeBloom : Bool) (banscore : Int)

/-- The events that change the filter in place, and how. -/
def FilterEvent.Updates (f f' : CBloomFilter) : FilterEvent → Prop
  | .FILTERADD vData => CBloomFilter.insert MurmurHash3 f vData = .ok f'
  | .relay tx => ∃ r, IsRelevantAndUpdate MurmurHash3 GetHash f tx = .ok (r, f')
  | .FILTERED_BLOCK vtx => ∃ mb, CMerkleBlock.create MurmurHash3 GetHash id SHA256D64 vtx f = .ok (mb, f')
  | .FILTERLOAD _ | .FILTERCLEAR => False

/-- A filter updated in place extends the one before and keeps the invariant. -/
theorem Updates_spec {f f' : CBloomFilter} (hi : f.Inv) {e : FilterEvent}
    (h : e.Updates MurmurHash3 GetHash SHA256D64 f f') : Extends f f' ∧ f'.Inv := by
  cases e with
  | FILTERADD vData =>
    obtain ⟨f₁, hins, hext, hi₁⟩ := CBloomFilter.insert_spec MurmurHash3 hi vData
    change CBloomFilter.insert MurmurHash3 f vData = .ok f' at h
    rw [hins] at h
    cases h
    exact ⟨hext, hi₁⟩
  | relay tx =>
    obtain ⟨r, h⟩ := h
    obtain ⟨r₁, f₁, hrel, hext, hi₁, -⟩ := IsRelevantAndUpdate_spec MurmurHash3 GetHash hi tx
    rw [hrel] at h
    cases h
    exact ⟨hext, hi₁⟩
  | FILTERED_BLOCK vtx =>
    obtain ⟨mb, h⟩ := h
    obtain ⟨mb₁, f₁, hmb, hext, hi₁⟩ := create_spec MurmurHash3 GetHash id hi SHA256D64 vtx
    rw [hmb] at h
    cases h
    exact ⟨hext, hi₁⟩
  | FILTERLOAD _ => exact h.elim
  | FILTERCLEAR => exact h.elim

/-- Everything one event can do to the state. -/
theorem ProcessFilterEvent_cases {st st' : PeerFilter} {e : FilterEvent} {b : Bool}
    (h : ProcessFilterEvent MurmurHash3 GetHash SHA256D64 nodeBloom banscore st e = .ok (st', b)) :
    -- a punished message; the filter stays
    (st' = RejectNoBloom banscore st ∨ st' = Misbehaving banscore st 100) ∨
    -- a new filter
    (∃ filter, e = .FILTERLOAD filter ∧
      st' = { st with pfilter := some filter.UpdateEmptyFull, fRelayTxes := true }) ∨
    (e = .FILTERCLEAR ∧
      st' = { st with pfilter := if nodeBloom then some CBloomFilter.default else st.pfilter, fRelayTxes := true }) ∨
    -- the filter updated in place
    (∃ f f', st.pfilter = some f ∧ e.Updates MurmurHash3 GetHash SHA256D64 f f' ∧ st' = { st with pfilter := some f' }) ∨
    -- no filter to check against
    (st.pfilter = none ∧ st' = st) := by
  cases e with
  | FILTERLOAD filter =>
    rw [ProcessFilterEvent] at h
    split_ifs at h
    · cases h
      exact .inl (.inl rfl)
    · cases h
      exact .inl (.inr rfl)
    · cases h
      exact .inr (.inl ⟨filter, rfl, rfl⟩)
  | FILTERADD vData =>
    rw [ProcessFilterEvent] at h
    split_ifs at h
    · cases h
      exact .inl (.inl rfl)
    · cases h
      exact .inl (.inr rfl)
    · split at h
      · rename_i f hf
        obtain ⟨f', hins, hst⟩ := ExceptSpec.bind_eq_ok h
        cases hst
        exact .inr (.inr (.inr (.inl ⟨f, f', hf, hins, rfl⟩)))
      · cases h
        exact .inl (.inr rfl)
  | FILTERCLEAR =>
    rw [ProcessFilterEvent] at h
    split_ifs at h with hb
    · cases h
      exact .inr (.inr (.inl ⟨rfl, by rw [if_pos hb]⟩))
    · cases h
      exact .inr (.inr (.inl ⟨rfl, by rw [if_neg hb]⟩))
  | relay tx =>
    rw [ProcessFilterEvent] at h
    split at h
    · rename_i f hf
      obtain ⟨⟨r, f'⟩, hrel, hst⟩ := ExceptSpec.bind_eq_ok h
      cases hst
      exact .inr (.inr (.inr (.inl ⟨f, f', hf, ⟨_, hrel⟩, rfl⟩)))
    · rename_i hf
      cases h
      exact .inr (.inr (.inr (.inr ⟨hf, rfl⟩)))
  | FILTERED_BLOCK vtx =>
    rw [ProcessFilterEvent] at h
    split at h
    · rename_i f hf
      obtain ⟨⟨mb, f'⟩, hmb, hst⟩ := ExceptSpec.bind_eq_ok h
      cases hst
      exact .inr (.inr (.inr (.inl ⟨f, f', hf, ⟨mb, hmb⟩, rfl⟩)))
    · rename_i hf
      cases h
      exact .inr (.inr (.inr (.inr ⟨hf, rfl⟩)))

/-- No event fails on a filter that keeps the invariant: the modulus of `Hash` is never
zero there. -/
theorem ProcessFilterEvent_ok {st : PeerFilter} (hi : ∀ f, st.pfilter = some f → f.Inv) (e : FilterEvent) :
    ∃ st' b, ProcessFilterEvent MurmurHash3 GetHash SHA256D64 nodeBloom banscore st e = .ok (st', b) := by
  cases hf : st.pfilter with
  | none =>
    cases e <;> rw [ProcessFilterEvent] <;> (try rw [hf]) <;> (try split_ifs) <;> exact ⟨_, _, rfl⟩
  | some f =>
    have hfi := hi f hf
    cases e with
    | FILTERLOAD filter =>
      rw [ProcessFilterEvent]
      split_ifs <;> exact ⟨_, _, rfl⟩
    | FILTERADD vData =>
      obtain ⟨f', hins, -⟩ := CBloomFilter.insert_spec MurmurHash3 hfi vData
      rw [ProcessFilterEvent, hf]
      split_ifs
      · exact ⟨_, _, rfl⟩
      · exact ⟨_, _, rfl⟩
      · exact ⟨_, _, by dsimp only; rw [hins, ExceptSpec.ok_bind]; rfl⟩
    | FILTERCLEAR =>
      rw [ProcessFilterEvent]
      split_ifs <;> exact ⟨_, _, rfl⟩
    | relay tx =>
      obtain ⟨r, f', hrel, -⟩ := IsRelevantAndUpdate_spec MurmurHash3 GetHash hfi tx
      exact ⟨_, _, by rw [ProcessFilterEvent, hf]; dsimp only; rw [hrel, ExceptSpec.ok_bind]; rfl⟩
    | FILTERED_BLOCK vtx =>
      obtain ⟨mb, f', hmb, -⟩ := create_spec MurmurHash3 GetHash id hfi SHA256D64 vtx
      exact ⟨_, _, by rw [ProcessFilterEvent, hf]; dsimp only; rw [hmb, ExceptSpec.ok_bind]; rfl⟩

variable {MurmurHash3 GetHash SHA256D64 nodeBloom banscore}

/-- Every event keeps the invariant of the peer. -/
theorem PeerFilter.Inv.step {st st' : PeerFilter} {e : FilterEvent} {b : Bool} (hi : st.Inv banscore)
    (h : ProcessFilterEvent MurmurHash3 GetHash SHA256D64 nodeBloom banscore st e = .ok (st', b)) :
    st'.Inv banscore := by
  obtain ⟨f, hf, hfi⟩ := hi.filter
  rcases ProcessFilterEvent_cases MurmurHash3 GetHash SHA256D64 nodeBloom banscore h with
    (rfl | rfl) | ⟨filter, -, rfl⟩ | ⟨-, rfl⟩ | ⟨f₁, f', hf₁, hup, rfl⟩ | ⟨hnone, -⟩
  · exact ⟨⟨f, by rw [RejectNoBloom_pfilter, hf], hfi⟩, ScoreOk_RejectNoBloom banscore hi.score⟩
  · exact ⟨⟨f, by rw [Misbehaving_pfilter, hf], hfi⟩, ScoreOk_Misbehaving banscore hi.score (by decide)⟩
  · exact ⟨⟨_, rfl, Inv_UpdateEmptyFull filter⟩, hi.score.of_eq banscore rfl rfl⟩
  · refine ⟨?_, hi.score.of_eq banscore rfl rfl⟩
    cases nodeBloom
    · exact ⟨f, hf, hfi⟩
    · exact ⟨_, rfl, Inv_default⟩
  · rw [hf] at hf₁
    cases hf₁
    exact ⟨⟨f', rfl, (Updates_spec MurmurHash3 GetHash SHA256D64 hfi hup).2⟩, hi.score.of_eq banscore rfl rfl⟩
  · rw [hf] at hnone
    cases hnone

/-- An event that keeps the filter extends it. -/
theorem ProcessFilterEvent_extends {st st' : PeerFilter} {e : FilterEvent} {b : Bool} {f : CBloomFilter}
    (hfi : f.Inv) (hf : st.pfilter = some f) (hk : e.KeepsFilter = true)
    (h : ProcessFilterEvent MurmurHash3 GetHash SHA256D64 nodeBloom banscore st e = .ok (st', b)) :
    ∃ f', st'.pfilter = some f' ∧ Extends f f' := by
  rcases ProcessFilterEvent_cases MurmurHash3 GetHash SHA256D64 nodeBloom banscore h with
    (rfl | rfl) | ⟨filter, rfl, -⟩ | ⟨rfl, -⟩ | ⟨f₁, f', hf₁, hup, rfl⟩ | ⟨hnone, -⟩
  · exact ⟨f, by rw [RejectNoBloom_pfilter, hf], Extends.refl f⟩
  · exact ⟨f, by rw [Misbehaving_pfilter, hf], Extends.refl f⟩
  · cases hk
  · cases hk
  · rw [hf] at hf₁
    cases hf₁
    exact ⟨f', rfl, (Updates_spec MurmurHash3 GetHash SHA256D64 hfi hup).1⟩
  · rw [hf] at hnone
    cases hnone

/-- The score never goes down. -/
theorem ProcessFilterEvent_score_le {st st' : PeerFilter} {e : FilterEvent} {b : Bool}
    (h : ProcessFilterEvent MurmurHash3 GetHash SHA256D64 nodeBloom banscore st e = .ok (st', b)) :
    st.nMisbehavior ≤ st'.nMisbehavior := by
  rcases ProcessFilterEvent_cases MurmurHash3 GetHash SHA256D64 nodeBloom banscore h with
    (rfl | rfl) | ⟨_, -, rfl⟩ | ⟨-, rfl⟩ | ⟨_, _, -, -, rfl⟩ | ⟨-, rfl⟩
  · exact le_RejectNoBloom_nMisbehavior banscore st
  · rw [Misbehaving_nMisbehavior]
    omega
  all_goals exact le_refl _

variable (MurmurHash3 GetHash SHA256D64 nodeBloom banscore)

/-- A relayed transaction is announced when the filter finds it relevant. -/
theorem ProcessFilterEvent_relay {st : PeerFilter} {f f' : CBloomFilter} {tx : CMutableTransaction} {r : Bool}
    (hf : st.pfilter = some f) (hrel : IsRelevantAndUpdate MurmurHash3 GetHash f tx = .ok (r, f')) :
    ProcessFilterEvent MurmurHash3 GetHash SHA256D64 nodeBloom banscore st (.relay tx) =
      .ok ({ st with pfilter := some f' }, r) := by
  rw [ProcessFilterEvent, hf]
  dsimp only
  rw [hrel, ExceptSpec.ok_bind]
  rfl

/-- A `filteradd` that a node with `NODE_BLOOM` accepts inserts the data. -/
theorem ProcessFilterEvent_FILTERADD {st : PeerFilter} {f f' : CBloomFilter} {vData : List UInt8}
    (hbloom : nodeBloom = true) (hlen : vData.length ≤ MAX_SCRIPT_ELEMENT_SIZE) (hf : st.pfilter = some f)
    (hins : CBloomFilter.insert MurmurHash3 f vData = .ok f') :
    ProcessFilterEvent MurmurHash3 GetHash SHA256D64 nodeBloom banscore st (.FILTERADD vData) =
      .ok ({ st with pfilter := some f' }, false) := by
  rw [ProcessFilterEvent, if_neg (by simp [hbloom]), if_neg (Nat.not_lt.mpr hlen), hf]
  dsimp only
  rw [hins, ExceptSpec.ok_bind]
  rfl

/-- A node with `NODE_BLOOM` punishes a filter or a data item that is too large. -/
theorem ProcessFilterEvent_oversized {st : PeerFilter} {e : FilterEvent} (hbloom : nodeBloom = true)
    (hbad : (∃ filter, e = .FILTERLOAD filter ∧ filter.IsWithinSizeConstraints = false) ∨
      (∃ vData, e = .FILTERADD vData ∧ MAX_SCRIPT_ELEMENT_SIZE < vData.length)) :
    ProcessFilterEvent MurmurHash3 GetHash SHA256D64 nodeBloom banscore st e =
      .ok (Misbehaving banscore st 100, false) := by
  rcases hbad with ⟨filter, rfl, hbig⟩ | ⟨vData, rfl, hlen⟩
  · rw [ProcessFilterEvent, if_neg (by simp [hbloom]), if_pos (by simp [hbig])]
  · rw [ProcessFilterEvent, if_neg (by simp [hbloom]), if_pos hlen]

end Step

/-! ## Runs -/

section Run

variable {MurmurHash3 : UInt32 → List UInt8 → UInt32} {GetHash : CMutableTransaction → BitVec 256}
  {SHA256D64 : BitVec 256 → BitVec 256 → BitVec 256} {nodeBloom : Bool} {banscore : Int}

/-- A run is a first event and the run after it. -/
theorem ProcessFilterEvents_cons {st st'' : PeerFilter} {e : FilterEvent} {es : List FilterEvent} {bs : List Bool}
    (h : ProcessFilterEvents MurmurHash3 GetHash SHA256D64 nodeBloom banscore st (e :: es) = .ok (st'', bs)) :
    ∃ st' b bs', ProcessFilterEvent MurmurHash3 GetHash SHA256D64 nodeBloom banscore st e = .ok (st', b) ∧
      ProcessFilterEvents MurmurHash3 GetHash SHA256D64 nodeBloom banscore st' es = .ok (st'', bs') ∧
      bs = b :: bs' := by
  rw [ProcessFilterEvents] at h
  obtain ⟨⟨st', b⟩, h₁, h⟩ := ExceptSpec.bind_eq_ok h
  obtain ⟨⟨st₂, bs'⟩, h₂, h⟩ := ExceptSpec.bind_eq_ok h
  cases h
  exact ⟨st', b, bs', h₁, h₂, rfl⟩

/-- A run over two lists of events is the run over the first, then over the second. -/
theorem ProcessFilterEvents_append {es' : List FilterEvent} :
    ∀ {es : List FilterEvent} {st st'' : PeerFilter} {bs : List Bool},
      ProcessFilterEvents MurmurHash3 GetHash SHA256D64 nodeBloom banscore st (es ++ es') = .ok (st'', bs) →
      ∃ st' bs₁ bs₂, ProcessFilterEvents MurmurHash3 GetHash SHA256D64 nodeBloom banscore st es = .ok (st', bs₁) ∧
        ProcessFilterEvents MurmurHash3 GetHash SHA256D64 nodeBloom banscore st' es' = .ok (st'', bs₂) ∧
        bs = bs₁ ++ bs₂
  | [], st, _, bs, h => ⟨st, [], bs, rfl, h, rfl⟩
  | e :: es, _, _, _, h => by
    obtain ⟨st₁, b, bs', h₁, h₂, rfl⟩ := ProcessFilterEvents_cons h
    obtain ⟨st', bs₁, bs₂, hrun₁, hrun₂, rfl⟩ := ProcessFilterEvents_append h₂
    refine ⟨st', b :: bs₁, bs₂, ?_, hrun₂, rfl⟩
    rw [ProcessFilterEvents, h₁, ExceptSpec.ok_bind]
    dsimp only
    rw [hrun₁, ExceptSpec.ok_bind]
    rfl

/-- Every run keeps the invariant of the peer. -/
theorem PeerFilter.Inv.run :
    ∀ {es : List FilterEvent} {st st' : PeerFilter} {bs : List Bool}, st.Inv banscore →
      ProcessFilterEvents MurmurHash3 GetHash SHA256D64 nodeBloom banscore st es = .ok (st', bs) → st'.Inv banscore
  | [], _, _, _, hi, h => by
    cases h
    exact hi
  | _ :: _, _, _, _, hi, h => by
    obtain ⟨st₁, _, _, h₁, h₂, -⟩ := ProcessFilterEvents_cons h
    exact (hi.step h₁).run h₂

/-- Along events that keep the filter, the filter only gains bits. -/
theorem ProcessFilterEvents_extends :
    ∀ {es : List FilterEvent} {st st' : PeerFilter} {bs : List Bool} {f : CBloomFilter}, st.Inv banscore →
      st.pfilter = some f → (∀ e ∈ es, e.KeepsFilter = true) →
      ProcessFilterEvents MurmurHash3 GetHash SHA256D64 nodeBloom banscore st es = .ok (st', bs) →
      ∃ f', st'.pfilter = some f' ∧ Extends f f'
  | [], _, _, _, f, _, hf, _, h => by
    cases h
    exact ⟨f, hf, Extends.refl f⟩
  | e :: _, _, _, _, _, hi, hf, hkeep, h => by
    obtain ⟨st₁, _, _, h₁, h₂, -⟩ := ProcessFilterEvents_cons h
    obtain ⟨f₁, hf₁, hext₁⟩ :=
      ProcessFilterEvent_extends (hi.filter_Inv hf) hf (hkeep e List.mem_cons_self) h₁
    obtain ⟨f', hf', hext₂⟩ :=
      ProcessFilterEvents_extends (hi.step h₁) hf₁ (fun e' he' => hkeep e' (List.mem_cons_of_mem e he')) h₂
    exact ⟨f', hf', hext₁.trans hext₂⟩

/-- The score never goes down along a run. -/
theorem ProcessFilterEvents_score_le :
    ∀ {es : List FilterEvent} {st st' : PeerFilter} {bs : List Bool},
      ProcessFilterEvents MurmurHash3 GetHash SHA256D64 nodeBloom banscore st es = .ok (st', bs) →
      st.nMisbehavior ≤ st'.nMisbehavior
  | [], _, _, _, h => by
    cases h
    exact le_refl _
  | _ :: _, _, _, _, h => by
    obtain ⟨st₁, _, _, h₁, h₂, -⟩ := ProcessFilterEvents_cons h
    exact le_trans (ProcessFilterEvent_score_le h₁) (ProcessFilterEvents_score_le h₂)

variable (MurmurHash3 GetHash SHA256D64 nodeBloom banscore)

/-- From a state with the invariant, every run returns, with one answer per event. -/
theorem ProcessFilterEvents_ok :
    ∀ (es : List FilterEvent) {st : PeerFilter}, st.Inv banscore →
      ∃ st' bs, ProcessFilterEvents MurmurHash3 GetHash SHA256D64 nodeBloom banscore st es = .ok (st', bs) ∧
        bs.length = es.length
  | [], st, _ => ⟨st, [], rfl, rfl⟩
  | e :: es, st, hi => by
    obtain ⟨st₁, b, h₁⟩ := ProcessFilterEvent_ok MurmurHash3 GetHash SHA256D64 nodeBloom banscore
      (fun _ hf => hi.filter_Inv hf) e
    obtain ⟨st', bs, hrun, hlen⟩ := ProcessFilterEvents_ok es (hi.step h₁)
    refine ⟨st', b :: bs, ?_, by rw [List.length_cons, List.length_cons, hlen]⟩
    rw [ProcessFilterEvents, h₁, ExceptSpec.ok_bind]
    dsimp only
    rw [hrun, ExceptSpec.ok_bind]
    rfl

end Run

/-! ## What a peer can rely on -/

section Peer

variable (MurmurHash3 : UInt32 → List UInt8 → UInt32) (GetHash : CMutableTransaction → BitVec 256)
  (SHA256D64 : BitVec 256 → BitVec 256 → BitVec 256) (nodeBloom : Bool) (banscore : Int)

end Peer

end Palladium.Net
