import Palladium.Serialize.CompactSize
import Palladium.Arith.Uint256

/-!
# The differential index codec of `getblocktxn`

`DifferenceFormatter` (`blockencodings.h`) writes each index of a
`BlockTransactionsRequest` as the CompactSize of its distance from one past
the index before it, and `VectorFormatter` writes the count first. Writer and
reader keep that shift, `m_shift`, from element to element.

The writer throws as soon as an index is not above the one before it, so it
succeeds exactly on strictly increasing lists; the reader's shift only grows
and every value it returns is the shift it stood at, so what it returns is
strictly increasing; and a strictly increasing list is read back as written.
-/

namespace Palladium.BlockEncodings

open ByteStream Palladium.Serialize Palladium.Arith

set_option autoImplicit false

/-! ## The source -/

/-- `DifferenceFormatter::Ser` of a `uint16_t` from the shift `m_shift`, a
`uint64_t`: the distance from the shift, and the shift past `v`. -/
def DifferenceFormatter.Ser (m_shift : Nat) (v : UInt16) : Except String (List UInt8 × Nat) :=
  if v.toNat < m_shift ∨ v.toNat ≥ 2 ^ 64 - 1 then throw "differential value overflow"
  else pure (WriteCompactSize (v.toNat - m_shift), v.toNat + 1)

/-- `DifferenceFormatter::Unser` of a `uint16_t`: the shift, a `uint64_t`,
wraps on the addition, and `std::numeric_limits<uint16_t>` bounds the value
by `0` and `65535`. -/
def DifferenceFormatter.Unser (m_shift : Nat) : Reader (UInt16 × Nat) := do
  let n ← ReadCompactSize
  let m_shift := (m_shift + n) % 2 ^ 64
  if m_shift < n ∨ m_shift ≥ 2 ^ 64 - 1 ∨ m_shift < 0 ∨ m_shift > 65535 then
    throw "differential value overflow"
  else pure (UInt16.ofNat m_shift, m_shift + 1)

/-- `VectorFormatter<DifferenceFormatter>::Ser`: the count, then each index
from one formatter whose shift starts at `0`. -/
def DifferenceVector.Ser (v : List UInt16) : Except String (List UInt8) := do
  let body ← writeAllWith DifferenceFormatter.Ser 0 v
  pure (WriteCompactSize v.length ++ body)

/-- `VectorFormatter<DifferenceFormatter>::Unser`: the count, then as many
indexes from one formatter. The source reserves the vector in batches of
`MAX_VECTOR_ALLOCATE` bytes so that a claimed count does not allocate by
itself; the batches read the elements in the same order. -/
def DifferenceVector.Unser : Reader (List UInt16) := do
  let size ← ReadCompactSize
  readNWith DifferenceFormatter.Unser 0 size

/-- `BlockTransactionsRequest`. -/
structure BlockTransactionsRequest where
  blockhash : uint256
  indexes : List UInt16
deriving DecidableEq

/-- Serialize a `BlockTransactionsRequest`: the 32 bytes of the hash, then
the indexes. -/
def BlockTransactionsRequest.Serialize (req : BlockTransactionsRequest) : Except String (List UInt8) := do
  let body ← DifferenceVector.Ser req.indexes
  pure (writeLE 32 req.blockhash.toNat ++ body)

/-- Unserialize a `BlockTransactionsRequest`. -/
def BlockTransactionsRequest.Unserialize : Reader BlockTransactionsRequest := do
  let blockhash ← readLE 32
  let indexes ← DifferenceVector.Unser
  pure ⟨BitVec.ofNat 256 blockhash, indexes⟩

/-! ## One index -/

theorem DifferenceFormatter.Ser_eq {m_shift : Nat} {v : UInt16} (h : m_shift ≤ v.toNat) :
    DifferenceFormatter.Ser m_shift v = .ok (WriteCompactSize (v.toNat - m_shift), v.toNat + 1) := by
  have hv : v.toNat < 2 ^ 16 := v.toNat_lt
  rw [DifferenceFormatter.Ser, if_neg (by omega)]
  rfl

theorem DifferenceFormatter.Ser_of_lt {m_shift : Nat} {v : UInt16} (h : v.toNat < m_shift) :
    DifferenceFormatter.Ser m_shift v = .error "differential value overflow" := by
  rw [DifferenceFormatter.Ser, if_pos (.inl h)]
  rfl

/-- The reader takes back what the writer wrote from the same shift. -/
theorem DifferenceFormatter.Unser_Ser {m_shift : Nat} {v : UInt16} (h : m_shift ≤ v.toNat) :
    Decodes (DifferenceFormatter.Unser m_shift) (WriteCompactSize (v.toNat - m_shift)) (v, v.toNat + 1) := by
  have hv : v.toNat < 2 ^ 16 := v.toNat_lt
  have hsize : v.toNat - m_shift ≤ MAX_SIZE := by
    simp only [MAX_SIZE]
    omega
  have hsum : (m_shift + (v.toNat - m_shift)) % 2 ^ 64 = v.toNat := by
    rw [Nat.add_sub_cancel' h]
    exact Nat.mod_eq_of_lt (by omega)
  refine ((ReadCompactSize_WriteCompactSize hsize).bind ?_).congr (List.append_nil _)
  show Decodes (if (m_shift + (v.toNat - m_shift)) % 2 ^ 64 < v.toNat - m_shift ∨ _ then _ else _) [] _
  rw [hsum, if_neg (by omega), UInt16.ofNat_toNat]
  exact Decodes.pure _

/-- What the reader accepts from a shift below `2 ^ 64`: a value at or above
the shift, written as its distance from it, and the shift past it. A sum
that wraps past `2 ^ 64` falls below the distance and is refused. -/
theorem DifferenceFormatter.Unser_ok {m_shift : Nat} (hm : m_shift < 2 ^ 64) {bs rest : List UInt8} {v : UInt16}
    {s' : Nat} (h : (DifferenceFormatter.Unser m_shift).run bs = .ok ((v, s'), rest)) :
    m_shift ≤ v.toNat ∧ s' = v.toNat + 1 ∧ bs = WriteCompactSize (v.toNat - m_shift) ++ rest := by
  obtain ⟨n, mid, hn, hchk⟩ := run_bind_ok h
  obtain ⟨-, rfl⟩ := ReadCompactSize_canonical hn
  dsimp only at hchk
  obtain ⟨hok, hvs, rfl⟩ := run_check_ok hchk
  have hm' : (m_shift + n) % 2 ^ 64 = m_shift + n := by
    rcases Nat.lt_or_ge (m_shift + n) (2 ^ 64) with hlt | hge
    · exact Nat.mod_eq_of_lt hlt
    · -- a wrapped sum is below `n`, which the first check refuses
      have hwrap : (m_shift + n) % 2 ^ 64 = m_shift + n - 2 ^ 64 := by
        rw [Nat.mod_eq_sub_mod hge, Nat.mod_eq_of_lt (by omega)]
      omega
  rw [hm'] at hok hvs
  obtain ⟨rfl, rfl⟩ := Prod.mk.inj hvs
  have hval : (UInt16.ofNat (m_shift + n)).toNat = m_shift + n := by
    rw [UInt16.toNat_ofNat']
    omega
  rw [hval]
  exact ⟨by omega, rfl, by rw [show m_shift + n - m_shift = n by omega]⟩

example : DifferenceFormatter.Ser 3 7 = .ok ([4], 8) := by decide

/-! ## The vector -/

/-- The writer from shift `s` succeeds exactly on strictly increasing lists
starting at `s` or above, and otherwise throws its one message. -/
theorem writeAllWith_Ser_eq : ∀ (s : Nat) (xs : List UInt16),
    ((∀ x ∈ xs, s ≤ x.toNat) ∧ xs.Pairwise (· < ·) →
      ∃ bytes, writeAllWith DifferenceFormatter.Ser s xs = .ok bytes) ∧
    (¬((∀ x ∈ xs, s ≤ x.toNat) ∧ xs.Pairwise (· < ·)) →
      writeAllWith DifferenceFormatter.Ser s xs = .error "differential value overflow")
  | s, [] => ⟨fun _ => ⟨[], rfl⟩, fun h => absurd ⟨by simp, List.Pairwise.nil⟩ h⟩
  | s, x :: xs => by
    obtain ⟨ihok, iherr⟩ := writeAllWith_Ser_eq (x.toNat + 1) xs
    -- the tail's condition from `x + 1` is the rest of the condition from `s`
    have htail : (∀ y ∈ x :: xs, s ≤ y.toNat) ∧ (x :: xs).Pairwise (· < ·) ↔
        s ≤ x.toNat ∧ ((∀ y ∈ xs, x.toNat + 1 ≤ y.toNat) ∧ xs.Pairwise (· < ·)) := by
      simp only [List.mem_cons, forall_eq_or_imp, List.pairwise_cons, UInt16.lt_iff_toNat_lt]
      constructor
      · rintro ⟨⟨hx, -⟩, hlt, hp⟩
        exact ⟨hx, fun y hy => hlt y hy, hp⟩
      · rintro ⟨hx, hlt, hp⟩
        exact ⟨⟨hx, fun y hy => by have := hlt y hy; omega⟩, fun y hy => hlt y hy, hp⟩
    by_cases hx : s ≤ x.toNat
    · have hstep : writeAllWith DifferenceFormatter.Ser s (x :: xs) =
          (writeAllWith DifferenceFormatter.Ser (x.toNat + 1) xs >>= fun bs =>
            pure (WriteCompactSize (x.toNat - s) ++ bs)) := by
        rw [writeAllWith, DifferenceFormatter.Ser_eq hx]
        rfl
      rw [htail, hstep]
      refine ⟨fun h => ?_, fun h => ?_⟩
      · obtain ⟨bytes, hb⟩ := ihok h.2
        exact ⟨_, by rw [hb]; rfl⟩
      · rw [iherr fun h' => h ⟨hx, h'⟩]
        rfl
    · have hstep : writeAllWith DifferenceFormatter.Ser s (x :: xs) = .error "differential value overflow" := by
        rw [writeAllWith, DifferenceFormatter.Ser_of_lt (by omega)]
        rfl
      rw [htail, hstep]
      exact ⟨fun h => absurd h.1 hx, fun _ => rfl⟩

/-- What the reader accepts from a shift at most `2 ^ 16`: values at or above
the shift, strictly increasing, each written as the writer writes it. -/
theorem readNWith_Unser_ok : ∀ (n s : Nat) {bs rest : List UInt8} {ys : List UInt16}, s ≤ 2 ^ 16 →
    (readNWith DifferenceFormatter.Unser s n).run bs = .ok (ys, rest) →
      (∀ y ∈ ys, s ≤ y.toNat) ∧ ys.Pairwise (· < ·) ∧
        ∃ pre, writeAllWith DifferenceFormatter.Ser s ys = .ok pre ∧ bs = pre ++ rest
  | 0, s, bs, rest, ys, _, h => by
    obtain ⟨rfl, rfl⟩ := run_pure_ok h
    exact ⟨by simp, List.Pairwise.nil, [], rfl, rfl⟩
  | n + 1, s, bs, rest, ys, hs, h => by
    obtain ⟨⟨y, s'⟩, mid, hy, h₂⟩ := run_bind_ok h
    obtain ⟨ys', mid', hys, h₃⟩ := run_bind_ok h₂
    obtain ⟨rfl, rfl⟩ := run_pure_ok h₃
    obtain ⟨hsy, rfl, rfl⟩ := DifferenceFormatter.Unser_ok (by omega) hy
    have hyb : y.toNat < 2 ^ 16 := y.toNat_lt
    obtain ⟨hge, hpair, pre, hpre, rfl⟩ := readNWith_Unser_ok n (y.toNat + 1) (by omega) hys
    refine ⟨?_, ?_, WriteCompactSize (y.toNat - s) ++ pre, ?_, by rw [List.append_assoc]⟩
    · intro z hz
      rcases List.mem_cons.mp hz with rfl | hz
      · exact hsy
      · have := hge z hz
        omega
    · exact List.pairwise_cons.mpr ⟨fun z hz => UInt16.lt_iff_toNat_lt.mpr (hge z hz), hpair⟩
    · rw [writeAllWith, DifferenceFormatter.Ser_eq hsy]
      show (writeAllWith DifferenceFormatter.Ser (y.toNat + 1) ys' >>= _) = _
      rw [hpre]
      rfl

/-! ## The request -/

/-- `BlockTransactionsRequest` round trip: a request with strictly increasing
indexes is written and read back; one whose indexes are not strictly
increasing throws; and what the reader accepts has strictly increasing
indexes, each at most `65535`. -/
theorem getblocktxn_difference_codec :
    (∀ req : BlockTransactionsRequest, req.indexes.Pairwise (· < ·) →
      ∃ bytes, req.Serialize = .ok bytes ∧ Decodes BlockTransactionsRequest.Unserialize bytes req) ∧
    (∀ req : BlockTransactionsRequest, ¬req.indexes.Pairwise (· < ·) →
      req.Serialize = .error "differential value overflow") ∧
    (∀ (bs rest : List UInt8) (req : BlockTransactionsRequest),
      BlockTransactionsRequest.Unserialize.run bs = .ok (req, rest) →
        req.indexes.Pairwise (· < ·) ∧ ∀ i ∈ req.indexes, i.toNat ≤ 65535) := by
  refine ⟨fun req hinc => ?_, fun req hninc => ?_, fun bs rest req h => ?_⟩
  · obtain ⟨body, hbody⟩ := (writeAllWith_Ser_eq 0 req.indexes).1 ⟨fun _ _ => Nat.zero_le _, hinc⟩
    -- a strictly increasing list of `uint16_t` has at most `2 ^ 16` entries
    have hlen : req.indexes.length ≤ MAX_SIZE := by
      have hnodup : (req.indexes.map UInt16.toNat).Nodup :=
        (List.pairwise_map.mpr (hinc.imp fun hab => UInt16.lt_iff_toNat_lt.mp hab)).imp Nat.ne_of_lt
      have hsub : (req.indexes.map UInt16.toNat).toFinset ⊆ Finset.range (2 ^ 16) := by
        intro x hx
        obtain ⟨y, -, rfl⟩ := List.mem_map.mp (List.mem_toFinset.mp hx)
        exact Finset.mem_range.mpr y.toNat_lt
      have hcard := Finset.card_le_card hsub
      rw [List.toFinset_card_of_nodup hnodup, List.length_map, Finset.card_range] at hcard
      simp only [MAX_SIZE]
      omega
    have hvec : Decodes DifferenceVector.Unser (WriteCompactSize req.indexes.length ++ body) req.indexes :=
      (ReadCompactSize_WriteCompactSize hlen).bind
        (writeAllWith_decodes (fun s x b s' hx => ?_) 0 req.indexes body hbody)
    · refine ⟨writeLE 32 req.blockhash.toNat ++ (WriteCompactSize req.indexes.length ++ body), ?_, ?_⟩
      · rw [BlockTransactionsRequest.Serialize, DifferenceVector.Ser, hbody]
        rfl
      · have hhash := readLE_decodes 32 req.blockhash.toNat (by simpa using req.blockhash.isLt)
        refine (hhash.bind (hvec.bind_pure fun indexes =>
          (⟨BitVec.ofNat 256 req.blockhash.toNat, indexes⟩ : BlockTransactionsRequest))).of_eq ?_
        rw [BitVec.ofNat_toNat, BitVec.setWidth_eq]
    · -- each step of the writer is read back from the same shift
      by_cases hsx : s ≤ x.toNat
      · rw [DifferenceFormatter.Ser_eq hsx] at hx
        obtain ⟨rfl, rfl⟩ := Prod.mk.inj (Except.ok.inj hx)
        exact DifferenceFormatter.Unser_Ser hsx
      · rw [DifferenceFormatter.Ser_of_lt (by omega)] at hx
        cases hx
  · have herr := (writeAllWith_Ser_eq 0 req.indexes).2 fun h => hninc h.2
    rw [BlockTransactionsRequest.Serialize, DifferenceVector.Ser, herr]
    rfl
  · obtain ⟨blockhash, mid, -, h₂⟩ := run_bind_ok h
    obtain ⟨indexes, mid', hidx, h₃⟩ := run_bind_ok h₂
    obtain ⟨rfl, rfl⟩ := run_pure_ok h₃
    obtain ⟨size, mid'', -, hread⟩ := run_bind_ok hidx
    obtain ⟨-, hpair, -⟩ := readNWith_Unser_ok size 0 (by omega) hread
    exact ⟨hpair, fun i _ => Nat.le_of_lt_succ i.toNat_lt⟩

theorem getblocktxn_difference_codec_three_indexes :
    (∃ bytes, (⟨0, [1, 5, 6]⟩ : BlockTransactionsRequest).Serialize = .ok bytes ∧
      Decodes BlockTransactionsRequest.Unserialize bytes ⟨0, [1, 5, 6]⟩) ∧
    (⟨0, [5, 5]⟩ : BlockTransactionsRequest).Serialize = .error "differential value overflow" :=
  ⟨getblocktxn_difference_codec.1 ⟨0, [1, 5, 6]⟩ (by simp),
    getblocktxn_difference_codec.2.1 ⟨0, [5, 5]⟩ (by simp)⟩

end Palladium.BlockEncodings
