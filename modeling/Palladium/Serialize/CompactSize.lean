import Palladium.Lib.ByteStream

/-!
# CompactSize

The length prefix of every vector the node serializes (`serialize.h`): one
byte below 253, otherwise a marker byte and a 2, 4 or 8-byte little-endian
number. The reader rejects a number that a shorter form would have held, and
any above `MAX_SIZE`. Every length up to `MAX_SIZE` is read back.
-/

namespace Palladium.Serialize

open ByteStream

set_option autoImplicit false

/-- `MAX_SIZE`. -/
def MAX_SIZE : Nat := 0x02000000

/-- `WriteCompactSize` of a `uint64_t`. -/
def WriteCompactSize (nSize : Nat) : List UInt8 :=
  if nSize < 253 then [UInt8.ofNat nSize]
  else if nSize ≤ 0xFFFF then 253 :: writeLE 2 nSize
  else if nSize ≤ 0xFFFFFFFF then 254 :: writeLE 4 nSize
  else 255 :: writeLE 8 nSize

/-- The number after a marker byte, which must need the marker's width. -/
def readCompactPayload (k lo : Nat) : Reader Nat := do
  let n ← readLE k
  if n < lo then throw "non-canonical ReadCompactSize()" else pure n

/-- The number that a first byte `chSize` of `ReadCompactSize` starts. -/
def readCompactNumber (chSize : UInt8) : Reader Nat :=
  if chSize < 253 then pure chSize.toNat
  else if chSize = 253 then readCompactPayload 2 253
  else if chSize = 254 then readCompactPayload 4 0x10000
  else readCompactPayload 8 0x100000000

/-- `ReadCompactSize` with its range check. -/
def ReadCompactSize : Reader Nat := do
  let chSize ← readByte
  let nSizeRet ← readCompactNumber chSize
  if nSizeRet > MAX_SIZE then throw "ReadCompactSize(): size too large" else pure nSizeRet

/-- A check that passes reads nothing. -/
theorem check_decodes {c : Prop} [Decidable c] (e : String) {n : Nat} (hc : ¬c) :
    Decodes (if c then throw e else pure n : Reader Nat) [] n := by
  rw [if_neg hc]
  exact Decodes.pure n

theorem readCompactPayload_decodes (k lo : Nat) {n : Nat} (hlo : lo ≤ n) (hn : n < 256 ^ k) :
    Decodes (readCompactPayload k lo) (writeLE k n) n := by
  unfold readCompactPayload
  refine ((readLE_decodes k n hn).bind ?_).congr (List.append_nil _)
  exact check_decodes _ (by omega)

/-- Every form that `WriteCompactSize` writes for a length up to `MAX_SIZE`
is a first byte and the payload it starts. -/
theorem WriteCompactSize_cases {n : Nat} (h : n ≤ MAX_SIZE) :
    ∃ chSize payload, WriteCompactSize n = chSize :: payload ∧ Decodes (readCompactNumber chSize) payload n := by
  unfold WriteCompactSize readCompactNumber
  by_cases h1 : n < 253
  · have hval : (UInt8.ofNat n).toNat = n := by
      rw [UInt8.toNat_ofNat']
      omega
    have hb : UInt8.ofNat n < 253 := by
      rw [UInt8.lt_iff_toNat_lt, hval]
      exact h1
    refine ⟨UInt8.ofNat n, [], by rw [if_pos h1], ?_⟩
    rw [if_pos hb, hval]
    exact Decodes.pure n
  by_cases h2 : n ≤ 0xFFFF
  · refine ⟨253, writeLE 2 n, by rw [if_neg h1, if_pos h2], ?_⟩
    rw [if_neg (by decide), if_pos rfl]
    exact readCompactPayload_decodes 2 253 (by omega) (by omega)
  · have h3 : n ≤ 0xFFFFFFFF := by simp only [MAX_SIZE] at h; omega
    refine ⟨254, writeLE 4 n, by rw [if_neg h1, if_neg h2, if_pos h3], ?_⟩
    rw [if_neg (by decide), if_neg (by decide), if_pos rfl]
    exact readCompactPayload_decodes 4 0x10000 (by omega) (by omega)

theorem ReadCompactSize_WriteCompactSize {n : Nat} (h : n ≤ MAX_SIZE) :
    Decodes ReadCompactSize (WriteCompactSize n) n := by
  obtain ⟨chSize, payload, hw, hnum⟩ := WriteCompactSize_cases h
  rw [hw, ReadCompactSize]
  refine (readByte_decodes chSize).bind ?_
  refine (hnum.bind ?_).congr (List.append_nil _)
  -- the range check at the end passes
  exact check_decodes _ (by omega)

theorem readCompactPayload_canonical {k lo n : Nat} {bs rest : List UInt8}
    (h : (readCompactPayload k lo).run bs = .ok (n, rest)) :
    lo ≤ n ∧ n < 256 ^ k ∧ bs = writeLE k n ++ rest := by
  obtain ⟨m, mid, hm, hchk⟩ := run_bind_ok h
  obtain ⟨hlo, rfl, rfl⟩ := run_check_ok hchk
  obtain ⟨hlt, hbs⟩ := readLE_canonical k hm
  exact ⟨by omega, hlt, hbs⟩

/-- `ReadCompactSize` accepts only canonical forms: the bytes it consumed are
`WriteCompactSize` of the length it returns. A longer form than needed fails
the payload's lower bound, and the 8-byte form cannot stay below `MAX_SIZE`. -/
theorem ReadCompactSize_canonical {bs rest : List UInt8} {n : Nat}
    (h : ReadCompactSize.run bs = .ok (n, rest)) :
    n ≤ MAX_SIZE ∧ bs = WriteCompactSize n ++ rest := by
  obtain ⟨chSize, mid, hch, h₂⟩ := run_bind_ok h
  obtain ⟨m, mid', hm, hchk⟩ := run_bind_ok h₂
  obtain ⟨hmax, rfl, rfl⟩ := run_check_ok hchk
  have hmax' : n ≤ 0x02000000 := by simpa [MAX_SIZE] using hmax
  refine ⟨by omega, ?_⟩
  rw [readByte_ok hch]
  unfold readCompactNumber at hm
  unfold WriteCompactSize
  by_cases h1 : chSize < 253
  · -- one byte: the length itself
    rw [if_pos h1] at hm
    obtain ⟨rfl, rfl⟩ := run_pure_ok hm
    have hlt : chSize.toNat < 253 := UInt8.lt_iff_toNat_lt.mp h1
    rw [if_pos hlt, UInt8.ofNat_toNat]
    rfl
  rw [if_neg h1] at hm
  by_cases h2 : chSize = 253
  · rw [if_pos h2] at hm
    obtain ⟨hlo, hlt, rfl⟩ := readCompactPayload_canonical hm
    rw [if_neg (show ¬n < 253 by omega), if_pos (show n ≤ 0xFFFF by omega), h2]
    rfl
  rw [if_neg h2] at hm
  by_cases h3 : chSize = 254
  · rw [if_pos h3] at hm
    obtain ⟨hlo, hlt, rfl⟩ := readCompactPayload_canonical hm
    rw [if_neg (show ¬n < 253 by omega), if_neg (show ¬n ≤ 0xFFFF by omega),
      if_pos (show n ≤ 0xFFFFFFFF by omega), h3]
    rfl
  · -- the 8-byte form holds at least 2^32, above `MAX_SIZE`
    rw [if_neg h3] at hm
    obtain ⟨hlo, -, -⟩ := readCompactPayload_canonical hm
    omega

end Palladium.Serialize
