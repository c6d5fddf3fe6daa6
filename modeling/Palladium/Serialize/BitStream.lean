import Palladium.Lib.Bits
import Palladium.Lib.ByteStream
import Palladium.Lib.ExceptSpec

/-!
# Bit streams

`BitStreamWriter` and `BitStreamReader` (`streams.h`) write and read bits
most significant first, a byte at a time. The writer ORs the next bits of a
value into its buffer byte and writes the byte out when it is full; `Flush`
writes a partial byte padded with zeros. The reader takes a new byte when
its buffer is spent and shifts the next bits out of it.

The writer is read as the bits it has written and the reader as the bits it
has still to return. `Write` appends the `nbits` low bits of its value, and
`Read` returns the number the next `nbits` bits spell and drops them.
-/

namespace Palladium.Serialize

open ByteStream Bits

set_option autoImplicit false

/-- A `BitStreamWriter` and the bytes it has written to its output stream.
Between calls fewer than 8 bits wait in the buffer. -/
structure BitStreamWriter where
  ostream : List UInt8
  m_buffer : UInt8
  m_offset : Fin 8

namespace BitStreamWriter

/-- One pass of the loop of `Write`: the next `min (8 - m_offset) nbits` of
the `nbits` low bits of `data` are ORed into the buffer, and a full buffer
is flushed. -/
def writePass (data : UInt64) (nbits : Nat) (w : BitStreamWriter) : BitStreamWriter :=
  let bits := min (8 - w.m_offset.val) nbits
  let m_buffer := w.m_buffer |||
    ((data <<< UInt64.ofNat (64 - nbits)) >>> UInt64.ofNat (64 - 8 + w.m_offset.val)).toUInt8
  if hfull : w.m_offset.val + bits = 8 then ⟨w.ostream ++ [m_buffer], 0, 0⟩
  else ⟨w.ostream, m_buffer, ⟨w.m_offset.val + bits, by omega⟩⟩

/-- The loop of `Write`. -/
def writeLoop (data : UInt64) (nbits : Nat) (w : BitStreamWriter) : BitStreamWriter :=
  if nbits = 0 then w
  else writeLoop data (nbits - min (8 - w.m_offset.val) nbits) (writePass data nbits w)
termination_by nbits
decreasing_by have := w.m_offset.isLt; omega

/-- `BitStreamWriter::Write`: the `nbits` low bits of `data`. -/
def Write (w : BitStreamWriter) (data : UInt64) (nbits : Nat) : Except String BitStreamWriter :=
  if nbits > 64 then throw "nbits must be between 0 and 64" else pure (writeLoop data nbits w)

/-- The writer as its constructor leaves it: no byte out, an empty buffer. -/
def init : BitStreamWriter := ⟨[], 0, 0⟩

/-- `BitStreamWriter::Flush`: a partial byte goes out padded with zeros. -/
def Flush (w : BitStreamWriter) : BitStreamWriter :=
  if w.m_offset.val = 0 then w else ⟨w.ostream ++ [w.m_buffer], 0, 0⟩

/-- The bits written so far: the bytes out, then the buffer's `m_offset`
high bits. -/
def bits (w : BitStreamWriter) : List Bool :=
  ofBytes w.ostream ++ ofNat w.m_offset (w.m_buffer.toNat / 2 ^ (8 - w.m_offset.val))

/-- The buffer's bits after its offset are clear. -/
def Clean (w : BitStreamWriter) : Prop :=
  w.m_buffer.toNat % 2 ^ (8 - w.m_offset.val) = 0

@[simp] theorem bits_init : init.bits = [] := by
  simp [init, bits, ofBytes]

theorem Clean_init : init.Clean := by
  simp [init, Clean]

/-- The value ORed into the buffer is the next `min (8 - o) n` bits of the
`n` low bits of `data`, placed after the buffer's first `o` bits. -/
theorem writePass_chunk (data : UInt64) {n o : Nat} (hn : 0 < n) (hn64 : n ≤ 64) (ho : o < 8) :
    ((data <<< UInt64.ofNat (64 - n)) >>> UInt64.ofNat (64 - 8 + o)).toUInt8.toNat =
      data.toNat % 2 ^ n / 2 ^ (n - min (8 - o) n) * 2 ^ (8 - o - min (8 - o) n) := by
  have h1 : (64 - n) % 2 ^ 64 % 64 = 64 - n := by omega
  have h2 : (64 - 8 + o) % 2 ^ 64 % 64 = 56 + o := by omega
  simp only [UInt64.toNat_toUInt8, UInt64.toNat_shiftRight, UInt64.toNat_shiftLeft,
    UInt64.toNat_ofNat', h1, h2]
  apply Nat.eq_of_testBit_eq
  intro i
  simp only [Nat.testBit_mod_two_pow, Nat.testBit_shiftRight, Nat.testBit_shiftLeft,
    Nat.testBit_mul_two_pow, Nat.testBit_div_two_pow]
  -- bit `i` of the byte is bit `n - 8 + o + i` of `data`, inside the window
  by_cases hi : i < 8
  · by_cases hlo : 8 - o - min (8 - o) n ≤ i
    · simp only [hi, hlo, decide_true, Bool.true_and]
      rw [show 56 + o + i - (64 - n) = i - (8 - o - min (8 - o) n) + (n - min (8 - o) n) by omega]
      by_cases hin : i - (8 - o - min (8 - o) n) + (n - min (8 - o) n) < n
      · simp [hin, show 56 + o + i < 64 by omega, show 64 - n ≤ 56 + o + i by omega]
      · simp [hin]
        omega
    · simp [hi, hlo]
      omega
  · simp [hi]
    omega

/-- One pass appends the bits it takes and keeps the buffer clean. -/
theorem writePass_spec (data : UInt64) {n : Nat} (hn : 0 < n) (hn64 : n ≤ 64)
    {w : BitStreamWriter} (hw : w.Clean) :
    (writePass data n w).Clean ∧
      (writePass data n w).bits = w.bits ++
        ofNat (min (8 - w.m_offset.val) n) (data.toNat % 2 ^ n / 2 ^ (n - min (8 - w.m_offset.val) n)) := by
  obtain ⟨ostream, buffer, o⟩ := w
  have ho := o.isLt
  have hw' : buffer.toNat % 2 ^ (8 - o.val) = 0 := hw
  unfold writePass
  dsimp only
  set b := min (8 - o.val) n with hb
  set c := data.toNat % 2 ^ n / 2 ^ (n - b) with hc
  have hclt : c < 2 ^ b := by
    rw [hc, Nat.div_lt_iff_lt_mul (Nat.two_pow_pos _), ← Nat.pow_add, show b + (n - b) = n by omega]
    exact Nat.mod_lt _ (Nat.two_pow_pos n)
  -- the buffer is its first `o` bits `hi`, then zeros
  set hi := buffer.toNat / 2 ^ (8 - o.val) with hhi
  have hbuf : buffer.toNat = 2 ^ (8 - o.val) * hi := by
    have := Nat.div_add_mod buffer.toNat (2 ^ (8 - o.val))
    rw [hw', ← hhi] at this
    omega
  have hv : c * 2 ^ (8 - o.val - b) < 2 ^ (8 - o.val) := by
    calc c * 2 ^ (8 - o.val - b) < 2 ^ b * 2 ^ (8 - o.val - b) :=
          Nat.mul_lt_mul_of_pos_right hclt (Nat.two_pow_pos _)
      _ = 2 ^ (8 - o.val) := by rw [← Nat.pow_add]; congr 1; omega
  have hnew : (buffer ||| ((data <<< UInt64.ofNat (64 - n)) >>>
      UInt64.ofNat (64 - 8 + o.val)).toUInt8).toNat = (hi * 2 ^ b + c) * 2 ^ (8 - o.val - b) := by
    rw [UInt8.toNat_or, writePass_chunk data hn hn64 ho, ← hb, ← hc, hbuf,
      ← Nat.two_pow_add_eq_or_of_lt hv, Nat.add_mul, Nat.mul_assoc, ← Nat.pow_add,
      show b + (8 - o.val - b) = 8 - o.val by omega, Nat.mul_comm hi]
  have hbits : ofNat (o.val + b) (hi * 2 ^ b + c) = ofNat o.val hi ++ ofNat b c :=
    ofNat_mul_add _ _ _ hclt
  split
  · rename_i hfull
    refine ⟨by simp [Clean], ?_⟩
    have hbyte : (buffer ||| ((data <<< UInt64.ofNat (64 - n)) >>>
        UInt64.ofNat (64 - 8 + o.val)).toUInt8).toNat = hi * 2 ^ b + c := by
      rw [hnew, show 8 - o.val - b = 0 by omega, Nat.pow_zero, Nat.mul_one]
    have hbits8 : ofNat 8 (hi * 2 ^ b + c) = ofNat o.val hi ++ ofNat b c := by
      have h8 : ofNat 8 (hi * 2 ^ b + c) = ofNat (o.val + b) (hi * 2 ^ b + c) := by
        congr 1
        omega
      rw [h8, hbits]
    simp only [bits, ofBytes_append, ofBytes_cons, ofBytes_nil, List.append_nil, Fin.val_zero,
      ofNat_zero_left, List.append_assoc, hbyte, hbits8, ← hhi]
    rfl
  · rename_i hfull
    have hrest : 8 - (o.val + b) = 8 - o.val - b := by omega
    refine ⟨?_, ?_⟩
    · show (buffer ||| _).toNat % 2 ^ (8 - (o.val + b)) = 0
      rw [hnew, hrest]
      exact Nat.mul_mod_left _ _
    · show ofBytes ostream ++ ofNat (o.val + b) ((buffer ||| _).toNat / 2 ^ (8 - (o.val + b))) =
        (ofBytes ostream ++ ofNat o.val (buffer.toNat / 2 ^ (8 - o.val))) ++ ofNat b c
      rw [hnew, hrest, Nat.mul_div_cancel _ (Nat.two_pow_pos _), hbits, ← hhi, List.append_assoc]

/-- `Write`'s loop appends the `n` low bits of `data`; the induction is on
the bits still to write, each pass taking at least one. -/
theorem writeLoop_spec (data : UInt64) : ∀ (n : Nat) (w : BitStreamWriter), n ≤ 64 → w.Clean →
    (writeLoop data n w).Clean ∧ (writeLoop data n w).bits = w.bits ++ ofNat n data.toNat := by
  intro n
  induction n using Nat.strong_induction_on with
  | _ n ih =>
  intro w hn hw
  rw [writeLoop]
  split
  · rename_i h0
    subst h0
    exact ⟨hw, by simp [ofNat]⟩
  · rename_i h0
    have ho := w.m_offset.isLt
    set b := min (8 - w.m_offset.val) n with hb
    obtain ⟨hc₁, hbits₁⟩ := writePass_spec data (Nat.pos_of_ne_zero h0) hn hw
    obtain ⟨hc₂, hbits₂⟩ := ih (n - b) (by omega) _ (by omega) hc₁
    refine ⟨hc₂, ?_⟩
    -- the pass took the top `b` of the `n` bits, the loop the rest
    rw [hbits₂, hbits₁, List.append_assoc, ofNat_mod_div (by omega),
      ← ofNat_add, show b + (n - b) = n by omega]

theorem Write_spec (data : UInt64) {n : Nat} (hn : n ≤ 64) {w : BitStreamWriter} (hw : w.Clean) :
    ∃ w', w.Write data n = .ok w' ∧ w'.Clean ∧ w'.bits = w.bits ++ ofNat n data.toNat :=
  ⟨_, by rw [Write, if_neg (by omega)]; rfl, writeLoop_spec data n w hn hw⟩

/-- `Flush` leaves no bits in the buffer: the bytes out are the bits
written, padded with zeros to a whole byte. -/
theorem Flush_spec {w : BitStreamWriter} (hw : w.Clean) :
    w.Flush.m_offset = 0 ∧ w.Flush.Clean ∧
      ofBytes w.Flush.ostream = w.bits ++ List.replicate ((8 - w.m_offset.val) % 8) false := by
  obtain ⟨ostream, buffer, o⟩ := w
  have ho := o.isLt
  unfold Flush
  dsimp only
  split
  · rename_i h0
    refine ⟨Fin.ext h0, hw, ?_⟩
    simp [bits, h0]
  · rename_i h0
    refine ⟨rfl, by simp [Clean], ?_⟩
    have hw' : buffer.toNat % 2 ^ (8 - o.val) = 0 := hw
    have hbuf : buffer.toNat = buffer.toNat / 2 ^ (8 - o.val) * 2 ^ (8 - o.val) := by
      have := Nat.div_add_mod buffer.toNat (2 ^ (8 - o.val))
      rw [hw'] at this
      rw [Nat.mul_comm]
      omega
    have hpad : (8 - o.val) % 8 = 8 - o.val := Nat.mod_eq_of_lt (by omega)
    have h8 : ofNat 8 buffer.toNat = ofNat (o.val + (8 - o.val)) buffer.toNat := by
      congr 1
      omega
    show ofBytes (ostream ++ [buffer]) = (ofBytes ostream ++
      ofNat o.val (buffer.toNat / 2 ^ (8 - o.val))) ++ List.replicate ((8 - o.val) % 8) false
    rw [ofBytes_append, ofBytes_cons, ofBytes_nil, List.append_nil, List.append_assoc, hpad, h8]
    congr 1
    conv_lhs => rw [hbuf]
    exact ofNat_mul_two_pow _ _ _

end BitStreamWriter

/-- A `BitStreamReader`: the byte read last and how many of its high bits
have been returned; 8 when the next byte is due. -/
structure BitStreamReader where
  m_buffer : UInt8
  m_offset : Fin 9

namespace BitStreamReader

/-- The start of a pass of `Read`'s loop: a spent buffer takes the next byte
of the stream. -/
def refill (r : BitStreamReader) : Reader (UInt8 × Fin 8) :=
  if h : r.m_offset.val = 8 then do
    let b ← readByte
    pure (b, 0)
  else pure (r.m_buffer, ⟨r.m_offset.val, by omega⟩)

/-- The loop of `Read`: the next `min (8 - m_offset) nbits` bits of the
buffer are shifted into `data`. -/
def readLoop (nbits : Nat) (data : UInt64) (r : BitStreamReader) :
    Reader (UInt64 × BitStreamReader) :=
  if h : nbits = 0 then pure (data, r)
  else do
    let (m_buffer, m_offset) ← r.refill
    readLoop (nbits - min (8 - m_offset.val) nbits)
      ((data <<< UInt64.ofNat (min (8 - m_offset.val) nbits)) |||
        ((m_buffer <<< UInt8.ofNat m_offset.val) >>>
          UInt8.ofNat (8 - min (8 - m_offset.val) nbits)).toUInt64)
      ⟨m_buffer, ⟨m_offset.val + min (8 - m_offset.val) nbits, by omega⟩⟩
termination_by nbits
decreasing_by have := m_offset.isLt; omega

/-- `BitStreamReader::Read`: the next `nbits` bits as a number. -/
def Read (r : BitStreamReader) (nbits : Nat) : Reader (UInt64 × BitStreamReader) :=
  if nbits > 64 then throw "nbits must be between 0 and 64" else readLoop nbits 0 r

/-- The bits still to return: the rest of the buffer, then the stream's. -/
def unread (r : BitStreamReader) (stream : List UInt8) : List Bool :=
  ofNat (8 - r.m_offset.val) r.m_buffer.toNat ++ ofBytes stream

/-- A refill keeps the bits still to return, as long as there are some. -/
theorem refill_spec {r : BitStreamReader} {stream : List UInt8} (hne : r.unread stream ≠ []) :
    ∃ m_buffer m_offset stream', r.refill.run stream = .ok ((m_buffer, m_offset), stream') ∧
      ofNat (8 - m_offset.val) m_buffer.toNat ++ ofBytes stream' = r.unread stream := by
  obtain ⟨buffer, o⟩ := r
  unfold refill
  dsimp only
  split
  · rename_i h8
    cases stream with
    | nil => simp [unread, h8] at hne
    | cons b rest =>
      refine ⟨b, 0, rest, rfl, ?_⟩
      simp [unread, h8, ofNat]
  · exact ⟨buffer, _, stream, rfl, rfl⟩

/-- The bits shifted out of the buffer are the next `b` after its offset. -/
theorem readLoop_chunk (buf : UInt8) {o b : Nat} (ho : o < 8) (hb : 0 < b) (hbo : b ≤ 8 - o) :
    ((buf <<< UInt8.ofNat o) >>> UInt8.ofNat (8 - b)).toNat = buf.toNat / 2 ^ (8 - o - b) % 2 ^ b := by
  have h1 : o % 2 ^ 8 % 8 = o := by omega
  have h2 : (8 - b) % 2 ^ 8 % 8 = 8 - b := by omega
  simp only [UInt8.toNat_shiftRight, UInt8.toNat_shiftLeft, UInt8.toNat_ofNat', h1, h2]
  apply Nat.eq_of_testBit_eq
  intro i
  simp only [Nat.testBit_mod_two_pow, Nat.testBit_shiftRight, Nat.testBit_shiftLeft,
    Nat.testBit_div_two_pow]
  by_cases hi : i < b
  · simp [hi, show 8 - b + i < 8 by omega, show o ≤ 8 - b + i by omega,
      show 8 - b + i - o = i + (8 - o - b) by omega]
  · by_cases h8 : 8 - b + i < 8
    · simp [hi, h8]
      omega
    · simp [hi, h8]

/-- `Read`'s loop returns `data` followed by the next `n` bits and drops
them; the induction is on the bits still to read. -/
theorem readLoop_spec : ∀ (n : Nat) (data : UInt64) (r : BitStreamReader) (stream : List UInt8),
    n ≤ (r.unread stream).length → data.toNat < 2 ^ (64 - n) → n ≤ 64 →
    ∃ r' stream', (readLoop n data r).run stream =
        .ok ((UInt64.ofNat (data.toNat * 2 ^ n + toNat ((r.unread stream).take n)), r'), stream') ∧
      r'.unread stream' = (r.unread stream).drop n := by
  intro n
  induction n using Nat.strong_induction_on with
  | _ n ih =>
  intro data r stream hlen hdata hn
  rw [readLoop]
  split
  · rename_i h0
    subst h0
    refine ⟨r, stream, ?_, rfl⟩
    simp only [Nat.pow_zero, Nat.mul_one, List.take_zero, Bits.toNat, Nat.add_zero, UInt64.ofNat_toNat]
    rfl
  · rename_i h0
    have hne : r.unread stream ≠ [] := fun h => by rw [h] at hlen; simp at hlen; omega
    obtain ⟨buf, o, s₁, hrefill, hL⟩ := refill_spec hne
    have ho := o.isLt
    set L := r.unread stream with hLdef
    set b := min (8 - o.val) n with hb
    -- the next `b` bits are the top `b` of the buffer's unread bits
    have hLsplit : L = ofNat b (buf.toNat / 2 ^ (8 - o.val - b)) ++
        (ofNat (8 - o.val - b) buf.toNat ++ ofBytes s₁) := by
      rw [← hL, ← List.append_assoc, ← ofNat_add, show b + (8 - o.val - b) = 8 - o.val by omega]
    have hch := readLoop_chunk buf ho (b := b) (by omega) (by omega)
    have hchlt : buf.toNat / 2 ^ (8 - o.val - b) % 2 ^ b < 2 ^ b := Nat.mod_lt _ (Nat.two_pow_pos b)
    have hdata' : data.toNat * 2 ^ b + buf.toNat / 2 ^ (8 - o.val - b) % 2 ^ b < 2 ^ (64 - (n - b)) := by
      have h1 : data.toNat + 1 ≤ 2 ^ (64 - n) := hdata
      calc data.toNat * 2 ^ b + buf.toNat / 2 ^ (8 - o.val - b) % 2 ^ b
          < data.toNat * 2 ^ b + 2 ^ b := by omega
        _ = (data.toNat + 1) * 2 ^ b := by rw [Nat.add_mul, Nat.one_mul]
        _ ≤ 2 ^ (64 - n) * 2 ^ b := Nat.mul_le_mul_right _ h1
        _ = 2 ^ (64 - (n - b)) := by rw [← Nat.pow_add]; congr 1; omega
    have hval : ((data <<< UInt64.ofNat b) ||| ((buf <<< UInt8.ofNat o.val) >>>
        UInt8.ofNat (8 - b)).toUInt64).toNat =
        data.toNat * 2 ^ b + buf.toNat / 2 ^ (8 - o.val - b) % 2 ^ b := by
      have hb64 : b % 2 ^ 64 % 64 = b := by omega
      have hlt : data.toNat * 2 ^ b < 2 ^ 64 := by
        have := Nat.pow_le_pow_right (n := 2) (by omega) (show 64 - (n - b) ≤ 64 by omega)
        omega
      rw [UInt64.toNat_or, UInt64.toNat_shiftLeft, UInt64.toNat_ofNat', hb64, UInt8.toNat_toUInt64,
        hch, Nat.shiftLeft_eq, Nat.mod_eq_of_lt hlt, ← Nat.shiftLeft_eq,
        ← Nat.shiftLeft_add_eq_or_of_lt hchlt, Nat.shiftLeft_eq]
    obtain ⟨r', stream', hrun, hunread⟩ := ih (n - b) (by omega) _ ⟨buf, ⟨o.val + b, by omega⟩⟩ s₁
      (by
        simp only [unread, List.length_append, length_ofNat, length_ofBytes]
        have : L.length = 8 - o.val + 8 * s₁.length := by rw [← hL]; simp
        omega)
      (by rw [hval]; exact hdata') (by omega)
    have hdrop : (⟨buf, ⟨o.val + b, by omega⟩⟩ : BitStreamReader).unread s₁ = L.drop b := by
      rw [hLsplit, List.drop_left' (length_ofNat _ _), unread]
      congr 2
      show 8 - (o.val + b) = 8 - o.val - b
      omega
    refine ⟨r', stream', ?_, ?_⟩
    · rw [StateT.run_bind, hrefill, ExceptSpec.ok_bind]
      dsimp only
      erw [hrun]
      rw [hval, hdrop]
      congr 3
      -- the bits read are the `b` of this pass, then those of the rest of the loop
      have htake : L.take n = L.take b ++ (L.drop b).take (n - b) := by
        rw [← List.take_add, show b + (n - b) = n by omega]
      have hlenb : ((L.drop b).take (n - b)).length = n - b := by
        simp only [List.length_take, List.length_drop]; omega
      have htb : toNat (L.take b) = buf.toNat / 2 ^ (8 - o.val - b) % 2 ^ b := by
        rw [hLsplit, List.take_left' (length_ofNat _ _), toNat_ofNat]
      rw [htake, toNat_append, hlenb, htb, Nat.add_mul, Nat.mul_assoc, ← Nat.pow_add,
        show b + (n - b) = n by omega, Nat.add_assoc]
    · rw [hunread, hdrop, List.drop_drop, show b + (n - b) = n by omega]

theorem Read_spec {n : Nat} (hn : n ≤ 64) {r : BitStreamReader} {stream : List UInt8}
    (hlen : n ≤ (r.unread stream).length) :
    ∃ r' stream', (r.Read n).run stream =
        .ok ((UInt64.ofNat (Bits.toNat ((r.unread stream).take n)), r'), stream') ∧
      r'.unread stream' = (r.unread stream).drop n := by
  obtain ⟨r', stream', hrun, hunread⟩ := readLoop_spec n 0 r stream hlen (Nat.two_pow_pos _) hn
  refine ⟨r', stream', ?_, hunread⟩
  rw [Read, if_neg (by omega), hrun]
  simp

end BitStreamReader

end Palladium.Serialize
