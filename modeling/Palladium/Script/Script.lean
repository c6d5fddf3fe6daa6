import Palladium.Lib.ByteStream
import Palladium.Script.ScriptNum

/-!
# Script pushes

`CScript` (`script/script.h`) is a byte string. `operator<<` of a byte
vector writes the shortest length form that holds its length, a direct
length below `OP_PUSHDATA1` or one of the three `OP_PUSHDATA` forms, and
`push_int64` writes the small numbers as their own opcodes. `GetScriptOp`
(`script/script.cpp`) reads one instruction back and `CheckMinimalPush`
(`script/interpreter.cpp`) says whether a push used the shortest form.

A push is read back by `GetScriptOp` at its own offset in any script, and
it is minimal except where a number opcode would have done.
-/

namespace Palladium.Script

open ByteStream

set_option autoImplicit false

/-! ## Opcodes -/

def OP_0 : Nat := 0x00
def OP_PUSHDATA1 : Nat := 0x4c
def OP_PUSHDATA2 : Nat := 0x4d
def OP_PUSHDATA4 : Nat := 0x4e
def OP_1NEGATE : Nat := 0x4f
def OP_1 : Nat := 0x51
def OP_16 : Nat := 0x60

/-- `CScript`: the bytes of a script. -/
abbrev CScript := List UInt8

/-- `ReadLE16` and `ReadLE32` of `crypto/common.h`: the first `k` bytes,
little-endian. -/
def ReadLE (k : Nat) (p : List UInt8) : Nat := leValue (p.take k)

/-- The opcode and length bytes that `operator<<` writes before the bytes of
`b`. -/
def pushPrefix (b : List UInt8) : List UInt8 :=
  if b.length < OP_PUSHDATA1 then [UInt8.ofNat b.length]
  else if b.length ≤ 0xff then [UInt8.ofNat OP_PUSHDATA1, UInt8.ofNat b.length]
  else if b.length ≤ 0xffff then UInt8.ofNat OP_PUSHDATA2 :: writeLE 2 b.length
  else UInt8.ofNat OP_PUSHDATA4 :: writeLE 4 b.length

/-- `CScript::operator<<(const std::vector<unsigned char>&)`. -/
def CScript.pushVch (script : CScript) (b : List UInt8) : CScript := script ++ pushPrefix b ++ b

/-- `CScript::push_int64`: `OP_1NEGATE`, `OP_1` to `OP_16` and `OP_0` for the
small numbers, otherwise the serialized number as data. -/
def CScript.push_int64 (script : CScript) (n : Int) : CScript :=
  if n = -1 ∨ (n ≥ 1 ∧ n ≤ 16) then script ++ [UInt8.ofNat (n + (OP_1 - 1 : Nat)).toNat]
  else if n = 0 then script ++ [UInt8.ofNat OP_0]
  else script.pushVch (serialize n)

/-- The length of the data of an instruction `opcode ≤ OP_PUSHDATA4` and the
position after its length bytes; `none` where the script ends first. -/
def pushSize (script : CScript) (opcode pc : Nat) : Option (Nat × Nat) :=
  if opcode < OP_PUSHDATA1 then some (opcode, pc)
  else if opcode = OP_PUSHDATA1 then
    if script.length - pc < 1 then none else some ((script.getD pc 0).toNat, pc + 1)
  else if opcode = OP_PUSHDATA2 then
    if script.length - pc < 2 then none else some (ReadLE 2 (script.drop pc), pc + 2)
  else
    if script.length - pc < 4 then none else some (ReadLE 4 (script.drop pc), pc + 4)

/-- `GetScriptOp` from position `pc`: the opcode, the data it pushes and the
position after it; `none` where it returns false. -/
def GetScriptOp (script : CScript) (pc : Nat) : Option (Nat × List UInt8 × Nat) :=
  if pc ≥ script.length then none
  else
    -- read instruction
    let opcode := (script.getD pc 0).toNat
    let pc := pc + 1
    -- immediate operand
    if opcode ≤ OP_PUSHDATA4 then
      match pushSize script opcode pc with
      | none => none
      | some (nSize, pc) =>
        if script.length - pc < nSize then none
        else some (opcode, (script.drop pc).take nSize, pc + nSize)
    else some (opcode, [], pc)

/-- `CheckMinimalPush`; the assertion on the opcode is the error. -/
def CheckMinimalPush (data : List UInt8) (opcode : Nat) : Except String Bool :=
  if ¬opcode ≤ OP_PUSHDATA4 then .error "assert(0 <= opcode && opcode <= OP_PUSHDATA4)"
  else if data.length = 0 then
    -- should have used OP_0
    .ok (opcode == OP_0)
  else if data.length = 1 ∧ data.getD 0 0 ≥ 1 ∧ data.getD 0 0 ≤ 16 then
    -- should have used OP_1 .. OP_16
    .ok false
  else if data.length = 1 ∧ data.getD 0 0 = 0x81 then
    -- should have used OP_1NEGATE
    .ok false
  else if data.length ≤ 75 then .ok (opcode == data.length)
  else if data.length ≤ 255 then .ok (opcode == OP_PUSHDATA1)
  else if data.length ≤ 65535 then .ok (opcode == OP_PUSHDATA2)
  else .ok true

/-! ## Reading an instruction -/

theorem leValue_cons (b : UInt8) (bs : List UInt8) : leValue (b :: bs) = b.toNat + 256 * leValue bs := by
  rw [leValue, List.map_cons, Nat.ofDigits_cons, ← leValue]

theorem leValue_writeLE : ∀ k n : Nat, leValue (writeLE k n) = n % 256 ^ k
  | 0, n => by rw [Nat.pow_zero, Nat.mod_one]; rfl
  | k + 1, n => by
    have hlow : (UInt8.ofNat (n % 256)).toNat = n % 256 := by rw [UInt8.toNat_ofNat']; omega
    rw [writeLE, leValue_cons, leValue_writeLE k, hlow, Nat.pow_succ, Nat.mul_comm (256 ^ k) 256, Nat.mod_mul]

theorem length_writeLE : ∀ k n : Nat, (writeLE k n).length = k
  | 0, _ => rfl
  | k + 1, n => by rw [writeLE, List.length_cons, length_writeLE k]

theorem ReadLE_writeLE_append (k n : Nat) (rest : List UInt8) (hn : n < 256 ^ k) :
    ReadLE k (writeLE k n ++ rest) = n := by
  rw [ReadLE, List.take_left' (length_writeLE k n), leValue_writeLE, Nat.mod_eq_of_lt hn]

theorem drop_append_length_add (s rest : List UInt8) (j : Nat) : (s ++ rest).drop (s.length + j) = rest.drop j := by
  rw [List.drop_append, List.drop_eq_nil_of_le (by omega), List.nil_append, Nat.add_sub_cancel_left]

theorem getD_append_length_add (s rest : List UInt8) (j : Nat) :
    (s ++ rest).getD (s.length + j) 0 = rest.getD j 0 := by
  rw [List.getD_eq_getElem?_getD, List.getElem?_append_right (by omega), Nat.add_sub_cancel_left,
    ← List.getD_eq_getElem?_getD]

/-- Reading an instruction looks only at the script from its position on. -/
theorem pushSize_append (s rest : List UInt8) (opcode pc : Nat) :
    pushSize (s ++ rest) opcode (s.length + pc) =
      (pushSize rest opcode pc).map fun r => (r.1, s.length + r.2) := by
  have hlen : ∀ j, (s ++ rest).length - (s.length + pc) < j ↔ rest.length - pc < j := by
    intro j
    rw [List.length_append]
    omega
  unfold pushSize
  by_cases h1 : opcode < OP_PUSHDATA1
  · simp only [if_pos h1, Option.map_some]
  by_cases h2 : opcode = OP_PUSHDATA1
  · simp only [if_neg h1, if_pos h2, hlen, getD_append_length_add]
    split <;> rfl
  by_cases h3 : opcode = OP_PUSHDATA2
  · simp only [if_neg h1, if_neg h2, if_pos h3, hlen, drop_append_length_add]
    split <;> rfl
  · simp only [if_neg h1, if_neg h2, if_neg h3, hlen, drop_append_length_add]
    split <;> rfl

theorem GetScriptOp_append (s rest : List UInt8) (pc : Nat) :
    GetScriptOp (s ++ rest) (s.length + pc) =
      (GetScriptOp rest pc).map fun r => (r.1, r.2.1, s.length + r.2.2) := by
  unfold GetScriptOp
  rw [List.length_append, getD_append_length_add]
  by_cases hend : pc ≥ rest.length
  · rw [if_pos (by omega), if_pos hend]
    rfl
  rw [if_neg (by omega), if_neg hend]
  dsimp only
  split
  · rw [show s.length + pc + 1 = s.length + (pc + 1) by omega, pushSize_append]
    cases pushSize rest (rest.getD pc 0).toNat (pc + 1) with
    | none => rfl
    | some r =>
      dsimp only [Option.map_some]
      rw [drop_append_length_add, show s.length + rest.length - (s.length + r.2) = rest.length - r.2 by omega]
      split
      · rfl
      · simp only [Option.map_some, Nat.add_assoc]
  · simp only [Option.map_some, Nat.add_assoc]

/-- An instruction with immediate data, from the length its opcode gives. -/
theorem GetScriptOp_of_pushSize {script : CScript} {pc n pc' : Nat} (hpc : pc < script.length)
    (hop : (script.getD pc 0).toNat ≤ OP_PUSHDATA4)
    (hsize : pushSize script (script.getD pc 0).toNat (pc + 1) = some (n, pc'))
    (hn : n ≤ script.length - pc') :
    GetScriptOp script pc = some ((script.getD pc 0).toNat, (script.drop pc').take n, pc' + n) := by
  unfold GetScriptOp
  rw [if_neg (by omega)]
  dsimp only
  rw [if_pos hop, hsize]
  dsimp only
  rw [if_neg (by omega)]

/-- Every instruction read moves the position forward. -/
theorem pushSize_ge {script : CScript} {opcode pc n pc' : Nat} (h : pushSize script opcode pc = some (n, pc')) :
    pc ≤ pc' := by
  unfold pushSize at h
  split at h
  · cases h
    exact Nat.le_refl _
  split at h
  · split at h
    · cases h
    · cases h
      omega
  split at h
  · split at h
    · cases h
    · cases h
      omega
  · split at h
    · cases h
    · cases h
      omega

/-- The length bytes of an instruction lie inside the script. -/
theorem pushSize_le_length {script : CScript} {opcode pc n pc' : Nat}
    (h : pushSize script opcode pc = some (n, pc')) (hpc : pc ≤ script.length) : pc' ≤ script.length := by
  unfold pushSize at h
  split at h
  · cases h
    exact hpc
  split at h
  · split at h
    · cases h
    · cases h
      omega
  split at h
  · split at h
    · cases h
    · cases h
      omega
  · split at h
    · cases h
    · cases h
      omega

theorem GetScriptOp_lt {script : CScript} {pc opcode pc' : Nat} {vch : List UInt8}
    (h : GetScriptOp script pc = some (opcode, vch, pc')) : pc < pc' := by
  unfold GetScriptOp at h
  split at h
  · cases h
  dsimp only at h
  split at h
  · split at h
    · cases h
    · rename_i n pc'' hsize
      have := pushSize_ge hsize
      split at h
      · cases h
      · cases h
        omega
  · cases h
    omega

/-- `GetScriptOp` never reads past the end of the script. -/
theorem GetScriptOp_le_length {script : CScript} {pc opcode pc' : Nat} {vch : List UInt8}
    (h : GetScriptOp script pc = some (opcode, vch, pc')) : pc' ≤ script.length := by
  unfold GetScriptOp at h
  split at h
  · cases h
  dsimp only at h
  rename_i hpc
  split at h
  · split at h
    · cases h
    · rename_i n pc'' hsize
      have := pushSize_le_length hsize (by omega)
      split at h
      · cases h
      · cases h
        omega
  · cases h
    omega

/-- The opcode that `operator<<` writes for `b`: its length, or the
`OP_PUSHDATA` form that holds it. -/
def pushOpcode (b : List UInt8) : Nat :=
  if b.length < OP_PUSHDATA1 then b.length
  else if b.length ≤ 0xff then OP_PUSHDATA1
  else if b.length ≤ 0xffff then OP_PUSHDATA2
  else OP_PUSHDATA4

theorem pushOpcode_le (b : List UInt8) : pushOpcode b ≤ OP_PUSHDATA4 := by
  unfold pushOpcode OP_PUSHDATA1 OP_PUSHDATA2 OP_PUSHDATA4
  split
  · omega
  split
  · decide
  split <;> decide

/-- The first byte of a push is its opcode, and the length bytes after it
give the length of the data. -/
theorem pushPrefix_cases (b : List UInt8) (hb : b.length < 2 ^ 32) :
    ((pushPrefix b ++ b).getD 0 0).toNat = pushOpcode b ∧
      pushSize (pushPrefix b ++ b) (pushOpcode b) 1 = some (b.length, (pushPrefix b).length) := by
  unfold pushPrefix pushOpcode pushSize
  by_cases h1 : b.length < OP_PUSHDATA1
  · -- a direct length
    have hop : (UInt8.ofNat b.length).toNat = b.length := by
      rw [UInt8.toNat_ofNat']
      simp only [OP_PUSHDATA1] at h1
      omega
    simp only [if_pos h1, List.singleton_append, List.getD_cons_zero, hop, List.length_singleton]
    exact ⟨by trivial, by trivial⟩
  simp only [if_neg h1]
  have hne1 : ¬OP_PUSHDATA2 < OP_PUSHDATA1 ∧ OP_PUSHDATA2 ≠ OP_PUSHDATA1 := by decide
  have hne4 : ¬OP_PUSHDATA4 < OP_PUSHDATA1 ∧ OP_PUSHDATA4 ≠ OP_PUSHDATA1 ∧ OP_PUSHDATA4 ≠ OP_PUSHDATA2 := by
    decide
  by_cases h2 : b.length ≤ 0xff
  · -- `OP_PUSHDATA1` and one length byte
    have hlen : (UInt8.ofNat b.length).toNat = b.length := by rw [UInt8.toNat_ofNat']; omega
    simp only [if_pos h2, List.cons_append, List.getD_cons_zero, List.getD_cons_succ, List.length_cons,
      hlen, Nat.lt_irrefl, if_true, if_false]
    refine ⟨rfl, ?_⟩
    rw [if_neg (by omega)]
    rfl
  simp only [if_neg h2]
  by_cases h3 : b.length ≤ 0xffff
  · -- `OP_PUSHDATA2` and two length bytes
    simp only [if_pos h3, List.cons_append, List.getD_cons_zero, List.length_cons, List.length_append,
      length_writeLE, hne1.1, hne1.2, if_false, if_true, List.drop_succ_cons, List.drop_zero,
      ReadLE_writeLE_append 2 b.length b (by omega)]
    refine ⟨rfl, ?_⟩
    rw [if_neg (by omega)]
  · -- `OP_PUSHDATA4` and four length bytes
    simp only [if_neg h3, List.cons_append, List.getD_cons_zero, List.length_cons, List.length_append,
      length_writeLE, hne4.1, hne4.2.1, hne4.2.2, if_false, List.drop_succ_cons, List.drop_zero,
      ReadLE_writeLE_append 4 b.length b (by omega)]
    refine ⟨rfl, ?_⟩
    rw [if_neg (by omega)]

/-- A push read at its start: the opcode, the data, and the position after it. -/
theorem GetScriptOp_push (b : List UInt8) (hb : b.length < 2 ^ 32) :
    GetScriptOp (pushPrefix b ++ b) 0 = some (pushOpcode b, b, (pushPrefix b ++ b).length) := by
  obtain ⟨hop, hsize⟩ := pushPrefix_cases b hb
  have hpre : 0 < (pushPrefix b).length := by
    unfold pushPrefix
    split
    · simp
    split <;> [simp; split <;> simp]
  rw [GetScriptOp_of_pushSize (by simp; omega) (hop ▸ pushOpcode_le b) (hop ▸ hsize) (by simp), hop,
    List.drop_left, List.take_length, List.length_append]

/-- `GetScriptOp` at the offset of a push in any script reads the push. -/
theorem GetScriptOp_pushVch (s b : List UInt8) (hb : b.length < 2 ^ 32) :
    GetScriptOp (CScript.pushVch s b) s.length = some (pushOpcode b, b, (CScript.pushVch s b).length) := by
  have h := GetScriptOp_append s (pushPrefix b ++ b) 0
  rw [Nat.add_zero, GetScriptOp_push b hb, Option.map_some] at h
  rw [CScript.pushVch, List.append_assoc, h]
  simp only [List.length_append]

/-- The push that `operator<<` writes is minimal, except for the one-byte
data that a number opcode pushes. -/
theorem CheckMinimalPush_pushOpcode (b : List UInt8) :
    CheckMinimalPush b (pushOpcode b) =
      .ok (decide ¬(b.length = 1 ∧ (1 ≤ b.getD 0 0 ∧ b.getD 0 0 ≤ 16 ∨ b.getD 0 0 = 0x81))) := by
  rw [CheckMinimalPush, if_neg (not_not.mpr (pushOpcode_le b))]
  by_cases h0 : b.length = 0
  · rw [if_pos h0, decide_eq_true (by omega)]
    simp [pushOpcode, h0, OP_0, OP_PUSHDATA1]
  rw [if_neg h0]
  by_cases hsmall : b.length = 1 ∧ b.getD 0 0 ≥ 1 ∧ b.getD 0 0 ≤ 16
  · rw [if_pos hsmall, decide_eq_false (not_not.mpr ⟨hsmall.1, .inl hsmall.2⟩)]
  rw [if_neg hsmall]
  by_cases hneg : b.length = 1 ∧ b.getD 0 0 = 0x81
  · rw [if_pos hneg, decide_eq_false (not_not.mpr ⟨hneg.1, .inr hneg.2⟩)]
  rw [if_neg hneg]
  have hnot : ¬(b.length = 1 ∧ (1 ≤ b.getD 0 0 ∧ b.getD 0 0 ≤ 16 ∨ b.getD 0 0 = 0x81)) := by
    rintro ⟨hl, h | h⟩
    · exact hsmall ⟨hl, h⟩
    · exact hneg ⟨hl, h⟩
  rw [decide_eq_true hnot]
  -- by its length, the form `operator<<` chose is the one required
  by_cases h75 : b.length ≤ 75
  · rw [if_pos h75, pushOpcode, if_pos (show b.length < OP_PUSHDATA1 by unfold OP_PUSHDATA1; omega)]
    simp
  rw [if_neg h75]
  have h76 : ¬b.length < OP_PUSHDATA1 := by unfold OP_PUSHDATA1; omega
  by_cases h255 : b.length ≤ 255
  · rw [if_pos h255, pushOpcode, if_neg h76, if_pos h255]
    simp
  rw [if_neg h255]
  by_cases h65535 : b.length ≤ 65535
  · rw [if_pos h65535, pushOpcode, if_neg h76, if_neg h255, if_pos h65535]
    simp
  · rw [if_neg h65535]

end Palladium.Script
