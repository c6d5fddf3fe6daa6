import Palladium.Script.Script

/-!
# Standard output scripts

`script/standard.cpp`: `Solver` reads a `scriptPubKey` as one of the standard templates
and returns the hashes or keys it carries, `ExtractDestination` turns those into a
`CTxDestination`, and `GetScriptForDestination`, `GetScriptForRawPubKey` and
`GetScriptForMultisig` write the templates. The hashes `Hash160` and `SHA256` are
parameters.

Each template `GetScriptFor…` writes is classified back by `Solver` with the data
written into it, so that a destination survives the trip through its script; and
every script from which `ExtractDestination` reads a hash destination is exactly the
template of that destination.
-/

namespace Palladium.Script

set_option autoImplicit false

def OP_RETURN : Nat := 0x6a
def OP_DUP : Nat := 0x76
def OP_EQUAL : Nat := 0x87
def OP_EQUALVERIFY : Nat := 0x88
def OP_HASH160 : Nat := 0xa9
def OP_CHECKSIG : Nat := 0xac
def OP_CHECKMULTISIG : Nat := 0xae

def WITNESS_V0_SCRIPTHASH_SIZE : Nat := 32
def WITNESS_V0_KEYHASH_SIZE : Nat := 20

/-- `base_blob<BITS>`: `WIDTH = BITS / 8` bytes. -/
structure base_blob (WIDTH : Nat) where
  data : List UInt8
  length_data : data.length = WIDTH
deriving DecidableEq, Repr

/-- `base_blob(const std::vector<unsigned char>&)` and `std::copy` into a blob: the
bytes of a vector of the blob's size. The assertion on the size holds at every call
below, where the vector comes from a template of that size. -/
def base_blob.ofVch (WIDTH : Nat) (vch : List UInt8) : base_blob WIDTH :=
  ⟨(vch ++ List.replicate WIDTH 0).take WIDTH, by simp⟩

theorem base_blob.ofVch_data {WIDTH : Nat} (b : base_blob WIDTH) : base_blob.ofVch WIDTH b.data = b := by
  obtain ⟨d, hd⟩ := b
  simp only [base_blob.ofVch, base_blob.mk.injEq]
  rw [List.take_append_of_le_length (by omega), List.take_of_length_le (by omega)]

theorem base_blob.ofVch_of_length {WIDTH : Nat} {vch : List UInt8} (h : vch.length = WIDTH) :
    base_blob.ofVch WIDTH vch = ⟨vch, h⟩ :=
  base_blob.ofVch_data ⟨vch, h⟩

/-! ## Public keys -/

def SIZE : Nat := 65
def COMPRESSED_SIZE : Nat := 33

/-- `CPubKey::GetLen`: the length of a public key with this first byte, 0 for none. -/
def GetLen (chHeader : UInt8) : Nat :=
  if chHeader = 2 ∨ chHeader = 3 then COMPRESSED_SIZE
  else if chHeader = 4 ∨ chHeader = 6 ∨ chHeader = 7 then SIZE
  else 0

/-- `CPubKey::ValidSize`. -/
def ValidSize (vch : List UInt8) : Bool := vch.length > 0 ∧ GetLen (vch.getD 0 0) = vch.length

/-- `CPubKey`: its `SIZE` stored bytes `vch`, of which the first `size()` are the key. -/
structure CPubKey where
  vch : List UInt8
  length_vch : vch.length = SIZE
deriving DecidableEq, Repr

namespace CPubKey

/-- `CPubKey(const std::vector<unsigned char>&)`: `Set` copies the bytes when their
length is the one their first byte gives, and otherwise `Invalidate`s the key by
setting its first byte to `0xFF`. The stored bytes past the key are never read; they
are 0 here. -/
def ofVch (vch : List UInt8) : CPubKey :=
  let len := if vch = [] then 0 else GetLen (vch.getD 0 0)
  if len ≠ 0 ∧ len = vch.length then ⟨(vch ++ List.replicate SIZE 0).take SIZE, by simp⟩
  else ⟨0xFF :: List.replicate (SIZE - 1) 0, by simp [SIZE]⟩

/-- `CPubKey::size`. -/
def size (pk : CPubKey) : Nat := GetLen (pk.vch.getD 0 0)

/-- The bytes from `begin()` to `end()`, which `ToByteVector` and `GetID` read. -/
def bytes (pk : CPubKey) : List UInt8 := pk.vch.take pk.size

/-- `CPubKey::IsValid`. -/
def IsValid (pk : CPubKey) : Bool := pk.size > 0

theorem GetLen_cases (chHeader : UInt8) :
    GetLen chHeader = 0 ∨ GetLen chHeader = COMPRESSED_SIZE ∨ GetLen chHeader = SIZE := by
  unfold GetLen
  split_ifs <;> simp

theorem size_of_IsValid {pk : CPubKey} (h : pk.IsValid) : pk.size = COMPRESSED_SIZE ∨ pk.size = SIZE := by
  unfold IsValid at h
  rcases GetLen_cases (pk.vch.getD 0 0) with h0 | h0 | h0 <;> simp_all [size]

theorem size_le (pk : CPubKey) : pk.size ≤ SIZE := by
  unfold size
  rcases GetLen_cases (pk.vch.getD 0 0) with h0 | h0 | h0 <;> rw [h0] <;> decide

theorem length_bytes (pk : CPubKey) : pk.bytes.length = pk.size := by
  have hle := size_le pk
  rw [bytes, List.length_take, pk.length_vch]
  omega

theorem getD_bytes_zero {pk : CPubKey} (h : pk.IsValid) : pk.bytes.getD 0 0 = pk.vch.getD 0 0 := by
  unfold IsValid at h
  rw [bytes, List.getD_eq_getElem?_getD, List.getElem?_take_of_lt (by simpa using h),
    ← List.getD_eq_getElem?_getD]

/-- The bytes of a valid key have the length their first byte gives. -/
theorem ValidSize_bytes {pk : CPubKey} (h : pk.IsValid) : ValidSize pk.bytes := by
  have hsize : pk.size > 0 := by simpa [IsValid] using h
  simp only [ValidSize, length_bytes, getD_bytes_zero h, decide_eq_true_eq]
  exact ⟨hsize, rfl⟩

theorem ofVch_bytes_eq {pk : CPubKey} (h : pk.IsValid) :
    ofVch pk.bytes = ⟨(pk.bytes ++ List.replicate SIZE 0).take SIZE, by simp⟩ := by
  have hsize : pk.size > 0 := by simpa [IsValid] using h
  have hne : pk.bytes ≠ [] := by
    rw [← List.length_pos_iff, length_bytes]
    exact hsize
  rw [ofVch, if_neg hne, getD_bytes_zero h]
  exact if_pos ⟨by simpa [size] using hsize.ne', (length_bytes pk).symm⟩

theorem size_ofVch_bytes {pk : CPubKey} (h : pk.IsValid) : (ofVch pk.bytes).size = pk.size := by
  have hsize : pk.size > 0 := by simpa [IsValid] using h
  rw [ofVch_bytes_eq h, size, List.getD_eq_getElem?_getD, List.getElem?_take_of_lt (by decide),
    List.getElem?_append_left (by rw [length_bytes]; exact hsize), ← List.getD_eq_getElem?_getD,
    getD_bytes_zero h]
  rfl

/-- A valid key is read back from its bytes. -/
theorem ofVch_bytes {pk : CPubKey} (h : pk.IsValid) :
    (ofVch pk.bytes).bytes = pk.bytes ∧ (ofVch pk.bytes).IsValid := by
  refine ⟨?_, by rw [IsValid, size_ofVch_bytes h]; exact h⟩
  rw [bytes, size_ofVch_bytes h, ofVch_bytes_eq h, List.take_take, Nat.min_eq_left (size_le pk),
    List.take_append_of_le_length (by rw [length_bytes]), ← length_bytes, List.take_length]

end CPubKey

/-! ## `Solver` -/

/-- `txnouttype`. -/
inductive txnouttype where
  | TX_NONSTANDARD
  | TX_PUBKEY
  | TX_PUBKEYHASH
  | TX_SCRIPTHASH
  | TX_MULTISIG
  | TX_NULL_DATA
  | TX_WITNESS_V0_SCRIPTHASH
  | TX_WITNESS_V0_KEYHASH
  | TX_WITNESS_UNKNOWN
deriving DecidableEq, Repr

/-- `CScript::IsPayToScriptHash`: `OP_HASH160 20 [20 bytes] OP_EQUAL`. -/
def IsPayToScriptHash (script : CScript) : Bool :=
  script.length = 23 ∧ (script.getD 0 0).toNat = OP_HASH160 ∧ (script.getD 1 0).toNat = 0x14 ∧
    (script.getD 22 0).toNat = OP_EQUAL

/-- `CScript::DecodeOP_N`; its assertion holds at every call, where the opcode is
`OP_0` or one of `OP_1` to `OP_16`. -/
def DecodeOP_N (opcode : Nat) : Nat := if opcode = OP_0 then 0 else opcode - (OP_1 - 1)

/-- `CScript::IsWitnessProgram`: a version opcode and one direct push of 2 to 40
bytes; the version and the program. -/
def IsWitnessProgram (script : CScript) : Option (Nat × List UInt8) :=
  if script.length < 4 ∨ script.length > 42 then none
  else if (script.getD 0 0).toNat ≠ OP_0 ∧
      ((script.getD 0 0).toNat < OP_1 ∨ (script.getD 0 0).toNat > OP_16) then none
  else if (script.getD 1 0).toNat + 2 = script.length then
    some (DecodeOP_N (script.getD 0 0).toNat, script.drop 2)
  else none

set_option linter.unusedVariables false in
/-- `CScript::IsPushOnly(pc)`: every instruction from `pc` on reads and is a push or a
number opcode. -/
def IsPushOnly (script : CScript) (pc : Nat) : Bool :=
  if pc < script.length then
    match hop : GetScriptOp script pc with
    | none => false
    | some (opcode, _, pc') => if opcode > OP_16 then false else IsPushOnly script pc'
  else true
termination_by script.length - pc
decreasing_by
  have := GetScriptOp_lt hop
  omega

/-- `MatchPayToPubkey`: a push of a full or a compressed key, then `OP_CHECKSIG`. -/
def MatchPayToPubkey (script : CScript) : Option (List UInt8) :=
  if script.length = SIZE + 2 ∧ (script.getD 0 0).toNat = SIZE ∧
      (script.getLast?.getD 0).toNat = OP_CHECKSIG then
    let pubkey := (script.drop 1).take SIZE
    if ValidSize pubkey then some pubkey else none
  else if script.length = COMPRESSED_SIZE + 2 ∧ (script.getD 0 0).toNat = COMPRESSED_SIZE ∧
      (script.getLast?.getD 0).toNat = OP_CHECKSIG then
    let pubkey := (script.drop 1).take COMPRESSED_SIZE
    if ValidSize pubkey then some pubkey else none
  else none

/-- `MatchPayToPubkeyHash`: `OP_DUP OP_HASH160 20 [20 bytes] OP_EQUALVERIFY OP_CHECKSIG`. -/
def MatchPayToPubkeyHash (script : CScript) : Option (List UInt8) :=
  if script.length = 25 ∧ (script.getD 0 0).toNat = OP_DUP ∧ (script.getD 1 0).toNat = OP_HASH160 ∧
      (script.getD 2 0).toNat = 20 ∧ (script.getD 23 0).toNat = OP_EQUALVERIFY ∧
      (script.getD 24 0).toNat = OP_CHECKSIG then
    some ((script.drop 3).take 20)
  else none

/-- `IsSmallInteger`: `OP_1` to `OP_16`. -/
def IsSmallInteger (opcode : Nat) : Bool := opcode ≥ OP_1 ∧ opcode ≤ OP_16

set_option linter.unusedVariables false in
/-- The loop of `MatchMultisig`: while `GetOp` reads a push of a valid key, the key is
kept. The keys, and the opcode and position it stops after; `none` for the stop when
`GetOp` fails, where the opcode is `OP_INVALIDOPCODE`. -/
def multisigKeys (script : CScript) (pc : Nat) : List (List UInt8) × Option (Nat × Nat) :=
  match hop : GetScriptOp script pc with
  | none => ([], none)
  | some (opcode, data, pc') =>
    if ValidSize data then
      let (keys, stop) := multisigKeys script pc'
      (data :: keys, stop)
    else ([], some (opcode, pc'))
termination_by script.length - pc
decreasing_by
  have := GetScriptOp_lt hop
  have := GetScriptOp_le_length hop
  omega

/-- `MatchMultisig`: `OP_m`, the pushes of `n` valid keys, `OP_n` with `m ≤ n`, and
`OP_CHECKMULTISIG` as the last byte; the `required` count and the keys. -/
def MatchMultisig (script : CScript) : Option (Nat × List (List UInt8)) :=
  if script.length < 1 ∨ (script.getLast?.getD 0).toNat ≠ OP_CHECKMULTISIG then none
  else match GetScriptOp script 0 with
    | none => none
    | some (opcode, _, pc) =>
      if !IsSmallInteger opcode then none
      else
        let required := DecodeOP_N opcode
        match multisigKeys script pc with
        | (_, none) => none
        | (pubkeys, some (opcode, pc)) =>
          if !IsSmallInteger opcode then none
          else
            let keys := DecodeOP_N opcode
            if pubkeys.length ≠ keys ∨ keys < required then none
            else if pc + 1 = script.length then some (required, pubkeys) else none

/-- `Solver`: the template of the script and the solutions it carries. -/
def Solver (scriptPubKey : CScript) : txnouttype × List (List UInt8) :=
  -- shortcut for pay-to-script-hash, which is more constrained than the other types
  if IsPayToScriptHash scriptPubKey then (.TX_SCRIPTHASH, [(scriptPubKey.drop 2).take 20])
  else match IsWitnessProgram scriptPubKey with
    | some (witnessversion, witnessprogram) =>
      if witnessversion = 0 ∧ witnessprogram.length = WITNESS_V0_KEYHASH_SIZE then
        (.TX_WITNESS_V0_KEYHASH, [witnessprogram])
      else if witnessversion = 0 ∧ witnessprogram.length = WITNESS_V0_SCRIPTHASH_SIZE then
        (.TX_WITNESS_V0_SCRIPTHASH, [witnessprogram])
      else if witnessversion ≠ 0 then
        (.TX_WITNESS_UNKNOWN, [[UInt8.ofNat witnessversion], witnessprogram])
      else (.TX_NONSTANDARD, [])
    | none =>
      -- provably prunable, data-carrying output
      if scriptPubKey.length ≥ 1 ∧ (scriptPubKey.getD 0 0).toNat = OP_RETURN ∧ IsPushOnly scriptPubKey 1 then
        (.TX_NULL_DATA, [])
      else match MatchPayToPubkey scriptPubKey with
        | some data => (.TX_PUBKEY, [data])
        | none => match MatchPayToPubkeyHash scriptPubKey with
          | some data => (.TX_PUBKEYHASH, [data])
          | none => match MatchMultisig scriptPubKey with
            | some (required, keys) =>
              (.TX_MULTISIG, [[UInt8.ofNat required]] ++ keys ++ [[UInt8.ofNat keys.length]])
            | none => (.TX_NONSTANDARD, [])

/-! ## Destinations -/

/-- `CTxDestination`; a `WitnessUnknown` keeps its `version` and its `length` bytes
of `program`. -/
inductive CTxDestination where
  | CNoDestination
  | PKHash (hash : base_blob 20)
  | ScriptHash (hash : base_blob 20)
  | WitnessV0ScriptHash (hash : base_blob 32)
  | WitnessV0KeyHash (hash : base_blob 20)
  | WitnessUnknown (version : Nat) (program : List UInt8)
deriving DecidableEq, Repr

/-- `IsValidDestination`. -/
def IsValidDestination : CTxDestination → Bool
  | .CNoDestination => false
  | _ => true

section Hashes

variable (Hash160 : List UInt8 → base_blob 20) (SHA256 : List UInt8 → base_blob 32)

/-- `CPubKey::GetID`. -/
def CPubKey.GetID (pk : CPubKey) : base_blob 20 := Hash160 pk.bytes

/-- `ExtractDestination`: the destination of a single-key or script template. -/
def ExtractDestination (scriptPubKey : CScript) : Option CTxDestination :=
  match Solver scriptPubKey with
  | (.TX_PUBKEY, vSolutions) =>
    let pubKey := CPubKey.ofVch (vSolutions.getD 0 [])
    if !pubKey.IsValid then none else some (.PKHash (pubKey.GetID Hash160))
  | (.TX_PUBKEYHASH, vSolutions) => some (.PKHash (base_blob.ofVch 20 (vSolutions.getD 0 [])))
  | (.TX_SCRIPTHASH, vSolutions) => some (.ScriptHash (base_blob.ofVch 20 (vSolutions.getD 0 [])))
  | (.TX_WITNESS_V0_KEYHASH, vSolutions) =>
    some (.WitnessV0KeyHash (base_blob.ofVch 20 (vSolutions.getD 0 [])))
  | (.TX_WITNESS_V0_SCRIPTHASH, vSolutions) =>
    some (.WitnessV0ScriptHash (base_blob.ofVch 32 (vSolutions.getD 0 [])))
  | (.TX_WITNESS_UNKNOWN, vSolutions) =>
    some (.WitnessUnknown ((vSolutions.getD 0 []).getD 0 0).toNat (vSolutions.getD 1 []))
  -- multisig outputs have more than one address
  | _ => none

/-- `ExtractDestinations`: the template, and for a standard one the `PKHash` of each
valid key of a multisig with its `required` count, or the one destination with 1. -/
def ExtractDestinations (scriptPubKey : CScript) : txnouttype × Option (List CTxDestination × Nat) :=
  let (typeRet, vSolutions) := Solver scriptPubKey
  if typeRet = .TX_NONSTANDARD ∨ typeRet = .TX_NULL_DATA then (typeRet, none)
  else if typeRet = .TX_MULTISIG then
    let nRequiredRet := (vSolutions.headD []).getD 0 0
    let addressRet := ((vSolutions.drop 1).take (vSolutions.length - 2)).filterMap fun vch =>
      let pubKey := CPubKey.ofVch vch
      if pubKey.IsValid then some (.PKHash (pubKey.GetID Hash160)) else none
    if addressRet.isEmpty then (typeRet, none) else (typeRet, some (addressRet, nRequiredRet.toNat))
  else match ExtractDestination Hash160 scriptPubKey with
    | some address => (typeRet, some ([address], 1))
    | none => (typeRet, none)

end Hashes

/-- `CScript::EncodeOP_N`; its assertion is the error. -/
def EncodeOP_N (n : Int) : Except String Nat :=
  if n < 0 ∨ n > 16 then .error "assert(n >= 0 && n <= 16)"
  else if n = 0 then .ok OP_0 else .ok (OP_1 + n.toNat - 1)

/-- `GetScriptForDestination`, the `CScriptVisitor` on each kind of destination. -/
def GetScriptForDestination : CTxDestination → Except String CScript
  | .CNoDestination => .ok []
  | .PKHash keyID =>
    .ok ((CScript.pushVch [UInt8.ofNat OP_DUP, UInt8.ofNat OP_HASH160] keyID.data) ++
      [UInt8.ofNat OP_EQUALVERIFY, UInt8.ofNat OP_CHECKSIG])
  | .ScriptHash scriptID => .ok (CScript.pushVch [UInt8.ofNat OP_HASH160] scriptID.data ++ [UInt8.ofNat OP_EQUAL])
  | .WitnessV0KeyHash id => .ok (CScript.pushVch [UInt8.ofNat OP_0] id.data)
  | .WitnessV0ScriptHash id => .ok (CScript.pushVch [UInt8.ofNat OP_0] id.data)
  | .WitnessUnknown version program => do
    let op ← EncodeOP_N version
    .ok (CScript.pushVch [UInt8.ofNat op] program)

/-- `GetScriptForRawPubKey`: the key, then `OP_CHECKSIG`. -/
def GetScriptForRawPubKey (pubKey : CPubKey) : CScript :=
  CScript.pushVch [] pubKey.bytes ++ [UInt8.ofNat OP_CHECKSIG]

/-- `GetScriptForMultisig`: `OP_m`, each key, `OP_n`, `OP_CHECKMULTISIG`. -/
def GetScriptForMultisig (nRequired : Int) (keys : List CPubKey) : Except String CScript := do
  let m ← EncodeOP_N nRequired
  let n ← EncodeOP_N keys.length
  .ok (keys.foldl (fun script key => CScript.pushVch script key.bytes) [UInt8.ofNat m] ++
    [UInt8.ofNat n, UInt8.ofNat OP_CHECKMULTISIG])


/-! ## Reading the templates back -/

theorem pushVch_of_lt (s b : List UInt8) (h : b.length < 76) :
    CScript.pushVch s b = s ++ UInt8.ofNat b.length :: b := by
  rw [CScript.pushVch, pushPrefix, if_pos (by unfold OP_PUSHDATA1; omega), List.append_assoc,
    List.singleton_append]

/-- `Solver` past its pay-to-script-hash and witness shortcuts. -/
theorem Solver_of_not_witness {s : CScript} (h1 : IsPayToScriptHash s = false) (h2 : IsWitnessProgram s = none) :
    Solver s =
      if s.length ≥ 1 ∧ (s.getD 0 0).toNat = OP_RETURN ∧ IsPushOnly s 1 then (.TX_NULL_DATA, [])
      else match MatchPayToPubkey s with
        | some data => (.TX_PUBKEY, [data])
        | none => match MatchPayToPubkeyHash s with
          | some data => (.TX_PUBKEYHASH, [data])
          | none => match MatchMultisig s with
            | some (required, keys) =>
              (.TX_MULTISIG, [[UInt8.ofNat required]] ++ keys ++ [[UInt8.ofNat keys.length]])
            | none => (.TX_NONSTANDARD, []) := by
  rw [Solver, if_neg (by simp [h1]), h2]

/-- `Solver` on a witness program. -/
theorem Solver_of_witness {s : CScript} {v : Nat} {p : List UInt8} (h1 : IsPayToScriptHash s = false)
    (h2 : IsWitnessProgram s = some (v, p)) :
    Solver s =
      if v = 0 ∧ p.length = WITNESS_V0_KEYHASH_SIZE then (.TX_WITNESS_V0_KEYHASH, [p])
      else if v = 0 ∧ p.length = WITNESS_V0_SCRIPTHASH_SIZE then (.TX_WITNESS_V0_SCRIPTHASH, [p])
      else if v ≠ 0 then (.TX_WITNESS_UNKNOWN, [[UInt8.ofNat v], p])
      else (.TX_NONSTANDARD, []) := by
  rw [Solver, if_neg (by simp [h1]), h2]

theorem Solver_PKHash (h : base_blob 20) :
    Solver ([UInt8.ofNat OP_DUP, UInt8.ofNat OP_HASH160, 20] ++ h.data ++
      [UInt8.ofNat OP_EQUALVERIFY, UInt8.ofNat OP_CHECKSIG]) = (.TX_PUBKEYHASH, [h.data]) := by
  have hd := h.length_data
  rw [Solver_of_not_witness (by simp [IsPayToScriptHash, hd])
    (by simp [IsWitnessProgram, hd, OP_0, OP_1, OP_16, OP_DUP])]
  rw [if_neg (by simp [OP_DUP, OP_RETURN]),
    show MatchPayToPubkey _ = none by simp [MatchPayToPubkey, hd, SIZE, COMPRESSED_SIZE]]
  simp [MatchPayToPubkeyHash, hd, List.getD_eq_getElem?_getD, OP_DUP, OP_HASH160, OP_EQUALVERIFY,
    OP_CHECKSIG]

theorem Solver_ScriptHash (h : base_blob 20) :
    Solver ([UInt8.ofNat OP_HASH160, 20] ++ h.data ++ [UInt8.ofNat OP_EQUAL]) = (.TX_SCRIPTHASH, [h.data]) := by
  have hd := h.length_data
  rw [Solver, if_pos (by simp [IsPayToScriptHash, hd, List.getD_eq_getElem?_getD, OP_HASH160, OP_EQUAL])]
  simp [hd]

/-- A version opcode and a direct push of 2 to 40 bytes is a witness program. -/
theorem IsWitnessProgram_push {op : Nat} (p : List UInt8) (hop : op = OP_0 ∨ (OP_1 ≤ op ∧ op ≤ OP_16))
    (hp : 2 ≤ p.length ∧ p.length ≤ 40) :
    IsWitnessProgram (UInt8.ofNat op :: UInt8.ofNat p.length :: p) = some (DecodeOP_N op, p) := by
  have hop' : (UInt8.ofNat op).toNat = op := by
    rw [UInt8.toNat_ofNat']
    unfold OP_0 OP_1 OP_16 at hop
    omega
  have hlen : (UInt8.ofNat p.length).toNat = p.length := by rw [UInt8.toNat_ofNat']; omega
  rw [IsWitnessProgram, if_neg (by simp; omega), List.getD_cons_zero, hop', if_neg (by omega),
    List.getD_cons_succ, List.getD_cons_zero, hlen, if_pos (by simp)]
  rfl

theorem IsPayToScriptHash_push {op : Nat} (rest : List UInt8) (hop : op ≤ OP_16) :
    IsPayToScriptHash (UInt8.ofNat op :: rest) = false := by
  have hop' : (UInt8.ofNat op).toNat = op := by
    rw [UInt8.toNat_ofNat']
    unfold OP_16 at hop
    omega
  simp [IsPayToScriptHash, hop', OP_HASH160]
  unfold OP_16 at hop
  omega

/-! ## Destinations through their templates -/

/-- The destinations that `GetScriptForDestination` writes a template for: all but
`CNoDestination`, a `WitnessUnknown` only with a version of 1 to 16 and a program of 2
to 40 bytes, which is what `DecodeDestination` produces. -/
def HasTemplate : CTxDestination → Bool
  | .CNoDestination => false
  | .WitnessUnknown version program => 1 ≤ version ∧ version ≤ 16 ∧ 2 ≤ program.length ∧ program.length ≤ 40
  | _ => true

theorem EncodeOP_N_of_pos {n : Nat} (h1 : 1 ≤ n) (h16 : n ≤ 16) : EncodeOP_N (n : Int) = .ok (OP_1 + n - 1) := by
  rw [EncodeOP_N, if_neg (by omega), if_neg (by omega)]
  rfl

theorem GetScriptForDestination_WitnessUnknown {v : Nat} {p : List UInt8} (hv : 1 ≤ v ∧ v ≤ 16)
    (hp : 2 ≤ p.length ∧ p.length ≤ 40) :
    GetScriptForDestination (.WitnessUnknown v p) = .ok (UInt8.ofNat (OP_1 + v - 1) :: UInt8.ofNat p.length :: p) := by
  rw [GetScriptForDestination, EncodeOP_N_of_pos hv.1 hv.2]
  show Except.ok (CScript.pushVch _ p) = _
  rw [pushVch_of_lt _ _ (by omega)]
  rfl

section Hashes

variable (Hash160 : List UInt8 → base_blob 20)

/-- Every destination with a template is read back from it. -/
theorem ExtractDestination_GetScriptForDestination (d : CTxDestination) (hd : HasTemplate d = true) :
    ∃ s, GetScriptForDestination d = .ok s ∧ ExtractDestination Hash160 s = some d := by
  cases d with
  | CNoDestination => simp [HasTemplate] at hd
  | PKHash h =>
    refine ⟨_, by rw [GetScriptForDestination, pushVch_of_lt _ _ (by rw [h.length_data]; norm_num),
      h.length_data], ?_⟩
    rw [ExtractDestination, show [UInt8.ofNat OP_DUP, UInt8.ofNat OP_HASH160] ++ UInt8.ofNat 20 :: h.data ++
        [UInt8.ofNat OP_EQUALVERIFY, UInt8.ofNat OP_CHECKSIG] =
        [UInt8.ofNat OP_DUP, UInt8.ofNat OP_HASH160, 20] ++ h.data ++
        [UInt8.ofNat OP_EQUALVERIFY, UInt8.ofNat OP_CHECKSIG] by simp, Solver_PKHash]
    simp [base_blob.ofVch_data]
  | ScriptHash h =>
    refine ⟨_, by rw [GetScriptForDestination, pushVch_of_lt _ _ (by rw [h.length_data]; norm_num),
      h.length_data], ?_⟩
    rw [ExtractDestination, show [UInt8.ofNat OP_HASH160] ++ UInt8.ofNat 20 :: h.data ++ [UInt8.ofNat OP_EQUAL] =
        [UInt8.ofNat OP_HASH160, 20] ++ h.data ++ [UInt8.ofNat OP_EQUAL] by simp, Solver_ScriptHash]
    simp [base_blob.ofVch_data]
  | WitnessV0ScriptHash h =>
    have hd := h.length_data
    refine ⟨_, by rw [GetScriptForDestination, pushVch_of_lt _ _ (by rw [hd]; norm_num)], ?_⟩
    have hw := IsWitnessProgram_push h.data (.inl rfl) (by omega)
    rw [ExtractDestination, List.singleton_append,
      Solver_of_witness (IsPayToScriptHash_push _ (by decide)) hw, DecodeOP_N, if_pos rfl]
    simp [hd, WITNESS_V0_KEYHASH_SIZE, WITNESS_V0_SCRIPTHASH_SIZE, base_blob.ofVch_data]
  | WitnessV0KeyHash h =>
    have hd := h.length_data
    refine ⟨_, by rw [GetScriptForDestination, pushVch_of_lt _ _ (by rw [hd]; norm_num)], ?_⟩
    have hw := IsWitnessProgram_push h.data (.inl rfl) (by omega)
    rw [ExtractDestination, List.singleton_append,
      Solver_of_witness (IsPayToScriptHash_push _ (by decide)) hw, DecodeOP_N, if_pos rfl]
    simp [hd, WITNESS_V0_KEYHASH_SIZE, base_blob.ofVch_data]
  | WitnessUnknown v p =>
    simp only [HasTemplate, decide_eq_true_eq] at hd
    obtain ⟨hv1, hv16, hp⟩ := hd
    refine ⟨_, GetScriptForDestination_WitnessUnknown ⟨hv1, hv16⟩ hp, ?_⟩
    have hop : OP_1 ≤ OP_1 + v - 1 ∧ OP_1 + v - 1 ≤ OP_16 := by unfold OP_1 OP_16; omega
    have hw := IsWitnessProgram_push p (.inr hop) hp
    have hdec : DecodeOP_N (OP_1 + v - 1) = v := by
      rw [DecodeOP_N, if_neg (by unfold OP_0 OP_1; omega)]
      unfold OP_1
      omega
    rw [ExtractDestination, Solver_of_witness (IsPayToScriptHash_push _ hop.2) hw, hdec,
      if_neg (by omega), if_neg (by omega), if_pos (by omega)]
    simp only [List.getD_cons_zero, List.getD_cons_succ, UInt8.toNat_ofNat']
    rw [Nat.mod_eq_of_lt (by omega)]

end Hashes

theorem ExtractDestination_GetScriptForDestination_unknown :
    HasTemplate (.WitnessUnknown 1 [0, 0]) = true ∧
      ∃ s, GetScriptForDestination (.WitnessUnknown 1 [0, 0]) = .ok s ∧
        ExtractDestination (fun _ => ⟨List.replicate 20 0, rfl⟩) s = some (.WitnessUnknown 1 [0, 0]) :=
  ⟨rfl, ExtractDestination_GetScriptForDestination _ _ rfl⟩

/-! ## Scripts through their destinations -/

theorem drop_eq_getD_cons {l : List UInt8} {k : Nat} (h : k < l.length) :
    l.drop k = l.getD k 0 :: l.drop (k + 1) := by
  rw [List.drop_eq_getElem_cons h, List.getD_eq_getElem _ _ h]

theorem eq_ofNat_of_toNat_eq {b : UInt8} {n : Nat} (h : b.toNat = n) : b = UInt8.ofNat n := by
  rw [← h, UInt8.ofNat_toNat]

/-- `EncodeOP_N` undoes `DecodeOP_N` on the number opcodes. -/
theorem encode_DecodeOP_N {op : Nat} (h : op = OP_0 ∨ (OP_1 ≤ op ∧ op ≤ OP_16)) :
    (if DecodeOP_N op = 0 then OP_0 else OP_1 + DecodeOP_N op - 1) = op ∧ DecodeOP_N op ≤ 16 := by
  unfold DecodeOP_N OP_0 OP_1 OP_16 at *
  split_ifs <;> omega

theorem script_of_IsPayToScriptHash {s : CScript} (h : IsPayToScriptHash s = true) :
    s = [UInt8.ofNat OP_HASH160, UInt8.ofNat 20] ++ (s.drop 2).take 20 ++ [UInt8.ofNat OP_EQUAL] := by
  simp only [IsPayToScriptHash, decide_eq_true_eq] at h
  obtain ⟨hlen, h0, h1, h22⟩ := h
  have htail : (s.drop 2).drop 20 = [s.getD 22 0] := by
    rw [List.drop_drop, drop_eq_getD_cons (by omega), List.drop_eq_nil_of_le (by omega)]
  calc s = s.getD 0 0 :: s.getD 1 0 :: s.drop 2 := by
        rw [← drop_eq_getD_cons (by omega), ← drop_eq_getD_cons (by omega), List.drop_zero]
    _ = s.getD 0 0 :: s.getD 1 0 :: ((s.drop 2).take 20 ++ (s.drop 2).drop 20) := by
        rw [List.take_append_drop]
    _ = _ := by
        rw [htail, eq_ofNat_of_toNat_eq h0,
          eq_ofNat_of_toNat_eq h1, eq_ofNat_of_toNat_eq h22]
        simp

theorem script_of_MatchPayToPubkeyHash {s : CScript} {data : List UInt8}
    (h : MatchPayToPubkeyHash s = some data) :
    data.length = 20 ∧ s = [UInt8.ofNat OP_DUP, UInt8.ofNat OP_HASH160, UInt8.ofNat 20] ++ data ++
      [UInt8.ofNat OP_EQUALVERIFY, UInt8.ofNat OP_CHECKSIG] := by
  unfold MatchPayToPubkeyHash at h
  split_ifs at h with hm
  obtain ⟨hlen, h0, h1, h2, h23, h24⟩ := hm
  obtain rfl := Option.some_inj.mp h
  have htail : (s.drop 3).drop 20 = [s.getD 23 0, s.getD 24 0] := by
    rw [List.drop_drop, drop_eq_getD_cons (by omega), drop_eq_getD_cons (by omega),
      List.drop_eq_nil_of_le (by omega)]
  refine ⟨by simp; omega, ?_⟩
  calc s = s.getD 0 0 :: s.getD 1 0 :: s.getD 2 0 :: s.drop 3 := by
        rw [← drop_eq_getD_cons (by omega), ← drop_eq_getD_cons (by omega),
          ← drop_eq_getD_cons (by omega), List.drop_zero]
    _ = s.getD 0 0 :: s.getD 1 0 :: s.getD 2 0 :: ((s.drop 3).take 20 ++ (s.drop 3).drop 20) := by
        rw [List.take_append_drop]
    _ = _ := by
        rw [htail, eq_ofNat_of_toNat_eq h0,
          eq_ofNat_of_toNat_eq h1, eq_ofNat_of_toNat_eq h2, eq_ofNat_of_toNat_eq h23,
          eq_ofNat_of_toNat_eq h24]
        simp

theorem script_of_IsWitnessProgram {s : CScript} {v : Nat} {p : List UInt8}
    (h : IsWitnessProgram s = some (v, p)) :
    s = UInt8.ofNat (if v = 0 then OP_0 else OP_1 + v - 1) :: UInt8.ofNat p.length :: p ∧
      v ≤ 16 ∧ 2 ≤ p.length ∧ p.length ≤ 40 := by
  unfold IsWitnessProgram at h
  split_ifs at h with hl hop hpush
  simp only [Option.some.injEq, Prod.mk.injEq] at h
  obtain ⟨rfl, rfl⟩ := h
  have hop' : (s.getD 0 0).toNat = OP_0 ∨ (OP_1 ≤ (s.getD 0 0).toNat ∧ (s.getD 0 0).toNat ≤ OP_16) := by
    omega
  obtain ⟨henc, hv⟩ := encode_DecodeOP_N hop'
  have hplen : (s.drop 2).length = (s.getD 1 0).toNat := by rw [List.length_drop]; omega
  refine ⟨?_, hv, by omega, by omega⟩
  calc s = s.getD 0 0 :: s.getD 1 0 :: s.drop 2 := by
        rw [← drop_eq_getD_cons (by omega), ← drop_eq_getD_cons (by omega), List.drop_zero]
    _ = _ := by rw [henc, hplen, UInt8.ofNat_toNat, UInt8.ofNat_toNat]

section Hashes

variable (Hash160 : List UInt8 → base_blob 20)

/-- Every script from which `ExtractDestination` reads a destination, a bare key apart,
is the template that `GetScriptForDestination` writes for that destination. -/
theorem GetScriptForDestination_ExtractDestination {s : CScript} {d : CTxDestination}
    (h : ExtractDestination Hash160 s = some d) (hpk : (Solver s).1 ≠ .TX_PUBKEY) :
    GetScriptForDestination d = .ok s := by
  by_cases hsh : IsPayToScriptHash s = true
  · -- the pay-to-script-hash shortcut
    have hS : Solver s = (.TX_SCRIPTHASH, [(s.drop 2).take 20]) := by rw [Solver, if_pos hsh]
    have hlen : ((s.drop 2).take 20).length = 20 := by
      simp only [IsPayToScriptHash, decide_eq_true_eq] at hsh
      simp only [List.length_take, List.length_drop]
      omega
    simp only [ExtractDestination, hS, List.getD_cons_zero, Option.some.injEq] at h
    subst h
    rw [base_blob.ofVch_of_length hlen, GetScriptForDestination, pushVch_of_lt _ _ (by simp [hlen]), hlen]
    conv_rhs => rw [script_of_IsPayToScriptHash hsh]
    simp
  have hsh : IsPayToScriptHash s = false := by simpa using hsh
  cases hw : IsWitnessProgram s with
  | some vp =>
    obtain ⟨v, p⟩ := vp
    obtain ⟨hs, hv, hp⟩ := script_of_IsWitnessProgram hw
    have hS := Solver_of_witness hsh hw
    split_ifs at hS with hkey hscript hunk
    · simp only [ExtractDestination, hS, List.getD_cons_zero, Option.some.injEq] at h
      subst h
      rw [base_blob.ofVch_of_length (show p.length = 20 from hkey.2), GetScriptForDestination,
        pushVch_of_lt _ _ (by simp only; omega)]
      conv_rhs => rw [hs, if_pos hkey.1]
      rfl
    · simp only [ExtractDestination, hS, List.getD_cons_zero, Option.some.injEq] at h
      subst h
      rw [base_blob.ofVch_of_length (show p.length = 32 from hscript.2), GetScriptForDestination,
        pushVch_of_lt _ _ (by simp only; omega)]
      conv_rhs => rw [hs, if_pos hscript.1]
      rfl
    · simp only [ExtractDestination, hS, List.getD_cons_zero, List.getD_cons_succ, Option.some.injEq,
        UInt8.toNat_ofNat', Nat.mod_eq_of_lt (show v < 2 ^ 8 by omega)] at h
      subst h
      rw [GetScriptForDestination_WitnessUnknown ⟨by omega, hv⟩ hp]
      conv_rhs => rw [hs, if_neg hunk]
    · simp [ExtractDestination, hS] at h
  | none =>
    have hS := Solver_of_not_witness hsh hw
    split_ifs at hS with hnull
    · simp [ExtractDestination, hS] at h
    cases hpk' : MatchPayToPubkey s with
    | some data =>
      simp only [hpk'] at hS
      exact absurd (by rw [hS]) hpk
    | none =>
    cases hph : MatchPayToPubkeyHash s with
    | some data =>
      simp only [hpk', hph] at hS
      obtain ⟨hlen, hs⟩ := script_of_MatchPayToPubkeyHash hph
      simp only [ExtractDestination, hS, List.getD_cons_zero, Option.some.injEq] at h
      subst h
      rw [base_blob.ofVch_of_length hlen, GetScriptForDestination, pushVch_of_lt _ _ (by simp [hlen]), hlen, hs]
      simp
    | none =>
    -- a multisig has no single destination, and a nonstandard script none at all
    cases hm : MatchMultisig s <;> simp [hpk', hph, hm] at hS <;> simp [ExtractDestination, hS] at h

end Hashes

theorem GetScriptForDestination_ExtractDestination_PKHash :
    ExtractDestination (fun _ => ⟨List.replicate 20 0, rfl⟩)
        ([UInt8.ofNat OP_DUP, UInt8.ofNat OP_HASH160, 20] ++ List.replicate 20 0 ++
          [UInt8.ofNat OP_EQUALVERIFY, UInt8.ofNat OP_CHECKSIG]) = some (.PKHash ⟨List.replicate 20 0, rfl⟩) ∧
      (Solver ([UInt8.ofNat OP_DUP, UInt8.ofNat OP_HASH160, 20] ++ List.replicate 20 0 ++
        [UInt8.ofNat OP_EQUALVERIFY, UInt8.ofNat OP_CHECKSIG])).1 ≠ .TX_PUBKEY ∧
      GetScriptForDestination (.PKHash ⟨List.replicate 20 0, rfl⟩) =
        .ok ([UInt8.ofNat OP_DUP, UInt8.ofNat OP_HASH160, 20] ++ List.replicate 20 0 ++
          [UInt8.ofNat OP_EQUALVERIFY, UInt8.ofNat OP_CHECKSIG]) := by
  have hS := Solver_PKHash ⟨List.replicate 20 0, rfl⟩
  have hE : ExtractDestination (fun _ => ⟨List.replicate 20 0, rfl⟩)
      ([UInt8.ofNat OP_DUP, UInt8.ofNat OP_HASH160, 20] ++ List.replicate 20 0 ++
        [UInt8.ofNat OP_EQUALVERIFY, UInt8.ofNat OP_CHECKSIG]) = some (.PKHash ⟨List.replicate 20 0, rfl⟩) := by
    simp only [ExtractDestination, hS, List.getD_cons_zero, base_blob.ofVch_of_length (List.length_replicate)]
  have hpk : (Solver ([UInt8.ofNat OP_DUP, UInt8.ofNat OP_HASH160, 20] ++ List.replicate 20 0 ++
      [UInt8.ofNat OP_EQUALVERIFY, UInt8.ofNat OP_CHECKSIG])).1 ≠ .TX_PUBKEY := by
    rw [hS]
    simp
  exact ⟨hE, hpk, GetScriptForDestination_ExtractDestination _ hE hpk⟩

/-! ## Instructions followed by more of the script -/

/-- Reading a length that lies within the script does not look past it. -/
theorem pushSize_append_right {s : CScript} {opcode pc n pc' : Nat} (rest : List UInt8)
    (h : pushSize s opcode pc = some (n, pc')) :
    pushSize (s ++ rest) opcode pc = some (n, pc') := by
  have hread : ∀ k, 0 < k → k ≤ s.length - pc → ReadLE k ((s ++ rest).drop pc) = ReadLE k (s.drop pc) := by
    intro k hk0 hk
    rw [ReadLE, ReadLE, List.drop_append_of_le_length (by omega),
      List.take_append_of_le_length (by rw [List.length_drop]; omega)]
  have hlen : ∀ j, s.length - pc ≥ j → ¬(s ++ rest).length - pc < j := by
    intro j hj
    rw [List.length_append]
    omega
  unfold pushSize at h ⊢
  by_cases h1 : opcode < OP_PUSHDATA1
  · rwa [if_pos h1] at h ⊢
  rw [if_neg h1] at h ⊢
  by_cases h2 : opcode = OP_PUSHDATA1
  · rw [if_pos h2] at h ⊢
    split at h
    · cases h
    rw [if_neg (hlen 1 (by omega)), List.getD_append _ _ _ _ (by omega)]
    exact h
  rw [if_neg h2] at h ⊢
  by_cases h3 : opcode = OP_PUSHDATA2
  · rw [if_pos h3] at h ⊢
    split at h
    · cases h
    rw [if_neg (hlen 2 (by omega)), hread 2 (by omega) (by omega)]
    exact h
  · rw [if_neg h3] at h ⊢
    split at h
    · cases h
    rw [if_neg (hlen 4 (by omega)), hread 4 (by omega) (by omega)]
    exact h

/-- An instruction that `GetScriptOp` reads reads the same whatever follows the script. -/
theorem GetScriptOp_append_right {s : CScript} {pc opcode pc' : Nat} {vch : List UInt8} (rest : List UInt8)
    (h : GetScriptOp s pc = some (opcode, vch, pc')) :
    GetScriptOp (s ++ rest) pc = some (opcode, vch, pc') := by
  unfold GetScriptOp at h ⊢
  split at h
  · cases h
  rename_i hpc
  rw [if_neg (by rw [List.length_append]; omega), List.getD_append _ _ _ _ (by omega)]
  dsimp only at h ⊢
  split at h
  · rename_i hop
    rw [if_pos hop]
    split at h
    · cases h
    rename_i n pc'' hsize
    have hle := pushSize_le_length hsize (by omega)
    rw [pushSize_append_right rest hsize]
    dsimp only
    split at h
    · cases h
    rw [if_neg (by rw [List.length_append]; omega), List.drop_append_of_le_length hle,
      List.take_append_of_le_length (by rw [List.length_drop]; omega)]
    exact h
  · rename_i hop
    rw [if_neg hop]
    exact h

/-- The pushes that `operator<<` appends leave what stands before them. -/
theorem foldl_pushVch_append (pre s : CScript) (keys : List (List UInt8)) :
    keys.foldl CScript.pushVch (pre ++ s) = pre ++ keys.foldl CScript.pushVch s := by
  induction keys generalizing s with
  | nil => rfl
  | cons k ks ih =>
    rw [List.foldl_cons, List.foldl_cons, CScript.pushVch, CScript.pushVch, List.append_assoc,
      List.append_assoc, ih, List.append_assoc]

/-! ## Bare keys and multisig -/

/-- A first byte that is no version opcode makes no witness program. -/
theorem IsWitnessProgram_of_not_version {op : Nat} (rest : List UInt8) (hop : op < 256)
    (h : op ≠ OP_0 ∧ (op < OP_1 ∨ op > OP_16)) :
    IsWitnessProgram (UInt8.ofNat op :: rest) = none := by
  have hop' : (UInt8.ofNat op).toNat = op := by rw [UInt8.toNat_ofNat']; omega
  unfold IsWitnessProgram
  rw [List.getD_cons_zero, hop']
  split_ifs <;> rfl

theorem GetScriptForRawPubKey_eq {pk : CPubKey} (h : pk.IsValid) :
    GetScriptForRawPubKey pk = UInt8.ofNat pk.size :: (pk.bytes ++ [UInt8.ofNat OP_CHECKSIG]) := by
  have hsize := CPubKey.size_of_IsValid h
  have hlt : pk.bytes.length < 76 := by
    rw [CPubKey.length_bytes]
    rcases hsize with h' | h' <;> rw [h'] <;> decide
  rw [GetScriptForRawPubKey, pushVch_of_lt _ _ hlt, CPubKey.length_bytes]
  rfl

/-- The script `GetScriptForRawPubKey` writes for a valid key is a bare-key template
carrying the key. -/
theorem Solver_GetScriptForRawPubKey {pk : CPubKey} (h : pk.IsValid) :
    Solver (GetScriptForRawPubKey pk) = (.TX_PUBKEY, [pk.bytes]) := by
  have hsize := CPubKey.size_of_IsValid h
  have hlen := CPubKey.length_bytes pk
  have hop : (UInt8.ofNat pk.size).toNat = pk.size := by
    rw [UInt8.toNat_ofNat']
    rcases hsize with h' | h' <;> rw [h'] <;> decide
  have hwit : pk.size ≠ OP_0 ∧ (pk.size < OP_1 ∨ pk.size > OP_16) := by
    rcases hsize with h' | h' <;> rw [h'] <;> decide
  have hlast : ((UInt8.ofNat pk.size :: (pk.bytes ++ [UInt8.ofNat OP_CHECKSIG])).getLast?.getD 0).toNat =
      OP_CHECKSIG := by
    rw [← List.cons_append, List.getLast?_append, List.getLast?_singleton]
    rfl
  have hkey : ((UInt8.ofNat pk.size :: (pk.bytes ++ [UInt8.ofNat OP_CHECKSIG])).drop 1).take pk.size = pk.bytes := by
    rw [List.drop_one, List.tail_cons, List.take_append_of_le_length (by omega), ← hlen, List.take_length]
  rw [GetScriptForRawPubKey_eq h, Solver_of_not_witness (IsPayToScriptHash_push _ (by
      rcases hsize with h' | h' <;> rw [h'] <;> decide))
    (IsWitnessProgram_of_not_version _ (by rcases hsize with h' | h' <;> rw [h'] <;> decide) hwit),
    if_neg (by rw [List.getD_cons_zero, hop]; rcases hsize with h' | h' <;> simp [h', OP_RETURN, SIZE, COMPRESSED_SIZE])]
  -- the uncompressed form is tested first, the compressed one second
  rcases hsize with h33 | h65
  · rw [MatchPayToPubkey, if_neg (by simp [hlen, h33, SIZE, COMPRESSED_SIZE]),
      if_pos ⟨by simp [hlen, h33], by rw [List.getD_cons_zero, hop, h33], hlast⟩]
    simp only
    rw [← h33, hkey, if_pos (CPubKey.ValidSize_bytes h)]
  · rw [MatchPayToPubkey, if_pos ⟨by simp [hlen, h65], by rw [List.getD_cons_zero, hop, h65], hlast⟩]
    simp only
    rw [← h65, hkey, if_pos (CPubKey.ValidSize_bytes h)]

theorem multisigKeys_of_GetScriptOp {script : CScript} {pc opcode pc' : Nat} {data : List UInt8}
    (h : GetScriptOp script pc = some (opcode, data, pc')) :
    multisigKeys script pc =
      if ValidSize data then (data :: (multisigKeys script pc').1, (multisigKeys script pc').2)
      else ([], some (opcode, pc')) := by
  rw [multisigKeys]
  split
  · simp_all
  · rename_i opcode' data' pc'' h'
    rw [h, Option.some.injEq, Prod.mk.injEq, Prod.mk.injEq] at h'
    obtain ⟨rfl, rfl, rfl⟩ := h'
    rfl

/-- An opcode past `OP_PUSHDATA4` is read alone. -/
theorem GetScriptOp_of_gt {script : CScript} {pc : Nat} (hpc : pc < script.length)
    (h : (script.getD pc 0).toNat > OP_PUSHDATA4) :
    GetScriptOp script pc = some ((script.getD pc 0).toNat, [], pc + 1) := by
  unfold GetScriptOp
  rw [if_neg (by omega)]
  dsimp only
  rw [if_neg (by omega)]

/-- The loop of `MatchMultisig` over the pushes of valid keys keeps each key and stops at
the instruction after them. -/
theorem multisigKeys_pushes (keys : List CPubKey) (hvalid : ∀ pk ∈ keys, pk.IsValid)
    (pre rest : CScript) {opcode pc : Nat} {data : List UInt8}
    (hrest : GetScriptOp rest 0 = some (opcode, data, pc)) (hstop : ValidSize data = false) :
    multisigKeys ((keys.map CPubKey.bytes).foldl CScript.pushVch pre ++ rest) pre.length =
      (keys.map CPubKey.bytes,
        some (opcode, ((keys.map CPubKey.bytes).foldl CScript.pushVch pre).length + pc)) := by
  -- induction on the keys, the pushes read so far joining the prefix
  induction keys generalizing pre with
  | nil =>
    have hget := GetScriptOp_append pre rest 0
    rw [Nat.add_zero, hrest, Option.map_some] at hget
    rw [List.map_nil, List.foldl_nil, multisigKeys_of_GetScriptOp hget, hstop]
    rfl
  | cons k ks ih =>
    have hk := hvalid k List.mem_cons_self
    have hlt : k.bytes.length < 2 ^ 32 := by
      have := CPubKey.size_le k
      rw [CPubKey.length_bytes]
      unfold SIZE at this
      omega
    have hsplit : (ks.map CPubKey.bytes).foldl CScript.pushVch (CScript.pushVch pre k.bytes) ++ rest =
        CScript.pushVch pre k.bytes ++ ((ks.map CPubKey.bytes).foldl CScript.pushVch [] ++ rest) := by
      rw [← List.append_nil (CScript.pushVch pre k.bytes), foldl_pushVch_append, List.append_nil,
        List.append_assoc]
    have hget := GetScriptOp_append_right ((ks.map CPubKey.bytes).foldl CScript.pushVch [] ++ rest)
      (GetScriptOp_pushVch pre k.bytes hlt)
    rw [List.map_cons, List.foldl_cons, hsplit, multisigKeys_of_GetScriptOp hget,
      if_pos (CPubKey.ValidSize_bytes hk), ← hsplit,
      ih (fun pk hpk => hvalid pk (List.mem_cons_of_mem k hpk)) (CScript.pushVch pre k.bytes)]

/-- `OP_1` to `OP_16` as the opcode `EncodeOP_N` gives for 1 to 16. -/
theorem small_opcode {j : Nat} (h1 : 1 ≤ j) (h16 : j ≤ 16) :
    (UInt8.ofNat (OP_1 + j - 1)).toNat = OP_1 + j - 1 ∧ IsSmallInteger (OP_1 + j - 1) ∧
      DecodeOP_N (OP_1 + j - 1) = j ∧ OP_1 + j - 1 > OP_PUSHDATA4 := by
  unfold OP_1 at *
  refine ⟨by rw [UInt8.toNat_ofNat']; omega, ?_, ?_, ?_⟩
  · simp [IsSmallInteger, OP_1, OP_16]
    omega
  · rw [DecodeOP_N, if_neg (by unfold OP_0; omega), OP_1]
    omega
  · unfold OP_PUSHDATA4
    omega

theorem MatchMultisig_template (keys : List CPubKey) (hvalid : ∀ pk ∈ keys, pk.IsValid) {m : Nat}
    (hm : 1 ≤ m) (hmn : m ≤ keys.length) (hn : keys.length ≤ 16) :
    MatchMultisig ((keys.map CPubKey.bytes).foldl CScript.pushVch [UInt8.ofNat (OP_1 + m - 1)] ++
      [UInt8.ofNat (OP_1 + keys.length - 1), UInt8.ofNat OP_CHECKMULTISIG]) = some (m, keys.map CPubKey.bytes) := by
  obtain ⟨hmop, hmsmall, hmdec, hmgt⟩ := small_opcode hm (by omega)
  obtain ⟨hnop, hnsmall, hndec, hngt⟩ := small_opcode (by omega : 1 ≤ keys.length) hn
  have hbody : (keys.map CPubKey.bytes).foldl CScript.pushVch [UInt8.ofNat (OP_1 + m - 1)] =
      UInt8.ofNat (OP_1 + m - 1) :: (keys.map CPubKey.bytes).foldl CScript.pushVch [] := by
    rw [← List.singleton_append, foldl_pushVch_append, List.singleton_append]
  have hfirst : GetScriptOp ((keys.map CPubKey.bytes).foldl CScript.pushVch [UInt8.ofNat (OP_1 + m - 1)] ++
      [UInt8.ofNat (OP_1 + keys.length - 1), UInt8.ofNat OP_CHECKMULTISIG]) 0 = some (OP_1 + m - 1, [], 1) := by
    rw [hbody, List.cons_append, GetScriptOp_of_gt (by simp) (by rw [List.getD_cons_zero, hmop]; exact hmgt),
      List.getD_cons_zero, hmop]
  have hstop : GetScriptOp [UInt8.ofNat (OP_1 + keys.length - 1), UInt8.ofNat OP_CHECKMULTISIG] 0 =
      some (OP_1 + keys.length - 1, [], 1) := by
    rw [GetScriptOp_of_gt (by simp) (by rw [List.getD_cons_zero, hnop]; exact hngt), List.getD_cons_zero, hnop]
  have hkeys := multisigKeys_pushes keys hvalid [UInt8.ofNat (OP_1 + m - 1)] _ hstop (by simp [ValidSize])
  rw [List.length_singleton] at hkeys
  unfold MatchMultisig
  rw [if_neg (by simp [OP_CHECKMULTISIG]), hfirst]
  dsimp only
  rw [if_neg (by simp [hmsmall]), hkeys]
  dsimp only
  rw [if_neg (by simp [hnsmall]), hmdec, hndec, List.length_map, if_neg (by omega),
    if_pos (by simp)]

theorem IsWitnessProgram_of_push_ne {s : CScript} (h : (s.getD 1 0).toNat + 2 ≠ s.length) :
    IsWitnessProgram s = none := by
  unfold IsWitnessProgram
  split_ifs <;> rfl

theorem MatchPayToPubkey_of_first {s : CScript} (hs : (s.getD 0 0).toNat ≠ SIZE)
    (hc : (s.getD 0 0).toNat ≠ COMPRESSED_SIZE) : MatchPayToPubkey s = none := by
  unfold MatchPayToPubkey
  split_ifs with h1 h2 <;> first | rfl | exact absurd h1.2.1 hs | exact absurd h2.2.1 hc

theorem MatchPayToPubkeyHash_of_first {s : CScript} (h : (s.getD 0 0).toNat ≠ OP_DUP) :
    MatchPayToPubkeyHash s = none := by
  unfold MatchPayToPubkeyHash
  split_ifs with h1
  · exact absurd h1.2.1 h
  · rfl

/-- The multisig template of valid keys is classified as one, with its `required`
count, its keys and their number. -/
theorem Solver_multisig_template (keys : List CPubKey) (hvalid : ∀ pk ∈ keys, pk.IsValid) {m : Nat}
    (hm : 1 ≤ m) (hmn : m ≤ keys.length) (hn : keys.length ≤ 16) :
    Solver ((keys.map CPubKey.bytes).foldl CScript.pushVch [UInt8.ofNat (OP_1 + m - 1)] ++
      [UInt8.ofNat (OP_1 + keys.length - 1), UInt8.ofNat OP_CHECKMULTISIG]) =
      (.TX_MULTISIG, [[UInt8.ofNat m]] ++ keys.map CPubKey.bytes ++ [[UInt8.ofNat keys.length]]) := by
  obtain ⟨hmop, -, -, -⟩ := small_opcode hm (by omega)
  obtain ⟨k, ks, rfl⟩ := List.exists_cons_of_ne_nil (show keys ≠ [] by rintro rfl; simp at hmn; omega)
  have hk := hvalid k List.mem_cons_self
  have hlt : k.bytes.length < 76 := by
    rw [CPubKey.length_bytes]
    rcases CPubKey.size_of_IsValid hk with h | h <;> rw [h] <;> decide
  -- the script opens with `OP_m` and the push of the first key
  have hshape : (List.map CPubKey.bytes (k :: ks)).foldl CScript.pushVch [UInt8.ofNat (OP_1 + m - 1)] ++
      [UInt8.ofNat (OP_1 + (k :: ks).length - 1), UInt8.ofNat OP_CHECKMULTISIG] =
      UInt8.ofNat (OP_1 + m - 1) :: UInt8.ofNat k.bytes.length :: (k.bytes ++
        ((ks.map CPubKey.bytes).foldl CScript.pushVch [] ++
          [UInt8.ofNat (OP_1 + (k :: ks).length - 1), UInt8.ofNat OP_CHECKMULTISIG])) := by
    rw [List.map_cons, List.foldl_cons, ← List.append_nil (CScript.pushVch _ _), foldl_pushVch_append,
      pushVch_of_lt _ _ hlt]
    simp
  have hfirst : (UInt8.ofNat (OP_1 + m - 1)).toNat ≥ OP_1 ∧ (UInt8.ofNat (OP_1 + m - 1)).toNat ≤ OP_16 := by
    rw [hmop]
    unfold OP_1 OP_16
    omega
  have hop : ∀ c, c = OP_RETURN ∨ c = SIZE ∨ c = COMPRESSED_SIZE ∨ c = OP_DUP →
      (UInt8.ofNat (OP_1 + m - 1)).toNat ≠ c := by
    intro c hc
    rw [hmop]
    simp only [OP_1, OP_RETURN, SIZE, COMPRESSED_SIZE, OP_DUP] at hc ⊢
    omega
  have hlen1 : (UInt8.ofNat k.bytes.length).toNat = k.bytes.length := by
    rw [UInt8.toNat_ofNat']
    omega
  rw [Solver_of_not_witness (by rw [hshape]; exact IsPayToScriptHash_push _ (by rw [← hmop]; exact hfirst.2))
    (IsWitnessProgram_of_push_ne (by rw [hshape, List.getD_cons_succ, List.getD_cons_zero, hlen1]; simp)),
    if_neg (by rw [hshape, List.getD_cons_zero]; exact fun h => hop OP_RETURN (.inl rfl) h.2.1),
    MatchPayToPubkey_of_first (by rw [hshape, List.getD_cons_zero]; exact hop SIZE (.inr (.inl rfl)))
      (by rw [hshape, List.getD_cons_zero]; exact hop COMPRESSED_SIZE (.inr (.inr (.inl rfl)))),
    MatchPayToPubkeyHash_of_first (by rw [hshape, List.getD_cons_zero]; exact hop OP_DUP (.inr (.inr (.inr rfl)))),
    MatchMultisig_template _ hvalid hm hmn hn]
  simp only [List.length_map]

section Hashes

variable (Hash160 : List UInt8 → base_blob 20)

theorem GetID_ofVch_bytes {pk : CPubKey} (h : pk.IsValid) :
    (CPubKey.ofVch pk.bytes).GetID Hash160 = pk.GetID Hash160 := by
  rw [CPubKey.GetID, CPubKey.GetID, (CPubKey.ofVch_bytes h).1]

/-- The bare-key template of a valid key is read as one, carrying the key, and its
destination is the hash of the key. -/
theorem GetScriptForRawPubKey_ExtractDestination {pk : CPubKey} (h : pk.IsValid) :
    Solver (GetScriptForRawPubKey pk) = (.TX_PUBKEY, [pk.bytes]) ∧
      ExtractDestination Hash160 (GetScriptForRawPubKey pk) = some (.PKHash (pk.GetID Hash160)) := by
  refine ⟨Solver_GetScriptForRawPubKey h, ?_⟩
  simp only [ExtractDestination, Solver_GetScriptForRawPubKey h, List.getD_cons_zero,
    (CPubKey.ofVch_bytes h).2, GetID_ofVch_bytes Hash160 h]
  rfl

/-- Each valid key of a multisig gives its `PKHash`. -/
theorem filterMap_PKHash (keys : List CPubKey) (hvalid : ∀ pk ∈ keys, pk.IsValid) :
    (keys.map CPubKey.bytes).filterMap (fun vch =>
      if (CPubKey.ofVch vch).IsValid then some (CTxDestination.PKHash ((CPubKey.ofVch vch).GetID Hash160))
      else none) = keys.map fun pk => .PKHash (pk.GetID Hash160) := by
  induction keys with
  | nil => rfl
  | cons k ks ih =>
    have hk := hvalid k List.mem_cons_self
    rw [List.map_cons, List.filterMap_cons, if_pos (CPubKey.ofVch_bytes hk).2, GetID_ofVch_bytes Hash160 hk,
      ih (fun pk hpk => hvalid pk (List.mem_cons_of_mem k hpk)), List.map_cons]

/-- For `m` of `n` valid keys, `1 ≤ m ≤ n ≤ 16`, `GetScriptForMultisig` writes a script
that `Solver` reads as a multisig with the count and the keys, and whose destinations are
the keys' hashes with the count. -/
theorem GetScriptForMultisig_ExtractDestinations {nRequired : Nat} {keys : List CPubKey}
    (hm : 1 ≤ nRequired) (hmn : nRequired ≤ keys.length) (hn : keys.length ≤ 16)
    (hvalid : ∀ pk ∈ keys, pk.IsValid) :
    ∃ s, GetScriptForMultisig nRequired keys = .ok s ∧
      Solver s = (.TX_MULTISIG, [[UInt8.ofNat nRequired]] ++ keys.map CPubKey.bytes ++ [[UInt8.ofNat keys.length]]) ∧
      ExtractDestinations Hash160 s =
        (.TX_MULTISIG, some (keys.map fun pk => .PKHash (pk.GetID Hash160), nRequired)) := by
  have hS := Solver_multisig_template keys hvalid hm hmn hn
  have hne : keys ≠ [] := by
    rintro rfl
    simp at hmn
    omega
  refine ⟨_, ?_, hS, ?_⟩
  · rw [GetScriptForMultisig, EncodeOP_N_of_pos hm (by omega), EncodeOP_N_of_pos (by omega) hn,
      List.foldl_map]
    rfl
  · have hreq : (UInt8.ofNat nRequired).toNat = nRequired := by
      rw [UInt8.toNat_ofNat']
      omega
    simp only [ExtractDestinations, hS]
    rw [if_neg (by simp), if_pos trivial]
    have hsols : (([[UInt8.ofNat nRequired]] ++ keys.map CPubKey.bytes ++ [[UInt8.ofNat keys.length]]).drop 1).take
        (([[UInt8.ofNat nRequired]] ++ keys.map CPubKey.bytes ++ [[UInt8.ofNat keys.length]]).length - 2) =
        keys.map CPubKey.bytes := by
      simp
    rw [hsols, filterMap_PKHash Hash160 keys hvalid, if_neg (by simpa using hne)]
    simp only [List.cons_append, List.headD_cons, List.getD_cons_zero, hreq]

end Hashes

theorem GetScriptForRawPubKey_ExtractDestination_compressed :
    CPubKey.IsValid ⟨2 :: List.replicate 64 0, rfl⟩ = true ∧
      Solver (GetScriptForRawPubKey ⟨2 :: List.replicate 64 0, rfl⟩) =
        (.TX_PUBKEY, [CPubKey.bytes ⟨2 :: List.replicate 64 0, rfl⟩]) ∧
      ExtractDestination (fun _ => ⟨List.replicate 20 0, rfl⟩) (GetScriptForRawPubKey ⟨2 :: List.replicate 64 0, rfl⟩) =
        some (.PKHash (CPubKey.GetID (fun _ => ⟨List.replicate 20 0, rfl⟩) ⟨2 :: List.replicate 64 0, rfl⟩)) :=
  ⟨rfl, GetScriptForRawPubKey_ExtractDestination _ rfl⟩

theorem GetScriptForMultisig_ExtractDestinations_one :
    1 ≤ 1 ∧ 1 ≤ [(⟨2 :: List.replicate 64 0, rfl⟩ : CPubKey)].length ∧
      [(⟨2 :: List.replicate 64 0, rfl⟩ : CPubKey)].length ≤ 16 ∧
      (∀ pk ∈ [(⟨2 :: List.replicate 64 0, rfl⟩ : CPubKey)], pk.IsValid) ∧
      ∃ s, GetScriptForMultisig (1 : Nat) [⟨2 :: List.replicate 64 0, rfl⟩] = .ok s ∧
        Solver s = (.TX_MULTISIG, [[UInt8.ofNat 1]] ++ [CPubKey.bytes ⟨2 :: List.replicate 64 0, rfl⟩] ++
          [[UInt8.ofNat 1]]) ∧
        ExtractDestinations (fun _ => ⟨List.replicate 20 0, rfl⟩) s =
          (.TX_MULTISIG, some ([.PKHash (CPubKey.GetID (fun _ => ⟨List.replicate 20 0, rfl⟩)
            ⟨2 :: List.replicate 64 0, rfl⟩)], 1)) := by
  have hvalid : ∀ pk ∈ [(⟨2 :: List.replicate 64 0, rfl⟩ : CPubKey)], pk.IsValid := by
    intro pk hpk
    rw [List.mem_singleton] at hpk
    subst hpk
    rfl
  exact ⟨le_refl 1, le_refl 1, by decide, hvalid,
    GetScriptForMultisig_ExtractDestinations _ (le_refl 1) (le_refl 1) (by decide) hvalid⟩

end Palladium.Script
