import Palladium.Script.Script
import Palladium.Script.ConditionStack
import Palladium.Lib.ExceptSpec

/-!
# The loop of `EvalScript`

`EvalScript` (`script/interpreter.cpp`) reads one instruction at a time with
`GetScriptOp`, makes the checks that every instruction passes, and then
either pushes the data of a push, runs the opcode, or skips it in a branch
that does not execute. The model keeps the loop, its checks, the pushes,
the number opcodes and the conditionals `OP_IF`, `OP_NOTIF`, `OP_ELSE` and
`OP_ENDIF` as the source has them; the other opcodes of the switch are a
parameter `execOther` on the two stacks.

The condition stack is what `EvalScript` uses of it (`CondStack`), so that
the loop runs on `ConditionStack` and on the vector of booleans it stands
for alike.
-/

namespace Palladium.Script

open ExceptSpec

set_option autoImplicit false

/-- `valtype`: a stack element. -/
abbrev valtype := List UInt8

/-- The `ScriptError` values that the modelled part of `EvalScript` sets. -/
inductive ScriptError where
  | SCRIPT_ERR_UNKNOWN_ERROR
  | SCRIPT_ERR_SCRIPT_SIZE
  | SCRIPT_ERR_PUSH_SIZE
  | SCRIPT_ERR_OP_COUNT
  | SCRIPT_ERR_STACK_SIZE
  | SCRIPT_ERR_BAD_OPCODE
  | SCRIPT_ERR_DISABLED_OPCODE
  | SCRIPT_ERR_OP_CODESEPARATOR
  | SCRIPT_ERR_MINIMALDATA
  | SCRIPT_ERR_MINIMALIF
  | SCRIPT_ERR_UNBALANCED_CONDITIONAL
deriving DecidableEq, Repr

inductive SigVersion where
  | BASE
  | WITNESS_V0
deriving DecidableEq, Repr

def SCRIPT_VERIFY_MINIMALDATA : UInt32 := (1 : UInt32) <<< 6
def SCRIPT_VERIFY_MINIMALIF : UInt32 := (1 : UInt32) <<< 13
def SCRIPT_VERIFY_CONST_SCRIPTCODE : UInt32 := (1 : UInt32) <<< 16

def MAX_SCRIPT_ELEMENT_SIZE : Nat := 520
def MAX_OPS_PER_SCRIPT : Nat := 201
def MAX_SCRIPT_SIZE : Nat := 10000
def MAX_STACK_SIZE : Nat := 1000

def OP_IF : Nat := 0x63
def OP_NOTIF : Nat := 0x64
def OP_ELSE : Nat := 0x67
def OP_ENDIF : Nat := 0x68
def OP_CODESEPARATOR : Nat := 0xab

/-- `OP_CAT`, `OP_SUBSTR`, `OP_LEFT`, `OP_RIGHT`, `OP_INVERT`, `OP_AND`,
`OP_OR`, `OP_XOR`, `OP_2MUL`, `OP_2DIV`, `OP_MUL`, `OP_DIV`, `OP_MOD`,
`OP_LSHIFT` and `OP_RSHIFT`, disabled since CVE-2010-5137. -/
def disabledOpcodes : List Nat :=
  [0x7e, 0x7f, 0x80, 0x81, 0x83, 0x84, 0x85, 0x86, 0x8d, 0x8e, 0x95, 0x96, 0x97, 0x98, 0x99]

/-- `CastToBool`: some byte is not zero, other than a sign bit alone in the
last byte. -/
def CastToBool : valtype → Bool
  | [] => false
  | b :: rest => if b ≠ 0 then !(rest.isEmpty && b == 0x80) else CastToBool rest

/-- What `EvalScript` uses of its condition stack. -/
structure CondStack (σ : Type) where
  init : σ
  empty : σ → Bool
  all_true : σ → Bool
  push_back : σ → Bool → σ
  pop_back : σ → Except String σ
  toggle_top : σ → Except String σ

/-- `ConditionStack`. -/
def ConditionStack.impl : CondStack ConditionStack :=
  ⟨{}, ConditionStack.empty, ConditionStack.all_true, ConditionStack.push_back, ConditionStack.pop_back,
    ConditionStack.toggle_top⟩

/-- The `std::vector<bool>` it stands for. -/
def vectorImpl : CondStack (List Bool) :=
  ⟨[], List.isEmpty, fun v => !v.contains false, fun v f => vectorApply v (.push_back f),
    fun v => if v.isEmpty then .error "pop_back() on an empty vector" else .ok (vectorApply v .pop_back),
    fun v => if v.isEmpty then .error "back() of an empty vector" else .ok (vectorApply v .toggle_top)⟩

/-- The local state of `EvalScript` between instructions. -/
structure EvalState (σ : Type) where
  stack : List valtype
  altstack : List valtype
  vfExec : σ
  nOpCount : Nat

section EvalScript

variable {σ : Type} (cs : CondStack σ)
  (execOther : Nat → List valtype → List valtype → Except ScriptError (List valtype × List valtype))

/-- `OP_IF` and `OP_NOTIF`: in an executed branch the top of the stack is
the condition, checked by `MINIMALIF` in witness scripts and popped. -/
def execIf (flags : UInt32) (sigversion : SigVersion) (fExec : Bool) (opcode : Nat) (st : EvalState σ) :
    Except ScriptError (EvalState σ) :=
  if fExec then
    match st.stack.getLast? with
    | none => .error .SCRIPT_ERR_UNBALANCED_CONDITIONAL
    | some vch =>
      if sigversion = .WITNESS_V0 ∧ flags &&& SCRIPT_VERIFY_MINIMALIF ≠ 0 ∧
          (vch.length > 1 ∨ (vch.length = 1 ∧ vch.getD 0 0 ≠ 1)) then
        .error .SCRIPT_ERR_MINIMALIF
      else
        let fValue := if opcode = OP_NOTIF then !CastToBool vch else CastToBool vch
        .ok { st with stack := st.stack.dropLast, vfExec := cs.push_back st.vfExec fValue }
  else .ok { st with vfExec := cs.push_back st.vfExec false }

/-- The switch of `EvalScript` on an opcode it does not push as data. The
assertions of `toggle_top` and `pop_back` are errors; the emptiness check
before each keeps them from firing. -/
def execSwitch (flags : UInt32) (sigversion : SigVersion) (fExec : Bool) (opcode : Nat) (st : EvalState σ) :
    Except ScriptError (EvalState σ) :=
  if opcode = OP_1NEGATE ∨ (OP_1 ≤ opcode ∧ opcode ≤ OP_16) then
    -- ( -- value)
    .ok { st with stack := st.stack ++ [(CScriptNum.mk ((opcode : Int) - (OP_1 - 1 : Nat))).getvch] }
  else if opcode = OP_IF ∨ opcode = OP_NOTIF then execIf cs flags sigversion fExec opcode st
  else if opcode = OP_ELSE then
    if cs.empty st.vfExec then .error .SCRIPT_ERR_UNBALANCED_CONDITIONAL
    else match cs.toggle_top st.vfExec with
      | .ok vfExec => .ok { st with vfExec }
      | .error _ => .error .SCRIPT_ERR_UNKNOWN_ERROR
  else if opcode = OP_ENDIF then
    if cs.empty st.vfExec then .error .SCRIPT_ERR_UNBALANCED_CONDITIONAL
    else match cs.pop_back st.vfExec with
      | .ok vfExec => .ok { st with vfExec }
      | .error _ => .error .SCRIPT_ERR_UNKNOWN_ERROR
  else
    match execOther opcode st.stack st.altstack with
    | .ok (stack, altstack) => .ok { st with stack, altstack }
    | .error e => .error e

/-- One instruction after it is read: a push in an executed branch, the
switch in an executed branch or on a conditional, nothing otherwise. A push
that `CheckMinimalPush` refuses fails `MINIMALDATA`; its assertion holds
here, as the opcode is at most `OP_PUSHDATA4`. -/
def execOpcode (flags : UInt32) (sigversion : SigVersion) (fExec : Bool) (opcode : Nat) (vchPushValue : valtype)
    (st : EvalState σ) : Except ScriptError (EvalState σ) :=
  let fRequireMinimal := flags &&& SCRIPT_VERIFY_MINIMALDATA ≠ 0
  if fExec = true ∧ opcode ≤ OP_PUSHDATA4 then
    if fRequireMinimal ∧ CheckMinimalPush vchPushValue opcode ≠ .ok true then .error .SCRIPT_ERR_MINIMALDATA
    else .ok { st with stack := st.stack ++ [vchPushValue] }
  else if fExec = true ∨ (OP_IF ≤ opcode ∧ opcode ≤ OP_ENDIF) then
    execSwitch cs execOther flags sigversion fExec opcode st
  else .ok st

/-- The body of the loop of `EvalScript` for an instruction read: the size
of its data, the operation count, the disabled opcodes, `OP_CODESEPARATOR`,
the instruction, and the size of the two stacks. -/
def evalInstruction (flags : UInt32) (sigversion : SigVersion) (opcode : Nat) (vchPushValue : valtype)
    (st : EvalState σ) : Except ScriptError (EvalState σ) :=
  let fExec := cs.all_true st.vfExec
  if vchPushValue.length > MAX_SCRIPT_ELEMENT_SIZE then .error .SCRIPT_ERR_PUSH_SIZE
  -- OP_RESERVED does not count towards the opcode limit
  else if opcode > OP_16 ∧ st.nOpCount + 1 > MAX_OPS_PER_SCRIPT then .error .SCRIPT_ERR_OP_COUNT
  else if opcode ∈ disabledOpcodes then .error .SCRIPT_ERR_DISABLED_OPCODE
  else if opcode = OP_CODESEPARATOR ∧ sigversion = .BASE ∧ flags &&& SCRIPT_VERIFY_CONST_SCRIPTCODE ≠ 0 then
    .error .SCRIPT_ERR_OP_CODESEPARATOR
  else
    let nOpCount := if opcode > OP_16 then st.nOpCount + 1 else st.nOpCount
    match execOpcode cs execOther flags sigversion fExec opcode vchPushValue { st with nOpCount } with
    | .error e => .error e
    | .ok st =>
      if st.stack.length + st.altstack.length > MAX_STACK_SIZE then .error .SCRIPT_ERR_STACK_SIZE
      else .ok st

set_option linter.unusedVariables false in
/-- `while (pc < pend)`: a script that does not read is a bad opcode. -/
def evalLoop (flags : UInt32) (sigversion : SigVersion) (script : CScript) (pc : Nat) (st : EvalState σ) :
    Except ScriptError (EvalState σ) :=
  if pc < script.length then
    match hop : GetScriptOp script pc with
    | none => .error .SCRIPT_ERR_BAD_OPCODE
    | some (opcode, vchPushValue, pc') =>
      match evalInstruction cs execOther flags sigversion opcode vchPushValue st with
      | .error e => .error e
      | .ok st' => evalLoop flags sigversion script pc' st'
  else .ok st
termination_by script.length - pc
decreasing_by
  have := GetScriptOp_lt hop
  omega

/-- `EvalScript`: the stack it leaves, or the error it sets. -/
def EvalScript (stack : List valtype) (script : CScript) (flags : UInt32) (sigversion : SigVersion) :
    Except ScriptError (List valtype) :=
  if script.length > MAX_SCRIPT_SIZE then .error .SCRIPT_ERR_SCRIPT_SIZE
  else
    match evalLoop cs execOther flags sigversion script 0 ⟨stack, [], cs.init, 0⟩ with
    | .error e => .error e
    | .ok st => if !cs.empty st.vfExec then .error .SCRIPT_ERR_UNBALANCED_CONDITIONAL else .ok st.stack

/-! ## The loop, exit by exit -/

theorem evalLoop_of_ge {flags : UInt32} {sigversion : SigVersion} {script : CScript} {pc : Nat}
    (st : EvalState σ) (h : script.length ≤ pc) :
    evalLoop cs execOther flags sigversion script pc st = .ok st := by
  rw [evalLoop, if_neg (by omega)]

theorem evalLoop_of_none {flags : UInt32} {sigversion : SigVersion} {script : CScript} {pc : Nat}
    (st : EvalState σ) (h : pc < script.length) (hop : GetScriptOp script pc = none) :
    evalLoop cs execOther flags sigversion script pc st = .error .SCRIPT_ERR_BAD_OPCODE := by
  rw [evalLoop, if_pos h]
  split
  · rfl
  · rename_i heq
    rw [hop] at heq
    cases heq

theorem evalLoop_of_some {flags : UInt32} {sigversion : SigVersion} {script : CScript} {pc pc' opcode : Nat}
    {vchPushValue : valtype} (st : EvalState σ) (h : pc < script.length)
    (hop : GetScriptOp script pc = some (opcode, vchPushValue, pc')) :
    evalLoop cs execOther flags sigversion script pc st =
      match evalInstruction cs execOther flags sigversion opcode vchPushValue st with
      | .error e => .error e
      | .ok st' => evalLoop cs execOther flags sigversion script pc' st' := by
  rw [evalLoop, if_pos h]
  split
  · rename_i heq
    rw [hop] at heq
    cases heq
  · rename_i heq
    rw [hop] at heq
    cases heq
    rfl

/-- The loop rule: an invariant of the position and the state that every
instruction read keeps holds where the loop ends, at or past the end of the
script. The induction follows the recursion of `evalLoop`. -/
theorem evalLoop_invariant {flags : UInt32} {sigversion : SigVersion} {script : CScript}
    (I : Nat → EvalState σ → Prop)
    (hstep : ∀ pc st opcode vch pc' st', I pc st → GetScriptOp script pc = some (opcode, vch, pc') →
      evalInstruction cs execOther flags sigversion opcode vch st = .ok st' → I pc' st')
    (pc : Nat) (st st' : EvalState σ) (hI : I pc st)
    (hrun : evalLoop cs execOther flags sigversion script pc st = .ok st') :
    ∃ pc', script.length ≤ pc' ∧ I pc' st' := by
  by_cases hpc : pc < script.length
  · cases hop : GetScriptOp script pc with
    | none =>
      rw [evalLoop_of_none cs execOther st hpc hop] at hrun
      cases hrun
    | some r =>
      obtain ⟨opcode, vch, pc'⟩ := r
      rw [evalLoop_of_some cs execOther st hpc hop] at hrun
      cases hins : evalInstruction cs execOther flags sigversion opcode vch st with
      | error e =>
        rw [hins] at hrun
        cases hrun
      | ok st₁ =>
        rw [hins] at hrun
        exact evalLoop_invariant I hstep pc' st₁ st' (hstep pc st opcode vch pc' st₁ hI hop hins) hrun
  · rw [evalLoop_of_ge cs execOther st (by omega)] at hrun
    cases hrun
    exact ⟨pc, by omega, hI⟩
termination_by script.length - pc
decreasing_by
  have := GetScriptOp_lt hop
  omega

/-! ## Each instruction opens at most one conditional -/

section Growth

variable (μ : σ → Nat) (hpush : ∀ s f, μ (cs.push_back s f) ≤ μ s + 1)
  (hpop : ∀ s s', cs.pop_back s = .ok s' → μ s' ≤ μ s + 1)
  (htoggle : ∀ s s', cs.toggle_top s = .ok s' → μ s' ≤ μ s + 1)

include hpush in
theorem execIf_grows (flags : UInt32) (sigversion : SigVersion) (fExec : Bool) (opcode : Nat)
    (st : EvalState σ) :
    Ends (fun _ => True) (fun st' => μ st'.vfExec ≤ μ st.vfExec + 1) (execIf cs flags sigversion fExec opcode st) := by
  unfold execIf
  split
  · split
    · trivial
    · split
      · trivial
      · exact hpush _ _
  · exact hpush _ _

include hpush hpop htoggle in
theorem execSwitch_grows (flags : UInt32) (sigversion : SigVersion) (fExec : Bool) (opcode : Nat)
    (st : EvalState σ) :
    Ends (fun _ => True) (fun st' => μ st'.vfExec ≤ μ st.vfExec + 1)
      (execSwitch cs execOther flags sigversion fExec opcode st) := by
  unfold execSwitch
  split
  · exact Nat.le_succ _
  split
  · exact execIf_grows cs μ hpush flags sigversion fExec opcode st
  split
  · -- `OP_ELSE`
    split
    · trivial
    · split
      · exact htoggle _ _ ‹_›
      · trivial
  split
  · -- `OP_ENDIF`
    split
    · trivial
    · split
      · exact hpop _ _ ‹_›
      · trivial
  · split
    · exact Nat.le_succ _
    · trivial

include hpush hpop htoggle in
theorem execOpcode_grows (flags : UInt32) (sigversion : SigVersion) (fExec : Bool) (opcode : Nat) (vch : valtype)
    (st : EvalState σ) :
    Ends (fun _ => True) (fun st' => μ st'.vfExec ≤ μ st.vfExec + 1)
      (execOpcode cs execOther flags sigversion fExec opcode vch st) := by
  unfold execOpcode
  dsimp only
  split
  · split
    · trivial
    · exact Nat.le_succ _
  split
  · exact execSwitch_grows cs execOther μ hpush hpop htoggle flags sigversion fExec opcode st
  · exact Nat.le_succ _

include hpush hpop htoggle in
theorem evalInstruction_grows (flags : UInt32) (sigversion : SigVersion) (opcode : Nat) (vch : valtype)
    (st : EvalState σ) :
    Ends (fun _ => True) (fun st' => μ st'.vfExec ≤ μ st.vfExec + 1)
      (evalInstruction cs execOther flags sigversion opcode vch st) := by
  unfold evalInstruction
  split
  · trivial
  split
  · trivial
  split
  · trivial
  split
  · trivial
  dsimp only
  -- the instruction, then the check of the stack sizes
  have hop := execOpcode_grows cs execOther μ hpush hpop htoggle flags sigversion (cs.all_true st.vfExec) opcode vch
    { st with nOpCount := if opcode > OP_16 then st.nOpCount + 1 else st.nOpCount }
  cases hr : execOpcode cs execOther flags sigversion (cs.all_true st.vfExec) opcode vch
    { st with nOpCount := if opcode > OP_16 then st.nOpCount + 1 else st.nOpCount } with
  | error e => trivial
  | ok st₁ =>
    rw [hr] at hop
    dsimp only
    split
    · trivial
    · exact hop

end Growth

/-! ## The instructions that push -/

/-- A push in an executed branch, within the size limits, that the
`MINIMALDATA` check accepts whenever the flag is set, leaves its data on
the stack. -/
theorem evalInstruction_push (flags : UInt32) (sigversion : SigVersion) {opcode : Nat} {vch : valtype}
    (st : EvalState σ) (hexec : cs.all_true st.vfExec = true) (hop : opcode ≤ OP_PUSHDATA4)
    (hsize : vch.length ≤ MAX_SCRIPT_ELEMENT_SIZE)
    (hmin : flags &&& SCRIPT_VERIFY_MINIMALDATA ≠ 0 → CheckMinimalPush vch opcode = .ok true)
    (hstack : st.stack.length + 1 + st.altstack.length ≤ MAX_STACK_SIZE) :
    evalInstruction cs execOther flags sigversion opcode vch st = .ok { st with stack := st.stack ++ [vch] } := by
  have hop' : opcode ≤ 0x4e := hop
  have hnot16 : ¬opcode > OP_16 := by unfold OP_16; omega
  have hdis : opcode ∉ disabledOpcodes := by simp only [disabledOpcodes, List.mem_cons, List.not_mem_nil, or_false]; omega
  have hsep : ¬(opcode = OP_CODESEPARATOR ∧ sigversion = .BASE ∧ flags &&& SCRIPT_VERIFY_CONST_SCRIPTCODE ≠ 0) :=
    fun h => by unfold OP_CODESEPARATOR at h; omega
  have hminimal : ¬((flags &&& SCRIPT_VERIFY_MINIMALDATA ≠ 0) ∧ CheckMinimalPush vch opcode ≠ .ok true) :=
    fun h => h.2 (hmin h.1)
  unfold evalInstruction execOpcode
  rw [if_neg (by omega), if_neg (fun h => hnot16 h.1), if_neg hdis, if_neg hsep]
  simp only [hnot16, if_false, hexec, true_and, if_pos hop, if_neg hminimal, List.length_append,
    List.length_singleton]
  rw [if_neg (by omega)]

/-- `OP_1NEGATE` and `OP_1` to `OP_16` in an executed branch push the
number they stand for. -/
theorem evalInstruction_smallNum (flags : UInt32) (sigversion : SigVersion) {opcode : Nat} (st : EvalState σ)
    (hexec : cs.all_true st.vfExec = true) (hop : opcode = OP_1NEGATE ∨ (OP_1 ≤ opcode ∧ opcode ≤ OP_16))
    (hstack : st.stack.length + 1 + st.altstack.length ≤ MAX_STACK_SIZE) :
    evalInstruction cs execOther flags sigversion opcode [] st =
      .ok { st with stack := st.stack ++ [serialize ((opcode : Int) - 0x50)] } := by
  have hop' : opcode = 0x4f ∨ (0x51 ≤ opcode ∧ opcode ≤ 0x60) := hop
  have hnot16 : ¬opcode > OP_16 := by unfold OP_16; omega
  have hdis : opcode ∉ disabledOpcodes := by simp only [disabledOpcodes, List.mem_cons, List.not_mem_nil, or_false]; omega
  have hsep : ¬(opcode = OP_CODESEPARATOR ∧ sigversion = .BASE ∧ flags &&& SCRIPT_VERIFY_CONST_SCRIPTCODE ≠ 0) :=
    fun h => by unfold OP_CODESEPARATOR at h; omega
  have hdata : ¬opcode ≤ OP_PUSHDATA4 := by unfold OP_PUSHDATA4; omega
  unfold evalInstruction execOpcode execSwitch
  rw [if_neg (by simp), if_neg (fun h => hnot16 h.1), if_neg hdis, if_neg hsep]
  simp only [hnot16, if_false, hexec, true_and, if_neg hdata, true_or, if_true, if_pos hop,
    List.length_append, List.length_singleton]
  rw [if_neg (by omega)]
  rfl

/-! ## `CScript() << n` executes to `serialize n` -/

/-- A script of one instruction: `EvalScript` gives the stack of that
instruction, when it leaves no conditional open. -/
theorem EvalScript_single {flags : UInt32} {sigversion : SigVersion} {script : CScript} {stack : List valtype}
    {opcode : Nat} {vch : valtype} {st : EvalState σ} (hlen : script.length ≤ MAX_SCRIPT_SIZE)
    (hpos : 0 < script.length) (hop : GetScriptOp script 0 = some (opcode, vch, script.length))
    (hins : evalInstruction cs execOther flags sigversion opcode vch ⟨stack, [], cs.init, 0⟩ = .ok st)
    (hempty : cs.empty st.vfExec = true) :
    EvalScript cs execOther stack script flags sigversion = .ok st.stack := by
  rw [EvalScript, if_neg (by omega), evalLoop_of_some cs execOther _ hpos hop, hins]
  dsimp only
  rw [evalLoop_of_ge cs execOther st (le_refl _)]
  dsimp only
  rw [hempty]
  rfl

/-- The data that `serialize` writes for a number that `push_int64` does
not write as an opcode is never what a number opcode would push. -/
theorem serialize_not_small {n : Int} (h : ¬(n = -1 ∨ (n ≥ 1 ∧ n ≤ 16))) :
    ¬((serialize n).length = 1 ∧ (1 ≤ (serialize n).getD 0 0 ∧ (serialize n).getD 0 0 ≤ 16 ∨
      (serialize n).getD 0 0 = 0x81)) := by
  rintro ⟨hl, hb⟩
  obtain ⟨b, hone⟩ := List.length_eq_one_iff.mp hl
  -- `set_vch` reads `n` back from the one byte
  have hv := set_vch_serialize n
  rw [hone, ← List.nil_append [b], set_vch_append_singleton] at hv
  rw [hone, List.getD_cons_zero] at hb
  rcases hb with ⟨h1, h16⟩ | h81
  · have hb1 : 1 ≤ b.toNat := UInt8.le_iff_toNat_le.mp h1
    have hb16 : b.toNat ≤ 16 := UInt8.le_iff_toNat_le.mp h16
    rw [if_neg (by omega)] at hv
    simp only [leValue_nil, List.length_nil, pow_zero, Nat.mul_one, Nat.zero_add] at hv
    omega
  · subst h81
    rw [if_pos (by decide)] at hv
    simp only [leValue_nil, List.length_nil, pow_zero, Nat.mul_one, Nat.zero_add] at hv
    exact h (.inl (by rw [← hv]; rfl))

theorem serialize_zero : serialize 0 = [] := rfl

/-- A one-byte script of an opcode that is not a push. -/
theorem GetScriptOp_single (b : UInt8) (h : ¬b.toNat ≤ OP_PUSHDATA4) : GetScriptOp [b] 0 = some (b.toNat, [], 1) := by
  unfold GetScriptOp
  rw [if_neg (by simp)]
  simp only [List.getD_cons_zero]
  rw [if_neg h]

/-- The number pushed by the opcode that `push_int64` writes for `n`. -/
theorem smallNum_opcode {n : Int} (h : n = -1 ∨ (n ≥ 1 ∧ n ≤ 16)) :
    let opcode := (UInt8.ofNat (n + (OP_1 - 1 : Nat)).toNat).toNat
    (opcode = OP_1NEGATE ∨ (OP_1 ≤ opcode ∧ opcode ≤ OP_16)) ∧ ((opcode : Int) - 0x50) = n := by
  have hrange : (n + (OP_1 - 1 : Nat)).toNat < 256 := by unfold OP_1; omega
  simp only [UInt8.toNat_ofNat', Nat.mod_eq_of_lt hrange]
  unfold OP_1NEGATE OP_1 OP_16
  omega

end EvalScript

/-- `CScript() << n`, for every `int64_t` other than `INT64_MIN` and under
any flags, `MINIMALDATA` among them, executes to a push of
`CScriptNum::serialize(n)`. -/
theorem push_int64_executes_serialize (n : Int) (hlo : -2 ^ 63 < n) (hhi : n < 2 ^ 63) (stack : List valtype)
    (hstack : stack.length < MAX_STACK_SIZE) (flags : UInt32) (sigversion : SigVersion)
    (execOther : Nat → List valtype → List valtype → Except ScriptError (List valtype × List valtype)) :
    EvalScript ConditionStack.impl execOther stack (CScript.push_int64 [] n) flags sigversion =
      .ok (stack ++ [serialize n]) := by
  have hinit : ConditionStack.impl.all_true ConditionStack.impl.init = true := rfl
  have hempty : ConditionStack.impl.empty ConditionStack.impl.init = true := rfl
  have hst : stack.length + 1 + ([] : List valtype).length ≤ MAX_STACK_SIZE := by
    rw [List.length_nil]; omega
  unfold CScript.push_int64
  by_cases hsmall : n = -1 ∨ (n ≥ 1 ∧ n ≤ 16)
  · -- `OP_1NEGATE`, `OP_1` .. `OP_16`
    obtain ⟨hop, hval⟩ := smallNum_opcode hsmall
    rw [if_pos hsmall, List.nil_append]
    have hread := GetScriptOp_single (UInt8.ofNat (n + (OP_1 - 1 : Nat)).toNat) (by
      unfold OP_1NEGATE OP_1 OP_16 at hop; unfold OP_PUSHDATA4; omega)
    have hins := evalInstruction_smallNum ConditionStack.impl execOther flags sigversion ⟨stack, [], ConditionStack.impl.init, 0⟩ hinit hop hst
    rw [hval] at hins
    exact EvalScript_single ConditionStack.impl execOther (by simp [MAX_SCRIPT_SIZE]) (by simp) hread hins hempty
  rw [if_neg hsmall]
  by_cases hzero : n = 0
  · -- `OP_0`, the empty push
    subst hzero
    rw [if_pos rfl, List.nil_append, serialize_zero]
    have hread : GetScriptOp [UInt8.ofNat OP_0] 0 = some (OP_0, [], 1) := by decide
    have hins := evalInstruction_push ConditionStack.impl execOther flags sigversion
      ⟨stack, [], ConditionStack.impl.init, 0⟩ hinit (show OP_0 ≤ OP_PUSHDATA4 by decide)
      (show ([] : valtype).length ≤ MAX_SCRIPT_ELEMENT_SIZE by decide) (fun _ => by decide) hst
    exact EvalScript_single ConditionStack.impl execOther (by decide) (by decide) hread hins hempty
  -- the serialized number as data, at most nine bytes
  rw [if_neg hzero]
  have hlen : (serialize n).length ≤ 9 :=
    (length_serialize_le n).trans (Nat.succ_le_succ (length_magnitudeBytes_le (k := 8) (by omega)))
  have hread := GetScriptOp_pushVch [] (serialize n) (by omega)
  have hpos : 0 < (CScript.pushVch [] (serialize n)).length := by
    have := GetScriptOp_lt hread
    omega
  have hmin : CheckMinimalPush (serialize n) (pushOpcode (serialize n)) = .ok true := by
    rw [CheckMinimalPush_pushOpcode, decide_eq_true (serialize_not_small hsmall)]
  have hins := evalInstruction_push ConditionStack.impl execOther flags sigversion ⟨stack, [], ConditionStack.impl.init, 0⟩ hinit (pushOpcode_le _)
    (by unfold MAX_SCRIPT_ELEMENT_SIZE; omega) (fun _ => hmin) hst
  refine EvalScript_single ConditionStack.impl execOther ?_ hpos hread hins hempty
  simp only [CScript.pushVch, List.length_append, List.length_nil]
  have : (pushPrefix (serialize n)).length = 1 := by
    unfold pushPrefix
    rw [if_pos (by unfold OP_PUSHDATA1; omega)]
    rfl
  unfold MAX_SCRIPT_SIZE
  omega

/-- The state with its condition stack in another form. -/
def EvalState.map {σ τ : Type} (f : σ → τ) (st : EvalState σ) : EvalState τ :=
  ⟨st.stack, st.altstack, f st.vfExec, st.nOpCount⟩

section Map

variable {σ τ : Type} (f : σ → τ) (st : EvalState σ)

@[simp] theorem EvalState.map_stack : (st.map f).stack = st.stack := rfl
@[simp] theorem EvalState.map_altstack : (st.map f).altstack = st.altstack := rfl
@[simp] theorem EvalState.map_vfExec : (st.map f).vfExec = f st.vfExec := rfl
@[simp] theorem EvalState.map_nOpCount : (st.map f).nOpCount = st.nOpCount := rfl

end Map

section Stored

open ConditionStack (ofVector)

variable (execOther : Nat → List valtype → List valtype → Except ScriptError (List valtype × List valtype))

@[simp] theorem impl_push_back (c : ConditionStack) (f : Bool) : ConditionStack.impl.push_back c f = c.push_back f :=
  rfl
@[simp] theorem impl_pop_back (c : ConditionStack) : ConditionStack.impl.pop_back c = c.pop_back := rfl
@[simp] theorem impl_toggle_top (c : ConditionStack) : ConditionStack.impl.toggle_top c = c.toggle_top := rfl
@[simp] theorem impl_empty (c : ConditionStack) : ConditionStack.impl.empty c = c.empty := rfl
@[simp] theorem impl_all_true (c : ConditionStack) : ConditionStack.impl.all_true c = c.all_true := rfl
@[simp] theorem vectorImpl_push_back (v : List Bool) (f : Bool) : vectorImpl.push_back v f = v ++ [f] := rfl
@[simp] theorem vectorImpl_empty (v : List Bool) : vectorImpl.empty v = v.isEmpty := rfl
@[simp] theorem vectorImpl_all_true (v : List Bool) : vectorImpl.all_true v = !v.contains false := rfl

theorem execIf_ofVector (flags : UInt32) (sigversion : SigVersion) (fExec : Bool) (opcode : Nat)
    (st : EvalState (List Bool)) (hv : st.vfExec.length < 2 ^ 32 - 1) :
    execIf ConditionStack.impl flags sigversion fExec opcode (st.map ofVector) =
      EvalState.map ofVector <$> execIf vectorImpl flags sigversion fExec opcode st := by
  unfold execIf
  simp only [EvalState.map]
  split
  · cases st.stack.getLast? with
    | none => rfl
    | some vch =>
      dsimp only
      split
      · rfl
      · simp only [impl_push_back, vectorImpl_push_back, ofVector_push_back hv, map_ok, EvalState.map]
  · simp only [impl_push_back, vectorImpl_push_back, ofVector_push_back hv, map_ok, EvalState.map]

theorem vectorImpl_pop_back {v : List Bool} (hne : v.isEmpty = false) : vectorImpl.pop_back v = .ok v.dropLast := by
  simp only [vectorImpl, hne]
  rfl

theorem vectorImpl_toggle_top {v : List Bool} (hne : v.isEmpty = false) :
    vectorImpl.toggle_top v = .ok (v.modifyLast not) := by
  simp only [vectorImpl, hne]
  rfl

theorem execSwitch_ofVector (flags : UInt32) (sigversion : SigVersion) (fExec : Bool) (opcode : Nat)
    (st : EvalState (List Bool)) (hv : st.vfExec.length < 2 ^ 32 - 1) :
    execSwitch ConditionStack.impl execOther flags sigversion fExec opcode (st.map ofVector) =
      EvalState.map ofVector <$> execSwitch vectorImpl execOther flags sigversion fExec opcode st := by
  have hempty := (ofVector_observe (v := st.vfExec) (by omega)).1
  unfold execSwitch
  split
  · rfl
  split
  · exact execIf_ofVector flags sigversion fExec opcode st hv
  -- `OP_ELSE` and `OP_ENDIF` check for an open conditional alike, and then
  -- toggle or pop it alike
  split
  · simp only [EvalState.map, impl_empty, hempty, vectorImpl_empty]
    by_cases hne : st.vfExec.isEmpty
    · simp only [hne, if_true]
      rfl
    · rw [Bool.not_eq_true] at hne
      simp only [hne, Bool.false_eq_true, if_false, impl_toggle_top,
        ofVector_toggle_top (List.isEmpty_eq_false_iff.mp hne) (by omega), vectorImpl_toggle_top hne]
      rfl
  split
  · simp only [EvalState.map, impl_empty, hempty, vectorImpl_empty]
    by_cases hne : st.vfExec.isEmpty
    · simp only [hne, if_true]
      rfl
    · rw [Bool.not_eq_true] at hne
      simp only [hne, Bool.false_eq_true, if_false, impl_pop_back,
        ofVector_pop_back (List.isEmpty_eq_false_iff.mp hne) (by omega), vectorImpl_pop_back hne]
      rfl
  · simp only [EvalState.map]
    rcases execOther opcode st.stack st.altstack with e | ⟨stack, altstack⟩
    · rfl
    · rfl

theorem execOpcode_ofVector (flags : UInt32) (sigversion : SigVersion) (fExec : Bool) (opcode : Nat) (vch : valtype)
    (st : EvalState (List Bool)) (hv : st.vfExec.length < 2 ^ 32 - 1) :
    execOpcode ConditionStack.impl execOther flags sigversion fExec opcode vch (st.map ofVector) =
      EvalState.map ofVector <$> execOpcode vectorImpl execOther flags sigversion fExec opcode vch st := by
  unfold execOpcode
  dsimp only
  split
  · split
    · rfl
    · rfl
  split
  · exact execSwitch_ofVector execOther flags sigversion fExec opcode st hv
  · rfl

theorem evalInstruction_ofVector (flags : UInt32) (sigversion : SigVersion) (opcode : Nat) (vch : valtype)
    (st : EvalState (List Bool)) (hv : st.vfExec.length < 2 ^ 32 - 1) :
    evalInstruction ConditionStack.impl execOther flags sigversion opcode vch (st.map ofVector) =
      EvalState.map ofVector <$> evalInstruction vectorImpl execOther flags sigversion opcode vch st := by
  have hexec : ConditionStack.impl.all_true (st.map ofVector).vfExec = vectorImpl.all_true st.vfExec :=
    (ofVector_observe (v := st.vfExec) (by omega)).2
  unfold evalInstruction
  rw [hexec]
  -- the checks before the instruction read the stacks and the count, which
  -- agree; the count is read through the stored state on the left
  by_cases h₁ : vch.length > MAX_SCRIPT_ELEMENT_SIZE
  · simp only [if_pos h₁]
    rfl
  simp only [if_neg h₁]
  by_cases h₂ : opcode > OP_16 ∧ st.nOpCount + 1 > MAX_OPS_PER_SCRIPT
  · rw [if_pos (show opcode > OP_16 ∧ (st.map ofVector).nOpCount + 1 > MAX_OPS_PER_SCRIPT from h₂), if_pos h₂]
    rfl
  rw [if_neg (show ¬(opcode > OP_16 ∧ (st.map ofVector).nOpCount + 1 > MAX_OPS_PER_SCRIPT) from h₂), if_neg h₂]
  by_cases h₃ : opcode ∈ disabledOpcodes
  · simp only [if_pos h₃]
    rfl
  simp only [if_neg h₃]
  by_cases h₄ : opcode = OP_CODESEPARATOR ∧ sigversion = .BASE ∧ flags &&& SCRIPT_VERIFY_CONST_SCRIPTCODE ≠ 0
  · simp only [if_pos h₄]
    rfl
  simp only [if_neg h₄, EvalState.map_stack, EvalState.map_altstack, EvalState.map_nOpCount, EvalState.map_vfExec]
  generalize (if opcode > OP_16 then st.nOpCount + 1 else st.nOpCount) = nOpCount
  rw [show (⟨st.stack, st.altstack, ofVector st.vfExec, nOpCount⟩ : EvalState ConditionStack) =
    EvalState.map ofVector ⟨st.stack, st.altstack, st.vfExec, nOpCount⟩ from rfl,
    execOpcode_ofVector execOther flags sigversion _ opcode vch ⟨st.stack, st.altstack, st.vfExec, nOpCount⟩ hv]
  -- the check of the stack sizes after it
  cases execOpcode vectorImpl execOther flags sigversion (vectorImpl.all_true st.vfExec) opcode vch
    ⟨st.stack, st.altstack, st.vfExec, nOpCount⟩ with
  | error e => rfl
  | ok st₁ =>
    simp only [map_ok]
    by_cases h₅ : st₁.stack.length + st₁.altstack.length > MAX_STACK_SIZE
    · rw [if_pos (show (st₁.map ofVector).stack.length + (st₁.map ofVector).altstack.length > MAX_STACK_SIZE
        from h₅), if_pos h₅]
      rfl
    · rw [if_neg (show ¬(st₁.map ofVector).stack.length + (st₁.map ofVector).altstack.length > MAX_STACK_SIZE
        from h₅), if_neg h₅]
      rfl

/-- Each instruction adds at most one element to the vector. -/
theorem evalInstruction_vector_grows (flags : UInt32) (sigversion : SigVersion) (opcode : Nat) (vch : valtype)
    (st : EvalState (List Bool)) :
    Ends (fun _ => True) (fun st' => st'.vfExec.length ≤ st.vfExec.length + 1)
      (evalInstruction vectorImpl execOther flags sigversion opcode vch st) := by
  refine evalInstruction_grows vectorImpl execOther List.length ?_ ?_ ?_ flags sigversion opcode vch st
  · intro v f
    rw [vectorImpl_push_back, List.length_append, List.length_singleton]
  · intro v v' h
    by_cases hne : v.isEmpty
    · simp only [vectorImpl, hne, if_true] at h
      cases h
    · rw [Bool.not_eq_true] at hne
      rw [vectorImpl_pop_back hne] at h
      cases h
      rw [List.length_dropLast]
      omega
  · intro v v' h
    by_cases hne : v.isEmpty
    · simp only [vectorImpl, hne, if_true] at h
      cases h
    · rw [Bool.not_eq_true] at hne
      rw [vectorImpl_toggle_top hne] at h
      cases h
      rw [length_modifyLast]
      omega

/-- Over a run from the empty vector, the vector has at most as many
elements as the script has bytes: each instruction adds at most one and
takes at least one byte. -/
theorem evalLoop_vector_length (flags : UInt32) (sigversion : SigVersion) (script : CScript)
    {st st' : EvalState (List Bool)} (h₀ : st.vfExec = [])
    (hrun : evalLoop vectorImpl execOther flags sigversion script 0 st = .ok st') :
    st'.vfExec.length ≤ script.length := by
  obtain ⟨pc, hend, hlen, hpc⟩ := evalLoop_invariant vectorImpl execOther
    (fun pc st => st.vfExec.length ≤ pc ∧ pc ≤ script.length)
    (fun pc st opcode vch pc' st' hI hop hins => by
      have hgrow := (evalInstruction_vector_grows execOther flags sigversion opcode vch st).of_ok hins
      have hlt := GetScriptOp_lt hop
      have hle := GetScriptOp_le_length hop
      exact ⟨by omega, hle⟩)
    0 st st' ⟨by rw [h₀]; rfl, Nat.zero_le _⟩ hrun
  omega

/-- The loop on the stored condition stack is the loop on the vector,
stored, while the vector has at most as many elements as the position. The
induction follows the recursion of `evalLoop`. -/
theorem evalLoop_ofVector (flags : UInt32) (sigversion : SigVersion) (script : CScript)
    (hscript : script.length ≤ MAX_SCRIPT_SIZE) (pc : Nat) (st : EvalState (List Bool))
    (hv : st.vfExec.length ≤ pc) :
    evalLoop ConditionStack.impl execOther flags sigversion script pc (st.map ofVector) =
      EvalState.map ofVector <$> evalLoop vectorImpl execOther flags sigversion script pc st := by
  by_cases hpc : pc < script.length
  · have hlen : st.vfExec.length < 2 ^ 32 - 1 := by
      unfold MAX_SCRIPT_SIZE at hscript
      omega
    cases hop : GetScriptOp script pc with
    | none =>
      rw [evalLoop_of_none _ _ _ hpc hop, evalLoop_of_none _ _ _ hpc hop]
      rfl
    | some r =>
      obtain ⟨opcode, vch, pc'⟩ := r
      rw [evalLoop_of_some _ _ _ hpc hop, evalLoop_of_some _ _ _ hpc hop,
        evalInstruction_ofVector execOther flags sigversion opcode vch st hlen]
      have hgrow := evalInstruction_vector_grows execOther flags sigversion opcode vch st
      cases hins : evalInstruction vectorImpl execOther flags sigversion opcode vch st with
      | error e => rfl
      | ok st₁ =>
        have h₁ : st₁.vfExec.length ≤ st.vfExec.length + 1 := hgrow.of_ok hins
        have hlt := GetScriptOp_lt hop
        simp only [map_ok]
        exact evalLoop_ofVector flags sigversion script hscript pc' st₁ (by omega)
  · rw [evalLoop_of_ge _ _ _ (by omega), evalLoop_of_ge _ _ _ (by omega)]
    rfl
termination_by script.length - pc
decreasing_by
  have := GetScriptOp_lt hop
  omega

end Stored

/-- `EvalScript` on `ConditionStack` is `EvalScript` on the vector of
booleans it replaced: for every script, stack, flags and signature version,
and whatever the other opcodes do, the two return the same stack or set the
same error. -/
theorem EvalScript_conditionStack_eq_vector (stack : List valtype) (script : CScript) (flags : UInt32)
    (sigversion : SigVersion)
    (execOther : Nat → List valtype → List valtype → Except ScriptError (List valtype × List valtype)) :
    EvalScript ConditionStack.impl execOther stack script flags sigversion =
      EvalScript vectorImpl execOther stack script flags sigversion := by
  unfold EvalScript
  by_cases hsize : script.length > MAX_SCRIPT_SIZE
  · rw [if_pos hsize, if_pos hsize]
  rw [if_neg hsize, if_neg hsize]
  have hinit : (⟨stack, [], ConditionStack.impl.init, 0⟩ : EvalState ConditionStack) =
      EvalState.map ConditionStack.ofVector ⟨stack, [], vectorImpl.init, 0⟩ := rfl
  rw [hinit, evalLoop_ofVector execOther flags sigversion script (by omega) 0 ⟨stack, [], vectorImpl.init, 0⟩
    (Nat.le_refl 0)]
  cases hrun : evalLoop vectorImpl execOther flags sigversion script 0 ⟨stack, [], vectorImpl.init, 0⟩ with
  | error e => rfl
  | ok st =>
    -- the check for an unclosed conditional reads the same on both
    have hlen := evalLoop_vector_length execOther flags sigversion script rfl hrun
    have hempty : ConditionStack.impl.empty (st.map ConditionStack.ofVector).vfExec = vectorImpl.empty st.vfExec :=
      (ofVector_observe (v := st.vfExec) (by unfold MAX_SCRIPT_SIZE at hsize; omega)).1
    simp only [map_ok]
    rw [hempty]
    rfl

end Palladium.Script
