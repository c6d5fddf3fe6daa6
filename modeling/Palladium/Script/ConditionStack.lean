import Mathlib

/-!
# The condition stack of `EvalScript`

`ConditionStack` (`script/interpreter.cpp`) stands for the vector of booleans
that records, for each open `OP_IF`, whether its branch executes. It stores
only the size of that vector and the position of its first false, or
`NO_FALSE` when there is none: `EvalScript` asks only whether the vector is
empty and whether it is all true.

`Refines c v` says that `c` stores `v`. Each operation keeps the relation,
`push_back` while the vector stays below `NO_FALSE` elements; so over every
sequence of operations that `EvalScript` can make, the two observations of
`ConditionStack` are those of the vector.
-/

namespace Palladium.Script

set_option autoImplicit false

/-- `ConditionStack::NO_FALSE`, `std::numeric_limits<uint32_t>::max()`. -/
def NO_FALSE : UInt32 := 0xFFFFFFFF

/-- `ConditionStack`. -/
structure ConditionStack where
  m_stack_size : UInt32 := 0
  m_first_false_pos : UInt32 := NO_FALSE
deriving DecidableEq, Repr

namespace ConditionStack

def empty (c : ConditionStack) : Bool := c.m_stack_size == 0

def all_true (c : ConditionStack) : Bool := c.m_first_false_pos == NO_FALSE

def push_back (c : ConditionStack) (f : Bool) : ConditionStack :=
  -- the stack consists of all true values, and a false is added
  let m_first_false_pos := if c.m_first_false_pos == NO_FALSE && !f then c.m_stack_size else c.m_first_false_pos
  { m_stack_size := c.m_stack_size + 1, m_first_false_pos }

def pop_back (c : ConditionStack) : Except String ConditionStack :=
  if ¬c.m_stack_size > 0 then .error "assert(m_stack_size > 0)"
  else
    let m_stack_size := c.m_stack_size - 1
    -- popping off the first false value makes everything true
    let m_first_false_pos := if c.m_first_false_pos == m_stack_size then NO_FALSE else c.m_first_false_pos
    .ok { m_stack_size, m_first_false_pos }

def toggle_top (c : ConditionStack) : Except String ConditionStack :=
  if ¬c.m_stack_size > 0 then .error "assert(m_stack_size > 0)"
  else if c.m_first_false_pos == NO_FALSE then
    -- all true: the first false will be the top
    .ok { c with m_first_false_pos := c.m_stack_size - 1 }
  else if c.m_first_false_pos == c.m_stack_size - 1 then
    -- the top is the first false value: everything becomes true
    .ok { c with m_first_false_pos := NO_FALSE }
  else
    -- toggling anything above the first false is unobservable
    .ok c

end ConditionStack

/-- The operations `EvalScript` makes on its condition stack. -/
inductive CondOp where
  | push_back (f : Bool)
  | pop_back
  | toggle_top
deriving DecidableEq, Repr

/-- An operation on the stored stack. -/
def ConditionStack.apply (c : ConditionStack) : CondOp → Except String ConditionStack
  | .push_back f => .ok (c.push_back f)
  | .pop_back => c.pop_back
  | .toggle_top => c.toggle_top

/-- A sequence of operations; the first failed assertion ends it. -/
def ConditionStack.run (c : ConditionStack) : List CondOp → Except String ConditionStack
  | [] => .ok c
  | op :: ops => do
    let c' ← c.apply op
    c'.run ops

/-! ## The vector it stands for -/

/-- An operation on an explicit `std::vector<bool>`; `toggle_top` flips the
last element. -/
def vectorApply (v : List Bool) : CondOp → List Bool
  | .push_back f => v ++ [f]
  | .pop_back => v.dropLast
  | .toggle_top => v.modifyLast not

def vectorRun (v : List Bool) (ops : List CondOp) : List Bool := ops.foldl vectorApply v

/-- The operation may be made on the vector: `pop_back` and `toggle_top` on a
non-empty one, `push_back` on one of fewer than `NO_FALSE` elements. -/
def CondOp.allowed (v : List Bool) : CondOp → Bool
  | .push_back _ => decide (v.length < NO_FALSE.toNat)
  | .pop_back | .toggle_top => !v.isEmpty

/-- Every operation of the sequence may be made where it stands. -/
def Allowed (v : List Bool) : List CondOp → Bool
  | [] => true
  | op :: ops => op.allowed v && Allowed (vectorApply v op) ops

/-- `c` stores the vector `v`: its size, and the position of its first false
or `NO_FALSE`. -/
structure Refines (c : ConditionStack) (v : List Bool) : Prop where
  size : c.m_stack_size.toNat = v.length
  first_false : c.m_first_false_pos.toNat = if false ∈ v then v.idxOf false else NO_FALSE.toNat

theorem NO_FALSE_toNat : NO_FALSE.toNat = 2 ^ 32 - 1 := rfl

namespace Refines

variable {c : ConditionStack} {v : List Bool}

theorem length_le (h : Refines c v) : v.length ≤ 2 ^ 32 - 1 := by
  have := c.m_stack_size.toNat_lt
  rw [h.size] at this
  omega

/-- A stored vector with a false has its first false below `NO_FALSE`. -/
theorem first_false_of_mem (h : Refines c v) (hf : false ∈ v) :
    c.m_first_false_pos.toNat = v.idxOf false ∧ v.idxOf false < 2 ^ 32 - 1 := by
  have hlt := List.idxOf_lt_length_iff.mpr hf
  exact ⟨by rw [h.first_false, if_pos hf], by have := h.length_le; omega⟩

theorem first_false_of_not_mem (h : Refines c v) (hf : false ∉ v) : c.m_first_false_pos = NO_FALSE :=
  UInt32.toNat_inj.mp (by rw [h.first_false, if_neg hf])

/-- The two observations of `ConditionStack` are those of the vector. -/
theorem observe (h : Refines c v) : c.empty = v.isEmpty ∧ c.all_true = !v.contains false := by
  constructor
  · rw [ConditionStack.empty, Bool.eq_iff_iff, beq_iff_eq, ← UInt32.toNat_inj, h.size,
      List.isEmpty_iff_length_eq_zero]
    rfl
  · by_cases hf : false ∈ v
    · obtain ⟨hpos, hlt⟩ := h.first_false_of_mem hf
      have hne : c.m_first_false_pos ≠ NO_FALSE := by
        intro heq
        rw [heq, NO_FALSE_toNat] at hpos
        omega
      simp [ConditionStack.all_true, hne, hf]
    · simp [ConditionStack.all_true, h.first_false_of_not_mem hf, hf]

end Refines

theorem refines_default : Refines {} [] := ⟨rfl, by simp [NO_FALSE]⟩

/-! ## Each operation keeps the relation -/

section Steps

variable {c : ConditionStack} {v u : List Bool} {b : Bool}

@[simp] theorem push_back_m_stack_size (f : Bool) : (c.push_back f).m_stack_size = c.m_stack_size + 1 := rfl

@[simp] theorem push_back_m_first_false_pos (f : Bool) :
    (c.push_back f).m_first_false_pos =
      if c.m_first_false_pos == NO_FALSE && !f then c.m_stack_size else c.m_first_false_pos := rfl

theorem pop_back_of_pos (hpos : 0 < c.m_stack_size) :
    c.pop_back = .ok ⟨c.m_stack_size - 1,
      if c.m_first_false_pos == c.m_stack_size - 1 then NO_FALSE else c.m_first_false_pos⟩ := by
  rw [ConditionStack.pop_back, if_neg (not_not.mpr hpos)]

theorem toggle_top_of_pos (hpos : 0 < c.m_stack_size) :
    c.toggle_top = .ok (if c.m_first_false_pos == NO_FALSE then { c with m_first_false_pos := c.m_stack_size - 1 }
      else if c.m_first_false_pos == c.m_stack_size - 1 then { c with m_first_false_pos := NO_FALSE } else c) := by
  rw [ConditionStack.toggle_top, if_neg (not_not.mpr hpos)]
  split <;> [rfl; split <;> rfl]

/-- The top of a stored non-empty vector: the size is positive and one less
is the length below the top. -/
theorem Refines.top (h : Refines c (u ++ [b])) :
    0 < c.m_stack_size ∧ (c.m_stack_size - 1).toNat = u.length ∧ u.length < 2 ^ 32 - 1 := by
  have hlen := h.length_le
  have hsize := h.size
  simp only [List.length_append, List.length_singleton] at hlen hsize
  have hpos : 0 < c.m_stack_size := by
    rw [UInt32.lt_iff_toNat_lt, hsize]
    simp
  have hone : 1 ≤ c.m_stack_size := by
    rw [UInt32.le_iff_toNat_le, hsize]
    simp
  refine ⟨hpos, ?_, by omega⟩
  rw [UInt32.toNat_sub_of_le _ _ hone, hsize]
  rfl

/-- Where the first false of a non-empty vector is: below the top, at the
top, or nowhere. -/
theorem Refines.top_cases (h : Refines c (u ++ [b])) :
    (false ∈ u ∧ c.m_first_false_pos.toNat = u.idxOf false ∧ u.idxOf false < u.length) ∨
    (false ∉ u ∧ b = false ∧ c.m_first_false_pos.toNat = u.length) ∨
    (false ∉ u ∧ b = true ∧ c.m_first_false_pos = NO_FALSE) := by
  by_cases hu : false ∈ u
  · obtain ⟨hfirst, -⟩ := h.first_false_of_mem (List.mem_append_left _ hu)
    rw [List.idxOf_append_of_mem hu] at hfirst
    exact .inl ⟨hu, hfirst, List.idxOf_lt_length_iff.mpr hu⟩
  · cases b with
    | false =>
      obtain ⟨hfirst, -⟩ := h.first_false_of_mem (List.mem_append_right u (List.mem_singleton_self false))
      rw [List.idxOf_append_of_notMem hu, List.idxOf_cons_self, Nat.add_zero] at hfirst
      exact .inr (.inl ⟨hu, rfl, hfirst⟩)
    | true => exact .inr (.inr ⟨hu, rfl, h.first_false_of_not_mem (by simp [hu])⟩)

/-- Two positions below `NO_FALSE` are equal as words when they are as
numbers. -/
theorem beq_eq_decide (a d : UInt32) : (a == d) = decide (a.toNat = d.toNat) := by
  rw [Bool.eq_iff_iff, beq_iff_eq, decide_eq_true_iff, UInt32.toNat_inj]

theorem Refines.push_back (h : Refines c v) (hv : v.length < 2 ^ 32 - 1) (f : Bool) :
    Refines (c.push_back f) (v ++ [f]) := by
  have hsize : (c.m_stack_size + 1).toNat = v.length + 1 := by
    rw [UInt32.toNat_add, h.size]
    simp only [UInt32.reduceToNat]
    omega
  refine ⟨by rw [List.length_append, List.length_singleton]; exact hsize, ?_⟩
  by_cases hf : false ∈ v
  · -- a false below the new top stays the first one
    obtain ⟨hpos, hlt⟩ := h.first_false_of_mem hf
    have hne : c.m_first_false_pos ≠ NO_FALSE := by
      intro heq
      rw [heq, NO_FALSE_toNat] at hpos
      omega
    simp [hne, hpos, hf, List.idxOf_append_of_mem hf]
  · have hno := h.first_false_of_not_mem hf
    cases f with
    | false =>
      -- the pushed false is the first one, at the old size
      simp [hno, hf, List.idxOf_append_of_notMem hf, h.size]
    | true => simp [hno, hf]

theorem Refines.pop_back (h : Refines c v) (hv : v ≠ []) :
    ∃ c', c.pop_back = .ok c' ∧ Refines c' v.dropLast := by
  obtain ⟨u, b, rfl⟩ := List.eq_nil_or_concat v |>.resolve_left hv
  rw [List.concat_eq_append] at h ⊢
  rw [List.dropLast_concat]
  obtain ⟨hpos, hsub, hlen⟩ := h.top
  refine ⟨_, pop_back_of_pos hpos, hsub, ?_⟩
  dsimp only
  rcases h.top_cases with ⟨hu, hfirst, hlt⟩ | ⟨hu, rfl, hfirst⟩ | ⟨hu, rfl, hno⟩
  · -- the first false lies below the popped top
    rw [beq_eq_decide, hfirst, hsub, decide_eq_false (Nat.ne_of_lt hlt)]
    simp [hfirst, hu]
  · -- the popped top was the first false
    rw [beq_eq_decide, hfirst, hsub, decide_eq_true rfl]
    simp [hu]
  · have hne : NO_FALSE.toNat ≠ (c.m_stack_size - 1).toNat := by
      rw [hsub, NO_FALSE_toNat]
      omega
    rw [beq_eq_decide, hno, decide_eq_false hne]
    simp [hu]

theorem Refines.toggle_top (h : Refines c v) (hv : v ≠ []) :
    ∃ c', c.toggle_top = .ok c' ∧ Refines c' (v.modifyLast not) := by
  obtain ⟨u, b, rfl⟩ := List.eq_nil_or_concat v |>.resolve_left hv
  rw [List.concat_eq_append] at h ⊢
  rw [List.modifyLast_concat]
  obtain ⟨hpos, hsub, hlen⟩ := h.top
  have hsize : c.m_stack_size.toNat = (u ++ [!b]).length := by simpa using h.size
  refine ⟨_, toggle_top_of_pos hpos, ?_⟩
  rcases h.top_cases with ⟨hu, hfirst, hlt⟩ | ⟨hu, rfl, hfirst⟩ | ⟨hu, rfl, hno⟩
  · -- a false below the top: toggling the top is unobservable
    have hno : NO_FALSE.toNat ≠ c.m_first_false_pos.toNat := by
      rw [hfirst, NO_FALSE_toNat]
      omega
    rw [beq_eq_decide, beq_eq_decide, hfirst, hsub, decide_eq_false (Ne.symm (hfirst ▸ hno)),
      decide_eq_false (Nat.ne_of_lt hlt)]
    exact ⟨hsize, by simp [hfirst, hu, List.idxOf_append_of_mem hu]⟩
  · -- the top is the first false: the toggled vector is all true
    have hno : c.m_first_false_pos.toNat ≠ NO_FALSE.toNat := by
      rw [hfirst, NO_FALSE_toNat]
      omega
    rw [beq_eq_decide, beq_eq_decide, hfirst, hsub, decide_eq_false (hfirst ▸ hno), decide_eq_true rfl]
    exact ⟨hsize, by simp [hu]⟩
  · -- all true: the toggled top is the first false
    rw [beq_eq_decide, hno, decide_eq_true rfl]
    exact ⟨hsize, by simp [hsub, hu, List.idxOf_append_of_notMem hu]⟩

end Steps

/-! ## Runs -/

section Runs

variable {c : ConditionStack} {v : List Bool}

theorem Refines.apply (h : Refines c v) {op : CondOp} (hop : op.allowed v = true) :
    ∃ c', c.apply op = .ok c' ∧ Refines c' (vectorApply v op) := by
  cases op with
  | push_back f =>
    have hv : v.length < 2 ^ 32 - 1 := of_decide_eq_true hop
    exact ⟨_, rfl, h.push_back hv f⟩
  | pop_back => exact h.pop_back (by simpa [CondOp.allowed] using hop)
  | toggle_top => exact h.toggle_top (by simpa [CondOp.allowed] using hop)

/-- Over a sequence of allowed operations no assertion fails and the stored
stack follows the vector. The induction is on the sequence, from any pair of
related states. -/
theorem Refines.run : ∀ {c : ConditionStack} {v : List Bool} {ops : List CondOp}, Refines c v →
    Allowed v ops = true → ∃ c', c.run ops = .ok c' ∧ Refines c' (vectorRun v ops)
  | c, _, [], h, _ => ⟨c, rfl, h⟩
  | _, _, op :: ops, h, hops => by
    rw [Allowed, Bool.and_eq_true] at hops
    obtain ⟨c₁, hc₁, h₁⟩ := h.apply hops.1
    obtain ⟨c₂, hc₂, h₂⟩ := h₁.run hops.2
    exact ⟨c₂, by rw [ConditionStack.run, hc₁]; exact hc₂, h₂⟩

theorem Allowed_take : ∀ {v : List Bool} {ops : List CondOp} (k : Nat), Allowed v ops = true →
    Allowed v (ops.take k) = true
  | _, [], k, _ => by rw [List.take_nil]; rfl
  | _, _ :: _, 0, _ => rfl
  | v, op :: ops, k + 1, h => by
    rw [Allowed, Bool.and_eq_true] at h
    rw [List.take_succ_cons, Allowed, h.1, Allowed_take k h.2]
    rfl

end Runs

/-- **`ConditionStack` refines a vector of booleans.** Along every sequence
of `push_back`, `pop_back` and `toggle_top` that `EvalScript` can make
(`pop_back` and `toggle_top` on a non-empty stack, each `push_back` on fewer
than `2 ^ 32 - 1` open conditions), from the empty stack and at each of its
points, no assertion fails, `empty()` is whether the vector is empty and
`all_true()` whether it has no false. -/
theorem conditionStack_refines_vector (ops : List CondOp) (hops : Allowed [] ops = true) (k : Nat) :
    ∃ c, ({} : ConditionStack).run (ops.take k) = .ok c ∧
      c.empty = (vectorRun [] (ops.take k)).isEmpty ∧
      c.all_true = !(vectorRun [] (ops.take k)).contains false := by
  obtain ⟨c, hrun, hc⟩ := refines_default.run (Allowed_take k hops)
  exact ⟨c, hrun, hc.observe⟩

theorem conditionStack_refines_vector_nested :
    Allowed [] [.push_back true, .push_back false, .toggle_top, .push_back false, .pop_back, .pop_back] = true ∧
      ∃ c, ({} : ConditionStack).run
        ([.push_back true, .push_back false, .toggle_top, .push_back false, .pop_back, .pop_back].take 4) = .ok c ∧
      c.empty = (vectorRun [] ([.push_back true, .push_back false, .toggle_top, .push_back false, .pop_back,
        .pop_back].take 4)).isEmpty ∧
      c.all_true = !(vectorRun [] ([.push_back true, .push_back false, .toggle_top, .push_back false,
        .pop_back, .pop_back].take 4)).contains false :=
  ⟨by decide, conditionStack_refines_vector _ (by decide) 4⟩

/-- The bound on pushes is needed: a false pushed on `NO_FALSE` true values
lands at `NO_FALSE` and the size wraps, so the stack then reads as empty and
all true. -/
theorem push_back_false_at_NO_FALSE {c : ConditionStack} {v : List Bool} (h : Refines c v)
    (hlen : v.length = 2 ^ 32 - 1) (hv : false ∉ v) :
    (c.push_back false).empty = true ∧ (c.push_back false).all_true = true ∧ false ∈ v ++ [false] := by
  have hno := h.first_false_of_not_mem hv
  have hsize : c.m_stack_size = NO_FALSE := UInt32.toNat_inj.mp (by rw [h.size, hlen]; rfl)
  refine ⟨?_, ?_, List.mem_append_right v (List.mem_singleton_self false)⟩
  · simp [ConditionStack.empty, hsize, NO_FALSE]
  · simp [ConditionStack.all_true, hno, hsize]

/-! ## The stored form of a vector

A vector of fewer than `2 ^ 32` booleans has exactly one stored form, its
size and the position of its first false. On it each operation of
`ConditionStack` is the operation of the vector, which is what lets
`EvalScript` run on either. -/

section Stored

variable {v : List Bool}

/-- The `ConditionStack` that stores `v`. -/
def ConditionStack.ofVector (v : List Bool) : ConditionStack :=
  { m_stack_size := UInt32.ofNat v.length
    m_first_false_pos := UInt32.ofNat (if false ∈ v then v.idxOf false else NO_FALSE.toNat) }

theorem ofVector_nil : ConditionStack.ofVector [] = {} := rfl

theorem refines_ofVector (hv : v.length < 2 ^ 32) : Refines (ConditionStack.ofVector v) v := by
  refine ⟨UInt32.toNat_ofNat_of_lt' hv, UInt32.toNat_ofNat_of_lt' ?_⟩
  rw [show UInt32.size = 2 ^ 32 from rfl]
  split
  · have := List.idxOf_lt_length_iff.mpr ‹false ∈ v›
    omega
  · rw [NO_FALSE_toNat]
    omega

/-- A stack that stores `v` is its stored form. -/
theorem Refines.eq_ofVector {c : ConditionStack} (h : Refines c v) : c = ConditionStack.ofVector v := by
  have hlen := h.length_le
  have hsize : c.m_stack_size = (ConditionStack.ofVector v).m_stack_size :=
    UInt32.toNat_inj.mp (by rw [h.size, (refines_ofVector (by omega)).size])
  have hfirst : c.m_first_false_pos = (ConditionStack.ofVector v).m_first_false_pos :=
    UInt32.toNat_inj.mp (by rw [h.first_false, (refines_ofVector (by omega)).first_false])
  cases c
  exact ConditionStack.mk.injEq _ _ _ _ |>.mpr ⟨hsize, hfirst⟩

theorem ofVector_observe (hv : v.length < 2 ^ 32) :
    (ConditionStack.ofVector v).empty = v.isEmpty ∧ (ConditionStack.ofVector v).all_true = !v.contains false :=
  (refines_ofVector hv).observe

theorem ofVector_push_back (hv : v.length < 2 ^ 32 - 1) (f : Bool) :
    (ConditionStack.ofVector v).push_back f = ConditionStack.ofVector (v ++ [f]) :=
  ((refines_ofVector (by omega)).push_back hv f).eq_ofVector

theorem ofVector_pop_back (hne : v ≠ []) (hv : v.length < 2 ^ 32) :
    (ConditionStack.ofVector v).pop_back = .ok (ConditionStack.ofVector v.dropLast) := by
  obtain ⟨c', hc', h'⟩ := (refines_ofVector hv).pop_back hne
  rw [hc', h'.eq_ofVector]

theorem ofVector_toggle_top (hne : v ≠ []) (hv : v.length < 2 ^ 32) :
    (ConditionStack.ofVector v).toggle_top = .ok (ConditionStack.ofVector (v.modifyLast not)) := by
  obtain ⟨c', hc', h'⟩ := (refines_ofVector hv).toggle_top hne
  rw [hc', h'.eq_ofVector]

theorem length_modifyLast {α : Type} (f : α → α) (l : List α) : (l.modifyLast f).length = l.length := by
  obtain rfl | ⟨u, b, rfl⟩ := List.eq_nil_or_concat l
  · rfl
  · rw [List.concat_eq_append, List.modifyLast_concat, List.length_append, List.length_append]
    rfl

end Stored

end Palladium.Script
