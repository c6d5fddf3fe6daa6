import Mathlib
import Palladium.Lib.OrderStat
import Palladium.Lib.ExceptSpec

/-!
# Adjusted network time

`timedata.h` and `timedata.cpp`: `CMedianFilter` keeps the last `nSize` values of a
stream with a sorted copy of them, and `AddTimeData` feeds it the clock offsets that
peers report, one per address and at most 200, and sets the node's offset
`nTimeOffset` to their median when that median is within `-maxtimeadjustment`.

The filter holds the sorted window of the last `nSize` values it was given. Over every
run of `AddTimeData` from the start: each address is counted once, the offset never
leaves `[-maxtimeadjustment, maxtimeadjustment]`, the clock warning is given at most
once, and once 200 values fill the filter the offset never moves again (the issue
the source describes). When more than half of the window lies in an interval around
zero, the offset the node takes lies in it too.

The offsets are unbounded integers: `abs64` of the least `int64_t` and the sum of the
two middle values of an even window, which overflow in the source, are not modelled.
-/

set_option autoImplicit false

namespace Palladium.TimeData

open OrderStat

def DEFAULT_MAX_TIME_ADJUSTMENT : Int := 70 * 60
def PALLADIUM_TIMEDATA_MAX_SAMPLES : Nat := 200

/-! ## The median filter -/

/-- `CMedianFilter<int64_t>`: the values in the order they came, their sorted copy,
and how many values are kept. -/
structure CMedianFilter where
  vValues : List Int
  vSorted : List Int
  nSize : Nat
deriving DecidableEq, Repr

namespace CMedianFilter

/-- `CMedianFilter(_size, initial_value)`. -/
def init (_size : Nat) (initial_value : Int) : CMedianFilter := ⟨[initial_value], [initial_value], _size⟩

/-- `input`: the oldest value goes when `nSize` are kept, the new one is appended, and
the copy is sorted again. -/
def input (f : CMedianFilter) (value : Int) : CMedianFilter :=
  let vValues := (if f.vValues.length = f.nSize then f.vValues.drop 1 else f.vValues) ++ [value]
  { f with vValues := vValues, vSorted := sortLE vValues }

/-- `median`; its assertion is the error. The two middle values of an even window are
averaged with the `int64_t` division, which rounds toward zero. -/
def median (f : CMedianFilter) : Except String Int :=
  let vSortedSize := f.vSorted.length
  if ¬vSortedSize > 0 then .error "assert(vSortedSize > 0)"
  else if vSortedSize % 2 = 1 then .ok (f.vSorted.getD (vSortedSize / 2) 0)
  else .ok ((f.vSorted.getD (vSortedSize / 2 - 1) 0 + f.vSorted.getD (vSortedSize / 2) 0).tdiv 2)

/-- `size`. -/
def size (f : CMedianFilter) : Nat := f.vValues.length

/-- `sorted`. -/
def sorted (f : CMedianFilter) : List Int := f.vSorted

/-- The filter after a stream of values. -/
def inputs (f : CMedianFilter) (values : List Int) : CMedianFilter := values.foldl input f

@[simp] theorem init_nSize (n : Nat) (v : Int) : (init n v).nSize = n := rfl

@[simp] theorem input_nSize (f : CMedianFilter) (value : Int) : (f.input value).nSize = f.nSize := rfl

@[simp] theorem input_vSorted (f : CMedianFilter) (value : Int) :
    (f.input value).vSorted = sortLE (f.input value).vValues := rfl

/-- What every filter built by the constructor and `input` keeps: the sorted copy is
the values sorted, and there are between one and `nSize` values. -/
structure Valid (f : CMedianFilter) : Prop where
  sorted_eq : f.vSorted = sortLE f.vValues
  ne_nil : f.vValues ≠ []
  length_le : f.vValues.length ≤ f.nSize

theorem Valid_init {n : Nat} (hn : 0 < n) (v : Int) : (init n v).Valid where
  sorted_eq := rfl
  ne_nil := List.cons_ne_nil v []
  length_le := hn

theorem length_input {f : CMedianFilter} (hf : f.Valid) (value : Int) :
    (f.input value).vValues.length = min (f.vValues.length + 1) f.nSize := by
  have hpos := List.length_pos_iff.mpr hf.ne_nil
  have hle := hf.length_le
  simp only [input]
  split_ifs with hfull
  · rw [List.length_append, List.length_drop, List.length_singleton]
    omega
  · rw [List.length_append, List.length_singleton]
    omega

theorem Valid.input {f : CMedianFilter} (hf : f.Valid) (value : Int) : (f.input value).Valid where
  sorted_eq := rfl
  ne_nil := by simp [CMedianFilter.input]
  length_le := by
    rw [length_input hf, input_nSize]
    exact Nat.min_le_right _ _

/-- The median of a valid filter of odd size is the middle of its sorted values. -/
theorem median_of_odd {f : CMedianFilter} (hf : f.Valid) (hodd : f.size % 2 = 1) :
    f.median = .ok ((sortLE f.vValues).getD (f.size / 2) 0) := by
  have hlen : f.vSorted.length = f.size := by rw [hf.sorted_eq, length_sortLE, size]
  rw [median, hlen, if_neg (by omega), if_pos hodd, hf.sorted_eq]

end CMedianFilter

/-! ## The window the filter holds -/

/-- The last `n` elements of a list. -/
def lastN {β : Type} (n : Nat) (l : List β) : List β := l.drop (l.length - n)

theorem length_lastN {β : Type} (n : Nat) (l : List β) : (lastN n l).length = min l.length n := by
  rw [lastN, List.length_drop]
  omega

namespace CMedianFilter

/-- One `input` moves the window by the new value. -/
theorem input_window {f : CMedianFilter} {l : List Int} (hf : f.Valid) (hwin : f.vValues = lastN f.nSize l)
    (value : Int) : (f.input value).vValues = lastN f.nSize (l ++ [value]) := by
  have hlen := length_lastN f.nSize l
  have hpos := List.length_pos_iff.mpr hf.ne_nil
  rw [← hwin] at hlen
  simp only [input]
  rw [lastN, List.length_append, List.length_singleton, List.drop_append_of_le_length (by omega)]
  split_ifs with hfull
  · -- full: the oldest value leaves the window
    rw [hwin, lastN, List.drop_drop]
    congr 2
    omega
  · -- not full yet: the window is the whole stream
    rw [hwin, lastN, Nat.sub_eq_zero_of_le (by omega), Nat.sub_eq_zero_of_le (by omega)]

/-- A filter fed a stream holds the sorted window of its last `nSize` values. -/
theorem inputs_window {f : CMedianFilter} {l : List Int} (hf : f.Valid) (hwin : f.vValues = lastN f.nSize l) :
    ∀ values : List Int, (f.inputs values).Valid ∧ (f.inputs values).nSize = f.nSize ∧
      (f.inputs values).vValues = lastN f.nSize (l ++ values) := by
  intro values
  -- induction on the stream, the values read so far joining `l`
  induction values generalizing f l with
  | nil => exact ⟨hf, rfl, by rw [List.append_nil]; exact hwin⟩
  | cons x xs ih =>
    obtain ⟨hv, hn, hw⟩ := ih (hf.input x) (input_window hf hwin x)
    refine ⟨hv, hn, ?_⟩
    rw [inputs, List.foldl_cons, ← inputs, hw, input_nSize, List.append_assoc, List.singleton_append]

end CMedianFilter

/-- A filter `CMedianFilter(n, v)` fed any stream holds the last `n` values of `v` and
the stream with their sorted copy, and the median of an odd window is its middle value. -/
theorem CMedianFilter_inputs_window {n : Nat} (hn : 0 < n) (v : Int) (values : List Int) :
    ((CMedianFilter.init n v).inputs values).vValues = lastN n (v :: values) ∧
      ((CMedianFilter.init n v).inputs values).vSorted = sortLE (lastN n (v :: values)) ∧
      ((CMedianFilter.init n v).inputs values).size = min (values.length + 1) n ∧
      (((CMedianFilter.init n v).inputs values).size % 2 = 1 →
        ((CMedianFilter.init n v).inputs values).median =
          .ok ((sortLE (lastN n (v :: values))).getD (min (values.length + 1) n / 2) 0)) := by
  have hinit : (CMedianFilter.init n v).vValues = lastN n [v] := by
    rw [lastN, List.length_singleton, Nat.sub_eq_zero_of_le hn, List.drop_zero]
    rfl
  obtain ⟨hvalid, -, hwin⟩ := CMedianFilter.inputs_window (CMedianFilter.Valid_init hn v) hinit values
  rw [List.singleton_append, CMedianFilter.init_nSize] at hwin
  have hsize : ((CMedianFilter.init n v).inputs values).size = min (values.length + 1) n := by
    rw [CMedianFilter.size, hwin, length_lastN, List.length_cons]
  refine ⟨hwin, by rw [hvalid.sorted_eq, hwin], hsize, fun hodd => ?_⟩
  rw [CMedianFilter.median_of_odd hvalid hodd, hsize, hwin]

theorem CMedianFilter_inputs_window_three :
    0 < 3 ∧ ((CMedianFilter.init 3 0).inputs [5, -2, 9, 4]).vValues = lastN 3 [0, 5, -2, 9, 4] ∧
      ((CMedianFilter.init 3 0).inputs [5, -2, 9, 4]).vSorted = sortLE (lastN 3 [0, 5, -2, 9, 4]) ∧
      ((CMedianFilter.init 3 0).inputs [5, -2, 9, 4]).size = min ([5, -2, 9, 4].length + 1) 3 ∧
      (((CMedianFilter.init 3 0).inputs [5, -2, 9, 4]).size % 2 = 1 →
        ((CMedianFilter.init 3 0).inputs [5, -2, 9, 4]).median =
          .ok ((sortLE (lastN 3 [0, 5, -2, 9, 4])).getD (min ([5, -2, 9, 4].length + 1) 3 / 2) 0)) :=
  ⟨by decide, CMedianFilter_inputs_window (by decide) 0 [5, -2, 9, 4]⟩

/-! ## `AddTimeData` -/

/-- `abs64`. -/
def abs64 (n : Int) : Int := if n ≥ 0 then n else -n

theorem abs64_eq (n : Int) : abs64 n = |n| := by
  unfold abs64
  split_ifs with h
  · exact (abs_of_nonneg h).symm
  · exact (abs_of_neg (not_le.mp h)).symm

/-- The warning `AddTimeData` gives through `SetMiscWarning` and the message box, with
`PACKAGE_NAME` filled in. -/
def strMessage : String :=
  "Please check that your computer\x27s date and time are correct! If your clock is wrong, Palladium Core will not work properly."

/-- What `AddTimeData` keeps across calls: its statics `setKnown`, `vTimeOffsets` and
`fDone`, and `nTimeOffset`. -/
structure TimeDataState (α : Type) where
  setKnown : List α
  vTimeOffsets : CMedianFilter
  nTimeOffset : Int
  fDone : Bool
deriving DecidableEq, Repr

variable {α : Type}

/-- The state before the first call. -/
def TimeDataState.init : TimeDataState α :=
  ⟨[], CMedianFilter.init PALLADIUM_TIMEDATA_MAX_SAMPLES 0, 0, false⟩

@[simp] theorem init_setKnown : (TimeDataState.init : TimeDataState α).setKnown = [] := rfl

@[simp] theorem init_nTimeOffset : (TimeDataState.init : TimeDataState α).nTimeOffset = 0 := rfl

@[simp] theorem init_fDone : (TimeDataState.init : TimeDataState α).fDone = false := rfl

variable [DecidableEq α]

/-- `AddTimeData(ip, nOffsetSample)`, with `maxTimeAdjustment` the value of
`-maxtimeadjustment`: the new state and the warning it gives, if any. -/
def AddTimeData (maxTimeAdjustment : Int) (st : TimeDataState α) (ip : α) (nOffsetSample : Int) :
    Except String (TimeDataState α × Option String) :=
  -- ignore duplicates
  if st.setKnown.length = PALLADIUM_TIMEDATA_MAX_SAMPLES then .ok (st, none)
  else if ip ∈ st.setKnown then .ok (st, none)
  else
    -- add data
    let vTimeOffsets := st.vTimeOffsets.input nOffsetSample
    let st' : TimeDataState α := { st with setKnown := ip :: st.setKnown, vTimeOffsets := vTimeOffsets }
    if vTimeOffsets.size ≥ 5 ∧ vTimeOffsets.size % 2 = 1 then do
      let nMedian ← vTimeOffsets.median
      let vSorted := vTimeOffsets.sorted
      -- only let other nodes change our time by so much
      if abs64 nMedian ≤ max 0 maxTimeAdjustment then .ok ({ st' with nTimeOffset := nMedian }, none)
      else if !st.fDone then
        -- if nobody has a time different than ours but within 5 minutes of ours, give a warning
        let fMatch := vSorted.any fun nOffset => nOffset ≠ 0 ∧ abs64 nOffset < 5 * 60
        if !fMatch then .ok ({ st' with nTimeOffset := 0, fDone := true }, some strMessage)
        else .ok ({ st' with nTimeOffset := 0 }, none)
      else .ok ({ st' with nTimeOffset := 0 }, none)
    else .ok (st', none)

/-- `AddTimeData` called for each peer's version message in turn: the final state and
the warnings given. -/
def AddTimeDataRun (maxTimeAdjustment : Int) :
    TimeDataState α → List (α × Int) → Except String (TimeDataState α × List String)
  | st, [] => .ok (st, [])
  | st, (ip, nOffsetSample) :: samples => do
    let (st', warning) ← AddTimeData maxTimeAdjustment st ip nOffsetSample
    let (st'', warnings) ← AddTimeDataRun maxTimeAdjustment st' samples
    .ok (st'', warning.toList ++ warnings)

/-! ## What one call does -/

/-- How `AddTimeData` sets the offset and the warning from the median `nMedian` of an
odd window: to the median when it is within the bound, else to 0, with the warning
given only when it was not given before. -/
def OffsetUpdate (maxTimeAdjustment nMedian : Int) (st st' : TimeDataState α) (w : Option String) : Prop :=
  (|nMedian| ≤ max 0 maxTimeAdjustment ∧ st'.nTimeOffset = nMedian ∧ st'.fDone = st.fDone ∧ w = none) ∨
  (max 0 maxTimeAdjustment < |nMedian| ∧ st'.nTimeOffset = 0 ∧
    (st'.fDone = st.fDone ∧ w = none ∨ st.fDone = false ∧ st'.fDone = true ∧ w = some strMessage))

/-- Everything a call of `AddTimeData` can do from a state whose filter is valid: leave
the state as it is, or take the sample of a new address into the filter and, on a
window of odd size from 5 on, move the offset to its median or to 0. -/
theorem AddTimeData_cases {m : Int} {st st' : TimeDataState α} {ip : α} {n : Int} {w : Option String}
    (hf : st.vTimeOffsets.Valid) (h : AddTimeData m st ip n = .ok (st', w)) :
    ((st.setKnown.length = PALLADIUM_TIMEDATA_MAX_SAMPLES ∨ ip ∈ st.setKnown) ∧ st' = st ∧ w = none) ∨
    (st.setKnown.length ≠ PALLADIUM_TIMEDATA_MAX_SAMPLES ∧ ip ∉ st.setKnown ∧
      st'.setKnown = ip :: st.setKnown ∧ st'.vTimeOffsets = st.vTimeOffsets.input n ∧
      ((¬(5 ≤ (st.vTimeOffsets.input n).size ∧ (st.vTimeOffsets.input n).size % 2 = 1) ∧
          st'.nTimeOffset = st.nTimeOffset ∧ st'.fDone = st.fDone ∧ w = none) ∨
        (5 ≤ (st.vTimeOffsets.input n).size ∧ (st.vTimeOffsets.input n).size % 2 = 1 ∧
          OffsetUpdate m ((sortLE (st.vTimeOffsets.input n).vValues).getD
            ((st.vTimeOffsets.input n).size / 2) 0) st st' w))) := by
  unfold AddTimeData at h
  by_cases hfull : st.setKnown.length = PALLADIUM_TIMEDATA_MAX_SAMPLES
  · rw [if_pos hfull] at h
    cases h
    exact .inl ⟨.inl hfull, rfl, rfl⟩
  rw [if_neg hfull] at h
  by_cases hmem : ip ∈ st.setKnown
  · rw [if_pos hmem] at h
    cases h
    exact .inl ⟨.inr hmem, rfl, rfl⟩
  rw [if_neg hmem] at h
  refine .inr ⟨hfull, hmem, ?_⟩
  dsimp only at h
  by_cases hodd : (st.vTimeOffsets.input n).size ≥ 5 ∧ (st.vTimeOffsets.input n).size % 2 = 1
  · rw [if_pos hodd, CMedianFilter.median_of_odd (hf.input n) hodd.2] at h
    simp only [ExceptSpec.ok_bind] at h
    refine ⟨?_, ?_, .inr ⟨hodd.1, hodd.2, ?_⟩⟩
    -- every branch below only sets the offset and `fDone`
    · split_ifs at h <;> cases h <;> rfl
    · split_ifs at h <;> cases h <;> rfl
    · split_ifs at h with hle hfd hmatch
      · cases h
        exact .inl ⟨by rwa [← abs64_eq], rfl, rfl, rfl⟩
      · cases h
        exact .inr ⟨by rw [← abs64_eq]; exact lt_of_not_ge hle, rfl, .inr ⟨by simpa using hfd, rfl, rfl⟩⟩
      · cases h
        exact .inr ⟨by rw [← abs64_eq]; exact lt_of_not_ge hle, rfl, .inl ⟨rfl, rfl⟩⟩
      · cases h
        exact .inr ⟨by rw [← abs64_eq]; exact lt_of_not_ge hle, rfl, .inl ⟨rfl, rfl⟩⟩
  · rw [if_neg hodd] at h
    cases h
    exact ⟨rfl, rfl, .inl ⟨hodd, rfl, rfl, rfl⟩⟩

/-- The assertion in `median` is never reached: every call succeeds. -/
theorem AddTimeData_ok {m : Int} {st : TimeDataState α} (hf : st.vTimeOffsets.Valid) (ip : α) (n : Int) :
    ∃ r, AddTimeData m st ip n = .ok r := by
  unfold AddTimeData
  by_cases hfull : st.setKnown.length = PALLADIUM_TIMEDATA_MAX_SAMPLES
  · exact ⟨_, if_pos hfull⟩
  rw [if_neg hfull]
  by_cases hmem : ip ∈ st.setKnown
  · exact ⟨_, if_pos hmem⟩
  rw [if_neg hmem]
  dsimp only
  by_cases hodd : (st.vTimeOffsets.input n).size ≥ 5 ∧ (st.vTimeOffsets.input n).size % 2 = 1
  · rw [if_pos hodd, CMedianFilter.median_of_odd (hf.input n) hodd.2, ExceptSpec.ok_bind]
    split_ifs <;> exact ⟨_, rfl⟩
  · exact ⟨_, if_neg hodd⟩

/-! ## Runs from the start -/

/-- What every state reached from the start keeps: the known addresses are distinct and
at most 200, the filter holds one value more than there are addresses up to its 200,
and the offset is within the allowed adjustment. -/
structure TimeDataState.Inv (maxTimeAdjustment : Int) (st : TimeDataState α) : Prop where
  nodup : st.setKnown.Nodup
  length_le : st.setKnown.length ≤ PALLADIUM_TIMEDATA_MAX_SAMPLES
  valid : st.vTimeOffsets.Valid
  nSize_eq : st.vTimeOffsets.nSize = PALLADIUM_TIMEDATA_MAX_SAMPLES
  size_eq : st.vTimeOffsets.size = min (st.setKnown.length + 1) PALLADIUM_TIMEDATA_MAX_SAMPLES
  offset_le : |st.nTimeOffset| ≤ max 0 maxTimeAdjustment

omit [DecidableEq α] in
theorem TimeDataState.Inv_init (m : Int) : (TimeDataState.init : TimeDataState α).Inv m where
  nodup := List.nodup_nil
  length_le := Nat.zero_le _
  valid := CMedianFilter.Valid_init (by decide) 0
  nSize_eq := rfl
  size_eq := rfl
  offset_le := by rw [init_nTimeOffset, abs_zero]; exact le_max_left 0 m

omit [DecidableEq α] in
/-- The size of the filter after a new sample. -/
theorem size_input_of_Inv {m : Int} {st : TimeDataState α} (hi : st.Inv m) (n : Int) :
    (st.vTimeOffsets.input n).size = min (st.setKnown.length + 1 + 1) PALLADIUM_TIMEDATA_MAX_SAMPLES := by
  have hsize := hi.size_eq
  rw [CMedianFilter.size] at hsize ⊢
  rw [CMedianFilter.length_input hi.valid, hsize, hi.nSize_eq]
  unfold PALLADIUM_TIMEDATA_MAX_SAMPLES
  omega

theorem TimeDataState.Inv.step {m : Int} {st st' : TimeDataState α} {ip : α} {n : Int} {w : Option String}
    (hi : st.Inv m) (h : AddTimeData m st ip n = .ok (st', w)) : st'.Inv m := by
  rcases AddTimeData_cases hi.valid h with ⟨-, rfl, -⟩ | ⟨hfull, hmem, hknown, hf, hoff⟩
  · exact hi
  have hlen := hi.length_le
  refine ⟨?nodup, ?length, ?valid, ?nSize, ?size, ?offset⟩
  case nodup => rw [hknown]; exact List.nodup_cons.mpr ⟨hmem, hi.nodup⟩
  case length => rw [hknown, List.length_cons]; omega
  case valid => rw [hf]; exact hi.valid.input n
  case nSize => rw [hf, CMedianFilter.input_nSize, hi.nSize_eq]
  case size => rw [hf, size_input_of_Inv hi, hknown, List.length_cons]
  case offset =>
    -- the offset is kept, set to a median within the bound, or set to 0
    rcases hoff with ⟨-, hoff, -, -⟩ | ⟨-, -, ⟨hle, hoff, -, -⟩ | ⟨-, hoff, -⟩⟩
    · rw [hoff]; exact hi.offset_le
    · rw [hoff]; exact hle
    · rw [hoff, abs_zero]; exact le_max_left 0 m

/-- Every run from a reachable state succeeds and ends in a reachable state. -/
theorem AddTimeDataRun_Inv {m : Int} :
    ∀ (samples : List (α × Int)) (st : TimeDataState α), st.Inv m →
      ∃ st' ws, AddTimeDataRun m st samples = .ok (st', ws) ∧ st'.Inv m
  | [], st, hi => ⟨st, [], rfl, hi⟩
  | (ip, n) :: samples, st, hi => by
    obtain ⟨⟨st₁, w⟩, h₁⟩ := AddTimeData_ok (m := m) hi.valid ip n
    obtain ⟨st', ws, hrun, hi'⟩ := AddTimeDataRun_Inv samples st₁ (hi.step h₁)
    refine ⟨st', w.toList ++ ws, ?_, hi'⟩
    rw [AddTimeDataRun, h₁, ExceptSpec.ok_bind]
    dsimp only
    rw [hrun, ExceptSpec.ok_bind]

/-- A run is a first call and the run after it. -/
theorem AddTimeDataRun_cons {m : Int} {st st' : TimeDataState α} {ip : α} {n : Int}
    {samples : List (α × Int)} {ws : List String}
    (h : AddTimeDataRun m st ((ip, n) :: samples) = .ok (st', ws)) :
    ∃ st₁ w ws₁, AddTimeData m st ip n = .ok (st₁, w) ∧ AddTimeDataRun m st₁ samples = .ok (st', ws₁) ∧
      ws = w.toList ++ ws₁ := by
  rw [AddTimeDataRun] at h
  cases h₁ : AddTimeData m st ip n with
  | error e => rw [h₁, ExceptSpec.error_bind] at h; cases h
  | ok r =>
    obtain ⟨st₁, w⟩ := r
    rw [h₁, ExceptSpec.ok_bind] at h
    dsimp only at h
    cases hrun : AddTimeDataRun m st₁ samples with
    | error e => rw [hrun, ExceptSpec.error_bind] at h; cases h
    | ok r' =>
      obtain ⟨st'', ws₁⟩ := r'
      rw [hrun, ExceptSpec.ok_bind] at h
      cases h
      exact ⟨st₁, w, ws₁, rfl, hrun, rfl⟩

/-! ## The warning -/

/-- A call gives the warning only when it was not given before, and then marks it given. -/
theorem AddTimeData_warning {m : Int} {st st' : TimeDataState α} {ip : α} {n : Int} {w : Option String}
    (hf : st.vTimeOffsets.Valid) (h : AddTimeData m st ip n = .ok (st', w)) :
    w.toList.length + st.fDone.toNat ≤ st'.fDone.toNat ∧ ∀ x ∈ w, x = strMessage := by
  rcases AddTimeData_cases hf h with ⟨-, rfl, rfl⟩ | ⟨-, -, -, -, hoff⟩
  · simp
  rcases hoff with ⟨-, -, hdone, rfl⟩ | ⟨-, -, ⟨-, -, hdone, rfl⟩ | ⟨-, -, ⟨hdone, rfl⟩ | ⟨hwas, hdone, rfl⟩⟩⟩
  · simp [hdone]
  · simp [hdone]
  · simp [hdone]
  · simp [hwas, hdone]

/-- Over a run the warnings given add up to at most the one `fDone` records. -/
theorem AddTimeDataRun_warnings {m : Int} :
    ∀ (samples : List (α × Int)) (st st' : TimeDataState α) (ws : List String), st.Inv m →
      AddTimeDataRun m st samples = .ok (st', ws) →
      ws.length + st.fDone.toNat ≤ st'.fDone.toNat ∧ ∀ x ∈ ws, x = strMessage
  | [], st, st', ws, _, h => by
    cases h
    simp
  | (ip, n) :: samples, st, st', ws, hi, h => by
    obtain ⟨st₁, w, ws₁, h₁, hrun, rfl⟩ := AddTimeDataRun_cons h
    obtain ⟨hcount, hmsg⟩ := AddTimeData_warning hi.valid h₁
    obtain ⟨hcount', hmsg'⟩ := AddTimeDataRun_warnings samples st₁ st' ws₁ (hi.step h₁) hrun
    refine ⟨?_, ?_⟩
    · rw [List.length_append]
      omega
    · intro x hx
      rcases List.mem_append.mp hx with hx | hx
      · exact hmsg x (Option.mem_toList.mp hx)
      · exact hmsg' x hx

/-- Once the filter holds 200 values it keeps an even number of them, so no call moves
the offset again. -/
theorem AddTimeData_offset_of_full {m : Int} {st st' : TimeDataState α} {ip : α} {n : Int} {w : Option String}
    (hi : st.Inv m) (hfull : st.vTimeOffsets.size = PALLADIUM_TIMEDATA_MAX_SAMPLES)
    (h : AddTimeData m st ip n = .ok (st', w)) :
    st'.nTimeOffset = st.nTimeOffset ∧ st'.vTimeOffsets.size = PALLADIUM_TIMEDATA_MAX_SAMPLES := by
  rcases AddTimeData_cases hi.valid h with ⟨-, rfl, -⟩ | ⟨-, -, -, hf, hoff⟩
  · exact ⟨rfl, hfull⟩
  have hsize : (st.vTimeOffsets.input n).size = PALLADIUM_TIMEDATA_MAX_SAMPLES := by
    have := hi.size_eq
    rw [size_input_of_Inv hi]
    unfold PALLADIUM_TIMEDATA_MAX_SAMPLES at *
    omega
  rw [hf, hsize]
  rcases hoff with ⟨-, hoff, -, -⟩ | ⟨-, hodd, -⟩
  · exact ⟨hoff, rfl⟩
  · rw [hsize] at hodd
    exact absurd hodd (by decide)

theorem AddTimeDataRun_offset_of_full {m : Int} :
    ∀ (samples : List (α × Int)) (st st' : TimeDataState α) (ws : List String), st.Inv m →
      st.vTimeOffsets.size = PALLADIUM_TIMEDATA_MAX_SAMPLES →
      AddTimeDataRun m st samples = .ok (st', ws) → st'.nTimeOffset = st.nTimeOffset
  | [], st, st', ws, _, _, h => by
    cases h
    rfl
  | (ip, n) :: samples, st, st', ws, hi, hfull, h => by
    obtain ⟨st₁, w, ws₁, h₁, hrun, -⟩ := AddTimeDataRun_cons h
    obtain ⟨hoff, hfull₁⟩ := AddTimeData_offset_of_full hi hfull h₁
    rw [AddTimeDataRun_offset_of_full samples st₁ st' ws₁ (hi.step h₁) hfull₁ hrun, hoff]

/-- When the call takes a new sample into an odd window of which more than half lies in
an interval `[lo, hi]` around zero, the offset it sets lies in that interval: a
minority of peers cannot move the clock outside the range of the others. -/
theorem AddTimeData_offset_of_majority {m lo hi : Int} {st st' : TimeDataState α} {ip : α} {n : Int}
    {w : Option String} (hf : st.vTimeOffsets.Valid) (h : AddTimeData m st ip n = .ok (st', w))
    (hnew : ip ∉ st.setKnown) (hroom : st.setKnown.length ≠ PALLADIUM_TIMEDATA_MAX_SAMPLES)
    (hodd : 5 ≤ st'.vTimeOffsets.size ∧ st'.vTimeOffsets.size % 2 = 1) (hlo : lo ≤ 0) (hhi : 0 ≤ hi)
    (hmaj : st'.vTimeOffsets.size < 2 * countIn lo hi st'.vTimeOffsets.vValues) :
    lo ≤ st'.nTimeOffset ∧ st'.nTimeOffset ≤ hi := by
  rcases AddTimeData_cases hf h with ⟨hguard, -, -⟩ | ⟨-, -, -, hfilter, hoff⟩
  · rcases hguard with hguard | hguard
    · exact absurd hguard hroom
    · exact absurd hguard hnew
  rw [hfilter] at hodd hmaj
  rcases hoff with ⟨hno, -, -, -⟩ | ⟨-, -, hupd⟩
  · exact absurd hodd hno
  -- the median is the middle of the sorted window
  have hmid := sortLE_middle_mem_of_majority 0 hmaj
  rw [← CMedianFilter.size] at hmid
  rcases hupd with ⟨-, hoff, -, -⟩ | ⟨-, hoff, -⟩
  · rw [hoff]
    exact hmid
  · rw [hoff]
    exact ⟨hlo, hhi⟩

/-- Three peers had reported 10, 20 and 30 seconds; a fourth reports 40, and four of the
five values of the window lie in `[0, 30]`. -/
theorem AddTimeData_offset_of_majority_four :
    (⟨[0, 10, 20, 30], [0, 10, 20, 30], 200⟩ : CMedianFilter).Valid ∧
      AddTimeData 4200 (⟨[1, 2, 3], ⟨[0, 10, 20, 30], [0, 10, 20, 30], 200⟩, 0, false⟩ : TimeDataState Nat) 4 40 =
        .ok (⟨[4, 1, 2, 3], ⟨[0, 10, 20, 30, 40], [0, 10, 20, 30, 40], 200⟩, 20, false⟩, none) ∧
      (4 : Nat) ∉ [1, 2, 3] ∧ [1, 2, 3].length ≠ PALLADIUM_TIMEDATA_MAX_SAMPLES ∧
      (5 ≤ (⟨[0, 10, 20, 30, 40], [0, 10, 20, 30, 40], 200⟩ : CMedianFilter).size ∧
        (⟨[0, 10, 20, 30, 40], [0, 10, 20, 30, 40], 200⟩ : CMedianFilter).size % 2 = 1) ∧
      (0 : Int) ≤ 0 ∧ (0 : Int) ≤ 30 ∧
      (⟨[0, 10, 20, 30, 40], [0, 10, 20, 30, 40], 200⟩ : CMedianFilter).size <
        2 * countIn 0 30 [0, 10, 20, 30, 40] ∧
      0 ≤ (20 : Int) ∧ (20 : Int) ≤ 30 := by
  have hf : (⟨[0, 10, 20, 30], [0, 10, 20, 30], 200⟩ : CMedianFilter).Valid := ⟨by decide, by simp, by decide⟩
  have h : AddTimeData 4200 (⟨[1, 2, 3], ⟨[0, 10, 20, 30], [0, 10, 20, 30], 200⟩, 0, false⟩ : TimeDataState Nat)
      4 40 = .ok (⟨[4, 1, 2, 3], ⟨[0, 10, 20, 30, 40], [0, 10, 20, 30, 40], 200⟩, 20, false⟩, none) := by
    decide
  have hodd : 5 ≤ (⟨[0, 10, 20, 30, 40], [0, 10, 20, 30, 40], 200⟩ : CMedianFilter).size ∧
      (⟨[0, 10, 20, 30, 40], [0, 10, 20, 30, 40], 200⟩ : CMedianFilter).size % 2 = 1 := by decide
  have hmaj : (⟨[0, 10, 20, 30, 40], [0, 10, 20, 30, 40], 200⟩ : CMedianFilter).size <
      2 * countIn 0 30 [0, 10, 20, 30, 40] := by decide
  exact ⟨hf, h, by decide, by decide, hodd, le_refl 0, by decide, hmaj,
    AddTimeData_offset_of_majority hf h (by decide) (by decide) hodd (le_refl 0) (by decide) hmaj⟩

end Palladium.TimeData
