/-!
# Where a computation in `Except` ends

`Ends Q P x` says that `x` ends in a value with `P` or in an error with `Q`:
one postcondition for both ways a fallible computation can end. With `Q`
"is not the error `e`" it says that `x` never raises `e`, whatever else it
may reject, and with `P` it says what every success returns.

The rules follow the monad: `pure` and `throw` end as they say, a bind ends
in what its continuation ends in from every value its first part may end
in, and a loop ends in an invariant that every pass keeps.
-/

namespace ExceptSpec

set_option autoImplicit false

variable {ε α β γ δ : Type}

/-! ## `Except`'s operations, evaluated -/

@[simp] theorem pure_eq_ok {a : α} : (pure a : Except ε α) = .ok a := rfl

@[simp] theorem throw_eq_error {e : ε} : (throw e : Except ε α) = .error e := rfl

@[simp] theorem ok_bind {a : α} {f : α → Except ε β} : (Except.ok a >>= f) = f a := rfl

@[simp] theorem error_bind {e : ε} {f : α → Except ε β} : (Except.error e >>= f) = .error e := rfl

@[simp] theorem map_ok {a : α} {f : α → β} : (f <$> (Except.ok a : Except ε α)) = .ok (f a) := rfl

@[simp] theorem map_error {e : ε} {f : α → β} : (f <$> (Except.error e : Except ε α)) = .error e := rfl

/-- A bind that succeeds: its first part succeeded, and the rest from that value. -/
theorem bind_eq_ok {x : Except ε α} {f : α → Except ε β} {b : β} (h : (x >>= f) = .ok b) :
    ∃ a, x = .ok a ∧ f a = .ok b := by
  cases x with
  | error e => cases h
  | ok a => exact ⟨a, rfl, h⟩

/-! ## Where a computation ends -/

/-- `x` ends in a value with `P` or in an error with `Q`. -/
def Ends (Q : ε → Prop) (P : α → Prop) : Except ε α → Prop
  | .ok a => P a
  | .error e => Q e

variable {Q : ε → Prop} {P : α → Prop}

@[simp] theorem ends_ok {a : α} : Ends Q P (.ok a) ↔ P a := Iff.rfl

@[simp] theorem ends_error {e : ε} : Ends Q P (.error e : Except ε α) ↔ Q e := Iff.rfl

/-- A bind ends in what its continuation ends in, from each value its first
part ends in. -/
@[simp] theorem ends_bind {R : β → Prop} {x : Except ε α} {f : α → Except ε β} :
    Ends Q R (x >>= f) ↔ Ends Q (fun a => Ends Q R (f a)) x := by
  cases x <;> rfl

@[simp] theorem ends_map {R : β → Prop} {x : Except ε α} {f : α → β} :
    Ends Q R (f <$> x) ↔ Ends Q (fun a => R (f a)) x := by
  cases x <;> rfl

theorem ends_ite {c : Prop} [Decidable c] {x y : Except ε α} :
    Ends Q P (if c then x else y) ↔ (c → Ends Q P x) ∧ (¬c → Ends Q P y) := by
  by_cases hc : c <;> simp [hc]

theorem Ends.mono {R : α → Prop} {x : Except ε α} (hx : Ends Q P x) (h : ∀ a, P a → R a) : Ends Q R x := by
  cases x with
  | ok a => exact h a hx
  | error e => exact hx

theorem Ends.imp {Q' : ε → Prop} {R : α → Prop} {x : Except ε α} (hx : Ends Q P x) (hq : ∀ e, Q e → Q' e)
    (hp : ∀ a, P a → R a) : Ends Q' R x := by
  cases x with
  | ok a => exact hp a hx
  | error e => exact hq e hx

theorem Ends.bind {R : β → Prop} {x : Except ε α} {f : α → Except ε β} (hx : Ends Q P x)
    (hf : ∀ a, P a → Ends Q R (f a)) : Ends Q R (x >>= f) :=
  ends_bind.mpr (hx.mono hf)

theorem Ends.of_ok {x : Except ε α} {a : α} (hx : Ends Q P x) (h : x = .ok a) : P a := by
  subst h
  exact hx

theorem Ends.of_error {x : Except ε α} {e : ε} (hx : Ends Q P x) (h : x = .error e) : Q e := by
  subst h
  exact hx

/-- The loop rule: `I a l` is about the state `a` with the entries `l` still
to come, and every pass keeps it or ends in an error with `Q`. -/
theorem Ends.foldlM {I : γ → List δ → Prop} {f : γ → δ → Except ε γ}
    (hstep : ∀ a b l, I a (b :: l) → Ends Q (fun a' => I a' l) (f a b)) :
    ∀ (l : List δ) (a : γ), I a l → Ends Q (fun a' => I a' []) (l.foldlM f a)
  | [], a, ha => ha
  | b :: l, a, ha => by
    rw [List.foldlM_cons]
    exact (hstep a b l ha).bind fun a₁ h₁ => Ends.foldlM hstep l a₁ h₁

/-- A loop each of whose passes keeps `P` and checks its entry for `R` ends,
if it gets through, with `P` and every entry checked. -/
theorem Ends.foldlM_forall {P : γ → Prop} {R : δ → Prop} {f : γ → δ → Except ε γ}
    (hstep : ∀ a b, P a → Ends Q (fun a' => P a' ∧ R b) (f a b)) :
    ∀ (l : List δ) (a : γ), P a → Ends Q (fun a' => P a' ∧ ∀ b ∈ l, R b) (l.foldlM f a)
  | [], a, ha => ⟨ha, by simp⟩
  | b :: l, a, ha => by
    rw [List.foldlM_cons]
    exact (hstep a b ha).bind fun a₁ ⟨h₁, hb⟩ =>
      (Ends.foldlM_forall hstep l a₁ h₁).mono fun a' ⟨h', hl⟩ => ⟨h', List.forall_mem_cons.mpr ⟨hb, hl⟩⟩

end ExceptSpec
