import Mathlib

/-!
# Reading a byte stream

A reader consumes bytes from the front of a stream and may fail, as a
`StateT` over `Except String`. A decoder reads back an encoding when, from
the encoding followed by any other bytes, it returns the value and leaves
exactly the other bytes; `Decodes` names that. Round trips of composite
formats then follow from those of their parts by `Decodes.bind`.
-/

namespace ByteStream

set_option autoImplicit false

/-- A reader of a byte stream. -/
abbrev Reader (α : Type) := StateT (List UInt8) (Except String) α

/-- Read one byte; the end of the stream is an error. -/
def readByte : Reader UInt8 := fun
  | b :: rest => .ok (b, rest)
  | [] => .error "end of data"

/-- Read `n` bytes in stream order. -/
def readBytes : Nat → Reader (List UInt8)
  | 0 => pure []
  | n + 1 => do
    let b ← readByte
    let bs ← readBytes n
    pure (b :: bs)

/-- Read `n` values with `d`, in stream order. -/
def readN {α : Type} (d : Reader α) : Nat → Reader (List α)
  | 0 => pure []
  | n + 1 => do
    let a ← d
    let as ← readN d n
    pure (a :: as)

/-- Write values one after another; the first failure ends the write. -/
def writeAll {α : Type} (enc : α → Except String (List UInt8)) : List α → Except String (List UInt8)
  | [] => .ok []
  | x :: xs => do
    let b ← enc x
    let bs ← writeAll enc xs
    pure (b ++ bs)

/-- Read `n` values with `d`, each from the state that the read before it
left: a formatter that keeps a state between the elements of a vector. -/
def readNWith {σ α : Type} (d : σ → Reader (α × σ)) : σ → Nat → Reader (List α)
  | _, 0 => pure []
  | s, n + 1 => do
    let r ← d s
    let as ← readNWith d r.2 n
    pure (r.1 :: as)

/-- Write values one after another, each from the state that the write
before it left; the first failure ends the write. -/
def writeAllWith {σ α : Type} (enc : σ → α → Except String (List UInt8 × σ)) :
    σ → List α → Except String (List UInt8)
  | _, [] => .ok []
  | s, x :: xs => do
    let r ← enc s x
    let bs ← writeAllWith enc r.2 xs
    pure (r.1 ++ bs)

/-- The `k` bytes of `n`, the least significant first. -/
def writeLE : Nat → Nat → List UInt8
  | 0, _ => []
  | k + 1, n => UInt8.ofNat (n % 256) :: writeLE k (n / 256)

/-- Read a `k`-byte little-endian number. -/
def readLE : Nat → Reader Nat
  | 0 => pure 0
  | k + 1 => do
    let b ← readByte
    let n ← readLE k
    pure (b.toNat + 256 * n)

/-- Skip `n` bytes. -/
def ignore (n : Nat) : Reader Unit := do
  let _ ← readBytes n
  pure ()

/-- `dec` reads `a` back from `bytes`, whatever follows them. -/
def Decodes {α : Type} (dec : Reader α) (bytes : List UInt8) (a : α) : Prop :=
  ∀ rest : List UInt8, dec.run (bytes ++ rest) = .ok (a, rest)

variable {α β : Type}

theorem Decodes.pure (a : α) : Decodes (Pure.pure a : Reader α) [] a := fun _ => rfl

/-- Sequencing: the bytes of the first part, then those of the second part
that the first part's value selects. -/
theorem Decodes.bind {d₁ : Reader α} {d₂ : α → Reader β} {b₁ b₂ : List UInt8} {a : α} {c : β}
    (h₁ : Decodes d₁ b₁ a) (h₂ : Decodes (d₂ a) b₂ c) : Decodes (d₁ >>= d₂) (b₁ ++ b₂) c := by
  intro rest
  rw [StateT.run_bind, List.append_assoc, h₁ (b₂ ++ rest)]
  exact h₂ rest

/-- Sequencing with a second part that does not use the first one's value. -/
theorem Decodes.seq {d₁ : Reader α} {d₂ : Reader β} {b₁ b₂ : List UInt8} {a : α} {c : β}
    (h₁ : Decodes d₁ b₁ a) (h₂ : Decodes d₂ b₂ c) : Decodes (d₁ >>= fun _ => d₂) (b₁ ++ b₂) c :=
  h₁.bind h₂

/-- A reader followed by a pure function of its value. -/
theorem Decodes.bind_pure {d : Reader α} {b : List UInt8} {a : α} (h : Decodes d b a) (f : α → β) :
    Decodes (d >>= fun x => Pure.pure (f x)) b (f a) := by
  intro rest
  rw [StateT.run_bind, h rest]
  rfl

theorem Decodes.of_eq {d : Reader α} {b : List UInt8} {a a' : α} (h : Decodes d b a) (ha : a = a') :
    Decodes d b a' := ha ▸ h

theorem Decodes.map {d : Reader α} {b : List UInt8} {a : α} (h : Decodes d b a) (f : α → β) :
    Decodes (f <$> d) b (f a) := by
  intro rest
  rw [StateT.run_map, h rest]
  rfl

theorem Decodes.lift {x : Except String α} {a : α} (h : x = .ok a) : Decodes (StateT.lift x : Reader α) [] a := by
  intro rest
  rw [h]
  rfl

theorem Decodes.congr {d : Reader α} {b b' : List UInt8} {a : α} (h : Decodes d b a) (hb : b = b') :
    Decodes d b' a := hb ▸ h

theorem readByte_decodes (b : UInt8) : Decodes readByte [b] b := fun _ => rfl

theorem readBytes_decodes : ∀ bs : List UInt8, Decodes (readBytes bs.length) bs bs
  | [] => Decodes.pure []
  | b :: bs => by
    have htail : Decodes (readBytes bs.length >>= fun bs' => (Pure.pure (b :: bs') : Reader _))
        (bs ++ []) (b :: bs) :=
      (readBytes_decodes bs).bind (Decodes.pure (b :: bs))
    exact (readByte_decodes b).bind (htail.congr (List.append_nil bs))

theorem ignore_decodes (bs : List UInt8) : Decodes (ignore bs.length) bs () :=
  ((readBytes_decodes bs).bind (Decodes.pure ())).congr (List.append_nil bs)

/-- A sequence of values, each read back by `d` from what `enc` writes, is
read back by `readN d` from what `writeAll enc` writes. -/
theorem writeAll_decodes {d : Reader α} {enc : α → Except String (List UInt8)} :
    ∀ xs : List α, (∀ x ∈ xs, ∃ b, enc x = .ok b ∧ Decodes d b x) →
      ∃ bytes, writeAll enc xs = .ok bytes ∧ Decodes (readN d xs.length) bytes xs
  | [], _ => ⟨[], rfl, Decodes.pure []⟩
  | x :: xs, h => by
    obtain ⟨b, hb, hdec⟩ := h x List.mem_cons_self
    obtain ⟨bs, hbs, hdecs⟩ := writeAll_decodes xs fun y hy => h y (List.mem_cons_of_mem x hy)
    refine ⟨b ++ bs, by rw [writeAll, hb, hbs]; rfl, ?_⟩
    exact hdec.bind (hdecs.bind_pure (fun as => x :: as))

/-- A stateful encoder whose every step `d` reads back from the same state
is read back as a whole: the writer and the reader carry the same state from
element to element. -/
theorem writeAllWith_decodes {σ : Type} {d : σ → Reader (α × σ)} {enc : σ → α → Except String (List UInt8 × σ)}
    (h : ∀ s x b s', enc s x = .ok (b, s') → Decodes (d s) b (x, s')) :
    ∀ (s : σ) (xs : List α) (bytes : List UInt8),
      writeAllWith enc s xs = .ok bytes → Decodes (readNWith d s xs.length) bytes xs
  | _, [], bytes, hw => by
    cases hw
    exact Decodes.pure []
  | s, x :: xs, bytes, hw => by
    -- the write of the head and that of the tail both succeeded
    cases hx : enc s x with
    | error e =>
      rw [writeAllWith, hx] at hw
      cases hw
    | ok r =>
      cases hxs : writeAllWith enc r.2 xs with
      | error e =>
        rw [writeAllWith, hx] at hw
        change (writeAllWith enc r.2 xs >>= fun bs => pure (r.1 ++ bs)) = _ at hw
        rw [hxs] at hw
        cases hw
      | ok bs =>
        rw [writeAllWith, hx] at hw
        change (writeAllWith enc r.2 xs >>= fun bs => pure (r.1 ++ bs)) = _ at hw
        rw [hxs] at hw
        cases hw
        have hrest := (writeAllWith_decodes h r.2 xs bs hxs).bind_pure (fun as => x :: as)
        exact (h s x r.1 r.2 hx).bind hrest

/-- Values written one after another by a total encoder are read back by
`readN`. -/
theorem readN_decodes_flatMap {d : Reader α} {enc : α → List UInt8} :
    ∀ xs : List α, (∀ x ∈ xs, Decodes d (enc x) x) → Decodes (readN d xs.length) (xs.flatMap enc) xs
  | [], _ => Decodes.pure []
  | x :: xs, h => by
    have hrest := (readN_decodes_flatMap xs fun y hy => h y (List.mem_cons_of_mem x hy)).bind_pure
      (fun as => x :: as)
    exact (h x List.mem_cons_self).bind hrest

theorem readLE_decodes : ∀ (k n : Nat), n < 256 ^ k → Decodes (readLE k) (writeLE k n) n
  | 0, n, h => by
    rw [Nat.pow_zero, Nat.lt_one_iff] at h
    subst h
    exact Decodes.pure 0
  | k + 1, n, h => by
    have hhigh : n / 256 < 256 ^ k := by
      rw [Nat.div_lt_iff_lt_mul (by decide), ← Nat.pow_succ]
      exact h
    have hlow : (UInt8.ofNat (n % 256)).toNat = n % 256 := by simp
    have hrest := (readLE_decodes k (n / 256) hhigh).bind_pure fun m => (UInt8.ofNat (n % 256)).toNat + 256 * m
    exact (readByte_decodes _).bind (hrest.of_eq (by rw [hlow, Nat.mod_add_div]))

/-! The other direction: what a reader that succeeds has consumed. -/

/-- A sequence that succeeds: its first part succeeds on the stream and its
second part on what the first left. -/
theorem run_bind_ok {d₁ : Reader α} {d₂ : α → Reader β} {bs rest : List UInt8} {c : β}
    (h : (d₁ >>= d₂).run bs = .ok (c, rest)) :
    ∃ a mid, d₁.run bs = .ok (a, mid) ∧ (d₂ a).run mid = .ok (c, rest) := by
  rw [StateT.run_bind] at h
  cases hd : d₁.run bs with
  | error e =>
    rw [hd] at h
    cases h
  | ok p =>
    rw [hd] at h
    exact ⟨p.1, p.2, rfl, h⟩

theorem run_pure_ok {a c : α} {bs rest : List UInt8} (h : (Pure.pure a : Reader α).run bs = .ok (c, rest)) :
    c = a ∧ rest = bs := by
  cases h
  exact ⟨rfl, rfl⟩

theorem readByte_ok {bs rest : List UInt8} {b : UInt8} (h : readByte.run bs = .ok (b, rest)) :
    bs = b :: rest := by
  cases bs with
  | nil => cases h
  | cons b' bs' =>
    cases h
    rfl

/-- A check that passes reads nothing and returns its value. -/
theorem run_check_ok {c : Prop} [Decidable c] {e : String} {n m : α} {bs rest : List UInt8}
    (h : (if c then throw e else Pure.pure n : Reader α).run bs = .ok (m, rest)) :
    ¬c ∧ m = n ∧ rest = bs := by
  by_cases hc : c
  · rw [if_pos hc] at h
    cases h
  · rw [if_neg hc] at h
    exact ⟨hc, run_pure_ok h⟩

/-- `readLE` accepts only what `writeLE` writes: the bytes it consumed are
those of the number it returns, which fits in them. -/
theorem readLE_canonical : ∀ (k : Nat) {bs rest : List UInt8} {n : Nat},
    (readLE k).run bs = .ok (n, rest) → n < 256 ^ k ∧ bs = writeLE k n ++ rest
  | 0, bs, rest, n, h => by
    obtain ⟨rfl, rfl⟩ := run_pure_ok h
    exact ⟨by decide, rfl⟩
  | k + 1, bs, rest, n, h => by
    obtain ⟨b, mid, hb, h₂⟩ := run_bind_ok h
    obtain ⟨m, mid', hm, h₃⟩ := run_bind_ok h₂
    obtain ⟨rfl, rfl⟩ := run_pure_ok h₃
    obtain ⟨hlt, rfl⟩ := readLE_canonical k hm
    have hbyte : b.toNat < 256 := b.toNat_lt
    have hlow : (b.toNat + 256 * m) % 256 = b.toNat := by omega
    have hhigh : (b.toNat + 256 * m) / 256 = m := by omega
    refine ⟨by rw [Nat.pow_succ]; omega, ?_⟩
    rw [readByte_ok hb, writeLE, hlow, hhigh, UInt8.ofNat_toNat]
    rfl

/-- `readBytes` returns the bytes it consumed. -/
theorem readBytes_canonical : ∀ (n : Nat) {bs rest v : List UInt8},
    (readBytes n).run bs = .ok (v, rest) → v.length = n ∧ bs = v ++ rest
  | 0, bs, rest, v, h => by
    obtain ⟨rfl, rfl⟩ := run_pure_ok h
    exact ⟨rfl, rfl⟩
  | n + 1, bs, rest, v, h => by
    obtain ⟨b, mid, hb, h₂⟩ := run_bind_ok h
    obtain ⟨v', mid', hv', h₃⟩ := run_bind_ok h₂
    obtain ⟨rfl, rfl⟩ := run_pure_ok h₃
    obtain ⟨hlen, rfl⟩ := readBytes_canonical n hv'
    exact ⟨by rw [List.length_cons, hlen], by rw [readByte_ok hb]; rfl⟩

/-- `readN` with a reader that consumes what an encoder writes consumes the
encodings of the values it returns. -/
theorem readN_canonical {d : Reader α} {enc : α → List UInt8}
    (hd : ∀ {bs rest : List UInt8} {a : α}, d.run bs = .ok (a, rest) → bs = enc a ++ rest) :
    ∀ (n : Nat) {bs rest : List UInt8} {xs : List α},
      (readN d n).run bs = .ok (xs, rest) → xs.length = n ∧ bs = xs.flatMap enc ++ rest
  | 0, bs, rest, xs, h => by
    obtain ⟨rfl, rfl⟩ := run_pure_ok h
    exact ⟨rfl, rfl⟩
  | n + 1, bs, rest, xs, h => by
    obtain ⟨a, mid, ha, h₂⟩ := run_bind_ok h
    obtain ⟨xs', mid', hxs, h₃⟩ := run_bind_ok h₂
    obtain ⟨rfl, rfl⟩ := run_pure_ok h₃
    obtain ⟨hlen, rfl⟩ := readN_canonical hd n hxs
    exact ⟨by rw [List.length_cons, hlen], by rw [hd ha, List.flatMap_cons, List.append_assoc]⟩

/-- Every value `readN` returns is one `d` returned. -/
theorem readN_forall {d : Reader α} {P : α → Prop}
    (hd : ∀ {bs rest : List UInt8} {a : α}, d.run bs = .ok (a, rest) → P a) :
    ∀ (n : Nat) {bs rest : List UInt8} {xs : List α}, (readN d n).run bs = .ok (xs, rest) → ∀ x ∈ xs, P x
  | 0, bs, rest, xs, h => by
    obtain ⟨rfl, rfl⟩ := run_pure_ok h
    exact fun _ hx => absurd hx List.not_mem_nil
  | n + 1, bs, rest, xs, h => by
    obtain ⟨a, mid, ha, h₂⟩ := run_bind_ok h
    obtain ⟨xs', mid', hxs, h₃⟩ := run_bind_ok h₂
    obtain ⟨rfl, rfl⟩ := run_pure_ok h₃
    intro x hx
    rcases List.mem_cons.mp hx with rfl | hx
    · exact hd ha
    · exact readN_forall hd n hxs x hx

/-- A byte layout: a list is a fixed prefix, a middle part and a fixed
suffix when its length adds up and it agrees with each part at its offset. -/
theorem eq_append_of_frame {γ : Type} {l pre mid post : List γ}
    (hlen : l.length = pre.length + mid.length + post.length)
    (hpre : ∀ i < pre.length, l[i]? = pre[i]?)
    (hmid : (l.drop pre.length).take mid.length = mid)
    (hpost : ∀ i < post.length, l[pre.length + mid.length + i]? = post[i]?) :
    l = pre ++ mid ++ post := by
  apply List.ext_getElem?
  intro j
  by_cases h1 : j < pre.length
  · rw [hpre j h1, List.append_assoc, List.getElem?_append_left h1]
  by_cases h2 : j < pre.length + mid.length
  · rw [List.getElem?_append_left (by simp; omega), List.getElem?_append_right (by omega), ← hmid,
      List.getElem?_take_of_lt (by omega), List.getElem?_drop]
    congr 1
    omega
  by_cases h3 : j < pre.length + mid.length + post.length
  · have := hpost (j - pre.length - mid.length) (by omega)
    rw [show pre.length + mid.length + (j - pre.length - mid.length) = j by omega] at this
    rw [this, List.getElem?_append_right (by simp; omega)]
    congr 1
    simp
    omega
  · rw [List.getElem?_eq_none (by omega), List.getElem?_eq_none (by simp; omega)]

end ByteStream
