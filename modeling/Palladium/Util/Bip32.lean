import Palladium.Util.Strencodings

/-!
# BIP32 key paths

`ParseHDKeypath` and `WriteHDKeypath` (`util/bip32.cpp`) on strings as the
bytes they hold. The parser splits at `/` as `std::getline` does, skips one
leading `m`, and reads every other item as a number from `ParseUInt32` with
an optional tick at its end, which ORs in the hardened bit `0x80000000`. The
printer writes `m`, then for each index `/`, the index without its top bit
and a tick if that bit is set.

Printing and parsing back gives every path. The other way round the parser
does not check that a number is below `2 ^ 31`: `m/2147483648` is accepted,
as the same path as `m/0'`. For strings whose numbers are below `2 ^ 31`,
printing the parsed path gives the string's items again without leading
zeros.
-/

namespace Palladium.Util.Bip32

open Decimal

set_option autoImplicit false

/-! ## The source -/

/-- `while (std::getline(ss, item, delim))`: the items between delimiters,
`cur` the item read so far. At the end of the stream an item is returned
only if a character of it was read, so a final delimiter does not start an
empty item. -/
def getlineItems (delim : UInt8) (cur : List UInt8) : List UInt8 → List (List UInt8)
  | [] => if cur = [] then [] else [cur]
  | c :: s => if c = delim then cur :: getlineItems delim [] s else getlineItems delim (cur ++ [c]) s

/-- The hardened tick of an item: it may only end the item, and then it
sets the hardened bit and is dropped. The bit, and what is left. -/
def tickSplit (item : List UInt8) : Option (UInt32 × List UInt8) :=
  match item.idxOf? 39 with
  | none => some (0, item)
  | some pos => if pos ≠ item.length - 1 then none else some (0x80000000, item.take (item.length - 1))

/-- The body of the loop of `ParseHDKeypath` for an item other than `m`:
after the tick only digits may be left, and `ParseUInt32` reads them. -/
def parseIndex (item : List UInt8) : Option UInt32 :=
  match tickSplit item with
  | none => none
  | some (path, number_str) =>
    if number_str.all isDigit then (ParseUInt32 number_str).map (path ||| ·) else none

/-- The loop of `ParseHDKeypath` over the items, `first` until one has been
read: an `m` is skipped only as the first item. -/
def parseLoop : List (List UInt8) → Bool → List UInt32 → Bool × List UInt32
  | [], _, keypath => (true, keypath)
  | item :: items, first, keypath =>
    if item = [109] then
      if first then parseLoop items false keypath else (false, keypath)
    else
      match parseIndex item with
      | none => (false, keypath)
      | some path => parseLoop items false (keypath ++ [path])

/-- `ParseHDKeypath`: whether it succeeds, and `keypath` with the indexes it
appended. -/
def ParseHDKeypath (keypath_str : List UInt8) (keypath : List UInt32) : Bool × List UInt32 :=
  parseLoop (getlineItems 47 [] keypath_str) true keypath

/-- What `FormatHDKeypath` writes for one index after its `/`: the index
without its top bit (`(i << 1) >> 1`, by `%i`) and a tick if that bit is set. -/
def indexString (i : UInt32) : List UInt8 :=
  digits ((i <<< 1) >>> 1).toNat ++ (if i >>> 31 ≠ 0 then [39] else [])

/-- `FormatHDKeypath`. -/
def FormatHDKeypath (path : List UInt32) : List UInt8 :=
  path.foldl (fun ret i => ret ++ (47 :: indexString i)) []

/-- `WriteHDKeypath`. -/
def WriteHDKeypath (keypath : List UInt32) : List UInt8 :=
  109 :: FormatHDKeypath keypath

/-! ## Splitting at `/` -/

section Getline

variable {delim : UInt8}

theorem getlineItems_append_of_not_mem :
    ∀ {it : List UInt8} (cur s : List UInt8), delim ∉ it →
      getlineItems delim cur (it ++ s) = getlineItems delim (cur ++ it) s
  | [], cur, s, _ => by simp
  | c :: it, cur, s, h => by
    have hc : c ≠ delim := fun hc => h (by simp [hc])
    rw [List.cons_append, getlineItems, if_neg hc,
      getlineItems_append_of_not_mem (cur ++ [c]) s (fun h' => h (List.mem_cons_of_mem c h'))]
    simp

/-- Items joined by the delimiter, each non-empty and without it, split back. -/
theorem getlineItems_join :
    ∀ {items : List (List UInt8)} {cur : List UInt8}, cur ≠ [] →
      (∀ it ∈ items, it ≠ [] ∧ delim ∉ it) →
      getlineItems delim cur (items.map (delim :: ·)).flatten = cur :: items
  | [], cur, hcur, _ => by simp [getlineItems, hcur]
  | it :: items, cur, hcur, h => by
    obtain ⟨hne, hnot⟩ := h it (by simp)
    rw [List.map_cons, List.flatten_cons, List.cons_append, getlineItems, if_pos rfl,
      getlineItems_append_of_not_mem [] _ hnot, List.nil_append,
      getlineItems_join hne fun it' h' => h it' (by simp [h'])]

end Getline

/-! ## The top bit -/

theorem toNat_low (i : UInt32) : ((i <<< 1) >>> 1).toNat = i.toNat % 2 ^ 31 := by
  have := i.toNat_lt
  simp only [UInt32.toNat_shiftRight, UInt32.toNat_shiftLeft, UInt32.reduceToNat, Nat.reduceMod,
    Nat.shiftLeft_eq, Nat.shiftRight_eq_div_pow]
  omega

theorem hardened_iff (i : UInt32) : i >>> 31 ≠ 0 ↔ 2 ^ 31 ≤ i.toNat := by
  have := i.toNat_lt
  rw [ne_eq, ← UInt32.toNat_inj]
  simp only [UInt32.toNat_shiftRight, UInt32.reduceToNat, Nat.reduceMod, Nat.shiftRight_eq_div_pow]
  omega

/-- The hardened bit ORed with a number below it adds. -/
theorem toNat_hardened_or {n : UInt32} (h : n.toNat < 2 ^ 31) :
    (0x80000000 ||| n).toNat = 2 ^ 31 + n.toNat := by
  rw [UInt32.toNat_or]
  simp only [UInt32.reduceToNat]
  rw [show 2147483648 = 1 <<< 31 from rfl, ← Nat.shiftLeft_add_eq_or_of_lt h]
  rfl

/-! ## Printing, then parsing -/

theorem FormatHDKeypath_eq (path : List UInt32) :
    FormatHDKeypath path = (path.map fun i => 47 :: indexString i).flatten := by
  suffices ∀ acc, path.foldl (fun ret i => ret ++ (47 :: indexString i)) acc =
      acc ++ (path.map fun i => 47 :: indexString i).flatten from (this []).trans (List.nil_append _)
  induction path with
  | nil => simp
  | cons i path ih =>
    intro acc
    rw [List.foldl_cons, ih, List.map_cons, List.flatten_cons, List.append_assoc]

theorem indexString_isDigit_head (i : UInt32) :
    ∃ c t, indexString i = c :: t ∧ isDigit c = true := by
  obtain ⟨c, t, ht⟩ := List.exists_cons_of_ne_nil (digits_ne_nil ((i <<< 1) >>> 1).toNat)
  refine ⟨c, t ++ (if i >>> 31 ≠ 0 then [39] else []), ?_, digits_isDigit ((i <<< 1) >>> 1).toNat c ?_⟩
  · rw [indexString, ht, List.cons_append]
  · rw [ht]
    exact List.mem_cons_self

/-- An index is written without `/`, and never as the item `m`. -/
theorem indexString_item (i : UInt32) : indexString i ≠ [] ∧ 47 ∉ indexString i ∧ indexString i ≠ [109] := by
  obtain ⟨c, t, ht, hc⟩ := indexString_isDigit_head i
  refine ⟨by simp [ht], ?_, ?_⟩
  · rw [indexString, List.mem_append]
    rintro (h | h)
    · exact absurd (digits_isDigit _ 47 h) (by decide)
    · split at h <;> simp_all
  · rw [ht]
    rintro ⟨⟩
    exact absurd hc (by decide)

theorem tickSplit_hardened {ds : List UInt8} (h : 39 ∉ ds) : tickSplit (ds ++ [39]) = some (0x80000000, ds) := by
  have hidx : (ds ++ [39]).idxOf? 39 = some ds.length := by
    rw [List.idxOf?_eq_some_iff]
    refine ⟨by simp, by simp, fun j hj hget => h ?_⟩
    rw [List.getElem_append_left hj] at hget
    exact hget ▸ List.getElem_mem _
  rw [tickSplit, hidx]
  simp

theorem tickSplit_plain {ds : List UInt8} (h : 39 ∉ ds) : tickSplit ds = some (0, ds) := by
  rw [tickSplit, List.idxOf?_eq_none_iff.mpr h]

/-- Every index is read back from what `FormatHDKeypath` writes for it. -/
theorem parseIndex_indexString (i : UInt32) : parseIndex (indexString i) = some i := by
  have hlow := toNat_low i
  have hds := digits_isDigit ((i <<< 1) >>> 1).toNat
  have hnot : 39 ∉ digits ((i <<< 1) >>> 1).toNat := fun h => absurd (hds 39 h) (by decide)
  have hnum : ParseUInt32 (digits ((i <<< 1) >>> 1).toNat) = some ((i <<< 1) >>> 1) := by
    rw [ParseUInt32_digits (digits_ne_nil _) hds, value_digits, if_pos (by omega)]
    exact congrArg some UInt32.ofNat_toNat
  have hi := i.toNat_lt
  by_cases hhard : i >>> 31 ≠ 0
  · -- the tick is the last character, and sets the bit the number lacks
    rw [indexString, if_pos hhard, parseIndex, tickSplit_hardened hnot]
    dsimp only
    rw [if_pos (List.all_eq_true.mpr hds), hnum, Option.map_some]
    apply congrArg some
    apply UInt32.toNat_inj.mp
    rw [toNat_hardened_or (by omega), hlow]
    have := (hardened_iff i).mp hhard
    omega
  · rw [indexString, if_neg hhard, List.append_nil, parseIndex, tickSplit_plain hnot]
    dsimp only
    rw [if_pos (List.all_eq_true.mpr hds), hnum, Option.map_some]
    apply congrArg some
    apply UInt32.toNat_inj.mp
    rw [UInt32.toNat_or]
    simp only [UInt32.reduceToNat, Nat.zero_or]
    have := (hardened_iff i).not.mp hhard
    omega

theorem parseLoop_indexStrings (p : List UInt32) :
    ∀ keypath, parseLoop (p.map indexString) false keypath = (true, keypath ++ p) := by
  induction p with
  | nil => simp [parseLoop]
  | cons i p ih =>
    intro keypath
    rw [List.map_cons, parseLoop, if_neg (indexString_item i).2.2, parseIndex_indexString]
    simp only [ih, List.append_assoc, List.singleton_append]

/-- `ParseHDKeypath` reads back every path that `WriteHDKeypath` writes. -/
theorem keypath_write_parse (p : List UInt32) : ParseHDKeypath (WriteHDKeypath p) [] = (true, p) := by
  have hsplit : getlineItems 47 [] (WriteHDKeypath p) = [109] :: p.map indexString := by
    have hmap : (p.map fun i => 47 :: indexString i) = (p.map indexString).map (47 :: ·) := by
      rw [List.map_map]
      rfl
    rw [WriteHDKeypath, FormatHDKeypath_eq, hmap, ← List.singleton_append, getlineItems_append_of_not_mem [] _ (by decide), List.nil_append,
      getlineItems_join (by simp)]
    intro it hit
    obtain ⟨i, -, rfl⟩ := List.mem_map.mp hit
    exact ⟨(indexString_item i).1, (indexString_item i).2.1⟩
  rw [ParseHDKeypath, hsplit, parseLoop, if_pos rfl, if_pos rfl, parseLoop_indexStrings, List.nil_append]

/-! ## Parsing, then printing -/

/-- The items of a key path after its optional leading `m`. -/
def indexItems (keypath_str : List UInt8) : List (List UInt8) :=
  let items := getlineItems 47 [] keypath_str
  if items.head? = some [109] then items.tail else items

/-- An item with its number written without leading zeros. -/
def normalizeIndex (item : List UInt8) : List UInt8 :=
  digits (value (item.takeWhile isDigit)) ++ item.dropWhile isDigit

theorem tickSplit_eq_some {item number_str : List UInt8} {path : UInt32}
    (h : tickSplit item = some (path, number_str)) :
    path = 0 ∧ number_str = item ∨ path = 0x80000000 ∧ item = number_str ++ [39] := by
  unfold tickSplit at h
  split at h
  · cases h
    exact .inl ⟨rfl, rfl⟩
  · rename_i pos hpos
    split at h
    · cases h
    · rename_i hlast
      cases h
      -- the tick found is the last character
      obtain ⟨hlt, hget, -⟩ := List.idxOf?_eq_some_iff.mp hpos
      refine .inr ⟨rfl, ?_⟩
      have hlen : pos = item.length - 1 := not_not.mp hlast
      subst hlen
      have hne : item ≠ [] := List.ne_nil_of_length_pos (by omega)
      calc item = item.dropLast ++ [item.getLast hne] := (List.dropLast_append_getLast hne).symm
        _ = item.take (item.length - 1) ++ [39] := by
          rw [List.dropLast_eq_take, List.getLast_eq_getElem, hget]

/-- What `parseIndex` accepts: a non-empty run of digits whose number fits
in 32 bits, with or without a tick after it; the index is the number, with
the hardened bit ORed in for a tick. -/
theorem parseIndex_eq_some {item : List UInt8} {i : UInt32} (h : parseIndex item = some i) :
    ∃ ds, ds ≠ [] ∧ (∀ c ∈ ds, isDigit c = true) ∧ value ds < 2 ^ 32 ∧
      (item = ds ∧ i = (value ds).toUInt32 ∨ item = ds ++ [39] ∧ i = 0x80000000 ||| (value ds).toUInt32) := by
  unfold parseIndex at h
  split at h
  · cases h
  · rename_i path number_str hsplit
    split at h
    · rename_i hall
      have hds := List.all_eq_true.mp hall
      have hne : number_str ≠ [] := by
        rintro rfl
        simp [ParseUInt32, ParsePrechecks] at h
      rw [ParseUInt32_digits hne hds] at h
      split at h
      · rename_i hlt
        simp only [Option.map_some, Option.some.injEq] at h
        refine ⟨number_str, hne, hds, hlt, ?_⟩
        rcases tickSplit_eq_some hsplit with ⟨rfl, rfl⟩ | ⟨rfl, rfl⟩
        · exact .inl ⟨rfl, by rw [← h, UInt32.zero_or]⟩
        · exact .inr ⟨rfl, h.symm⟩
      · cases h
    · cases h

/-- An index read from an item whose number is below `2 ^ 31` is written
back as the item without the leading zeros of its number. -/
theorem indexString_of_parseIndex {item : List UInt8} {i : UInt32} (h : parseIndex item = some i)
    (hlow : value (item.takeWhile isDigit) < 2 ^ 31) : indexString i = normalizeIndex item := by
  obtain ⟨ds, -, hds, -, hcase⟩ := parseIndex_eq_some h
  have htick : ∀ x ∈ [(39 : UInt8)], isDigit x = false := fun x hx => by
    rw [List.mem_singleton.mp hx]
    rfl
  rcases hcase with ⟨hitem, hi⟩ | ⟨hitem, hi⟩ <;> subst item i
  · rw [takeWhile_eq_self hds] at hlow
    have hv : ((value ds).toUInt32).toNat = value ds := by
      rw [UInt32.toNat_ofNat']
      omega
    rw [indexString, normalizeIndex, takeWhile_eq_self hds, dropWhile_eq_nil hds, toNat_low, hv,
      Nat.mod_eq_of_lt hlow, if_neg (by rw [hardened_iff, hv]; omega)]
  · rw [takeWhile_append_of_forall_false htick, takeWhile_eq_self hds] at hlow
    have hv : (0x80000000 ||| (value ds).toUInt32).toNat = 2 ^ 31 + value ds := by
      rw [toNat_hardened_or] <;> rw [UInt32.toNat_ofNat'] <;> omega
    rw [indexString, normalizeIndex, takeWhile_append_of_forall_false htick, takeWhile_eq_self hds,
      List.dropWhile_append_of_pos hds, dropWhile_eq_self htick, toNat_low, hv,
      if_pos (by rw [hardened_iff, hv]; omega), Nat.add_mod_left, Nat.mod_eq_of_lt hlow]

/-- The first item is skipped if it is `m`, and otherwise read as any other. -/
theorem parseLoop_true (items : List (List UInt8)) (keypath : List UInt32) :
    parseLoop items true keypath =
      parseLoop (if items.head? = some [109] then items.tail else items) false keypath := by
  cases items with
  | nil => rfl
  | cons item items =>
    by_cases hm : item = [109]
    · simp [parseLoop, hm]
    · simp [parseLoop, hm]

/-- A successful run of the loop reads every item as an index. -/
theorem parseLoop_ok : ∀ {items : List (List UInt8)} {keypath r : List UInt32},
    parseLoop items false keypath = (true, r) →
      ∃ q, r = keypath ++ q ∧ List.Forall₂ (fun item i => parseIndex item = some i) items q
  | [], keypath, r, h => by
    cases h
    exact ⟨[], by simp, .nil⟩
  | item :: items, keypath, r, h => by
    rw [parseLoop] at h
    split at h
    · simp at h
    · split at h
      · cases h
      · rename_i path hpath
        obtain ⟨q, rfl, hq⟩ := parseLoop_ok h
        exact ⟨path :: q, by simp, .cons hpath hq⟩

/-- On a string that `ParseHDKeypath` accepts and whose numbers are below
`2 ^ 31`, `WriteHDKeypath` of the path gives the string's items again, after
`m`, each without the leading zeros of its number. -/
theorem keypath_parse_write {s : List UInt8} {p : List UInt32} (h : ParseHDKeypath s [] = (true, p))
    (hlow : ∀ item ∈ indexItems s, value (item.takeWhile isDigit) < 2 ^ 31) :
    WriteHDKeypath p = 109 :: ((indexItems s).map fun item => 47 :: normalizeIndex item).flatten := by
  rw [ParseHDKeypath, parseLoop_true] at h
  change parseLoop (indexItems s) false [] = (true, p) at h
  obtain ⟨q, rfl, hq⟩ := parseLoop_ok h
  clear h
  rw [WriteHDKeypath, FormatHDKeypath_eq]
  congr 2
  -- item by item along the loop's reading
  generalize indexItems s = items at hq hlow
  induction hq with
  | nil => rfl
  | @cons item i items q hi _ ih =>
    rw [List.map_cons, List.map_cons, indexString_of_parseIndex hi (hlow item (by simp)),
      ih fun item' h' => hlow item' (by simp [h'])]

end Palladium.Util.Bip32
