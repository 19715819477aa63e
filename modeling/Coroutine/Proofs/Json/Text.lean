import Mathlib
import Coroutine.Json.Reader
import Coroutine.Json.Writer

/-!
# Documents and their text

Reading the text of a document gives the document back, as long as its numbers are integers of 64
bits. Floats are left out: writing and reading one goes through decimal digits, and the last digit
may differ.

Every reader is shown to read what was written and to leave what follows. What follows a number
matters, since a digit, a point or an exponent would be taken for a part of it: `Ends`.
-/

namespace Coroutine.Json

variable {c : Char} {r : List Char} {js : List Json} {fs : List (String × Json)} {j : Json}

/-! ## Strings -/

/-- A control character is written with four digits, of which the first two are zeros. -/
theorem exists_hexUnit? : ∀ n < 32, ∃ a b,
    List.replicate (4 - (Nat.toDigits 16 n).length) '0' ++ Nat.toDigits 16 n = ['0', '0', a, b] ∧
      hexUnit? '0' '0' a b = some n := by
  intro n hn
  interval_cases n <;> exact ⟨_, _, rfl, rfl⟩

/-- A plain character stands for itself. -/
theorem readString_plain {acc cs : List Char} (hquote : c ≠ '"') (hslash : c ≠ '\\')
    (hc : ¬ c.toNat < 0x20) : readString acc (c :: cs) = readString (c :: acc) cs := by
  rw [readString.eq_def]
  split <;> simp_all

/-- Reading a string takes back what was written for each character. -/
theorem readString_charText (acc cs : List Char) (c : Char) :
    readString acc ((charText c).toList ++ cs) = readString (c :: acc) cs := by
  unfold charText
  split
  · rfl
  · rfl
  · rfl
  · rfl
  · rfl
  · by_cases hc : c.toNat < 0x20
    · obtain ⟨a, b, hdigits, hunit⟩ := exists_hexUnit? c.toNat hc
      have hchar : unitChar? c.toNat = some c := by
        rw [unitChar?, if_neg (by omega), Char.ofNat_toNat]
      rw [if_pos hc]
      show readString acc (("\\u" ++ String.ofList (_ ++ _)).toList ++ cs) = _
      rw [String.toList_append, hdigits, String.toList_ofList (l := ['0', '0', a, b])]
      show readString acc ('\\' :: 'u' :: '0' :: '0' :: a :: b :: cs) = _
      rw [readString, hunit]
      simp only [hchar]
    · rw [if_neg hc, show c.toString = String.singleton c from rfl, String.toList_singleton]
      exact readString_plain ‹_› ‹_› hc

/-- A string is read back, up to its closing quote: by induction on its characters. -/
theorem readString_text (s : String) (r : List Char) :
    readString [] ((s.toList.flatMap fun c => (charText c).toList) ++ '"' :: r) = some (s, r) := by
  have hread : ∀ (cs acc : List Char),
      readString acc ((cs.flatMap fun c => (charText c).toList) ++ '"' :: r) =
        some (String.ofList (acc.reverse ++ cs), r) := by
    intro cs
    induction cs with
    | nil => simp [readString]
    | cons c cs ih =>
      intro acc
      rw [List.flatMap_cons, List.append_assoc, readString_charText, ih]
      simp
  rw [hread]
  simp

/-- A string is written between quotes, character by character. -/
theorem toList_stringText (s : String) :
    (stringText s).toList = '"' :: ((s.toList.flatMap fun c => (charText c).toList) ++ ['"']) := by
  rw [stringText, String.toList_append, String.toList_append, String.toList_join, List.flatMap_map]
  rfl

/-! ## Numbers -/

/-- Whether a number ends where `r` begins. -/
def Ends (r : List Char) : Prop := ∀ c ∈ r.head?, c.isDigit = false ∧ c ≠ '.' ∧ c ≠ 'e' ∧ c ≠ 'E'

/-- A number may end the text. -/
theorem Ends.nil : Ends [] := nofun

/-- A number may stand before what cannot be a part of it. -/
theorem Ends.cons (h : c.isDigit = false ∧ c ≠ '.' ∧ c ≠ 'e' ∧ c ≠ 'E') : Ends (c :: r) := by
  rintro _ ⟨⟩
  exact h

/-- The digits of a number in decimal. -/
def digits (n : Nat) : List Nat := (Nat.toDigits 10 n).map fun c => c.toNat - '0'.toNat

/-- The digits of a number have its value. -/
theorem digitsValue_digits (n : Nat) : Numeral.digitsValue (digits n) = n := by
  rw [Numeral.digitsValue, digits, List.foldl_map]
  exact Nat.ofDigitChars_toDigits (by norm_num) (by norm_num)

/-- The digits of a number are decimal digits. -/
theorem isDigit_of_mem {n : Nat} (h : c ∈ Nat.toDigits 10 n) : c.isDigit = true :=
  Nat.isDigit_of_mem_toDigits (by norm_num) (by norm_num) h

/-- The numeral of a positive number does not begin with a zero. -/
theorem exists_digits_cons {n : Nat} (h : 0 < n) : ∃ d ds, digits n = (d + 1) :: ds := by
  induction n using Nat.strongRecOn with
  | _ n ih =>
    by_cases hn : n < 10
    · rw [digits, Nat.toDigits_of_lt_base hn]
      interval_cases n <;> exact ⟨_, _, rfl⟩
    · obtain ⟨d, ds, hdigits⟩ := ih (n / 10) (by omega) (by omega)
      rw [digits, Nat.toDigits_of_base_le (by norm_num) (by omega), List.map_append, ← digits,
        hdigits]
      exact ⟨d, _, rfl⟩

/-- Digits are read up to where they end. -/
theorem readDigits_append (n : Nat) (hr : Ends r) :
    readDigits (Nat.toDigits 10 n ++ r) = (digits n, r) := by
  have htake : r.takeWhile Char.isDigit = [] := by
    cases r with
    | nil => rfl
    | cons c r => simp [(hr c rfl).1]
  have hdrop : r.dropWhile Char.isDigit = r := by
    cases r with
    | nil => rfl
    | cons c r => simp [(hr c rfl).1]
  have hdigits : ∀ c ∈ Nat.toDigits 10 n, c.isDigit = true := fun _ => isDigit_of_mem
  rw [readDigits, List.takeWhile_append_of_pos hdigits, List.dropWhile_append_of_pos hdigits,
    htake, hdrop, List.append_nil, digits]

/-- A whole number is read up to its last digit. -/
theorem readWhole_append (n : Nat) (hr : Ends r) :
    readWhole (Nat.toDigits 10 n ++ r) = some (digits n, r) := by
  rw [readWhole, readDigits_append n hr]
  rcases Nat.eq_zero_or_pos n with rfl | hpos
  · rfl
  · obtain ⟨d, ds, hcons⟩ := exists_digits_cons hpos
    rw [hcons]
    cases ds <;> rfl

/-- There is no fraction where a number ends. -/
theorem readFraction_of_ends (hr : Ends r) : readFraction r = some (none, r) := by
  rw [readFraction.eq_def]
  split
  · exact absurd rfl (hr '.' rfl).2.1
  · rfl

/-- There is no exponent where a number ends. -/
theorem readExponent_of_ends (hr : Ends r) : readExponent r = some (none, r) := by
  cases r with
  | nil => rfl
  | cons c r =>
    have hc : ¬ (c = 'e' ∨ c = 'E') := not_or.2 (hr c rfl).2.2
    simp only [readExponent, if_neg hc]

/-- Reads a number after its sign. -/
def readUnsigned (negative : Bool) (cs : List Char) : Option (Json × List Char) := do
  let (whole, cs) ← readWhole cs
  let (fraction, cs) ← readFraction cs
  let (exponent, cs) ← readExponent cs
  let n ← Numeral.value? ⟨negative, whole, fraction, exponent⟩
  return (.number n, cs)

/-- A negative number is a sign and digits. -/
theorem readNumber_minus (cs : List Char) : readNumber ('-' :: cs) = readUnsigned true cs := rfl

/-- Any other number is digits only. -/
theorem readNumber_digit (h : c.isDigit = true) (cs : List Char) :
    readNumber (c :: cs) = readUnsigned false (c :: cs) := by
  unfold readNumber
  split
  rename_i negative cs' hsign
  split at hsign
  · simp_all [Char.isDigit]
  · cases hsign
    rfl

/-- The digits are read as one number. -/
theorem readUnsigned_append (negative : Bool) (n : Nat) (hr : Ends r) {m : Number}
    (hm : Numeral.value? ⟨negative, digits n, none, none⟩ = some m) :
    readUnsigned negative (Nat.toDigits 10 n ++ r) = some (.number m, r) := by
  simp [readUnsigned, readWhole_append n hr, readFraction_of_ends hr, readExponent_of_ends hr, hm]

/-- Whether an integer has 64 bits, signed below zero and unsigned above. -/
def InRange (i : Int) : Prop := -2 ^ 63 ≤ i ∧ i < 2 ^ 64

/-- An integer that is in range is read back. -/
theorem readNumber_text {i : Int} (hi : InRange i) (hr : Ends r) :
    readNumber ((toString i).toList ++ r) = some (.number (.int i), r) := by
  obtain ⟨hlow, hhigh⟩ := hi
  cases i with
  -- digits alone: the first one says that a number begins
  | ofNat n =>
    have htext : (toString (Int.ofNat n)).toList = Nat.toDigits 10 n := Nat.toList_repr
    have hsize : n < UInt64.size := by
      rw [Int.ofNat_eq_natCast] at hhigh
      simp only [UInt64.size]
      omega
    have hvalue : Numeral.value? ⟨false, digits n, none, none⟩ = some (.int n) := by
      simp [Numeral.value?, digitsValue_digits, hsize]
    obtain ⟨c, cs, hcons⟩ := List.exists_cons_of_ne_nil (Nat.toDigits_ne_nil (n := n) (b := 10))
    have hc : c.isDigit = true := isDigit_of_mem (n := n) (by simp [hcons])
    have hread := readUnsigned_append false n hr hvalue
    rw [htext, hcons, List.cons_append, readNumber_digit hc, ← List.cons_append, ← hcons, hread]
    rfl
  -- a sign, and then digits
  | negSucc n =>
    have htext : (toString (Int.negSucc n)).toList = '-' :: Nat.toDigits 10 (n + 1) := by
      show ("-" ++ (n + 1).repr).toList = _
      rw [String.toList_append, Nat.toList_repr]
      rfl
    have hsize : n + 1 ≤ UInt64.size / 2 := by
      simp only [UInt64.size]
      omega
    have hvalue : Numeral.value? ⟨true, digits (n + 1), none, none⟩ =
        some (.int (Int.negSucc n)) := by
      simp [Numeral.value?, digitsValue_digits, hsize, Int.negSucc_eq]
    rw [htext, List.cons_append, readNumber_minus, readUnsigned_append true (n + 1) hr hvalue]

/-! ## Documents -/

mutual

/-- Whether every number in a document is an integer of 64 bits. -/
def Exact : Json → Prop
  | .number (.int i) => InRange i
  | .number (.float _) => False
  | .array items => AllExact items
  | .object fields => FieldsExact fields
  | _ => True

/-- `Exact` for several documents. -/
def AllExact : List Json → Prop
  | [] => True
  | j :: js => Exact j ∧ AllExact js

/-- `Exact` for the fields of an object. -/
def FieldsExact : List (String × Json) → Prop
  | [] => True
  | (_, j) :: fs => Exact j ∧ FieldsExact fs

end

/-- Only blanks are skipped. -/
theorem skipBlanks_cons (h : isBlank c = false) (cs : List Char) :
    skipBlanks (c :: cs) = c :: cs := by
  simp [skipBlanks, h]

/-- Digits differ from all other characters. -/
theorem ne_of_isDigit {d : Char} (hc : c.isDigit = true) (hd : d.isDigit = false) : c ≠ d := by
  rintro rfl
  simp [hc] at hd

/-- No digit is a blank. -/
theorem isBlank_of_isDigit (h : c.isDigit = true) : isBlank c = false := by
  simp [isBlank, ne_of_isDigit h]

/-- An integer begins with a digit or a sign. -/
theorem exists_toString_cons (i : Int) :
    ∃ c cs, (toString i).toList = c :: cs ∧ (c.isDigit = true ∨ c = '-') := by
  cases i with
  | ofNat n =>
    obtain ⟨c, cs, hcons⟩ := List.exists_cons_of_ne_nil (Nat.toDigits_ne_nil (n := n) (b := 10))
    exact ⟨c, cs, Nat.toList_repr.trans hcons, .inl (isDigit_of_mem (n := n) (by simp [hcons]))⟩
  | negSucc n =>
    refine ⟨'-', Nat.toDigits 10 (n + 1), ?_, .inr rfl⟩
    show ("-" ++ (n + 1).repr).toList = _
    rw [String.toList_append, Nat.toList_repr]
    rfl

/-- A text begins with a character that is neither a blank nor a closing bracket. -/
theorem exists_compress_cons {j : Json} (h : j.Exact) :
    ∃ c cs, j.compress.toList = c :: cs ∧ isBlank c = false ∧ c ≠ ']' := by
  cases j with
  | null => exact ⟨'n', _, rfl, rfl, by decide⟩
  | bool b =>
    cases b with
    | true => exact ⟨'t', _, rfl, rfl, by decide⟩
    | false => exact ⟨'f', _, rfl, rfl, by decide⟩
  | number n =>
    cases n with
    | int i =>
      obtain ⟨c, cs, hcons, hc | rfl⟩ := exists_toString_cons i
      · exact ⟨c, cs, hcons, isBlank_of_isDigit hc, ne_of_isDigit hc rfl⟩
      · exact ⟨'-', cs, hcons, rfl, by decide⟩
    | float x => exact h.elim
  | string s => exact ⟨'"', _, toList_stringText s, rfl, by decide⟩
  | array items =>
    refine ⟨'[', (compressItems "" items ++ "]").toList, ?_, rfl, by decide⟩
    rw [compress, String.append_assoc, String.toList_append]
    rfl
  | object fields =>
    refine ⟨'\x7b', (compressFields "" fields ++ "\x7d").toList, ?_, rfl, by decide⟩
    rw [compress, String.append_assoc, String.toList_append]
    rfl

/-- A number is not taken for anything else. -/
theorem readValue_number {fuel room : Nat} {cs : List Char} (hc : c.isDigit = true ∨ c = '-') :
    readValue (fuel + 1) room (c :: cs) = readNumber (c :: cs) := by
  have hblank : isBlank c = false := by
    rcases hc with hc | rfl
    · exact isBlank_of_isDigit hc
    · rfl
  rw [readValue, skipBlanks_cons hblank]
  split <;> simp_all [Char.isDigit]

/-- After a bracket that is not closed at once come the items, one level deeper. -/
theorem readValue_array {fuel room : Nat} (hc : isBlank c = false) (hne : c ≠ ']')
    (cs : List Char) :
    readValue (fuel + 1) (room + 1) ('[' :: c :: cs) =
      (readItems fuel room (c :: cs)).map fun (js, cs) => (.array js, cs) := by
  rw [readValue, skipBlanks_cons rfl]
  simp only [skipBlanks_cons hc]
  split
  · simp_all
  · rfl

/-- After a brace and a quote come the fields, one level deeper. -/
theorem readValue_object {fuel room : Nat} (cs : List Char) :
    readValue (fuel + 1) (room + 1) ('\x7b' :: '"' :: cs) =
      (readFields fuel room ('"' :: cs)).map fun (fs, cs) => (.object fs, cs) := by
  rfl

/-- Items after the first one begin with a comma. -/
theorem toList_compressItems_comma (h : js ≠ []) :
    (compressItems "," js).toList = ',' :: (compressItems "" js).toList := by
  cases js with
  | nil => exact absurd rfl h
  | cons j js =>
    simp only [compressItems, String.toList_append]
    rfl

/-- Fields after the first one begin with a comma. -/
theorem toList_compressFields_comma (h : fs ≠ []) :
    (compressFields "," fs).toList = ',' :: (compressFields "" fs).toList := by
  cases fs with
  | nil => exact absurd rfl h
  | cons f fs =>
    simp only [compressFields, String.toList_append]
    rfl

/-- Whether reading takes back the text of a document and leaves what follows, unless the document is
nested too deep. -/
def Legible (j : Json) : Prop :=
  ∀ fuel room r, j.compress.toList.length ≤ fuel → Ends r →
    readValue fuel room (j.compress.toList ++ r) = if j.depth ≤ room then some (j, r) else none

/-- `Legible` for the items of an array and its closing bracket. -/
def AllLegible (js : List Json) : Prop :=
  ∀ fuel room r, (compressItems "" js).toList.length < fuel →
    readItems fuel room ((compressItems "" js).toList ++ ']' :: r) =
      if listDepth js ≤ room then some (js, r) else none

/-- `Legible` for the fields of an object and its closing brace. -/
def FieldsLegible (fs : List (String × Json)) : Prop :=
  ∀ fuel room r, (compressFields "" fs).toList.length < fuel →
    readFields fuel room ((compressFields "" fs).toList ++ '\x7d' :: r) =
      if fieldsDepth fs ≤ room then some (fs, r) else none

/-- Null is read back. -/
theorem legible_null : Legible .null := by
  intro fuel room r hfuel _
  cases fuel with
  | zero => exact absurd hfuel (by decide)
  | succ fuel => exact (if_pos (Nat.zero_le room)).symm

/-- The truth values are read back. -/
theorem legible_bool (b : Bool) : Legible (.bool b) := by
  intro fuel room r hfuel _
  cases fuel with
  | zero => cases b <;> exact absurd hfuel (by decide)
  | succ fuel => cases b <;> exact (if_pos (Nat.zero_le room)).symm

/-- Integers in range are read back. -/
theorem legible_int {i : Int} (h : InRange i) : Legible (.number (.int i)) := by
  intro fuel room r hfuel hr
  obtain ⟨c, cs, hcons, hc⟩ := exists_toString_cons i
  have htext : (Json.number (.int i)).compress.toList = c :: cs := hcons
  rw [if_pos (by exact Nat.zero_le room)]
  rw [htext] at hfuel ⊢
  cases fuel with
  | zero => simp at hfuel
  | succ fuel => rw [List.cons_append, readValue_number hc, ← List.cons_append, ← hcons,
      readNumber_text h hr]

/-- Strings are read back, their escapes undone. -/
theorem legible_string (s : String) : Legible (.string s) := by
  intro fuel room r hfuel _
  have htext : (Json.string s).compress.toList = _ := toList_stringText s
  rw [if_pos (by exact Nat.zero_le room)]
  rw [htext] at hfuel ⊢
  cases fuel with
  | zero => simp at hfuel
  | succ fuel =>
    rw [List.cons_append, List.append_assoc, readValue, skipBlanks_cons rfl]
    show (readString [] _).map _ = _
    rw [List.singleton_append, readString_text]
    rfl

/-- An array is read back if its items are. -/
theorem legible_array (hexact : AllExact js) (h : js ≠ [] → AllLegible js) :
    Legible (.array js) := by
  intro fuel room r hfuel _
  have htext : (Json.array js).compress.toList = '[' :: ((compressItems "" js).toList ++ [']']) := by
    rw [compress, String.toList_append, String.toList_append]
    rfl
  rw [htext] at hfuel ⊢
  rw [depth]
  cases fuel with
  | zero => simp at hfuel
  | succ fuel =>
    cases room with
    | zero =>
      -- there is no room for a bracket
      rw [if_neg (by omega)]
      rfl
    | succ room =>
      cases js with
      | nil => exact (if_pos (by rw [listDepth]; omega)).symm
      | cons j js =>
        obtain ⟨c, cs, hcons, hblank, hne⟩ := exists_compress_cons hexact.1
        have hitems : (compressItems "" (j :: js)).toList =
            c :: (cs ++ (compressItems "," js).toList) := by
          rw [compressItems, String.toList_append, String.toList_append, hcons]
          rfl
        simp only [List.length_cons, List.length_append, List.length_nil] at hfuel
        have hread := h (by simp) fuel room r (by omega)
        rw [List.cons_append, List.append_assoc, List.singleton_append]
        rw [hitems] at hread ⊢
        rw [List.cons_append, readValue_array hblank hne, ← List.cons_append, hread]
        simp only [Nat.add_comm 1, Nat.add_le_add_iff_right]
        split <;> rfl

/-- The items of an array are read back one after the other. -/
theorem allLegible_cons (hj : Legible j) (hjs : js ≠ [] → AllLegible js) :
    AllLegible (j :: js) := by
  intro fuel room r hfuel
  have htext : (compressItems "" (j :: js)).toList =
      j.compress.toList ++ (compressItems "," js).toList := by
    rw [compressItems, String.toList_append, String.toList_append]
    rfl
  rw [htext, List.length_append] at hfuel
  rw [htext, List.append_assoc, listDepth]
  cases fuel with
  | zero => omega
  | succ fuel =>
    -- behind an item is a comma or the end of the list
    have hends : Ends ((compressItems "," js).toList ++ ']' :: r) := by
      by_cases hnil : js = []
      · subst hnil
        exact .cons (by decide)
      · rw [toList_compressItems_comma hnil]
        exact .cons (by decide)
    rw [readItems, hj fuel room _ (by omega) hends]
    by_cases hdepth : j.depth ≤ room
    · rw [if_pos hdepth]
      by_cases hnil : js = []
      · subst hnil
        exact (if_pos (by rw [listDepth]; omega)).symm
      · rw [toList_compressItems_comma hnil, List.length_cons] at hfuel
        have hread := hjs hnil fuel room r (by omega)
        rw [toList_compressItems_comma hnil, List.cons_append]
        simp only [skipBlanks_cons (c := ',') rfl, hread, max_le_iff, hdepth, true_and]
        split <;> rfl
    -- an item that is too deep makes the list too deep
    · rw [if_neg hdepth, if_neg (by omega)]

/-- A field is its name, a colon and its value, and then come the others. -/
theorem toList_compressFields_cons (n : String) (j : Json) (fs : List (String × Json)) :
    (compressFields "" ((n, j) :: fs)).toList =
      '"' :: ((n.toList.flatMap fun c => (charText c).toList) ++ '"' :: ':' ::
        (j.compress.toList ++ (compressFields "," fs).toList)) := by
  simp only [compressFields, String.toList_append, toList_stringText]
  simp

/-- The fields of an object are read back one after the other. -/
theorem fieldsLegible_cons {n : String} (hj : Legible j) (hfs : fs ≠ [] → FieldsLegible fs) :
    FieldsLegible ((n, j) :: fs) := by
  intro fuel room r hfuel
  rw [fieldsDepth]
  rw [toList_compressFields_cons] at hfuel ⊢
  simp only [List.length_cons, List.length_append] at hfuel
  cases fuel with
  | zero => omega
  | succ fuel =>
    -- behind a field is a comma or the end of the object
    have hends : Ends ((compressFields "," fs).toList ++ '\x7d' :: r) := by
      by_cases hnil : fs = []
      · subst hnil
        exact .cons (by decide)
      · rw [toList_compressFields_comma hnil]
        exact .cons (by decide)
    have hvalue := hj fuel room _ (by omega) hends
    simp only [List.cons_append, List.append_assoc, readFields, skipBlanks_cons (c := '"') rfl,
      readString_text, skipBlanks_cons (c := ':') rfl, hvalue]
    by_cases hdepth : j.depth ≤ room
    · rw [if_pos hdepth]
      by_cases hnil : fs = []
      · subst hnil
        exact (if_pos (by rw [fieldsDepth]; omega)).symm
      · rw [toList_compressFields_comma hnil, List.length_cons] at hfuel
        have hread := hfs hnil fuel room r (by omega)
        rw [toList_compressFields_comma hnil, List.cons_append]
        simp only [skipBlanks_cons (c := ',') rfl, hread, max_le_iff, hdepth, true_and]
        split <;> rfl
    · rw [if_neg hdepth, if_neg (by omega)]

/-- An object is read back if its fields are. -/
theorem legible_object (h : fs ≠ [] → FieldsLegible fs) : Legible (.object fs) := by
  intro fuel room r hfuel _
  have htext : (Json.object fs).compress.toList =
      '\x7b' :: ((compressFields "" fs).toList ++ ['\x7d']) := by
    rw [compress, String.toList_append, String.toList_append]
    rfl
  rw [htext] at hfuel ⊢
  rw [depth]
  cases fuel with
  | zero => simp at hfuel
  | succ fuel =>
    cases room with
    | zero =>
      rw [if_neg (by omega)]
      rfl
    | succ room =>
      cases fs with
      | nil => exact (if_pos (by rw [fieldsDepth]; omega)).symm
      | cons f fs =>
        simp only [List.length_cons, List.length_append, List.length_nil] at hfuel
        have hread := h (by simp) fuel room r (by omega)
        rw [List.cons_append, List.append_assoc, List.singleton_append]
        rw [toList_compressFields_cons] at hread ⊢
        rw [List.cons_append, readValue_object, ← List.cons_append, hread]
        simp only [Nat.add_comm 1, Nat.add_le_add_iff_right]
        split <;> rfl

mutual

/-- Documents whose numbers are integers in range are read back. -/
theorem legible : ∀ {j : Json}, j.Exact → Legible j
  | .null, _ => legible_null
  | .bool b, _ => legible_bool b
  | .number (.int _), h => legible_int h
  | .string s, _ => legible_string s
  | .array _, h => legible_array h fun hne => allLegible h hne
  | .object _, h => legible_object fun hne => fieldsLegible h hne

/-- All items are read back. -/
theorem allLegible : ∀ {js : List Json}, AllExact js → js ≠ [] → AllLegible js
  | [], _, hne => absurd rfl hne
  | _ :: _, h, _ => allLegible_cons (legible h.1) fun hne => allLegible h.2 hne

/-- All fields are read back. -/
theorem fieldsLegible : ∀ {fs : List (String × Json)}, FieldsExact fs → fs ≠ [] → FieldsLegible fs
  | [], _, hne => absurd rfl hne
  | (_, _) :: _, h, _ => fieldsLegible_cons (legible h.1) fun hne => fieldsLegible h.2 hne

end

/-- Reading the text of a document gives the document back, unless it is nested too deep. -/
theorem parse_compress (h : j.Exact) (room : Nat) :
    parse room j.compress = if j.depth ≤ room then some j else none := by
  have hread := legible h (j.compress.toList.length + 1) room [] (by omega) .nil
  rw [List.append_nil] at hread
  by_cases hdepth : j.depth ≤ room
  · rw [if_pos hdepth] at hread ⊢
    simp only [parse, hread]
    rfl
  · rw [if_neg hdepth] at hread ⊢
    simp only [parse, hread]

end Coroutine.Json
