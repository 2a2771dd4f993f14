/-
  What is written and read back below markup: characters as bytes, and integers as numerals.

    * The bytes of a character are read as that character, whatever follows (`decode_char`): the first byte says how
      many there are, and each one of them lies in the range in which the one before leaves it.  So every text is read
      back from its bytes (`ofUtf8?_utf8Bytes`).
    * The digits of a number never leave a range in which the number lies, as the number that has been read only grows
      (`boundedDigits_of_digits`).  So every integer of a range is read back from its numeral (`boundedInt_toString`),
      and what is read are the numerals of the range (`boundedInt_eq_ok_iff`).
-/
import Stencil.Text.Blank
import Stencil.Text.Encoding
import Stencil.Text.Integer

set_option autoImplicit false

namespace Stencil.Text

/-! ## UTF-8 -/

variable {n k : Nat}

theorem toNat_ofNat_add (h : n < 256) : (UInt8.ofNat n).toNat = n := by
  rw [UInt8.toNat_ofNat', Nat.mod_eq_of_lt h]

/-- The first byte of a character of one byte. -/
theorem leadByte_one (h : n ≤ 0x7F) : leadByte (.ofNat n) = .inl (Char.ofNat n) := by
  have hn := toNat_ofNat_add (n := n) (by omega)
  have hlt : UInt8.ofNat n < 0x80 := UInt8.lt_iff_toNat_lt.mpr (by rw [hn]; exact Nat.lt_succ_of_le h)
  rw [leadByte, if_pos hlt, hn]

theorem leadByte_two (hlow : 2 ≤ k) (h : k < 32) : leadByte (.ofNat (k + 192)) = .inr ⟨k, 0, 0x80, 0xBF⟩ := by
  have hn := toNat_ofNat_add (n := k + 192) (by omega)
  simp only [leadByte, UInt8.lt_iff_toNat_lt, UInt8.le_iff_toNat_le, hn, UInt8.toNat_ofNat]
  rw [if_neg (by omega), if_pos (by omega)]
  simp

theorem leadByte_three (h : k < 16) : leadByte (.ofNat (k + 224))
    = .inr ⟨k, 1, if k = 0 then 0xA0 else 0x80, if k = 13 then 0x9F else 0xBF⟩ := by
  have hn := toNat_ofNat_add (n := k + 224) (by omega)
  simp only [leadByte, UInt8.lt_iff_toNat_lt, UInt8.le_iff_toNat_le, hn, UInt8.toNat_ofNat, ← UInt8.toNat_inj]
  rw [if_neg (by omega), if_neg (by omega), if_pos (by omega)]
  simp

theorem leadByte_four (h : k < 5) : leadByte (.ofNat (k + 240))
    = .inr ⟨k, 2, if k = 0 then 0x90 else 0x80, if k = 4 then 0x8F else 0xBF⟩ := by
  have hn := toNat_ofNat_add (n := k + 240) (by omega)
  simp only [leadByte, UInt8.lt_iff_toNat_lt, UInt8.le_iff_toNat_le, hn, UInt8.toNat_ofNat, ← UInt8.toNat_inj]
  rw [if_neg (by omega), if_neg (by omega), if_neg (by omega), if_pos (by omega)]
  simp

/-- A byte in its range goes on with a character. -/
theorem decode_next {p : Partial8} (h : k < 64) (hlow : p.low.toNat ≤ k + 128) (hhigh : k + 128 ≤ p.high.toNat)
    (bs : List UInt8) :
    decodeUtf8Aux (some p) (.ofNat (k + 128) :: bs) = match p.missing with
      | 0 => Char.ofNat (64 * p.bits + k) :: decodeUtf8Aux none bs
      | m + 1 => decodeUtf8Aux (some ⟨64 * p.bits + k, m, 0x80, 0xBF⟩) bs := by
  have hn := toNat_ofNat_add (n := k + 128) (by omega)
  have hrange : p.low ≤ .ofNat (k + 128) ∧ UInt8.ofNat (k + 128) ≤ p.high := by
    rw [UInt8.le_iff_toNat_le, UInt8.le_iff_toNat_le, hn]
    exact ⟨hlow, hhigh⟩
  cases hm : p.missing with
  | zero =>
    rw [decodeUtf8Aux, if_pos hrange]
    simp only [hn, hm, Nat.add_sub_cancel]
  | succ m =>
    rw [decodeUtf8Aux, if_pos hrange]
    simp only [hn, hm, Nat.add_sub_cancel]

/-- The bytes of a character are read as that character. -/
theorem decode_char (c : Char) (bs : List UInt8) :
    decodeUtf8Aux none (String.utf8EncodeChar c ++ bs) = c :: decodeUtf8Aux none bs := by
  have hvalid : c.val.toNat < 0xD800 ∨ 0xDFFF < c.val.toNat ∧ c.val.toNat < 0x110000 := c.valid
  have hc : Char.ofNat c.val.toNat = c := Char.ofNat_toNat c
  unfold String.utf8EncodeChar
  generalize c.val.toNat = v at hvalid hc
  subst hc
  dsimp only
  split
  · rename_i h
    rw [List.singleton_append, decodeUtf8Aux, leadByte_one h]
  · split
    · rename_i hone htwo
      rw [List.cons_append, List.singleton_append, decodeUtf8Aux, leadByte_two (by omega) (by omega)]
      dsimp only
      rw [decode_next (by omega) (by simp) (by simp; omega)]
      dsimp only
      rw [show 64 * (v / 64 % 32) + v % 64 = v by omega]
    · split
      · -- no character is a surrogate, so the second byte is in its range
        rename_i hone htwo hthree
        rw [List.cons_append, List.cons_append, List.singleton_append, decodeUtf8Aux, leadByte_three (by omega)]
        dsimp only
        rw [decode_next (by omega) (by dsimp only; split <;> simp <;> omega) (by dsimp only; split <;> simp <;> omega)]
        dsimp only
        rw [decode_next (by omega) (by simp) (by simp; omega)]
        dsimp only
        rw [show 64 * (64 * (v / 4096 % 16) + v / 64 % 64) + v % 64 = v by omega]
      · rename_i hone htwo hthree
        rw [List.cons_append, List.cons_append, List.cons_append, List.singleton_append, decodeUtf8Aux,
          leadByte_four (by omega)]
        dsimp only
        rw [decode_next (by omega) (by dsimp only; split <;> simp <;> omega) (by dsimp only; split <;> simp <;> omega)]
        dsimp only
        rw [decode_next (by omega) (by simp) (by simp; omega)]
        dsimp only
        rw [decode_next (by omega) (by simp) (by simp; omega)]
        dsimp only
        rw [show 64 * (64 * (64 * (v / 262144 % 8) + v / 4096 % 64) + v / 64 % 64) + v % 64 = v by omega]

/-- A text is read back from its bytes. -/
theorem ofUtf8?_utf8Bytes (s : String) : ofUtf8? (utf8Bytes s) = some s := by
  have hchars : ∀ cs : List Char, decodeUtf8Aux none (cs.flatMap String.utf8EncodeChar) = cs := by
    intro cs
    induction cs with
    | nil => rfl
    | cons c cs ih => rw [List.flatMap_cons, decode_char, ih]
  have hread : decodeUtf8 (utf8Bytes s) = s := by
    unfold decodeUtf8 utf8Bytes
    rw [hchars, String.ofList_toList]
  rw [ofUtf8?, hread, if_pos rfl]

/-! ## Runs of characters -/

/-- A run of characters of a class ends where the class does. -/
theorem takeWhile_append_stop {p : Char → Bool} {cs : List Char} (hcs : ∀ c ∈ cs, p c = true) (rest : List Char)
    (hrest : ∀ c ∈ rest.head?, p c = false) :
    (cs ++ rest).takeWhile p = cs ∧ (cs ++ rest).dropWhile p = rest := by
  rw [List.takeWhile_append_of_pos hcs, List.dropWhile_append_of_pos hcs]
  cases rest with
  | nil => exact ⟨List.append_nil _, rfl⟩
  | cons c rest =>
    have hc := Bool.eq_false_iff.mp (hrest c rfl)
    rw [List.takeWhile_cons_of_neg hc, List.dropWhile_cons_of_neg hc]
    exact ⟨List.append_nil _, rfl⟩

theorem dropWhile_ne {c : Char} {cs : List Char} (h : c ∉ cs) (rest : List Char) :
    (cs ++ c :: rest).dropWhile (· ≠ c) = c :: rest ∧ (cs ++ c :: rest).takeWhile (· ≠ c) = cs := by
  have hall : ∀ d ∈ cs, (decide (d ≠ c)) = true := fun d hd => decide_eq_true fun heq => h (heq ▸ hd)
  obtain ⟨htake, hdrop⟩ := takeWhile_append_stop hall (c :: rest) fun d hd => by
    rw [Option.some.inj hd]
    simp
  exact ⟨hdrop, htake⟩

/-! ## Numerals -/

/-- The digits have the codes from 48 to 57. -/
theorem toNat_of_isDigit {c : Char} (h : isDigit c = true) : 48 ≤ c.toNat ∧ c.toNat ≤ 57 := by
  unfold isDigit at h
  rw [Bool.and_eq_true, decide_eq_true_eq, decide_eq_true_eq, Char.le_def, Char.le_def, UInt32.le_iff_toNat_le,
    UInt32.le_iff_toNat_le] at h
  exact h

theorem not_isBlank_of_isDigit {c : Char} (h : isDigit c = true) : isBlank c = false := by
  obtain ⟨hlow, hhigh⟩ := toNat_of_isDigit h
  simp only [isBlank, Bool.or_eq_false_iff, Bool.and_eq_false_iff, decide_eq_false_iff_not, beq_eq_false_iff_ne]
  omega

/-- A number with its sign. -/
def signed (negative : Bool) (n : Nat) : Int := if negative then -n else n

variable {b : Bounds} {negative : Bool} {cs : List Char}

theorem signed_next (negative : Bool) (n d : Nat) :
    10 * signed negative n + (if negative then -(d : Int) else d) = signed negative (10 * n + d) := by
  cases negative <;> simp only [signed, if_true, if_false, Bool.false_eq_true] <;> omega

/-- A smaller number lies in the range as well, if zero does. -/
theorem holds_of_le {m : Nat} (hzero : b.Holds 0) (h : b.Holds (signed negative n)) (hle : m ≤ n) :
    b.Holds (signed negative m) := by
  obtain ⟨hlow, hhigh⟩ := h
  obtain ⟨hl, hh⟩ := hzero
  cases negative <;> simp only [signed, if_true, if_false, Bool.false_eq_true] at hlow hhigh ⊢ <;> constructor <;> omega

theorem le_foldl_digits (cs : List Char) (n : Nat) : n ≤ cs.foldl (fun n c => 10 * n + digitValue c) n := by
  induction cs generalizing n with
  | nil => exact Nat.le_refl n
  | cons c cs ih => exact Nat.le_trans (by omega) (ih (10 * n + digitValue c))

/-- Digits are read as their number, if it lies in the range. -/
theorem boundedDigits_of_digits (negative : Bool) (hzero : b.Holds 0) (hdigits : ∀ c ∈ cs, isDigit c = true)
    (h : b.Holds (signed negative (cs.foldl (fun n c => 10 * n + digitValue c) n))) :
    boundedDigits b negative (signed negative n) cs
      = .ok (signed negative (cs.foldl (fun n c => 10 * n + digitValue c) n)) := by
  induction cs generalizing n with
  | nil => rfl
  | cons c cs ih =>
    obtain ⟨hc, hcs⟩ := List.forall_mem_cons.mp hdigits
    obtain ⟨hlow, hhigh⟩ : b.Holds (signed negative (10 * n + digitValue c)) := holds_of_le hzero h (le_foldl_digits cs _)
    rw [boundedDigits, if_pos hc]
    simp only [signed_next]
    rw [if_neg (Int.not_lt.mpr hhigh), if_neg (Int.not_lt.mpr hlow)]
    exact ih hcs h

/-- The numeral of a number has only digits, and they stand for the number. -/
theorem toDigits_digits (n : Nat) : (∀ c ∈ Nat.toDigits 10 n, isDigit c = true)
    ∧ (Nat.toDigits 10 n).foldl (fun n c => 10 * n + digitValue c) 0 = n := by
  refine ⟨fun c hc => ?_, Nat.ofDigitChars_ten_toDigits⟩
  exact Nat.isDigit_of_mem_toDigits (by decide) (by decide) hc

/-- The characters of an integer's numeral. -/
theorem toList_toString (m : Int) :
    (toString m).toList = (if m < 0 then ['-'] else []) ++ Nat.toDigits 10 m.natAbs := by
  rw [Int.toString_eq_repr]
  cases m with
  | ofNat n =>
    have hsign : ¬ Int.ofNat n < 0 := Int.not_lt.mpr (Int.natCast_nonneg n)
    rw [if_neg hsign, List.nil_append]
    exact (congrArg String.toList Nat.repr_eq_ofList_toDigits).trans String.toList_ofList
  | negSucc n =>
    rw [if_pos (Int.negSucc_lt_zero n)]
    show ("-" ++ (n + 1).repr).toList = _
    have hdigits : (n + 1).repr.toList = Nat.toDigits 10 (n + 1) :=
      (congrArg String.toList Nat.repr_eq_ofList_toDigits).trans String.toList_ofList
    rw [String.toList_append, hdigits]
    rfl

/-- A text that starts with a digit has no sign. -/
theorem boundedInt_of_digit {s : String} {c : Char} (hs : s.toList = c :: cs) (hc : isDigit c = true) :
    boundedInt b s = boundedDigits b false 0 (c :: cs) := by
  unfold boundedInt
  rw [hs]
  split
  · rename_i heq
    cases heq
  · rename_i heq
    cases heq
    exact absurd hc (by decide)
  · rename_i heq
    cases heq
    exact absurd hc (by decide)
  · rename_i heq
    cases heq
    exact absurd hc (by decide)
  · rename_i heq
    cases heq
    exact absurd hc (by decide)
  · rfl

/-- An integer of a range is read back from its numeral. -/
theorem boundedInt_toString {m : Int} (hzero : b.Holds 0) (h : b.Holds m) : boundedInt b (toString m) = .ok m := by
  obtain ⟨hdigits, hvalue⟩ := toDigits_digits m.natAbs
  have hread : ∀ negative, signed negative m.natAbs = m →
      boundedDigits b negative 0 (Nat.toDigits 10 m.natAbs) = .ok m := by
    intro negative hm
    have hzeroed : signed negative 0 = 0 := by cases negative <;> rfl
    have hall := boundedDigits_of_digits (n := 0) negative hzero hdigits (by rw [hvalue, hm]; exact h)
    rwa [hvalue, hm, hzeroed] at hall
  obtain ⟨c, cs, hcs⟩ := List.exists_cons_of_ne_nil (Nat.toDigits_ne_nil (b := 10) (n := m.natAbs))
  rw [hcs] at hdigits hread
  have hlist := toList_toString m
  rw [hcs] at hlist
  by_cases hm : m < 0
  · rw [if_pos hm] at hlist
    unfold boundedInt
    rw [hlist]
    show (if b.low < 0 then boundedDigits b true 0 (c :: cs) else _) = _
    have hsign : signed true m.natAbs = m := by
      unfold signed
      rw [if_pos rfl]
      omega
    rw [if_pos (Int.lt_of_le_of_lt h.1 hm), hread true hsign]
  · rw [if_neg hm, List.nil_append] at hlist
    have hsign : signed false m.natAbs = m := by
      unfold signed
      rw [if_neg Bool.false_ne_true]
      omega
    rw [boundedInt_of_digit hlist (hdigits c List.mem_cons_self), hread false hsign]

/-- What is read lies in the range. -/
theorem holds_of_boundedInt {s : String} {m : Int} (hzero : b.Holds 0) (h : boundedInt b s = .ok m) : b.Holds m := by
  unfold boundedInt at h
  split at h
  · cases h
  · cases h
  · cases h
  · exact holds_of_boundedDigits hzero h
  · split at h
    · exact holds_of_boundedDigits hzero h
    · cases h
  · exact holds_of_boundedDigits hzero h

/-- A numeral: decimal digits, at least one, behind a sign or none. -/
inductive Numeral : List Char → Int → Prop
  | bare {cs : List Char} (digits : ∀ c ∈ cs, isDigit c = true) (some : cs ≠ []) : Numeral cs (digitsValue cs)
  | plus {cs : List Char} (digits : ∀ c ∈ cs, isDigit c = true) (some : cs ≠ []) :
    Numeral ('+' :: cs) (digitsValue cs)
  | minus {cs : List Char} (digits : ∀ c ∈ cs, isDigit c = true) (some : cs ≠ []) :
    Numeral ('-' :: cs) (-(digitsValue cs : Int))

/-- What is read from digits is their number. -/
theorem digits_of_boundedDigits {m : Int} (h : boundedDigits b negative (signed negative n) cs = .ok m) :
    (∀ c ∈ cs, isDigit c = true) ∧ m = signed negative (cs.foldl (fun n c => 10 * n + digitValue c) n) := by
  induction cs generalizing n with
  | nil =>
    cases h
    exact ⟨fun c hc => absurd hc List.not_mem_nil, rfl⟩
  | cons c cs ih =>
    rw [boundedDigits] at h
    split at h
    · rename_i hc
      simp only [signed_next] at h
      split at h
      · cases h
      · split at h
        · cases h
        · obtain ⟨hcs, hm⟩ := ih h
          exact ⟨List.forall_mem_cons.mpr ⟨hc, hcs⟩, hm⟩
    · cases h

theorem numeral_of_boundedDigits {c : Char} {m : Int} (h : boundedDigits b false 0 (c :: cs) = .ok m) :
    Numeral (c :: cs) m := by
  obtain ⟨hdigits, hm⟩ := digits_of_boundedDigits (n := 0) h
  exact hm ▸ .bare hdigits (List.cons_ne_nil c cs)

/-- The numerals of a range with negative values are read, and nothing else is. -/
theorem boundedInt_eq_ok_iff {s : String} {m : Int} (hzero : b.Holds 0) (hneg : b.low < 0) :
    boundedInt b s = .ok m ↔ Numeral s.toList m ∧ b.Holds m := by
  constructor
  · intro h
    refine ⟨?_, holds_of_boundedInt hzero h⟩
    unfold boundedInt at h
    generalize s.toList = cs at h
    split at h
    · cases h
    · cases h
    · cases h
    · rename_i ds hne
      obtain ⟨hdigits, hm⟩ := digits_of_boundedDigits (n := 0) h
      exact hm ▸ .plus hdigits fun he => hne (he ▸ rfl)
    · rename_i ds hne
      rw [if_pos hneg] at h
      have hread : boundedDigits b true (signed true 0) ds = .ok m := h
      obtain ⟨hdigits, hm⟩ := digits_of_boundedDigits hread
      exact hm ▸ .minus hdigits fun he => hne (he ▸ rfl)
    · rename_i ds hnil _ _ _ _
      obtain ⟨c, ds', rfl⟩ := List.exists_cons_of_ne_nil hnil
      exact numeral_of_boundedDigits h
  · rintro ⟨hnumeral, hholds⟩
    generalize hs : s.toList = cs at hnumeral
    cases hnumeral with
    | bare digits some =>
      obtain ⟨c, ds, rfl⟩ := List.exists_cons_of_ne_nil some
      rw [boundedInt_of_digit hs (digits c List.mem_cons_self)]
      exact boundedDigits_of_digits (n := 0) false hzero digits hholds
    | plus digits some =>
      obtain ⟨c, ds, rfl⟩ := List.exists_cons_of_ne_nil some
      unfold boundedInt
      rw [hs]
      exact boundedDigits_of_digits (n := 0) false hzero digits hholds
    | minus digits some =>
      obtain ⟨c, ds, rfl⟩ := List.exists_cons_of_ne_nil some
      unfold boundedInt
      rw [hs]
      show (if b.low < 0 then boundedDigits b true 0 (c :: ds) else _) = _
      rw [if_pos hneg]
      exact boundedDigits_of_digits (n := 0) true hzero digits hholds

end Stencil.Text
