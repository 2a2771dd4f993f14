/-
  Fields of digits.

  Binary and hexadecimal digits are packed from the left, as many to the byte as a byte takes, and what is left over at
  the end makes one more byte.  The two readings cut their digits at different places, yet they agree, as packing does
  not see in which base a digit is written:

    1. Where every digit is written in `k` smaller ones, the first `n` digits are the first `k * n` smaller ones, also
       where fewer than `n` are left (`take_flatMap`, `drop_flatMap`).
    2. The smaller digits have the value of the greater ones (`ofDigits_flatMap`).
    3. So packing `n` greater digits to the byte and `k * n` smaller ones gives the same bytes
       (`pack_fixedDigits`).  Hexadecimal digits and their four bits are one case of it.  Bytes and their digits are
       another: a byte is a digit in base 256 (`pack_of_bytes`).

  A text is read or refused as a whole.  What it is refused for is the first character that is no digit; among the
  binary digits it is named by the first of its bytes (`fromHex_eq_error_iff`, `fromBinary_eq_error_iff`).
-/
import Mathlib.Data.Nat.Digits.Lemmas
import Stencil.Codec

set_option autoImplicit false

namespace Stencil.Codec

open Stencil.Text (utf8Bytes)

variable {base k n : Nat} {ds : List Nat} {text : String} {bytes : Bytes} {e : Error} {c : Char}

/-! ## Digits that are written -/

/-- The digits of a number in a base, most significant first, with zeros in front to make up a width. -/
def fixedDigits (base width n : Nat) : List Nat := (Nat.digitsAppend base width n).reverse

/-- The numeral of a number in a base, with zeros in front to make up a width, and with small letters. -/
def numeral (base width n : Nat) : List Char := (fixedDigits base width n).map Nat.digitChar

/-- Bytes as digits in a base, so many for each byte. -/
def inDigits (base width : Nat) (bytes : Bytes) : String :=
  String.ofList (bytes.flatMap fun b => numeral base width b.toNat)

/-- The hexadecimal digits by their values, with small letters. -/
def hexAlphabet : List Char := "0123456789abcdef".toList

/-- A character is a hexadecimal digit, whichever case it has if it is a letter. -/
def IsHexDigit (c : Char) : Prop := c.toLower ∈ hexAlphabet

instance (c : Char) : Decidable (IsHexDigit c) := by unfold IsHexDigit; infer_instance

/-- The value of a hexadecimal digit. -/
def hexDigitValue (c : Char) : Nat := hexAlphabet.idxOf c.toLower

/-- A text of hexadecimal digits with each one replaced by its four bits. -/
def inBits (text : String) : String := String.ofList (text.toList.flatMap fun c => numeral 2 4 (hexDigitValue c))

/-! ## Packing does not see the base -/

theorem take_flatMap {α β : Type} {f : α → List β} {xs : List α} (hf : ∀ x ∈ xs, (f x).length = k) (n : Nat) :
    (xs.flatMap f).take (k * n) = (xs.take n).flatMap f := by
  induction xs generalizing n with
  | nil => simp
  | cons x xs ih =>
    obtain ⟨hx, hxs⟩ := List.forall_mem_cons.mp hf
    cases n with
    | zero => simp
    | succ n =>
      rw [List.flatMap_cons, List.take_succ_cons, List.flatMap_cons, List.take_append, hx,
        List.take_of_length_le (by rw [hx]; exact Nat.le_mul_of_pos_right k (Nat.succ_pos n)),
        show k * (n + 1) - k = k * n by rw [Nat.mul_succ, Nat.add_sub_cancel], ih hxs]

theorem drop_flatMap {α β : Type} {f : α → List β} {xs : List α} (hf : ∀ x ∈ xs, (f x).length = k) (n : Nat) :
    (xs.flatMap f).drop (k * n) = (xs.drop n).flatMap f := by
  have hsplit : (xs.take n).flatMap f ++ (xs.drop n).flatMap f = xs.flatMap f := by
    rw [← List.flatMap_append, List.take_append_drop]
  have hsplit' := (List.take_append_drop (k * n) (xs.flatMap f)).trans hsplit.symm
  rw [take_flatMap hf] at hsplit'
  exact List.append_cancel_left hsplit'

theorem ofDigits_flatMap (hbase : 1 < base) {es : List Nat} (h : ∀ d ∈ es, d < base ^ k) :
    Nat.ofDigits base (es.flatMap (Nat.digitsAppend base k)) = Nat.ofDigits (base ^ k) es := by
  induction es with
  | nil => rfl
  | cons d es ih =>
    obtain ⟨hd, hes⟩ := List.forall_mem_cons.mp h
    have hvalue : Nat.ofDigits base (Nat.digitsAppend base k d) = d :=
      (Nat.setInvOn_digitsAppend_ofDigits hbase k).2 hd
    rw [List.flatMap_cons, Nat.ofDigits_append, Nat.length_digitsAppend hbase k hd, hvalue, ih hes, Nat.ofDigits_cons]

/-- The byte of a run of digits has its value, the last digit being the least significant one. -/
theorem byteOf_eq (base : Nat) (ds : List Nat) : byteOf base ds = UInt8.ofNat (Nat.ofDigits base ds.reverse) := by
  rw [byteOf, Nat.ofDigits_eq_foldr, List.foldr_reverse]
  congr 2
  funext n d
  exact Nat.add_comm _ _

/-- A run of digits makes the same byte in a smaller base. -/
theorem byteOf_fixedDigits (hbase : 1 < base) (h : ∀ d ∈ ds, d < base ^ k) :
    byteOf base (ds.flatMap (fixedDigits base k)) = byteOf (base ^ k) ds := by
  have hreverse : (ds.flatMap (fixedDigits base k)).reverse = ds.reverse.flatMap (Nat.digitsAppend base k) := by
    rw [List.reverse_flatMap]
    congr 1
    funext d
    exact List.reverse_reverse _
  rw [byteOf_eq, byteOf_eq, hreverse, ofDigits_flatMap hbase fun d hd => h d (List.mem_reverse.mp hd)]

theorem length_fixedDigits (hbase : 1 < base) {d : Nat} (h : d < base ^ k) : (fixedDigits base k d).length = k := by
  rw [fixedDigits, List.length_reverse, Nat.length_digitsAppend hbase k h]

theorem lt_of_mem_fixedDigits (hbase : 1 < base) {m d : Nat} (h : d ∈ fixedDigits base k m) : d < base :=
  Nat.lt_of_mem_digitsAppend hbase k d (List.mem_reverse.mp h)

theorem pack_eq_nil (base : Nat) (h : n = 0 ∨ ds = []) : pack base n ds = [] := by
  rw [pack, pieces, dif_pos h]
  rfl

theorem pack_of_pos (base : Nat) (h : ¬(n = 0 ∨ ds = [])) :
    pack base n ds = byteOf base (ds.take n) :: pack base n (ds.drop n) := by
  rw [pack, pieces, dif_neg h]
  rfl

/-- Digits of a power of a base and their digits in the base itself are packed into the same bytes, when as many times
    more of the smaller digits go to a byte. -/
theorem pack_fixedDigits (hbase : 1 < base) (hk : k ≠ 0) (n : Nat) (h : ∀ d ∈ ds, d < base ^ k) :
    pack base (k * n) (ds.flatMap (fixedDigits base k)) = pack (base ^ k) n ds := by
  induction ds using pieces.induct n with
  | case1 ds hend =>
    have hend' : k * n = 0 ∨ ds.flatMap (fixedDigits base k) = [] := by
      rcases hend with rfl | rfl
      · exact Or.inl (Nat.mul_zero k)
      · exact Or.inr rfl
    rw [pack_eq_nil _ hend, pack_eq_nil _ hend']
  | case2 ds hmore ih =>
    have hlength : ∀ d ∈ ds, (fixedDigits base k d).length = k := fun d hd => length_fixedDigits hbase (h d hd)
    have hmore' : ¬(k * n = 0 ∨ ds.flatMap (fixedDigits base k) = []) := by
      obtain ⟨hn, hne⟩ := not_or.mp hmore
      obtain ⟨d, hd⟩ := List.exists_mem_of_ne_nil ds hne
      rintro (hzero | hnil)
      · exact (Nat.mul_ne_zero hk hn) hzero
      · have hd' := hlength d hd
        rw [List.flatMap_eq_nil_iff.mp hnil d hd] at hd'
        exact hk hd'.symm
    rw [pack_of_pos base hmore', pack_of_pos _ hmore, take_flatMap hlength, drop_flatMap hlength,
      byteOf_fixedDigits hbase fun d hd => h d (List.mem_of_mem_take hd),
      ih fun d hd => h d (List.mem_of_mem_drop hd)]

/-- A byte is a digit in base 256. -/
theorem pack_toNat (bytes : Bytes) : pack 256 1 (bytes.map UInt8.toNat) = bytes := by
  induction bytes with
  | nil => exact pack_eq_nil 256 (Or.inr rfl)
  | cons b bytes ih =>
    have hb : byteOf 256 [b.toNat] = b := by
      rw [byteOf_eq, List.reverse_singleton, Nat.ofDigits_singleton, UInt8.ofNat_toNat]
    rw [List.map_cons, pack_of_pos 256 (by simp)]
    show byteOf 256 [b.toNat] :: pack 256 1 (bytes.map UInt8.toNat) = b :: bytes
    rw [hb, ih]

/-- Bytes are packed again from their digits. -/
theorem pack_of_bytes (hbase : 1 < base) (hk : base ^ k = 256) (bytes : Bytes) :
    pack base k (bytes.flatMap fun b => fixedDigits base k b.toNat) = bytes := by
  have hpos : k ≠ 0 := by
    rintro rfl
    rw [pow_zero] at hk
    omega
  have hlt : ∀ d ∈ bytes.map UInt8.toNat, d < base ^ k := by
    intro d hd
    obtain ⟨b, -, rfl⟩ := List.mem_map.mp hd
    rw [hk]
    exact b.toNat_lt
  have hpack := pack_fixedDigits hbase hpos 1 hlt
  rw [Nat.mul_one, List.flatMap_map, hk, pack_toNat] at hpack
  exact hpack

/-! ## Reading digit by digit -/

section Reading

variable {α β : Type} {read : α → Option β} {xs : List α} {x : α} {ys : List β}

/-- What can be read is read as a whole. -/
theorem readAll_of_map (h : xs.map read = ys.map some) : readAll read xs = .ok ys := by
  induction xs generalizing ys with
  | nil =>
    obtain rfl : ys = [] := List.map_eq_nil_iff.mp h.symm
    rfl
  | cons x xs ih =>
    cases ys with
    | nil => exact absurd h (List.cons_ne_nil _ _)
    | cons y ys =>
      obtain ⟨hx, hxs⟩ := List.cons.inj h
      simp only [readAll, hx, ih hxs]

/-- What is complained about is the first element that cannot be read. -/
theorem readAll_eq_error_iff : readAll read xs = .error x ↔ xs.find? (fun x => (read x).isNone) = some x := by
  induction xs with
  | nil => simp [readAll]
  | cons z xs ih =>
    cases hz : read z with
    | none => simp [readAll, hz]
    | some y =>
      rw [List.find?_cons_of_neg (by simp [hz]), ← ih]
      simp only [readAll, hz]
      cases readAll read xs <;> simp

end Reading

/-! ## Hexadecimal digits -/

/-- The characters that are read as hexadecimal digits are the digits of either case, with their values. -/
theorem nibble?_eq (c : Char) : nibble? c = if IsHexDigit c then some (hexDigitValue c) else none := by
  by_cases hascii : c.toNat < 128
  · have hall : ∀ n < 128, nibble? (Char.ofNat n)
        = if IsHexDigit (Char.ofNat n) then some (hexDigitValue (Char.ofNat n)) else none := by decide +kernel
    have hc := hall c.toNat hascii
    rwa [Char.ofNat_toNat] at hc
  · have habove : ∀ d : Char, d.toNat < 128 → ¬c ≤ d := by
      intro d hd hle
      have hle' : c.toNat ≤ d.toNat := hle
      omega
    have hlower : c.toLower = c := dif_neg fun h => habove 'Z' (by decide) h.2
    have halphabet : hexAlphabet.all (fun d => d.toNat < 128) = true := by decide
    have hno : ¬IsHexDigit c := by
      intro h
      rw [IsHexDigit, hlower] at h
      exact hascii (of_decide_eq_true (List.all_eq_true.mp halphabet c h))
    rw [if_neg hno, nibble?, if_neg fun h => habove '9' (by decide) h.2, if_neg fun h => habove 'f' (by decide) h.2,
      if_neg fun h => habove 'F' (by decide) h.2]

/-- The digits of a numeral are digits with their values. -/
theorem digitChar_spec {d : Nat} (h : d < 16) : d.digitChar ∈ hexAlphabet ∧ hexAlphabet.idxOf d.digitChar = d := by
  have hall : ∀ d < 16, d.digitChar ∈ hexAlphabet ∧ hexAlphabet.idxOf d.digitChar = d := by decide
  exact hall d h

theorem hexDigitValue_lt (h : IsHexDigit c) : hexDigitValue c < 16 := List.idxOf_lt_length_of_mem h

/-- A text of hexadecimal digits is read by their values. -/
theorem fromHex_of_digits (h : ∀ c ∈ text.toList, IsHexDigit c) :
    fromHex text = .ok (pack 16 2 (text.toList.map hexDigitValue)) := by
  have hread : text.toList.map nibble? = (text.toList.map hexDigitValue).map some := by
    rw [List.map_map]
    refine List.map_congr_left fun c hc => ?_
    rw [nibble?_eq, if_pos (h c hc)]
    rfl
  rw [fromHex, readAll_of_map hread]

/-- A text is refused as hexadecimal digits for its first character that is none. -/
theorem fromHex_eq_error_iff : fromHex text = .error e ↔ ∃ before c after, text.toList = before ++ c :: after
    ∧ (∀ d ∈ before, IsHexDigit d) ∧ ¬IsHexDigit c ∧ e = .of (.notHexDigit c text) := by
  have hnone : ∀ c, (nibble? c).isNone = !decide (IsHexDigit c) := by
    intro c
    rw [nibble?_eq]
    split <;> simp [*]
  have hread : fromHex text = .error e
      ↔ ∃ c, readAll nibble? text.toList = .error c ∧ e = .of (.notHexDigit c text) := by
    unfold fromHex
    cases readAll nibble? text.toList <;> simp [eq_comm]
  rw [hread]
  simp only [readAll_eq_error_iff, hnone, List.find?_eq_some_iff_append]
  constructor
  · rintro ⟨c, ⟨hc, before, after, hsplit, hbefore⟩, he⟩
    exact ⟨before, c, after, hsplit, fun d hd => by simpa using hbefore d hd, by simpa using hc, he⟩
  · rintro ⟨before, c, after, hsplit, hbefore, hc, he⟩
    exact ⟨c, ⟨by simpa using hc, before, after, hsplit, fun d hd => by simpa using hbefore d hd⟩, he⟩

/-! ## Binary digits -/

/-- Binary digits are read by their values. -/
theorem fromBinary_of_digits (h : ∀ d ∈ ds, d < 2) :
    fromBinary (String.ofList (ds.map Nat.digitChar)) = .ok (pack 2 8 ds) := by
  have hread : (utf8Bytes (String.ofList (ds.map Nat.digitChar))).map bit? = ds.map some := by
    rw [utf8Bytes, String.toList_ofList]
    induction ds with
    | nil => rfl
    | cons d ds ih =>
      obtain ⟨hd, hds⟩ := List.forall_mem_cons.mp h
      have hone : (String.utf8EncodeChar d.digitChar).map bit? = [some d] := by
        interval_cases d <;> rfl
      rw [List.map_cons, List.flatMap_cons, List.map_append, ih hds, hone]
      rfl
  rw [fromBinary, readAll_of_map hread]

/-- The first byte of a character is its code, or it is at least 192. -/
theorem utf8EncodeChar_first (c : Char) :
    ∃ m bs, String.utf8EncodeChar c = UInt8.ofNat m :: bs ∧ m < 256 ∧ (m = c.toNat ∨ 192 ≤ m) := by
  show ∃ m bs, String.utf8EncodeChar c = UInt8.ofNat m :: bs ∧ m < 256 ∧ (m = c.val.toNat ∨ 192 ≤ m)
  unfold String.utf8EncodeChar
  generalize c.val.toNat = v
  dsimp only
  split
  · exact ⟨v, _, rfl, by omega, Or.inl rfl⟩
  · split
    · exact ⟨_, _, rfl, by omega, Or.inr (by omega)⟩
    · split
      · exact ⟨_, _, rfl, by omega, Or.inr (by omega)⟩
      · exact ⟨_, _, rfl, by omega, Or.inr (by omega)⟩

/-- The bytes of a binary digit are read as binary digits; of any other character already the first byte is refused. -/
theorem find?_utf8EncodeChar (c : Char) : (String.utf8EncodeChar c).find? (fun b => (bit? b).isNone)
    = if c = '0' ∨ c = '1' then none else (String.utf8EncodeChar c).head? := by
  by_cases hbinary : c = '0' ∨ c = '1'
  · rw [if_pos hbinary]
    rcases hbinary with rfl | rfl <;> rfl
  · rw [if_neg hbinary]
    obtain ⟨m, bs, hbytes, hm, hfirst⟩ := utf8EncodeChar_first c
    have hne : ∀ d : Char, d.toNat < 192 → c ≠ d → UInt8.ofNat m ≠ UInt8.ofNat d.toNat := by
      intro d hd hcd heq
      have hcode : c.toNat ≠ d.toNat := fun h => hcd (Char.toNat_inj.mp h)
      have heq' := congrArg UInt8.toNat heq
      rw [UInt8.toNat_ofNat', UInt8.toNat_ofNat'] at heq'
      omega
    obtain ⟨hzero, hone⟩ := not_or.mp hbinary
    have hrefused : bit? (UInt8.ofNat m) = none := by
      show (if UInt8.ofNat m = UInt8.ofNat '0'.toNat then some 0
        else if UInt8.ofNat m = UInt8.ofNat '1'.toNat then some 1 else none) = none
      rw [if_neg (hne '0' (by decide) hzero), if_neg (hne '1' (by decide) hone)]
    rw [hbytes, List.find?_cons_of_pos (by rw [hrefused]; rfl), List.head?_cons]

/-- A text is refused as binary digits for its first character that is none, which is named by its first byte. -/
theorem fromBinary_eq_error_iff : fromBinary text = .error e ↔ ∃ before c after, text.toList = before ++ c :: after
    ∧ (∀ d ∈ before, d = '0' ∨ d = '1') ∧ ¬(c = '0' ∨ c = '1')
    ∧ ∃ b ∈ (String.utf8EncodeChar c).head?, e = .of (.notBinaryDigit (Char.ofNat b.toNat) text) := by
  have hread : fromBinary text = .error e ↔ ∃ b, readAll bit? (utf8Bytes text) = .error b
      ∧ e = .of (.notBinaryDigit (Char.ofNat b.toNat) text) := by
    unfold fromBinary
    cases readAll bit? (utf8Bytes text) <;> simp [eq_comm]
  rw [hread]
  unfold utf8Bytes
  simp only [readAll_eq_error_iff, List.find?_flatMap, find?_utf8EncodeChar, List.findSome?_eq_some_iff]
  constructor
  · rintro ⟨b, ⟨before, c, after, hsplit, hc, hbefore⟩, he⟩
    have hbefore' : ∀ d ∈ before, d = '0' ∨ d = '1' := by
      intro d hd
      by_contra hno
      have hd' := hbefore d hd
      rw [if_neg hno, List.head?_eq_none_iff] at hd'
      exact String.utf8EncodeChar_ne_nil hd'
    by_cases hbinary : c = '0' ∨ c = '1'
    · rw [if_pos hbinary] at hc
      cases hc
    · rw [if_neg hbinary] at hc
      exact ⟨before, c, after, hsplit, hbefore', hbinary, b, hc, he⟩
  · rintro ⟨before, c, after, hsplit, hbefore, hc, b, hb, he⟩
    refine ⟨b, ⟨before, c, after, hsplit, ?_, fun d hd => if_pos (hbefore d hd)⟩, he⟩
    rw [if_neg hc]
    exact hb

theorem fromBinary_fails_iff : (∃ e, fromBinary text = .error e) ↔ ∃ c ∈ text.toList, c ≠ '0' ∧ c ≠ '1' := by
  constructor
  · rintro ⟨e, he⟩
    obtain ⟨before, c, after, hsplit, -, hc, -⟩ := fromBinary_eq_error_iff.mp he
    refine ⟨c, ?_, not_or.mp hc⟩
    rw [hsplit]
    exact List.mem_append_right _ List.mem_cons_self
  · rintro ⟨c, hc, hno⟩
    -- among the characters that are no digit there is a first one
    obtain ⟨d, hfind⟩ := Option.isSome_iff_exists.mp
      (List.find?_isSome (p := fun c => decide (c ≠ '0' ∧ c ≠ '1')).mpr ⟨c, hc, decide_eq_true hno⟩)
    obtain ⟨hd, before, after, hsplit, hbefore⟩ := List.find?_eq_some_iff_append.mp hfind
    have hbinary : ∀ d ∈ before, d = '0' ∨ d = '1' := by
      intro d hd
      have hd' := hbefore d hd
      by_contra hno
      simp [not_or.mp hno] at hd'
    obtain ⟨m, bs, hbytes, -⟩ := utf8EncodeChar_first d
    exact ⟨_, fromBinary_eq_error_iff.mpr ⟨before, d, after, hsplit, hbinary, not_or.mpr (of_decide_eq_true hd),
      UInt8.ofNat m, by rw [hbytes]; rfl, rfl⟩⟩

/-! ## The two readings -/

theorem inDigits_eq (base width : Nat) (bytes : Bytes) : inDigits base width bytes
    = String.ofList ((bytes.flatMap fun b => fixedDigits base width b.toNat).map Nat.digitChar) := by
  rw [inDigits, List.map_flatMap]
  rfl

theorem lt_of_mem_flatMap_fixedDigits {α : Type} {value : α → Nat} {xs : List α} (hbase : 1 < base) {d : Nat}
    (h : d ∈ xs.flatMap fun x => fixedDigits base k (value x)) : d < base := by
  obtain ⟨x, -, hd⟩ := List.mem_flatMap.mp h
  exact lt_of_mem_fixedDigits hbase hd

/-- The bits of hexadecimal digits are packed as the digits are, however many there are. -/
theorem fromBinary_inBits (h : ∀ c ∈ text.toList, IsHexDigit c) :
    fromBinary (inBits text) = .ok (pack 16 2 (text.toList.map hexDigitValue)) := by
  have hbits : inBits text
      = String.ofList (((text.toList.map hexDigitValue).flatMap (fixedDigits 2 4)).map Nat.digitChar) := by
    rw [inBits, List.flatMap_map, List.map_flatMap]
    rfl
  have hfour : ∀ d ∈ text.toList.map hexDigitValue, d < 2 ^ 4 := by
    intro d hd
    obtain ⟨c, hc, rfl⟩ := List.mem_map.mp hd
    exact hexDigitValue_lt (h c hc)
  have hbinary : ∀ d ∈ (text.toList.map hexDigitValue).flatMap (fixedDigits 2 4), d < 2 :=
    fun d hd => lt_of_mem_flatMap_fixedDigits Nat.one_lt_two hd
  rw [hbits, fromBinary_of_digits hbinary]
  exact congrArg _ (pack_fixedDigits Nat.one_lt_two (by decide) 2 hfour)

/-- Bytes are read back from two hexadecimal digits for each one, of either case. -/
theorem fromHex_inDigits (h : text.toLower = inDigits 16 2 bytes) : fromHex text = .ok bytes := by
  generalize hds : (bytes.flatMap fun b => fixedDigits 16 2 b.toNat) = ds
  have hlt : ∀ d ∈ ds, d < 16 := by
    intro d hd
    rw [← hds] at hd
    exact lt_of_mem_flatMap_fixedDigits (by decide) hd
  have hlower : text.toList.map Char.toLower = ds.map Nat.digitChar := by
    rw [← String.toList_map]
    show text.toLower.toList = _
    rw [h, inDigits_eq, String.toList_ofList, hds]
  have hdigits : ∀ c ∈ text.toList, IsHexDigit c := by
    intro c hc
    have hmem : c.toLower ∈ ds.map Nat.digitChar := hlower ▸ List.mem_map_of_mem hc
    obtain ⟨d, hd, heq⟩ := List.mem_map.mp hmem
    show c.toLower ∈ hexAlphabet
    rw [← heq]
    exact (digitChar_spec (hlt d hd)).1
  have hvalues : text.toList.map hexDigitValue = ds := by
    calc text.toList.map hexDigitValue
        = (text.toList.map Char.toLower).map (fun c => hexAlphabet.idxOf c) := by rw [List.map_map]; rfl
      _ = ds.map (fun d => hexAlphabet.idxOf d.digitChar) := by rw [hlower, List.map_map]; rfl
      _ = ds.map id := List.map_congr_left fun d hd => (digitChar_spec (hlt d hd)).2
      _ = ds := List.map_id ds
  rw [fromHex_of_digits hdigits, hvalues, ← hds, pack_of_bytes (by decide) (by decide)]

/-- Bytes are read back from eight binary digits for each one. -/
theorem fromBinary_inDigits (bytes : Bytes) : fromBinary (inDigits 2 8 bytes) = .ok bytes := by
  rw [inDigits_eq, fromBinary_of_digits fun d hd => lt_of_mem_flatMap_fixedDigits Nat.one_lt_two hd,
    pack_of_bytes Nat.one_lt_two (by decide)]

/-- Hexadecimal digits of either case, however many there are, are read, and so is the text in which each one is
    replaced by its four bits: both give the same bytes.  Bytes are read back from two hexadecimal digits for each one,
    of either case, and from eight binary digits for each one.  A text is refused as binary digits if it has a character
    that is none, and only then. -/
theorem digits_agree_and_invert :
    (∀ text : String, (∀ c ∈ text.toList, IsHexDigit c) →
        ∃ bytes, fromHex text = .ok bytes ∧ fromBinary (inBits text) = .ok bytes)
    ∧ (∀ (bytes : Bytes) (text : String), text.toLower = inDigits 16 2 bytes → fromHex text = .ok bytes)
    ∧ (∀ bytes : Bytes, fromBinary (inDigits 2 8 bytes) = .ok bytes)
    ∧ ∀ text, (∃ e, fromBinary text = .error e) ↔ ∃ c ∈ text.toList, c ≠ '0' ∧ c ≠ '1' := by
  refine ⟨?_, ?_, fromBinary_inDigits, fun text => fromBinary_fails_iff⟩
  · intro text h
    exact ⟨_, fromHex_of_digits h, fromBinary_inBits h⟩
  · intro bytes text h
    exact fromHex_inDigits h

/-- Three digits of both cases make a byte and a half, and digits of both cases spell two bytes. -/
theorem digits_agree_and_invert_left_over :
    (∀ c ∈ "aBc".toList, IsHexDigit c) ∧ inBits "aBc" = "101010111100"
      ∧ (∃ bytes, fromHex "aBc" = .ok bytes ∧ fromBinary "101010111100" = .ok bytes)
      ∧ "0fA0".toLower = inDigits 16 2 [0x0F, 0xA0] ∧ fromHex "0fA0" = .ok [0x0F, 0xA0]
      ∧ ∃ e, fromBinary "01é" = .error e := by
  obtain ⟨hagree, hinvert, -, hfails⟩ := digits_agree_and_invert
  have hdigits : ∀ c ∈ "aBc".toList, IsHexDigit c := by
    have hall : "aBc".toList.all (fun c => decide (IsHexDigit c)) = true := by decide
    exact fun c hc => of_decide_eq_true (List.all_eq_true.mp hall c hc)
  have hbits : inBits "aBc" = "101010111100" := by decide
  have hlower : "0fA0".toLower = inDigits 16 2 [0x0F, 0xA0] := by
    rw [← String.toList_inj]
    show (String.map Char.toLower "0fA0").toList = _
    rw [String.toList_map]
    decide
  exact ⟨hdigits, hbits, hbits ▸ hagree "aBc" hdigits, hlower, hinvert _ _ hlower,
    (hfails "01é").mpr ⟨'é', by decide, by decide⟩⟩

end Stencil.Codec
