/-
  Decimal fields.

  The bytes of a decimal integer are its two's complement, least significant byte first, in as few bytes as hold the
  integer or in the width that is asked for, whichever is more.  Three facts carry this:

    * the bytes stand for the integer, and no fewer bytes would (`signedValue_signedBytes`, `isLeast_signedBytes`);
    * bytes that repeat the sign behind them stand for the same integer (`signedValue_signExtend`);
    * the first bytes of two's complement stand, without a sign, for the remainder (`ofDigits_take`).

  A field of a width cuts off what is too much.  As the bytes are extended to the width first, there is nothing left to
  pad, so padding never shows (`layout_of_decimal`).
-/
import Mathlib.Data.Nat.Digits.Defs
import Mathlib.Order.Bounds.Basic
import Stencil.Proofs.Field.Layout
import Stencil.Tree.Element

set_option autoImplicit false

namespace Stencil

open Stencil.Text (Numeral digitsValue freeDigits freeInt isBlank isDigit trim trimChars)

namespace Text

variable {text : String} {cs : List Char} {n : Int}

/-! ## Decimal integers in a text -/

/-- A text is the numeral of an integer, with blanks around it or without. -/
def Denotes (text : String) (n : Int) : Prop :=
  ∃ before digits after, text.toList = before ++ digits ++ after ∧ (∀ c ∈ before ++ after, isBlank c = true)
    ∧ Numeral digits n

/-- A numeral has at least one character, and no blank. -/
theorem Numeral.not_blank (h : Numeral cs n) : cs ≠ [] ∧ ∀ c ∈ cs, isBlank c = false := by
  have hdigits : ∀ {ds : List Char}, (∀ c ∈ ds, isDigit c = true) → ∀ c ∈ ds, isBlank c = false :=
    fun hds c hc => not_isBlank_of_isDigit (hds c hc)
  cases h with
  | bare digits some => exact ⟨some, hdigits digits⟩
  | plus digits some => exact ⟨List.cons_ne_nil _ _, List.forall_mem_cons.mpr ⟨by decide, hdigits digits⟩⟩
  | minus digits some => exact ⟨List.cons_ne_nil _ _, List.forall_mem_cons.mpr ⟨by decide, hdigits digits⟩⟩

/-- Dropping blanks at the beginning gets to what is not blank. -/
theorem dropWhile_blank {before cs rest : List Char} (hbefore : ∀ c ∈ before, isBlank c = true) (hne : cs ≠ [])
    (hcs : ∀ c ∈ cs, isBlank c = false) : (before ++ (cs ++ rest)).dropWhile isBlank = cs ++ rest := by
  obtain ⟨c, cs', rfl⟩ := List.exists_cons_of_ne_nil hne
  rw [List.dropWhile_append_of_pos hbefore, List.cons_append, List.dropWhile_cons_of_neg]
  rw [hcs c List.mem_cons_self]
  exact Bool.false_ne_true

/-- What is left of a text when the blanks around its numeral are dropped. -/
theorem trim_of_denotes (h : Denotes text n) : Numeral (trim text).toList n := by
  obtain ⟨before, cs, after, htext, hblank, hn⟩ := h
  obtain ⟨hne, hcs⟩ := hn.not_blank
  obtain ⟨hbefore, hafter⟩ := List.forall_mem_append.mp hblank
  have htrim : trimChars (before ++ cs ++ after) = cs := by
    unfold trimChars Text.dropBlankEnd
    have hback : (after.reverse ++ (cs.reverse ++ [])).dropWhile isBlank = cs.reverse ++ [] :=
      dropWhile_blank (fun c hc => hafter c (List.mem_reverse.mp hc)) (by simpa using hne)
        fun c hc => hcs c (List.mem_reverse.mp hc)
    rw [List.append_nil] at hback
    rw [List.append_assoc, dropWhile_blank hbefore hne hcs, List.reverse_append, hback, List.reverse_reverse]
  unfold trim
  rw [String.toList_ofList, htext, htrim]
  exact hn

/-- What blanks are dropped around is all that a text is. -/
theorem denotes_of_trim (h : Numeral (trim text).toList n) : Denotes text n := by
  have hends : ∀ cs : List Char, ∃ blank, cs = blank ++ cs.dropWhile isBlank ∧ ∀ c ∈ blank, isBlank c = true :=
    fun cs => ⟨cs.takeWhile isBlank, List.takeWhile_append_dropWhile.symm, fun c hc =>
      List.all_eq_true.mp List.all_takeWhile c hc⟩
  obtain ⟨before, hbefore, hblank⟩ := hends text.toList
  obtain ⟨after, hafter, hblank'⟩ := hends (text.toList.dropWhile isBlank).reverse
  unfold trim trimChars dropBlankEnd at h
  rw [String.toList_ofList] at h
  refine ⟨before, _, after.reverse, ?_, fun c hc => ?_, h⟩
  · rw [List.append_assoc, ← List.reverse_append, ← hafter, List.reverse_reverse]
    exact hbefore
  · exact (List.mem_append.mp hc).elim (hblank c) fun hc => hblank' c (List.mem_reverse.mp hc)

theorem freeDigits_of_digits (hdigits : ∀ c ∈ cs, isDigit c = true) (hne : cs ≠ []) :
    freeDigits cs = .ok (digitsValue cs) := by
  have hfilter : cs.filter (· != '_') = cs := by
    refine List.filter_eq_self.mpr fun c hc => ?_
    have hc := hdigits c hc
    by_contra hno
    have he : c = '_' := by simpa using hno
    rw [he] at hc
    exact absurd hc (by decide)
  unfold freeDigits
  split
  · exact absurd rfl hne
  · exact absurd (hdigits '_' List.mem_cons_self) (by decide)
  · simp only [hfilter]
    exact if_pos (List.all_eq_true.mpr hdigits)

/-- The numeral of an integer of any size is read as that integer. -/
theorem freeInt_of_numeral (h : Numeral text.toList n) : freeInt text = .ok n := by
  unfold freeInt
  generalize text.toList = cs at h
  cases h with
  | @bare cs digits some =>
    split
    · exact absurd (digits '-' List.mem_cons_self) (by decide)
    · exact absurd (digits '-' List.mem_cons_self) (by decide)
    · exact absurd (digits '+' List.mem_cons_self) (by decide)
    · rw [freeDigits_of_digits digits some]
      rfl
  | @plus cs digits some =>
    split
    · rename_i heq
      cases heq
    · rename_i heq
      cases heq
    · rename_i heq
      cases heq
      rw [freeDigits_of_digits digits some]
      rfl
    · rename_i hplus
      exact absurd rfl (hplus cs)
  | @minus cs digits some =>
    split
    · rename_i heq
      cases heq
      exact absurd (digits '+' List.mem_cons_self) (by decide)
    · rename_i heq
      cases heq
      rw [freeDigits_of_digits digits some]
      rfl
    · rename_i heq
      cases heq
    · rename_i hminus _
      exact absurd rfl (hminus cs)

end Text

namespace Codec

variable {n : Int} {bs : Bytes} {m k : Nat}

/-! ## Two's complement -/

/-- Whether an integer can be held by so many bytes of two's complement. -/
def Fits (n : Int) (m : Nat) : Prop := 0 < m ∧ -(2 ^ (8 * m - 1)) ≤ n ∧ n < 2 ^ (8 * m - 1)

theorem fits_succ : Fits n (k + 1) ↔ -(128 * 256 ^ k) ≤ n ∧ n < 128 * 256 ^ k := by
  have hpow : (2 : Int) ^ (8 * (k + 1) - 1) = 128 * 256 ^ k := by
    rw [show 8 * (k + 1) - 1 = 7 + 8 * k by omega, pow_add, pow_mul]
    rfl
  unfold Fits
  rw [hpow]
  exact and_iff_right (Nat.succ_pos k)

/-- An integer fits when what is above its lowest byte does, with a byte less. -/
theorem fits_div : Fits n (k + 2) ↔ Fits (n / 256) (k + 1) := by
  rw [fits_succ, fits_succ, pow_succ]
  generalize (256 : Int) ^ k = p
  omega

theorem toNat_lowByte (n : Int) : ((lowByte n).toNat : Int) = n % 256 := by
  unfold lowByte
  rw [UInt8.toNat_ofNat']
  omega

theorem signedBytes_ne_nil (n : Int) : signedBytes n ≠ [] := by
  unfold signedBytes
  split <;> exact List.cons_ne_nil _ _

theorem signedValue_cons (b : UInt8) (h : bs ≠ []) : signedValue (b :: bs) = b.toNat + 256 * signedValue bs := by
  obtain ⟨c, cs, rfl⟩ := List.exists_cons_of_ne_nil h
  rfl

theorem signedValue_singleton (b : UInt8) : signedValue [b] = if b.toNat < 128 then (b.toNat : Int) else b.toNat - 256 := by
  show (if b < 128 then (b.toNat : Int) else b.toNat - 256) = _
  simp only [UInt8.lt_iff_toNat_lt, UInt8.toNat_ofNat]

/-- The bytes of an integer stand for it. -/
theorem signedValue_signedBytes (n : Int) : signedValue (signedBytes n) = n := by
  induction n using signedBytes.induct with
  | case1 n h =>
    rw [signedBytes, dif_pos h, signedValue_singleton]
    have hlow := toNat_lowByte n
    split <;> omega
  | case2 n h ih =>
    rw [signedBytes, dif_neg h, signedValue_cons _ (signedBytes_ne_nil _), ih, toNat_lowByte]
    omega

/-- The bytes of an integer are the fewest that hold it. -/
theorem isLeast_signedBytes (n : Int) : IsLeast {m | Fits n m} (signedBytes n).length := by
  induction n using signedBytes.induct with
  | case1 n h =>
    rw [signedBytes, dif_pos h, List.length_singleton]
    refine ⟨fits_succ.mpr ?_, fun m hm => hm.1⟩
    rw [pow_zero]
    omega
  | case2 n h ih =>
    obtain ⟨hfits, hleast⟩ := ih
    obtain ⟨k, hk⟩ := Nat.exists_eq_succ_of_ne_zero (Nat.ne_of_gt hfits.1)
    rw [signedBytes, dif_neg h, List.length_cons]
    rw [hk] at hfits hleast ⊢
    refine ⟨fits_div.mpr hfits, fun m hm => ?_⟩
    match m with
    | 0 => exact absurd hm.1 (Nat.lt_irrefl 0)
    | 1 =>
      -- one byte is not enough
      obtain ⟨hlow, hhigh⟩ := fits_succ.mp hm
      omega
    | m + 2 => exact Nat.succ_le_succ (hleast (fits_div.mp hm))

/-! ## Extending, and cutting off -/

/-- A byte that repeats the sign changes nothing. -/
theorem signedValue_append_sign (h : bs ≠ []) :
    signedValue (bs ++ [if signedValue bs < 0 then 0xFF else 0x00]) = signedValue bs := by
  induction bs with
  | nil => exact absurd rfl h
  | cons b bs ih =>
    have hb := b.toNat_lt
    by_cases hbs : bs = []
    · subst hbs
      rw [List.singleton_append, signedValue_cons b (List.cons_ne_nil _ _), signedValue_singleton b]
      by_cases hlow : b.toNat < 128
      · rw [if_pos hlow, if_neg (by omega)]
        exact Int.add_zero _
      · rw [if_neg hlow, if_pos (by omega)]
        rfl
    · have hsign : (signedValue (b :: bs) < 0) = (signedValue bs < 0) := by
        rw [signedValue_cons b hbs]
        exact propext (by omega)
      simp only [hsign]
      rw [List.cons_append, signedValue_cons b (by simp), ih hbs, signedValue_cons b hbs]

/-- Bytes that are extended to a width stand for the same integer. -/
theorem signedValue_signExtend (width : Nat) (h : bs ≠ []) :
    signedValue (signExtend (signedValue bs) width bs) = signedValue bs := by
  unfold signExtend
  generalize width - bs.length = k
  induction k with
  | zero => rw [List.replicate_zero, List.append_nil]
  | succ k ih =>
    have hne : bs ++ List.replicate k (if signedValue bs < 0 then 0xFF else 0x00) ≠ [] := by simp [h]
    have hsign := signedValue_append_sign hne
    rw [ih] at hsign
    rw [List.replicate_succ', ← List.append_assoc, hsign]

theorem length_signExtend (n : Int) (width : Nat) (bs : Bytes) :
    (signExtend n width bs).length = max width bs.length := by
  unfold signExtend
  rw [List.length_append, List.length_replicate]
  omega

/-- The first bytes of two's complement stand, without a sign, for a remainder. -/
theorem ofDigits_take (h : k ≤ bs.length) :
    Nat.ofDigits (256 : Int) ((bs.take k).map UInt8.toNat) = signedValue bs % 256 ^ k := by
  induction k generalizing bs with
  | zero => rw [List.take_zero, pow_zero, Int.emod_one]; rfl
  | succ k ih =>
    obtain ⟨b, bs, rfl⟩ := List.exists_cons_of_length_pos (Nat.lt_of_lt_of_le (Nat.succ_pos k) h)
    have hb := b.toNat_lt
    rw [List.take_succ_cons, List.map_cons]
    show (b.toNat : Int) + 256 * Nat.ofDigits (256 : Int) ((bs.take k).map UInt8.toNat) = _
    rw [ih (Nat.le_of_succ_le_succ h), pow_succ]
    by_cases hbs : bs = []
    · subst hbs
      obtain rfl : k = 0 := Nat.le_zero.mp (Nat.le_of_succ_le_succ h)
      rw [signedValue_singleton]
      have hzero : signedValue [] = 0 := rfl
      split <;> omega
    · have hpos : (0 : Int) < 256 ^ k := by positivity
      have hlow := Int.emod_nonneg (signedValue bs) (Int.ne_of_gt hpos)
      have hhigh := Int.emod_lt_of_pos (signedValue bs) hpos
      have hsplit := Int.emod_add_mul_ediv (signedValue bs) (256 ^ k)
      rw [signedValue_cons b hbs]
      calc (b.toNat : Int) + 256 * (signedValue bs % 256 ^ k)
          = (b.toNat + 256 * (signedValue bs % 256 ^ k)) % (256 ^ k * 256) :=
            (Int.emod_eq_of_lt (by omega) (by omega)).symm
        _ = (b.toNat + 256 * (signedValue bs % 256 ^ k) + 256 ^ k * 256 * (signedValue bs / 256 ^ k))
              % (256 ^ k * 256) := (Int.add_mul_emod_self_left _ _ _).symm
        _ = (b.toNat + 256 * signedValue bs) % (256 ^ k * 256) := by
            congr 1
            nth_rewrite 3 [← hsplit]
            ring

/-- The bytes of a decimal integer for a width. -/
theorem fromDecimal_of_denotes {text : String} (h : Text.Denotes text n) (width : Nat) :
    ∃ bytes, fromDecimal text width = .ok bytes ∧ signedValue bytes = n
      ∧ bytes.length = max width (signedBytes n).length := by
  refine ⟨signExtend n width (signedBytes n), ?_, ?_, length_signExtend _ _ _⟩
  · unfold fromDecimal
    rw [Text.freeInt_of_numeral (Text.trim_of_denotes h)]
  · have hvalue := signedValue_signExtend width (signedBytes_ne_nil n)
    rwa [signedValue_signedBytes] at hvalue

end Codec

namespace Field

open Codec (Fits fromDecimal signedBytes signedValue)

variable {t : Tree} {item : NodeId} {text width : String} {n : Int} {w : Nat} {pad : Bytes}

/-- A decimal field with a width has the bytes of its integer's remainder, whatever its padding is. -/
theorem layout_of_decimal (h : Text.Denotes text n) (hcodec : t.attr? item "encoding" = some "decimal")
    (hwidth : WidthText t item width) (hw : Integral width w) (hpos : 1 ≤ w) (hmax : (w : Int) ≤ maxWidth)
    (hpad : encodePad .decimal (padText t item) = .ok pad) :
    ∃ l, layout t item text = .ok l ∧ l.recorded = some (w : Int) ∧ l.bytes.length = w
      ∧ Nat.ofDigits (256 : Int) (l.bytes.map UInt8.toNat) = n % 256 ^ w
      ∧ (Fits n w → signedValue l.bytes = n) := by
  obtain ⟨bytes, hbytes, hvalue, hlength⟩ := Codec.fromDecimal_of_denotes h w
  have hne : text ≠ "" := by
    rintro rfl
    exact (Text.trim_of_denotes h).not_blank.1 rfl
  have hlong : w ≤ bytes.length := hlength ▸ Nat.le_max_left _ _
  have hpad' : encodePad (.ofName (t.attr? item "encoding")) (padText t item) = .ok pad := by
    rw [hcodec]
    exact hpad
  have hbody : encodeFor (.ofName (t.attr? item "encoding")) text (w : Int).toNat = .ok bytes := by
    rw [hcodec, encodeFor, if_neg hne, Int.toNat_natCast]
    exact hbytes
  obtain ⟨l, hl, hrecorded, -, hfit⟩ := layout_fits (width?_eq_ok hwidth hw hmax) (by omega) hpad' hbody
  rw [Int.toNat_natCast, if_pos hlong] at hfit
  refine ⟨l, hl, hrecorded, ?_, ?_, fun hfits => ?_⟩
  · rw [hfit, List.length_take]
    exact Nat.min_eq_left hlong
  · rw [hfit, Codec.ofDigits_take hlong, hvalue]
  · have hleast := (Codec.isLeast_signedBytes n).2 hfits
    rw [hfit, List.take_of_length_le (by omega), hvalue]

/-- A decimal integer of any size, whatever blanks are around it, has bytes for every width: they are the two's complement
    of the integer, least significant byte first, and they are as many as the width or as few as hold the integer,
    whichever is more.  A decimal field of a width from 1 to the greatest one, with a padding that has bytes or none, has
    the bytes of the integer's remainder by the range of its width, whatever its padding is; so they stand for the
    integer itself if it lies in the range of the width. -/
theorem decimal_twos_complement (h : Text.Denotes text n) :
    (∃ m, IsLeast {k | Fits n k} m ∧ ∀ k, ∃ bytes, fromDecimal text k = .ok bytes ∧ signedValue bytes = n
      ∧ bytes.length = max k m)
    ∧ ∀ (t : Tree) (item : NodeId) (width : String) (w : Nat) (pad : Bytes),
        t.attr? item "encoding" = some "decimal" → WidthText t item width → Integral width w → 1 ≤ w →
        (w : Int) ≤ maxWidth → encodePad .decimal (padText t item) = .ok pad →
        ∃ l, layout t item text = .ok l ∧ l.recorded = some (w : Int) ∧ l.bytes.length = w
          ∧ Nat.ofDigits (256 : Int) (l.bytes.map UInt8.toNat) = n % 256 ^ w
          ∧ (-(2 ^ (8 * w - 1)) ≤ n → n < 2 ^ (8 * w - 1) → signedValue l.bytes = n) := by
  refine ⟨⟨_, Codec.isLeast_signedBytes n, Codec.fromDecimal_of_denotes h⟩,
    fun t item width w pad hcodec hwidth hw hpos hmax hpad => ?_⟩
  obtain ⟨l, hl, hrecorded, hlength, hremainder, hfits⟩ := layout_of_decimal h hcodec hwidth hw hpos hmax hpad
  exact ⟨l, hl, hrecorded, hlength, hremainder, fun hlow hhigh => hfits ⟨hpos, hlow, hhigh⟩⟩

/-- The integer -129 has two bytes, and a field of one byte with padding on its left has the lower one. -/
theorem decimal_twos_complement_cut_off :
    let t := Tree.ofElement (.mk "item" [("encoding", "decimal"), ("bytes", "1"), ("lpadding", "7")] "" .none [])
    Text.Denotes " -129\n" (-129)
      ∧ (∃ bytes, fromDecimal " -129\n" 1 = .ok bytes ∧ signedValue bytes = -129 ∧ bytes.length = 2)
      ∧ ∃ l, layout t 0 " -129\n" = .ok l ∧ l.bytes.length = 1
        ∧ Nat.ofDigits (256 : Int) (l.bytes.map UInt8.toNat) = -129 % 256 := by
  intro t
  have hnumeral : Text.Numeral ['-', '1', '2', '9'] (-(Text.digitsValue ['1', '2', '9'] : Int)) :=
    .minus (List.all_eq_true.mp rfl) (List.cons_ne_nil _ _)
  have hdenotes : Text.Denotes " -129\n" (-129) :=
    ⟨[' '], ['-', '1', '2', '9'], ['\n'], rfl, List.all_eq_true.mp rfl, hnumeral⟩
  obtain ⟨⟨m, hm, hbytes⟩, hfield⟩ := decimal_twos_complement hdenotes
  obtain ⟨bytes, hread, hvalue, hlength⟩ := hbytes 1
  have hone : Text.Numeral ['1'] (Text.digitsValue ['1'] : Int) := .bare (List.all_eq_true.mp rfl) (List.cons_ne_nil _ _)
  have hwidth : Integral "1" (1 : Nat) := ⟨hone, by decide⟩
  obtain ⟨l, hl, -, hlengthOne, hremainder, -⟩ := hfield t 0 "1" 1 [7] (by decide) (.literal (by decide)) hwidth
    (Nat.le_refl 1) (by decide) (by decide +kernel)
  refine ⟨hdenotes, ⟨bytes, hread, hvalue, ?_⟩, l, hl, hlengthOne, hremainder⟩
  have htwo : IsLeast {k | Fits (-129) k} 2 := by
    refine ⟨⟨by decide, by decide, by decide⟩, fun k hk => ?_⟩
    by_contra hlt
    obtain rfl : k = 1 := by have := hk.1; omega
    exact absurd hk.2.1 (by decide)
  rw [hlength, hm.unique htwo]
  rfl

end Field

end Stencil
