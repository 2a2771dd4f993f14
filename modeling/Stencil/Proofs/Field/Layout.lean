/-
  The bytes of a field, byte for byte.

  A field has a width if it states one: the text of `bytes`, or else what the query of `xbytes` gives (`WidthText`), is a
  numeral.  Three things are said apart from how the bytes are worked out:

    * which texts are widths: the numerals of thirty-two bits up to the greatest width (`readWidth_eq_ok_iff`);
    * what fills a field: its padding written again and again without end (`endless`, `fill_eq_take`);
    * what can go wrong: the width, the padding or the encoding of the value, and nothing else (`layout_eq_error_iff`).

  `layout_exact` puts them together.
-/
import Mathlib.Data.Stream.Init
import Stencil.Field.Layout
import Stencil.Proofs.Text

set_option autoImplicit false

namespace Stencil.Field

open Stencil.Text (Bounds Numeral boundedInt boundedInt_eq_ok_iff trim)

variable {t : Tree} {item : NodeId} {value text : String} {codec : Codec} {pad body : Bytes} {e : Error} {w : Int}

/-! ## Widths -/

/-- The text that states the width of a field. -/
inductive WidthText (t : Tree) (item : NodeId) : String → Prop
  /-- It is written out. -/
  | literal {text : String} (bytes : t.attr? item "bytes" = some text) : WidthText t item text
  /-- It is computed. -/
  | computed {source text : String} (bytes : t.attr? item "bytes" = none) (xbytes : t.attr? item "xbytes" = some source)
    (result : Query.evaluate t (.element item) source = .ok text) : WidthText t item text

/-- Whether a text is the numeral of an integer of thirty-two bits, blanks around it apart. -/
def Integral (text : String) (w : Int) : Prop := Numeral (trim text).toList w ∧ Bounds.int32.Holds w

theorem boundedInt_width : boundedInt .int32 (trim text) = .ok w ↔ Integral text w :=
  boundedInt_eq_ok_iff (by decide) (by decide)

/-- A width is an integer of thirty-two bits that is not above the greatest width. -/
theorem readWidth_eq_ok_iff : readWidth text = .ok w ↔ Integral text w ∧ w ≤ maxWidth := by
  unfold readWidth
  rw [← boundedInt_width]
  cases boundedInt .int32 (trim text) with
  | error fault => simp
  | ok n =>
    by_cases hmax : maxWidth < n
    · simp only [if_pos hmax, reduceCtorEq, Except.ok.injEq, false_iff, not_and, Int.not_le]
      exact fun he => he ▸ hmax
    · simp only [if_neg hmax, Except.ok.injEq]
      exact ⟨fun he => ⟨he, he ▸ Int.not_lt.mp hmax⟩, fun h => h.1⟩

theorem readWidth_above (h : Integral text w) (hmax : maxWidth < w) :
    readWidth text = .error (.of (.widthAbove w maxWidth)) := by
  unfold readWidth
  rw [boundedInt_width.mpr h]
  exact if_pos hmax

theorem readWidth_bad (h : ∀ w, ¬ Integral text w) : ∃ fault, readWidth text = .error (.of (.badWidth text fault)) := by
  unfold readWidth
  cases hread : boundedInt .int32 (trim text) with
  | error fault => exact ⟨fault, rfl⟩
  | ok n => exact absurd (boundedInt_width.mp hread) (h n)

theorem width?_of_text (h : WidthText t item text) : width? t item = (readWidth text).map some := by
  unfold width?
  cases h with
  | literal bytes =>
    rw [bytes]
    dsimp only
    cases readWidth text <;> rfl
  | computed bytes xbytes result =>
    rw [bytes, xbytes]
    simp only [result, bind, Except.bind]
    cases readWidth text <;> rfl

theorem width?_of_none (hbytes : t.attr? item "bytes" = none) (hxbytes : t.attr? item "xbytes" = none) :
    width? t item = .ok none := by
  unfold width?
  rw [hbytes, hxbytes]
  rfl

/-- The width of a field is a numeral that the field states. -/
theorem width?_eq_ok (h : WidthText t item text) (hw : Integral text w) (hmax : w ≤ maxWidth) :
    width? t item = .ok (some w) := by
  rw [width?_of_text h, readWidth_eq_ok_iff.mpr ⟨hw, hmax⟩]
  rfl

/-! ## Padding -/

/-- A padding without end: its bytes again and again, or zeros if it has none. -/
def endless (pad : Bytes) : Stream' UInt8 :=
  if h : pad = [] then Stream'.const 0 else Stream'.cycle pad h

theorem get_cycle (h : pad ≠ []) (n : Nat) : (Stream'.cycle pad h).get n = pad.getD (n % pad.length) 0 := by
  have hpos : 0 < pad.length := List.length_pos_iff.mpr h
  induction n using Nat.strong_induction_on with
  | _ n ih =>
    rw [Stream'.cycle_eq]
    by_cases hn : n < pad.length
    · rw [Stream'.get_append_left _ _ _ hn, Nat.mod_eq_of_lt hn]
      simp [hn]
    · obtain ⟨k, rfl⟩ := Nat.exists_eq_add_of_le (Nat.le_of_not_lt hn)
      rw [Stream'.get_append_right, ih k (by omega), Nat.add_mod_left]

/-- The padding that a field declares, as text. -/
def padText (t : Tree) (item : NodeId) : String :=
  ((t.attr? item "lpadding").or ((t.attr? item "padding").or (t.attr? item "rpadding"))).getD ""

theorem padding_eq :
    padding t item = (if (t.attr? item "lpadding").isSome then .left else .right, padText t item) := by
  unfold padding padText
  cases t.attr? item "lpadding" <;> rfl

/-- The bytes that a text of padding stands for. -/
def encodePad (codec : Codec) (text : String) : Except Error Bytes :=
  if text = "" then .ok [] else codec.encode text 0

theorem padBytes_eq : padBytes codec text = (encodePad codec text).map fun pad => if pad = [] then [0] else pad := by
  unfold padBytes encodePad
  by_cases h : text = ""
  · subst h
    rfl
  · have hempty : text.isEmpty = false := by simpa using h
    rw [if_neg h, hempty]
    cases codec.encode text 0 with
    | error e => rfl
    | ok pad => cases pad <;> rfl

/-- What fills a field is the beginning of its padding without end. -/
theorem fill_eq_take (pad : Bytes) (n : Nat) : fill (if pad = [] then [0] else pad) n = (endless pad).take n := by
  refine List.ext_getElem (by rw [length_fill, Stream'.length_take]) fun i hi hi' => ?_
  rw [Stream'.take_get]
  by_cases h : pad = []
  · have hzero : (endless pad).get i = 0 := by
      rw [endless, dif_pos h]
      rfl
    rw [hzero]
    simp [fill, h, Nat.mod_one]
  · rw [endless, dif_neg h, get_cycle h]
    simp [fill, h]

/-! ## Bytes -/

/-- The bytes of a value for a width; an empty value has none. -/
def encodeFor (codec : Codec) (value : String) (n : Nat) : Except Error Bytes :=
  if value = "" then .ok [] else codec.encode value n

/-- What can go wrong with the bytes of a field. -/
inductive Unfit (t : Tree) (item : NodeId) (value : String) : Error → Prop
  /-- There is no width where one is stated. -/
  | width {e : Error} (width : width? t item = .error e) : Unfit t item value e
  /-- The padding has no bytes. -/
  | padding {w : Int} {e : Error} (width : width? t item = .ok (some w)) (pos : 0 < w)
    (padding : encodePad (.ofName (t.attr? item "encoding")) (padText t item) = .error e) : Unfit t item value e
  /-- The value has no bytes for the width. -/
  | fitted {w : Int} {pad : Bytes} {e : Error} (width : width? t item = .ok (some w)) (pos : 0 < w)
    (padding : encodePad (.ofName (t.attr? item "encoding")) (padText t item) = .ok pad)
    (body : encodeFor (.ofName (t.attr? item "encoding")) value w.toNat = .error e) : Unfit t item value e
  /-- The value has no bytes of its own width. -/
  | natural {e : Error} (width : width? t item = .ok none)
    (body : encodeFor (.ofName (t.attr? item "encoding")) value 0 = .error e) : Unfit t item value e

theorem layout_of_width_error (hw : width? t item = .error e) : layout t item value = .error e := by
  unfold layout
  rw [hw]
  rfl

theorem layout_of_nonpos (hw : width? t item = .ok (some w)) (hle : w ≤ 0) : layout t item value = .ok ⟨[], some w⟩ := by
  unfold layout
  rw [hw]
  exact if_pos hle

/-- Without a width the bytes are those of the value. -/
theorem layout_of_none (hw : width? t item = .ok none) : layout t item value
    = (encodeFor (.ofName (t.attr? item "encoding")) value 0).map fun body =>
        ⟨body, if value = "" then none else some body.length⟩ := by
  unfold layout encodeFor
  rw [hw]
  by_cases h : value = ""
  · subst h
    rfl
  · have hempty : value.isEmpty = false := by simpa using h
    simp only [if_neg h, hempty]
    cases (Codec.ofName (t.attr? item "encoding")).encode value 0 <;> rfl

/-- With a width the bytes are those of the value, which are made to fit. -/
theorem layout_of_pos (hw : width? t item = .ok (some w)) (hpos : 0 < w) : layout t item value
    = (do
        let pad ← encodePad (.ofName (t.attr? item "encoding")) (padText t item)
        let body ← encodeFor (.ofName (t.attr? item "encoding")) value w.toNat
        return ⟨fit (padding t item).1 (if pad = [] then [0] else pad) w.toNat body, some w⟩) := by
  unfold layout encodeFor
  rw [hw]
  simp only [bind, Except.bind, if_neg (Int.not_le.mpr hpos), padding_eq, padBytes_eq]
  cases encodePad (.ofName (t.attr? item "encoding")) (padText t item) with
  | error e => rfl
  | ok pad =>
    by_cases h : value = ""
    · subst h
      rfl
    · have hempty : value.isEmpty = false := by simpa using h
      simp only [if_neg h, hempty]
      rfl

/-- The bytes of a field cannot be worked out exactly if its width, its padding or its value is at fault. -/
theorem layout_eq_error_iff : layout t item value = .error e ↔ Unfit t item value e := by
  constructor
  · intro h
    cases hw : width? t item with
    | error e' =>
      rw [layout_of_width_error hw] at h
      cases h
      exact .width hw
    | ok width =>
      cases width with
      | none =>
        rw [layout_of_none hw] at h
        cases hbody : encodeFor (.ofName (t.attr? item "encoding")) value 0 with
        | error e' =>
          rw [hbody] at h
          cases h
          exact .natural hw hbody
        | ok body =>
          rw [hbody] at h
          cases h
      | some w =>
        by_cases hpos : 0 < w
        · rw [layout_of_pos hw hpos] at h
          cases hpad : encodePad (.ofName (t.attr? item "encoding")) (padText t item) with
          | error e' =>
            rw [hpad] at h
            cases h
            exact .padding hw hpos hpad
          | ok pad =>
            rw [hpad] at h
            cases hbody : encodeFor (.ofName (t.attr? item "encoding")) value w.toNat with
            | error e' =>
              rw [hbody] at h
              cases h
              exact .fitted hw hpos hpad hbody
            | ok body =>
              rw [hbody] at h
              cases h
        · rw [layout_of_nonpos hw (Int.not_lt.mp hpos)] at h
          cases h
  · intro h
    cases h with
    | width hw => exact layout_of_width_error hw
    | padding hw hpos hpad =>
      rw [layout_of_pos hw hpos, hpad]
      rfl
    | fitted hw hpos hpad hbody =>
      rw [layout_of_pos hw hpos, hpad, hbody]
      rfl
    | natural hw hbody =>
      rw [layout_of_none hw, hbody]
      rfl

/-- A field with a width has as many bytes. -/
theorem measured_of_width {l : Layout} (hw : width? t item = .ok (some w)) (hl : layout t item value = .ok l) :
    l.recorded = some w ∧ l.bytes.length = w.toNat := by
  by_cases hpos : 0 < w
  · rw [layout_of_pos hw hpos] at hl
    cases hpad : encodePad (.ofName (t.attr? item "encoding")) (padText t item) with
    | error e =>
      rw [hpad] at hl
      cases hl
    | ok pad =>
      rw [hpad] at hl
      cases hbody : encodeFor (.ofName (t.attr? item "encoding")) value w.toNat with
      | error e =>
        rw [hbody] at hl
        cases hl
      | ok body =>
        rw [hbody] at hl
        cases hl
        exact ⟨rfl, length_fit _ _ _ _⟩
  · rw [layout_of_nonpos hw (Int.not_lt.mp hpos)] at hl
    cases hl
    exact ⟨rfl, by rw [Int.toNat_of_nonpos (Int.not_lt.mp hpos)]; rfl⟩

/-- A field without a width has the bytes of its value, or none if that is empty. -/
theorem measured_of_none {l : Layout} (hw : width? t item = .ok none) (hl : layout t item value = .ok l) :
    value = "" ∧ l = ⟨[], none⟩ ∨ value ≠ "" ∧ l.recorded = some l.bytes.length := by
  rw [layout_of_none hw] at hl
  by_cases hempty : value = ""
  · rw [encodeFor, if_pos hempty] at hl
    cases hl
    exact .inl ⟨hempty, congrArg (Layout.mk []) (if_pos hempty)⟩
  · cases hbody : encodeFor (.ofName (t.attr? item "encoding")) value 0 with
    | error e =>
      rw [hbody] at hl
      cases hl
    | ok body =>
      rw [hbody] at hl
      cases hl
      exact .inr ⟨hempty, if_neg hempty⟩

/-- The bytes of a field of a width, from those of its padding and its value: the beginning of the value if it is long
    enough, or else the whole value, with padding behind it, or before it if the padding is declared for the left. -/
theorem layout_fits (hw : width? t item = .ok (some w)) (hpos : 0 < w)
    (hpad : encodePad (.ofName (t.attr? item "encoding")) (padText t item) = .ok pad)
    (hbody : encodeFor (.ofName (t.attr? item "encoding")) value w.toNat = .ok body) :
    ∃ l, layout t item value = .ok l ∧ l.recorded = some w ∧ l.bytes.length = w.toNat
      ∧ l.bytes = if w.toNat ≤ body.length then body.take w.toNat
        else if (t.attr? item "lpadding").isSome then (endless pad).take (w.toNat - body.length) ++ body
        else body ++ (endless pad).take (w.toNat - body.length) := by
  refine ⟨⟨fit (padding t item).1 (if pad = [] then [0] else pad) w.toNat body, some w⟩, ?_, rfl,
    length_fit _ _ _ _, ?_⟩
  · rw [layout_of_pos hw hpos, hpad, hbody]
    rfl
  · unfold fit
    rw [padding_eq, fill_eq_take]
    by_cases hlong : w.toNat ≤ body.length
    · rw [if_pos hlong, if_pos hlong]
    · rw [if_neg hlong, if_neg hlong]
      cases t.attr? item "lpadding" <;> rfl

/-- The bytes of a field, exactly.  A field that states a width from 1 to the greatest one has as many bytes: its padding
    if the value is empty, the beginning of the value if the value has enough, or else the value and padding.  A width
    below 1 leaves no bytes, whatever the value, and what is no width is refused.  A field that states no width has the
    bytes of its value. -/
theorem layout_exact (t : Tree) (item : NodeId) (value : String) :
    (∀ text, WidthText t item text →
      (∀ w pad body, Integral text w → 1 ≤ w → w ≤ maxWidth →
        encodePad (.ofName (t.attr? item "encoding")) (padText t item) = .ok pad →
        (value ≠ "" → (Codec.ofName (t.attr? item "encoding")).encode value w.toNat = .ok body) →
        ∃ l, layout t item value = .ok l ∧ l.recorded = some w ∧ (l.bytes.length : Int) = w
          ∧ (value = "" → l.bytes = (endless pad).take w.toNat)
          ∧ (value ≠ "" → w.toNat ≤ body.length → l.bytes = body.take w.toNat)
          ∧ (value ≠ "" → body.length < w.toNat → (t.attr? item "lpadding").isSome →
              l.bytes = (endless pad).take (w.toNat - body.length) ++ body)
          ∧ (value ≠ "" → body.length < w.toNat → t.attr? item "lpadding" = none →
              l.bytes = body ++ (endless pad).take (w.toNat - body.length)))
      ∧ (∀ w, Integral text w → w ≤ 0 → layout t item value = .ok ⟨[], some w⟩)
      ∧ (∀ w, Integral text w → maxWidth < w → layout t item value = .error (.of (.widthAbove w maxWidth)))
      ∧ ((∀ w, ¬ Integral text w) → ∃ fault, layout t item value = .error (.of (.badWidth text fault))))
    ∧ (t.attr? item "bytes" = none → t.attr? item "xbytes" = none →
      (value = "" → layout t item value = .ok ⟨[], none⟩)
      ∧ (∀ body, value ≠ "" → (Codec.ofName (t.attr? item "encoding")).encode value 0 = .ok body →
        layout t item value = .ok ⟨body, some body.length⟩)) := by
  refine ⟨fun text htext => ⟨?_, ?_, ?_, ?_⟩, fun hbytes hxbytes => ⟨?_, ?_⟩⟩
  · intro w pad body hw hpos hmax hpad hbody
    have hwidth := width?_eq_ok htext hw hmax
    by_cases hempty : value = ""
    · have hbody : encodeFor (.ofName (t.attr? item "encoding")) value w.toNat = .ok [] := if_pos hempty
      obtain ⟨l, hl, hrecorded, hlength, hb⟩ := layout_fits hwidth hpos hpad hbody
      refine ⟨l, hl, hrecorded, by omega, fun _ => ?_, fun h => absurd hempty h, fun h => absurd hempty h,
        fun h => absurd hempty h⟩
      rw [hb, if_neg (by rw [List.length_nil]; omega), List.length_nil, Nat.sub_zero, List.append_nil, List.nil_append]
      split <;> rfl
    · obtain ⟨l, hl, hrecorded, hlength, hb⟩ := layout_fits hwidth hpos hpad ((if_neg hempty).trans (hbody hempty))
      refine ⟨l, hl, hrecorded, by omega, fun h => absurd h hempty, fun _ hlong => ?_, fun _ hshort hleft => ?_,
        fun _ hshort hright => ?_⟩
      · rw [hb, if_pos hlong]
      · rw [hb, if_neg (Nat.not_le.mpr hshort), if_pos hleft]
      · rw [hb, if_neg (Nat.not_le.mpr hshort), hright]
        rfl
  · intro w hw hle
    exact layout_of_nonpos (width?_eq_ok htext hw (Int.le_trans hle (by decide))) hle
  · intro w hw hmax
    refine layout_of_width_error ?_
    rw [width?_of_text htext, readWidth_above hw hmax]
    rfl
  · intro hnone
    obtain ⟨fault, hfault⟩ := readWidth_bad hnone
    refine ⟨fault, layout_of_width_error ?_⟩
    rw [width?_of_text htext, hfault]
    rfl
  · intro hempty
    rw [layout_of_none (width?_of_none hbytes hxbytes), encodeFor, if_pos hempty]
    show Except.ok (⟨[], if value = "" then none else some 0⟩ : Layout) = _
    rw [if_pos hempty]
  · intro body hne hbody
    rw [layout_of_none (width?_of_none hbytes hxbytes), encodeFor, if_neg hne, hbody]
    show Except.ok (⟨body, if value = "" then none else some body.length⟩ : Layout) = _
    rw [if_neg hne]

end Stencil.Field
