/-
  Text as bytes.

  Writing: a text goes into bytes under one of four encodings (`Encoding.encode`).  UTF-8 and the two
  orders of UTF-16 hold every text and are written without a byte order mark.  Shift_JIS does not hold
  every text: a character it lacks is written as a decimal character reference, as web forms do.

  Reading: `decodeText` turns the bytes of a file into text.  A byte order mark chooses between UTF-8
  and UTF-16 and is dropped; without one the bytes are UTF-8.  Reading never fails: every maximal
  malformed piece becomes one U+FFFD.

  Both directions run over lists of bytes, one state machine each, so that every byte is looked at
  once and nothing needs a bound on steps.
-/
import Stencil.Text.JisIndex

set_option autoImplicit false

namespace Stencil.Text

/-! ## UTF-8 -/

/-- The bytes of a text in UTF-8. -/
def utf8Bytes (s : String) : List UInt8 := s.toList.flatMap String.utf8EncodeChar

/-- A multi-byte sequence that has begun: the bits read so far, how many bytes are missing, and the
    range the next byte must lie in. -/
structure Partial8 where
  /-- The bits read so far. -/
  bits : Nat
  /-- How many bytes are missing, less one. -/
  missing : Nat
  /-- The least next byte. -/
  low : UInt8
  /-- The greatest next byte. -/
  high : UInt8

/-- The character that stands for a malformed piece. -/
def replacement : Char := '\ufffd'

/-- What a byte means at the start of a sequence: a character, or the beginning of a sequence. -/
def leadByte (b : UInt8) : Sum Char Partial8 :=
  if b < 0x80 then .inl (Char.ofNat b.toNat)
  else if 0xC2 ≤ b ∧ b ≤ 0xDF then .inr ⟨b.toNat - 0xC0, 0, 0x80, 0xBF⟩
  else if 0xE0 ≤ b ∧ b ≤ 0xEF then
    .inr ⟨b.toNat - 0xE0, 1, if b = 0xE0 then 0xA0 else 0x80, if b = 0xED then 0x9F else 0xBF⟩
  else if 0xF0 ≤ b ∧ b ≤ 0xF4 then
    .inr ⟨b.toNat - 0xF0, 2, if b = 0xF0 then 0x90 else 0x80, if b = 0xF4 then 0x8F else 0xBF⟩
  else .inl replacement

/-- Reads UTF-8 with a sequence possibly begun.  A byte that cannot continue the sequence ends it as
    malformed and is then read as a first byte. -/
def decodeUtf8Aux : Option Partial8 → List UInt8 → List Char
  | none, [] => []
  | some _, [] => [replacement]
  | none, b :: bs =>
    match leadByte b with
    | .inl c => c :: decodeUtf8Aux none bs
    | .inr p => decodeUtf8Aux (some p) bs
  | some p, b :: bs =>
    if p.low ≤ b ∧ b ≤ p.high then
      let bits := 64 * p.bits + (b.toNat - 0x80)
      match p.missing with
      | 0 => Char.ofNat bits :: decodeUtf8Aux none bs
      | m + 1 => decodeUtf8Aux (some ⟨bits, m, 0x80, 0xBF⟩) bs
    else
      match leadByte b with
      | .inl c => replacement :: c :: decodeUtf8Aux none bs
      | .inr q => replacement :: decodeUtf8Aux (some q) bs

/-- Reads UTF-8, replacing malformed pieces. -/
def decodeUtf8 (bs : List UInt8) : String := String.ofList (decodeUtf8Aux none bs)

/-- The text of bytes that are UTF-8 throughout. -/
def ofUtf8? (bs : List UInt8) : Option String :=
  if utf8Bytes (decodeUtf8 bs) = bs then some (decodeUtf8 bs) else none

/-- Only the bytes of a text are read as that text. -/
theorem utf8Bytes_of_ofUtf8? {bs : List UInt8} {s : String} (h : ofUtf8? bs = some s) :
    utf8Bytes s = bs := by
  unfold ofUtf8? at h
  split at h
  · rename_i hs; injection h with h; subst h; exact hs
  · simp at h

/-! ## UTF-16 -/

/-- The units of a character in UTF-16. -/
def utf16Units (c : Char) : List Nat :=
  let n := c.toNat
  if n < 0x10000 then [n]
  else [0xD800 + (n - 0x10000) / 0x400, 0xDC00 + (n - 0x10000) % 0x400]

/-- The two orders of the bytes of a unit. -/
inductive ByteOrder where
  | little
  | big
  deriving DecidableEq, Repr

/-- The two bytes of a unit. -/
def ByteOrder.bytes (o : ByteOrder) (unit : Nat) : List UInt8 :=
  let low := UInt8.ofNat (unit % 256)
  let high := UInt8.ofNat (unit / 256)
  match o with
  | .little => [low, high]
  | .big => [high, low]

/-- The unit of two bytes. -/
def ByteOrder.unit (o : ByteOrder) (first second : UInt8) : Nat :=
  match o with
  | .little => first.toNat + 256 * second.toNat
  | .big => 256 * first.toNat + second.toNat

/-- The bytes of a text in UTF-16. -/
def utf16Bytes (o : ByteOrder) (s : String) : List UInt8 :=
  s.toList.flatMap fun c => (utf16Units c).flatMap o.bytes

/-- Reads UTF-16 with a high surrogate possibly begun. -/
def decodeUtf16Aux (o : ByteOrder) : Option Nat → List UInt8 → List Char
  | none, [] => []
  | some _, [] => [replacement]
  | _, [_] => [replacement]
  | high, a :: b :: bs =>
    let u := o.unit a b
    let isHigh := 0xD800 ≤ u ∧ u < 0xDC00
    let isLow := 0xDC00 ≤ u ∧ u < 0xE000
    match high with
    | none =>
      if isHigh then decodeUtf16Aux o (some u) bs
      else if isLow then replacement :: decodeUtf16Aux o none bs
      else Char.ofNat u :: decodeUtf16Aux o none bs
    | some h =>
      if isLow then
        Char.ofNat (0x10000 + 0x400 * (h - 0xD800) + (u - 0xDC00)) :: decodeUtf16Aux o none bs
      else if isHigh then replacement :: decodeUtf16Aux o (some u) bs
      else replacement :: Char.ofNat u :: decodeUtf16Aux o none bs

/-- Reads UTF-16, replacing malformed pieces. -/
def decodeUtf16 (o : ByteOrder) (bs : List UInt8) : String :=
  String.ofList (decodeUtf16Aux o none bs)

/-- Reads the contents of a file as text, as its byte order mark says. -/
def decodeText : List UInt8 → String
  | 0xEF :: 0xBB :: 0xBF :: bs => decodeUtf8 bs
  | 0xFF :: 0xFE :: bs => decodeUtf16 .little bs
  | 0xFE :: 0xFF :: bs => decodeUtf16 .big bs
  | bs => decodeUtf8 bs

/-! ## Shift_JIS -/

/-- The pointer of a character in the index of JIS X 0208, looked up in its runs. -/
def jisPointer (c : Char) : List (Nat × String) → Option Nat
  | [] => none
  | (start, chars) :: runs =>
    match chars.toList.findIdx? (· == c) with
    | some i => some (start + i)
    | none => jisPointer c runs

/-- The two bytes of a pointer. -/
def jisBytes (pointer : Nat) : List UInt8 :=
  let lead := pointer / 188
  let trail := pointer % 188
  [UInt8.ofNat (lead + if lead < 0x1F then 0x81 else 0xC1),
   UInt8.ofNat (trail + if trail < 0x3F then 0x40 else 0x41)]

/-- A decimal character reference. -/
def characterReference (c : Char) : List UInt8 :=
  utf8Bytes ("&#" ++ toString c.toNat ++ ";")

/-- The bytes of a character in Shift_JIS.  The yen sign and the overline stand at the places of the
    backslash and the tilde, the half-width katakana have bytes of their own, and the minus sign is
    written as its full-width form. -/
def shiftJisChar (c : Char) : List UInt8 :=
  let n := c.toNat
  if n ≤ 0x80 then [UInt8.ofNat n]
  else if n = 0xA5 then [0x5C]
  else if n = 0x203E then [0x7E]
  else if 0xFF61 ≤ n ∧ n ≤ 0xFF9F then [UInt8.ofNat (n - 0xFF61 + 0xA1)]
  else
    match jisPointer (if n = 0x2212 then '\uff0d' else c) JisIndex.runs with
    | some p => jisBytes p
    | none => characterReference c

/-- The bytes of a text in Shift_JIS. -/
def shiftJisBytes (s : String) : List UInt8 := s.toList.flatMap shiftJisChar

/-! ## Encodings by choice -/

/-- The encodings a text field can be written in. -/
inductive Encoding where
  | utf8
  | utf16 (order : ByteOrder)
  | shiftJis
  deriving DecidableEq, Repr

/-- The bytes of a text. -/
def Encoding.encode (e : Encoding) (s : String) : List UInt8 :=
  match e with
  | .utf8 => utf8Bytes s
  | .utf16 o => utf16Bytes o s
  | .shiftJis => shiftJisBytes s

@[simp] theorem Encoding.encode_empty (e : Encoding) : e.encode "" = [] := by
  cases e <;> rfl

end Stencil.Text
