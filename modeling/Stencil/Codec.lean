/-
  From the text of a field to its bytes.

  The text of a field is either itself text, written in some encoding, or it is the notation of a
  number: binary digits, hexadecimal digits, or a decimal integer.

    * Digits are packed from the left: eight binary digits, or two hexadecimal ones, make a byte, and
      what is left over at the end makes the low bits of one more byte.
    * A decimal integer of any size becomes two's complement, least significant byte first, in as few
      bytes as hold it, and is extended with its sign to the width that is asked for.

  `signedValue` reads two's complement back; `fromDecimal` is characterised by it.
-/
import Stencil.Error
import Stencil.Text.Blank
import Stencil.Text.Encoding

set_option autoImplicit false

namespace Stencil

open Stencil.Text

/-- A sequence of bytes. -/
abbrev Bytes := List UInt8

namespace Codec

/-! ## Packing digits -/

/-- Cuts a list into pieces of `n`, the last one possibly shorter. -/
def pieces {α : Type} (n : Nat) (xs : List α) : List (List α) :=
  if _h : n = 0 ∨ xs = [] then [] else xs.take n :: pieces n (xs.drop n)
termination_by xs.length
decreasing_by
  obtain ⟨hn, hx⟩ := not_or.mp ‹_›
  have := List.length_pos_iff.mpr hx
  simp only [List.length_drop]
  omega

/-- The value of a run of digits in some base, most significant first, as one byte. -/
def byteOf (base : Nat) (digits : List Nat) : UInt8 :=
  UInt8.ofNat (digits.foldl (fun n d => base * n + d) 0)

/-- Packs digits into bytes, `n` digits to the byte, from the left. -/
def pack (base n : Nat) (digits : List Nat) : Bytes := (pieces n digits).map (byteOf base)

/-- The value of a binary digit given as a byte of text. -/
def bit? (b : UInt8) : Option Nat :=
  if b = 48 then some 0 else if b = 49 then some 1 else none

/-- The value of a hexadecimal digit. -/
def nibble? (c : Char) : Option Nat :=
  if '0' ≤ c ∧ c ≤ '9' then some (c.toNat - 48)
  else if 'a' ≤ c ∧ c ≤ 'f' then some (c.toNat - 87)
  else if 'A' ≤ c ∧ c ≤ 'F' then some (c.toNat - 55)
  else none

/-- Reads every element of a list, or gives the first one that cannot be read. -/
def readAll {α β : Type} (read : α → Option β) : List α → Except α (List β)
  | [] => .ok []
  | x :: xs =>
    match read x with
    | none => .error x
    | some y =>
      match readAll read xs with
      | .error e => .error e
      | .ok ys => .ok (y :: ys)

/-- Bytes from binary digits.  The text is looked at byte by byte in UTF-8, so the complaint about a
    character beyond ASCII names the character with the number of its first byte. -/
def fromBinary (text : String) : Except Error Bytes :=
  match readAll bit? (utf8Bytes text) with
  | .ok digits => .ok (pack 2 8 digits)
  | .error b => .error (.of (.notBinaryDigit (Char.ofNat b.toNat) text))

/-- Bytes from hexadecimal digits of either case. -/
def fromHex (text : String) : Except Error Bytes :=
  match readAll nibble? text.toList with
  | .ok digits => .ok (pack 16 2 digits)
  | .error c => .error (.of (.notHexDigit c text))

/-! ## Decimal integers -/

/-- The lowest byte of an integer in two's complement. -/
def lowByte (n : Int) : UInt8 := UInt8.ofNat (n % 256).toNat

/-- Two's complement, least significant byte first, in as few bytes as hold the integer. -/
def signedBytes (n : Int) : Bytes :=
  if h : -128 ≤ n ∧ n < 128 then [lowByte n] else lowByte n :: signedBytes (n / 256)
termination_by n.natAbs
decreasing_by omega

/-- The integer that bytes in two's complement stand for, least significant byte first. -/
def signedValue : Bytes → Int
  | [] => 0
  | [b] => if b < 128 then b.toNat else (b.toNat : Int) - 256
  | b :: bs => b.toNat + 256 * signedValue bs

/-- Extends two's complement to a width. -/
def signExtend (n : Int) (width : Nat) (bytes : Bytes) : Bytes :=
  bytes ++ List.replicate (width - bytes.length) (if n < 0 then 0xFF else 0x00)

/-- Bytes of a decimal integer, blanks around it apart, in at least `width` bytes. -/
def fromDecimal (text : String) (width : Nat) : Except Error Bytes :=
  match freeInt (trim text) with
  | .ok n => .ok (signExtend n width (signedBytes n))
  | .error fault => .error (.of (.notDecimalInteger text fault))

end Codec

/-! ## The choice of a codec -/

/-- How the text of a field becomes bytes. -/
inductive Codec where
  | binary
  | hexadecimal
  | decimal
  | text (encoding : Encoding)
  deriving DecidableEq, Repr

namespace Codec

/-- The codec an `encoding` attribute names; UTF-8 text if it names none. -/
def ofName : Option String → Codec
  | some "binary" => binary
  | some "hexadecimal" => hexadecimal
  | some "decimal" => decimal
  | some "utf-16" => text (.utf16 .little)
  | some "utf-16le" => text (.utf16 .little)
  | some "utf-16be" => text (.utf16 .big)
  | some "shift-jis" => text .shiftJis
  | _ => text .utf8

/-- The bytes of a value.  The width matters to decimal integers only, which are extended to it. -/
def encode (c : Codec) (value : String) (width : Nat) : Except Error Bytes :=
  match c with
  | binary => fromBinary value
  | hexadecimal => fromHex value
  | decimal => fromDecimal value width
  | text e => .ok (e.encode value)

end Codec

end Stencil
