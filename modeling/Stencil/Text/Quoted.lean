/-
  The quoted form of a text, as error messages show it.

  A text stands between double quotation marks.  Inside, the quotation mark, the backslash and the
  controls NUL, tab, line feed and carriage return have two-character escapes; any other character
  that would not be seen, or that would merge with its neighbour, is written as its code point in
  hexadecimal between braces; everything else is written as itself.  An apostrophe needs no escape.
-/
import Stencil.Text.Category

set_option autoImplicit false

namespace Stencil.Text

/-- The hexadecimal digits of a number, lower case, without leading zeros. -/
def hexDigits (n : Nat) : List Char := Nat.toDigits 16 n

/-- How one character is written inside quotation marks. -/
def quoteChar (c : Char) : List Char :=
  if c = '"' then ['\\', '"']
  else if c = '\\' then ['\\', '\\']
  else if c = '\n' then ['\\', 'n']
  else if c = '\r' then ['\\', 'r']
  else if c = '\t' then ['\\', 't']
  else if c.toNat = 0 then ['\\', '0']
  else if isPlain c then [c]
  else ['\\', 'u', '\x7b'] ++ hexDigits c.toNat ++ ['\x7d']

/-- The text between quotation marks. -/
def quote (s : String) : String :=
  String.ofList ('"' :: (s.toList.flatMap quoteChar ++ ['"']))

example : quote "a\tb" = "\"a\\tb\"" := by decide +kernel

/-- A text of plain characters is written as it is. -/
theorem flatMap_quoteChar_of_plain {cs : List Char}
    (h : ∀ c ∈ cs, isPlain c = true ∧ c ≠ '"' ∧ c ≠ '\\') : cs.flatMap quoteChar = cs := by
  induction cs with
  | nil => rfl
  | cons c cs ih =>
    obtain ⟨hp, hq, hb⟩ := h c (by simp)
    have hn : c ≠ '\n' := by rintro rfl; exact absurd hp (by decide)
    have hr : c ≠ '\r' := by rintro rfl; exact absurd hp (by decide)
    have ht : c ≠ '\t' := by rintro rfl; exact absurd hp (by decide)
    have h0 : ¬ c.toNat = 0 := by
      intro hz
      simp [isPlain, hz] at hp
    have hc : quoteChar c = [c] := by simp [quoteChar, hq, hb, hn, hr, ht, h0, hp]
    rw [List.flatMap_cons, hc, ih (fun d hd => h d (List.mem_cons_of_mem _ hd))]
    rfl

end Stencil.Text
