/-
  Templates of replacements.

  A template is read from the left, and a brace is told by what follows it: the same brace makes it a brace, digits
  and a closing brace make it a reference to a group, and anything else leaves it as it is.  So texts and references
  can be written one behind the other in any order, if each brace of a text is doubled.

    1. **Writing** — a template is a list of pieces, texts and numbers of groups (`Piece.written`).
    2. **Reading a part** — a part of a template is read as some text if it is, whatever stands behind it, and enough
       steps are left for that (`Expands`).  Parts may be put together (`Expands.append`, `expands_flatMap`).
    3. **The parts there are** — a doubled brace has its partner at once (`expands_doubled`), and behind a reference
       the closing brace has been used up (`expands_reference`).
-/
import Stencil.CharMap
import Stencil.Proofs.Text

set_option autoImplicit false

namespace Stencil

open Stencil.Text (isDigit digitsValue)

/-! ## Writing -/

/-- A piece of a template. -/
inductive Piece where
  /-- A text that stands for itself. -/
  | literal (text : String)
  /-- What a group has matched. -/
  | group (number : Nat)
  deriving DecidableEq, Repr

namespace Piece

/-- A character as it is written: a brace twice, all else once. -/
def doubled (c : Char) : List Char := if c = '\x7b' ∨ c = '\x7d' then [c, c] else [c]

/-- What is written for a piece. -/
def written : Piece → List Char
  | literal text => text.toList.flatMap doubled
  | group number => '\x7b' :: (Nat.toDigits 10 number ++ ['\x7d'])

/-- The template that is written for pieces, one behind the other. -/
def template (ps : List Piece) : String := String.ofList (ps.flatMap written)

/-- The text of a piece for the groups of a match; a group that has matched nothing gives none. -/
def filled (group? : Nat → Option String) : Piece → String
  | literal text => text
  | group number => (group? number).getD ""

end Piece

/-! ## Reading a part -/

/-- A part of a template is read as a text, whatever is behind it, in as many steps as it has characters at most. -/
def Expands (group? : Nat → Option String) (part out : List Char) : Prop :=
  ∀ bound rest, (part ++ rest).length ≤ bound →
    ∃ left, rest.length ≤ left ∧ expand group? bound (part ++ rest) = out ++ expand group? left rest

variable {group? : Nat → Option String} {bound : Nat} {c : Char} {rest digits part part' out out' : List Char}

theorem expands_nil : Expands group? [] [] := fun bound _ h => ⟨bound, h, rfl⟩

theorem Expands.append (h : Expands group? part out) (h' : Expands group? part' out') :
    Expands group? (part ++ part') (out ++ out') := by
  intro bound rest hb
  rw [List.append_assoc] at hb ⊢
  obtain ⟨between, hbetween, hout⟩ := h bound (part' ++ rest) hb
  obtain ⟨left, hleft, hout'⟩ := h' between rest hbetween
  exact ⟨left, hleft, by rw [hout, hout', List.append_assoc]⟩

/-- Parts that are written one behind the other are read one behind the other. -/
theorem expands_flatMap {α : Type} {write read : α → List Char} (h : ∀ a, Expands group? (write a) (read a))
    (as : List α) : Expands group? (as.flatMap write) (as.flatMap read) := by
  induction as with
  | nil => exact expands_nil
  | cons a as ih => exact (h a).append ih

/-! ## The parts there are -/

/-- A character that is no brace stands for itself. -/
theorem expand_plain (hopen : c ≠ '\x7b') (hclose : c ≠ '\x7d') :
    expand group? (bound + 1) (c :: rest) = c :: expand group? bound rest :=
  expand.eq_6 _ _ _ _ (fun _ h => absurd h hopen) (fun _ h => absurd h hclose) hopen

/-- A character of a text is read as that character. -/
theorem expands_doubled (c : Char) : Expands group? (Piece.doubled c) [c] := by
  intro bound rest h
  unfold Piece.doubled at h ⊢
  by_cases hbrace : c = '\x7b' ∨ c = '\x7d'
  · rw [if_pos hbrace] at h ⊢
    obtain ⟨left, rfl⟩ := Nat.exists_eq_add_of_le' h
    refine ⟨left + rest.length + 1, by omega, ?_⟩
    rcases hbrace with rfl | rfl <;> rfl
  · rw [if_neg hbrace] at h ⊢
    obtain ⟨left, rfl⟩ := Nat.exists_eq_add_of_le' h
    obtain ⟨hopen, hclose⟩ := not_or.mp hbrace
    exact ⟨left + rest.length, Nat.le_add_left _ _, expand_plain hopen hclose⟩

/-- Digits in braces are read as the text of their group. -/
theorem expands_reference (hdigits : ∀ c ∈ digits, isDigit c = true) (hne : digits ≠ []) :
    Expands group? ('\x7b' :: (digits ++ ['\x7d'])) ((group? (digitsValue digits)).getD "").toList := by
  intro bound rest h
  obtain ⟨d, ds, rfl⟩ := List.exists_cons_of_ne_nil hne
  -- no digit is a brace, so the brace in front is not a doubled one, and the digits end at the one behind
  have hopen : ∀ rest', d :: ds ++ '\x7d' :: rest = '\x7b' :: rest' → False := by
    intro rest' heq
    have hd := hdigits d List.mem_cons_self
    rw [(List.cons.inj heq).1] at hd
    exact absurd hd (by decide)
  obtain ⟨htake, -⟩ := Text.takeWhile_append_stop hdigits ('\x7d' :: rest) fun c hc => by
    rw [← Option.some.inj hc]
    decide
  have hsplit : '\x7b' :: (d :: ds ++ ['\x7d']) ++ rest = '\x7b' :: (d :: ds ++ '\x7d' :: rest) := by simp
  rw [hsplit] at h ⊢
  obtain ⟨left, rfl⟩ := Nat.exists_eq_add_of_le' h
  refine ⟨left + (d :: ds ++ '\x7d' :: rest).length, by simp; omega, ?_⟩
  refine (expand.eq_5 group? _ _ hopen).trans ?_
  rw [htake, List.drop_left]
  rfl

theorem expands_written (p : Piece) : Expands group? p.written (p.filled group?).toList := by
  cases p with
  | literal text =>
    have h : Expands group? (text.toList.flatMap Piece.doubled) (text.toList.flatMap fun c => [c]) :=
      expands_flatMap expands_doubled text.toList
    rwa [List.flatMap_singleton'] at h
  | group number =>
    obtain ⟨hdigits, hvalue⟩ := Text.toDigits_digits number
    have h : Expands group? (Piece.group number).written _ := expands_reference hdigits Nat.toDigits_ne_nil
    rwa [show digitsValue (Nat.toDigits 10 number) = number from hvalue] at h

theorem toList_join {α : Type} (f : α → String) (as : List α) :
    (String.join (as.map f)).toList = as.flatMap fun a => (f a).toList := by
  induction as with
  | nil => rfl
  | cons a as ih => rw [List.map_cons, String.join_cons, String.toList_append, ih, List.flatMap_cons]

/-- Pieces that are written as one template come out again: texts as they are, and for each reference what the group
    has matched, if it has matched something. -/
theorem substitute_template (ps : List Piece) (group? : Nat → Option String) :
    substitute (Piece.template ps) group? = String.join (ps.map (Piece.filled group?)) := by
  have hreads : Expands group? (ps.flatMap Piece.written) _ := expands_flatMap expands_written ps
  have hlength : (ps.flatMap Piece.written ++ []).length ≤ (Piece.template ps).length :=
    Nat.le_of_eq (by rw [List.append_nil, Piece.template, String.length_ofList])
  obtain ⟨left, -, h⟩ := hreads _ [] hlength
  have hnil : expand group? left [] = [] := by cases left <;> rfl
  rw [List.append_nil, hnil, List.append_nil] at h
  rw [substitute, Piece.template, String.toList_ofList, ← Piece.template, h, ← toList_join, String.ofList_toList]

/-- A reference in braces that stand for themselves. -/
example : substitute "\x7b\x7b\x7b1\x7d\x7d\x7d" (fun n => if n = 1 then some "a" else none) = "\x7ba\x7d" := by
  decide +kernel

end Stencil
