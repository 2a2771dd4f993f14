/-
  Printed tokens are read back.

  Whether an asterisk or a word is an operator depends on the token before, and what a token ends with may depend on the
  character behind it.  So a list of tokens is read back from its text if each token fits where it stands: operators
  of these kinds behind an operand, an asterisk that is no operator elsewhere (`Fits`).  Behind a token comes a
  space or nothing, and no token goes on with a space (`first_spelled`).
-/
import Stencil.Proofs.Query.Printing
import Stencil.Proofs.Text

set_option autoImplicit false

namespace Stencil

open Stencil.Text (digitsValue dropWhile_ne isBlank isDigit not_isBlank_of_isDigit takeWhile_append_stop)

/-! ## Numerals -/

namespace Number

/-- Digits alone. -/
theorem decimal?_whole {ds : List Char} (hds : ∀ c ∈ ds, isDigit c = true) (hne : ds ≠ []) :
    decimal? ds = some (⟨digitsValue ds, 0⟩, []) := by
  obtain ⟨htake, hdrop⟩ := takeWhile_append_stop hds [] fun c hc => nomatch hc
  rw [List.append_nil] at htake hdrop
  unfold decimal?
  simp [htake, hdrop, hne]

/-- Digits on both sides of a point. -/
theorem decimal?_point {ds fs : List Char} (hds : ∀ c ∈ ds, isDigit c = true) (hne : ds ≠ [])
    (hfs : ∀ c ∈ fs, isDigit c = true) :
    decimal? (ds ++ '.' :: fs) = some (⟨digitsValue (ds ++ fs), fs.length⟩, []) := by
  obtain ⟨htake, hdrop⟩ := takeWhile_append_stop hds ('.' :: fs) fun c hc => by cases hc; decide
  obtain ⟨htake', hdrop'⟩ := takeWhile_append_stop hfs [] fun c hc => nomatch hc
  rw [List.append_nil] at htake' hdrop'
  unfold decimal?
  simp [htake, hdrop, htake', hdrop', hne]

/-- Leading zeros do not count. -/
theorem digitsValue_zeros (k : Nat) (cs : List Char) : digitsValue (List.replicate k '0' ++ cs) = digitsValue cs := by
  induction k with
  | zero => rfl
  | succ k ih => exact ih

/-- Leading zeros are digits. -/
theorem isDigit_zeros {cs : List Char} (h : ∀ c ∈ cs, isDigit c = true) (k : Nat) :
    ∀ c ∈ List.replicate k '0' ++ cs, isDigit c = true := by
  refine List.forall_mem_append.mpr ⟨fun c hc => ?_, h⟩
  rw [List.eq_of_mem_replicate hc]
  decide

/-- The positional digits of a numeral: what stands before the point, and what stands behind it. -/
theorem exists_positional (d : Decimal) : ∃ ds fs, (Digits.mk d.value (-(d.places : Int))).positional
      = (if d.places = 0 then ds else ds ++ '.' :: fs)
    ∧ (∀ c ∈ ds ++ fs, isDigit c = true) ∧ ds ≠ [] ∧ fs.length = d.places ∧ digitsValue (ds ++ fs) = d.value := by
  obtain ⟨hdigits, hvalue⟩ := Text.toDigits_digits d.value
  have hne : Nat.toDigits 10 d.value ≠ [] := Nat.toDigits_ne_nil
  obtain ⟨value, places⟩ := d
  dsimp only at hdigits hvalue hne ⊢
  generalize hcs : Nat.toDigits 10 value = cs at hdigits hvalue hne
  cases places with
  | zero =>
    refine ⟨cs, [], ?_, by simpa using hdigits, hne, rfl, by rw [List.append_nil]; exact hvalue⟩
    show digitChars value ++ List.replicate 0 '0' = cs
    rw [digitChars, hcs]
    exact List.append_nil _
  | succ e =>
    have hpositional : (Digits.mk value (-((e + 1 : Nat) : Int))).positional
        = if e + 1 < cs.length then cs.take (cs.length - (e + 1)) ++ '.' :: cs.drop (cs.length - (e + 1))
          else ['0', '.'] ++ List.replicate (e + 1 - cs.length) '0' ++ cs := by
      show (if e + 1 < (digitChars value).length then _ else _) = _
      rw [digitChars, hcs]
    rw [hpositional]
    split
    · rename_i hlt
      have hall : cs.take (cs.length - (e + 1)) ++ cs.drop (cs.length - (e + 1)) = cs := List.take_append_drop _ _
      refine ⟨cs.take (cs.length - (e + 1)), cs.drop (cs.length - (e + 1)), rfl, ?_, ?_, ?_, ?_⟩
      · rw [hall]
        exact hdigits
      · intro hnil
        have hlength := congrArg List.length hnil
        rw [List.length_take, List.length_nil] at hlength
        omega
      · rw [List.length_drop]
        omega
      · rw [hall]
        exact hvalue
    · rename_i hge
      refine ⟨['0'], List.replicate (e + 1 - cs.length) '0' ++ cs, rfl, ?_, List.cons_ne_nil _ _, ?_, ?_⟩
      · exact isDigit_zeros hdigits (e + 1 - cs.length + 1)
      · rw [List.length_append, List.length_replicate]
        omega
      · exact (digitsValue_zeros (e + 1 - cs.length + 1) cs).trans hvalue

end Number

namespace Query

namespace Token

variable {c : Char} {cs rest : List Char} {b : Bool} {t : Token} {ts us : List Token}

/-- A printed numeral begins with a digit, has only digits and points, and is read back. -/
theorem numeral?_spelled (d : Number.Decimal) :
    ∃ c cs, (number d).spelled = c :: cs ∧ isDigit c = true ∧ (∀ d ∈ cs, inNumber d = true)
      ∧ numeral? (c :: cs) = some d := by
  obtain ⟨ds, fs, hpositional, hdigits, hne, hlength, hvalue⟩ := Number.exists_positional d
  have hds : ∀ c ∈ ds, isDigit c = true := fun c hc => hdigits c (List.mem_append_left _ hc)
  have hfs : ∀ c ∈ fs, isDigit c = true := fun c hc => hdigits c (List.mem_append_right _ hc)
  have hin : ∀ {c}, isDigit c = true → inNumber c = true := fun hc => by rw [inNumber, hc, Bool.true_or]
  obtain ⟨c, cs, rfl⟩ := List.exists_cons_of_ne_nil hne
  obtain ⟨hc, hcs⟩ := List.forall_mem_cons.mp hds
  rw [spelled, hpositional]
  by_cases hplaces : d.places = 0
  · have hnil : fs = [] := List.length_eq_zero_iff.mp (hlength.trans hplaces)
    rw [hnil, List.append_nil] at hvalue
    refine ⟨c, cs, if_pos hplaces, hc, fun d hd => hin (hcs d hd), ?_⟩
    rw [numeral?, Number.decimal?_whole hds (List.cons_ne_nil _ _), hvalue, ← hplaces]
  · refine ⟨c, cs ++ '.' :: fs, if_neg hplaces, hc, fun d hd => ?_, ?_⟩
    · rcases List.mem_append.mp hd with hd | hd
      · exact hin (hcs d hd)
      · rcases List.mem_cons.mp hd with rfl | hd
        · decide
        · exact hin (hfs d hd)
    · rw [← List.cons_append, numeral?, Number.decimal?_point hds (List.cons_ne_nil _ _) hfs, hvalue, hlength]

/-! ## One token -/

/-- Nothing, or a space and more. -/
def Breaks (rest : List Char) : Prop := rest = [] ∨ ∃ r, rest = ' ' :: r

/-- The words that are operators behind an operand. -/
def keywords : List String := ["and", "or", "div", "mod"]

/-- Whether a token is read back behind an operand, or elsewhere. -/
def Lexical (operandEnded : Bool) : Token → Prop
  | multiply | and | or | div | mod => operandEnded = true
  | star => operandEnded = false
  | literal text => Quotable text
  | name word => isName word = true ∧ (operandEnded = true → word ∉ keywords)
  | _ => True

/-- The characters that are tokens, or begin one of two characters. -/
def symbols : List Char :=
  ['/', '.', '@', ',', '(', ')', '[', ']', '|', '+', '-', '=', '<', '>', '*', '!', ':', '"', '\'']

theorem ofPair_of_not_symbol (hc : c ∉ symbols) (next : Char) : ofPair c next = none := by
  unfold ofPair
  split
  case h_7 => rfl
  all_goals exact absurd (by decide) hc

theorem ofChar_of_not_symbol (hc : c ∉ symbols) (next : Option Char) : ofChar b next c = none := by
  unfold ofChar
  split
  case h_16 => rfl
  all_goals exact absurd (by decide) hc

/-- What begins with no symbol is a number or a name. -/
theorem first_of_not_symbol (hc : c ∉ symbols) :
    first b c cs = if inNumber c then
        match numeral? (c :: cs.takeWhile inNumber) with
        | some d => .ok (number d, cs.dropWhile inNumber)
        | none => .error (.badNumber (String.ofList (c :: cs.takeWhile inNumber)))
      else if startsName c then
        .ok (ofWord b (String.ofList (c :: cs.takeWhile continuesName)), cs.dropWhile continuesName)
      else .error (.unexpectedCharacter c) := by
  have hpair : cs.head?.bind (ofPair c) = none := by
    cases cs with
    | nil => rfl
    | cons d ds => exact ofPair_of_not_symbol hc d
  have hquote : ¬ (c = '"' ∨ c = '\'') := by
    rintro (rfl | rfl) <;> exact absurd (by decide) hc
  unfold first
  rw [hpair, ofChar_of_not_symbol hc]
  exact if_neg hquote

/-- A class of characters without the space ends at a break. -/
theorem Breaks.stop {p : Char → Bool} (h : Breaks rest) (hspace : p ' ' = false) : ∀ c ∈ rest.head?, p c = false := by
  rcases h with rfl | ⟨r, rfl⟩
  · exact fun c hc => nomatch hc
  · exact fun c hc => Option.some.inj hc ▸ hspace

theorem first_number (d : Number.Decimal) : ∃ c cs, (number d).spelled = c :: cs ∧ isBlank c = false
    ∧ ∀ rest, Breaks rest → first b c (cs ++ rest) = .ok (number d, rest) := by
  obtain ⟨c, cs, hspelled, hc, hcs, hread⟩ := numeral?_spelled d
  refine ⟨c, cs, hspelled, not_isBlank_of_isDigit hc, fun rest hrest => ?_⟩
  have hnone : symbols.any isDigit = false := by decide
  have hsymbol : c ∉ symbols := fun hm => List.any_eq_false.mp hnone c hm hc
  obtain ⟨htake, hdrop⟩ := takeWhile_append_stop hcs rest (hrest.stop (by decide))
  rw [first_of_not_symbol hsymbol, if_pos (by rw [inNumber, hc, Bool.true_or]), htake, hdrop, hread]

/-- A digit begins no name. -/
theorem startsName_of_isDigit (hc : isDigit c = true) : startsName c = false := by
  obtain ⟨hlow, hhigh⟩ := Text.toNat_of_isDigit hc
  have hall : ∀ n < 58, 48 ≤ n → startsName (Char.ofNat n) = false := by decide
  have hnone := hall c.toNat (Nat.lt_succ_of_le hhigh) hlow
  rwa [Char.ofNat_toNat] at hnone

/-- A name is taken as a word. -/
theorem first_word (word : String) (hname : isName word = true) : ∃ c cs, word.toList = c :: cs
    ∧ isBlank c = false ∧ ∀ rest, Breaks rest → first b c (cs ++ rest) = .ok (ofWord b word, rest) := by
  unfold isName at hname
  split at hname
  · cases hname
  · rename_i c cs hword
    rw [Bool.and_eq_true, Bool.and_eq_true, Bool.not_eq_true', List.all_eq_true] at hname
    obtain ⟨⟨hstart, hblank⟩, hcs⟩ := hname
    refine ⟨c, cs, hword, hblank, fun rest hrest => ?_⟩
    have hnone : symbols.any startsName = false := by decide
    have hsymbol : c ∉ symbols := fun hm => List.any_eq_false.mp hnone c hm hstart
    have hnumber : ¬ inNumber c = true := by
      rw [inNumber, Bool.or_eq_true, beq_iff_eq]
      rintro (hdigit | rfl)
      · rw [startsName_of_isDigit hdigit] at hstart
        cases hstart
      · exact hsymbol (by decide)
    obtain ⟨htake, hdrop⟩ := takeWhile_append_stop hcs rest (hrest.stop (by decide))
    rw [first_of_not_symbol hsymbol, if_neg hnumber, if_pos hstart, htake, hdrop, ← hword, String.ofList_toList]

theorem ofWord_eq_name {word : String} (h : b = true → word ∉ keywords) : ofWord b word = name word := by
  cases b with
  | false => rfl
  | true =>
    have hne := h rfl
    unfold ofWord
    rw [if_pos rfl]
    split
    · exact absurd (by decide) hne
    · exact absurd (by decide) hne
    · exact absurd (by decide) hne
    · exact absurd (by decide) hne
    · rfl

theorem first_literal {text : String} (h : Quotable text) :
    first b (quoteFor text.toList) (text.toList ++ quoteFor text.toList :: rest) = .ok (literal text, rest) := by
  have hquote : quoteFor text.toList = '"' ∨ quoteFor text.toList = '\'' := by
    unfold quoteFor
    split
    · exact .inr rfl
    · exact .inl rfl
  have hfree : quoteFor text.toList ∉ text.toList := by
    unfold quoteFor
    split
    · rename_i hdouble
      exact h.resolve_left fun hn => hn hdouble
    · rename_i hdouble
      exact hdouble
  obtain ⟨hdrop, htake⟩ := dropWhile_ne hfree rest
  generalize quoteFor text.toList = q at hquote hdrop htake
  generalize hcs : text.toList = cs at hdrop htake
  have hpair : (cs ++ q :: rest).head?.bind (ofPair q) = none := by
    obtain ⟨d, ds, hds⟩ : ∃ d ds, cs ++ q :: rest = d :: ds := by
      cases cs with
      | nil => exact ⟨q, rest, rfl⟩
      | cons d ds => exact ⟨d, ds ++ q :: rest, rfl⟩
    rw [hds]
    rcases hquote with rfl | rfl <;> rfl
  have hone : ofChar b (cs ++ q :: rest).head? q = none := by
    rcases hquote with rfl | rfl <;> rfl
  unfold first
  rw [hpair, hone]
  simp only
  rw [if_pos hquote, hdrop, htake, ← hcs, String.ofList_toList]

/-- A token that fits is read back, up to a break. -/
theorem first_spelled (h : Lexical b t) : ∃ c cs, t.spelled = c :: cs ∧ isBlank c = false
    ∧ ∀ rest, Breaks rest → first b c (cs ++ rest) = .ok (t, rest) := by
  cases t with
  | number d => exact first_number d
  | name word =>
    obtain ⟨hname, hkeyword⟩ := h
    obtain ⟨c, cs, hword, hblank, hfirst⟩ := first_word (b := b) word hname
    refine ⟨c, cs, hword, hblank, fun rest hrest => ?_⟩
    rw [hfirst rest hrest, ofWord_eq_name hkeyword]
  | literal text =>
    refine ⟨quoteFor text.toList, text.toList ++ [quoteFor text.toList], rfl, ?_, fun rest _ => ?_⟩
    · unfold quoteFor
      split <;> decide
    · rw [List.append_assoc]
      exact first_literal h
  | multiply | star =>
    cases h
    refine ⟨_, _, rfl, by decide, fun rest hrest => ?_⟩
    rcases hrest with rfl | ⟨r, rfl⟩ <;> rfl
  | and =>
    cases h
    exact first_word "and" (by decide)
  | or =>
    cases h
    exact first_word "or" (by decide)
  | div =>
    cases h
    exact first_word "div" (by decide)
  | mod =>
    cases h
    exact first_word "mod" (by decide)
  | _ =>
    refine ⟨_, _, rfl, by decide, fun rest hrest => ?_⟩
    rcases hrest with rfl | ⟨r, rfl⟩ <;> rfl

/-! ## Many tokens -/

/-- Tokens that fit one behind another; whether an operand has ended before them, and whether one ends with them. -/
def Fits (before after : Bool) : List Token → Prop
  | [] => before = after
  | t :: ts => Lexical before t ∧ Fits t.endsOperand after ts

theorem Fits.append {after last : Bool} (h : Fits b after ts) (h' : Fits after last us) : Fits b last (ts ++ us) := by
  induction ts generalizing b with
  | nil =>
    cases h
    exact h'
  | cons t ts ih => exact ⟨h.1, ih h.2⟩

theorem scan_space (last : Option Token) (cs : List Char) : scan last (' ' :: cs) = scan last cs := by
  rw [scan, if_pos (by decide)]

/-- A token is read, and the rest behind it. -/
theorem scan_cons {last : Option Token} (hc : isBlank c = false)
    (h : first (last.any endsOperand) c cs = .ok (t, rest)) (hts : scan (some t) rest = .ok ts) :
    scan last (c :: cs) = .ok (t :: ts) := by
  rw [scan, if_neg (by rw [hc]; exact Bool.false_ne_true)]
  split
  · rename_i e he
    rw [h] at he
    cases he
  · rename_i u us hu
    rw [h] at hu
    cases hu
    rw [hts]

/-- Tokens that fit one behind another are read back from their text. -/
theorem scan_spell {last : Option Token} {after : Bool} (h : Fits (last.any endsOperand) after ts) :
    scan last (spell ts) = .ok ts := by
  induction ts generalizing last with
  | nil => rw [spell, scan]
  | cons t ts ih =>
    obtain ⟨ht, hts⟩ := h
    obtain ⟨c, cs, hspelled, hblank, hfirst⟩ := first_spelled ht
    have hrest : scan (some t) (spell ts) = .ok ts := ih hts
    cases ts with
    | nil =>
      have hone := hfirst [] (.inl rfl)
      rw [List.append_nil] at hone
      rw [spell, hspelled]
      exact scan_cons hblank hone hrest
    | cons u us =>
      rw [spell, hspelled, List.cons_append]
      exact scan_cons hblank (hfirst _ (.inr ⟨_, rfl⟩)) ((scan_space _ _).trans hrest)

end Token

/-! ## Printed queries -/

open Token (Fits Lexical)

variable {e : Expr} {ts : List Token} {x : Extra}

/-- In parentheses, anything is an operand. -/
theorem fits_parenthesized {b : Bool} (h : Fits false b ts) (n : Nat) : Fits false true (parenthesized (n + 1) ts) := by
  have hclose : ∀ b, Fits b true [.rightParen] := fun b => ⟨trivial, rfl⟩
  induction n with
  | zero => exact ⟨trivial, h.append (hclose b)⟩
  | succ n ih => exact ⟨trivial, ih.append (hclose true)⟩

/-- A bare slash is in parentheses, and all else ends an operand anyway. -/
theorem fits_enclosed (place : Nat) (h : Fits false (!e.isRoot) ts) : Fits false true (e.enclosed place x ts) := by
  unfold Expr.enclosed
  cases hn : x [] + e.needed place with
  | succ n => exact fits_parenthesized h n
  | zero =>
    have hroot : e.isRoot = false := by
      refine Bool.eq_false_iff.mpr fun hroot => ?_
      rw [Expr.needed, if_pos (.inr hroot)] at hn
      omega
    rw [hroot] at h
    exact h

theorem lexical_token (op : Operator) : Lexical true op.token ∧ op.token.endsOperand = false := by
  cases op <;> exact ⟨by trivial, rfl⟩

theorem fits_nodeTest {test : NodeTest} (h : test.Printable) : Fits false true test.tokens := by
  cases test with
  | named name => exact ⟨⟨h, fun hb => nomatch hb⟩, rfl⟩
  | any => exact ⟨rfl, rfl⟩
  | text => exact ⟨⟨by decide, fun hb => nomatch hb⟩, trivial, trivial, rfl⟩
  | node => exact ⟨⟨by decide, fun hb => nomatch hb⟩, trivial, trivial, rfl⟩

theorem isName_name (axis : Axis) : Token.isName axis.name = true := by
  cases axis <;> decide

mutual

theorem fits_body : ∀ (e : Expr) (x : Extra), e.Printable → Fits false (!e.isRoot) (e.body x)
  | .literal text, x, h => ⟨h, rfl⟩
  | .number d, x, h => ⟨trivial, rfl⟩
  | .path true [], x, h => ⟨trivial, rfl⟩
  | .path true (s :: ss), x, h => fits_moreSteps (s :: ss) x 0 false h.2
  | .path false [], x, h => by simp [Expr.Printable] at h
  | .path false (s :: ss), x, h => by
    rw [Expr.Printable, StepsPrintable] at h
    rw [Expr.body]
    exact (fits_step s (x.below 0) h.2.1).append (fits_moreSteps ss x 1 true h.2.2)
  | .filter primary ps ss, x, h => by
    rw [Expr.Printable] at h
    rw [Expr.body]
    exact (fits_enclosed 10 (fits_body primary (x.below 0) h.2.1)).append
      ((fits_predicates ps (x.below 1) 0 h.2.2.1).append (fits_moreSteps ss (x.below 2) 0 true h.2.2.2))
  | .binary op left right, x, h => by
    rw [Expr.Printable] at h
    rw [Expr.body]
    obtain ⟨hop, hend⟩ := lexical_token op
    refine (fits_enclosed op.level (fits_body left (x.below 0) h.1)).append ⟨hop, ?_⟩
    rw [hend]
    exact fits_enclosed (op.level + 1) (fits_body right (x.below 1) h.2)
  | .negate operand, x, h => by
    rw [Expr.Printable] at h
    rw [Expr.body]
    exact ⟨trivial, fits_enclosed 6 (fits_body operand (x.below 0) h)⟩
  | .union left right, x, h => by
    rw [Expr.Printable] at h
    rw [Expr.body]
    exact (fits_enclosed 7 (fits_body left (x.below 0) h.1)).append
      ⟨trivial, fits_enclosed 8 (fits_body right (x.below 1) h.2)⟩
  | .call function [], x, h => by
    rw [Expr.Printable] at h
    rw [Expr.body]
    exact ⟨⟨h.1.1, fun hb => nomatch hb⟩, trivial, trivial, rfl⟩
  | .call function (e :: es), x, h => by
    rw [Expr.Printable, AllPrintable] at h
    rw [Expr.body]
    exact ⟨⟨h.1.1, fun hb => nomatch hb⟩, trivial,
      (fits_enclosed 0 (fits_body e (x.below 0) h.2.1)).append (fits_moreArguments es x 1 h.2.2)⟩

theorem fits_moreArguments : ∀ (es : List Expr) (x : Extra) (i : Nat), AllPrintable es →
    Fits true true (moreArgumentTokens x i es)
  | [], x, i, _ => ⟨trivial, rfl⟩
  | e :: es, x, i, h => by
    rw [AllPrintable] at h
    rw [moreArgumentTokens]
    exact ⟨trivial, (fits_enclosed 0 (fits_body e (x.below i) h.1)).append (fits_moreArguments es x (i + 1) h.2)⟩

theorem fits_step : ∀ (s : Step) (x : Extra), s.Printable → Fits false true (stepTokens x s)
  | .mk axis test ps, x, h => by
    rw [Step.Printable] at h
    rw [stepTokens]
    exact ⟨⟨isName_name axis, fun hb => nomatch hb⟩, trivial,
      (fits_nodeTest h.1).append (fits_predicates ps x 0 h.2)⟩

theorem fits_moreSteps : ∀ (ss : List Step) (x : Extra) (i : Nat) (b : Bool), StepsPrintable ss →
    Fits b (b || !ss.isEmpty) (moreStepTokens x i ss)
  | [], x, i, b, _ => by
    rw [moreStepTokens]
    exact (Bool.or_false b).symm
  | s :: ss, x, i, b, h => by
    rw [StepsPrintable] at h
    rw [moreStepTokens]
    have hrest := fits_moreSteps ss x (i + 1) true h.2
    have hall := (fits_step s (x.below i) h.1).append hrest
    have hend : (b || !(s :: ss).isEmpty) = true := Bool.or_true b
    rw [hend]
    exact ⟨trivial, hall⟩

theorem fits_predicates : ∀ (ps : List Expr) (x : Extra) (i : Nat), AllPrintable ps →
    Fits true true (predicateTokens x i ps)
  | [], x, i, _ => rfl
  | p :: ps, x, i, h => by
    rw [AllPrintable] at h
    rw [predicateTokens]
    exact ⟨trivial, (fits_enclosed 0 (fits_body p (x.below i) h.1)).append
      ⟨trivial, fits_predicates ps x (i + 1) h.2⟩⟩

end

/-- The tokens of a printed query are read back from its text. -/
theorem ofString_print (h : e.Printable) (x : Extra) : Token.ofString (e.print x) = .ok (e.tokens 0 x) := by
  unfold Token.ofString Expr.print
  rw [String.toList_ofList]
  exact Token.scan_spell (fits_enclosed 0 (fits_body e x h))

end Query

end Stencil
