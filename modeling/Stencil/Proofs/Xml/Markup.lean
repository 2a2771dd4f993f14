/-
  Markup that is written down and read back.

  A writer of documents puts together three things, and each is read back where it stands, whatever follows:

    * A text.  Some of its characters are written as references, the others as they are (`Spells`).  Replacing the
      references gives the text back (`unescape_flatMap`), and as a `<` is always written as a reference, the text goes
      on to the next tag (`scan_text`).
    * A tag: a name, and attributes with their values in quotation marks (`tagText`).  It ends where it was ended
      (`scan_tag`), and its name and attributes are those that were written (`tagName_tagText`, `attributes_tagText`).
    * A closing tag (`scan_closing`).

  All that is needed of the names is that they hold none of the characters that mean something in a tag (`Name`).
-/
import Stencil.Proofs.Text
import Stencil.Xml.Token

set_option autoImplicit false

namespace Stencil.Xml

open Stencil.Text (dropWhile_ne takeWhile_append_stop)

variable {cs raw rest acc name : List Char} {c : Char} {attrs : List (List Char × List Char)}

/-! ## References -/

/-- Characters that stand for one character in a text: the character itself, or a reference to it. -/
inductive Spells : List Char → Char → Prop
  | itself {c : Char} (plain : c ≠ '&') : Spells [c] c
  | reference {entity : List Char} {c : Char} (closed : ∀ d ∈ entity, d ≠ '&' ∧ d ≠ ';')
      (means : reference? entity = some c) : Spells ('&' :: entity ++ [';']) c

/-- An entity that is given by its name. -/
theorem Spells.of_entity (entity : List Char) (c : Char) (closed : entity.all (fun d => d != '&' && d != ';') = true)
    (means : reference? entity = some c) : Spells ('&' :: entity ++ [';']) c := by
  refine .reference (fun d hd => ?_) means
  have hplain := List.all_eq_true.mp closed d hd
  rwa [Bool.and_eq_true, bne_iff_ne, bne_iff_ne] at hplain

theorem unescapeFrom_entity {name entity : List Char} (closed : ∀ d ∈ entity, d ≠ '&' ∧ d ≠ ';') (rest : List Char) :
    unescapeFrom (some name) (entity ++ rest) = unescapeFrom (some (entity.reverse ++ name)) rest := by
  induction entity generalizing name with
  | nil => rfl
  | cons d ds ih =>
    obtain ⟨hamp, hsemi⟩ := closed d List.mem_cons_self
    rw [List.cons_append, unescapeFrom, if_neg hamp, if_neg hsemi, ih fun e he => closed e (List.mem_cons_of_mem _ he),
      List.reverse_cons,
      List.append_assoc, List.singleton_append]

/-- What stands for a character is read as the character. -/
theorem Spells.unescapeFrom_append (h : Spells raw c) (hrest : unescapeFrom none rest = .ok cs) :
    unescapeFrom none (raw ++ rest) = .ok (c :: cs) := by
  cases h with
  | itself plain =>
    rw [List.singleton_append, unescapeFrom, if_neg plain, hrest]
  | @reference entity _ closed means =>
    rw [List.append_assoc, List.cons_append, unescapeFrom, if_pos rfl, unescapeFrom_entity closed,
      List.singleton_append, unescapeFrom, if_neg (by decide), if_pos rfl, List.append_nil, List.reverse_reverse, means,
      hrest]

/-- A text whose characters are written one by one is read back. -/
theorem unescape_flatMap {write : Char → List Char} (h : ∀ c, Spells (write c) c) (cs : List Char) :
    unescape (cs.flatMap write) = .ok cs := by
  unfold unescape
  induction cs with
  | nil => rfl
  | cons c cs ih =>
    rw [List.flatMap_cons]
    exact (h c).unescapeFrom_append ih

/-- A text without references is read as it is. -/
theorem unescape_of_not_mem (h : '&' ∉ cs) : unescape cs = .ok cs := by
  unfold unescape
  induction cs with
  | nil => rfl
  | cons c cs ih =>
    have hc : Spells [c] c := .itself fun heq => List.ne_of_not_mem_cons h heq.symm
    exact hc.unescapeFrom_append (ih (List.not_mem_of_not_mem_cons h))

/-! ## Tags -/

/-- Whether a character may stand in a name: it means nothing in a tag. -/
def inName (c : Char) : Bool := !(isSpace c || ['=', '<', '>', '"', '\'', '/', '!', '?'].contains c)

/-- A name in a tag. -/
structure Name (cs : List Char) : Prop where
  nonempty : cs ≠ []
  plain : ∀ c ∈ cs, inName c = true

theorem Name.of_all (hne : cs ≠ []) (hall : cs.all inName = true) : Name cs := ⟨hne, List.all_eq_true.mp hall⟩

/-- The inside of a tag with a name and attributes, whose values are given as they are written. -/
def tagText (name : List Char) (attrs : List (List Char × List Char)) : List Char :=
  name ++ attrs.flatMap fun a => ' ' :: a.1 ++ '=' :: '"' :: a.2 ++ ['"']

/-- What can be written as the attributes of a tag: no value ends early. -/
structure Attributes (attrs : List (List Char × List Char)) : Prop where
  name : ∀ a ∈ attrs, Name a.1
  value : ∀ a ∈ attrs, '"' ∉ a.2

theorem isSpace_of_inName (h : inName c = true) : isSpace c = false := by
  unfold inName at h
  rw [Bool.not_eq_true', Bool.or_eq_false_iff] at h
  exact h.1

theorem ne_of_inName (h : inName c = true) {d : Char} (hd : d ∈ ['=', '<', '>', '"', '\'', '/', '!', '?']) : c ≠ d := by
  rintro rfl
  unfold inName at h
  rw [Bool.not_eq_true', Bool.or_eq_false_iff] at h
  rw [List.contains_iff_mem.mpr hd] at h
  exact absurd h.2 (by decide)

theorem Attributes.tail {a : List Char × List Char} (h : Attributes (a :: attrs)) : Attributes attrs :=
  ⟨fun b hb => h.name b (List.mem_cons_of_mem _ hb), fun b hb => h.value b (List.mem_cons_of_mem _ hb)⟩

theorem tagText_cons (name : List Char) (a : List Char × List Char) :
    tagText name (a :: attrs) = name ++ (' ' :: (a.1 ++ '=' :: '"' :: (a.2 ++ '"' :: tagText [] attrs))) := by
  unfold tagText
  rw [List.flatMap_cons]
  simp only [List.append_assoc, List.cons_append, List.nil_append]

/-! ### Where a tag ends -/

-- the equations of `Token.scan` are worked out once, and not for each lemma that rewrites with them
attribute [local simp] Token.scan

/-- Text is read up to the next tag. -/
theorem scan_text (h : '<' ∉ raw) (acc rest : List Char) :
    Token.scan .text acc (raw ++ '<' :: rest) = Token.ofText (raw.reverse ++ acc) (Token.scan .opened [] rest) := by
  induction raw generalizing acc with
  | nil => rw [List.nil_append, Token.scan, if_pos rfl]; rfl
  | cons c cs ih =>
    rw [List.cons_append, Token.scan, if_neg fun heq => List.ne_of_not_mem_cons h heq.symm,
      ih (List.not_mem_of_not_mem_cons h), List.reverse_cons, List.append_assoc]
    rfl

theorem scan_plain (h : ∀ c ∈ cs, inName c = true) (acc rest : List Char) :
    Token.scan (.tag none) acc (cs ++ rest) = Token.scan (.tag none) (cs.reverse ++ acc) rest := by
  induction cs generalizing acc with
  | nil => rfl
  | cons c cs ih =>
    have hc := h c List.mem_cons_self
    have hquote : ¬ (c = '"' ∨ c = '\'') :=
      not_or.mpr ⟨ne_of_inName hc (by decide), ne_of_inName hc (by decide)⟩
    rw [List.cons_append, Token.scan, if_neg (ne_of_inName hc (by decide)), if_neg hquote,
      ih fun d hd => h d (List.mem_cons_of_mem _ hd), List.reverse_cons, List.append_assoc]
    rfl

theorem scan_quoted (h : '"' ∉ cs) (acc rest : List Char) :
    Token.scan (.tag (some '"')) acc (cs ++ '"' :: rest) = Token.scan (.tag none) ('"' :: (cs.reverse ++ acc)) rest := by
  induction cs generalizing acc with
  | nil => rw [List.nil_append, Token.scan, if_pos rfl]; rfl
  | cons c cs ih =>
    rw [List.cons_append, Token.scan, if_neg fun heq => List.ne_of_not_mem_cons h heq.symm,
      ih (List.not_mem_of_not_mem_cons h), List.reverse_cons, List.append_assoc]
    rfl

/-- Attributes are read up to the last one's quotation mark. -/
theorem scan_attributes (h : Attributes attrs) (acc rest : List Char) :
    Token.scan (.tag none) acc (tagText [] attrs ++ rest)
      = Token.scan (.tag none) ((tagText [] attrs).reverse ++ acc) rest := by
  induction attrs generalizing acc with
  | nil => rfl
  | cons a attrs ih =>
    have hname := (h.name a List.mem_cons_self).plain
    have hvalue := h.value a List.mem_cons_self
    -- the blank, the name, the equals sign and the first quotation mark; then the value and the second one
    calc Token.scan (.tag none) acc (tagText [] (a :: attrs) ++ rest)
        = Token.scan (.tag none) acc (' ' :: (a.1 ++ '=' :: '"' :: (a.2 ++ '"' :: (tagText [] attrs ++ rest)))) := by
          rw [tagText_cons]
          simp only [List.append_assoc, List.cons_append, List.nil_append]
      _ = Token.scan (.tag none) (' ' :: acc) (a.1 ++ '=' :: '"' :: (a.2 ++ '"' :: (tagText [] attrs ++ rest))) := rfl
      _ = Token.scan (.tag (some '"')) ('"' :: '=' :: (a.1.reverse ++ ' ' :: acc))
            (a.2 ++ '"' :: (tagText [] attrs ++ rest)) := scan_plain hname _ _
      _ = Token.scan (.tag none) ('"' :: (a.2.reverse ++ '"' :: '=' :: (a.1.reverse ++ ' ' :: acc)))
            (tagText [] attrs ++ rest) := scan_quoted hvalue _ _
      _ = Token.scan (.tag none) ((tagText [] (a :: attrs)).reverse ++ acc) rest := by
          rw [ih h.tail, tagText_cons]
          simp only [List.reverse_append, List.reverse_cons, List.append_assoc, List.cons_append, List.nil_append]

/-- The first character of a name tells that a tag begins. -/
theorem scan_opened (h : Name name) (rest : List Char) :
    Token.scan .opened [] (name ++ rest) = Token.scan (.tag none) name.reverse rest := by
  obtain ⟨nonempty, plain⟩ := h
  cases name with
  | nil => exact absurd rfl nonempty
  | cons c cs =>
    have hc := plain c List.mem_cons_self
    have hquote : ¬ (c = '"' ∨ c = '\'') :=
      not_or.mpr ⟨ne_of_inName hc (by decide), ne_of_inName hc (by decide)⟩
    rw [List.cons_append, Token.scan, if_neg (ne_of_inName hc (by decide)), if_neg (ne_of_inName hc (by decide)),
      if_neg (ne_of_inName hc (by decide)), if_neg hquote, scan_plain fun d hd => plain d (List.mem_cons_of_mem _ hd),
      List.reverse_cons]

theorem scan_tagText (hn : Name name) (ha : Attributes attrs) (rest : List Char) :
    Token.scan .opened [] (tagText name attrs ++ rest) = Token.scan (.tag none) (tagText name attrs).reverse rest := by
  have hsplit : tagText name attrs = name ++ tagText [] attrs := rfl
  rw [hsplit, List.append_assoc, scan_opened hn, scan_attributes ha, List.reverse_append]

/-- A tag that has been written is read. -/
theorem scan_tag (hn : Name name) (ha : Attributes attrs) (rest : List Char) :
    Token.scan .opened [] (tagText name attrs ++ '>' :: rest)
      = .tag (tagText name attrs) :: Token.scan .text [] rest := by
  rw [scan_tagText hn ha, Token.scan, if_pos rfl, List.reverse_reverse]

/-- A tag that opens and closes, and has been written, is read. -/
theorem scan_emptyTag (hn : Name name) (ha : Attributes attrs) (rest : List Char) :
    Token.scan .opened [] (tagText name attrs ++ '/' :: '>' :: rest)
      = .tag (tagText name attrs ++ ['/']) :: Token.scan .text [] rest := by
  rw [scan_tagText hn ha, Token.scan, if_neg (by decide), if_neg (by decide), Token.scan, if_pos rfl,
    List.reverse_cons, List.reverse_reverse]

/-- A closing tag that has been written is read. -/
theorem scan_closing (hn : Name name) (rest : List Char) :
    Token.scan .opened [] ('/' :: name ++ '>' :: rest) = .tag ('/' :: name) :: Token.scan .text [] rest := by
  show Token.scan (.tag none) ['/'] (name ++ '>' :: rest) = _
  rw [scan_plain hn.plain, Token.scan, if_pos rfl, List.reverse_append, List.reverse_reverse]
  rfl

/-! ### What a tag says -/

theorem takeWhile_name (h : ∀ c ∈ cs, inName c = true) (rest : List Char) {p : Char → Bool}
    (hp : ∀ c, inName c = true → p c = true) (hrest : ∀ c ∈ rest.head?, p c = false) :
    (cs ++ rest).takeWhile p = cs ∧ (cs ++ rest).dropWhile p = rest :=
  takeWhile_append_stop (fun c hc => hp c (h c hc)) _ hrest

theorem head_tagText (attrs : List (List Char × List Char)) : ∀ c ∈ (tagText [] attrs).head?, c = ' ' := by
  cases attrs with
  | nil => exact fun c hc => nomatch hc
  | cons a attrs =>
    rw [tagText_cons]
    exact fun c hc => (Option.some.inj hc).symm

theorem tagName_tagText (hn : Name name) (attrs : List (List Char × List Char)) : tagName (tagText name attrs) = name := by
  refine (takeWhile_name hn.plain (tagText [] attrs) (fun c hc => ?_) fun c hc => ?_).1
  · rw [isSpace_of_inName hc]
    rfl
  · rw [head_tagText attrs c hc]
    rfl

theorem afterName_tagText (hn : Name name) (attrs : List (List Char × List Char)) :
    afterName (tagText name attrs) = tagText [] attrs := by
  unfold afterName
  rw [tagName_tagText hn]
  exact List.drop_left

theorem attributeValue_quoted {value : List Char} (h : '"' ∉ value) (rest : List Char) :
    attributeValue? ('=' :: '"' :: (value ++ '"' :: rest)) = some (value, rest) := by
  obtain ⟨hdrop, htake⟩ := dropWhile_ne h rest
  have hsign : ('=' :: '"' :: (value ++ '"' :: rest)).dropWhile isSpace = '=' :: '"' :: (value ++ '"' :: rest) := rfl
  have hquote : ('"' :: (value ++ '"' :: rest)).dropWhile isSpace = '"' :: (value ++ '"' :: rest) := rfl
  simp only [attributeValue?, hsign, hquote, true_or, if_true, hdrop, htake]

/-- The attributes of a tag are those that have been written. -/
theorem leadingAttributes_tagText (h : Attributes attrs) : leadingAttributes (tagText [] attrs) = (attrs, true) := by
  induction attrs with
  | nil =>
    unfold leadingAttributes
    rfl
  | cons a attrs ih =>
    obtain ⟨name, value⟩ := a
    obtain ⟨nonempty, plain⟩ := h.name _ List.mem_cons_self
    have hquoted : '"' ∉ value := h.value _ List.mem_cons_self
    dsimp only at nonempty plain
    cases name with
    | nil => exact absurd rfl nonempty
    | cons c cs =>
      have hdrop : (tagText [] ((c :: cs, value) :: attrs)).dropWhile isSpace
          = c :: (cs ++ '=' :: '"' :: (value ++ '"' :: tagText [] attrs)) := by
        rw [tagText_cons, List.nil_append, List.dropWhile_cons_of_pos (by decide), List.cons_append,
          List.dropWhile_cons_of_neg (by rw [isSpace_of_inName (plain c List.mem_cons_self)]; decide)]
      obtain ⟨htake, hskip⟩ := takeWhile_name (p := fun d => !(d == '=' || isSpace d))
        (fun d hd => plain d (List.mem_cons_of_mem _ hd)) ('=' :: '"' :: (value ++ '"' :: tagText [] attrs))
        (fun d hd => by
          rw [isSpace_of_inName hd, Bool.or_false, Bool.not_eq_true', beq_eq_false_iff_ne]
          exact ne_of_inName hd (by decide))
        fun d hd => by cases hd; rfl
      rw [leadingAttributes]
      split
      · rename_i heq
        rw [hdrop] at heq
        cases heq
      · rename_i d ds heq
        rw [hdrop] at heq
        cases heq
        dsimp only
        split
        · rename_i hnone
          rw [hskip, attributeValue_quoted hquoted] at hnone
          cases hnone
        · rename_i value' rest' hsome
          rw [hskip, attributeValue_quoted hquoted] at hsome
          cases hsome
          rw [ih h.tail, htake]

theorem hasDuplicates_of_nodup {names : List (List Char)} (h : names.Nodup) : hasDuplicates names = false := by
  induction names with
  | nil => rfl
  | cons n ns ih =>
    obtain ⟨hn, hns⟩ := List.nodup_cons.mp h
    rw [hasDuplicates, ih hns, Bool.or_false]
    exact Bool.eq_false_iff.mpr fun hc => hn (List.contains_iff_mem.mp hc)

theorem attributes_tagText (hn : Name name) (ha : Attributes attrs) (hnodup : (attrs.map Prod.fst).Nodup) :
    attributes (tagText name attrs) = .ok attrs := by
  unfold attributes
  rw [afterName_tagText hn, leadingAttributes_tagText ha]
  dsimp only
  rw [hasDuplicates_of_nodup hnodup]
  rfl

/-! ### Kinds of tags -/

theorem head_of_name (hn : Name name) (attrs : List (List Char × List Char)) (more : List Char) :
    ∃ c cs, tagText name attrs ++ more = c :: cs ∧ c ≠ '/' := by
  obtain ⟨nonempty, plain⟩ := hn
  cases name with
  | nil => exact absurd rfl nonempty
  | cons c cs => exact ⟨c, _, rfl, ne_of_inName (plain c List.mem_cons_self) (by decide)⟩

/-- A tag ends with its name, or with a quotation mark. -/
theorem last_tagText (hn : Name name) (attrs : List (List Char × List Char)) :
    (tagText name attrs).getLast? ≠ some '/' := by
  rcases List.eq_nil_or_concat attrs with rfl | ⟨attrs, a, rfl⟩
  · intro hlast
    have hmem := List.mem_of_getLast? hlast
    rw [show tagText name [] = name from List.append_nil name] at hmem
    exact ne_of_inName (hn.plain '/' hmem) (by decide) rfl
  · unfold tagText
    rw [List.concat_eq_append, List.flatMap_append, List.flatMap_singleton, ← List.append_assoc, ← List.append_assoc,
      List.getLast?_append]
    exact fun h => absurd h (by decide : some '"' ≠ some '/')

theorem tagKind_opening (hn : Name name) (attrs : List (List Char × List Char)) :
    tagKind (tagText name attrs) = (.opening, tagText name attrs) := by
  have hlast := last_tagText hn attrs
  obtain ⟨c, cs, heq, hc⟩ := head_of_name hn attrs []
  rw [List.append_nil] at heq
  unfold tagKind
  split
  · rename_i ds hds
    rw [heq] at hds
    exact absurd (List.cons.inj hds).1 hc
  · rw [if_neg hlast]

theorem tagKind_empty (hn : Name name) (attrs : List (List Char × List Char)) :
    tagKind (tagText name attrs ++ ['/']) = (.empty, tagText name attrs) := by
  obtain ⟨c, cs, heq, hc⟩ := head_of_name hn attrs ['/']
  unfold tagKind
  split
  · rename_i ds hds
    rw [heq] at hds
    exact absurd (List.cons.inj hds).1 hc
  · rw [List.getLast?_append, List.dropLast_concat]
    rfl

theorem closingName_name (hn : Name name) : closingName name = name := by
  have hdrop : name.reverse.dropWhile isSpace = name.reverse := by
    cases h : name.reverse with
    | nil => rfl
    | cons c cs =>
      have hc : c ∈ name := List.mem_reverse.mp (h ▸ List.mem_cons_self)
      rw [List.dropWhile_cons_of_neg (by rw [isSpace_of_inName (hn.plain c hc)]; decide)]
  unfold closingName
  rw [hdrop, List.reverse_reverse]
  split
  · exact absurd rfl hn.nonempty
  · rfl

end Stencil.Xml
