/-
  A document that is written down is read back.

  `Written.document` writes an element down: its tag, its own text, its children in order, its closing tag.  The
  characters that mean something in markup are written as references, and so are tabs and line breaks.  Two things
  are a matter of style: an element without content may be one tag or two, and the numbers in references may be
  decimal or hexadecimal.

  Reading undoes this for every element that is `Recorded`.  Element names have no namespace, no attribute declares
  one, and no attribute stands twice.  A text of blanks in front of children is excepted, since it counts as
  indentation.

  Reading an element adds it to what is open and goes on behind it (`run_document`).  The induction is on the element:
  its children are added to its open tag one after another, and the closing tag finds them all there.
-/
import Stencil.Proofs.Tree.Loading
import Stencil.Proofs.Xml.Markup
import Stencil.Xml.Document

set_option autoImplicit false

namespace Stencil.Xml

open Document (Reading)

variable {c : Char} {e : Element} {es : List Element} {rest : List Char}

/-! ## Names -/

/-- The characters with which names begin, as ranges of code points. -/
def firstRanges : List (Nat × Nat) :=
  [(0x3A, 0x3A), (0x41, 0x5A), (0x5F, 0x5F), (0x61, 0x7A), (0xC0, 0xD6), (0xD8, 0xF6), (0xF8, 0x2FF), (0x370, 0x37D),
    (0x37F, 0x1FFF), (0x200C, 0x200D), (0x2070, 0x218F), (0x2C00, 0x2FEF), (0x3001, 0xD7FF), (0xF900, 0xFDCF),
    (0xFDF0, 0xFFFD), (0x10000, 0xEFFFF)]

/-- The characters that stand in names, but not at their beginning, as ranges of code points. -/
def laterRanges : List (Nat × Nat) := [(0x2D, 0x2E), (0x30, 0x39), (0xB7, 0xB7), (0x300, 0x36F), (0x203F, 0x2040)]

/-- Whether a character lies in one of some ranges. -/
def inRanges (ranges : List (Nat × Nat)) (c : Char) : Bool :=
  ranges.any fun r => decide (r.1 ≤ c.toNat ∧ c.toNat ≤ r.2)

/-- Whether a text is a name. -/
def isName (s : String) : Bool :=
  match s.toList with
  | [] => false
  | c :: cs => inRanges firstRanges c && cs.all (inRanges (firstRanges ++ laterRanges))

theorem inName_of_inRanges (h : inRanges (firstRanges ++ laterRanges) c = true) : inName c = true := by
  have hnone : [' ', '\t', '\n', '\r', '=', '<', '>', '"', '\'', '/', '!', '?'].all (fun d =>
      inRanges (firstRanges ++ laterRanges) d == false) = true := by decide
  have hne : ∀ d ∈ [' ', '\t', '\n', '\r', '=', '<', '>', '"', '\'', '/', '!', '?'], c ≠ d := by
    rintro d hd rfl
    rw [eq_of_beq (List.all_eq_true.mp hnone c hd)] at h
    cases h
  simp only [List.forall_mem_cons] at hne
  obtain ⟨h1, h2, h3, h4, h5, h6, h7, h8, h9, h10, h11, h12, -⟩ := hne
  simp [inName, isSpace, h1, h2, h3, h4, h5, h6, h7, h8, h9, h10, h11, h12]

theorem name_of_isName {s : String} (h : isName s = true) : Name s.toList := by
  unfold isName at h
  split at h
  · cases h
  · rename_i c cs hs
    rw [Bool.and_eq_true, List.all_eq_true] at h
    refine ⟨hs ▸ List.cons_ne_nil c cs, fun d hd => ?_⟩
    rw [hs] at hd
    rcases List.mem_cons.mp hd with rfl | hd
    · refine inName_of_inRanges ?_
      have hfirst := h.1
      unfold inRanges at hfirst ⊢
      rw [List.any_append, hfirst, Bool.true_or]
    · exact inName_of_inRanges (h.2 d hd)

/-! ## Writing -/

/-- What is a matter of style in a document. -/
structure Style where
  /-- Whether an element without content has a closing tag. -/
  closed : Element → Bool
  /-- Whether numbers of characters are hexadecimal. -/
  hexadecimal : Bool

namespace Written

/-- A character of a text or of an attribute value. -/
def char (style : Style) (c : Char) : List Char :=
  match c with
  | '&' => "&amp;".toList
  | '<' => "&lt;".toList
  | '>' => "&gt;".toList
  | '"' => "&quot;".toList
  | '\t' => if style.hexadecimal then "&#x9;".toList else "&#9;".toList
  | '\n' => if style.hexadecimal then "&#xA;".toList else "&#10;".toList
  | '\r' => if style.hexadecimal then "&#xD;".toList else "&#13;".toList
  | c => [c]

/-- A text or an attribute value. -/
def text (style : Style) (s : String) : List Char := s.toList.flatMap (char style)

/-- The inside of the tag of an element. -/
def tag (style : Style) (name : String) (attrs : Entries String) : List Char :=
  tagText name.toList (attrs.map fun a => (a.1.toList, text style a.2))

mutual

/-- An element. -/
def element (style : Style) : Element → List Char
  | .mk n as x c cs =>
    if x.isEmpty && cs.isEmpty && !style.closed (.mk n as x c cs) then '<' :: (tag style n as ++ ['/', '>'])
    else '<' :: (tag style n as ++ '>' :: (text style x ++ elements style cs ++ '<' :: ('/' :: n.toList ++ ['>'])))

/-- Elements, one after another. -/
def elements (style : Style) : List Element → List Char
  | [] => []
  | e :: es => element style e ++ elements style es

end

/-- A document. -/
def document (style : Style) (e : Element) : String := String.ofList (element style e)

end Written

/-- What is lost of no element when it is written down and read: its name is without a namespace, its attributes
    have different names and declare no namespaces, its text is not taken for indentation, and nothing has been
    computed for it. -/
structure Recorded (e : Element) : Prop where
  name : isName e.name = true ∧ ':' ∉ e.name.toList
  attrs : ∀ a ∈ e.attrs, isName a.1 = true ∧ a.1 ≠ "xmlns" ∧ ¬ "xmlns:".toList <+: a.1.toList
  distinct : (Entries.keys e.attrs).Nodup
  text : e.children ≠ [] → e.text = "" ∨ Text.isBlankText e.text = false
  computed : e.computed = .none

/-! ## What is written -/

theorem spells_char (style : Style) (c : Char) : Spells (Written.char style c) c := by
  unfold Written.char
  split
  · exact .of_entity "amp".toList '&' (by decide) (by decide)
  · exact .of_entity "lt".toList '<' (by decide) (by decide)
  · exact .of_entity "gt".toList '>' (by decide) (by decide)
  · exact .of_entity "quot".toList '"' (by decide) (by decide)
  · split
    · exact .of_entity "#x9".toList '\t' (by decide) (by decide)
    · exact .of_entity "#9".toList '\t' (by decide) (by decide)
  · split
    · exact .of_entity "#xA".toList '\n' (by decide) (by decide)
    · exact .of_entity "#10".toList '\n' (by decide) (by decide)
  · split
    · exact .of_entity "#xD".toList '\r' (by decide) (by decide)
    · exact .of_entity "#13".toList '\r' (by decide) (by decide)
  · rename_i hamp _ _ _ _ _ _
    exact .itself fun h => hamp h

/-- No angle bracket and no quotation mark of a text is left. -/
theorem plain_text (style : Style) (s : String) : '<' ∉ Written.text style s ∧ '"' ∉ Written.text style s := by
  have hchar : ∀ c, '<' ∉ Written.char style c ∧ '"' ∉ Written.char style c := by
    intro c
    unfold Written.char
    split
    case h_8 hamp hlt hgt hquot htab hfeed hreturn =>
      exact ⟨fun h => hlt (List.mem_singleton.mp h).symm, fun h => hquot (List.mem_singleton.mp h).symm⟩
    all_goals cases style.hexadecimal <;> decide
  constructor <;> intro h <;> obtain ⟨c, -, hc⟩ := List.mem_flatMap.mp h
  · exact (hchar c).1 hc
  · exact (hchar c).2 hc

theorem text_eq_nil_iff {style : Style} {s : String} : Written.text style s = [] ↔ s = "" := by
  unfold Written.text
  rw [List.flatMap_eq_nil_iff]
  refine ⟨fun h => ?_, fun h => h ▸ fun _ hc => nomatch hc⟩
  rcases hs : s.toList with _ | ⟨c, cs⟩
  · exact String.toList_inj.mp hs
  · have hc := h c (hs ▸ List.mem_cons_self)
    have hspells := spells_char style c
    rw [hc] at hspells
    cases hspells

namespace Recorded

variable (h : Recorded e) (style : Style)

include h

theorem written_attributes : Attributes (e.attrs.map fun a => (a.1.toList, Written.text style a.2)) := by
  constructor <;> intro a ha <;> obtain ⟨b, hb, rfl⟩ := List.mem_map.mp ha
  · exact name_of_isName (h.attrs b hb).1
  · exact (plain_text style b.2).2

theorem written_names : ((e.attrs.map fun a => (a.1.toList, Written.text style a.2)).map Prod.fst).Nodup := by
  have hmap : (e.attrs.map fun a => (a.1.toList, Written.text style a.2)).map Prod.fst
      = (Entries.keys e.attrs).map String.toList := by
    unfold Entries.keys
    rw [List.map_map, List.map_map]
    rfl
  rw [hmap]
  exact List.Pairwise.map _ (fun _ _ hne heq => hne (String.toList_inj.mp heq)) h.distinct

theorem not_declaresNamespace {a : String × String} (ha : a ∈ e.attrs) : declaresNamespace a.1.toList = false := by
  obtain ⟨-, hxmlns, hprefix⟩ := h.attrs a ha
  unfold declaresNamespace
  rw [Bool.or_eq_false_iff, beq_eq_false_iff_ne, Bool.eq_false_iff]
  exact ⟨fun heq => hxmlns (String.toList_inj.mp heq), fun hp => hprefix (List.isPrefixOf_iff_prefix.mp hp)⟩

/-- The tag of an element is read. -/
theorem openTag_tag : openTag (Written.tag style e.name e.attrs) = .ok ⟨e.name.toList, e.attrs, "", []⟩ := by
  have hname := name_of_isName h.name.1
  have hdeclared : ∀ attrs : Entries String, (∀ a ∈ attrs, a ∈ e.attrs) →
      declaredAttributes (attrs.map fun a => (a.1.toList, Written.text style a.2)) = .ok attrs := by
    intro attrs hsub
    induction attrs with
    | nil => rfl
    | cons a attrs ih =>
      have hhere : unescape (Written.text style a.2) = .ok a.2.toList := unescape_flatMap (spells_char style) _
      have hdecl := h.not_declaresNamespace (hsub a List.mem_cons_self)
      rw [List.map_cons, declaredAttributes, if_neg (Bool.eq_false_iff.mp hdecl), hhere,
        ih fun b hb => hsub b (List.mem_cons_of_mem _ hb)]
      simp only [String.ofList_toList]
  unfold openTag Written.tag
  rw [attributes_tagText hname (h.written_attributes style) (h.written_names style), tagName_tagText hname]
  dsimp only
  rw [hdeclared e.attrs fun _ ha => ha]
  rfl

/-- The element of its open tag, with its text and its children. -/
theorem close_eq : Open.close ⟨e.name.toList, e.attrs, e.text, e.children.reverse⟩ = e := by
  obtain ⟨n, as, x, c, cs⟩ := e
  have hcomputed : c = .none := h.computed
  have hlocal : localName n.toList = n.toList := by
    have hcolon : ¬ n.toList.contains ':' = true := fun hc => h.name.2 (List.contains_iff_mem.mp hc)
    unfold localName
    rw [if_neg hcolon]
  have htext : (if !cs.reverse.isEmpty && Text.isBlankText x then "" else x) = x := by
    split
    · rename_i hblank
      rw [Bool.and_eq_true, Bool.not_eq_true', List.isEmpty_reverse] at hblank
      have hne : cs ≠ [] := fun hnil => absurd hblank.1 (by rw [hnil]; decide)
      rcases h.text hne with hx | hx
      · exact hx.symm
      · exact absurd hblank.2 (Bool.eq_false_iff.mp hx)
    · rfl
  show Element.mk (String.ofList (localName n.toList)) as (if !cs.reverse.isEmpty && Text.isBlankText x then "" else x)
    .none cs.reverse.reverse = .mk n as x c cs
  rw [hlocal, htext, List.reverse_reverse, String.ofList_toList, hcomputed]

end Recorded

/-! ## Reading -/

/-- Text in front of a tag is read up to the tag. -/
theorem scan_text_tag (style : Style) (x : String) {more : List Char} (hmore : more.head? = some '<') :
    Token.scan .text [] (Written.text style x ++ more)
      = Token.ofText (Written.text style x).reverse (Token.scan .text [] more) := by
  obtain ⟨more, rfl⟩ := List.head?_eq_some_iff.mp hmore
  have hmarkup : Token.scan .text [] ('<' :: more) = Token.scan .opened [] more := scan_text List.not_mem_nil [] more
  rw [scan_text (plain_text style x).1, List.append_nil, hmarkup]

/-- The text of an element is read. -/
theorem run_text (style : Style) (x : String) (o : Open) (os : List Open) (root : Option Element) (ts : List Token) :
    Reading.run ⟨o :: os, root⟩ (Token.ofText (Written.text style x).reverse ts)
      = Reading.run ⟨o.addText x :: os, root⟩ ts := by
  unfold Token.ofText
  split
  · rename_i hempty
    rw [List.isEmpty_reverse, List.isEmpty_iff, text_eq_nil_iff] at hempty
    rw [hempty, Open.addText, String.append_empty]
  · have hread : unescape (Written.text style x) = .ok x.toList := unescape_flatMap (spells_char style) _
    rw [Reading.run, List.reverse_reverse, Reading.step]
    simp only [List.isEmpty_cons, Bool.false_eq_true, if_false, hread, Reading.addText, String.ofList_toList]

/-- The tag of an element is read where another element may stand. -/
theorem step_tag {r : Reading} {content tag : List Char} {kind : TagKind} {o : Open} (hkind : tagKind content = (kind, tag))
    (hne : kind ≠ .closing) (hr : r.opened = [] → r.root = none) (ho : openTag tag = .ok o) :
    r.step (.tag content) = .ok (if kind = .empty then r.add o.close else { r with opened := o :: r.opened }) := by
  have hroom : (r.opened.isEmpty && r.root.isSome) = false := by
    cases hopened : r.opened with
    | nil =>
      rw [hr hopened]
      rfl
    | cons => rfl
  rw [Reading.step, hkind]
  cases kind with
  | closing => exact absurd rfl hne
  | opening =>
    dsimp only
    rw [hroom, if_neg Bool.false_ne_true, ho]
    rfl
  | empty =>
    dsimp only
    rw [hroom, if_neg Bool.false_ne_true, ho]
    rfl

/-- The closing tag of an element is read. -/
theorem step_closing {name : List Char} (hn : Name name) {o : Open} (ho : o.written = name) (os : List Open)
    (root : Option Element) :
    Reading.step ⟨o :: os, root⟩ (.tag ('/' :: name)) = .ok (Reading.add ⟨os, root⟩ o.close) := by
  rw [Reading.step]
  show (if closingName name = o.written then _ else _) = _
  rw [closingName_name hn, if_pos ho.symm]

mutual

/-- An element that has been written is read, and reading goes on behind it. -/
theorem run_element (style : Style) : ∀ {e : Element}, (∀ d ∈ e.all, Recorded d) → ∀ {r : Reading},
    (r.opened = [] → r.root = none) → ∀ rest : List Char,
    Reading.run r (Token.scan .text [] (Written.element style e ++ rest)) = Reading.run (r.add e) (Token.scan .text [] rest)
  | .mk n as x c cs, h, r, hr, rest => by
    have hhere : Recorded (.mk n as x c cs) := h _ (by rw [Element.all]; exact List.mem_cons_self)
    have hbelow : ∀ d ∈ Element.allOf cs, Recorded d :=
      fun d hd => h d (by rw [Element.all]; exact List.mem_cons_of_mem _ hd)
    have hname : Name n.toList := name_of_isName hhere.name.1
    have hattrs := hhere.written_attributes style
    have hopen := hhere.openTag_tag style
    have hclose := hhere.close_eq
    dsimp only [Element.name, Element.attrs, Element.text, Element.children] at hattrs hopen hclose
    have hmarkup : ∀ more, Token.scan .text [] ('<' :: more) = Token.scan .opened [] more :=
      fun more => scan_text List.not_mem_nil [] more
    rw [Written.element]
    split
    · -- one tag is all of it
      rename_i hempty
      rw [Bool.and_eq_true, Bool.and_eq_true, String.isEmpty_iff, List.isEmpty_iff] at hempty
      obtain ⟨⟨rfl, rfl⟩, -⟩ := hempty
      have hscan : Token.scan .text [] ('<' :: (Written.tag style n as ++ ['/', '>']) ++ rest)
          = .tag (Written.tag style n as ++ ['/']) :: Token.scan .text [] rest := by
        rw [List.cons_append, hmarkup, List.append_assoc]
        exact scan_emptyTag hname hattrs rest
      have hkind : tagKind (Written.tag style n as ++ ['/']) = (.empty, Written.tag style n as) := tagKind_empty hname _
      rw [hscan, Reading.run, step_tag hkind (by decide) hr hopen, if_pos rfl]
      rw [List.reverse_nil] at hclose
      rw [hclose]
    · -- the text stands in front of a tag: that of the first child, or the closing one
      have htag : (Written.elements style cs ++ '<' :: ('/' :: n.toList ++ '>' :: rest)).head? = some '<' := by
        cases cs with
        | nil => rfl
        | cons d ds =>
          obtain ⟨m, bs, y, k, ks⟩ := d
          rw [Written.elements, Written.element]
          split <;> rfl
      have hscan : Token.scan .text [] ('<' :: (Written.tag style n as ++ '>' ::
            (Written.text style x ++ Written.elements style cs ++ '<' :: ('/' :: n.toList ++ ['>']))) ++ rest)
          = .tag (Written.tag style n as) :: Token.ofText (Written.text style x).reverse
              (Token.scan .text [] (Written.elements style cs ++ '<' :: ('/' :: n.toList ++ '>' :: rest))) := by
        rw [← scan_text_tag style x htag]
        simp only [List.cons_append, List.append_assoc, List.nil_append]
        rw [hmarkup]
        exact scan_tag hname hattrs _
      have hkind : tagKind (Written.tag style n as) = (.opening, Written.tag style n as) := tagKind_opening hname _
      rw [hscan, Reading.run, step_tag hkind (by decide) hr hopen, if_neg (by decide)]
      dsimp only
      rw [run_text, run_elements style hbelow, hmarkup, scan_closing hname, Reading.run, step_closing hname rfl]
      dsimp only [Open.addText]
      rw [String.empty_append, List.append_nil, hclose]

theorem run_elements (style : Style) : ∀ {es : List Element}, (∀ d ∈ Element.allOf es, Recorded d) → ∀ {o : Open}
    {os : List Open} {root : Option Element} (rest : List Char),
    Reading.run ⟨o :: os, root⟩ (Token.scan .text [] (Written.elements style es ++ rest))
      = Reading.run ⟨{ o with children := es.reverse ++ o.children } :: os, root⟩ (Token.scan .text [] rest)
  | [], _, _, _, _, _ => rfl
  | e :: es, h, o, os, root, rest => by
    rw [Element.allOf] at h
    have hopen : ∀ {r : Reading}, r.opened = o :: os → r.opened = [] → r.root = none := fun hr hnil => by
      rw [hr] at hnil
      cases hnil
    rw [Written.elements, List.append_assoc, run_element style (fun d hd => h d (List.mem_append_left _ hd)) (hopen rfl)]
    show Reading.run ⟨o.addChild e :: os, root⟩ _ = _
    rw [run_elements style fun d hd => h d (List.mem_append_right _ hd)]
    unfold Open.addChild
    rw [List.reverse_cons, List.append_assoc]
    rfl

end

/-- A document that has been written is read back: as the element that was written, and into any tree, where its nodes
    get the next slots in document order. -/
theorem parse_document (style : Style) (h : ∀ d ∈ e.all, Recorded d) {t : Tree} (ht : t.WellFormed) :
    Document.parse (Written.document style e) = .ok e
      ∧ ∃ root, (t.loadInto none e).Holds root e
        ∧ root :: (t.loadInto none e).descendants root = t.nextSlots e.size := by
  refine ⟨?_, ht.loaded e⟩
  have hread : Document.ofTokens (Token.ofString (Written.document style e)) = .ok e := by
    have hrun := run_element style h (r := ⟨[], none⟩) (fun _ => rfl) []
    rw [List.append_nil] at hrun
    unfold Document.ofTokens Token.ofString Written.document
    rw [String.toList_ofList]
    exact hrun
  unfold Document.parse
  rw [hread]

/-- Elements with and without content, a text of blanks, and characters that have to be written as references. -/
theorem parse_document_nested :
    let e : Element := .mk "a" [("k", "x<\"&\n"), ("p:q", "")] "t " .none
      [.mk "b" [] "" .none [], .mk "c" [] " " .none []]
    let style : Style := ⟨fun _ => false, true⟩
    Written.document style e = "<a k=\"x&lt;&quot;&amp;&#xA;\" p:q=\"\">t <b/><c> </c></a>"
      ∧ (∀ d ∈ e.all, Recorded d) ∧ Tree.empty.WellFormed
      ∧ Document.parse (Written.document style e) = .ok e
      ∧ ∃ root, (Tree.empty.loadInto none e).Holds root e
        ∧ root :: (Tree.empty.loadInto none e).descendants root = Tree.empty.nextSlots e.size := by
  intro e style
  have h : ∀ d ∈ e.all, Recorded d := by
    refine List.forall_mem_cons.mpr ⟨?_, List.forall_mem_cons.mpr ⟨?_, List.forall_mem_cons.mpr ⟨?_, ?_⟩⟩⟩
    · exact ⟨by decide, by decide, by decide, fun _ => .inr (by decide), rfl⟩
    · exact ⟨by decide, by decide, by decide, fun _ => .inl rfl, rfl⟩
    · exact ⟨by decide, by decide, by decide, fun hne => absurd rfl hne, rfl⟩
    · exact fun _ hd => nomatch hd
  exact ⟨by decide +kernel, h, Tree.wellFormed_empty, parse_document style h Tree.wellFormed_empty⟩

end Stencil.Xml
