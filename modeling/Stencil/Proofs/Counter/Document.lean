/-
  The document of some counters is read back.

  The document is cut into tags and numerals again (`tokens_toXml`), which make up one element for each counter
  (`ofString_toXml`).  Reading looks at each element by itself (`counter?_node`), so the document's counters are those
  that were written, in their order (`entries_toXml`), and as no name stands twice all of them are kept (`ofXml_toXml`).

  What can be written this way is what can be kept: different names, and values of sixty-four bits (`Counters.Kept`).
  Whatever has been read can be kept (`Kept.of_ofXml`), and it can be kept again when values have been drawn
  (`Kept.draw`).
-/
import Stencil.Counter.Store
import Stencil.Proofs.Text
import Stencil.Proofs.Xml.Markup

set_option autoImplicit false

namespace Stencil

open Xml (Passage Token Name Attributes Spells tagText)

variable {c c' : Counters} {n : Int} {name : Option String} {es : List (Option String × Int)} {rest : List Char}

/-- A name that is new comes last. -/
theorem Entries.insert_of_not_mem {α : Type} {name : String} {es : Entries α} (h : name ∉ Entries.keys es) (value : α) :
    es.insert name value = es ++ [(name, value)] := by
  induction es with
  | nil => rfl
  | cons e es ih =>
    obtain ⟨m, v⟩ := e
    have hm : m ≠ name := fun heq => h (heq ▸ List.mem_cons_self)
    rw [Entries.insert, if_neg hm, ih fun hmem => h (List.mem_cons_of_mem _ hmem)]
    rfl

theorem Entries.mem_insert {α : Type} {name : String} {value : α} {es : Entries α} {e : String × α}
    (h : e ∈ es.insert name value) : e ∈ es ∨ e = (name, value) := by
  induction es with
  | nil => exact .inr (List.mem_singleton.mp h)
  | cons d es ih =>
    obtain ⟨m, v⟩ := d
    rw [Entries.insert] at h
    split at h
    · rename_i hm
      obtain rfl | he := List.mem_cons.mp h
      · exact .inr (by rw [hm])
      · exact .inl (List.mem_cons_of_mem _ he)
    · obtain rfl | he := List.mem_cons.mp h
      · exact .inl List.mem_cons_self
      · exact (ih he).imp_left (List.mem_cons_of_mem _)

theorem Entries.mem_of_get? {α : Type} {name : String} {value : α} {es : Entries α} (h : es.get? name = some value) :
    (name, value) ∈ es := by
  induction es with
  | nil => cases h
  | cons e es ih =>
    obtain ⟨m, v⟩ := e
    rw [Entries.get?] at h
    split at h
    · rename_i hm
      cases h
      exact hm ▸ List.mem_cons_self
    · exact List.mem_cons_of_mem _ (ih h)

theorem Entries.contains_iff {α : Type} {name : String} {es : Entries α} :
    es.contains name = true ↔ name ∈ Entries.keys es := by
  unfold Entries.contains
  induction es with
  | nil => exact ⟨fun h => Bool.noConfusion h, fun h => nomatch h⟩
  | cons e es ih =>
    obtain ⟨m, v⟩ := e
    have hkeys : Entries.keys ((m, v) :: es) = m :: Entries.keys es := rfl
    rw [hkeys, List.mem_cons, ← ih, Entries.get?]
    by_cases hm : m = name
    · rw [if_pos hm]
      exact iff_of_true rfl (.inl hm.symm)
    · rw [if_neg hm]
      exact ⟨.inr, fun h => h.resolve_left fun heq => hm heq.symm⟩

namespace Counters

/-- What can be kept in a file: no name stands twice, and every value has sixty-four bits. -/
structure Kept (c : Counters) : Prop where
  distinct : (Entries.keys c.named).Nodup
  unnamed : Text.Bounds.int64.Holds c.unnamed
  named : ∀ e ∈ c.named, Text.Bounds.int64.Holds e.2

/-! ## What is written -/

/-- The counters in the order in which they are written. -/
def written (c : Counters) : List (Option String × Int) := (none, c.unnamed) :: c.named.map fun e => (some e.1, e.2)

/-- The attributes of a counter's tag. -/
def tagAttributes : Option String → List (List Char × List Char)
  | none => []
  | some n => [("name".toList, (escape n).toList)]

/-- The tag of a counter. -/
def countTag (name : Option String) : List Char := tagText "count".toList (tagAttributes name)

/-- The element of a counter. -/
def node (e : Option String × Int) : Xml.Node := .element (countTag e.1) [.text (toString e.2).toList]

/-- The same element among passages. -/
def passage (e : Option String × Int) : Passage := .element (countTag e.1) [.text (toString e.2).toList]

theorem spells_escapeChar (c : Char) : Spells (escapeChar c).toList c := by
  unfold escapeChar
  split
  · rename_i h
    exact h ▸ .of_entity "amp".toList '&' (by decide) (by decide)
  · rename_i hamp
    split
    · rename_i h
      exact h ▸ .of_entity "lt".toList '<' (by decide) (by decide)
    · split
      · rename_i h
        exact h ▸ .of_entity "gt".toList '>' (by decide) (by decide)
      · split
        · rename_i h
          exact h ▸ .of_entity "quot".toList '"' (by decide) (by decide)
        · rw [Char.toString, String.toList_singleton]
          exact .itself hamp

theorem toList_escape (n : String) : (escape n).toList = n.toList.flatMap fun c => (escapeChar c).toList := by
  unfold escape
  rw [String.toList_join, List.flatMap_map]

/-- The name of a counter is read back from its attribute. -/
theorem unescape_escape (n : String) : Xml.unescape (escape n).toList = .ok n.toList := by
  rw [toList_escape]
  exact Xml.unescape_flatMap spells_escapeChar n.toList

theorem quote_not_mem_escape (n : String) : '"' ∉ (escape n).toList := by
  rw [toList_escape]
  intro h
  obtain ⟨c, -, hc⟩ := List.mem_flatMap.mp h
  unfold escapeChar at hc
  split at hc
  · exact absurd hc (by decide)
  · split at hc
    · exact absurd hc (by decide)
    · split at hc
      · exact absurd hc (by decide)
      · split at hc
        · exact absurd hc (by decide)
        · rename_i hquote
          rw [Char.toString, String.toList_singleton] at hc
          exact hquote (List.mem_singleton.mp hc).symm

theorem name_count : Name "count".toList := .of_all (by decide) (by decide)

theorem name_counter : Name "counter".toList := .of_all (by decide) (by decide)

theorem name_name : Name "name".toList := .of_all (by decide) (by decide)

theorem attributes_tagAttributes (name : Option String) : Attributes (tagAttributes name) := by
  cases name with
  | none => exact ⟨List.forall_mem_nil _, List.forall_mem_nil _⟩
  | some n =>
    constructor <;> intro a ha <;> cases List.mem_singleton.mp ha
    · exact name_name
    · exact quote_not_mem_escape n

theorem toList_countXml (name : Option String) (n : Int) : (countXml name n).toList
    = '<' :: (countTag name ++ '>' :: ((toString n).toList ++ '<' :: ('/' :: "count".toList ++ ['>']))) := by
  have hopen : "<count".toList = '<' :: "count".toList := rfl
  have hclose : "</count>".toList = '<' :: ('/' :: "count".toList ++ ['>']) := rfl
  have hend : ">".toList = ['>'] := rfl
  have hattr : " name=\"".toList = ' ' :: "name".toList ++ ['=', '"'] := rfl
  have hquote : "\"".toList = ['"'] := rfl
  have hempty : "".toList = [] := rfl
  unfold countXml countTag
  cases name with
  | none =>
    simp only [String.toList_append, hopen, hclose, hend, hempty, tagText, tagAttributes, List.flatMap_nil,
      List.append_assoc, List.cons_append, List.nil_append, List.append_nil]
  | some m =>
    simp only [String.toList_append, hopen, hclose, hend, hattr, hquote, tagText, tagAttributes, List.flatMap_cons,
      List.flatMap_nil, List.append_assoc, List.cons_append, List.nil_append, List.append_nil]

/-- The characters of a numeral mean nothing in markup. -/
theorem plain_numeral (n : Int) : ∀ d ∈ (toString n).toList, d ≠ '<' ∧ d ≠ '&' ∧ Xml.isSpace d = false := by
  intro d hd
  rw [Text.toList_toString] at hd
  have hcases : d = '-' ∨ Text.isDigit d = true := by
    obtain hd | hd := List.mem_append.mp hd
    · split at hd
      · exact .inl (List.mem_singleton.mp hd)
      · cases hd
    · exact .inr ((Text.toDigits_digits _).1 d hd)
  obtain rfl | hdigit := hcases
  · decide
  · refine ⟨?_, ?_, ?_⟩
    · rintro rfl
      exact absurd hdigit (by decide)
    · rintro rfl
      exact absurd hdigit (by decide)
    · refine Bool.eq_false_iff.mpr fun hspace => ?_
      unfold Xml.isSpace at hspace
      rw [Bool.or_eq_true, Bool.or_eq_true, Bool.or_eq_true, beq_iff_eq, beq_iff_eq, beq_iff_eq, beq_iff_eq] at hspace
      obtain ((rfl | rfl) | rfl) | rfl := hspace <;> exact absurd hdigit (by decide)

theorem numeral_ne_nil (n : Int) : (toString n).toList ≠ [] := by
  rw [Text.toList_toString]
  exact List.append_ne_nil_of_right_ne_nil _ Nat.toDigits_ne_nil

/-! ## Tokens and elements -/

/-- The tokens of a counter. -/
def countTokens (e : Option String × Int) : List Token :=
  [.tag (countTag e.1), .text (toString e.2).toList, .tag ('/' :: "count".toList)]

theorem scan_countXml (name : Option String) (n : Int) (rest : List Char) :
    Token.scan .text [] ((countXml name n).toList ++ rest) = countTokens (name, n) ++ Token.scan .text [] rest := by
  have hmarkup : ∀ more, Token.scan .text [] ('<' :: more) = Token.scan .opened [] more :=
    fun more => Xml.scan_text List.not_mem_nil [] more
  have hplain : '<' ∉ (toString n).toList := fun h => (plain_numeral n _ h).1 rfl
  have hnumeral : ∀ ts, Token.ofText ((toString n).toList.reverse ++ []) ts = .text (toString n).toList :: ts := by
    intro ts
    unfold Token.ofText
    have hne : (toString n).toList.reverse.isEmpty = false :=
      Bool.eq_false_iff.mpr fun h => numeral_ne_nil n (List.isEmpty_iff.mp (List.isEmpty_reverse ▸ h))
    rw [List.append_nil, hne, if_neg Bool.false_ne_true, List.reverse_reverse]
  rw [toList_countXml]
  simp only [List.cons_append, List.append_assoc, List.nil_append]
  rw [hmarkup]
  unfold countTag
  rw [Xml.scan_tag name_count (attributes_tagAttributes name), Xml.scan_text hplain, hnumeral]
  have hclosing := Xml.scan_closing name_count rest
  simp only [List.cons_append] at hclosing
  rw [hclosing]
  rfl

theorem scan_counts (es : List (Option String × Int)) (rest : List Char) :
    Token.scan .text [] (es.flatMap (fun e => (countXml e.1 e.2).toList) ++ rest)
      = es.flatMap countTokens ++ Token.scan .text [] rest := by
  induction es with
  | nil => rfl
  | cons e es ih =>
    rw [List.flatMap_cons, List.append_assoc, scan_countXml, ih, List.flatMap_cons, List.append_assoc]

/-- The document is the tag at the top, the counters and the closing tag. -/
theorem toList_toXml (c : Counters) : c.toXml.toList = '<' :: (tagText "counter".toList [] ++ '>' ::
    (c.written.flatMap (fun e => (countXml e.1 e.2).toList) ++ '<' :: ('/' :: "counter".toList ++ ['>']))) := by
  have hopen : "<counter>".toList = '<' :: (tagText "counter".toList [] ++ ['>']) := rfl
  have hclose : "</counter>".toList = '<' :: ('/' :: "counter".toList ++ ['>']) := rfl
  have hwritten : c.written.flatMap (fun e => (countXml e.1 e.2).toList)
      = (countXml none c.unnamed).toList ++ (c.named.map fun e => countXml (some e.1) e.2).flatMap String.toList := by
    unfold written
    rw [List.flatMap_cons, List.flatMap_map, List.flatMap_map]
  unfold toXml
  rw [hwritten]
  simp only [String.toList_append, String.toList_join, hopen, hclose, List.append_assoc, List.cons_append, List.nil_append]

theorem tokens_toXml (c : Counters) : Token.scan .text [] c.toXml.toList
    = .tag "counter".toList :: (c.written.flatMap countTokens ++ [.tag ('/' :: "counter".toList)]) := by
  have hmarkup : ∀ more, Token.scan .text [] ('<' :: more) = Token.scan .opened [] more :=
    fun more => Xml.scan_text List.not_mem_nil [] more
  have htag : tagText "counter".toList [] = "counter".toList := List.append_nil _
  have hnone : Attributes [] := attributes_tagAttributes none
  rw [toList_toXml, hmarkup, Xml.scan_tag name_counter hnone, scan_counts, hmarkup, Xml.scan_closing name_counter, htag]
  rfl

/-- The elements of counters are read one after another. -/
theorem readIn_counts (f : Xml.Node.Frame) (around : List Xml.Node.Frame) (es : List (Option String × Int))
    (ts : List Token) :
    Xml.Node.readIn f around (es.flatMap countTokens ++ ts)
      = Xml.Node.readIn ⟨f.tag, (es.map node).reverse ++ f.content⟩ around ts := by
  induction es generalizing f with
  | nil => rfl
  | cons e es ih =>
    have hkind : Xml.tagKind (countTag e.1) = (.opening, countTag e.1) := Xml.tagKind_opening name_count _
    have hclosing : Xml.closingName "count".toList = Xml.tagName (countTag e.1) := by
      rw [Xml.closingName_name name_count]
      exact (Xml.tagName_tagText name_count _).symm
    have hone : ∀ ts, Xml.Node.readIn f around (countTokens e ++ ts)
        = Xml.Node.readIn ⟨f.tag, node e :: f.content⟩ around ts := by
      intro ts
      show Xml.Node.readIn f around
        (.tag (countTag e.1) :: .text (toString e.2).toList :: .tag ('/' :: "count".toList) :: ts) = _
      simp only [Xml.Node.readIn, hkind]
      show (if Xml.closingName "count".toList = Xml.tagName (countTag e.1) then _ else _) = _
      rw [if_pos hclosing]
      rfl
    rw [List.flatMap_cons, List.append_assoc, hone, ih, List.map_cons, List.reverse_cons, List.append_assoc]
    rfl

/-- The document is one element that holds one for each counter. -/
theorem ofString_toXml (c : Counters) :
    Xml.Node.ofString? c.toXml = some (.element "counter".toList (c.written.map node)) := by
  have hmark : ∀ cs, c.toXml.toList ≠ '\ufeff' :: cs := by
    intro cs heq
    rw [toList_toXml] at heq
    exact absurd (List.cons.inj heq).1 (by decide)
  have hroot : Xml.Node.root? (Token.scan .text [] c.toXml.toList)
      = some (.element "counter".toList (c.written.map node)) := by
    rw [tokens_toXml]
    show Xml.Node.readIn ⟨"counter".toList, []⟩ [] _ = _
    rw [readIn_counts, List.append_nil]
    show some (Xml.Node.element "counter".toList (c.written.map node).reverse.reverse) = _
    rw [List.reverse_reverse]
  unfold Xml.Node.ofString?
  split
  · rename_i cs heq
    exact absurd heq (hmark cs)
  · exact hroot

/-! ## Reading the elements -/

theorem leadingAttributes_countTag (name : Option String) :
    Xml.leadingAttributes (Xml.afterName (countTag name)) = (tagAttributes name, true) := by
  unfold countTag
  rw [Xml.afterName_tagText name_count, Xml.leadingAttributes_tagText (attributes_tagAttributes name)]

theorem tagKeepsNamespaces_countTag (name : Option String) : Xml.tagKeepsNamespaces (countTag name) = true := by
  unfold Xml.tagKeepsNamespaces
  rw [leadingAttributes_countTag]
  cases name with
  | none => rfl
  | some n =>
    have hxmlns : "xmlns:".toList.isPrefixOf "name".toList = false := by decide
    show (Xml.keepsFixedNamespaces ("name".toList, (escape n).toList) && true) = true
    unfold Xml.keepsFixedNamespaces
    rw [hxmlns, if_neg Bool.false_ne_true]
    rfl

theorem elementName_countTag (name : Option String) : Xml.elementName (countTag name) = countName := by
  unfold Xml.elementName countTag
  rw [Xml.tagName_tagText name_count]
  decide

/-- The elements of counters are the passages of the document. -/
theorem passages_nodes (es : List (Option String × Int)) :
    Xml.passages? (fun name => name = countName) (es.map node) = some (es.map passage) := by
  unfold Xml.passages?
  induction es with
  | nil => rfl
  | cons e es ih =>
    rw [List.map_cons, node, Xml.passagesFrom?, tagKeepsNamespaces_countTag, elementName_countTag, ih]
    rfl

/-- All of them are counters that stand together. -/
theorem counts_passages (e : Option String × Int) (es : List (Option String × Int)) :
    counts? ((e :: es).map passage) = some ((e :: es).map passage) := by
  have hname : ∀ m, Xml.tagName (countTag m) = "count".toList := fun m => Xml.tagName_tagText name_count _
  have hsame : ∀ p ∈ es.map passage, hasName (Xml.tagName (countTag e.1)) p = true := by
    intro p hp
    obtain ⟨d, -, rfl⟩ := List.mem_map.mp hp
    show (Xml.tagName (countTag d.1) == Xml.tagName (countTag e.1)) = true
    rw [hname, hname]
    rfl
  have hfirst : isCount (passage e) = true := decide_eq_true (elementName_countTag e.1)
  have htake : (es.map passage).takeWhile (hasName (Xml.tagName (countTag e.1))) = es.map passage := by
    have h : (es.map passage ++ []).takeWhile _ = _ := List.takeWhile_append_of_pos hsame
    rwa [List.append_nil, List.takeWhile_nil, List.append_nil] at h
  have hdrop : (es.map passage).dropWhile (hasName (Xml.tagName (countTag e.1))) = [] := by
    have h : (es.map passage ++ []).dropWhile _ = _ := List.dropWhile_append_of_pos hsame
    rwa [List.append_nil, List.dropWhile_nil] at h
  unfold counts?
  rw [List.map_cons, List.dropWhile_cons_of_neg (by rw [hfirst]; decide)]
  unfold passage at hdrop htake ⊢
  dsimp only
  rw [hdrop, htake]
  rfl

/-- A numeral is the only passage of a counter's content. -/
theorem passages_numeral (wanted : String → Bool) (n : Int) :
    Xml.passages? wanted [.text (toString n).toList] = some [.text (toString n).toList] := by
  have hspace : ∀ d ∈ (toString n).toList, Xml.isSpace d = false := fun d hd => (plain_numeral n d hd).2.2
  have hplain : Xml.unescape (toString n).toList = .ok (toString n).toList :=
    Xml.unescape_of_not_mem fun h => (plain_numeral n _ h).2.1 rfl
  have hne := numeral_ne_nil n
  generalize (toString n).toList = ds at hspace hplain hne
  have hfront : ds.dropWhile Xml.isSpace = ds := dropWhile_of_head fun d hd => hspace d (List.mem_of_mem_head? hd)
  have hback : Xml.dropSpaceEnd ds = ds := by
    unfold Xml.dropSpaceEnd
    rw [dropWhile_of_head fun d hd => hspace d (List.mem_reverse.mp (List.mem_of_mem_head? hd)), List.reverse_reverse]
  have hempty : ds.isEmpty = false := Bool.eq_false_iff.mpr fun h => hne (List.isEmpty_iff.mp h)
  unfold Xml.passages?
  simp only [Xml.passagesFrom?, if_true, hfront, hempty, Bool.false_eq_true, if_false, Xml.goesOnWithText, hback,
    Bool.false_and, hplain]
  rfl
where
  /-- Nothing is dropped if the first character is not to be dropped. -/
  dropWhile_of_head {p : Char → Bool} {cs : List Char} (h : ∀ d ∈ cs.head?, p d = false) : cs.dropWhile p = cs := by
    cases cs with
    | nil => rfl
    | cons d ds => exact List.dropWhile_cons_of_neg (by rw [h d rfl]; decide)

/-- The counter of an element that has been written. -/
theorem counter?_node (name : Option String) {n : Int} (hn : Text.Bounds.int64.Holds n) :
    counter? (countTag name) [.text (toString n).toList] = some (name, n) := by
  have hattrs : Xml.attributes (countTag name) = .ok (tagAttributes name) := by
    refine Xml.attributes_tagText name_count (attributes_tagAttributes name) ?_
    cases name with
    | none => exact List.nodup_nil
    | some m => exact List.nodup_cons.mpr ⟨List.not_mem_nil, List.nodup_nil⟩
  have hnamed : attributeFields? (tagAttributes name) = some (name.toList.map .name) := by
    cases name with
    | none => rfl
    | some m =>
      have hfilter : (tagAttributes (some m)).filter (fun a => isNameAttribute a.1) = tagAttributes (some m) := by
        have his : isNameAttribute "name".toList = true := by decide
        exact List.filter_cons_of_pos his
      unfold attributeFields?
      rw [hfilter]
      unfold tagAttributes
      simp only [List.mapM_cons, unescape_escape, List.mapM_nil, String.ofList_toList]
      rfl
  have hvalue : contentFields? [.text (toString n).toList] = some [.value (toString n)] := by
    rw [contentFields?, String.ofList_toList]
    rfl
  have hint : ofFields?.int64? (toString n) = some n := by
    unfold ofFields?.int64?
    rw [Text.boundedInt_toString (by decide) hn]
    rfl
  unfold counter?
  rw [hattrs]
  show (attributeFields? (tagAttributes name)).bind _ = _
  rw [hnamed]
  show (Xml.passages? _ _).bind _ = _
  rw [passages_numeral]
  show (contentFields? [.text (toString n).toList]).bind (fun fields => ofFields? (name.toList.map .name ++ fields)) = _
  rw [hvalue]
  show ofFields? (name.toList.map .name ++ [.value (toString n)]) = _
  cases name with
  | none =>
    show (ofFields?.int64? (toString n)).map _ = _
    rw [hint]
    rfl
  | some m =>
    show (ofFields?.int64? (toString n)).map _ = _
    rw [hint]
    rfl

/-! ## Reading the document -/

/-- The counter of a passage. -/
def ofPassage? : Passage → Option (Option String × Int)
  | .element tag content => counter? tag content
  | .text _ => none

theorem mapM_passage {es : List (Option String × Int)} (h : ∀ e ∈ es, Text.Bounds.int64.Holds e.2) :
    (es.map passage).mapM ofPassage? = some es := by
  induction es with
  | nil => rfl
  | cons e es ih =>
    obtain ⟨he, hes⟩ := List.forall_mem_cons.mp h
    have hhere : ofPassage? (passage e) = some e := counter?_node e.1 he
    rw [List.map_cons, List.mapM_cons, hhere, ih hes]
    rfl

/-- The counters of the document, in the order in which they were written. -/
theorem entries_toXml (h : c.Kept) : entries? c.toXml = some c.written := by
  have htag : tagText "counter".toList [] = "counter".toList := List.append_nil _
  have hattributes : Attributes [] := attributes_tagAttributes none
  have htop : Xml.tagKeepsNamespaces "counter".toList = true := by
    unfold Xml.tagKeepsNamespaces
    rw [← htag, Xml.afterName_tagText name_counter, Xml.leadingAttributes_tagText hattributes]
    rfl
  have hattrs : Xml.attributes "counter".toList = .ok [] := by
    have h := Xml.attributes_tagText name_counter hattributes List.nodup_nil
    rwa [htag] at h
  have hholds : ∀ e ∈ c.written, Text.Bounds.int64.Holds e.2 := by
    intro e he
    obtain rfl | he := List.mem_cons.mp he
    · exact h.unnamed
    · obtain ⟨d, hd, rfl⟩ := List.mem_map.mp he
      exact h.named d hd
  have hcounts : counts? (c.written.map passage) = some (c.written.map passage) := counts_passages _ _
  have hall : (c.written.map passage).mapM ofPassage? = some c.written := mapM_passage hholds
  unfold entries?
  rw [ofString_toXml]
  simp only [Option.bind_eq_bind, Option.bind_some, htop, hattrs, passages_nodes, hcounts, Bool.not_true,
    Bool.false_eq_true, if_false]
  exact hall

/-- Named counters are added one after another. -/
theorem addAll_named (c : Counters) (seen : Bool) (named : Entries Int)
    (h : (Entries.keys (c.named ++ named)).Nodup) :
    addAll c seen (named.map fun e => (some e.1, e.2)) = .ok { c with named := c.named ++ named } := by
  induction named generalizing c with
  | nil => rw [List.append_nil]; rfl
  | cons e named ih =>
    obtain ⟨m, v⟩ := e
    have hsplit : c.named ++ (m, v) :: named = (c.named ++ [(m, v)]) ++ named := by
      rw [List.append_assoc, List.singleton_append]
    have hnew : m ∉ Entries.keys c.named := by
      unfold Entries.keys at h ⊢
      rw [List.map_append, List.map_cons] at h
      exact fun hm => (List.nodup_append.mp h).2.2 m hm m List.mem_cons_self rfl
    have hcontains : c.named.contains m = false :=
      Bool.eq_false_iff.mpr fun hm => hnew (Entries.contains_iff.mp hm)
    have hset : c.set (some m) v = { c with named := c.named ++ [(m, v)] } := by
      show { c with named := c.named.insert m v } = _
      rw [Entries.insert_of_not_mem hnew]
    rw [List.map_cons, addAll, hcontains, if_neg Bool.false_ne_true, hset, ih _ (by rw [← hsplit]; exact h), hsplit]

/-- What can be kept is read back from its document. -/
theorem ofXml_toXml (h : c.Kept) : ofXml c.toXml = .ok c := by
  have hnamed : addAll (zero.set none c.unnamed) true (c.named.map fun e => (some e.1, e.2)) = .ok c :=
    addAll_named (zero.set none c.unnamed) true c.named h.distinct
  unfold ofXml
  rw [entries_toXml h]
  exact hnamed

/-! ## What can be kept -/

theorem kept_zero : zero.Kept := ⟨List.nodup_nil, by decide, List.forall_mem_nil _⟩

/-- A counter that is set to a value of sixty-four bits can be kept. -/
theorem Kept.set (h : c.Kept) (name : Option String) (hn : Text.Bounds.int64.Holds n) : (c.set name n).Kept := by
  cases name with
  | none => exact ⟨h.distinct, hn, h.named⟩
  | some m =>
    refine ⟨Entries.nodup_keys_insert m n h.distinct, h.unnamed, fun e he => ?_⟩
    obtain he | rfl := Entries.mem_insert he
    · exact h.named e he
    · exact hn

/-- Drawing a value leaves what can be kept. -/
theorem Kept.draw (h : c.Kept) (name : Option String) : (c.draw name).2.Kept := by
  have hvalue : Text.Bounds.int64.Holds (c.value name) := by
    cases name with
    | none => exact h.unnamed
    | some m =>
      show Text.Bounds.int64.Holds ((c.named.get? m).getD 0)
      cases hget : c.named.get? m with
      | none => decide
      | some v => exact h.named _ (Entries.mem_of_get? hget)
  unfold Counters.draw
  split
  · rename_i hlast
    refine h.set name ⟨Int.le_trans hvalue.1 (by omega), ?_⟩
    unfold lastCount at hlast
    show c.value name + 1 ≤ 9223372036854775807
    omega
  · exact h

theorem kept_of_addAll {seen : Bool} {es : List (Option String × Int)} (h : c.Kept)
    (hes : ∀ e ∈ es, Text.Bounds.int64.Holds e.2) (hadd : addAll c seen es = .ok c') : c'.Kept := by
  induction es generalizing c seen with
  | nil =>
    cases hadd
    exact h
  | cons e es ih =>
    obtain ⟨he, hmore⟩ := List.forall_mem_cons.mp hes
    obtain ⟨name, n⟩ := e
    cases name with
    | none =>
      rw [addAll] at hadd
      split at hadd
      · cases hadd
      · exact ih (h.set none he) hmore hadd
    | some m =>
      rw [addAll] at hadd
      split at hadd
      · cases hadd
      · exact ih (h.set (some m) he) hmore hadd

/-- Only values of sixty-four bits are read. -/
theorem holds_of_ofFields? {fields : List EntryField} {e : Option String × Int} (h : ofFields? fields = some e) :
    Text.Bounds.int64.Holds e.2 := by
  have hint : ∀ {s : String} {n : Int}, ofFields?.int64? s = some n → Text.Bounds.int64.Holds n := by
    intro s n hs
    unfold ofFields?.int64? at hs
    cases hr : Text.boundedInt .int64 s with
    | error fault =>
      rw [hr] at hs
      cases hs
    | ok m =>
      rw [hr] at hs
      cases hs
      exact Text.holds_of_boundedInt (by decide) hr
  unfold ofFields? at h
  split at h
  · obtain ⟨n, hn, rfl⟩ := Option.map_eq_some_iff.mp h
    exact hint hn
  · obtain ⟨n, hn, rfl⟩ := Option.map_eq_some_iff.mp h
    exact hint hn
  · obtain ⟨n, hn, rfl⟩ := Option.map_eq_some_iff.mp h
    exact hint hn
  · cases h

theorem holds_of_mapM (ps : List Passage) (h : ps.mapM ofPassage? = some es) : ∀ e ∈ es, Text.Bounds.int64.Holds e.2 := by
  induction ps generalizing es with
  | nil =>
    cases h
    exact List.forall_mem_nil _
  | cons p ps ih =>
    rw [List.mapM_cons] at h
    obtain ⟨e, he, h⟩ := Option.bind_eq_some_iff.mp h
    obtain ⟨more, hmore, h⟩ := Option.bind_eq_some_iff.mp h
    cases h
    refine List.forall_mem_cons.mpr ⟨?_, ih hmore⟩
    cases p with
    | text cs => cases he
    | element tag content =>
      change counter? tag content = some e at he
      obtain ⟨attrs, -, he⟩ := Option.bind_eq_some_iff.mp he
      obtain ⟨named, -, he⟩ := Option.bind_eq_some_iff.mp he
      obtain ⟨passages, -, he⟩ := Option.bind_eq_some_iff.mp he
      obtain ⟨fields, -, he⟩ := Option.bind_eq_some_iff.mp he
      exact holds_of_ofFields? he

theorem holds_of_entries? {text : String} (h : entries? text = some es) : ∀ e ∈ es, Text.Bounds.int64.Holds e.2 := by
  unfold entries? at h
  obtain ⟨top, -, h⟩ := Option.bind_eq_some_iff.mp h
  cases top with
  | text | cdata | doctype => cases h
  | element tag content =>
    dsimp only at h
    split at h
    · cases h
    · obtain ⟨attrs, -, h⟩ := Option.bind_eq_some_iff.mp h
      obtain ⟨ps, -, h⟩ := Option.bind_eq_some_iff.mp h
      obtain ⟨counts, -, h⟩ := Option.bind_eq_some_iff.mp h
      exact holds_of_mapM counts h

/-- What has been read can be kept. -/
theorem Kept.of_ofXml {text : String} (h : ofXml text = .ok c) : c.Kept := by
  unfold ofXml at h
  cases hentries : entries? text with
  | none =>
    rw [hentries] at h
    cases h
  | some es =>
    rw [hentries] at h
    exact kept_of_addAll kept_zero (holds_of_entries? hentries) h

end Counters

end Stencil
