/-
  The properties of characters that patterns name.

  A property is given by a *formula*: a set in terms of the general categories, of the packed lists
  and of other formulas.  Formulas are worked out when a pattern asks for them.  A name is compared
  without regard to case, blanks, hyphens and underscores, and may begin with `is`.

  A property with values (a script, a version, a kind of break) is asked for with a value; general
  categories, scripts and properties without values may also be named alone.
-/
import Stencil.CharSet
import Stencil.CharSet.AgeData
import Stencil.CharSet.PropertyData
import Stencil.CharSet.ScriptData

set_option autoImplicit false

namespace Stencil.CharSet

open Stencil.Text (Category unpackRanges)

/-! ## Formulas -/

/-- A set in terms of the character database. -/
inductive Formula where
  /-- The characters of some general categories. -/
  | categories (cs : List Category)
  /-- The characters of a packed list, by the name of the property. -/
  | listed (name : String)
  /-- The characters of a script. -/
  | script (name : String)
  /-- Characters that are listed here, in the packed form. -/
  | packed (ranges : String)
  /-- So many characters at equal distances. -/
  | steps (first count distance : Nat)
  /-- The characters with case variants. -/
  | cased
  /-- All characters. -/
  | all
  | union (a b : Formula)
  | inter (a b : Formula)
  | difference (a b : Formula)
  deriving Repr

namespace Formula

instance : Union Formula := ⟨union⟩
instance : Inter Formula := ⟨inter⟩
instance : SDiff Formula := ⟨difference⟩

/-- The packed characters behind a name in a table. -/
def lookUp (table : List (String × String)) (name : String) : String :=
  ((table.find? fun e => (e.1.splitOn " ").contains name).map Prod.snd).getD ""

/-- The set of packed ranges. -/
def ofPacked (ranges : String) : CharSet := ofRanges (unpackRanges ranges).toList

/-- The set that a formula stands for. -/
def set : Formula → CharSet
  | categories cs => ofCategories cs
  | listed name => ofPacked (lookUp PropertyData.lists name)
  | script name => ofPacked (lookUp ScriptData.scripts name)
  | packed ranges => ofPacked ranges
  | steps first count distance => ofCodes ((List.range count).map fun i => first + i * distance)
  | cased => CharSet.cased
  | all => CharSet.all
  | union a b => a.set.union b.set
  | inter a b => a.set.inter b.set
  | difference a b => a.set.difference b.set

/-! ## Properties without values -/

/-- The letters, with the numbers that are written as letters. -/
def letters : Formula := .categories [.lu, .ll, .lt, .lm, .lo, .nl]

/-- Nonspacing and enclosing marks. -/
def attached : Formula := .categories [.mn, .me]

/-- Capitals. -/
def uppercase : Formula := .categories [.lu] ∪ .listed "Other_Uppercase"

/-- Small letters. -/
def lowercase : Formula := .categories [.ll] ∪ .listed "Other_Lowercase"

/-- Alphabetic characters that are no letters by their category. -/
def otherAlphabetic : Formula := .packed Text.CategoryData.otherAlphabetic

/-- What counts as a letter. -/
def alphabetic : Formula := letters ∪ otherAlphabetic

/-- Grapheme extenders that are no attached marks by their category. -/
def otherGraphemeExtend : Formula := .packed Text.CategoryData.otherGraphemeExtend

/-- What merges with the character before it. -/
def graphemeExtend : Formula := attached ∪ otherGraphemeExtend

/-- White space. -/
def whiteSpace : Formula := .categories [.zs, .zl, .zp] ∪ .packed "9+4 78"

/-- Decimal digits. -/
def digit : Formula := .categories [.nd]

/-- What words are made of: letters, marks, digits, connectors and joiners. -/
def word : Formula :=
  alphabetic ∪ .categories [.mn, .mc, .me, .nd, .pc] ∪ .listed "Join_Control"

/-- The digits of hexadecimal numbers in plain texts. -/
def asciiHexDigit : Formula := .packed "30+9 8+5 1b+5"

/-- What patterns of text are written with, or blank in them. -/
def patternCharacters : Formula := .listed "Pattern_Syntax" ∪ .listed "Pattern_White_Space"

/-- What an identifier may start with. -/
def idStart : Formula := (letters ∪ .listed "Other_ID_Start") \ patternCharacters

/-- What an identifier may go on with. -/
def idContinue : Formula :=
  (idStart ∪ .categories [.mn, .mc, .nd, .pc] ∪ .listed "Other_ID_Continue") \ patternCharacters

/-- Letters of either case, and those that are both. -/
def casedLetter : Formula := lowercase ∪ uppercase ∪ .categories [.lt]

/-- Capitals that have a small form, and capitals that start a word. -/
def withSmallForm : Formula := (uppercase ∪ .categories [.lt]) ∩ .cased

/-- What some change of case changes. -/
def casemapped : Formula :=
  .cased ∪
    .packed "130+1 18 a7 397 190f+4 b6 2 2 2 5c 2 2+1 b 2 2+1 b 4+1 b 2 2+1 b 2 2+1 db09+4 f+4"

/-- What changing to small letters, in comparisons, changes. -/
def casefolded : Formula :=
  (withSmallForm ∪
    .packed
      (String.join
        ["b5 2a 51 19 36 1c6 7d e+1 4+1 1a+1 4 192 e71+5 883+8 212+1 e5+7 9+7 9+7 b+2 3 b+2 3 ",
         "2b+2 3 8b79+4f 4f41+6 d+4"]))
    \ .packed "13a0+55"

/-- What changing to capitals changes. -/
def uppercased : Formula := casemapped \ uppercase

/-- What changing to capitals at the start of words changes. -/
def titlecased : Formula :=
  (uppercased ∪ .packed "1c4 3 3 27")
    \ .packed "1c5 3 3 27 ede+2a 3+2 e89+7 9+7 9+7 d 10 30"

/-- Ideographs that are unified, and whole scripts of ideographs. -/
def ideographs : Formula :=
  .listed "Unified_Ideograph" ∪ .script "tangut" ∪ .script "nushu" ∪ .script "khitansmallscript"

/-- What stands for an idea or a word. -/
def ideographic : Formula :=
  (ideographs ∪ .packed "3006+1 1a+8 f+2 c8c6+10d 3 2 3+9 2 2 3+1 4+43 3+69 1fd27+21d")
    \ .packed "16fe0+1"

/-- The quotation marks. -/
def quotationMark : Formula :=
  (.categories [.pi, .pf] ∪ .packed "22 5 1ff3 4 e24 1ca+3 e+2 ce22+3 be 5 5b+1")
    \ .packed "2e02+3 4+1 2+1 f+1 3+1"

/-- Inside words, what stands between letters. -/
def midLetter : Formula := .packed "3a 7d 2d0 1d8 95 1a33 ddec 42 c5"

/-- Inside words and numbers, what stands between letters or digits. -/
def midNumLet : Formula := .packed "2e 1fea+1 b de2e b5 7"

/-- What does not matter for the case of what is around it. -/
def caseIgnorable : Formula :=
  .categories [.mn, .me, .cf, .lm, .sk] ∪ midLetter ∪ midNumLet ∪ .packed "27"

/-- The properties without values, under their names. -/
def properties : List (String × Formula) :=
  [("asciihexdigit ahex", asciiHexDigit),
   ("alphabetic alpha", alphabetic),
   ("bidicontrol bidic", .listed "Bidi_Control"),
   ("bidimirrored bidim", .listed "Bidi_Mirrored"),
   ("caseignorable ci", caseIgnorable),
   ("cased", casedLetter),
   ("changeswhencasefolded cwcf", casefolded),
   ("changeswhencasemapped cwcm", casemapped),
   ("changeswhenlowercased cwl", withSmallForm ∪ .packed "130"),
   ("changeswhentitlecased cwt", titlecased),
   ("changeswhenuppercased cwu", uppercased),
   ("dash", .categories [.pd] ∪ .packed "2053 28 10 187"),
   ("defaultignorablecodepoint di", .listed "Default_Ignorable_Code_Point"),
   ("deprecated dep", .listed "Deprecated"),
   ("diacritic dia", .listed "Diacritic"),
   ("emoji", .listed "Emoji"),
   ("emojicomponent ecomp", .listed "Emoji_Component"),
   ("emojimodifier emod", .listed "Emoji_Modifier"),
   ("emojimodifierbase ebase", .listed "Emoji_Modifier_Base"),
   ("emojipresentation epres", .listed "Emoji_Presentation"),
   ("extendedpictographic extpict", .listed "Extended_Pictographic"),
   ("extender ext", .listed "Extender"),
   ("graphemebase grbase",
    .all \ (.categories [.cc, .cf, .cs, .co, .cn, .zl, .zp] ∪ graphemeExtend)),
   ("graphemeextend grext", graphemeExtend),
   ("graphemelink grlink", .listed "Grapheme_Link"),
   ("hexdigit hex", asciiHexDigit ∪ .packed "ff10+9 8+5 1b+5"),
   ("hyphen", .listed "Hyphen"),
   ("idsbinaryoperator idsb", .listed "IDS_Binary_Operator"),
   ("idstrinaryoperator idst", .listed "IDS_Trinary_Operator"),
   ("idsunaryoperator idsu", .listed "IDS_Unary_Operator"),
   ("idcompatmathcontinue", .listed "ID_Compat_Math_Start" ∪ .packed "b2+1 6 1fb7 4+a 2+e"),
   ("idcompatmathstart", .listed "ID_Compat_Math_Start"),
   ("idcontinue idc", idContinue),
   ("idstart ids", idStart),
   ("ideographic ideo", ideographic),
   ("joincontrol joinc", .listed "Join_Control"),
   ("logicalorderexception loe", .listed "Logical_Order_Exception"),
   ("lowercase lower", lowercase),
   ("math", .categories [.sm] ∪ .listed "Other_Math"),
   ("modifiercombiningmark mcm", .listed "Modifier_Combining_Mark"),
   ("noncharactercodepoint nchar", .listed "Noncharacter_Code_Point"),
   ("otheralphabetic oalpha", otherAlphabetic),
   ("otherdefaultignorablecodepoint odi",
    .listed "Default_Ignorable_Code_Point" \ (.categories [.cf] ∪ .listed "Variation_Selector")),
   ("othergraphemeextend ogrext", otherGraphemeExtend),
   ("otheridcontinue oidc", .listed "Other_ID_Continue"),
   ("otheridstart oids", .listed "Other_ID_Start"),
   ("otherlowercase olower", .listed "Other_Lowercase"),
   ("othermath omath", .listed "Other_Math"),
   ("otheruppercase oupper", .listed "Other_Uppercase"),
   ("patternsyntax patsyn", .listed "Pattern_Syntax"),
   ("patternwhitespace patws", .listed "Pattern_White_Space"),
   ("prependedconcatenationmark pcm", .listed "Prepended_Concatenation_Mark"),
   ("quotationmark qmark", quotationMark),
   ("radical", .listed "Radical"),
   ("regionalindicator ri", .listed "Regional_Indicator"),
   ("sentenceterminal sterm", .listed "Sentence_Terminal"),
   ("softdotted sd", .listed "Soft_Dotted"),
   ("terminalpunctuation term", .listed "Terminal_Punctuation"),
   ("unifiedideograph uideo", .listed "Unified_Ideograph"),
   ("uppercase upper", uppercase),
   ("variationselector vs", .listed "Variation_Selector"),
   ("whitespace wspace space", whiteSpace),
   ("xidcontinue xidc", idContinue \ .packed "37a 2d21+1 cbc2+5 197+1 75 2 2 2 2 2 2 2"),
   ("xidstart xids", idStart \ .packed "37a ab9 80 21e8+1 cbc2+5 197+1 75 2 2 2 2 2 2 2 120+1")]

/-! ## Kinds of breaks -/

/-- Spacing and other marks. -/
def marks : Formula := graphemeExtend ∪ .categories [.mc]

/-- The syllables of two parts. -/
def openSyllables : Formula := .steps 0xAC00 399 28

/-- How characters behave where graphemes are told apart. -/
def graphemeBreaks : List (String × Formula) :=
  [("cr", .packed "d"),
   ("control cn",
    (.categories [.cc, .zl, .zp, .cf]
      ∪ (.categories [.cn] ∩ .listed "Default_Ignorable_Code_Point"))
      \ .packed "a 3 5f3+5 d8 32 181+1 51 172a+1 f0b0 10 cef53+5f"),
   ("extend ex", graphemeExtend ∪ .listed "Emoji_Modifier"),
   ("l", .packed "1100+5f 9801+1c"),
   ("lf", .packed "a"),
   ("lv", openSyllables),
   ("lvt", .packed "ac00+2ba3" \ openSyllables),
   ("prepend pp",
    .listed "Prepended_Concatenation_Mark"
      ∪ .packed "d4e 10474+1 20e 56e 2 f9 4a+5 2bd 1bc"),
   ("regionalindicator ri", .listed "Regional_Indicator"),
   ("spacingmark sm",
    ((.categories [.mc] \ graphemeExtend) ∪ .packed "e33 80")
      \ .packed "102b+1 c 2a+2 3+6 16 4+5 3 b+2 9c5 2+1 9017 2 6ca3+1"),
   ("t", .packed "11a8+57 c5cc+30"),
   ("v", .packed "1160+47 c609+16 959d 4+3"),
   ("zwj", .packed "200d")]

/-- The alphabetic characters of scripts that put blanks between words. -/
def letterScripts : Formula :=
  alphabetic
    \ (ideographic
      ∪ .script "katakana" ∪ .script "hiragana" ∪ .script "thai" ∪ .script "lao" ∪ .script "khmer"
      ∪ .script "myanmar" ∪ .script "hebrew" ∪ marks)

/-- How characters behave where words are told apart. -/
def wordBreaks : List (String × Formula) :=
  [("aletter le",
    (letterScripts
      ∪ .packed "2c2+3 d+5 7+1 6+6 2 2+10 25b+2 2 2c 69 11c 9ff9+e a+1 68+1 3d1")
      \ .packed
        "1950+1d 3+4 c+2b 5+19 57+34 53 158a+4 c7 7984+2f 2 4+1 3+4 3 2 19+2 5493 1790+1a 26+6"),
   ("cr", .packed "d"),
   ("doublequote dq", .packed "22"),
   ("extend", marks ∪ .listed "Emoji_Modifier"),
   ("extendnumlet ex", .categories [.pc] ∪ .packed "202f"),
   ("format fo", .categories [.cf] \ .packed "600+5 d8 32 181+1 51 1729+2 f0b0 10 cef53+5f"),
   ("hebrewletter hl", .script "hebrew" ∩ .categories [.lo]),
   ("katakana ka", .script "katakana" ∪ .packed "3031+4 66+1 4 5c ce74"),
   ("lf", .packed "a"),
   ("midletter ml", .packed "3a 7d 2d0 1d8 95 1a33 ddec 42 c5"),
   ("midnum mn", .packed "2c f 343 20b 83+1 5f 18c 184c de0c 4 b8 f"),
   ("midnumlet mb", .packed "2e 1fea+1 b de2e b5 7"),
   ("newline nl", .packed "b+1 79 1fa3+1"),
   ("numeric nu", digit ∪ .packed "600+5 66 72 1b3+1 51 10f8 f6e3 10"),
   ("regionalindicator ri", .listed "Regional_Indicator"),
   ("singlequote sq", .packed "27"),
   ("wsegspace", .categories [.zs] \ .packed "a0 1f67 28"),
   ("zwj", .packed "200d")]

/-- How characters behave where sentences are told apart. -/
def sentenceBreaks : List (String × Formula) :=
  [("aterm at", .packed "2e 1ff6 de2e bc"),
   ("cr", .packed "d"),
   ("close cl", .categories [.ps, .pe, .pi, .pf] ∪ .packed "22 5 2734+5 6a0+1 5+2 3 1c86b+2"),
   ("extend ex", marks ∪ .packed "200d"),
   ("format fo", .categories [.cf] \ .packed "600+5 d8 1b3+1 51 172a+1 f0b0 10 cef53+5f"),
   ("lf", .packed "a"),
   ("lower lo", (lowercase \ graphemeExtend) \ .packed "10d0+2a 3+2"),
   ("numeric nu", digit ∪ .packed "600+5 66+1 71 1b3+1 51 10f8 f6e3 10"),
   ("oletter le", (alphabetic \ (casedLetter ∪ marks)) ∪ .packed "5f3 add+2a 3+2 b91+2a 3+2"),
   ("scontinue sc",
    .packed "2c+1 d+1 343 1df af+1 1eb 100a 6 80b+1 fed ce0f+1 2+1 1d+1 1e+1 3+1 3 b a9+1 d+1 49"),
   ("sterm st", .listed "Sentence_Terminal" \ .packed "2e 1ff6 de2e bc"),
   ("sep se", .packed "85 1fa3+1"),
   ("sp", whiteSpace \ .packed "a 3 78 1fa3+1"),
   ("upper up", (uppercase ∪ .categories [.lt]) \ .packed "1c90+2a 3+2")]

end Formula

/-! ## Names -/

/-- General categories, and groups of them, under their names. -/
def categoryNames : List (String × List Category) :=
  [("casedletter lc", [.lu, .ll, .lt]),
   ("closepunctuation pe", [.pe]),
   ("connectorpunctuation pc", [.pc]),
   ("control cntrl cc", [.cc]),
   ("currencysymbol sc", [.sc]),
   ("dashpunctuation pd", [.pd]),
   ("decimalnumber digit nd", [.nd]),
   ("enclosingmark me", [.me]),
   ("finalpunctuation pf", [.pf]),
   ("format cf", [.cf]),
   ("initialpunctuation pi", [.pi]),
   ("letter l", [.lu, .ll, .lt, .lm, .lo]),
   ("letternumber nl", [.nl]),
   ("lineseparator zl", [.zl]),
   ("lowercaseletter ll", [.ll]),
   ("combiningmark mark m", [.mn, .mc, .me]),
   ("mathsymbol sm", [.sm]),
   ("modifierletter lm", [.lm]),
   ("modifiersymbol sk", [.sk]),
   ("nonspacingmark mn", [.mn]),
   ("number n", [.nd, .nl, .no]),
   ("openpunctuation ps", [.ps]),
   ("other c", [.cc, .cf, .cn, .co, .cs]),
   ("otherletter lo", [.lo]),
   ("othernumber no", [.no]),
   ("otherpunctuation po", [.po]),
   ("othersymbol so", [.so]),
   ("paragraphseparator zp", [.zp]),
   ("privateuse co", [.co]),
   ("punctuation punct p", [.pc, .pd, .ps, .pe, .pi, .pf, .po]),
   ("separator z", [.zs, .zl, .zp]),
   ("spaceseparator zs", [.zs]),
   ("spacingmark mc", [.mc]),
   ("symbol s", [.sm, .sc, .sk, .so]),
   ("titlecaseletter lt", [.lt]),
   ("unassigned cn", [.cn]),
   ("uppercaseletter lu", [.lu])]

/-- The form in which names are compared.  A name that is only `isc` keeps its first letters. -/
def looseName (name : List Char) : String :=
  let small (c : Char) : Char := if 'A' ≤ c ∧ c ≤ 'Z' then Char.ofNat (c.toNat + 32) else c
  let (starts, rest) : Bool × List Char := match name with
    | a :: b :: rest => if small a == 'i' && small b == 's' then (true, rest) else (false, name)
    | _ => (false, name)
  let kept := (rest.filter fun c => c.toNat < 128 && c != ' ' && c != '_' && c != '-').map small
  if starts && kept == ['c'] then "isc" else String.ofList kept

/-- What stands behind a name in a table whose entries have several names each. -/
def byName {α : Type} (table : List (String × α)) (name : String) : Option α :=
  (table.find? fun e => (e.1.splitOn " ").contains name).map Prod.snd

/-- The characters of a general category. -/
def category? (name : String) : Option CharSet :=
  match name with
  | "any" => some all
  | "assigned" => some (ofCategories [.cn]).complement
  | "ascii" => some (range 0 0x7F)
  | _ => (byName categoryNames name).map ofCategories

/-- The characters of a script. -/
def script? (name : String) : Option CharSet :=
  (byName ScriptData.scripts name).map Formula.ofPacked

/-- The characters that are used with a script. -/
def scriptExtension? (name : String) : Option CharSet := do
  let (names, own) ← ScriptData.scripts.find? fun e => (e.1.splitOn " ").contains name
  match ScriptData.extensions.find? fun e => (names.splitOn " ").head? == some e.1 with
  | some (_, added, left) =>
    some (((Formula.ofPacked own).union (Formula.ofPacked added)).difference
      (Formula.ofPacked left))
  | none => some (Formula.ofPacked own)

/-- The characters of some version and of those before it. -/
def upToAge (name : String) : List (String × String) → Option CharSet
  | [] => none
  | (names, ranges) :: ages =>
    if (names.splitOn " ").contains name then some (Formula.ofPacked ranges)
    else (upToAge name ages).map (Formula.ofPacked ranges).union

/-- The characters for which a property has a value. -/
def propertyValue? (property value : List Char) : Option CharSet :=
  let value := looseName value
  match looseName property with
  | "gc" | "generalcategory" => category? value
  | "sc" | "script" => script? value
  | "scx" | "scriptextensions" => scriptExtension? value
  | "age" => upToAge value AgeData.ages
  | "gcb" | "graphemeclusterbreak" => (byName Formula.graphemeBreaks value).map Formula.set
  | "wb" | "wordbreak" => (byName Formula.wordBreaks value).map Formula.set
  | "sb" | "sentencebreak" => (byName Formula.sentenceBreaks value).map Formula.set
  | _ => none

/-- The characters with a property that is named alone: one without values, a general category or a
    script. -/
def property? (name : List Char) : Option CharSet :=
  let name := looseName name
  (((byName Formula.properties name).map Formula.set).or (category? name)).or (script? name)

end Stencil.CharSet
