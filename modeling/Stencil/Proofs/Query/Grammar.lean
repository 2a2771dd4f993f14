/-
  The grammar of queries.

  What is read can be printed, and what can be printed is read.  So `Expr.Printable` says no less than the grammar,
  and no more.

  The tokens of a text are those that the grammar has (`Token.Genuine`): a word is a name, and a literal has not both
  kinds of quotes.  A reader gives what has a property, and leaves tokens as good as those that it was given (`Gives`);
  readers one behind the other do so if each does (`Gives.bind`).  The functions of the parser call each other with a
  smaller allowance, so what all of them give is one claim (`Grammatical`), by induction on the allowance.
-/
import Stencil.Proofs.Query.Reading

set_option autoImplicit false

namespace Stencil.Query

open Stencil.Text (isBlank)

/-! ## Tokens of a text -/

namespace Token

variable {b : Bool} {c : Char} {cs rest : List Char} {t : Token} {ts : List Token}

/-- The grammar has the token. -/
def Genuine : Token → Prop
  | name word => isName word = true
  | literal text => Quotable text
  | _ => True

/-- The grammar has all the tokens. -/
def AllGenuine (ts : List Token) : Prop := ∀ t ∈ ts, t.Genuine

theorem AllGenuine.head (h : AllGenuine (t :: ts)) : t.Genuine := (List.forall_mem_cons.mp h).1

theorem AllGenuine.tail (h : AllGenuine (t :: ts)) : AllGenuine ts := (List.forall_mem_cons.mp h).2

theorem genuine_ofPair {c d : Char} (h : ofPair c d = some t) : t.Genuine := by
  unfold ofPair at h
  split at h <;> cases h <;> trivial

theorem genuine_ofChar {next : Option Char} (h : ofChar b next c = some t) : t.Genuine := by
  unfold ofChar at h
  split at h
  case h_2 =>
    split at h <;> cases h
    trivial
  case h_15 =>
    cases b <;> cases h <;> trivial
  all_goals
    cases h
    try trivial

/-- A word is a name or an operator. -/
theorem genuine_ofWord {word : String} (h : isName word = true) : (ofWord b word).Genuine := by
  unfold ofWord
  split
  · split <;> trivial
  · exact h

/-- What stands between quotes has none of them. -/
theorem quotable_takeWhile (hc : c = '"' ∨ c = '\'') (cs : List Char) :
    Quotable (String.ofList (cs.takeWhile (· ≠ c))) := by
  have hfree : c ∉ cs.takeWhile (· ≠ c) := by
    intro hm
    have hall := List.all_eq_true.mp (List.all_takeWhile (l := cs) (p := (· ≠ c))) c hm
    exact of_decide_eq_true hall rfl
  unfold Quotable
  rw [String.toList_ofList]
  rcases hc with rfl | rfl
  · exact .inl hfree
  · exact .inr hfree

/-- A run of characters that begins a name is one. -/
theorem isName_takeWhile (hstart : startsName c = true) (hblank : isBlank c = false) (cs : List Char) :
    isName (String.ofList (c :: cs.takeWhile continuesName)) = true := by
  unfold isName
  rw [String.toList_ofList]
  show (startsName c && !isBlank c && (cs.takeWhile continuesName).all continuesName) = true
  rw [hstart, hblank, List.all_takeWhile]
  rfl

/-- Each token of a text is genuine. -/
theorem genuine_first (hblank : isBlank c = false) (h : first b c cs = .ok (t, rest)) : t.Genuine := by
  unfold first at h
  split at h
  · rename_i u hu
    cases h
    obtain ⟨d, -, hd⟩ := Option.bind_eq_some_iff.mp hu
    exact genuine_ofPair hd
  · split at h
    · rename_i u hu
      cases h
      exact genuine_ofChar hu
    · split at h
      · rename_i hquote
        split at h
        · cases h
          exact quotable_takeWhile hquote cs
        · cases h
      · split at h
        · dsimp only at h
          split at h
          · cases h
            trivial
          · cases h
        · split at h
          · rename_i hstart
            cases h
            exact genuine_ofWord (isName_takeWhile hstart hblank cs)
          · cases h

theorem genuine_scan (last : Option Token) (cs : List Char) (h : scan last cs = .ok ts) : AllGenuine ts := by
  fun_induction scan last cs generalizing ts with
  | case1 =>
    cases h
    exact fun t ht => nomatch ht
  | case2 last c cs _ ih => exact ih h
  | case3 => cases h
  | case4 => cases h
  | case5 last c cs hblank t rest hfirst us hus ih =>
    cases h
    exact List.forall_mem_cons.mpr ⟨genuine_first (Bool.eq_false_iff.mpr hblank) hfirst, ih hus⟩

/-- A text is cut into tokens that the grammar has. -/
theorem genuine_ofString {source : String} (h : ofString source = .ok ts) : AllGenuine ts :=
  genuine_scan none _ h

end Token

/-! ## Readers -/

namespace Parser

open Token (AllGenuine)

variable {α β : Type} {P : α → Prop} {Q : β → Prop} {e : Expr} {t : Token} {ts : List Token} {n : Nat}

/-- What is read has a property, and the tokens behind it are genuine. -/
def Gives (P : α → Prop) (r : Except QueryFault (α × List Token)) : Prop :=
  ∀ a ts, r = .ok (a, ts) → P a ∧ AllGenuine ts

theorem Gives.ok {a : α} (h : P a) (hts : AllGenuine ts) : Gives P (.ok (a, ts)) := by
  intro a' ts' heq
  cases heq
  exact ⟨h, hts⟩

theorem Gives.error (fault : QueryFault) : Gives P (.error fault) := fun _ _ heq => nomatch heq

theorem Gives.bind {r : Except QueryFault (α × List Token)}
    {f : α × List Token → Except QueryFault (β × List Token)} (h : Gives P r)
    (hf : ∀ a ts, P a → AllGenuine ts → Gives Q (f (a, ts))) : Gives Q (r >>= f) := by
  cases r with
  | error fault => exact .error fault
  | ok p => exact hf p.1 p.2 (h p.1 p.2 rfl).1 (h p.1 p.2 rfl).2

/-- A token that must come next is taken off. -/
theorem Gives.expect {f : List Token → Except QueryFault (β × List Token)} (hts : AllGenuine ts)
    (hf : ∀ us, AllGenuine us → Gives Q (f us)) : Gives Q (expect t ts >>= f) := by
  cases ts with
  | nil => exact .error _
  | cons u us =>
    by_cases hu : u = t
    · rw [Parser.expect, if_pos hu]
      exact hf us hts.tail
    · rw [Parser.expect, if_neg hu]
      exact .error _

theorem gives_axis (hts : AllGenuine ts) : Gives (fun _ => True) (axis ts) := by
  unfold axis
  split
  · exact .ok trivial hts.tail
  · split
    · exact .ok trivial hts.tail.tail
    · exact .error _
  · exact .ok trivial hts

/-- A test in front of a closing parenthesis, which must come next. -/
theorem gives_closed {test : NodeTest} (htest : test.Printable) (hts : AllGenuine ts) :
    Gives NodeTest.Printable ((expect .rightParen ts).map fun us => (test, us)) := by
  have hmap : (expect .rightParen ts).map (fun us => (test, us))
      = expect .rightParen ts >>= fun us => .ok (test, us) := by
    cases expect .rightParen ts <;> rfl
  rw [hmap]
  exact .expect hts fun _ hus => .ok htest hus

theorem gives_nodeTest (hts : AllGenuine ts) : Gives NodeTest.Printable (nodeTest ts) := by
  unfold nodeTest
  split
  · exact .ok trivial hts.tail
  · split
    · exact gives_closed trivial hts.tail.tail
    · split
      · exact gives_closed trivial hts.tail.tail
      · exact .ok hts.head hts.tail
  · exact .ok hts.head hts.tail
  · exact .error _

/-! ## The parser -/

/-- What the functions of the parser give with an allowance. -/
structure Grammatical (n : Nat) : Prop where
  binary : ∀ ls {ts}, AllGenuine ts → Gives Expr.Printable (binary n ls ts)
  binaryRest : ∀ l ls {left ts}, left.Printable → AllGenuine ts → Gives Expr.Printable (binaryRest n l ls left ts)
  unary : ∀ {ts}, AllGenuine ts → Gives Expr.Printable (unary n ts)
  unionRest : ∀ {left ts}, left.Printable → AllGenuine ts → Gives Expr.Printable (unionRest n left ts)
  path : ∀ {ts}, AllGenuine ts → Gives Expr.Printable (path n ts)
  primary : ∀ {ts}, startsFilter ts = true → AllGenuine ts → Gives Expr.Printable (primary n ts)
  arguments : ∀ {ts}, AllGenuine ts → Gives AllPrintable (arguments n ts)
  locationPath : ∀ {ts}, AllGenuine ts → Gives Expr.Printable (locationPath n ts)
  moreSteps : ∀ {ts}, AllGenuine ts → Gives StepsPrintable (moreSteps n ts)
  step : ∀ {ts}, AllGenuine ts → Gives Step.Printable (step n ts)
  predicates : ∀ {ts}, AllGenuine ts → Gives AllPrintable (predicates n ts)

/-- Without an allowance nothing is read. -/
theorem grammatical_zero : Grammatical 0 where
  binary _ _ _ := .error _
  binaryRest _ _ _ _ _ _ := .error _
  unary _ := .error _
  unionRest _ _ := .error _
  path _ := .error _
  primary _ _ := .error _
  arguments _ := .error _
  locationPath _ := .error _
  moreSteps _ := .error _
  step _ := .error _
  predicates _ := .error _

theorem allPrintable_nil : AllPrintable [] := by
  rw [AllPrintable]
  trivial

/-- The step that a point or a double slash stands for. -/
theorem printable_toward (axis : Axis) : (Step.toward axis).Printable := by
  rw [Step.toward, Step.Printable]
  exact ⟨trivial, allPrintable_nil⟩

theorem printable_path {absolute : Bool} {s : Step} {ss : List Step} (hs : s.Printable) (hss : StepsPrintable ss) :
    (Expr.path absolute (s :: ss)).Printable := by
  rw [Expr.Printable, StepsPrintable]
  exact ⟨.inr (List.cons_ne_nil _ _), hs, hss⟩

/-- The grammar has a call of a name that is no test. -/
theorem printable_call {function : String} {arguments : List Expr} (hname : Token.isName function = true)
    (hstarts : startsFilter (.name function :: .leftParen :: ts) = true) (hes : AllPrintable arguments) :
    (Expr.call function arguments).Printable := by
  rw [startsFilter, Bool.and_eq_true, bne_iff_ne, bne_iff_ne] at hstarts
  rw [Expr.Printable]
  exact ⟨⟨hname, hstarts⟩, hes⟩

namespace Grammatical

variable (h : Grammatical n)

include h

theorem binary_succ (ls : List Level) (hts : AllGenuine ts) : Gives Expr.Printable (Parser.binary (n + 1) ls ts) := by
  cases ls with
  | nil =>
    rw [Parser.binary]
    exact h.unary hts
  | cons l ls =>
    rw [Parser.binary]
    exact (h.binary ls hts).bind fun left us hleft hus => h.binaryRest l ls hleft hus

theorem binaryRest_succ (l : Level) (ls : List Level) {left : Expr} (hleft : left.Printable) (hts : AllGenuine ts) :
    Gives Expr.Printable (Parser.binaryRest (n + 1) l ls left ts) := by
  rw [Parser.binaryRest]
  cases hop : operator? l ts with
  | none => exact .ok hleft hts
  | some p =>
    obtain ⟨op, us⟩ := p
    have hus : AllGenuine us := by
      cases ts with
      | nil => cases hop
      | cons t ts =>
        obtain ⟨q, -, hq⟩ := Option.map_eq_some_iff.mp hop
        cases hq
        exact hts.tail
    refine (h.binary ls hus).bind fun right vs hright hvs => h.binaryRest l ls ?_ hvs
    rw [Expr.Printable]
    exact ⟨hleft, hright⟩

theorem unary_succ (hts : AllGenuine ts) : Gives Expr.Printable (Parser.unary (n + 1) ts) := by
  rw [Parser.unary.eq_def]
  dsimp only
  split
  · refine (h.unary hts.tail).bind fun e us he hus => .ok ?_ hus
    rw [Expr.Printable]
    exact he
  · exact (h.path hts).bind fun left us hleft hus => h.unionRest hleft hus

theorem unionRest_succ {left : Expr} (hleft : left.Printable) (hts : AllGenuine ts) :
    Gives Expr.Printable (Parser.unionRest (n + 1) left ts) := by
  rw [Parser.unionRest.eq_def]
  dsimp only
  split
  · refine (h.path hts.tail).bind fun right us hright hus => h.unionRest ?_ hus
    rw [Expr.Printable]
    exact ⟨hleft, hright⟩
  · exact .ok hleft hts

theorem path_succ (hts : AllGenuine ts) : Gives Expr.Printable (Parser.path (n + 1) ts) := by
  rw [Parser.path]
  split
  · rename_i hstarts
    refine (h.primary hstarts hts).bind fun e us he hus => ?_
    refine (h.predicates hus).bind fun ps vs hps hvs => ?_
    refine (h.moreSteps hvs).bind fun ss ws hss hws => .ok ?_ hws
    split
    · exact he
    · rename_i hempty
      rw [Expr.Printable]
      refine ⟨?_, he, hps, hss⟩
      cases ps with
      | nil =>
        cases ss with
        | nil => exact absurd rfl hempty
        | cons s ss => exact .inr (List.cons_ne_nil _ _)
      | cons p ps => exact .inl (List.cons_ne_nil _ _)
  · exact h.locationPath hts

theorem primary_succ (hstarts : startsFilter ts = true) (hts : AllGenuine ts) :
    Gives Expr.Printable (Parser.primary (n + 1) ts) := by
  rw [Parser.primary.eq_def]
  dsimp only
  split
  · refine .ok ?_ hts.tail
    rw [Expr.Printable]
    exact hts.head
  · refine .ok ?_ hts.tail
    rw [Expr.Printable]
    trivial
  · exact (h.binary levels hts.tail).bind fun e us he hus =>
      .expect hus fun vs hvs => .ok he hvs
  · exact .ok (printable_call hts.head hstarts allPrintable_nil) hts.tail.tail.tail
  · exact (h.arguments hts.tail.tail).bind fun es us hes hus => .ok (printable_call hts.head hstarts hes) hus
  · exact .error _

theorem arguments_succ (hts : AllGenuine ts) : Gives AllPrintable (Parser.arguments (n + 1) ts) := by
  rw [Parser.arguments]
  refine (h.binary levels hts).bind fun e us he hus => ?_
  dsimp only
  split
  · refine .ok ?_ hus.tail
    rw [AllPrintable, AllPrintable]
    exact ⟨he, trivial⟩
  · refine .expect hus fun vs hvs => (h.arguments hvs).bind fun es ws hes hws => .ok ?_ hws
    rw [AllPrintable]
    exact ⟨he, hes⟩

theorem locationPath_succ (hts : AllGenuine ts) : Gives Expr.Printable (Parser.locationPath (n + 1) ts) := by
  rw [Parser.locationPath.eq_def]
  dsimp only
  split
  · split
    · exact (h.step hts.tail).bind fun s us hs hus => (h.moreSteps hus).bind fun ss vs hss hvs =>
        .ok (printable_path hs hss) hvs
    · refine (h.moreSteps hts.tail).bind fun ss us hss hus => .ok ?_ hus
      rw [Expr.Printable]
      exact ⟨.inl rfl, hss⟩
  · refine (h.step hts.tail).bind fun s us hs hus => (h.moreSteps hus).bind fun ss vs hss hvs => .ok ?_ hvs
    refine printable_path (printable_toward _) ?_
    rw [StepsPrintable]
    exact ⟨hs, hss⟩
  · exact (h.step hts).bind fun s us hs hus => (h.moreSteps hus).bind fun ss vs hss hvs =>
      .ok (printable_path hs hss) hvs

theorem moreSteps_succ (hts : AllGenuine ts) : Gives StepsPrintable (Parser.moreSteps (n + 1) ts) := by
  rw [Parser.moreSteps.eq_def]
  dsimp only
  split
  · refine (h.step hts.tail).bind fun s us hs hus => (h.moreSteps hus).bind fun ss vs hss hvs => .ok ?_ hvs
    rw [StepsPrintable]
    exact ⟨hs, hss⟩
  · refine (h.step hts.tail).bind fun s us hs hus => (h.moreSteps hus).bind fun ss vs hss hvs => .ok ?_ hvs
    rw [StepsPrintable, StepsPrintable]
    exact ⟨printable_toward _, hs, hss⟩
  · refine .ok ?_ hts
    rw [StepsPrintable]
    trivial

theorem step_succ (hts : AllGenuine ts) : Gives Step.Printable (Parser.step (n + 1) ts) := by
  rw [Parser.step.eq_def]
  dsimp only
  split
  · exact .ok (printable_toward _) hts.tail
  · exact .ok (printable_toward _) hts.tail
  · refine (gives_axis hts).bind fun axis us _ hus => (gives_nodeTest hus).bind fun test vs htest hvs => ?_
    refine (h.predicates hvs).bind fun ps ws hps hws => .ok ?_ hws
    rw [Step.Printable]
    exact ⟨htest, hps⟩

theorem predicates_succ (hts : AllGenuine ts) : Gives AllPrintable (Parser.predicates (n + 1) ts) := by
  rw [Parser.predicates.eq_def]
  dsimp only
  split
  · refine (h.binary levels hts.tail).bind fun p us hp hus => ?_
    refine .expect hus fun vs hvs => (h.predicates hvs).bind fun ps ws hps hws => .ok ?_ hws
    rw [AllPrintable]
    exact ⟨hp, hps⟩
  · exact .ok allPrintable_nil hts

/-- One call more, and the functions still give what the grammar has. -/
theorem succ : Grammatical (n + 1) where
  binary ls _ hts := h.binary_succ ls hts
  binaryRest l ls _ _ hleft hts := h.binaryRest_succ l ls hleft hts
  unary hts := h.unary_succ hts
  unionRest hleft hts := h.unionRest_succ hleft hts
  path hts := h.path_succ hts
  primary hstarts hts := h.primary_succ hstarts hts
  arguments hts := h.arguments_succ hts
  locationPath hts := h.locationPath_succ hts
  moreSteps hts := h.moreSteps_succ hts
  step hts := h.step_succ hts
  predicates hts := h.predicates_succ hts

end Grammatical

theorem grammatical (n : Nat) : Grammatical n := by
  induction n with
  | zero => exact grammatical_zero
  | succ n ih => exact ih.succ

/-- Tokens that the grammar has are read as a query that it has. -/
theorem printable_of_parseTokens (hts : AllGenuine ts) (h : parseTokens ts = .ok e) : e.Printable := by
  unfold parseTokens at h
  split at h
  · cases h
  · rename_i e' hread
    cases h
    exact ((grammatical _).binary levels hts e [] hread).1
  · cases h

end Parser

/-! ## Queries -/

/-- What is read can be printed. -/
theorem printable_of_parse {source : String} {e : Expr} (h : Expr.parse source = .ok e) : e.Printable := by
  unfold Expr.parse at h
  split at h
  · cases h
  · rename_i ts hts
    exact Parser.printable_of_parseTokens (Token.genuine_ofString hts) h

/-- A printed query is read as the query. -/
theorem parse_of_printable {e : Expr} (h : e.Printable) (x : Extra) : Expr.parse (e.print x) = .ok e := by
  unfold Expr.parse
  rw [ofString_print h x]
  exact Parser.parseTokens_tokens h x

/-- The queries that can be printed are those that are read from some text, and each is read from its own text, with
    whatever parentheses beyond those that it needs. -/
theorem parse_print (e : Expr) : (e.Printable ↔ ∃ source, Expr.parse source = .ok e)
    ∧ (e.Printable → ∀ x : Extra, Expr.parse (e.print x) = .ok e) := by
  refine ⟨⟨fun h => ?_, fun ⟨_, h⟩ => printable_of_parse h⟩, parse_of_printable⟩
  exact ⟨e.print fun _ => 0, parse_of_printable h _⟩

/-- Names are spelled like operators, tests and axes; one operand has parentheses that it does not need. -/
theorem parse_print_among_words :
    Expr.parse ("child :: or or - ( / ) | child :: div and ( mod ( \"it's\" , 1.50 * child :: * ) ) "
        ++ "[ child :: text - ( ( self :: a-b.c ) - 2 ) = '\"' ] / self :: *")
      = .ok (.binary .or (.path false [.mk .child (.named "or") []])
          (.binary .and
            (.negate (.union (.path true []) (.path false [.mk .child (.named "div") []])))
            (.filter
              (.call "mod" [.literal "it's",
                .binary .multiply (.number ⟨150, 2⟩) (.path false [.mk .child .any []])])
              [.binary .equal
                (.binary .subtract (.path false [.mk .child (.named "text") []])
                  (.binary .subtract (.path false [.mk .self (.named "a-b.c") []]) (.number ⟨2, 0⟩)))
                (.literal "\"")]
              [.mk .self .any []]))) := by
  refine Eq.trans (congrArg Expr.parse ?printed)
    ((parse_print _).2 ?printable fun way => if way = [1, 1, 1, 0, 0, 1, 0] then 1 else 0)
  case printed => decide +kernel
  case printable =>
    simp only [Expr.Printable, AllPrintable, StepsPrintable, Step.Printable, NodeTest.Printable, Quotable]
    decide +kernel

end Stencil.Query
