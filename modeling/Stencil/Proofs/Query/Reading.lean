/-
  Printed queries are read back.

  Tokens are read as a query at a level (`Reads`) if the function of the parser for that level takes them off
  whatever follows them and gives the query, or goes on from there with the query as its left operand.  What follows
  may belong to the operators of the level, but must not bind tighter (`Follows`): it would be taken as well.

    1. Tokens that are read at a level are read at all looser ones (`Reads.mono`).
    2. Parentheses take tokens that are read at the loosest level to the tightest (`reads_parenthesized`).
    3. Each operator reads its operands at the levels of their places (`reads_binary`, `reads_union`, …).

  So a query is read at its own level, by induction on the query (`reads_body`), and at the place where it stands.

  The parser counts calls.  A token has room for sixteen: the depth of the calls between one token and the next is less
  than that, and each level leaves some of it to the next.
-/
import Stencil.Proofs.Query.Spelling

set_option autoImplicit false

namespace Stencil.Query.Parser

variable {e e' : Expr} {ts us rest : List Token} {k n : Nat} {l : Level} {ls : List Level} {op : Operator}

/-! ## What follows -/

/-- How tightly a token binds what is before it.  An operator binds one tighter than its level; what closes does not bind,
    and what continues an operand binds tightest. -/
def binds : Token → Nat
  | .rightParen | .rightBracket | .comma => 0
  | .or => 1
  | .and => 2
  | .equal | .notEqual => 3
  | .less | .lessEqual | .greater | .greaterEqual => 4
  | .plus | .minus => 5
  | .multiply | .div | .mod => 6
  | .pipe => 8
  | _ => 10

/-- What comes next binds what is before it at most so tightly. -/
def Follows (k : Nat) (rest : List Token) : Prop := ∀ t ∈ rest.head?, binds t ≤ k

theorem Follows.mono {j : Nat} (h : Follows j rest) (hjk : j ≤ k) : Follows k rest :=
  fun t ht => Nat.le_trans (h t ht) hjk

theorem follows_cons {t : Token} (h : binds t ≤ k) : Follows k (t :: rest) :=
  fun _ ht => Option.some.inj ht ▸ h

/-- A token that binds tighter does not come next. -/
theorem Follows.ne_cons {t : Token} (h : Follows k rest) (ht : k < binds t) : rest ≠ t :: us := by
  rintro rfl
  exact absurd (h t rfl) (Nat.not_le.mpr ht)

/-- A step can end here: no predicate and no parenthesis comes next. -/
def Stops (rest : List Token) : Prop := ∀ us, rest ≠ .leftBracket :: us ∧ rest ≠ .leftParen :: us

theorem Follows.stops (h : Follows 9 rest) : Stops rest :=
  fun _ => ⟨h.ne_cons (by decide), h.ne_cons (by decide)⟩

/-! ## Levels -/

/-- The operators of a level bind one tighter. -/
theorem binds_of_mem (h : levels.drop k = l :: ls) : ∀ p ∈ l, binds p.1 = k + 1 := by
  have hk : k < 6 := by
    refine Nat.lt_of_not_le fun hk => ?_
    rw [List.drop_eq_nil_of_le hk] at h
    cases h
  obtain rfl | rfl | rfl | rfl | rfl | rfl : k = 0 ∨ k = 1 ∨ k = 2 ∨ k = 3 ∨ k = 4 ∨ k = 5 := by omega
  all_goals
    cases h
    decide

theorem drop_succ (h : levels.drop k = l :: ls) : levels.drop (k + 1) = ls := by
  rw [← List.tail_drop, h]
  rfl

/-- What binds no tighter than the level before is no operator of a level. -/
theorem operator?_eq_none (h : levels.drop k = l :: ls) (hrest : Follows k rest) : operator? l rest = none := by
  cases rest with
  | nil => rfl
  | cons t ts =>
    have hnone : l.find? (fun p => p.1 == t) = none := by
      refine List.find?_eq_none.mpr fun p hp hpt => ?_
      have hbinds := binds_of_mem h p hp
      rw [eq_of_beq hpt] at hbinds
      have hle := hrest t rfl
      omega
    rw [operator?, hnone]
    rfl

theorem operator?_token (h : levels.drop op.level = l :: ls) : operator? l (op.token :: rest) = some (op, rest) := by
  cases op <;> cases h <;> rfl

theorem level_lt (op : Operator) : op.level < 6 := by cases op <;> decide

theorem binds_token (op : Operator) : binds op.token = op.level + 1 := by cases op <;> rfl

theorem exists_level (hk : k < 6) : ∃ l ls, levels.drop k = l :: ls :=
  ⟨_, _, List.drop_eq_getElem_cons hk⟩

/-! ## Reading at a level -/

/-- The tokens are not none, and do not begin with a closing parenthesis. -/
def Opens (ts : List Token) : Prop := ∃ t us, ts = t :: us ∧ t ≠ .rightParen

theorem Opens.length_pos (h : Opens ts) : 0 < ts.length := by
  obtain ⟨t, us, rfl, -⟩ := h
  exact Nat.succ_pos _

theorem Opens.append (h : Opens ts) (us : List Token) : Opens (ts ++ us) := by
  obtain ⟨t, vs, rfl, ht⟩ := h
  exact ⟨t, vs ++ us, rfl, ht⟩

/-- The tokens are read as a left operand of a level of operators between operands. -/
def ReadsBinary (k : Nat) (e : Expr) (ts : List Token) : Prop :=
  ∀ l ls, levels.drop k = l :: ls → ∀ n rest, Follows (k + 1) rest → 16 * ts.length ≤ n + k →
    ∃ m, n + 8 ≤ m + 16 * ts.length ∧ binary n (l :: ls) (ts ++ rest) = binaryRest m l ls e rest

/-- The tokens are read as a query without operators between operands. -/
def ReadsUnary (e : Expr) (ts : List Token) : Prop :=
  ∀ n rest, Follows 7 rest → 16 * ts.length ≤ n + 7 → unary n (ts ++ rest) = .ok (e, rest)

/-- The tokens are read as a left operand of a union. -/
def ReadsUnion (e : Expr) (ts : List Token) : Prop :=
  ∀ n rest, Follows 8 rest → 16 * ts.length ≤ n + 7 →
    ∃ m, n + 8 ≤ m + 16 * ts.length ∧ unary n (ts ++ rest) = unionRest m e rest

/-- The tokens are read as a path, and begin with no minus sign. -/
def ReadsPath (e : Expr) (ts : List Token) : Prop :=
  ∀ n rest, Follows 9 rest → 16 * ts.length ≤ n + 8 →
    path n (ts ++ rest) = .ok (e, rest) ∧ ∀ us, ts ++ rest ≠ .minus :: us

/-- The tokens are read as what can begin a path, whatever follows. -/
def ReadsPrimary (e : Expr) (ts : List Token) : Prop :=
  ∀ n rest, 16 * ts.length ≤ n + 9 → startsFilter (ts ++ rest) = true ∧ primary n (ts ++ rest) = .ok (e, rest)

/-- The tokens are read at a level. -/
def Reads (k : Nat) (e : Expr) (ts : List Token) : Prop :=
  Opens ts ∧
    match k with
    | 6 => ReadsUnary e ts
    | 7 => ReadsUnion e ts
    | 8 => ReadsPath e ts
    | 9 => ReadsPrimary e ts
    | k => ReadsBinary k e ts

theorem reads_iff_readsBinary (hk : k < 6) : Reads k e ts ↔ Opens ts ∧ ReadsBinary k e ts := by
  unfold Reads
  split <;> first | omega | exact Iff.rfl

/-- The right operand of an operator is read to its end. -/
theorem Reads.right (h : Reads (k + 1) e ts) (hl : levels.drop k = l :: ls) (hrest : Follows (k + 1) rest)
    (hn : 16 * ts.length ≤ n + (k + 1)) : binary n ls (ts ++ rest) = .ok (e, rest) := by
  have hls := drop_succ hl
  have hpos := h.1.length_pos
  have hk : k < 6 := by
    refine Nat.lt_of_not_le fun hk => ?_
    rw [List.drop_eq_nil_of_le hk] at hl
    cases hl
  by_cases hk5 : k = 5
  · subst hk5
    obtain ⟨n, rfl⟩ := Nat.exists_eq_add_one.mpr (show 0 < n by omega)
    cases hls
    show binary (n + 1) [] (ts ++ rest) = _
    rw [binary]
    exact h.2 n rest (hrest.mono (by omega)) (by omega)
  · obtain ⟨l', ls', hl'⟩ := exists_level (k := k + 1) (by omega)
    obtain ⟨-, hread⟩ := (reads_iff_readsBinary (by omega)).mp h
    obtain ⟨m, hm, hbinary⟩ := hread l' ls' hl' n rest (hrest.mono (by omega)) hn
    obtain ⟨m, rfl⟩ := Nat.exists_eq_add_one.mpr (show 0 < m by omega)
    rw [← hls, hl', hbinary, binaryRest, operator?_eq_none hl' hrest]

/-- A whole query is read to its end, if a closing token follows or nothing. -/
theorem Reads.whole (h : Reads 0 e ts) (hrest : Follows 0 rest) (hn : 16 * ts.length ≤ n) :
    binary n levels (ts ++ rest) = .ok (e, rest) := by
  obtain ⟨l, ls, hl⟩ := exists_level (k := 0) (by decide)
  obtain ⟨m, hm, hbinary⟩ := h.2 l ls hl n rest (hrest.mono (by omega)) hn
  obtain ⟨m, rfl⟩ := Nat.exists_eq_add_one.mpr (show 0 < m by omega)
  rw [List.drop_zero] at hl
  rw [hl, hbinary, binaryRest, operator?_eq_none (k := 0) hl hrest]

/-- Reading goes on behind what has been read. -/
theorem bind_of_ok {α β : Type} {r : Except QueryFault α} {f : α → Except QueryFault β} {a : α} (h : r = .ok a) :
    r >>= f = f a := by
  rw [h]
  rfl

theorem expect_self (t : Token) (ts : List Token) : expect t (t :: ts) = .ok ts := if_pos rfl

/-! ## Predicates and steps -/

/-- The tokens are read as predicates. -/
def ReadsPredicates (ps : List Expr) (ts : List Token) : Prop :=
  (ts = [] ∨ ∃ us, ts = .leftBracket :: us)
    ∧ ∀ n rest, Stops rest → 16 * ts.length + 1 ≤ n → predicates n (ts ++ rest) = .ok (ps, rest)

/-- The tokens are read as a step, and begin with the name of its axis. -/
def ReadsStep (s : Step) (ts : List Token) : Prop :=
  (∃ a us, ts = .name a :: .doubleColon :: us)
    ∧ ∀ n rest, Stops rest → 16 * ts.length ≤ n + 10 → step n (ts ++ rest) = .ok (s, rest)

/-- The tokens are read as steps behind slashes. -/
def ReadsMoreSteps (ss : List Step) (ts : List Token) : Prop :=
  (ts = [] ∨ ∃ us, ts = .slash :: us)
    ∧ ∀ n rest, Follows 9 rest → 16 * ts.length + 1 ≤ n → moreSteps n (ts ++ rest) = .ok (ss, rest)

theorem readsPredicates_nil : ReadsPredicates [] [] := by
  refine ⟨.inl rfl, fun n rest hrest hn => ?_⟩
  obtain ⟨n, rfl⟩ := Nat.exists_eq_add_one.mpr (show 0 < n by omega)
  rw [List.nil_append, predicates]
  exact fun us => (hrest us).1

theorem readsPredicates_cons {p : Expr} {ps : List Expr} (hp : Reads 0 p ts) (hps : ReadsPredicates ps us) :
    ReadsPredicates (p :: ps) (.leftBracket :: (ts ++ .rightBracket :: us)) := by
  refine ⟨.inr ⟨_, rfl⟩, fun n rest hrest hn => ?_⟩
  rw [List.length_cons, List.length_append, List.length_cons] at hn
  obtain ⟨n, rfl⟩ := Nat.exists_eq_add_one.mpr (show 0 < n by omega)
  have hread : binary n levels (ts ++ .rightBracket :: (us ++ rest)) = .ok (p, .rightBracket :: (us ++ rest)) :=
    hp.whole (follows_cons (by decide)) (by omega)
  rw [List.cons_append, List.append_assoc, List.cons_append, predicates]
  refine (bind_of_ok hread).trans ((bind_of_ok (expect_self _ _)).trans ?_)
  exact bind_of_ok (hps.2 n rest hrest (by omega))

theorem nodeTest_tokens {test : NodeTest} (hrest : ∀ us, rest ≠ .leftParen :: us) :
    nodeTest (test.tokens ++ rest) = .ok (test, rest) := by
  cases test with
  | named name =>
    show nodeTest (.name name :: rest) = _
    rw [nodeTest]
    exact hrest
  | any => rfl
  | text => rfl
  | node => rfl

theorem readsStep {axis : Axis} {test : NodeTest} {ps : List Expr} (hps : ReadsPredicates ps us) :
    ReadsStep (.mk axis test ps) (.name axis.name :: .doubleColon :: (test.tokens ++ us)) := by
  refine ⟨⟨_, _, rfl⟩, fun n rest hrest hn => ?_⟩
  rw [List.length_cons, List.length_cons, List.length_append] at hn
  obtain ⟨n, rfl⟩ := Nat.exists_eq_add_one.mpr (show 0 < n by omega)
  have haxis : Parser.axis (.name axis.name :: .doubleColon :: (test.tokens ++ (us ++ rest)))
      = .ok (axis, test.tokens ++ (us ++ rest)) := by
    rw [Parser.axis, Axis.ofName?_name]
  have htest : nodeTest (test.tokens ++ (us ++ rest)) = .ok (test, us ++ rest) := by
    refine nodeTest_tokens fun vs hvs => ?_
    rcases hps.1 with rfl | ⟨ws, rfl⟩
    · exact (hrest vs).2 hvs
    · cases hvs
  rw [List.cons_append, List.cons_append, List.append_assoc, step]
  · refine (bind_of_ok haxis).trans ((bind_of_ok htest).trans ?_)
    exact bind_of_ok (hps.2 n rest hrest (by omega))
  · exact fun vs hvs => by cases hvs
  · exact fun vs hvs => by cases hvs

theorem readsMoreSteps_nil : ReadsMoreSteps [] [] := by
  refine ⟨.inl rfl, fun n rest hrest hn => ?_⟩
  obtain ⟨n, rfl⟩ := Nat.exists_eq_add_one.mpr (show 0 < n by omega)
  rw [List.nil_append, moreSteps]
  · exact fun us => hrest.ne_cons (by decide)
  · exact fun us => hrest.ne_cons (by decide)

/-- A step can end before more steps. -/
theorem ReadsMoreSteps.stops {ss : List Step} (h : ReadsMoreSteps ss ts) (hrest : Follows 9 rest) :
    Stops (ts ++ rest) := by
  rcases h.1 with rfl | ⟨us, rfl⟩
  · exact hrest.stops
  · exact fun vs => ⟨fun hvs => (by cases hvs), fun hvs => (by cases hvs)⟩

theorem readsMoreSteps_cons {s : Step} {ss : List Step} (hs : ReadsStep s ts) (hss : ReadsMoreSteps ss us) :
    ReadsMoreSteps (s :: ss) (.slash :: (ts ++ us)) := by
  refine ⟨.inr ⟨_, rfl⟩, fun n rest hrest hn => ?_⟩
  rw [List.length_cons, List.length_append] at hn
  obtain ⟨n, rfl⟩ := Nat.exists_eq_add_one.mpr (show 0 < n by omega)
  rw [List.cons_append, List.append_assoc, moreSteps]
  refine (bind_of_ok (hs.2 n (us ++ rest) (hss.stops hrest) (by omega))).trans ?_
  exact bind_of_ok (hss.2 n rest hrest (by omega))

/-! ## Arguments -/

/-- Behind an argument, the tokens are read as more of them and the closing parenthesis. -/
def ReadsMoreArguments (es : List Expr) (us : List Token) : Prop :=
  ∀ e ts, Reads 0 e ts → ∀ n rest, 16 * (ts.length + us.length) ≤ n →
    arguments n (ts ++ (us ++ rest)) = .ok (e :: es, rest)

theorem readsMoreArguments_nil : ReadsMoreArguments [] [.rightParen] := by
  intro e ts h n rest hn
  rw [List.length_singleton] at hn
  obtain ⟨n, rfl⟩ := Nat.exists_eq_add_one.mpr (show 0 < n by omega)
  rw [List.singleton_append, arguments]
  exact bind_of_ok (h.whole (follows_cons (by decide)) (by omega))

theorem readsMoreArguments_cons {es : List Expr} (he : Reads 0 e' ts) (hes : ReadsMoreArguments es us) :
    ReadsMoreArguments (e' :: es) (.comma :: (ts ++ us)) := by
  intro e vs h n rest hn
  rw [List.length_cons, List.length_append] at hn
  obtain ⟨n, rfl⟩ := Nat.exists_eq_add_one.mpr (show 0 < n by omega)
  rw [List.cons_append, List.append_assoc, arguments]
  refine (bind_of_ok (h.whole (follows_cons (by decide)) (by omega))).trans ?_
  refine (bind_of_ok (expect_self _ _)).trans ?_
  exact bind_of_ok (hes e' ts he n rest (by omega))

/-! ## What begins a path -/

theorem reads_literal (text : String) : Reads 9 (.literal text) [.literal text] := by
  refine ⟨⟨_, _, rfl, fun h => by cases h⟩, fun n rest hn => ⟨rfl, ?_⟩⟩
  rw [List.length_singleton] at hn
  obtain ⟨n, rfl⟩ := Nat.exists_eq_add_one.mpr (show 0 < n by omega)
  rfl

theorem reads_number (d : Number.Decimal) : Reads 9 (.number d) [.number d] := by
  refine ⟨⟨_, _, rfl, fun h => by cases h⟩, fun n rest hn => ⟨rfl, ?_⟩⟩
  rw [List.length_singleton] at hn
  obtain ⟨n, rfl⟩ := Nat.exists_eq_add_one.mpr (show 0 < n by omega)
  rfl

/-- A call begins with a name that is no test. -/
theorem startsFilter_call {function : String} (hf : function ≠ "text" ∧ function ≠ "node") (ts : List Token) :
    startsFilter (.name function :: .leftParen :: ts) = true := by
  rw [startsFilter, Bool.and_eq_true, bne_iff_ne, bne_iff_ne]
  exact hf

theorem reads_call_nil {function : String} (hf : function ≠ "text" ∧ function ≠ "node") :
    Reads 9 (.call function []) [.name function, .leftParen, .rightParen] := by
  refine ⟨⟨_, _, rfl, fun h => by cases h⟩, fun n rest hn => ⟨startsFilter_call hf _, ?_⟩⟩
  obtain ⟨n, rfl⟩ := Nat.exists_eq_add_one.mpr (show 0 < n by rw [List.length_cons] at hn; omega)
  rfl

theorem reads_call_cons {function : String} {es : List Expr} (hf : function ≠ "text" ∧ function ≠ "node")
    (he : Reads 0 e ts) (hes : ReadsMoreArguments es us) :
    Reads 9 (.call function (e :: es)) (.name function :: .leftParen :: (ts ++ us)) := by
  refine ⟨⟨_, _, rfl, fun h => by cases h⟩, fun n rest hn => ⟨startsFilter_call hf _, ?_⟩⟩
  rw [List.length_cons, List.length_cons, List.length_append] at hn
  obtain ⟨n, rfl⟩ := Nat.exists_eq_add_one.mpr (show 0 < n by omega)
  rw [List.cons_append, List.cons_append, List.append_assoc, primary]
  · exact bind_of_ok (hes e ts he n rest (by omega))
  · obtain ⟨t, vs, rfl, ht⟩ := he.1
    intro ws hws
    exact ht (List.cons.inj hws).1

/-- Parentheses make anything begin a path. -/
theorem reads_parentheses (h : Reads 0 e ts) : Reads 9 e (.leftParen :: ts ++ [.rightParen]) := by
  refine ⟨⟨_, _, rfl, fun h => by cases h⟩, fun n rest hn => ⟨rfl, ?_⟩⟩
  rw [List.length_append, List.length_cons, List.length_singleton] at hn
  obtain ⟨n, rfl⟩ := Nat.exists_eq_add_one.mpr (show 0 < n by omega)
  have hread : binary n levels (ts ++ .rightParen :: rest) = .ok (e, .rightParen :: rest) :=
    h.whole (follows_cons (by decide)) (by omega)
  rw [List.cons_append, List.cons_append, List.append_assoc, List.singleton_append, primary]
  exact (bind_of_ok hread).trans (bind_of_ok (expect_self _ _))

/-! ## Paths -/

/-- No step comes next where a bare slash ends. -/
theorem startsStep_eq_false (hrest : Follows 9 rest) : startsStep rest = false := by
  cases rest with
  | nil => rfl
  | cons t ts =>
    have ht := hrest t rfl
    cases t <;> first | rfl | simp [binds] at ht

theorem path_eq_locationPath (h : startsFilter ts = false) : path (n + 1) ts = locationPath n ts := by
  rw [path, h]
  rfl

theorem reads_root : Reads 8 (.path true []) [.slash] := by
  refine ⟨⟨_, _, rfl, fun h => by cases h⟩, fun n rest hrest hn => ⟨?_, fun us h => by cases h⟩⟩
  rw [List.length_singleton] at hn
  obtain ⟨n, rfl⟩ : ∃ n', n = n' + 1 + 1 := ⟨n - 2, by omega⟩
  have hmore := readsMoreSteps_nil.2 n rest hrest (by rw [List.length_nil]; omega)
  rw [List.nil_append] at hmore
  rw [List.singleton_append, path_eq_locationPath rfl, locationPath, startsStep_eq_false hrest]
  exact bind_of_ok hmore

theorem reads_absolute {s : Step} {ss : List Step} (hs : ReadsStep s ts) (hss : ReadsMoreSteps ss us) :
    Reads 8 (.path true (s :: ss)) (.slash :: (ts ++ us)) := by
  refine ⟨⟨_, _, rfl, fun h => by cases h⟩, fun n rest hrest hn => ⟨?_, fun us h => by cases h⟩⟩
  rw [List.length_cons, List.length_append] at hn
  obtain ⟨n, rfl⟩ : ∃ n', n = n' + 1 + 1 := ⟨n - 2, by omega⟩
  have hstarts : startsStep (ts ++ (us ++ rest)) = true := by
    obtain ⟨a, vs, rfl⟩ := hs.1
    rfl
  rw [List.cons_append, List.append_assoc, path_eq_locationPath rfl, locationPath, hstarts, if_pos rfl]
  refine (bind_of_ok (hs.2 n (us ++ rest) (hss.stops hrest) (by omega))).trans ?_
  exact bind_of_ok (hss.2 n rest hrest (by omega))

theorem reads_relative {s : Step} {ss : List Step} (hs : ReadsStep s ts) (hss : ReadsMoreSteps ss us) :
    Reads 8 (.path false (s :: ss)) (ts ++ us) := by
  obtain ⟨⟨a, vs, hts⟩, hread⟩ := hs
  have hlength : 2 ≤ ts.length := by
    rw [hts, List.length_cons, List.length_cons]
    omega
  refine ⟨⟨.name a, .doubleColon :: vs ++ us, by rw [hts]; rfl, fun h => by cases h⟩, fun n rest hrest hn => ?_⟩
  have hne : ∀ t ws, t ≠ .name a → ts ++ (us ++ rest) ≠ t :: ws := by
    intro t ws ht heq
    rw [hts] at heq
    exact ht (List.cons.inj heq).1.symm
  rw [List.length_append] at hn
  obtain ⟨n, rfl⟩ : ∃ n', n = n' + 1 + 1 := ⟨n - 2, by omega⟩
  have hstarts : startsFilter (ts ++ (us ++ rest)) = false := by
    rw [hts]
    rfl
  rw [List.append_assoc]
  refine ⟨?_, fun ws => hne _ ws fun h => by cases h⟩
  rw [path_eq_locationPath hstarts, locationPath]
  · refine (bind_of_ok (hread n (us ++ rest) (hss.stops hrest) (by omega))).trans ?_
    exact bind_of_ok (hss.2 n rest hrest (by omega))
  · exact fun ws => hne _ ws fun h => by cases h
  · exact fun ws => hne _ ws fun h => by cases h

theorem reads_filter {ps : List Expr} {ss : List Step} {vs : List Token} (he : Reads 9 e ts)
    (hps : ReadsPredicates ps us) (hss : ReadsMoreSteps ss vs) (hne : ps ≠ [] ∨ ss ≠ []) :
    Reads 8 (.filter e ps ss) (ts ++ (us ++ vs)) := by
  refine ⟨he.1.append _, fun n rest hrest hn => ?_⟩
  have hpos := he.1.length_pos
  rw [List.length_append, List.length_append] at hn
  obtain ⟨n, rfl⟩ := Nat.exists_eq_add_one.mpr (show 0 < n by omega)
  obtain ⟨hstarts, hprimary⟩ := he.2 n (us ++ (vs ++ rest)) (by omega)
  rw [List.append_assoc, List.append_assoc]
  refine ⟨?_, fun ws hws => ?_⟩
  · have hempty : (ps.isEmpty && ss.isEmpty) = false := by
      rcases hne with hne | hne
      · rw [List.isEmpty_eq_false_iff.mpr hne, Bool.false_and]
      · rw [List.isEmpty_eq_false_iff.mpr hne, Bool.and_false]
    rw [path, hstarts, if_pos rfl]
    refine (bind_of_ok hprimary).trans ?_
    refine (bind_of_ok (hps.2 n (vs ++ rest) (hss.stops hrest) (by omega))).trans ?_
    refine (bind_of_ok (hss.2 n rest hrest (by omega))).trans ?_
    show Except.ok (if ps.isEmpty && ss.isEmpty then e else .filter e ps ss, rest) = _
    rw [hempty]
    rfl
  · rw [hws] at hstarts
    cases hstarts

/-! ## Operators -/

theorem reads_negate (h : Reads 6 e ts) : Reads 6 (.negate e) (.minus :: ts) := by
  refine ⟨⟨_, _, rfl, fun h => by cases h⟩, fun n rest hrest hn => ?_⟩
  rw [List.length_cons] at hn
  obtain ⟨n, rfl⟩ := Nat.exists_eq_add_one.mpr (show 0 < n by omega)
  rw [List.cons_append, unary]
  exact bind_of_ok (h.2 n rest hrest (by omega))

theorem reads_union (h : Reads 7 e ts) (h' : Reads 8 e' us) : Reads 7 (.union e e') (ts ++ .pipe :: us) := by
  refine ⟨h.1.append _, fun n rest hrest hn => ?_⟩
  rw [List.length_append, List.length_cons] at hn
  obtain ⟨m, hm, hleft⟩ := h.2 n (.pipe :: (us ++ rest)) (follows_cons (by decide)) (by omega)
  obtain ⟨m, rfl⟩ := Nat.exists_eq_add_one.mpr (show 0 < m by omega)
  obtain ⟨hright, -⟩ := h'.2 m rest (hrest.mono (by omega)) (by omega)
  refine ⟨m, by rw [List.length_append, List.length_cons]; omega, ?_⟩
  rw [List.append_assoc, List.cons_append, hleft, unionRest]
  exact bind_of_ok hright

theorem reads_binary (h : Reads op.level e ts) (h' : Reads (op.level + 1) e' us) :
    Reads op.level (.binary op e e') (ts ++ op.token :: us) := by
  have hlevel := level_lt op
  obtain ⟨hopens, hread⟩ := (reads_iff_readsBinary hlevel).mp h
  refine (reads_iff_readsBinary hlevel).mpr ⟨hopens.append _, fun l ls hl n rest hrest hn => ?_⟩
  rw [List.length_append, List.length_cons] at hn
  obtain ⟨m, hm, hleft⟩ := hread l ls hl n (op.token :: (us ++ rest))
    (follows_cons (Nat.le_of_eq (binds_token op))) (by omega)
  obtain ⟨m, rfl⟩ := Nat.exists_eq_add_one.mpr (show 0 < m by omega)
  have hright := h'.right (n := m) hl hrest (by omega)
  refine ⟨m, by rw [List.length_append, List.length_cons]; omega, ?_⟩
  rw [List.append_assoc, List.cons_append, hleft, binaryRest, operator?_token hl]
  exact bind_of_ok hright

/-! ## Looser levels -/

/-- What begins a path is a path. -/
theorem Reads.path (h : Reads 9 e ts) : Reads 8 e ts := by
  refine ⟨h.1, fun n rest hrest hn => ?_⟩
  have hpos := h.1.length_pos
  obtain ⟨n, rfl⟩ := Nat.exists_eq_add_one.mpr (show 0 < n by omega)
  obtain ⟨hstarts, hprimary⟩ := h.2 n rest (by omega)
  have hps := readsPredicates_nil.2 n rest hrest.stops (by rw [List.length_nil]; omega)
  have hss := readsMoreSteps_nil.2 n rest hrest (by rw [List.length_nil]; omega)
  rw [List.nil_append] at hps hss
  refine ⟨?_, fun us hus => ?_⟩
  · rw [Parser.path, hstarts, if_pos rfl]
    exact (bind_of_ok hprimary).trans ((bind_of_ok hps).trans (bind_of_ok hss))
  · rw [hus] at hstarts
    cases hstarts

/-- A path is a union of one. -/
theorem Reads.union (h : Reads 8 e ts) : Reads 7 e ts := by
  refine ⟨h.1, fun n rest hrest hn => ?_⟩
  have hpos := h.1.length_pos
  obtain ⟨n, rfl⟩ := Nat.exists_eq_add_one.mpr (show 0 < n by omega)
  obtain ⟨hpath, hminus⟩ := h.2 n rest (hrest.mono (by omega)) (by omega)
  refine ⟨n, by omega, ?_⟩
  rw [unary]
  · exact bind_of_ok hpath
  · exact hminus

theorem Reads.unary (h : Reads 7 e ts) : Reads 6 e ts := by
  refine ⟨h.1, fun n rest hrest hn => ?_⟩
  obtain ⟨m, hm, hunion⟩ := h.2 n rest (hrest.mono (by omega)) hn
  obtain ⟨m, rfl⟩ := Nat.exists_eq_add_one.mpr (show 0 < m by omega)
  rw [hunion, unionRest]
  exact fun us => hrest.ne_cons (by decide)

/-- What is read at a level of operators is a left operand of the next looser one. -/
theorem Reads.binary (hk : k < 6) (h : Reads (k + 1) e ts) : Reads k e ts := by
  refine (reads_iff_readsBinary hk).mpr ⟨h.1, fun l ls hl n rest hrest hn => ?_⟩
  have hpos := h.1.length_pos
  obtain ⟨n, rfl⟩ := Nat.exists_eq_add_one.mpr (show 0 < n by omega)
  refine ⟨n, by omega, ?_⟩
  rw [Parser.binary]
  exact bind_of_ok (h.right (n := n) hl hrest (by omega))

theorem Reads.looser (hk : k ≤ 8) (h : Reads (k + 1) e ts) : Reads k e ts := by
  obtain hlt | rfl | rfl | rfl : k < 6 ∨ k = 6 ∨ k = 7 ∨ k = 8 := by omega
  · exact h.binary hlt
  · exact h.unary
  · exact h.union
  · exact h.path

/-- What is read at a level is read at all looser ones. -/
theorem Reads.mono {j : Nat} (h : Reads k e ts) (hjk : j ≤ k) (hk : k ≤ 9) : Reads j e ts := by
  obtain ⟨d, rfl⟩ := Nat.exists_eq_add_of_le hjk
  clear hjk
  induction d with
  | zero => exact h
  | succ d ih => exact ih (Reads.looser (by omega) h) (by omega)

/-! ## Queries -/

theorem level_le (e : Expr) : e.level ≤ 9 := by
  cases e with
  | binary op =>
    have hlevel := level_lt op
    rw [Expr.level]
    omega
  | _ => simp [Expr.level]

/-- In parentheses, tokens that are read at some level begin a path. -/
theorem reads_parenthesized (hk : k ≤ 9) (h : Reads k e ts) (n : Nat) : Reads 9 e (parenthesized (n + 1) ts) := by
  induction n with
  | zero => exact reads_parentheses (h.mono (Nat.zero_le k) hk)
  | succ n ih => exact reads_parentheses (ih.mono (Nat.zero_le 9) (Nat.le_refl 9))

/-- A query is read at its place. -/
theorem reads_enclosed {place : Nat} {x : Extra} (h : Reads e.level e ts) (hplace : place ≤ 9) :
    Reads place e (e.enclosed place x ts) := by
  unfold Expr.enclosed
  cases hn : x [] + e.needed place with
  | succ n => exact (reads_parenthesized (level_le e) h n).mono hplace (Nat.le_refl 9)
  | zero =>
    have hle : place ≤ e.level := by
      refine Nat.le_of_not_lt fun hlt => ?_
      rw [Expr.needed, if_pos (.inl hlt)] at hn
      omega
    exact h.mono hle (level_le e)

/-- What a filter narrows stands in parentheses. -/
theorem reads_enclosed_filter {x : Extra} (h : Reads e.level e ts) : Reads 9 e (e.enclosed 10 x ts) := by
  have hneeded : e.needed 10 = 1 := if_pos (.inl (Nat.lt_succ_of_le (level_le e)))
  rw [Expr.enclosed, hneeded]
  exact reads_parenthesized (level_le e) h (x [])

mutual

theorem reads_body : ∀ (e : Expr) (x : Extra), e.Printable → Reads e.level e (e.body x)
  | .literal text, x, _ => reads_literal text
  | .number d, x, _ => reads_number d
  | .path true [], x, _ => reads_root
  | .path true (s :: ss), x, h => by
    rw [Expr.Printable, StepsPrintable] at h
    rw [Expr.body, moreStepTokens]
    exact reads_absolute (reads_step s (x.below 0) h.2.1) (reads_moreSteps ss x 1 h.2.2)
  | .path false [], x, h => by simp [Expr.Printable] at h
  | .path false (s :: ss), x, h => by
    rw [Expr.Printable, StepsPrintable] at h
    rw [Expr.body]
    exact reads_relative (reads_step s (x.below 0) h.2.1) (reads_moreSteps ss x 1 h.2.2)
  | .filter primary ps ss, x, h => by
    rw [Expr.Printable] at h
    rw [Expr.body]
    exact reads_filter (reads_enclosed_filter (reads_body primary (x.below 0) h.2.1))
      (reads_predicates ps (x.below 1) 0 h.2.2.1) (reads_moreSteps ss (x.below 2) 0 h.2.2.2) h.1
  | .binary op left right, x, h => by
    rw [Expr.Printable] at h
    rw [Expr.body]
    have hlevel := level_lt op
    exact reads_binary (reads_enclosed (reads_body left (x.below 0) h.1) (by omega))
      (reads_enclosed (reads_body right (x.below 1) h.2) (by omega))
  | .negate operand, x, h => by
    rw [Expr.Printable] at h
    rw [Expr.body]
    exact reads_negate (reads_enclosed (reads_body operand (x.below 0) h) (by decide))
  | .union left right, x, h => by
    rw [Expr.Printable] at h
    rw [Expr.body]
    exact reads_union (reads_enclosed (reads_body left (x.below 0) h.1) (by decide))
      (reads_enclosed (reads_body right (x.below 1) h.2) (by decide))
  | .call function [], x, h => by
    rw [Expr.Printable] at h
    exact reads_call_nil h.1.2
  | .call function (e :: es), x, h => by
    rw [Expr.Printable, AllPrintable] at h
    rw [Expr.body]
    exact reads_call_cons h.1.2 (reads_enclosed (reads_body e (x.below 0) h.2.1) (by decide))
      (reads_moreArguments es x 1 h.2.2)

theorem reads_moreArguments : ∀ (es : List Expr) (x : Extra) (i : Nat), AllPrintable es →
    ReadsMoreArguments es (moreArgumentTokens x i es)
  | [], x, i, _ => readsMoreArguments_nil
  | e :: es, x, i, h => by
    rw [AllPrintable] at h
    rw [moreArgumentTokens]
    exact readsMoreArguments_cons (reads_enclosed (reads_body e (x.below i) h.1) (by decide))
      (reads_moreArguments es x (i + 1) h.2)

theorem reads_step : ∀ (s : Step) (x : Extra), s.Printable → ReadsStep s (stepTokens x s)
  | .mk axis test ps, x, h => by
    rw [Step.Printable] at h
    rw [stepTokens]
    exact readsStep (reads_predicates ps x 0 h.2)

theorem reads_moreSteps : ∀ (ss : List Step) (x : Extra) (i : Nat), StepsPrintable ss →
    ReadsMoreSteps ss (moreStepTokens x i ss)
  | [], x, i, _ => readsMoreSteps_nil
  | s :: ss, x, i, h => by
    rw [StepsPrintable] at h
    rw [moreStepTokens]
    exact readsMoreSteps_cons (reads_step s (x.below i) h.1) (reads_moreSteps ss x (i + 1) h.2)

theorem reads_predicates : ∀ (ps : List Expr) (x : Extra) (i : Nat), AllPrintable ps →
    ReadsPredicates ps (predicateTokens x i ps)
  | [], x, i, _ => readsPredicates_nil
  | p :: ps, x, i, h => by
    rw [AllPrintable] at h
    rw [predicateTokens]
    exact readsPredicates_cons (reads_enclosed (reads_body p (x.below i) h.1) (by decide))
      (reads_predicates ps x (i + 1) h.2)

end

/-- The tokens of a printed query are read as the query. -/
theorem parseTokens_tokens (h : e.Printable) (x : Extra) : parseTokens (e.tokens 0 x) = .ok e := by
  have hread : Reads 0 e (e.tokens 0 x) := reads_enclosed (reads_body e x h) (by decide)
  have hwhole : binary (allowance (e.tokens 0 x).length) levels (e.tokens 0 x ++ []) = .ok (e, []) :=
    hread.whole (fun t ht => by cases ht) (by unfold allowance; omega)
  rw [List.append_nil] at hwhole
  rw [parseTokens, hwhole]

end Stencil.Query.Parser
