/-
  Which rule of a character map takes what comes next.

  A document declares rules one after another.  A character map keeps them in another form: literals in groups
  by their length, the longest first, and patterns in a list of their own.

    1. **What is declared** — `Declared` reads a document as a list of rules, in its order, and a map is made
       from just the documents that can be read so (`ofElement_eq_ok`).
    2. **What the groups hold** — under each literal, what the last of its rules says (`replacement?_gather`).
       A group holds literals of one length, and the groups stand from the longest to the shortest (`Grouped`).
    3. **What is chosen** — the groups are asked one by one for the piece of their length.  What they find is
       the longest literal that comes next, and where they find none, the first pattern that matches something
       is chosen.  This is said on the rules as they are declared (`Takes`), and `choose?_eq_some_iff` is the
       bridge.
    4. **What the order of rules means** — a literal may change places with a pattern or with another literal:
       the groups hold the same behind it (`Swapped`, `choose?_of_swapped`).
-/
import Mathlib.Data.List.Forall2
import Mathlib.Data.List.Induction
import Stencil.CharMap

set_option autoImplicit false

namespace Stencil

/-- A rule of a character map, as its document declares it. -/
inductive Rule where
  | literal (text : String) (target : Replacement)
  | pattern (program : Pattern.Program) (target : Replacement)

namespace Rule

/-- What replaces the pieces that a rule takes. -/
def target : Rule → Replacement
  | literal _ r | pattern _ r => r

/-- The pattern of a rule, with what replaces its matches. -/
def pattern? : Rule → Option (Pattern.Program × Replacement)
  | literal .. => none
  | pattern p r => some (p, r)

/-- The target that an element names: a text, or else a file. -/
inductive Names (e : Element) : Replacement → Prop
  | text {s : String} (named : e.attr? "to" = some s) : Names e (.text s)
  | file {s : String} (noText : e.attr? "to" = none) (named : e.attr? "to-file" = some s) : Names e (.file s)

/-- The rule that an element declares: one for a literal, or else one for a pattern at the place. -/
inductive Declares (e : Element) : Rule → Prop
  | literal {s : String} {r : Replacement} (source : e.attr? "from" = some s) (names : Names e r) :
      Declares e (.literal s r)
  | pattern {s : String} {p : Pattern} {r : Replacement} (noLiteral : e.attr? "from" = none)
      (source : e.attr? "from-regex" = some s) (reads : Pattern.parse ("^(?:" ++ s ++ ")") = .ok p)
      (names : Names e r) : Declares e (.pattern p.program r)

/-- The rules that a document declares, in its order. -/
def Declared (map : Element) (rs : List Rule) : Prop :=
  List.Forall₂ Declares (map.children.filter fun e => e.name == "map") rs

/-- The last rule for a literal says what replaces it. -/
def Replaces (rs : List Rule) (s : String) (r : Replacement) : Prop :=
  ∃ before after, rs = before ++ .literal s r :: after ∧ ∀ r', .literal s r' ∉ after

/-- The rules take so many characters of what comes next: the longest literal that comes next or, where none
    does, what the first pattern matches that matches something.  A pattern is tried at the place only, and its
    match is as long as the characters that it consumes. -/
inductive Takes (rs : List Rule) (cs : List Char) : Nat → Replacement → (Nat → Option String) → Prop
  | literal {s : String} {r : Replacement} (next : s.toList <+: cs) (last : Replaces rs s r)
      (longest : ∀ s' r', .literal s' r' ∈ rs → s'.toList <+: cs → s'.length ≤ s.length) :
      Takes rs cs s.length r fun _ => none
  | pattern {before after : List Rule} {p : Pattern.Program} {r : Replacement} {f : Pattern.Found}
      (noLiteral : ∀ s r, .literal s r ∈ rs → ¬ s.toList <+: cs) (rule : rs = before ++ .pattern p r :: after)
      (found : p.find? cs = some f) (something : 0 < f.consumed)
      (first : ∀ p' r' f', .pattern p' r' ∈ before → p'.find? cs = some f' → f'.consumed = 0) :
      Takes rs cs f.consumed r f.group?

/-- Two rules that may change places: not both are patterns, and they are not for one literal. -/
inductive Independent : Rule → Rule → Prop
  | literals {s s' : String} (r r' : Replacement) (ne : s ≠ s') : Independent (.literal s r) (.literal s' r')
  | behind (s : String) (p : Pattern.Program) (r r' : Replacement) : Independent (.literal s r) (.pattern p r')
  | before (s : String) (p : Pattern.Program) (r r' : Replacement) : Independent (.pattern p r) (.literal s r')

/-- Two neighbours have changed places. -/
def Swapped (rs rs' : List Rule) : Prop :=
  ∃ before a b after, Independent a b ∧ rs = before ++ a :: b :: after ∧ rs' = before ++ b :: a :: after

end Rule

namespace Rules

open Rule (Declares Declared Replaces Takes Independent Swapped)

variable {rs rs' : List Rule} {s s' : String} {r : Replacement} {cs : List Char} {n : Nat}
  {groups groups' : List (Nat × Entries Replacement)} {rules rules' : Rules} {e map : Element}

/-! ## What is declared -/

/-- Adds a rule. -/
def insert (rules : Rules) : Rule → Rules
  | .literal s r => { rules with literals := addLiteral s r rules.literals }
  | .pattern p r => { rules with patterns := rules.patterns ++ [(p, r)] }

/-- The rules as a map keeps them. -/
def gather (rs : List Rule) : Rules := rs.foldl insert none

/-- The target as it is looked up. -/
def target? (e : Element) : Option Replacement :=
  ((e.attr? "to").map Replacement.text).or ((e.attr? "to-file").map Replacement.file)

theorem target?_eq_some_iff : target? e = some r ↔ Rule.Names e r := by
  unfold target?
  constructor
  · intro h
    rcases Option.or_eq_some_iff.mp h with h | ⟨hno, h⟩
    · obtain ⟨t, ht, rfl⟩ := Option.map_eq_some_iff.mp h
      exact .text ht
    · obtain ⟨t, ht, rfl⟩ := Option.map_eq_some_iff.mp h
      exact .file (Option.map_eq_none_iff.mp hno) ht
  · rintro (h | ⟨hno, h⟩)
    · rw [h]
      rfl
    · rw [hno, h]
      rfl

theorem add_eq_ok {site : String} :
    rules.add site e = .ok rules' ↔ ∃ r, Declares e r ∧ rules' = rules.insert r := by
  unfold add
  extract_lets target
  rw [show target = target? e from rfl]
  constructor
  · intro h
    cases htarget : target? e with
    | none => rw [htarget] at h; cases h
    | some r =>
      have hnames := target?_eq_some_iff.mp htarget
      rw [htarget] at h
      dsimp only at h
      cases hfrom : e.attr? "from" with
      | some literal =>
        rw [hfrom] at h
        cases h
        exact ⟨_, .literal hfrom hnames, rfl⟩
      | none =>
        cases hregex : e.attr? "from-regex" with
        | none => rw [hfrom, hregex] at h; cases h
        | some text =>
          rw [hfrom, hregex] at h
          dsimp only at h
          cases hp : Pattern.parse ("^(?:" ++ text ++ ")") with
          | error what => rw [hp] at h; cases h
          | ok p =>
            rw [hp] at h
            cases h
            exact ⟨_, .pattern hfrom hregex hp hnames, rfl⟩
  · rintro ⟨_, hdeclares, rfl⟩
    cases hdeclares with
    | literal source names => rw [target?_eq_some_iff.mpr names, source]; rfl
    | pattern noLiteral source reads names =>
      rw [target?_eq_some_iff.mpr names, noLiteral, source]
      dsimp only
      rw [reads]
      rfl

theorem ofElement_eq_ok : ofElement map = .ok rules ↔ ∃ rs, Declared map rs ∧ rules = gather rs := by
  unfold ofElement Declared gather
  generalize (map.children.filter fun e => e.name == "map") = es
  generalize none = start
  induction es generalizing start with
  | nil =>
    constructor
    · intro h
      cases h
      exact ⟨[], .nil, rfl⟩
    · rintro ⟨_, ⟨⟩, rfl⟩
      rfl
  | cons e es ih =>
    rw [List.foldlM_cons]
    constructor
    · intro h
      cases hadd : start.add (siteOf map e) e with
      | error err => rw [hadd] at h; cases h
      | ok next =>
        rw [hadd] at h
        obtain ⟨r, hr, rfl⟩ := add_eq_ok.mp hadd
        obtain ⟨rs, hrs, rfl⟩ := (ih _).mp h
        exact ⟨r :: rs, .cons hr hrs, rfl⟩
    · rintro ⟨_, hdeclared, rfl⟩
      cases hdeclared with
      | cons hr hrs =>
        rw [add_eq_ok.mpr ⟨_, hr, rfl⟩]
        exact (ih _).mpr ⟨_, hrs, rfl⟩

/-! ## What the groups hold -/

/-- Each group holds literals of one length, and the groups stand from the longest to the shortest. -/
inductive Grouped : List (Nat × Entries Replacement) → Prop
  | nil : Grouped []
  | cons {n : Nat} {es : Entries Replacement} {groups : List (Nat × Entries Replacement)}
      (shorter : ∀ g ∈ groups, g.1 < n) (rest : Grouped groups) : Grouped ((n, es) :: groups)

/-- What replaces a literal. -/
def replacement? (s : String) : List (Nat × Entries Replacement) → Option Replacement
  | [] => .none
  | (n, es) :: groups => if s.length = n then es.get? s else replacement? s groups

theorem length_of_mem_addLiteral {g : Nat × Entries Replacement} (h : g ∈ addLiteral s r groups) :
    g.1 = s.length ∨ ∃ g' ∈ groups, g'.1 = g.1 := by
  induction groups with
  | nil =>
    rw [addLiteral, List.mem_singleton] at h
    rw [h]
    exact .inl rfl
  | cons first groups ih =>
    obtain ⟨n, es⟩ := first
    rw [addLiteral] at h
    split at h
    · rcases List.mem_cons.mp h with rfl | h
      · exact .inr ⟨(n, es), List.mem_cons_self, rfl⟩
      · exact .inr ⟨g, List.mem_cons_of_mem _ h, rfl⟩
    · split at h
      · rcases List.mem_cons.mp h with rfl | h
        · exact .inl rfl
        · exact .inr ⟨g, h, rfl⟩
      · rcases List.mem_cons.mp h with rfl | h
        · exact .inr ⟨(n, es), List.mem_cons_self, rfl⟩
        · rcases ih h with h | ⟨g', hg', h⟩
          · exact .inl h
          · exact .inr ⟨g', List.mem_cons_of_mem _ hg', h⟩

theorem Grouped.addLiteral (h : Grouped groups) : Grouped (addLiteral s r groups) := by
  induction h with
  | nil =>
    rw [Rules.addLiteral]
    exact .cons (fun g hg => by cases hg) .nil
  | @cons n es groups shorter rest ih =>
    rw [Rules.addLiteral]
    split
    · exact .cons shorter rest
    · rename_i hne
      split
      · rename_i hlt
        refine .cons (fun g hg => ?_) (.cons shorter rest)
        rcases List.mem_cons.mp hg with rfl | hg
        · exact hlt
        · have := shorter g hg
          omega
      · rename_i hge
        refine .cons (fun g hg => ?_) ih
        rcases length_of_mem_addLiteral hg with h | ⟨g', hg', h⟩
        · omega
        · have := shorter g' hg'
          omega

theorem replacement?_of_shorter (h : ∀ g ∈ groups, g.1 < s.length) : replacement? s groups = .none := by
  induction groups with
  | nil => rfl
  | cons first groups ih =>
    obtain ⟨n, es⟩ := first
    have hlt : n < s.length := h (n, es) List.mem_cons_self
    rw [replacement?, if_neg (by omega)]
    exact ih fun g hg => h g (List.mem_cons_of_mem _ hg)

/-- A new rule for a literal is seen under that literal only. -/
theorem replacement?_addLiteral (h : Grouped groups) :
    replacement? s' (addLiteral s r groups) = if s = s' then some r else replacement? s' groups := by
  induction h with
  | nil =>
    rw [addLiteral, replacement?, replacement?, Entries.get?, Entries.get?]
    by_cases hs : s = s'
    · rw [if_pos hs, if_pos (congrArg String.length hs.symm)]
    · rw [if_neg hs]
      split <;> rfl
  | @cons n es groups shorter rest ih =>
    rw [addLiteral]
    split
    · rename_i hlen
      rw [replacement?, replacement?, Entries.get?_insert]
      by_cases hs : s = s'
      · rw [if_pos hs, if_pos (hs ▸ hlen), if_pos hs]
      · rw [if_neg hs, if_neg hs]
    · rename_i hne
      split
      · rename_i hlt
        rw [replacement?, Entries.get?, Entries.get?]
        by_cases hs : s = s'
        · rw [if_pos hs, if_pos (congrArg String.length hs.symm), if_pos hs]
        · rw [if_neg hs, if_neg hs]
          split
          · rename_i hlen
            -- no group has been there for literals of the new length
            rw [replacement?_of_shorter]
            intro g hg
            rcases List.mem_cons.mp hg with rfl | hg
            · omega
            · have := shorter g hg
              omega
          · rfl
      · rw [replacement?, replacement?, ih]
        by_cases hs : s = s'
        · rw [if_pos hs, if_neg (hs ▸ hne), if_pos hs]
        · rw [if_neg hs, if_neg hs]

theorem gather_concat (rs : List Rule) (rule : Rule) : gather (rs ++ [rule]) = (gather rs).insert rule :=
  List.foldl_concat ..

theorem Grouped.insert (h : Grouped rules.literals) (rule : Rule) : Grouped (rules.insert rule).literals := by
  cases rule with
  | literal s r => exact h.addLiteral
  | pattern p r => exact h

theorem grouped_gather (rs : List Rule) : Grouped (gather rs).literals := by
  induction rs using List.reverseRecOn with
  | nil => exact .nil
  | append_singleton rs rule ih =>
    rw [gather_concat]
    exact ih.insert rule

theorem patterns_gather (rs : List Rule) : (gather rs).patterns = rs.filterMap Rule.pattern? := by
  induction rs using List.reverseRecOn with
  | nil => rfl
  | append_singleton rs rule ih =>
    rw [gather_concat, List.filterMap_append, ← ih]
    cases rule with
    | literal s r => exact (List.append_nil _).symm
    | pattern p r => rfl

/-- A rule at the end says what replaces its own literal, and leaves it to those before it for all others. -/
theorem replaces_concat {rule : Rule} :
    Replaces (rs ++ [rule]) s r ↔ rule = .literal s r ∨ (∀ r', rule ≠ .literal s r') ∧ Replaces rs s r := by
  constructor
  · rintro ⟨before, after, heq, hlast⟩
    rcases List.eq_nil_or_concat after with rfl | ⟨after, last, rfl⟩
    · exact .inl (List.head_eq_of_cons_eq (List.append_inj' heq rfl).2)
    · rw [List.concat_eq_append] at heq hlast
      obtain ⟨hrs, hrule⟩ := List.append_inj' (heq.trans (List.append_assoc before (_ :: after) [last]).symm) rfl
      have hlastRule := List.head_eq_of_cons_eq hrule
      refine .inr ⟨fun r' he => hlast r' ?_, before, after, hrs, fun r' hr' => hlast r' ?_⟩
      · rw [← he, hlastRule]
        exact List.mem_append_right _ List.mem_cons_self
      · exact List.mem_append_left _ hr'
  · rintro (rfl | ⟨hne, before, after, rfl, hlast⟩)
    · exact ⟨rs, [], rfl, fun r' hr' => by cases hr'⟩
    · refine ⟨before, after ++ [rule], by rw [List.append_assoc]; rfl, fun r' hr' => ?_⟩
      rcases List.mem_append.mp hr' with hr' | hr'
      · exact hlast r' hr'
      · exact hne r' (List.mem_singleton.mp hr').symm

/-- Under each literal the groups hold what the last of its rules says. -/
theorem replacement?_gather : replacement? s (gather rs).literals = some r ↔ Replaces rs s r := by
  induction rs using List.reverseRecOn with
  | nil =>
    constructor
    · intro h
      cases h
    · rintro ⟨before, after, heq, -⟩
      cases before <;> cases heq
  | append_singleton rs rule ih =>
    rw [gather_concat, replaces_concat, ← ih]
    cases rule with
    | literal s' r' =>
      show replacement? s (addLiteral s' r' (gather rs).literals) = some r ↔ _
      rw [replacement?_addLiteral (grouped_gather rs)]
      by_cases hs : s' = s
      · subst hs
        simp
      · simp [hs]
    | pattern p r' =>
      show replacement? s (gather rs).literals = some r ↔ _
      simp

theorem exists_replaces (h : .literal s r ∈ rs) : ∃ r', Replaces rs s r' := by
  induction rs using List.reverseRecOn with
  | nil => cases h
  | append_singleton rs rule ih =>
    by_cases hrule : ∃ r', rule = .literal s r'
    · obtain ⟨r', rfl⟩ := hrule
      exact ⟨r', replaces_concat.mpr (.inl rfl)⟩
    · have hne : ∀ r', rule ≠ .literal s r' := fun r' he => hrule ⟨r', he⟩
      rcases List.mem_append.mp h with h | h
      · obtain ⟨r', hr'⟩ := ih h
        exact ⟨r', replaces_concat.mpr (.inr ⟨hne, hr'⟩)⟩
      · exact (hne r (List.mem_singleton.mp h).symm).elim

theorem mem_of_replaces (h : Replaces rs s r) : .literal s r ∈ rs := by
  obtain ⟨before, after, rfl, -⟩ := h
  exact List.mem_append_right _ List.mem_cons_self

/-- Nothing is held under a literal that has no rule. -/
theorem replacement?_gather_eq_none :
    replacement? s (gather rs).literals = .none ↔ ∀ r, .literal s r ∉ rs := by
  rw [Option.eq_none_iff_forall_ne_some]
  constructor
  · intro h r hr
    obtain ⟨r', hr'⟩ := exists_replaces hr
    exact h r' (replacement?_gather.mpr hr')
  · intro h r hr
    exact h r (mem_of_replaces (replacement?_gather.mp hr))

/-! ## What is chosen -/

theorem length_ofList_take (hn : n ≤ cs.length) : (String.ofList (cs.take n)).length = n := by
  rw [String.length_ofList, List.length_take, Nat.min_eq_left hn]

/-- What the groups find is as long as it can be. -/
theorem literalIn_spec (h : Grouped groups) (cs : List Char) :
    match literalIn cs groups with
    | some (n, r) => n ≤ cs.length ∧ replacement? (String.ofList (cs.take n)) groups = some r
        ∧ ∀ k, n < k → k ≤ cs.length → replacement? (String.ofList (cs.take k)) groups = .none
    | .none => ∀ k ≤ cs.length, replacement? (String.ofList (cs.take k)) groups = .none := by
  induction h with
  | nil => exact fun k _ => rfl
  | @cons n es groups shorter rest ih =>
    -- a piece of another length is left to the other groups
    have hother : ∀ k ≤ cs.length, k ≠ n → replacement? (String.ofList (cs.take k)) ((n, es) :: groups)
        = replacement? (String.ofList (cs.take k)) groups := by
      intro k hk hne
      rw [replacement?, if_neg (by rw [length_ofList_take hk]; exact hne)]
    have hlonger : ∀ k, n ≤ k → k ≤ cs.length → replacement? (String.ofList (cs.take k)) groups = .none := by
      intro k hnk hk
      apply replacement?_of_shorter
      intro g hg
      have := shorter g hg
      rw [length_ofList_take hk]
      omega
    -- the group of the longest pieces decides, unless the text is too short or the group does not have the piece
    by_cases hmiss : n ≤ cs.length → es.get? (String.ofList (cs.take n)) = .none
    · have hnext : literalIn cs ((n, es) :: groups) = literalIn cs groups := by
        rw [literalIn]
        split
        · rename_i hn
          rw [List.length_take] at hn
          rw [hmiss (by omega)]
        · rfl
      have hsame : ∀ k ≤ cs.length, replacement? (String.ofList (cs.take k)) ((n, es) :: groups)
          = replacement? (String.ofList (cs.take k)) groups := by
        intro k hk
        by_cases hkn : k = n
        · subst hkn
          rw [replacement?, if_pos (length_ofList_take hk), hmiss hk, hlonger k (Nat.le_refl k) hk]
        · exact hother k hk hkn
      rw [hnext]
      split
      · rename_i k r hk
        rw [hk] at ih
        refine ⟨ih.1, (hsame k ih.1).trans ih.2.1, fun j hj hjc => ?_⟩
        exact (hsame j hjc).trans (ih.2.2 j hj hjc)
      · rename_i hk
        rw [hk] at ih
        exact fun k hkc => (hsame k hkc).trans (ih k hkc)
    · obtain ⟨hn, hsome⟩ := Classical.not_imp.mp hmiss
      obtain ⟨r, hr⟩ := Option.ne_none_iff_exists'.mp hsome
      have hfound : literalIn cs ((n, es) :: groups) = some (n, r) := by
        rw [literalIn, if_pos (by rw [List.length_take, Nat.min_eq_left hn]), hr]
      rw [hfound]
      refine ⟨hn, ?_, fun k hk hkc => ?_⟩
      · rw [replacement?, if_pos (length_ofList_take hn), hr]
      · rw [hother k hkc (by omega), hlonger k (by omega) hkc]

/-- The groups find the longest piece that comes next and for which something is held. -/
theorem literalIn_eq_some_iff (h : Grouped groups) :
    literalIn cs groups = some (n, r)
      ↔ n ≤ cs.length ∧ replacement? (String.ofList (cs.take n)) groups = some r
        ∧ ∀ k, n < k → k ≤ cs.length → replacement? (String.ofList (cs.take k)) groups = .none := by
  have hspec := literalIn_spec h cs
  constructor
  · intro hl
    rw [hl] at hspec
    exact hspec
  · rintro ⟨hn, hr, hlongest⟩
    cases hl : literalIn cs groups with
    | none =>
      rw [hl] at hspec
      rw [hspec n hn] at hr
      cases hr
    | some m =>
      obtain ⟨n', r'⟩ := m
      rw [hl] at hspec
      obtain ⟨hn', hr', hlongest'⟩ := hspec
      have hlen : n' = n := by
        rcases Nat.lt_trichotomy n' n with hlt | heq | hlt
        · rw [hlongest' n hlt hn] at hr
          cases hr
        · exact heq
        · rw [hlongest n' hlt hn'] at hr'
          cases hr'
      subst hlen
      rw [hr] at hr'
      rw [Option.some.inj hr']

/-- What is chosen for the characters that come next: how many are taken, what replaces them, and the groups of
    the match. -/
def choose? (rules : Rules) (cs : List Char) : Option (Nat × Replacement × (Nat → Option String)) :=
  match rules.literal? cs with
  | some (n, r) => some (n, r, fun _ => .none)
  | .none => (rules.pattern? cs).map fun m => (m.1.consumed, m.2, m.1.group?)

/-- What a rule matches that matches something. -/
def matched? (cs : List Char) (rule : Rule) : Option (Pattern.Found × Replacement) :=
  match rule with
  | .literal .. => .none
  | .pattern p r =>
    match p.find? cs with
    | some f => if 0 < f.consumed then some (f, r) else .none
    | .none => .none

theorem matched?_eq_some_iff {rule : Rule} {f : Pattern.Found} :
    matched? cs rule = some (f, r) ↔ ∃ p, rule = .pattern p r ∧ p.find? cs = some f ∧ 0 < f.consumed := by
  constructor
  · intro h
    cases rule with
    | literal s r => cases h
    | pattern p r' =>
      unfold matched? at h
      dsimp only at h
      split at h
      · rename_i f' hf
        split at h
        · rename_i hpos
          cases h
          exact ⟨p, rfl, hf, hpos⟩
        · cases h
      · cases h
  · rintro ⟨p, rfl, hf, hpos⟩
    unfold matched?
    dsimp only
    rw [hf]
    exact if_pos hpos

theorem matched?_eq_none_iff {rule : Rule} :
    matched? cs rule = .none ↔ ∀ p r f, rule = .pattern p r → p.find? cs = some f → f.consumed = 0 := by
  rw [Option.eq_none_iff_forall_ne_some]
  constructor
  · intro h p r f hrule hf
    by_contra hne
    exact h (f, r) (matched?_eq_some_iff.mpr ⟨p, hrule, hf, Nat.pos_of_ne_zero hne⟩)
  · rintro h ⟨f, r⟩ hm
    obtain ⟨p, hrule, hf, hpos⟩ := matched?_eq_some_iff.mp hm
    exact Nat.ne_of_gt hpos (h p r f hrule hf)

theorem pattern?_gather : (gather rs).pattern? cs = rs.findSome? (matched? cs) := by
  unfold pattern?
  rw [patterns_gather]
  induction rs with
  | nil => rfl
  | cons rule rs ih =>
    rw [List.findSome?_cons]
    cases rule with
    | literal s r => exact ih
    | pattern p r =>
      show patternIn cs ((p, r) :: rs.filterMap Rule.pattern?) = _
      rw [patternIn, ih]
      unfold matched?
      dsimp only
      cases p.find? cs with
      | none => rfl
      | some f =>
        dsimp only
        split <;> rfl

theorem eq_ofList_take (h : s.toList <+: cs) : s = String.ofList (cs.take s.length) := by
  rw [← String.length_toList, ← List.prefix_iff_eq_take.mp h, String.ofList_toList]

theorem length_le_of_next (h : s.toList <+: cs) : s.length ≤ cs.length := by
  rw [← String.length_toList]
  exact h.length_le

theorem next_ofList_take (cs : List Char) (n : Nat) : (String.ofList (cs.take n)).toList <+: cs := by
  rw [String.toList_ofList]
  exact List.take_prefix n cs

/-- The groups find the longest literal that comes next. -/
theorem literal?_gather_eq_some_iff :
    (gather rs).literal? cs = some (n, r) ↔ ∃ s, n = s.length ∧ s.toList <+: cs ∧ Replaces rs s r
      ∧ ∀ s' r', .literal s' r' ∈ rs → s'.toList <+: cs → s'.length ≤ s.length := by
  unfold literal?
  rw [literalIn_eq_some_iff (grouped_gather rs)]
  constructor
  · rintro ⟨hn, hr, hlongest⟩
    refine ⟨_, (length_ofList_take hn).symm, next_ofList_take cs n, replacement?_gather.mp hr, ?_⟩
    intro s' r' hs' hnext
    rw [length_ofList_take hn]
    by_contra hlt
    have hnone := hlongest s'.length (by omega) (length_le_of_next hnext)
    rw [← eq_ofList_take hnext] at hnone
    exact replacement?_gather_eq_none.mp hnone r' hs'
  · rintro ⟨s, rfl, hnext, hlast, hlongest⟩
    refine ⟨length_le_of_next hnext, ?_, fun k hlt hk => ?_⟩
    · rw [← eq_ofList_take hnext]
      exact replacement?_gather.mpr hlast
    · refine replacement?_gather_eq_none.mpr fun r' hr' => ?_
      have hle := hlongest _ r' hr' (next_ofList_take cs k)
      rw [length_ofList_take hk] at hle
      omega

/-- Where the groups find nothing, no literal comes next. -/
theorem literal?_gather_eq_none :
    (gather rs).literal? cs = .none ↔ ∀ s r, .literal s r ∈ rs → ¬ s.toList <+: cs := by
  constructor
  · intro h s r hs hnext
    have hspec := literalIn_spec (grouped_gather rs) cs
    rw [show literalIn cs (gather rs).literals = .none from h] at hspec
    have hnone := hspec s.length (length_le_of_next hnext)
    rw [← eq_ofList_take hnext] at hnone
    exact replacement?_gather_eq_none.mp hnone r hs
  · intro h
    rw [Option.eq_none_iff_forall_ne_some]
    rintro ⟨n, r⟩ hsome
    obtain ⟨s, -, hnext, hreplaces, -⟩ := literal?_gather_eq_some_iff.mp hsome
    exact h s r (mem_of_replaces hreplaces) hnext

theorem takes_of_literal? (h : (gather rs).literal? cs = some (n, r)) : Takes rs cs n r fun _ => .none := by
  obtain ⟨s, rfl, hnext, hlast, hlongest⟩ := literal?_gather_eq_some_iff.mp h
  exact .literal hnext hlast hlongest

theorem takes_of_pattern? {f : Pattern.Found} (hnone : (gather rs).literal? cs = .none)
    (h : (gather rs).pattern? cs = some (f, r)) : Takes rs cs f.consumed r f.group? := by
  rw [pattern?_gather] at h
  obtain ⟨before, rule, after, hrs, hmatched, hfirst⟩ := List.findSome?_eq_some_iff.mp h
  obtain ⟨p, rfl, hf, hpos⟩ := matched?_eq_some_iff.mp hmatched
  refine .pattern (literal?_gather_eq_none.mp hnone) hrs hf hpos fun p' r' f' hrule hf' => ?_
  exact matched?_eq_none_iff.mp (hfirst _ hrule) p' r' f' rfl hf'

/-- What is chosen is what the rules take as they are declared. -/
theorem choose?_eq_some_iff {group? : Nat → Option String} :
    (gather rs).choose? cs = some (n, r, group?) ↔ Takes rs cs n r group? := by
  unfold choose?
  constructor
  · intro h
    cases hl : (gather rs).literal? cs with
    | some m =>
      rw [hl] at h
      cases h
      exact takes_of_literal? hl
    | none =>
      rw [hl] at h
      obtain ⟨⟨f, r'⟩, hp, hm⟩ := Option.map_eq_some_iff.mp h
      cases hm
      exact takes_of_pattern? hl hp
  · intro h
    cases h with
    | literal hnext hlast hlongest =>
      rw [literal?_gather_eq_some_iff.mpr ⟨_, rfl, hnext, hlast, hlongest⟩]
    | @pattern before after p _ f hnone hrs hf hpos hfirst =>
      have hmatched : rs.findSome? (matched? cs) = some (f, r) := by
        refine List.findSome?_eq_some_iff.mpr
          ⟨before, _, after, hrs, matched?_eq_some_iff.mpr ⟨p, rfl, hf, hpos⟩, fun rule hrule => ?_⟩
        refine matched?_eq_none_iff.mpr fun p' r' f' he hf' => ?_
        exact hfirst p' r' f' (he ▸ hrule) hf'
      rw [literal?_gather_eq_none.mpr hnone, pattern?_gather, hmatched]
      rfl

/-- Nothing is taken past the end. -/
theorem le_of_takes {group? : Nat → Option String} (h : Takes rs cs n r group?) : n ≤ cs.length := by
  cases h with
  | literal next => exact length_le_of_next next
  | pattern _ _ found => exact Pattern.Program.consumed_find? found

/-! ## What the order of rules means -/

/-- Two maps hold the same: the same patterns in the same order, and the same under each literal. -/
structure Alike (rules rules' : Rules) : Prop where
  grouped : Grouped rules.literals
  grouped' : Grouped rules'.literals
  patterns : rules.patterns = rules'.patterns
  literals : ∀ s, replacement? s rules.literals = replacement? s rules'.literals

theorem Alike.insert (h : Alike rules rules') (rule : Rule) : Alike (rules.insert rule) (rules'.insert rule) where
  grouped := h.grouped.insert rule
  grouped' := h.grouped'.insert rule
  patterns := by
    cases rule with
    | literal s r => exact h.patterns
    | pattern p r => exact congrArg (· ++ [(p, r)]) h.patterns
  literals := by
    intro s
    cases rule with
    | literal s' r =>
      show replacement? s (addLiteral s' r _) = replacement? s (addLiteral s' r _)
      rw [replacement?_addLiteral h.grouped, replacement?_addLiteral h.grouped', h.literals s]
    | pattern p r => exact h.literals s

/-- Rules that may change places can be added in either order. -/
theorem Alike.of_independent {a b : Rule} (hg : Grouped rules.literals) (h : Independent a b) :
    Alike ((rules.insert a).insert b) ((rules.insert b).insert a) where
  grouped := (hg.insert a).insert b
  grouped' := (hg.insert b).insert a
  patterns := by cases h <;> rfl
  literals := by
    intro s
    cases h with
    | @literals s₁ s₂ r r' hne =>
      show replacement? s (addLiteral s₂ r' (addLiteral s₁ r rules.literals))
        = replacement? s (addLiteral s₁ r (addLiteral s₂ r' rules.literals))
      rw [replacement?_addLiteral hg.addLiteral, replacement?_addLiteral hg, replacement?_addLiteral hg.addLiteral,
        replacement?_addLiteral hg]
      by_cases h₁ : s₁ = s
      · rw [if_pos h₁, if_pos h₁, if_neg fun h₂ => hne (h₁.trans h₂.symm)]
      · rw [if_neg h₁, if_neg h₁]
    | behind => rfl
    | before => rfl

theorem Alike.gather (h : Swapped rs rs') : Alike (gather rs) (gather rs') := by
  obtain ⟨before, a, b, after, hab, rfl, rfl⟩ := h
  unfold Rules.gather
  rw [List.foldl_append, List.foldl_append]
  have hstart : Alike ((a :: b :: []).foldl Rules.insert (before.foldl Rules.insert none))
      ((b :: a :: []).foldl Rules.insert (before.foldl Rules.insert none)) :=
    .of_independent (grouped_gather before) hab
  show Alike (after.foldl Rules.insert _) (after.foldl Rules.insert _)
  induction after using List.reverseRecOn with
  | nil => exact hstart
  | append_singleton after rule ih =>
    rw [List.foldl_concat, List.foldl_concat]
    exact ih.insert rule

theorem Alike.literal? (h : Alike rules rules') (cs : List Char) : rules.literal? cs = rules'.literal? cs := by
  refine Option.ext fun m => ?_
  show literalIn cs rules.literals = some (m.1, m.2) ↔ literalIn cs rules'.literals = some (m.1, m.2)
  rw [literalIn_eq_some_iff h.grouped, literalIn_eq_some_iff h.grouped']
  simp only [h.literals]

/-- Neighbours that may change places do so without any effect on what is chosen. -/
theorem choose?_of_swapped (h : Swapped rs rs') (cs : List Char) :
    (gather rs).choose? cs = (gather rs').choose? cs := by
  have halike := Alike.gather h
  unfold choose? pattern?
  rw [halike.literal? cs, halike.patterns]

end Rules

end Stencil
