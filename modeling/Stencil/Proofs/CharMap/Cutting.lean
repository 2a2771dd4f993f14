/-
  A character map cuts a text from the left.

  What a map with texts as targets does is said without the map: `Cut` and `Stuck` follow the rules as they are
  declared, piece by piece.  Either the rules take what comes next until nothing is left, and the outcome is what
  the pieces are replaced by, put together; or some piece cannot be taken, and the outcome names the number of
  characters before it.

    1. **One outcome** — what comes next is taken in one way only, so a text is cut in one way or stuck at one
       place, never both (`Cut.unique`, `Stuck.unique`, `Stuck.not_cut`).
    2. **The run** — by induction on the steps that are allowed.  Every rule takes something, if no literal is
       empty, so as many steps as there are characters are enough (`piecesFrom_cuts`).
    3. **The order of rules** — what is taken is the same behind each change of neighbours
       (`choose?_of_swapped`), so the same texts are cut into the same pieces.
-/
import Mathlib
import Stencil.Proofs.Action
import Stencil.Proofs.CharMap.Choice

set_option autoImplicit false

namespace Stencil.CharMap

open Relation (ReflTransGen)
open Rule (Declared Takes Swapped)
open Rules (gather choose?_eq_some_iff)

variable {rs rs' : List Rule} {cs : List Char} {n n' k k' : Nat} {r r' : Replacement}
  {group? group?' : Nat → Option String} {pieces pieces' : List String} {read : String → Except Error String}
  {m : CharMap}

/-- No literal is empty, and all targets are texts. -/
structure Plain (rs : List Rule) : Prop where
  nonempty : ∀ r, .literal "" r ∉ rs
  texts : ∀ rule ∈ rs, ∃ template, rule.target = .text template

/-- The rest of a text is cut from the left, and these texts replace the pieces. -/
inductive Cut (rs : List Rule) : List Char → List String → Prop
  | done : Cut rs [] []
  | piece {cs : List Char} {n : Nat} {template : String} {group? : Nat → Option String} {pieces : List String}
      (next : cs ≠ []) (takes : Takes rs cs n (.text template) group?) (rest : Cut rs (cs.drop n) pieces) :
      Cut rs cs (substitute template group? :: pieces)

/-- Behind so many characters of the rest of a text, the rules take nothing of what comes next. -/
inductive Stuck (rs : List Rule) : List Char → Nat → Prop
  | here {cs : List Char} (next : cs ≠ []) (untaken : ∀ n r group?, ¬ Takes rs cs n r group?) : Stuck rs cs 0
  | later {cs : List Char} {n k : Nat} {r : Replacement} {group? : Nat → Option String} (next : cs ≠ [])
      (takes : Takes rs cs n r group?) (rest : Stuck rs (cs.drop n) k) : Stuck rs cs (n + k)

/-! ## One outcome -/

theorem takes_unique (h : Takes rs cs n r group?) (h' : Takes rs cs n' r' group?') :
    n = n' ∧ r = r' ∧ group? = group?' := by
  have heq := (choose?_eq_some_iff.mpr h).symm.trans (choose?_eq_some_iff.mpr h')
  cases heq
  exact ⟨rfl, rfl, rfl⟩

theorem Cut.unique (h : Cut rs cs pieces) (h' : Cut rs cs pieces') : pieces = pieces' := by
  induction h generalizing pieces' with
  | done =>
    cases h' with
    | done => rfl
    | piece next => exact absurd rfl next
  | piece next takes _ ih =>
    cases h' with
    | done => exact absurd rfl next
    | piece _ takes' rest' =>
      obtain ⟨rfl, hr, rfl⟩ := takes_unique takes takes'
      cases hr
      rw [ih rest']

theorem Stuck.unique (h : Stuck rs cs k) (h' : Stuck rs cs k') : k = k' := by
  induction h generalizing k' with
  | here _ untaken =>
    cases h' with
    | here => rfl
    | later _ takes => exact absurd takes (untaken _ _ _)
  | later _ takes _ ih =>
    cases h' with
    | here _ untaken => exact absurd takes (untaken _ _ _)
    | later _ takes' rest' =>
      obtain ⟨rfl, -, -⟩ := takes_unique takes takes'
      rw [ih rest']

theorem Stuck.not_cut (h : Stuck rs cs k) : ¬ Cut rs cs pieces := by
  induction h generalizing pieces with
  | here next untaken =>
    intro hcut
    cases hcut with
    | done => exact next rfl
    | piece _ takes => exact untaken _ _ _ takes
  | later next takes _ ih =>
    intro hcut
    cases hcut with
    | done => exact next rfl
    | piece _ takes' rest' =>
      obtain ⟨rfl, -, -⟩ := takes_unique takes takes'
      exact ih rest'

/-! ## The run -/

/-- A step replaces what is chosen. -/
theorem step_eq (read : String → Except Error String) (cs : List Char) (m : CharMap) :
    step read cs m = match m.rules.choose? cs with
      | some (n, r, group?) => (do return some (n, ← replace read r group?) : Action CharMap _) m
      | none => .ok none m := by
  unfold step Rules.choose?
  rw [Action.get_bind]
  cases m.rules.literal? cs with
  | some l => rfl
  | none =>
    cases m.rules.pattern? cs with
    | some p => rfl
    | none => rfl

/-- Without an empty literal, whatever is taken is something. -/
theorem pos_of_takes (hempty : ∀ r, .literal "" r ∉ rs) (h : Takes rs cs n r group?) : 0 < n := by
  cases h with
  | @literal s _ _ last =>
    rw [Nat.pos_iff_ne_zero]
    intro h
    rw [String.length_eq_zero_iff.mp h] at last
    exact hempty r (Rules.mem_of_replaces last)
  | pattern _ _ _ something => exact something

theorem target_of_takes (h : Takes rs cs n r group?) : ∃ rule ∈ rs, rule.target = r := by
  cases h with
  | literal _ last => exact ⟨_, Rules.mem_of_replaces last, rfl⟩
  | pattern _ rule => exact ⟨_, by rw [rule]; exact List.mem_append_right _ List.mem_cons_self, rfl⟩

/-- The text is cut to its end, or the run stops at the place where it is stuck. -/
theorem piecesFrom_cuts (hrules : m.rules = gather rs) (hplain : Plain rs) (read : String → Except Error String)
    (input : String) (fuel position : Nat) (hfuel : cs.length ≤ fuel) :
    (∃ pieces, Cut rs cs pieces ∧ piecesFrom read input fuel position cs m = .ok pieces m)
      ∨ ∃ k, Stuck rs cs k ∧ piecesFrom read input fuel position cs m
          = .error (.of (.untransformed "no rule matches" (position + k) input)) m := by
  induction fuel generalizing position cs with
  | zero =>
    obtain rfl := List.eq_nil_of_length_eq_zero (Nat.le_zero.mp hfuel)
    exact .inl ⟨[], .done, rfl⟩
  | succ fuel ih =>
    cases cs with
    | nil => exact .inl ⟨[], .done, rfl⟩
    | cons c cs =>
      have hnext : c :: cs ≠ [] := List.cons_ne_nil c cs
      have hstep := step_eq read (c :: cs) m
      rw [piecesFrom]
      cases hchoose : m.rules.choose? (c :: cs) with
      | none =>
        rw [hchoose] at hstep
        refine .inr ⟨0, .here hnext fun n r group? htakes => ?_, ?_⟩
        · rw [hrules, choose?_eq_some_iff.mpr htakes] at hchoose
          cases hchoose
        · rw [Action.bind_of_ok hstep]
          rfl
      | some taken =>
        obtain ⟨n, r, group?⟩ := taken
        rw [hrules] at hchoose
        have htakes := choose?_eq_some_iff.mp hchoose
        obtain ⟨rule, hrule, htarget⟩ := target_of_takes htakes
        obtain ⟨template, htemplate⟩ := hplain.texts rule hrule
        obtain rfl := htarget.symm.trans htemplate
        rw [hrules, hchoose] at hstep
        have hdone : step read (c :: cs) m = .ok (some (n, substitute template group?)) m := hstep
        have hpos := pos_of_takes hplain.nonempty htakes
        have hrest : ((c :: cs).drop n).length ≤ fuel := by
          rw [List.length_drop]
          omega
        rw [Action.bind_of_ok hdone]
        rcases ih (position + n) hrest with ⟨pieces, hcut, hrun⟩ | ⟨k, hstuck, hrun⟩
        · refine .inl ⟨_, .piece hnext htakes hcut, ?_⟩
          dsimp only
          rw [Action.bind_of_ok hrun]
          rfl
        · refine .inr ⟨n + k, .later hnext htakes hstuck, ?_⟩
          dsimp only
          rw [Action.bind_of_error hrun, Nat.add_assoc]

theorem transform_cuts (hplain : Plain rs) (read : String → Except Error String) (input : String) :
    (∃ pieces, Cut rs input.toList pieces
        ∧ transform read input (.ofRules (gather rs)) = .ok (String.join pieces) (.ofRules (gather rs)))
      ∨ ∃ k, Stuck rs input.toList k ∧ transform read input (.ofRules (gather rs))
          = .error (.of (.untransformed "no rule matches" k input)) (.ofRules (gather rs)) := by
  have hrules : (CharMap.ofRules (gather rs)).rules = gather rs := rfl
  have hfuel : input.toList.length ≤ input.length := Nat.le_of_eq String.length_toList
  unfold transform
  rcases piecesFrom_cuts hrules hplain read input input.length 0 hfuel with
    ⟨pieces, hcut, hrun⟩ | ⟨k, hstuck, hrun⟩
  · refine .inl ⟨pieces, hcut, ?_⟩
    rw [Action.bind_of_ok hrun]
    rfl
  · refine .inr ⟨k, hstuck, ?_⟩
    rw [Action.bind_of_error hrun, Nat.zero_add]

theorem transform_eq_ok (hplain : Plain rs) {input out : String} :
    transform read input (.ofRules (gather rs)) = .ok out m
      ↔ m = .ofRules (gather rs) ∧ ∃ pieces, Cut rs input.toList pieces ∧ out = String.join pieces := by
  rcases transform_cuts hplain read input with ⟨pieces, hcut, hrun⟩ | ⟨k, hstuck, hrun⟩
  · rw [hrun]
    constructor
    · rintro ⟨⟩
      exact ⟨rfl, pieces, hcut, rfl⟩
    · rintro ⟨rfl, pieces', hcut', rfl⟩
      rw [hcut.unique hcut']
  · rw [hrun]
    constructor
    · rintro ⟨⟩
    · rintro ⟨-, pieces, hcut, -⟩
      exact absurd hcut hstuck.not_cut

theorem transform_eq_error (hplain : Plain rs) {input : String} {e : Error} :
    transform read input (.ofRules (gather rs)) = .error e m
      ↔ m = .ofRules (gather rs)
        ∧ ∃ k, Stuck rs input.toList k ∧ e = .of (.untransformed "no rule matches" k input) := by
  rcases transform_cuts hplain read input with ⟨pieces, hcut, hrun⟩ | ⟨k, hstuck, hrun⟩
  · rw [hrun]
    constructor
    · rintro ⟨⟩
    · rintro ⟨-, k, hstuck, -⟩
      exact absurd hcut hstuck.not_cut
  · rw [hrun]
    constructor
    · rintro ⟨⟩
      exact ⟨rfl, k, hstuck, rfl⟩
    · rintro ⟨rfl, k', hstuck', rfl⟩
      rw [hstuck.unique hstuck']

/-! ## The order of rules -/

theorem Cut.congr (h : ∀ cs n r group?, Takes rs cs n r group? → Takes rs' cs n r group?)
    (hcut : Cut rs cs pieces) : Cut rs' cs pieces := by
  induction hcut with
  | done => exact .done
  | piece next takes _ ih => exact .piece next (h _ _ _ _ takes) ih

theorem Stuck.congr (h : ∀ cs n r group?, Takes rs cs n r group? ↔ Takes rs' cs n r group?)
    (hstuck : Stuck rs cs k) : Stuck rs' cs k := by
  induction hstuck with
  | here next untaken => exact .here next fun n r group? htakes => untaken n r group? ((h _ _ _ _).mpr htakes)
  | later next takes _ ih => exact .later next ((h _ _ _ _).mp takes) ih

theorem takes_of_reordered (h : ReflTransGen Swapped rs rs') (cs : List Char) (n : Nat) (r : Replacement)
    (group? : Nat → Option String) : Takes rs cs n r group? ↔ Takes rs' cs n r group? := by
  induction h with
  | refl => exact Iff.rfl
  | tail _ hswap ih =>
    rw [ih, ← choose?_eq_some_iff, ← choose?_eq_some_iff, Rules.choose?_of_swapped hswap]

theorem mem_of_reordered (h : ReflTransGen Swapped rs rs') {rule : Rule} : rule ∈ rs ↔ rule ∈ rs' := by
  induction h with
  | refl => exact Iff.rfl
  | tail _ hswap ih =>
    obtain ⟨before, a, b, after, -, rfl, rfl⟩ := hswap
    rw [ih]
    simp only [List.mem_append, List.mem_cons]
    tauto

theorem Plain.reordered (h : Plain rs) (hreordered : ReflTransGen Swapped rs rs') : Plain rs' where
  nonempty := fun r hr => h.nonempty r ((mem_of_reordered hreordered).mpr hr)
  texts := fun rule hrule => h.texts rule ((mem_of_reordered hreordered).mpr hrule)

theorem outcome_of_reordered (hplain : Plain rs) (hreordered : ReflTransGen Swapped rs rs')
    (read : String → Except Error String) (input : String) :
    (Action.outcome (transform read input) (.ofRules (gather rs'))).1
      = (Action.outcome (transform read input) (.ofRules (gather rs))).1 := by
  have htakes := takes_of_reordered hreordered
  rcases transform_cuts hplain read input with ⟨pieces, hcut, hrun⟩ | ⟨k, hstuck, hrun⟩
  · have hcut' := hcut.congr fun cs n r group? => (htakes cs n r group?).mp
    have hrun' : transform read input (.ofRules (gather rs')) = .ok _ _ :=
      (transform_eq_ok (hplain.reordered hreordered)).mpr ⟨rfl, pieces, hcut', rfl⟩
    rw [Action.outcome_of_ok hrun, Action.outcome_of_ok hrun']
  · have hrun' : transform read input (.ofRules (gather rs')) = .error _ _ :=
      (transform_eq_error (hplain.reordered hreordered)).mpr ⟨rfl, k, hstuck.congr htakes, rfl⟩
    rw [Action.outcome_of_error hrun, Action.outcome_of_error hrun']

/-- A map whose rules replace literals that are not empty, and what patterns match, by texts.  A text is cut from
    the left, each time by the longest literal that comes next or, where none does, by the first pattern that
    matches something there.  If it can be cut to its end, the outcome is what the pieces are replaced by, one
    behind the other, else a failure that names the number of characters before the place where nothing matches.
    The order of rules makes no difference, except between patterns and between rules for one literal. -/
theorem transform_longest_match {map : Element} (hdeclared : Declared map rs) (hplain : Plain rs) :
    ∃ rules, Rules.ofElement map = .ok rules
      ∧ (∀ read input,
          (∀ out m, transform read input (.ofRules rules) = .ok out m
              ↔ m = .ofRules rules ∧ ∃ pieces, Cut rs input.toList pieces ∧ out = String.join pieces)
            ∧ ∀ e m, transform read input (.ofRules rules) = .error e m
              ↔ m = .ofRules rules
                ∧ ∃ k, Stuck rs input.toList k ∧ e = .of (.untransformed "no rule matches" k input))
      ∧ ∀ map' rs', Declared map' rs' → ReflTransGen Swapped rs rs' →
          ∃ rules', Rules.ofElement map' = .ok rules' ∧ ∀ read input,
            (Action.outcome (transform read input) (.ofRules rules')).1
              = (Action.outcome (transform read input) (.ofRules rules)).1 := by
  refine ⟨gather rs, Rules.ofElement_eq_ok.mpr ⟨rs, hdeclared, rfl⟩, fun read input => ⟨?_, ?_⟩, ?_⟩
  · exact fun out m => transform_eq_ok hplain
  · exact fun e m => transform_eq_error hplain
  · intro map' rs' hdeclared' hreordered
    exact ⟨gather rs', Rules.ofElement_eq_ok.mpr ⟨rs', hdeclared', rfl⟩,
      outcome_of_reordered hplain hreordered⟩

/-- Of two literals that begin alike the longer one is taken where it comes next, wherever it is declared, and what
    no literal begins is left to the pattern. -/
theorem transform_longest_match_of_overlap :
    let a : Element := .mk "map" [("from", "a"), ("to", "1")] "" .none []
    let c : Element := .mk "map" [("from-regex", "c"), ("to", "(\x7b0\x7d)")] "" .none []
    let ab : Element := .mk "map" [("from", "ab"), ("to", "2")] "" .none []
    ∃ rules rules', Rules.ofElement (.mk "transform" [] "" .none [a, c, ab]) = .ok rules
      ∧ Rules.ofElement (.mk "transform" [] "" .none [a, ab, c]) = .ok rules'
      ∧ ∀ read, transform read "abac" (.ofRules rules) = .ok "21(c)" (.ofRules rules)
        ∧ (Action.outcome (transform read "abac") (.ofRules rules')).1 = .ok "21(c)" := by
  intro a c ab
  let p : Pattern := .sequence (.edge .textStart) (.text ['c'])
  let rs : List Rule := [.literal "a" (.text "1"), .pattern p.program (.text "(\x7b0\x7d)"), .literal "ab" (.text "2")]
  have ha : Rule.Declares a (.literal "a" (.text "1")) := .literal rfl (.text rfl)
  have hparse : Pattern.parse ("^(?:" ++ "c" ++ ")") = .ok p := by cbv
  have hc : Rule.Declares c (.pattern p.program (.text "(\x7b0\x7d)")) := .pattern rfl rfl hparse (.text rfl)
  have hab : Rule.Declares ab (.literal "ab" (.text "2")) := .literal rfl (.text rfl)
  have hplain : Plain rs := by
    refine ⟨fun r hr => ?_, fun rule hrule => ?_⟩
    · simp [rs] at hr
    · simp only [rs, List.mem_cons, List.not_mem_nil, or_false] at hrule
      rcases hrule with rfl | rfl | rfl <;> exact ⟨_, rfl⟩
  have hdeclared : Declared (.mk "transform" [] "" .none [a, c, ab]) rs := .cons ha (.cons hc (.cons hab .nil))
  obtain ⟨rules, hrules, hrun, hreordered⟩ := transform_longest_match hdeclared hplain
  have hswapped : Swapped rs
      [.literal "a" (.text "1"), .literal "ab" (.text "2"), .pattern p.program (.text "(\x7b0\x7d)")] :=
    ⟨[.literal "a" (.text "1")], _, _, [], .before "ab" _ _ _, rfl, rfl⟩
  obtain ⟨rules', hrules', hsame⟩ := hreordered (.mk "transform" [] "" .none [a, ab, c]) _
    (.cons ha (.cons hab (.cons hc .nil))) (.single hswapped)
  -- the pieces are "ab", "a" and "c"
  have hlongest : (gather rs).literal? ['a', 'b', 'a', 'c'] = some (2, .text "2") := by decide +kernel
  have hshort : (gather rs).literal? ['a', 'c'] = some (1, .text "1") := by decide +kernel
  have hnone : (gather rs).literal? ['c'] = none := by decide +kernel
  have hmatch : (gather rs).pattern? ['c'] = some (⟨1, [(1, 1), (0, 0)], ['c']⟩, .text "(\x7b0\x7d)") := by
    decide +kernel
  have hcut : Cut rs ['a', 'b', 'a', 'c'] ["2", "1", "(c)"] :=
    .piece (List.cons_ne_nil _ _) (Rules.takes_of_literal? hlongest)
      (.piece (List.cons_ne_nil _ _) (Rules.takes_of_literal? hshort)
        (.piece (List.cons_ne_nil _ _) (Rules.takes_of_pattern? hnone hmatch) .done))
  refine ⟨rules, rules', hrules, hrules', fun read => ?_⟩
  have hok := ((hrun read "abac").1 "21(c)" (.ofRules rules)).mpr ⟨rfl, _, hcut, rfl⟩
  exact ⟨hok, by rw [hsame read "abac", Action.outcome_of_ok hok]⟩

end Stencil.CharMap
