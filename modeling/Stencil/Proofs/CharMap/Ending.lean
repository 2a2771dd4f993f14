/-
  When a character map comes to an end.

  `transform` is allowed as many steps as there are characters.  Here the allowance is gone: `Ends` is a run with
  the number of its steps, and where no such number fits, the map goes on for ever.

    1. **A step that takes nothing is taken again** — it leaves the rules alone and the rest of the text too, and
       the file that it may have read is kept (`step_again`).
    2. **Nothing else goes on** — each step that takes something leaves less.  So a run ends if and only if it
       comes to no place where a step takes nothing (`ends_iff`), and it has no more steps than there are
       characters (`Ends.le`).
    3. **Which rules do that** — a pattern takes something or is passed over, but a literal is not asked how long
       it is: the empty one is taken wherever no other literal comes next (`stalls_iff`).
-/
import Stencil.Proofs.CharMap.Cutting

set_option autoImplicit false

namespace Stencil.CharMap

open Relation (ReflTransGen)
open Rule (Declared Replaces Takes)
open Rules (gather choose?_eq_some_iff)

variable {rs : List Rule} {cs cs' : List Char} {n position k fuel : Nat} {piece input : String}
  {read : String → Except Error String} {m m' : CharMap} {outcome : Except Error (List String)}

/-- A rest of a text, and the map as it has become. -/
abbrev Rest := List Char × CharMap

variable {place place' : Rest}

/-- A step takes something or nothing of a rest, and leaves another one. -/
def Goes (read : String → Except Error String) (place place' : Rest) : Prop :=
  place.1 ≠ [] ∧ ∃ n piece, step read place.1 place.2 = .ok (some (n, piece)) place'.2 ∧ place'.1 = place.1.drop n

/-- A step succeeds on a rest and takes nothing of it. -/
def Stalls (read : String → Except Error String) (place : Rest) : Prop :=
  place.1 ≠ [] ∧ ∃ piece m', step read place.1 place.2 = .ok (some (0, piece)) m'

/-- A run ends after so many steps, with this outcome and the map as it is then. -/
inductive Ends (read : String → Except Error String) (input : String) :
    Nat → List Char → CharMap → Nat → Except Error (List String) → CharMap → Prop
  | done {position : Nat} {m : CharMap} : Ends read input position [] m 0 (.ok []) m
  | fails {position : Nat} {cs : List Char} {m m' : CharMap} {e : Error} (next : cs ≠ [])
      (fails : step read cs m = .error e m') : Ends read input position cs m 1 (.error e) m'
  | unmatched {position : Nat} {cs : List Char} {m m' : CharMap} (next : cs ≠ [])
      (nothing : step read cs m = .ok none m') :
      Ends read input position cs m 1 (.error (.of (.untransformed "no rule matches" position input))) m'
  | goes {position n k : Nat} {cs : List Char} {m m' m'' : CharMap} {piece : String}
      {outcome : Except Error (List String)} (next : cs ≠ []) (takes : step read cs m = .ok (some (n, piece)) m')
      (rest : Ends read input (position + n) (cs.drop n) m' k outcome m'') :
      Ends read input position cs m (k + 1) ((piece :: ·) <$> outcome) m''

theorem Ends.onward {m'' : CharMap} {pieces : List String} (next : cs ≠ [])
    (takes : step read cs m = .ok (some (n, piece)) m')
    (rest : Ends read input (position + n) (cs.drop n) m' k (.ok pieces) m'') :
    Ends read input position cs m (k + 1) (.ok (piece :: pieces)) m'' := .goes next takes rest

/-! ## A step that takes nothing is taken again -/

/-- A replacement is the same the second time: the file has been kept. -/
theorem replace_again {r : Replacement} {group? : Nat → Option String} {text : String}
    (h : replace read r group? m = .ok text m') :
    m'.rules = m.rules ∧ replace read r group? m' = .ok text m' := by
  cases r with
  | text template =>
    obtain ⟨rfl, rfl⟩ := Action.pure_eq_ok.mp h
    exact ⟨rfl, rfl⟩
  | file template =>
    unfold replace at h ⊢
    dsimp only at h ⊢
    rw [Action.get_bind] at h ⊢
    cases hkept : m.texts.get? (substitute template group?) with
    | some kept =>
      rw [hkept] at h
      obtain ⟨rfl, rfl⟩ := Action.pure_eq_ok.mp h
      rw [hkept]
      exact ⟨rfl, rfl⟩
    | none =>
      rw [hkept] at h
      obtain ⟨contents, -, h⟩ := Action.ofExcept_bind_eq_ok.mp h
      rw [Action.modify_bind] at h
      obtain ⟨rfl, rfl⟩ := Action.pure_eq_ok.mp h
      dsimp only
      rw [Entries.get?_insert, if_pos rfl]
      exact ⟨rfl, rfl⟩

/-- What a successful step has done. -/
theorem step_eq_some :
    step read cs m = .ok (some (n, piece)) m'
      ↔ ∃ r group?, m.rules.choose? cs = some (n, r, group?) ∧ replace read r group? m = .ok piece m' := by
  rw [step_eq]
  constructor
  · intro h
    cases hchoose : m.rules.choose? cs with
    | none => rw [hchoose] at h; cases h
    | some taken =>
      obtain ⟨n', r, group?⟩ := taken
      rw [hchoose] at h
      obtain ⟨text, m₁, hreplace, h⟩ := Action.bind_eq_ok.mp h
      obtain ⟨heq, rfl⟩ := Action.pure_eq_ok.mp h
      cases heq
      exact ⟨r, group?, rfl, hreplace⟩
  · rintro ⟨r, group?, hchoose, hreplace⟩
    rw [hchoose]
    dsimp only
    rw [Action.bind_of_ok hreplace]
    rfl

theorem step_of_literal {template : String} (h : m.rules.literal? cs = some (n, .text template))
    (hpiece : substitute template (fun _ => none) = piece) : step read cs m = .ok (some (n, piece)) m := by
  unfold step
  rw [Action.get_bind, h, ← hpiece]
  rfl

theorem rules_of_step (h : step read cs m = .ok (some (n, piece)) m') : m'.rules = m.rules := by
  obtain ⟨r, group?, -, hreplace⟩ := step_eq_some.mp h
  exact (replace_again hreplace).1

theorem step_again (h : step read cs m = .ok (some (n, piece)) m') :
    step read cs m' = .ok (some (n, piece)) m' := by
  obtain ⟨r, group?, hchoose, hreplace⟩ := step_eq_some.mp h
  obtain ⟨hrules, hagain⟩ := replace_again hreplace
  exact step_eq_some.mpr ⟨r, group?, by rw [hrules, hchoose], hagain⟩

theorem rules_of_goes (h : ReflTransGen (Goes read) place place') : place'.2.rules = place.2.rules := by
  induction h with
  | refl => rfl
  | tail _ hgoes ih =>
    obtain ⟨-, n, piece, hstep, -⟩ := hgoes
    rw [rules_of_step hstep, ih]

/-! ## Nothing else goes on -/

theorem Goes.unique {place₁ place₂ : Rest} (h₁ : Goes read place place₁) (h₂ : Goes read place place₂) :
    place₁ = place₂ := by
  obtain ⟨-, n₁, piece₁, hstep₁, hrest₁⟩ := h₁
  obtain ⟨-, n₂, piece₂, hstep₂, hrest₂⟩ := h₂
  have heq := hstep₁.symm.trans hstep₂
  injection heq with hvalue hmap
  cases hvalue
  exact Prod.ext (hrest₁.trans hrest₂.symm) hmap

/-- Where no step takes anything, a run goes nowhere. -/
theorem not_stalls_of_stop (hstop : ∀ n piece m', step read cs m ≠ .ok (some (n, piece)) m')
    (hgoes : ReflTransGen (Goes read) (cs, m) place) : ¬ Stalls read place := by
  rcases hgoes.cases_head with rfl | ⟨_, ⟨-, n, piece, htakes, -⟩, -⟩
  · rintro ⟨-, piece, m', htakes⟩
    exact hstop 0 piece m' htakes
  · exact absurd htakes (hstop n piece _)

/-- A run that ends has no step that takes nothing: behind it the run would stand at the same place. -/
theorem Ends.not_stalls {m'' : CharMap} (h : Ends read input position cs m k outcome m'')
    (hgoes : ReflTransGen (Goes read) (cs, m) place) : ¬ Stalls read place := by
  induction h generalizing place with
  | done =>
    rcases hgoes.cases_head with rfl | ⟨_, hstep, -⟩
    · exact fun hstalls => hstalls.1 rfl
    · exact absurd rfl hstep.1
  | fails _ hfails =>
    refine not_stalls_of_stop (fun n piece m' htakes => ?_) hgoes
    cases hfails.symm.trans htakes
  | unmatched _ hnothing =>
    refine not_stalls_of_stop (fun n piece m' htakes => ?_) hgoes
    cases hnothing.symm.trans htakes
  | @goes position n k cs m m' m'' piece outcome hnext htakes _ ih =>
    rcases hgoes.cases_head with rfl | ⟨place₁, hfirst, hlater⟩
    · -- what takes nothing here takes nothing in what is left, and that run ends, too
      rintro ⟨-, piece', m₁, hzero⟩
      cases htakes.symm.trans hzero
      exact ih .refl ⟨hnext, piece, m', step_again htakes⟩
    · have hnextPlace : Goes read (cs, m) (cs.drop n, m') := ⟨hnext, n, piece, htakes, rfl⟩
      rw [hfirst.unique hnextPlace] at hlater
      exact ih hlater

/-- As long as each step takes something, there is less and less left. -/
theorem exists_ends (read : String → Except Error String) (input : String) (position : Nat) (cs : List Char)
    (m : CharMap) (h : ∀ place, ReflTransGen (Goes read) (cs, m) place → ¬ Stalls read place) :
    ∃ k outcome m', Ends read input position cs m k outcome m' := by
  by_cases hnext : cs = []
  · subst hnext
    exact ⟨0, .ok [], m, .done⟩
  · cases hstep : step read cs m with
    | error e m' => exact ⟨1, .error e, m', .fails hnext hstep⟩
    | ok taken m' =>
      cases taken with
      | none => exact ⟨1, _, m', .unmatched hnext hstep⟩
      | some taken =>
        obtain ⟨n, piece⟩ := taken
        -- the run has come to this place, so the step takes something, and less is left
        have hpos : n ≠ 0 := by
          rintro rfl
          exact h _ .refl ⟨hnext, piece, m', hstep⟩
        have hshorter : (cs.drop n).length < cs.length := by
          have := List.length_pos_iff.mpr hnext
          rw [List.length_drop]
          omega
        obtain ⟨k, outcome, m'', hrest⟩ := exists_ends read input (position + n) (cs.drop n) m'
          fun place hplace => h place (.head ⟨hnext, n, piece, hstep, rfl⟩ hplace)
        exact ⟨k + 1, _, m'', .goes hnext hstep hrest⟩
termination_by cs.length

theorem ends_iff :
    (∃ k outcome m', Ends read input position cs m k outcome m')
      ↔ ∀ place, ReflTransGen (Goes read) (cs, m) place → ¬ Stalls read place := by
  constructor
  · rintro ⟨k, outcome, m', h⟩ place hgoes
    exact h.not_stalls hgoes
  · exact exists_ends read input position cs m

theorem Ends.le (h : Ends read input position cs m k outcome m') : k ≤ cs.length := by
  induction h with
  | done => exact Nat.zero_le _
  | fails next => exact List.length_pos_iff.mpr next
  | unmatched next => exact List.length_pos_iff.mpr next
  | @goes position n k cs m m' m'' piece outcome hnext htakes hrest ih =>
    -- a step that takes nothing would be taken again in the rest of the run, which ends
    have hpos : n ≠ 0 := by
      rintro rfl
      exact hrest.not_stalls .refl ⟨hnext, piece, m', step_again htakes⟩
    have := List.length_pos_iff.mpr hnext
    rw [List.length_drop] at ih
    omega

/-- Allowed as many steps as it needs, a run comes to its end. -/
theorem Ends.piecesFrom (h : Ends read input position cs m k outcome m') (hfuel : k ≤ fuel) :
    Action.outcome (piecesFrom read input fuel position cs) m = (outcome, m') := by
  induction h generalizing fuel with
  | done =>
    cases fuel with
    | zero => rfl
    | succ => rfl
  | @fails position cs m m' e next hfails =>
    obtain ⟨fuel, rfl⟩ := Nat.exists_eq_add_one.mpr hfuel
    obtain ⟨c, cs, rfl⟩ := List.exists_cons_of_ne_nil next
    exact Action.outcome_of_error (Action.bind_of_error hfails)
  | @unmatched position cs m m' next hnothing =>
    obtain ⟨fuel, rfl⟩ := Nat.exists_eq_add_one.mpr hfuel
    obtain ⟨c, cs, rfl⟩ := List.exists_cons_of_ne_nil next
    exact Action.outcome_of_error (Action.bind_of_ok hnothing)
  | @goes position n k cs m m' m'' piece outcome next htakes _ ih =>
    obtain ⟨fuel, rfl⟩ := Nat.exists_eq_add_one.mpr (Nat.lt_of_lt_of_le (Nat.succ_pos k) hfuel)
    obtain ⟨c, cs, rfl⟩ := List.exists_cons_of_ne_nil next
    have hrest := ih (Nat.le_of_succ_le_succ hfuel)
    rw [CharMap.piecesFrom, Action.outcome_bind, Action.outcome_of_ok htakes]
    dsimp only
    rw [Action.outcome_bind, hrest]
    cases outcome with
    | ok pieces => rfl
    | error e => rfl

/-- A run that does not end uses up whatever it is allowed. -/
theorem piecesFrom_exhausted (h : ∀ k outcome m', ¬ Ends read input position cs m k outcome m') (fuel : Nat) :
    ∃ m', piecesFrom read input fuel position cs m = .error (.of .exhausted) m' := by
  induction fuel generalizing position cs m with
  | zero =>
    cases cs with
    | nil => exact absurd .done (h _ _ _)
    | cons c cs => exact ⟨m, rfl⟩
  | succ fuel ih =>
    cases cs with
    | nil => exact absurd .done (h _ _ _)
    | cons c cs =>
      have hnext : c :: cs ≠ [] := List.cons_ne_nil c cs
      rw [piecesFrom]
      cases hstep : step read (c :: cs) m with
      | error e m' => exact absurd (.fails hnext hstep) (h _ _ _)
      | ok taken m' =>
        cases taken with
        | none => exact absurd (.unmatched hnext hstep) (h _ _ _)
        | some taken =>
          obtain ⟨n, piece⟩ := taken
          have hrest : ∀ k outcome m'', ¬ Ends read input (position + n) ((c :: cs).drop n) m' k outcome m'' :=
            fun k outcome m'' hends => h _ _ _ (.goes hnext hstep hends)
          obtain ⟨m'', hrest⟩ := ih hrest
          refine ⟨m'', ?_⟩
          rw [Action.bind_of_ok hstep]
          exact Action.bind_of_error hrest

/-- What a text is replaced by is what its run comes to. -/
theorem Ends.transform (h : Ends read input 0 input.toList m k outcome m') :
    Action.outcome (transform read input) m = (String.join <$> outcome, m') := by
  have hfuel : k ≤ input.length := Nat.le_trans h.le (Nat.le_of_eq String.length_toList)
  rw [CharMap.transform, Action.outcome_bind, h.piecesFrom hfuel]
  cases outcome with
  | ok pieces => rfl
  | error e => rfl

theorem transform_exhausted (h : ∀ k outcome m', ¬ Ends read input 0 input.toList m k outcome m') :
    ∃ m', CharMap.transform read input m = .error (.of .exhausted) m' := by
  obtain ⟨m', hrun⟩ := piecesFrom_exhausted h input.length
  exact ⟨m', Action.bind_of_error hrun⟩

/-! ## Which rules take nothing -/

/-- The empty literal is declared, and no other literal comes next. -/
theorem takes_zero {r : Replacement} {group? : Nat → Option String} (h : Takes rs cs 0 r group?) :
    Replaces rs "" r ∧ ∀ s r', .literal s r' ∈ rs → s.toList <+: cs → s = "" := by
  generalize hzero : 0 = n at h
  cases h with
  | @literal s _ _ last longest =>
    obtain rfl := String.length_eq_zero_iff.mp hzero.symm
    refine ⟨last, fun s r' hr hs => ?_⟩
    exact String.length_eq_zero_iff.mp (Nat.le_zero.mp (longest s r' hr hs))
  | pattern _ _ _ something => omega

theorem takes_empty {r : Replacement} (hlast : Replaces rs "" r)
    (hothers : ∀ s r', .literal s r' ∈ rs → s.toList <+: cs → s = "") : Takes rs cs 0 r fun _ => none := by
  have hnext : "".toList <+: cs := List.nil_prefix
  refine .literal hnext hlast fun s r' hr hs => ?_
  exact Nat.le_of_eq (congrArg String.length (hothers s r' hr hs))

theorem stalls_iff (hrules : m.rules = gather rs) :
    Stalls read (cs, m)
      ↔ cs ≠ [] ∧ (∀ s r, .literal s r ∈ rs → s.toList <+: cs → s = "")
        ∧ ∃ r piece m', Replaces rs "" r ∧ replace read r (fun _ => none) m = .ok piece m' := by
  constructor
  · rintro ⟨hnext, piece, m', hstep⟩
    obtain ⟨r, group?, hchoose, hreplace⟩ := step_eq_some.mp hstep
    rw [hrules] at hchoose
    have htakes := choose?_eq_some_iff.mp hchoose
    obtain ⟨hlast, hothers⟩ := takes_zero htakes
    obtain ⟨-, -, rfl⟩ := takes_unique htakes (takes_empty hlast hothers)
    exact ⟨hnext, hothers, r, piece, m', hlast, hreplace⟩
  · rintro ⟨hnext, hothers, r, piece, m', hlast, hreplace⟩
    refine ⟨hnext, piece, m', step_eq_some.mpr ⟨r, _, ?_, hreplace⟩⟩
    rw [hrules]
    exact choose?_eq_some_iff.mpr (takes_empty hlast hothers)

/-- Without an empty literal, no step takes nothing. -/
theorem not_stalls_of_nonempty (hrules : m.rules = gather rs) (hempty : ∀ r, .literal "" r ∉ rs) :
    ¬ Stalls read (cs, m) := by
  intro hstalls
  obtain ⟨-, -, r, -, -, hlast, -⟩ := (stalls_iff hrules).mp hstalls
  exact hempty r (Rules.mem_of_replaces hlast)

/-- The runs of a map, as the rules of its document say.  A step takes no more than there is, and it takes nothing
    if and only if the empty literal is declared, no other literal comes next, and the replacement can be had.  A
    run that comes to no such place ends, after no more steps than there are characters, and its outcome is the
    outcome of the map; one that does come there never ends.  So all runs of a map without an empty literal end. -/
theorem transform_ends_iff {map : Element} {rules : Rules} (hrules : Rules.ofElement map = .ok rules) :
    ∃ rs, Declared map rs
      ∧ (∀ read cs m, m.rules = rules →
          (∀ n piece m', step read cs m = .ok (some (n, piece)) m' → n ≤ cs.length ∧ m'.rules = rules)
          ∧ (Stalls read (cs, m)
              ↔ cs ≠ [] ∧ (∀ s r, .literal s r ∈ rs → s.toList <+: cs → s = "")
                ∧ ∃ r piece m', Replaces rs "" r ∧ replace read r (fun _ => none) m = .ok piece m'))
      ∧ ∀ read input,
          ((∃ k outcome m', Ends read input 0 input.toList (.ofRules rules) k outcome m')
              ↔ ∀ place, ReflTransGen (Goes read) (input.toList, .ofRules rules) place → ¬ Stalls read place)
          ∧ (∀ k outcome m', Ends read input 0 input.toList (.ofRules rules) k outcome m' → k ≤ input.length
              ∧ Action.outcome (CharMap.transform read input) (.ofRules rules) = (String.join <$> outcome, m'))
          ∧ ((∀ r, .literal "" r ∉ rs) →
              ∃ k outcome m', Ends read input 0 input.toList (.ofRules rules) k outcome m') := by
  obtain ⟨rs, hdeclared, rfl⟩ := Rules.ofElement_eq_ok.mp hrules
  refine ⟨rs, hdeclared, fun read cs m hm => ⟨fun n piece m' hstep => ?_, stalls_iff hm⟩,
    fun read input => ⟨ends_iff, ?_, ?_⟩⟩
  · obtain ⟨r, group?, hchoose, -⟩ := step_eq_some.mp hstep
    rw [hm] at hchoose
    exact ⟨Rules.le_of_takes (choose?_eq_some_iff.mp hchoose), (rules_of_step hstep).trans hm⟩
  · intro k outcome m' hends
    exact ⟨Nat.le_trans hends.le (Nat.le_of_eq String.length_toList), hends.transform⟩
  · intro hempty
    apply ends_iff.mpr
    intro place hgoes
    exact not_stalls_of_nonempty (rules_of_goes hgoes) hempty

/-- Next to another literal, the empty one is reached where that one does not come next: the run over `aa` ends,
    the run over `ab` does not. -/
theorem transform_ends_iff_of_two_literals :
    let a : Element := .mk "map" [("from", "a"), ("to", "1")] "" .none []
    let empty : Element := .mk "map" [("from", ""), ("to", "x")] "" .none []
    ∃ rules, Rules.ofElement (.mk "transform" [] "" .none [a, empty]) = .ok rules
      ∧ ∀ read, Action.outcome (CharMap.transform read "aa") (.ofRules rules) = (.ok "11", .ofRules rules)
        ∧ ∀ k outcome m', ¬ Ends read "ab" 0 "ab".toList (.ofRules rules) k outcome m' := by
  intro a empty
  let declared : List Rule := [.literal "a" (.text "1"), .literal "" (.text "x")]
  have ha : Rule.Declares a (.literal "a" (.text "1")) := .literal rfl (.text rfl)
  have hempty : Rule.Declares empty (.literal "" (.text "x")) := .literal rfl (.text rfl)
  have hrules : Rules.ofElement (.mk "transform" [] "" .none [a, empty]) = .ok (gather declared) :=
    Rules.ofElement_eq_ok.mpr ⟨declared, .cons ha (.cons hempty .nil), rfl⟩
  obtain ⟨rs, -, -, hrun⟩ := transform_ends_iff hrules
  have hone : substitute "1" (fun _ => none) = "1" := by decide +kernel
  have haa : (gather declared).literal? ['a', 'a'] = some (1, .text "1") := by decide +kernel
  have ha' : (gather declared).literal? ['a'] = some (1, .text "1") := by decide +kernel
  have hab : (gather declared).literal? ['a', 'b'] = some (1, .text "1") := by decide +kernel
  have hb : (gather declared).literal? ['b'] = some (0, .text "x") := by decide +kernel
  refine ⟨gather declared, hrules, fun read => ⟨?_, fun k outcome m' hends => ?_⟩⟩
  · have hends : Ends read "aa" 0 "aa".toList (.ofRules (gather declared)) 2 (.ok ["1", "1"])
        (.ofRules (gather declared)) :=
      .onward (List.cons_ne_nil _ _) (step_of_literal haa hone)
        (.onward (List.cons_ne_nil _ _) (step_of_literal ha' hone) .done)
    exact ((hrun read "aa").2.1 _ _ _ hends).2
  · have hgoes : Goes read ("ab".toList, .ofRules (gather declared)) (['b'], .ofRules (gather declared)) :=
      ⟨List.cons_ne_nil _ _, 1, "1", step_of_literal hab hone, rfl⟩
    have hstalls : Stalls read (['b'], .ofRules (gather declared)) :=
      ⟨List.cons_ne_nil _ _, "x", _, step_of_literal hb (by decide +kernel)⟩
    exact (hrun read "ab").1.mp ⟨k, outcome, m', hends⟩ _ (.single hgoes) hstalls

/-- A map may declare nothing but the empty literal.  Then a step on a rest that is not empty succeeds and takes
    nothing, and the run over a text of one character never ends: it uses up the steps that it is allowed. -/
theorem empty_literal_never_ends :
    let empty : Element := .mk "map" [("from", ""), ("to", "")] "" .none []
    ∃ rules, Rules.ofElement (.mk "transform" [] "" .none [empty]) = .ok rules
      ∧ ∀ read, step read ['a'] (.ofRules rules) = .ok (some (0, "")) (.ofRules rules)
        ∧ (∀ k outcome m', ¬ Ends read "a" 0 "a".toList (.ofRules rules) k outcome m')
        ∧ ∃ m', CharMap.transform read "a" (.ofRules rules) = .error (.of .exhausted) m' := by
  intro empty
  have hempty : Rule.Declares empty (.literal "" (.text "")) := .literal rfl (.text rfl)
  have hrules : Rules.ofElement (.mk "transform" [] "" .none [empty]) = .ok (gather [.literal "" (.text "")]) :=
    Rules.ofElement_eq_ok.mpr ⟨_, .cons hempty .nil, rfl⟩
  have hliteral : (gather [.literal "" (.text "")]).literal? ['a'] = some (0, .text "") := by decide +kernel
  refine ⟨_, hrules, fun read => ?_⟩
  have hzero : step read ['a'] (.ofRules (gather [.literal "" (.text "")]))
      = .ok (some (0, "")) (.ofRules (gather [.literal "" (.text "")])) :=
    step_of_literal hliteral (by decide +kernel)
  have hnever : ∀ k outcome m',
      ¬ Ends read "a" 0 "a".toList (.ofRules (gather [.literal "" (.text "")])) k outcome m' := by
    intro k outcome m' hends
    exact hends.not_stalls .refl ⟨List.cons_ne_nil _ _, "", _, hzero⟩
  exact ⟨hzero, hnever, transform_exhausted hnever⟩

end Stencil.CharMap
