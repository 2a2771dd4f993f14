/-
  What walks of templates write.

  A walk of a template without other documents follows an agenda from its beginning on (`Begun.tracks`), and so it ends
  as the agenda does (`exists_written`).

    * Of a template of plain elements, the walk writes what the template means (`toBytes_of_plain`).
    * The agenda does not know of outputs.  So a walk whose output changes hands out the same bytes as the walk of the
      same template without its `writer`s: changes of output only cut the output (`outputs_cut`).
-/
import Stencil.Proofs.Meaning.Beginning
import Stencil.Proofs.Meaning.Following

set_option autoImplicit false

namespace Stencil.Meaning

open Stencil.Walk (Concludes Coherent Holding Reached Setup conclusion pullAll)

variable {outputs : Bool} {e : Element} {w w' : Walk} {o : Options} {k : Sink} {s : Setup} {t : Tree} {c : Combined}
  {even : Prop}

/-! ## The beginning -/

/-- Whether a template is itself a loop, with something in it.  The loop is never entered, and at the end of the
    template it is asked for one more run. -/
def strays (e : Element) : Bool := e.name == "repeat" && !e.children.isEmpty

theorem strays_muteTemplate (e : Element) : strays (muteTemplate e) = strays e := by
  obtain ⟨n, a, x, c, cs⟩ := e
  cases cs <;> rfl

/-- What is left to do when the walk of a template has begun: its elements, each `writer` among them one that is
    nothing. -/
def agendaOf (d : Document) (c : Combined) : Agenda :=
  .beginning (muteAll d.layout.children) (d.table.map fun t => t.read.2) c

theorem Begun.holding (h : Begun outputs s w) (hk : s.sink = some k) (hstill : k.Still) :
    Ready outputs w k k.toBytes := by
  refine .holding ⟨k.push, ?_, hstill.push, rfl, .levels k _⟩ h.rotation
  rw [h.sink, hk]
  rfl

/-- A walk that has begun follows the agenda of its template. -/
theorem Begun.tracks (h : Begun outputs s w) (hc : Coherent even w [0]) (halike : (Walk.begin s).secondary.Alike c) :
    Tracks outputs (strays s.main.layout) w (agendaOf s.main c) := by
  have hempty : w.space.tree.children 0 = [] ↔ s.main.layout.children = [] :=
    h.mirrors.eq_nil_iff.trans muteAll_eq_nil_iff
  have hrecords : SameRecords w (agendaOf s.main c) := ⟨h.main.symm, h.secondary ▸ halike⟩
  have hframes := h.frames
  cases hfirst : w.space.tree.firstChild? 0 with
  | none =>
    rw [hfirst] at hframes
    refine .finished (.inr ⟨_, hframes, rfl⟩) h.rotation ?_
    have hnone := hempty.mp (List.head?_eq_none_iff.mp hfirst)
    unfold agendaOf strays
    rw [hnone, Bool.and_comm]
    rfl
  | some first =>
    rw [hfirst] at hframes
    have hne : ¬ s.main.layout.children.isEmpty = true := by
      rw [List.isEmpty_iff, ← hempty]
      intro hnil
      rw [Tree.firstChild?, hnil] at hfirst
      cases hfirst
    refine .of_scan (q := 0) ⟨hframes, ⟨rfl, rfl, rfl⟩, rfl, hrecords, ?_⟩ rfl .top rfl
      (aheadAt_firstChild hc.wellFormed hfirst h.mirrors) h.rotation
    unfold strays
    rw [h.name, Bool.and_eq_true, beq_iff_eq, Bool.not_eq_true', Bool.eq_false_iff]
    exact ⟨fun hn => ⟨hn, hne⟩, fun hn => hn.1⟩

/-! ## The end -/

/-- The walk of a template without other documents concludes as the agenda of the template does.  If it does not fail,
    what it hands out is what the agenda writes. -/
theorem exists_written (outputs : Bool) (he : selfContainedTemplate s.main.layout = true) (hbare : s.main.layout.Bare)
    (hout : outputs = true ∨ muteAll s.main.layout.children = s.main.layout.children) (hk : s.sink = some k)
    (hstill : k.Still) (halike : (Walk.begin s).secondary.Alike c)
    (hrotate : outputs = true → ∀ w, Reached o s w → ∃ w', Walk.rotate o w = .ok () w') :
    ∃ ss e w' cs, Concludes o s (conclusion ss e w')
      ∧ Outcome (strays s.main.layout) (agendaOf s.main c) cs e.isNone
      ∧ (e = none → Written outputs k (k.toBytes ++ cs) ss w') := by
  obtain ⟨w, hstart, hbegun⟩ := exists_begun (o := o) he hout hbare
  have htracks := hbegun.tracks (.start hstart) halike
  have hready := hbegun.holding hk hstill
  have hrotate' : ∀ w, Reached o s w → ∃ w', Walk.rotate o w = .ok () w' := by
    cases outputs with
    | true => exact hrotate rfl
    | false => exact fun w hw => htracks.exists_rotate hstart hready hw
  obtain ⟨_, hmeasured⟩ := Walk.exists_measured hstart
  have hreached : Reached o s w := .start hstart
  obtain ⟨ss, e, w', hends⟩ := hreached.exists_ends (htracks.undemanding hstart hready) hmeasured
  obtain ⟨cs, hcs, hwritten⟩ := htracks.ends hreached hrotate' hready hends
  exact ⟨ss, e, w', cs, .ended hstart hends, hcs, hwritten⟩

/-! ## Plain elements -/

theorem selfContained_of_plainTemplate (h : plainTemplate e = true) : selfContainedTemplate e = true
    ∧ muteAll e.children = e.children ∧ strays e = false := by
  rw [plainTemplate, Bool.and_eq_true, Bool.and_eq_true, bne_iff_ne] at h
  obtain ⟨⟨hname, himport⟩, hchildren⟩ := h
  obtain ⟨hself, hmute⟩ := selfContainedAll_of_plain hchildren
  refine ⟨Bool.and_eq_true_iff.mpr ⟨himport, hself⟩, hmute, ?_⟩
  rw [strays, beq_eq_false_iff_ne.mpr hname, Bool.false_and]

/-- A template means what becomes of its agenda. -/
theorem toOption_ofTemplate {table : Option Table} {bs : Bytes} {ok : Bool} (hplain : plainTemplate e = true)
    (h : Outcome false (.beginning e.children (table.map fun t => t.read.2) c) bs ok) :
    (ofTemplate e table).toOption = if ok then some bs else none := by
  have hmeaning := outcome_of_template table c hplain
  cases hm : ofTemplate e table with
  | ok cs =>
    rw [hm] at hmeaning
    obtain ⟨rfl, rfl⟩ := h.unique hmeaning
    rfl
  | error err =>
    rw [hm] at hmeaning
    obtain ⟨cs, hcs⟩ := hmeaning
    obtain ⟨-, rfl⟩ := h.unique hcs
    rfl

/-- The bytes of a sink in memory with which the walk has begun, once the sink has been handed out. -/
theorem initialBytes_keep {u : Sink} {name : String} (hsame : SameSink (.inMemory name) u) (hs : w.sink = none) :
    ({ Walk.keep u w with phase := .done } : Walk).initialBytes = u.toBytes := by
  have htarget : u.target = .memory := by
    have hflush : u.flush.target = .memory := hsame.2
    unfold Sink.flush at hflush
    split at hflush
    · cases hflush
    · exact hflush
  unfold Walk.initialBytes Walk.close Walk.keep
  simp only [htarget, hs]

/-- What is written for a layout that can be read. -/
theorem toBytes_of_parse {files : Files} {layout : String} {fuel : Nat} {table : Option Table}
    (hparse : Xml.Document.parse layout = .ok e) :
    Walk.toBytes o fuel files layout table
      = match pullAll o fuel fuel
          (Walk.begin ⟨⟨e, none, table⟩, [], some (.inMemory ""), .memory, .zero, .stored [], files⟩) with
        | (.ok _, w) => .ok w.initialBytes
        | (.error err, _) => .error err := by
  unfold Walk.toBytes
  rw [hparse]
  rfl

/-- The walk of a template of plain elements succeeds if the template has a meaning, and it writes what the template
    means. -/
theorem toBytes_of_plain {files : Files} {layout : String} (table : Option Table)
    (hparse : Xml.Document.parse layout = .ok e) (hplain : plainTemplate e = true) : ∃ N, ∀ fuel, N ≤ fuel →
      (Walk.toBytes o fuel files layout table).toOption = (ofTemplate e table).toOption := by
  obtain ⟨hself, hmute, hstray⟩ := selfContained_of_plainTemplate hplain
  let s : Setup := ⟨⟨e, none, table⟩, [], some (.inMemory ""), .memory, .zero, .stored [], files⟩
  obtain ⟨ss, err, w', cs, hconcludes, houtcome, hwritten⟩ := exists_written (o := o) (s := s) false hself
    (Xml.Document.bare_of_parse hparse) (.inr hmute) rfl Sink.still_of_empty (.refl _) nofun
  rw [show strays s.main.layout = false from hstray, agendaOf, show muteAll s.main.layout.children = e.children from
    hmute] at houtcome
  obtain ⟨N, hN⟩ := hconcludes.pullAll
  refine ⟨N, fun fuel hfuel => ?_⟩
  rw [toOption_ofTemplate hplain houtcome]
  rw [toBytes_of_parse hparse, hN fuel fuel hfuel hfuel]
  cases err with
  | some err => rfl
  | none =>
    obtain ⟨hflatten, hsole⟩ := hwritten rfl
    obtain ⟨u, w, rfl, hsame, hs, rfl⟩ := hsole rfl
    rw [List.map_cons, List.map_nil, List.flatten_cons, List.flatten_nil, List.append_nil, Sink.toBytes_flush] at hflatten
    show some ({ Walk.keep u w with phase := .done } : Walk).initialBytes = some cs
    rw [initialBytes_keep hsame hs, hflatten]
    rfl

/-- A loop over the records, in which a loop with two runs stands behind a group. -/
theorem toBytes_of_nested_loops :
    let layout := "<format><repeat fetch=\"true\"><items name=\"a\"><item name=\"b\"/></items>"
      ++ "<repeat max=\"2\"><item><default-value>-</default-value></item></repeat></repeat></format>"
    let table : Table := ((Table.ofHeader ["a/b"]).addRow ["1"] 2).addRow ["2"] 3
    ∃ e, Xml.Document.parse layout = .ok e ∧ plainTemplate e = true ∧ ∃ N, ∀ fuel, N ≤ fuel →
      (Walk.toBytes (.standard ⟨2000, 1, 1, 0, 0, 0, 0⟩) fuel .empty layout (some table)).toOption
        = some [49, 45, 45, 50, 45, 45] := by
  intro layout table
  have hrun : (Xml.Document.parse layout).toOption.any (fun e =>
      plainTemplate e && (ofTemplate e (some table)).toOption == some [49, 45, 45, 50, 45, 45]) = true := by
    decide +kernel
  cases hparse : Xml.Document.parse layout with
  | error err =>
    rw [hparse] at hrun
    cases hrun
  | ok e =>
    rw [hparse] at hrun
    obtain ⟨hplain, hmeaning⟩ := Bool.and_eq_true_iff.mp (show (_ && _) = true from hrun)
    obtain ⟨N, hN⟩ := toBytes_of_plain (o := .standard ⟨2000, 1, 1, 0, 0, 0, 0⟩) (some table) hparse hplain
    refine ⟨e, rfl, hplain, N, fun fuel hfuel => ?_⟩
    rw [hN fuel hfuel]
    exact eq_of_beq hmeaning

/-! ## Changes of output -/

/-- A setup with the template in which each `writer` is replaced by a node that stands for nothing. -/
def muted (s : Setup) : Setup := { s with main := { s.main with layout := muteTemplate s.main.layout } }

theorem tables_placeAll (t : Tree) (ds : List Document) :
    (Walk.placeAll t ds).1.map CombinedEntry.table = ds.map Document.table := by
  induction ds generalizing t with
  | nil => rfl
  | cons d ds ih => exact congrArg (d.table :: ·) (ih _)

theorem alike_muted (s : Setup) : (Walk.begin (muted s)).secondary.Alike (Walk.begin s).secondary :=
  ⟨rfl, (tables_placeAll _ _).trans (tables_placeAll _ _).symm⟩

theorem selfContained_muteTemplate (h : selfContainedTemplate e = true) :
    selfContainedTemplate (muteTemplate e) = true ∧ muteAll (muteTemplate e).children = (muteTemplate e).children := by
  rw [selfContainedTemplate, Bool.and_eq_true] at h
  obtain ⟨hself, hmute⟩ := selfContainedAll_mute h.2
  exact ⟨Bool.and_eq_true_iff.mpr ⟨h.1, hself⟩, hmute⟩

theorem bare_muteTemplate (h : e.Bare) : (muteTemplate e).Bare := by
  obtain ⟨n, a, x, c, cs⟩ := e
  rw [Element.bare_mk] at h
  exact Element.bare_mk.mpr ⟨h.1, bare_muteAll h.2⟩

/-- Changes of output only cut the output: what a walk hands out is, one sink behind the other, what the walk of the
    template without `writer`s writes to the sink that is open at the beginning; and one walk fails if the other does.
    Each change of output that is due has to succeed. -/
theorem outputs_cut (he : selfContainedTemplate s.main.layout = true) (hbare : s.main.layout.Bare)
    (hk : s.sink = some k) (hstill : k.Still)
    (hrotate : ∀ w, Reached o s w → ∃ w', Walk.rotate o w = .ok () w') : ∃ N, ∀ fuel n, N ≤ fuel → N ≤ n →
      match (pullAll o fuel n (Walk.begin s)).1, (pullAll o fuel n (Walk.begin (muted s))).1 with
      | .ok ss, .ok ss' => ∃ s', ss' = [s'] ∧ SameSink k s' ∧ (ss.map Sink.toBytes).flatten = s'.toBytes
      | .error _, .error _ => True
      | _, _ => False := by
  obtain ⟨hself, hmute⟩ := selfContained_muteTemplate he
  obtain ⟨ss, err, w, cs, hconcludes, houtcome, hwritten⟩ := exists_written true he hbare (.inl rfl) hk hstill
    (.refl (Walk.begin s).secondary) fun _ => hrotate
  obtain ⟨ss', err', w', cs', hconcludes', houtcome', hwritten'⟩ := exists_written (o := o) (s := muted s) false hself
    (bare_muteTemplate hbare) (.inr hmute) hk hstill (alike_muted s) nofun
  -- both walks follow one agenda
  rw [show strays (muted s).main.layout = strays s.main.layout from strays_muteTemplate _,
    show agendaOf (muted s).main (Walk.begin s).secondary = agendaOf s.main (Walk.begin s).secondary from
      congrArg (Agenda.beginning · _ _) hmute] at houtcome'
  obtain ⟨rfl, hok⟩ := houtcome.unique houtcome'
  obtain ⟨N, hN⟩ := hconcludes.pullAll
  obtain ⟨N', hN'⟩ := hconcludes'.pullAll
  refine ⟨max N N', fun fuel n hfuel hn => ?_⟩
  rw [hN fuel n (Nat.le_trans (Nat.le_max_left N N') hfuel) (Nat.le_trans (Nat.le_max_left N N') hn),
    hN' fuel n (Nat.le_trans (Nat.le_max_right N N') hfuel) (Nat.le_trans (Nat.le_max_right N N') hn)]
  cases err with
  | some e =>
    cases err' with
    | some e' => trivial
    | none => cases hok
  | none =>
    cases err' with
    | some e' => cases hok
    | none =>
      obtain ⟨hflatten, -⟩ := hwritten rfl
      obtain ⟨hflatten', hsole⟩ := hwritten' rfl
      obtain ⟨u, -, rfl, hsame, -⟩ := hsole rfl
      refine ⟨u.flush, rfl, hsame.trans (.flush u), ?_⟩
      rw [List.map_cons, List.map_nil, List.flatten_cons, List.flatten_nil, List.append_nil] at hflatten'
      exact hflatten.trans hflatten'.symm

/-- Behind each run of a loop over the records, the output changes. -/
theorem outputs_cut_behind_each_record :
    let field : Element := .mk "item" [("name", "a")] "" .none []
    let name : Element := .mk "item" [] "" .none [.mk "default-value" [] "x" .none []]
    let writer : Element := .mk "writer" [("type", "memory")] "" .none [name]
    let layout : Element := .mk "layout" [] "" .none
      [.mk "repeat" [("fetch", "true")] "" .none [field, writer], field]
    let table : Table := ((Table.ofHeader ["a"]).addRow ["1"] 2).addRow ["2"] 3
    let s : Setup := ⟨⟨layout, none, some table⟩, [], some (.inMemory ""), .memory, .zero, .stored [], .empty⟩
    let o : Options := .standard ⟨2000, 1, 1, 0, 0, 0, 0⟩
    (pullAll o 40 4 (Walk.begin s)).1.toOption.map (·.map Sink.toBytes) = some [[49], [50], [49]]
      ∧ ∃ N, ∀ fuel n, N ≤ fuel → N ≤ n →
      match (pullAll o fuel n (Walk.begin s)).1, (pullAll o fuel n (Walk.begin (muted s))).1 with
      | .ok ss, .ok ss' => ∃ s', ss' = [s'] ∧ SameSink (.inMemory "") s'
        ∧ (ss.map Sink.toBytes).flatten = s'.toBytes
      | .error _, .error _ => True
      | _, _ => False := by
  intro field name writer layout table s o
  have hrun : Action.succeeds (Walk.start o ⟨0, none⟩ (Walk.begin s)) (fun _ w => Walk.calm o 40 w) = true := by
    decide +kernel
  obtain ⟨_, w₀, h₀, hcalm⟩ := Action.succeeds_iff.mp hrun
  refine ⟨by decide +kernel, outputs_cut (by decide) (by decide) rfl Sink.still_of_empty fun w hw => ?_⟩
  obtain ⟨n, hn⟩ := hw.exists_calm (n := 40) fun w₁ h₁ => by
    rw [show Walk.start o ⟨0, s.main.path⟩ (Walk.begin s) = .ok () w₀ from h₀] at h₁
    cases h₁
    exact hcalm
  exact Walk.exists_rotate_of_calm hn

end Stencil.Meaning
