/-
  Circular imports are refused, and nothing else is refused as circular.

  Static imports make the documents a graph: a document leads to the targets of its imports, and each target that is a
  document leads on (`Leads`).  The imports are circular if some path comes twice on the way (`Circular`).  Documents are
  read along all ways at once, each one with the paths of those around it.  So there are two inductions over the rounds of
  reading, and one lemma on a round for both (`round_ok`):

    * If all documents are read, no path has come twice on any way from a document that was to be read
      (`nodup_of_readAll`).
    * If an import is refused, its path comes twice on a way from the first document, because all documents that are to
      be read stand on such ways (`circular_of_readAll`).

  All other failures have other causes (`Quiet`).
-/
import Stencil.Proofs.Import.Gathered
import Stencil.Proofs.Import.Reading
import Stencil.Proofs.Query.Faults

set_option autoImplicit false

namespace Stencil.Import

open Stencil.Tree (Under Closed Keeps Alike Holds Grafted)

variable {o : Options} {load : Loader} {l l₀ : Library} {t t' : Tree} {d d' : Desk} {node root : NodeId}
  {origin origin₀ : Option String} {nodes : List NodeId} {chain qs : List String} {out : List (Splice × Unread)}
  {ss found : List Splice} {us : List Unread} {u : Unread} {e e₀ : Element} {q : String} {err : Error}

/-! ## The graph of imports -/

/-- A document that comes from `origin` has a static import whose target is under `q`. -/
def Asks (o : Options) (origin : Option String) (e : Element) (q : String) : Prop :=
  ∃ n ∈ statics (Tree.ofElement e) 0, ∃ name, target (Tree.ofElement e) n = .ok name ∧ q = o.resolve name origin

/-- Targets along which static imports lead from a document, one from the other, where `r` has the documents under
    paths. -/
inductive Leads (o : Options) (r : String → Option Element) : Option String → Element → List String → Prop
  | one {origin : Option String} {e : Element} {q : String} (asks : Asks o origin e q) : Leads o r origin e [q]
  | more {origin : Option String} {e e' : Element} {q : String} {qs : List String} (asks : Asks o origin e q)
    (found : r q = some e') (leads : Leads o r (some q) e' qs) : Leads o r origin e (q :: qs)

/-- The static imports of a document lead to some path twice, its own path included. -/
def Circular (o : Options) (r : String → Option Element) (origin : Option String) (e : Element) : Prop :=
  ∃ qs, Leads o r origin e qs ∧ ¬ ((origin.toList ++ qs).map FilePath.key).Nodup

theorem Leads.mono {r r' : String → Option Element} (hr : ∀ q e, r q = some e → r' q = some e)
    (h : Leads o r origin e qs) : Leads o r' origin e qs := by
  induction h with
  | one asks => exact .one asks
  | more asks found _ ih => exact .more asks (hr _ _ found) ih

/-- The document under each path: the one that is kept, or else one that is read under some spelling of the path. -/
structure Reading (load : Loader) (l : Library) (r : String → Option Element) : Prop where
  same : ∀ p q, FilePath.same p q = true → r p = r q
  kept : ∀ q e, l.find? q = some e → r q = some e
  read : ∀ q e, r q = some e → l.find? q = some e ∨ l.find? q = none ∧ ∃ p, FilePath.same p q = true ∧ load p = .ok e
  all : ∀ q e, load q = .ok e → r q ≠ none

/-- There is one reading, if no two spellings of a path are read as different documents. -/
theorem Reading.unique {r r' : String → Option Element}
    (hload : ∀ p q e e', FilePath.same p q = true → load p = .ok e → load q = .ok e' → e = e')
    (h : Reading load l r) (h' : Reading load l r') : r = r' := by
  -- what one reading has, the other has
  have hle : ∀ {r r' : String → Option Element}, Reading load l r → Reading load l r' → ∀ q e, r q = some e →
      r' q = some e := by
    intro r r' h h' q e he
    obtain hk | ⟨hn, p, hp, hpe⟩ := h.read q e he
    · exact h'.kept q e hk
    · obtain ⟨e', he'⟩ := Option.ne_none_iff_exists'.mp (h'.all p e hpe)
      rw [h'.same p q hp] at he'
      obtain hk | ⟨-, p', hp', hpe'⟩ := h'.read q e' he'
      · exact absurd (hn.symm.trans hk) (fun hc => nomatch hc)
      · have hpp : FilePath.same p p' = true := beq_iff_eq.mpr ((eq_of_beq hp).trans (eq_of_beq hp').symm)
        rw [he', hload p p' e e' hpp hpe hpe']
  funext q
  exact Option.ext fun e => ⟨hle h h' q e, hle h' h q e⟩

/-- What has been fetched so far belongs to a reading. -/
theorem exists_reading (hext : l₀.Extends load l) :
    ∃ r, Reading load l₀ r ∧ ∀ q e, l.find? q = some e → r q = some e := by
  classical
  have hfind : ∀ {l : Library} {p q : String}, FilePath.key p = FilePath.key q → l.find? p = l.find? q := by
    intro l p q hkey
    unfold Library.find? FilePath.same
    rw [hkey]
  let other (k : Bool × List String) : Option Element :=
    if h : ∃ e p, FilePath.key p = k ∧ load p = .ok e then some h.choose else none
  have hother : ∀ {q e}, other (FilePath.key q) = some e → ∃ p, FilePath.same p q = true ∧ load p = .ok e := by
    intro q e he
    by_cases h : ∃ e p, FilePath.key p = FilePath.key q ∧ load p = .ok e
    · obtain ⟨p, hp, hpe⟩ := h.choose_spec
      have heq : h.choose = e := Option.some.inj ((dif_pos h).symm.trans he)
      exact ⟨p, beq_iff_eq.mpr hp, heq ▸ hpe⟩
    · exact absurd ((dif_neg h).symm.trans he) (fun hc => nomatch hc)
  refine ⟨fun q => (l.find? q).or (other (FilePath.key q)), ⟨fun p q hpq => ?_, fun q e he => ?_, fun q e he => ?_,
    fun q e he hnone => ?_⟩, fun q e he => ?_⟩
  · show (l.find? p).or (other (FilePath.key p)) = _
    rw [hfind (eq_of_beq hpq), eq_of_beq hpq]
  · show (l.find? q).or _ = some e
    rw [hext.keeps q e he]
    rfl
  · cases hk : l₀.find? q with
    | some e' =>
      have he' : (l.find? q).or (other (FilePath.key q)) = some e := he
      rw [hext.keeps q e' hk] at he'
      exact .inl he'
    | none =>
      obtain he | ⟨-, he⟩ := Option.or_eq_some_iff.mp he
      · exact .inr ⟨rfl, ((hext.read q e he).resolve_left fun hs => nomatch hk.symm.trans hs)⟩
      · exact .inr ⟨rfl, hother he⟩
  · have h : ∃ e p, FilePath.key p = FilePath.key q ∧ load p = .ok e := ⟨e, q, rfl, he⟩
    have hsome : other (FilePath.key q) = some h.choose := dif_pos h
    exact absurd (hsome.symm.trans (Option.or_eq_none_iff.mp hnone).2) (fun hc => nomatch hc)
  · show (l.find? q).or _ = some e
    rw [he]
    rfl

theorem statics_alike {P : NodeId → Prop} {f : NodeId → NodeId} (h : Alike P f t t') (hn : P root) :
    statics t' (f root) = (statics t root).map f := by
  unfold statics
  rw [h.descendants hn, ← List.map_cons, List.filter_map]
  congr 1
  refine List.filter_congr fun n hm => ?_
  have hP : P n := by
    obtain rfl | hm := List.mem_cons.mp hm
    · exact hn
    · exact h.mem_of_mem_descendants hn hm
  show (t'.name (f n) == "import" && t'.attr? (f n) "type" == some "xml") = _
  rw [h.name hP, h.attr? hP]

/-- A document in the tree asks for what it asks for anywhere. -/
theorem asks_iff (hwf : t.WellFormed) (hl : t.Live root) (hr : t.parent? root = none) (hh : Holds t root e) :
    Asks o origin e q ↔ ∃ n ∈ statics t root, ∃ name, target t n = .ok name ∧ q = o.resolve name origin := by
  have hg := Tree.grafted_ofElement e
  constructor
  · rintro ⟨n, hn, name, hname, rfl⟩
    obtain ⟨f, ha, hf⟩ := Tree.exists_alike hg.wellFormed hwf hg.live_root hl hg.parent?_root hr hg.holds hh
    have hstatics := statics_alike ha .self
    rw [hf] at hstatics
    refine ⟨f n, hstatics ▸ List.mem_map_of_mem hn, name, ?_, rfl⟩
    exact target_alike ha (under_of_mem_statics hg.wellFormed hn) hname
  · rintro ⟨n, hn, name, hname, rfl⟩
    obtain ⟨f, ha, hf⟩ := Tree.exists_alike hwf hg.wellFormed hl hg.live_root hr hg.parent?_root hh hg.holds
    have hstatics := statics_alike ha .self
    rw [hf] at hstatics
    exact ⟨f n, hstatics ▸ List.mem_map_of_mem hn, name, target_alike ha (under_of_mem_statics hwf hn) hname, rfl⟩

/-! ## One round -/

/-- The tree has a document that is to be looked through. -/
structure Stands (t : Tree) (u : Unread) (e : Element) : Prop where
  live : t.Live u.document.root
  root : t.parent? u.document.root = none
  holds : Holds t u.document.root e

theorem Stands.keeps (h : Stands t u e) (hwf : t.WellFormed) (hk : Keeps t.Live t t') : Stands t' u e where
  live := (hk _ h.live).1
  root := (hk.parent? h.live).trans h.root
  holds := h.holds.congr hwf fun n hn => (hk n (hwf.live_of_under h.live hn)).2

/-- A target is not around the document that asks for it. -/
theorem not_around_of_readTargets {p : Placed} {d₁ : Desk} {path : String}
    (h : readTargets o load origin chain (node :: nodes) d = .ok out d') (h₁ : place o load node origin d = .ok p d₁)
    (hp : p.path = some path) : FilePath.key path ∉ chain.map FilePath.key := by
  intro hm
  obtain ⟨c, hc, hkey⟩ := List.mem_map.mp hm
  have hany : chain.any (FilePath.same · path) = true := List.any_eq_true.mpr ⟨c, hc, beq_iff_eq.mpr hkey⟩
  unfold readTargets at h
  rw [Action.bind_of_ok h₁] at h
  simp only [hp, hany, if_true] at h
  rw [Action.get_bind_eq_ok] at h
  obtain ⟨_, _, hfail, -⟩ := Action.bind_eq_ok.mp h
  exact Action.failAt_eq_ok.mp hfail

theorem around_readTargets (h : readTargets o load origin chain nodes d = .ok out d') :
    ∀ x ∈ out, x.2.around = chain
      ∧ ∀ path, x.2.document.path = some path → FilePath.key path ∉ chain.map FilePath.key := by
  induction nodes generalizing d out with
  | nil =>
    obtain ⟨rfl, rfl⟩ := Action.pure_eq_ok.mp h
    exact List.forall_mem_nil _
  | cons node nodes ih =>
    obtain ⟨p, d₁, more, h₁, h₂, rfl⟩ := readTargets_cons h
    exact List.forall_mem_cons.mpr ⟨⟨rfl, fun path hp => not_around_of_readTargets h h₁ hp⟩, ih h₂⟩

/-- What looking through a document does: it fetches a document for each target, and none of these is around it. -/
structure Round (o : Options) (load : Loader) (u : Unread) (e : Element) (d : Desk) (out : List (Splice × Unread))
    (d' : Desk) : Prop where
  wellFormed : d'.tree.WellFormed
  keeps : Keeps d.tree.Live d.tree d'.tree
  library : d.library.Extends load d'.library
  fetched : ∀ x ∈ out, ∃ q e', Asks o u.document.path e q ∧ x.2.document.path = some q ∧ x.2.paths = u.paths ++ [q]
    ∧ FilePath.key q ∉ u.paths.map FilePath.key ∧ d'.library.find? q = some e' ∧ Stands d'.tree x.2 e'
  all : ∀ q, Asks o u.document.path e q → ∃ x ∈ out, x.2.document.path = some q

theorem round_ok (hwf : d.tree.WellFormed) (hu : Stands d.tree u e)
    (h : readTargets o load u.document.path u.paths (statics d.tree u.document.root) d = .ok out d') :
    Round o load u e d out d' := by
  have hlive : ∀ n ∈ statics d.tree u.document.root, d.tree.Live n := fun n hn =>
    hwf.live_of_under hu.live (under_of_mem_statics hwf hn)
  have hf := fetched_readTargets hwf h
  obtain ⟨hext, hnamed⟩ := named_readTargets hwf hlive h
  have haround := around_readTargets h
  have hnode : ∀ x ∈ out, x.1.node ∈ statics d.tree u.document.root := by
    intro x hx
    rw [← hf.nodes]
    exact List.mem_map_of_mem hx
  have hforth := hf.keeps.alike hwf hf.wellFormed (Tree.closed_live hwf)
  -- an import names the same target when others have been read
  have hsame : ∀ x ∈ out, ∀ name, target d'.tree x.1.node = .ok name → target d.tree x.1.node = .ok name := by
    intro x hx name hname
    have hback : Keeps d.tree.Live d'.tree d.tree := fun n hn => ⟨hn, (hf.keeps n hn).2.symm⟩
    have hclosed := hf.keeps.closed (Tree.closed_live hwf) hwf hf.wellFormed
    exact target_alike (hback.alike hf.wellFormed hwf hclosed) (hlive _ (hnode x hx)) hname
  refine ⟨hf.wellFormed, hf.keeps, hext, fun x hx => ?_, fun q hq => ?_⟩
  · obtain ⟨horigin, name, e', hname, hdocument, hfind, hholds⟩ := hnamed x hx
    obtain ⟨hchain, hnot⟩ := haround x hx
    have hpath : x.2.document.path = some (o.resolve name u.document.path) := by rw [hdocument, horigin]
    rw [horigin] at hfind
    refine ⟨_, e', ?_, hpath, ?_, hnot _ hpath, hfind, ?_, ?_, ?_⟩
    · exact (asks_iff hwf hu.live hu.root hu.holds).mpr ⟨_, hnode x hx, name, hsame x hx name hname, rfl⟩
    · unfold Unread.paths
      rw [hchain, hpath]
      rfl
    · rw [hf.unread x hx]
      exact hf.live_root x hx
    · rw [hf.unread x hx]
      exact hf.parent?_root x hx
    · rw [hf.unread x hx]
      exact hholds
  · obtain ⟨n, hn, name, hname, rfl⟩ := (asks_iff hwf hu.live hu.root hu.holds).mp hq
    rw [← hf.nodes] at hn
    obtain ⟨x, hx, rfl⟩ := List.mem_map.mp hn
    obtain ⟨horigin, name', e', hname', hdocument, -⟩ := hnamed x hx
    have heq : name = name' := Except.ok.inj (hname.symm.trans (hsame x hx name' hname'))
    exact ⟨x, hx, by rw [hdocument, horigin, heq]⟩

/-- The documents that are still to be looked through, after a round. -/
theorem Round.stands {v : Unread} (h : Round o load u e d out d') (hwf : d.tree.WellFormed)
    (hus : ∀ v ∈ us, ∃ e, Stands d.tree v e) (hv : v ∈ (out.map Prod.snd).reverse ++ us) : ∃ e, Stands d'.tree v e := by
  obtain hv | hv := List.mem_append.mp hv
  · obtain ⟨x, hx, rfl⟩ := List.mem_map.mp (List.mem_reverse.mp hv)
    obtain ⟨q, e', -, -, -, -, -, hstands⟩ := h.fetched x hx
    exact ⟨e', hstands⟩
  · obtain ⟨e', hstands⟩ := hus v hv
    exact ⟨e', hstands.keeps hwf h.keeps⟩

/-! ## Circular imports are refused -/

/-- If all documents are read, no path has come twice on any way. -/
theorem nodup_of_readAll {k : Nat} (hwf : d.tree.WellFormed) (hus : ∀ u ∈ us, ∃ e, Stands d.tree u e)
    (h : readAll o load k us found d = .ok ss d') :
    d.library.Extends load d'.library
      ∧ ∀ r : String → Option Element, (∀ q e, d'.library.find? q = some e → r q = some e) →
        ∀ u ∈ us, ∀ e qs, Stands d.tree u e → Leads o r u.document.path e qs →
          (∀ q ∈ qs, FilePath.key q ∉ u.paths.map FilePath.key) ∧ (qs.map FilePath.key).Nodup := by
  induction k generalizing us found d with
  | zero =>
    cases us with
    | nil =>
      obtain ⟨rfl, rfl⟩ := Action.pure_eq_ok.mp h
      exact ⟨.refl, fun _ _ _ hu => nomatch hu⟩
    | cons u us => exact (Action.fail_eq_ok.mp h).elim
  | succ k ih =>
    cases us with
    | nil =>
      obtain ⟨rfl, rfl⟩ := Action.pure_eq_ok.mp h
      exact ⟨.refl, fun _ _ _ hu => nomatch hu⟩
    | cons u₀ us =>
      unfold readAll at h
      rw [Action.get_bind_eq_ok] at h
      obtain ⟨out, d₁, h₁, hrest⟩ := Action.bind_eq_ok.mp h
      obtain ⟨e₀, hstands₀⟩ := hus u₀ List.mem_cons_self
      have hround := round_ok hwf hstands₀ h₁
      have hus₁ := fun v => hround.stands (v := v) hwf fun v hv => hus v (List.mem_cons_of_mem _ hv)
      obtain ⟨hext, hnodup⟩ := ih hround.wellFormed hus₁ hrest
      refine ⟨hround.library.trans hext, fun r hr u hu e qs hstands hleads => ?_⟩
      obtain rfl | hu := List.mem_cons.mp hu
      · obtain rfl := hstands.holds.unique hstands₀.holds
        cases hleads with
        | one asks =>
          obtain ⟨x, hx, hpath⟩ := hround.all _ asks
          obtain ⟨q, _, -, hpath', -, hnot, -⟩ := hround.fetched x hx
          obtain rfl := Option.some.inj (hpath.symm.trans hpath')
          exact ⟨List.forall_mem_singleton.mpr hnot, List.nodup_cons.mpr ⟨List.not_mem_nil, List.nodup_nil⟩⟩
        | more asks hfound leads =>
          obtain ⟨x, hx, hpath⟩ := hround.all _ asks
          obtain ⟨q, e', -, hpath', hpaths, hnot, hfind, hx'⟩ := hround.fetched x hx
          obtain rfl := Option.some.inj (hpath.symm.trans hpath')
          obtain rfl := Option.some.inj (hfound.symm.trans (hr _ _ (hext.keeps _ _ hfind)))
          rw [← hpath'] at leads
          have hmem : x.2 ∈ (out.map Prod.snd).reverse ++ us :=
            List.mem_append_left _ (List.mem_reverse.mpr (List.mem_map_of_mem hx))
          obtain ⟨hall, hnodup⟩ := hnodup r hr x.2 hmem _ _ hx' leads
          rw [hpaths, List.map_append] at hall
          refine ⟨List.forall_mem_cons.mpr ⟨hnot, fun p hp hm => hall p hp (List.mem_append_left _ hm)⟩, ?_⟩
          rw [List.map_cons]
          refine List.nodup_cons.mpr ⟨fun hm => ?_, hnodup⟩
          obtain ⟨p, hp, hkey⟩ := List.mem_map.mp hm
          exact hall p hp (List.mem_append_right _ (hkey ▸ List.mem_cons_self))
      · exact hnodup r hr u (List.mem_append_right _ hu) e qs (hstands.keeps hwf hround.keeps) hleads

/-! ## Nothing else is refused as circular -/

/-- A failure that says that imports are circular, and that is none of reading a file. -/
def Refusal (load : Loader) (err : Error) : Prop :=
  (∃ path, err.cause = .circularImport path) ∧ ∀ path, load path ≠ .error err

theorem not_refusal_of_cause (h : ∀ path, err.cause ≠ .circularImport path) : ¬ Refusal load err :=
  fun ⟨⟨path, hpath⟩, _⟩ => h path hpath

theorem not_refusal_of_query (h : err.cause.ofQuery = true) : ¬ Refusal load err := by
  refine not_refusal_of_cause fun path hpath => ?_
  rw [hpath] at h
  cases h

/-- A step that never fails because imports are circular. -/
def Quiet (load : Loader) {α : Type} (x : Action Desk α) : Prop := ∀ d err d', x d = .error err d' → ¬ Refusal load err

namespace Quiet

variable {α β : Type} {x : Action Desk α}

theorem pure (a : α) : Quiet load (pure a : Action Desk α) := fun _ _ _ h => nomatch h

theorem get : Quiet load (get : Action Desk Desk) := fun _ _ _ h => nomatch h

theorem set (d : Desk) : Quiet load (set d : Action Desk PUnit) := fun _ _ _ h => nomatch h

theorem bind {f : α → Action Desk β} (h : Quiet load x) (hf : ∀ a, Quiet load (f a)) : Quiet load (x >>= f) := by
  intro d err d' he
  obtain he | ⟨a, d₁, -, he⟩ := Action.bind_eq_error.mp he
  · exact h d err d' he
  · exact hf a d₁ err d' he

theorem failAt {cause : Cause} (site : String) (h : ∀ path, cause ≠ .circularImport path) :
    Quiet load (Action.failAt cause site : Action Desk α) := by
  intro d err d' he
  cases he
  exact not_refusal_of_cause h

theorem ofExcept {r : Except Error α} (h : ∀ err, r = .error err → ¬ Refusal load err) :
    Quiet load (Action.ofExcept r : Action Desk α) := by
  intro d err d' he
  cases r with
  | ok a => cases he
  | error e =>
    cases he
    exact h _ rfl

end Quiet

theorem quiet_modifyTree (f : Tree → Tree) : Quiet load (modifyTree f) := fun _ _ _ h => nomatch h

theorem quiet_fetch (path : String) : Quiet load (fetch load path) := by
  intro d err d' h
  have hlibrary : ∀ l', Library.fetch load path d.library = .error err l' → load path = .error err := by
    intro l' hl
    unfold Library.fetch at hl
    cases hf : d.library.find? path with
    | some e =>
      rw [hf] at hl
      cases hl
    | none =>
      rw [hf] at hl
      cases he : load path with
      | ok e =>
        rw [he] at hl
        cases hl
      | error err' =>
        rw [he] at hl
        cases hl
        rfl
  unfold fetch Action.within at h
  dsimp only at h
  cases hl : Library.fetch load path d.library with
  | ok e l' =>
    rw [hl] at h
    cases h
  | error err' l' =>
    rw [hl] at h
    cases h
    exact fun href => href.2 path (hlibrary l' hl)

theorem quiet_place (node : NodeId) (origin : Option String) : Quiet load (place o load node origin) := by
  have htarget : ∀ t err, target t node = .error err → ¬ Refusal load err := by
    intro t err h
    unfold target at h
    split at h
    · cases h
    · exact not_refusal_of_query (Query.cause_of_evaluate h)
    · cases h
      exact not_refusal_of_cause fun _ hc => nomatch hc
  unfold place
  exact .bind .get fun d => .bind (.ofExcept (htarget d.tree)) fun _ => .bind (quiet_fetch _) fun _ =>
    .bind .get fun _ => .bind (.set _) fun _ => .pure _

theorem quiet_replacement (rule : NodeId) (transform origin : Option String) :
    Quiet load (replacement o load rule transform origin) := by
  unfold replacement
  refine .bind .get fun d => ?_
  dsimp only
  split
  · exact .pure _
  · exact .pure _
  · split
    · exact .failAt _ fun _ hc => nomatch hc
    · exact .bind (quiet_fetch _) fun _ => .ofExcept fun _ h => not_refusal_of_query (Query.cause_of_evaluate h)

theorem quiet_replaceAll (source text : String) (rule : NodeId) (ns : List Query.NodeRef) :
    Quiet load (replaceAll source text rule ns) := by
  induction ns with
  | nil => exact .pure _
  | cons n ns ih =>
    unfold replaceAll
    refine .bind ?_ fun _ => ih
    cases n with
    | element id => exact quiet_modifyTree fun t => t.setValue id text
    | attr id name => exact quiet_modifyTree fun t => t.setAttr id name text
    | text id => exact quiet_modifyTree fun t => t.setText id text
    | document => exact .bind .get fun _ => .failAt _ fun _ hc => nomatch hc

theorem quiet_applyRules (root : NodeId) (transform origin : Option String) (rules : List NodeId) :
    Quiet load (applyRules o load root transform origin rules) := by
  have hrule : ∀ rule, Quiet load (applyRule o load root transform origin rule) := by
    intro rule
    unfold applyRule
    refine .bind .get fun d => ?_
    dsimp only
    split
    · exact .failAt _ fun _ hc => nomatch hc
    · exact .bind (quiet_replacement rule transform origin) fun _ => .bind .get fun _ =>
        .bind (.ofExcept fun _ h => not_refusal_of_query (Query.cause_of_select h)) fun _ => quiet_replaceAll _ _ _ _
  induction rules with
  | nil => exact .pure _
  | cons rule rules ih =>
    unfold applyRules
    refine .bind .get fun d => ?_
    split
    · exact .bind (hrule rule) fun _ => ih
    · exact ih

theorem quiet_spliceAll (ss : List Splice) : Quiet load (spliceAll o load ss) := by
  induction ss with
  | nil => exact .pure _
  | cons s ss ih =>
    unfold spliceAll edit
    exact .bind (.bind .get fun d => quiet_applyRules _ _ _ _) fun _ => .bind (quiet_modifyTree _) fun _ => ih

/-- Targets are refused as circular only if one of them is around the document that asks for it. -/
theorem asks_of_refusal (hwf : d.tree.WellFormed) (hnodes : ∀ n ∈ nodes, d.tree.Live n)
    (h : readTargets o load origin chain nodes d = .error err d') (href : Refusal load err) :
    ∃ n ∈ nodes, ∃ name, target d.tree n = .ok name
      ∧ FilePath.key (o.resolve name origin) ∈ chain.map FilePath.key := by
  induction nodes generalizing d with
  | nil => cases h
  | cons node nodes ih =>
    unfold readTargets at h
    obtain h | ⟨p, d₁, h₁, h⟩ := Action.bind_eq_error.mp h
    · exact absurd href (quiet_place node origin d err d' h)
    · obtain ⟨-, name, e, hname, hpath, -, hg⟩ := named_place hwf h₁
      have hrest : ∀ {d₂}, ((readTargets o load origin chain nodes >>= fun more =>
          pure ((⟨node, p.root, origin⟩, ⟨p, chain⟩) :: more)) : Action Desk _) d₂ = .error err d' →
          readTargets o load origin chain nodes d₂ = .error err d' := by
        intro d₂ h₂
        obtain h₂ | ⟨_, _, -, h₂⟩ := Action.bind_eq_error.mp h₂
        · exact h₂
        · cases h₂
      rw [hpath] at h
      dsimp only at h
      split at h
      · rename_i hany
        obtain ⟨c, hc, hkey⟩ := List.any_eq_true.mp hany
        exact ⟨node, List.mem_cons_self, name, hname, List.mem_map.mpr ⟨c, hc, eq_of_beq hkey⟩⟩
      · have hkeeps : Keeps d.tree.Live d.tree d₁.tree := fun n hn => ⟨hg.live n hn, hg.node n hn⟩
        obtain ⟨n, hn, name', hname', hmem⟩ := ih hg.wellFormed
          (fun n hn => hg.live n (hnodes n (List.mem_cons_of_mem _ hn))) (hrest h)
        have hback : Keeps d.tree.Live d₁.tree d.tree := fun n hn => ⟨hn, (hg.node n hn).symm⟩
        have hclosed := hkeeps.closed (Tree.closed_live hwf) hwf hg.wellFormed
        exact ⟨n, List.mem_cons_of_mem _ hn, name',
          target_alike (hback.alike hg.wellFormed hwf hclosed) (hnodes n (List.mem_cons_of_mem _ hn)) hname', hmem⟩

/-- If reading documents is refused as circular, some path comes twice on a way from the first document, where all
    documents that are to be read stand on such ways. -/
theorem circular_of_readAll {k : Nat} (hwf : d.tree.WellFormed) (hext : l₀.Extends load d.library)
    (hus : ∀ u ∈ us, ∃ e pre, Stands d.tree u e ∧ u.paths = origin₀.toList ++ pre
      ∧ ∀ r : String → Option Element, (∀ q e, d.library.find? q = some e → r q = some e) →
        ∀ qs, Leads o r u.document.path e qs → Leads o r origin₀ e₀ (pre ++ qs))
    (h : readAll o load k us found d = .error err d') (href : Refusal load err) :
    ∃ l, l₀.Extends load l ∧ Circular o l.find? origin₀ e₀ := by
  induction k generalizing us found d with
  | zero =>
    cases us with
    | nil => cases h
    | cons u us =>
      obtain ⟨⟨path, hpath⟩, -⟩ := href
      cases h
      cases hpath
  | succ k ih =>
    cases us with
    | nil => cases h
    | cons u us =>
      unfold readAll at h
      rw [Action.get_bind] at h
      obtain ⟨e, pre, hstands, hpaths, hway⟩ := hus u List.mem_cons_self
      have hlive : ∀ n ∈ statics d.tree u.document.root, d.tree.Live n := fun n hn =>
        hwf.live_of_under hstands.live (under_of_mem_statics hwf hn)
      obtain h | ⟨out, d₁, h₁, h⟩ := Action.bind_eq_error.mp h
      · obtain ⟨n, hn, name, hname, hmem⟩ := asks_of_refusal hwf hlive h href
        have hasks : Asks o u.document.path e (o.resolve name u.document.path) :=
          (asks_iff hwf hstands.live hstands.root hstands.holds).mpr ⟨n, hn, name, hname, rfl⟩
        refine ⟨d.library, hext, _, hway _ (fun _ _ hf => hf) _ (.one hasks), fun hnodup => ?_⟩
        rw [← List.append_assoc, ← hpaths, List.map_append] at hnodup
        exact (List.nodup_append.mp hnodup).2.2 _ hmem _ List.mem_cons_self rfl
      · have hround := round_ok hwf hstands h₁
        refine ih hround.wellFormed (hext.trans hround.library) (fun v hv => ?_) h
        obtain hv | hv := List.mem_append.mp hv
        · obtain ⟨x, hx, rfl⟩ := List.mem_map.mp (List.mem_reverse.mp hv)
          obtain ⟨q, e', hasks, hpath', hpaths', -, hfind, hx'⟩ := hround.fetched x hx
          refine ⟨e', pre ++ [q], hx', ?_, fun r hr qs hqs => ?_⟩
          · rw [hpaths', hpaths, List.append_assoc]
          · rw [hpath'] at hqs
            rw [List.append_assoc]
            refine hway r (fun p x hx => hr p x (hround.library.keeps p x hx)) _ (.more hasks ?_ hqs)
            exact hr q e' hfind
        · obtain ⟨e', pre', hv', hpaths', hway'⟩ := hus v (List.mem_cons_of_mem _ hv)
          exact ⟨e', pre', hv'.keeps hwf hround.keeps, hpaths', fun r hr =>
            hway' r fun p x hx => hr p x (hround.library.keeps p x hx)⟩

/-! ## The imports of a document -/

/-- `resolve`, where some number of rounds is allowed, and something else is done when they are used up. -/
def resolveOr (stop : Action Desk (List Splice)) (n : Nat) (o : Options) (load : Loader) (document : Placed) :
    Action Desk Unit := do
  spliceAll o load (← readAllOr stop o load n [⟨document, []⟩] [])

theorem resolve_eq (document : Placed) :
    resolve o load document = resolveOr (.fail .exhausted) rounds o load document := by
  unfold resolve resolveOr
  rw [readAll_eq]

/-- For every loader of documents under finitely many paths, replacing the static imports of a document comes to an end.
    If the imports are circular, it fails; if they are not, it does not say that they are. -/
theorem resolve_refuses_cycles (document : Placed) (hload : FinitelyManyKeys load) (hwf : d.tree.WellFormed)
    (hl : d.tree.Live document.root) (hr : d.tree.parent? document.root = none) :
    resolve o load document = resolveOr (.fail .exhausted) rounds o load document
      ∧ (∃ N, ∀ n, N ≤ n → ∀ stop,
          resolveOr stop n o load document d = resolveOr (.fail .exhausted) N o load document d)
      ∧ ((∀ r, Reading load d.library r → Circular o r document.path (d.tree.element document.root)) →
          ∀ n, ∃ err d', resolveOr (.fail .exhausted) n o load document d = .error err d')
      ∧ ((∀ r, Reading load d.library r → ¬ Circular o r document.path (d.tree.element document.root)) →
          ∀ n err d', resolveOr (.fail .exhausted) n o load document d = .error err d' → ¬ Refusal load err) := by
  have hstands : Stands d.tree ⟨document, []⟩ (d.tree.element document.root) := ⟨hl, hr, hwf.holds_element _⟩
  have hpaths : Unread.paths ⟨document, []⟩ = document.path.toList := rfl
  refine ⟨resolve_eq document, ?_, fun hcircular n => ?_, fun hnone n err d' h href => ?_⟩
  · obtain ⟨N, hN⟩ := exists_rounds_of_keys (o := o) hload d [⟨document, []⟩] []
    refine ⟨N, fun n hn stop => ?_⟩
    unfold resolveOr
    show EStateM.bind _ _ d = EStateM.bind _ _ d
    unfold EStateM.bind
    rw [hN n hn stop, ← readAll_eq]
  · cases h : resolveOr (.fail .exhausted) n o load document d with
    | error err d' => exact ⟨err, d', rfl⟩
    | ok _ d' =>
      unfold resolveOr at h
      obtain ⟨ss, d₁, h₁, -⟩ := Action.bind_eq_ok.mp h
      rw [← readAll_eq] at h₁
      obtain ⟨hext, hnodup⟩ := nodup_of_readAll hwf (List.forall_mem_singleton.mpr ⟨_, hstands⟩) h₁
      obtain ⟨r, hr, hle⟩ := exists_reading hext
      obtain ⟨qs, hleads, htwice⟩ := hcircular r hr
      obtain ⟨hapart, hnodup⟩ := hnodup r hle _ List.mem_cons_self _ qs hstands hleads
      refine absurd ?_ htwice
      rw [List.map_append]
      refine List.nodup_append.mpr ⟨?_, hnodup, fun k hk k' hk' heq => ?_⟩
      · cases document.path with
        | none => exact List.nodup_nil
        | some path => exact List.nodup_singleton _
      · obtain ⟨q, hq, rfl⟩ := List.mem_map.mp hk'
        exact hapart q hq (heq ▸ hpaths ▸ hk)
  · unfold resolveOr at h
    obtain h | ⟨ss, d₁, -, h⟩ := Action.bind_eq_error.mp h
    · rw [← readAll_eq] at h
      have hfound : ∃ l, d.library.Extends load l ∧ Circular o l.find? document.path (d.tree.element document.root) :=
        circular_of_readAll hwf .refl
          (List.forall_mem_singleton.mpr ⟨_, [], hstands, (List.append_nil _).symm, fun _ _ _ hqs => hqs⟩) h href
      obtain ⟨l, hext, qs, hleads, htwice⟩ := hfound
      obtain ⟨r, hr, hle⟩ := exists_reading hext
      exact hnone r hr ⟨qs, hleads.mono hle, htwice⟩
    · exact quiet_spliceAll ss d₁ err d' h href

/-! ### Documents that import each other, and documents that share one -/

/-- A document that imports others. -/
def importing (targets : List String) : Element :=
  .mk "format" [] "" .none (targets.map fun p => .mk "import" [("type", "xml"), ("target", p)] "" .none [])

/-- `/a` and `/b` import each other; `/c` and `/d` both import `/e`. -/
def crossing : Loader
  | "/a" => .ok (importing ["/b"])
  | "/b" => .ok (importing ["/a"])
  | "/c" => .ok (importing ["/e"])
  | "/d" => .ok (importing ["/e"])
  | "/e" => .ok (importing [])
  | _ => .error (.of .exhausted)

theorem resolve_refuses_cycles_crossing :
    let o : Options := .standard ⟨2000, 1, 1, 0, 0, 0, 0⟩
    ∃ err d', resolve o crossing ⟨0, none⟩ ⟨Tree.ofElement (importing ["/a"]), .empty⟩ = .error err d' := by
  intro o
  have hg := Tree.grafted_ofElement (importing ["/a"])
  have hload : FinitelyManyKeys crossing := by
    refine (["/a", "/b", "/c", "/d", "/e"].map FilePath.key).finite_toSet.subset ?_
    rintro _ ⟨path, e, he, rfl⟩
    refine List.mem_map_of_mem ?_
    unfold crossing at he
    split at he <;> simp_all
  have hsame : ∀ p q e e', FilePath.same p q = true → crossing p = .ok e → crossing q = .ok e' → e = e' := by
    intro p q e e' hpq he he'
    unfold crossing at he he'
    split at he <;> split at he' <;> cases he <;> cases he' <;> first | rfl | exact absurd hpq (by decide +kernel)
  obtain ⟨heq, -, hcircular, -⟩ := resolve_refuses_cycles (o := o)
    (d := ⟨Tree.ofElement (importing ["/a"]), .empty⟩) ⟨0, none⟩ hload hg.wellFormed hg.live_root hg.parent?_root
  rw [heq]
  refine hcircular (fun r hr => ?_) rounds
  have hread : ∀ q e, crossing q = .ok e → r q = some e := by
    intro q e he
    obtain ⟨e', he'⟩ := Option.ne_none_iff_exists'.mp (hr.all q e he)
    obtain hk | ⟨-, p, hp, hpe⟩ := hr.read q e' he'
    · cases hk
    · rw [he', hsame p q e' e hp hpe he]
  have hasks : ∀ origin p, p ∈ ["/a", "/b"] → Asks o origin (importing [p]) p := by
    intro origin p hp
    have habsolute : FilePath.isAbsolute p = true ∧ target (Tree.ofElement (importing [p])) 1 = .ok p
        ∧ 1 ∈ statics (Tree.ofElement (importing [p])) 0 := by
      simp only [List.mem_cons, List.not_mem_nil, or_false] at hp
      obtain rfl | rfl := hp <;> decide +kernel
    exact ⟨1, habsolute.2.2, p, habsolute.2.1, (FilePath.resolve_of_isAbsolute habsolute.1).symm⟩
  rw [hg.holds.eq_element hg.wellFormed]
  exact ⟨["/a", "/b", "/a"], .more (hasks none "/a" (by decide)) (hread "/a" _ rfl)
    (.more (hasks _ "/b" (by decide)) (hread "/b" _ rfl) (.one (hasks _ "/a" (by decide)))), by decide +kernel⟩

/-- A document that is imported twice on different ways is not refused. -/
example :
    Action.succeeds (resolve (.standard ⟨2000, 1, 1, 0, 0, 0, 0⟩) crossing ⟨0, none⟩
      ⟨Tree.ofElement (importing ["/c", "/d"]), .empty⟩) (fun _ d' => d'.library.size = 3) = true := by
  decide +kernel

end Stencil.Import
