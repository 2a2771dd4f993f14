/-
  Reading static imports comes to an end.

  The documents around a document are never among its targets, and so their paths differ, spellings apart.  Where
  only finitely many paths lead to a document, this bounds how deep imports nest: with each document that is
  looked through, documents take its place around which more of the paths stand.  So `readAll` needs some number
  of rounds, whatever it does when they are used up (`exists_rounds`).

  The files of a run lead to finitely many documents, because long paths are refused (`finite_loader`).
-/
import Mathlib.Data.Finset.Card
import Mathlib.Data.Multiset.DershowitzManna
import Mathlib.Data.Set.Finite.List
import Stencil.Proofs.Action
import Stencil.Walk.Basic

set_option autoImplicit false

namespace Stencil.Import

variable {o : Options} {load : Loader} {d d' : Desk} {l l' : Library} {e : Element} {path : String}
  {node : NodeId} {nodes : List NodeId} {origin : Option String} {chain : List String} {p : Placed}
  {us : List Unread} {found : List Splice} {n : Nat}

/-- `readAll`, with another step in the place of the failure for more rounds than are allowed. -/
def readAllOr (stop : Action Desk (List Splice)) (o : Options) (load : Loader) :
    Nat → List Unread → List Splice → Action Desk (List Splice)
  | _, [], found => pure found
  | 0, _ :: _, _ => stop
  | n + 1, u :: us, found => do
    let chain := u.around ++ u.document.path.toList
    let nodes := statics (← get).tree u.document.root
    let targets ← readTargets o load u.document.path chain nodes
    readAllOr stop o load n ((targets.map Prod.snd).reverse ++ us)
      ((targets.map Prod.fst).reverse ++ found)

theorem readAll_eq (n : Nat) (us : List Unread) (found : List Splice) :
    readAll o load n us found = readAllOr (.fail .exhausted) o load n us found := by
  induction n generalizing us found with
  | zero => cases us <;> rfl
  | succ n ih =>
    cases us with
    | nil => rfl
    | cons u us =>
      unfold readAll readAllOr
      simp only [ih]

/-! ## Known paths -/

/-- A path, spellings apart. -/
abbrev PathKey := Bool × List String

/-- Only paths of `known` lead to documents, those that are kept and those that can be read. -/
structure Bounded (known : Finset PathKey) (load : Loader) (l : Library) : Prop where
  kept : ∀ x ∈ l.documents, FilePath.key x.1 ∈ known
  read : ∀ path e, load path = .ok e → FilePath.key path ∈ known

variable {known : Finset PathKey}

theorem Bounded.libraryFetch (hb : Bounded known load l) (h : Library.fetch load path l = .ok e l') :
    FilePath.key path ∈ known ∧ Bounded known load l' := by
  unfold Library.fetch at h
  cases hf : l.find? path with
  | some e' =>
    simp only [hf] at h
    cases h
    unfold Library.find? at hf
    obtain ⟨x, hx, -⟩ := Option.map_eq_some_iff.mp hf
    have hsame := List.find?_some hx
    unfold FilePath.same at hsame
    refine ⟨?_, hb⟩
    rw [← eq_of_beq hsame]
    exact hb.kept x (List.mem_of_find?_eq_some hx)
  | none =>
    simp only [hf] at h
    cases hl : load path with
    | error err => simp only [hl] at h; cases h
    | ok e' =>
      simp only [hl] at h
      cases h
      have hk := hb.read path _ hl
      refine ⟨hk, ⟨fun x hx => ?_, hb.read⟩⟩
      rcases List.mem_append.mp hx with hx | hx
      · exact hb.kept x hx
      · rw [List.mem_singleton] at hx
        exact hx ▸ hk

theorem Bounded.place (hb : Bounded known load d.library) (h : Import.place o load node origin d = .ok p d') :
    Bounded known load d'.library ∧ ∃ path, p.path = some path ∧ FilePath.key path ∈ known := by
  unfold Import.place at h
  rw [Action.get_bind_eq_ok] at h
  obtain ⟨name, -, h⟩ := Action.ofExcept_bind_eq_ok.mp h
  obtain ⟨e, d₁, hf, h⟩ := Action.bind_eq_ok.mp h
  rw [Action.get_bind_eq_ok] at h
  dsimp only at h
  rw [Action.set_bind_eq_ok] at h
  obtain ⟨rfl, rfl⟩ := Action.pure_eq_ok.mp h
  obtain ⟨l, hl, rfl⟩ := Action.within_eq_ok.mp hf
  obtain ⟨hk, hb'⟩ := hb.libraryFetch hl
  exact ⟨hb', _, rfl, hk⟩

/-- The targets of a document stand below it, and none of the documents around is among them. -/
theorem Bounded.readTargets {out : List (Splice × Unread)} (hb : Bounded known load d.library)
    (h : Import.readTargets o load origin chain nodes d = .ok out d') :
    Bounded known load d'.library ∧ ∀ x ∈ out, x.2.around = chain
      ∧ ∃ path, x.2.document.path = some path ∧ FilePath.key path ∈ known
        ∧ FilePath.key path ∉ chain.map FilePath.key := by
  induction nodes generalizing d out with
  | nil =>
    obtain ⟨rfl, rfl⟩ := Action.pure_eq_ok.mp h
    exact ⟨hb, fun x hx => absurd hx List.not_mem_nil⟩
  | cons node nodes ih =>
    unfold Import.readTargets at h
    obtain ⟨p, d₁, h₁, h⟩ := Action.bind_eq_ok.mp h
    obtain ⟨hb₁, path, hp, hk⟩ := hb.place h₁
    simp only [hp] at h
    by_cases hc : chain.any (FilePath.same · path) = true
    · simp only [hc, if_true] at h
      rw [Action.get_bind_eq_ok] at h
      obtain ⟨_, _, h₂, -⟩ := Action.bind_eq_ok.mp h
      exact (Action.failAt_eq_ok.mp h₂).elim
    · simp only [hc] at h
      obtain ⟨more, d₂, h₂, h⟩ := Action.bind_eq_ok.mp h
      obtain ⟨rfl, rfl⟩ := Action.pure_eq_ok.mp h
      obtain ⟨hb', hmore⟩ := ih hb₁ h₂
      refine ⟨hb', fun x hx => ?_⟩
      rcases List.mem_cons.mp hx with rfl | hx
      · refine ⟨rfl, path, hp, hk, fun hm => hc ?_⟩
        obtain ⟨c, hcm, hkey⟩ := List.mem_map.mp hm
        exact List.any_eq_true.mpr ⟨c, hcm, beq_iff_eq.mpr hkey⟩
      · exact hmore x hx

/-! ## Rounds -/

/-- The paths of a document and of those around it. -/
def Unread.paths (u : Unread) : List String := u.around ++ u.document.path.toList

/-- The number of known paths that do not stand around a document. -/
def remaining (known : Finset PathKey) (u : Unread) : Nat :=
  (known \ (u.paths.map FilePath.key).toFinset).card

theorem remaining_lt {u v : Unread} (ha : v.around = u.paths) (hp : v.document.path = some path)
    (hk : FilePath.key path ∈ known) (hn : FilePath.key path ∉ u.paths.map FilePath.key) :
    remaining known v < remaining known u := by
  have hpaths : v.paths = u.paths ++ [path] := by
    unfold Unread.paths at ha ⊢
    rw [ha, hp]
    rfl
  refine Finset.card_lt_card (Finset.ssubset_iff_of_subset (fun key hkey => ?_) |>.mpr ⟨FilePath.key path, ?_, ?_⟩)
  · rw [Finset.mem_sdiff, List.mem_toFinset, hpaths, List.map_append] at hkey
    rw [Finset.mem_sdiff, List.mem_toFinset]
    exact ⟨hkey.1, fun hm => hkey.2 (List.mem_append_left _ hm)⟩
  · rw [Finset.mem_sdiff, List.mem_toFinset]
    exact ⟨hk, hn⟩
  · rw [Finset.mem_sdiff, List.mem_toFinset, hpaths, List.map_append]
    exact fun hm => hm.2 (List.mem_append_right _ List.mem_cons_self)

/-- Some number of rounds is enough, and what is done when rounds are used up does not matter. -/
theorem exists_rounds_of_bounded (hb : Bounded known load d.library) :
    ∃ N, ∀ n, N ≤ n → ∀ stop, readAllOr stop o load n us found d = readAll o load N us found d := by
  induction hm : (us.map (remaining known) : Multiset Nat) using
    (Multiset.wellFounded_isDershowitzMannaLT (α := Nat)).induction generalizing us found d with
  | _ m ih =>
  subst hm
  cases us with
  | nil =>
    refine ⟨0, fun n _ stop => ?_⟩
    rw [readAll_eq]
    cases n <;> rfl
  | cons u us =>
    have hround : ∀ n stop, readAllOr stop o load (n + 1) (u :: us) found d
        = (readTargets o load u.document.path u.paths (statics d.tree u.document.root) >>= fun targets =>
            readAllOr stop o load n ((targets.map Prod.snd).reverse ++ us)
              ((targets.map Prod.fst).reverse ++ found)) d := fun n stop => rfl
    cases ht : readTargets o load u.document.path u.paths (statics d.tree u.document.root) d with
    | error err d₁ =>
      refine ⟨1, fun n hn stop => ?_⟩
      obtain ⟨n, rfl⟩ := Nat.exists_eq_add_of_le' hn
      have hfail : ∀ f : List (Splice × Unread) → Action Desk (List Splice),
          (readTargets o load u.document.path u.paths (statics d.tree u.document.root) >>= f) d
            = .error err d₁ := by
        intro f
        show EStateM.bind _ f d = _
        unfold EStateM.bind
        rw [ht]
      rw [readAll_eq, hround, hround, hfail, hfail]
    | ok out d₁ =>
      have hnext : ∀ f : List (Splice × Unread) → Action Desk (List Splice),
          (readTargets o load u.document.path u.paths (statics d.tree u.document.root) >>= f) d = f out d₁ := by
        intro f
        show EStateM.bind _ f d = _
        unfold EStateM.bind
        rw [ht]
      obtain ⟨hb₁, hout⟩ := hb.readTargets ht
      -- what takes the place of the document has fewer paths left than it
      have hless : Multiset.IsDershowitzMannaLT
          (((out.map Prod.snd).reverse ++ us).map (remaining known) : Multiset Nat)
          ((u :: us).map (remaining known) : List Nat) := by
        refine ⟨(us.map (remaining known) : List Nat), ((out.map Prod.snd).reverse.map (remaining known) : List Nat),
          {remaining known u}, Multiset.singleton_ne_zero _, ?_, ?_, fun y hy => ?_⟩
        · rw [List.map_append, ← Multiset.coe_add, add_comm]
        · rw [List.map_cons, ← Multiset.cons_coe, add_comm, Multiset.singleton_add]
        · obtain ⟨v, hv, rfl⟩ := List.mem_map.mp (Multiset.mem_coe.mp hy)
          obtain ⟨x, hx, rfl⟩ := List.mem_map.mp (List.mem_reverse.mp hv)
          obtain ⟨ha, path, hp, hk, hn⟩ := hout x hx
          exact ⟨_, Multiset.mem_singleton_self _, remaining_lt ha hp hk hn⟩
      obtain ⟨N, hN⟩ := ih _ hless hb₁ rfl
      refine ⟨N + 1, fun n hn stop => ?_⟩
      obtain ⟨n, rfl⟩ := Nat.exists_eq_add_of_le' (Nat.le_trans (Nat.le_add_left 1 N) hn)
      rw [readAll_eq, hround, hround, hnext, hnext, hN n (by omega) stop, readAll_eq]

/-- Documents come from finitely many paths, spellings apart. -/
def FinitelyManyKeys (load : Loader) : Prop := {key | ∃ path e, load path = .ok e ∧ FilePath.key path = key}.Finite

/-- Reading static imports ends, if documents come from finitely many paths, spellings apart. -/
theorem exists_rounds_of_keys (hload : FinitelyManyKeys load) (d : Desk) (us : List Unread) (found : List Splice) :
    ∃ N, ∀ n, N ≤ n → ∀ stop, readAllOr stop o load n us found d = readAll o load N us found d := by
  classical
  have hb : Bounded ((d.library.documents.map fun x => FilePath.key x.1).toFinset ∪ hload.toFinset) load d.library := by
    refine ⟨fun x hx => ?_, fun path e he => ?_⟩
    · exact Finset.mem_union_left _ (List.mem_toFinset.mpr (List.mem_map_of_mem hx))
    · exact Finset.mem_union_right _ (hload.mem_toFinset.mpr ⟨path, e, he, rfl⟩)
  exact exists_rounds_of_bounded hb

end Stencil.Import
