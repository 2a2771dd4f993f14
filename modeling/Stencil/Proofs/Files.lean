/-
  What writing a file does.

  Writing changes the entry of one place, which is no directory before.  A path is followed along directories only, so
  every path leads where it led before (`locate_set`), and the file that was written is read back (`read_of_write`).
-/
import Stencil.Files

set_option autoImplicit false

namespace Stencil.Files

variable {fs fs' : Files} {p q : Place} {path : String} {bytes : Bytes} {e : FileEntry}

theorem find_setEntry (hne : q ≠ p) (xs : List (Place × FileEntry)) :
    ((setEntry p e xs).find? fun x => x.1 == q) = xs.find? fun x => x.1 == q := by
  have hpq : ((p, e).1 == q) = false := beq_eq_false_iff_ne.mpr fun h => hne h.symm
  induction xs with
  | nil =>
    rw [setEntry, List.find?_cons_of_neg (by rw [hpq]; decide)]
  | cons x xs ih =>
    rw [setEntry]
    by_cases hx : x.1 = p
    · have hxq : (x.1 == q) = false := beq_eq_false_iff_ne.mpr fun h => hne (h.symm.trans hx)
      rw [if_pos hx, List.find?_cons_of_neg (by rw [hpq]; decide), List.find?_cons_of_neg (by rw [hxq]; decide)]
    · rw [if_neg hx, List.find?_cons, List.find?_cons, ih]

/-- Setting an entry changes no other one. -/
theorem entry_set_of_ne (fs : Files) (hne : q ≠ p) (e : FileEntry) : (fs.set p e).entry q = fs.entry q := by
  unfold entry set
  rw [find_setEntry hne]

/-- Directories stay when something else is set. -/
theorem entry_set_directory (hp : fs.entry p ≠ .directory) (hq : fs.entry q = .directory) (e : FileEntry) :
    (fs.set p e).entry q = .directory := by
  have hne : q ≠ p := fun h => hp (h ▸ hq)
  rw [entry_set_of_ne fs hne, hq]

theorem follow_set (hp : fs.entry p ≠ .directory) (e : FileEntry) {ss : List String} {start : Place}
    (h : fs.follow start ss = .ok q) : (fs.set p e).follow start ss = .ok q := by
  induction ss generalizing start with
  | nil => exact h
  | cons s ss ih =>
    rw [follow] at h ⊢
    cases hstart : fs.entry start with
    | absent | unread | file =>
      rw [hstart] at h
      cases h
    | directory =>
      rw [hstart] at h
      rw [entry_set_directory hp hstart e]
      dsimp only at h ⊢
      split
      · rename_i hdot
        rw [if_pos hdot] at h
        exact ih h
      · rename_i hdot
        rw [if_neg hdot] at h
        split
        · rename_i hup
          rw [if_pos hup] at h
          exact ih h
        · rename_i hup
          rw [if_neg hup] at h
          split
          · rename_i hlong
            rw [if_pos hlong] at h
            cases h
          · rename_i hlong
            rw [if_neg hlong] at h
            exact ih h

/-- A path leads to the same place when something that is no directory has been set. -/
theorem locate_set (hp : fs.entry p ≠ .directory) (e : FileEntry) (h : fs.locate path = .ok q) :
    (fs.set p e).locate path = .ok q := by
  unfold locate at h ⊢
  split
  · rename_i hempty
    rw [if_pos hempty] at h
    cases h
  · rename_i hempty
    rw [if_neg hempty] at h
    split
    · rename_i hnul
      rw [if_pos hnul] at h
      cases h
    · rename_i hnul
      rw [if_neg hnul] at h
      split
      · rename_i hlong
        rw [if_pos hlong] at h
        cases h
      · rename_i hlong
        rw [if_neg hlong] at h
        exact follow_set hp e h

/-- A file can be written where nothing or a file is, if its path does not end in a separator. -/
theorem write_eq_ok_iff : fs.write path bytes = .ok fs' ↔ withoutSlashes path = path ∧ ∃ p, fs.locate path = .ok p
    ∧ (fs.entry p ≠ .directory ∧ fs.entry p ≠ .unread) ∧ fs' = fs.set p (.file bytes) := by
  have hbare : ∀ bare : String, bare = path → (if bare.isEmpty then path else bare) = path := by
    rintro bare rfl
    exact ite_self _
  unfold write
  dsimp only
  constructor
  · intro h
    cases hp : fs.locate (if (withoutSlashes path).isEmpty then path else withoutSlashes path) with
    | error fault =>
      rw [hp] at h
      cases h
    | ok p =>
      rw [hp] at h
      dsimp only at h
      cases he : fs.entry p with
      | directory | unread =>
        rw [he] at h
        cases h
      | file | absent =>
        rw [he] at h
        dsimp only at h
        split at h
        · rename_i heq
          rw [hbare _ (eq_of_beq heq)] at hp
          exact ⟨eq_of_beq heq, p, hp, by rw [he]; exact ⟨FileEntry.noConfusion, FileEntry.noConfusion⟩,
            (Except.ok.inj h).symm⟩
        · cases h
  · rintro ⟨heq, p, hp, ⟨hdir, hread⟩, rfl⟩
    rw [hbare _ heq, hp]
    dsimp only
    cases he : fs.entry p with
    | directory => exact absurd he hdir
    | unread => exact absurd he hread
    | file | absent => exact if_pos (beq_iff_eq.mpr heq)

theorem names_ne_nil (h : fs.entry p ≠ .directory) : p.names ≠ [] := by
  intro hnames
  refine h ?_
  unfold entry
  rw [hnames]
  rfl

/-- What has been written is read back, and it can be written again. -/
theorem read_of_write (h : fs.write path bytes = .ok fs') :
    (fs'.exists? path = true ∧ fs'.read path = .ok bytes) ∧ ∀ more, ∃ fs'', fs'.write path more = .ok fs'' := by
  obtain ⟨hpath, p, hlocate, ⟨hdir, -⟩, rfl⟩ := write_eq_ok_iff.mp h
  have hp : (fs.set p (.file bytes)).locate path = .ok p := locate_set hdir _ hlocate
  have he : (fs.set p (.file bytes)).entry p = .file bytes := entry_set fs p _ (names_ne_nil hdir)
  refine ⟨?_, fun more => ⟨_, write_eq_ok_iff.mpr ⟨hpath, p, hp, ?_, rfl⟩⟩⟩
  · unfold exists? read
    rw [hp]
    dsimp only
    rw [he]
    exact ⟨rfl, rfl⟩
  · rw [he]
    exact ⟨FileEntry.noConfusion, FileEntry.noConfusion⟩

end Stencil.Files
