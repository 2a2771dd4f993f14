/-
  Named values in the order in which their names first came up.

  Attributes of an element, columns of a table, named counters, external values and outputs are all
  of this shape: a list of pairs in which a name stands at most once.  Inserting under a name that is
  there replaces the value and keeps the place; inserting under a new name appends.

  The laws: `get?_insert` (what is read after an insertion), `keys_insert` (the order) and
  `nodup_keys_insert` (a name stands at most once).
-/
set_option autoImplicit false

namespace Stencil

/-- Values under names, in order of first insertion. -/
abbrev Entries (α : Type) := List (String × α)

namespace Entries

variable {α : Type}

/-- The value under a name. -/
def get? (name : String) : Entries α → Option α
  | [] => none
  | (n, v) :: es => if n = name then some v else get? name es

/-- Replaces the value under a name, or appends a new entry. -/
def insert (name : String) (value : α) : Entries α → Entries α
  | [] => [(name, value)]
  | (n, v) :: es => if n = name then (n, value) :: es else (n, v) :: insert name value es

/-- The names in order. -/
def keys (es : Entries α) : List String := es.map Prod.fst

/-- Whether a name has a value. -/
def contains (name : String) (es : Entries α) : Bool := (get? name es).isSome

/-- Inserts pairs one after another. -/
def ofList (pairs : List (String × α)) : Entries α :=
  pairs.foldl (fun es p => insert p.1 p.2 es) []

@[simp] theorem get?_nil (name : String) : get? name ([] : Entries α) = none := rfl

/-- An insertion is seen under its own name only. -/
theorem get?_insert (name other : String) (value : α) (es : Entries α) :
    get? other (insert name value es) = if name = other then some value else get? other es := by
  induction es with
  | nil => simp [insert, get?]
  | cons e es ih =>
    obtain ⟨n, v⟩ := e
    by_cases hn : n = name
    · subst hn
      by_cases ho : n = other <;> simp [insert, get?, ho]
    · by_cases ho : n = other
      · subst ho; simp [insert, get?, hn, Ne.symm hn]
      · simp [insert, get?, hn, ho, ih]

/-- A new name comes last; a known one keeps its place. -/
theorem keys_insert (name : String) (value : α) (es : Entries α) :
    keys (insert name value es) = if name ∈ keys es then keys es else keys es ++ [name] := by
  induction es with
  | nil => simp [insert, keys]
  | cons e es ih =>
    obtain ⟨n, v⟩ := e
    by_cases hn : n = name
    · subst hn; simp [insert, keys]
    · have ih' := ih
      simp only [keys] at ih'
      by_cases hm : name ∈ es.map Prod.fst
      · simp [insert, keys, hn, Ne.symm hn, hm, ih']
      · simp [insert, keys, hn, Ne.symm hn, hm, ih']

/-- A name stands at most once. -/
theorem nodup_keys_insert (name : String) (value : α) {es : Entries α} (h : (keys es).Nodup) :
    (keys (insert name value es)).Nodup := by
  rw [keys_insert]
  split
  · exact h
  · rename_i hm
    rw [List.nodup_append]
    refine ⟨h, by simp, ?_⟩
    intro a ha b hb
    have : b = name := by simpa using hb
    subst this
    intro hab; exact hm (hab ▸ ha)

end Entries

end Stencil
