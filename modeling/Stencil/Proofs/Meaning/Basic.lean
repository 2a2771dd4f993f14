/-
  What a template means.

  A walk keeps its place in a scan, a run of siblings and a stack of loops.  For templates that are made
  of fields, groups and counted loops only, the bytes it writes can be said without any of them, by
  recursion on the elements:

    * a field gives the bytes of its value, which is looked up in the current record under its key;
    * a group gives what its children give, one after another, under a longer key;
    * a loop gives what its runs give.  The first run is on the current record.  If the loop fetches, each
      further run is on the next record that has not been read, and there is none when no record is left.

  The current record is handed down and the unread rows are handed on.  So nothing has to be put back at
  the end of a loop: what stands behind it never gets another record than what stands before it.

  `plain` says which elements these are, `meaning` what they give.
-/
import Stencil.Field.Layout
import Stencil.Field.Value
import Stencil.Loop
import Stencil.Table

set_option autoImplicit false

namespace Stencil.Meaning

open Stencil.Text (boundedInt trim)

/-! ## Plain templates -/

/-- How often a loop runs. -/
structure Limits where
  /-- The greatest number of runs. -/
  max : Option Nat
  /-- Whether each run but the first is on a record of its own. -/
  fetch : Bool
  deriving DecidableEq, Repr

/-- An attribute that is true or false, false if it is not declared; none if it is neither. -/
def flag? (e : Element) (name : String) : Option Bool :=
  match e.attr? name with
  | none => some false
  | some text =>
    if Loop.sameWord (trim text) "true" then some true
    else if Loop.sameWord (trim text) "false" then some false
    else none

/-- The maximum that is written out, if there is one; none if the maximum is computed or is no number. -/
def max? (e : Element) : Option (Option Nat) :=
  match e.attr? "max", e.attr? "xmax" with
  | some text, _ =>
    match boundedInt .int64 (trim text) with
    | .ok (.ofNat n) => some (some n)
    | _ => none
  | none, some _ => none
  | none, none => some none

/-- The limits of a counted loop that declares them in words and numbers. -/
def limits? (e : Element) : Option Limits :=
  match (e.attr? "type").getD "", max? e, flag? e "fetch", flag? e "unrolling" with
  | "", some max, some fetch, some _ => if max.isNone && !fetch then none else some ⟨max, fetch⟩
  | _, _, _, _ => none

/-- Whether a field is written where it stands, once, and its value is a text: from the record, or the
    one that its only child holds. -/
def simpleField (e : Element) : Bool :=
  (["offset", "eval", "xbytes"].all fun name => (e.attr? name).isNone)
    && match e.children with
      | [] => true
      | [d] =>
        d.name == "default-value" && d.children.isEmpty
          && Field.Origin.ofName (d.attr? "type") == .literal
      | _ => false

/-- Whether the maximum of a loop, if it has one, is written out. -/
def literalMax (e : Element) : Bool := (e.attr? "max").isSome || (e.attr? "xmax").isNone

mutual

/-- Whether an element is a field, a group, a loop or nothing, and all elements below it are. -/
def plain : Element → Bool
  | .mk n a x c cs =>
    match Tag.ofName? n with
    | some .item => simpleField (.mk n a x c cs) && (a.get? "type").isNone
    | some .items | some .nop => plainAll cs
    | some .loop => (limits? (.mk n a x c cs)).isSome && plainAll cs
    | _ => false

/-- Whether all elements of a list are plain. -/
def plainAll : List Element → Bool
  | [] => true
  | e :: es => plain e && plainAll es

end

/-- Whether an element is a template of plain elements.  Of its root only the children are walked. -/
def plainTemplate (e : Element) : Bool :=
  e.name != "repeat" && !(e.name == "import" && e.attr? "type" == some "xml") && plainAll e.children

/-! ## Their meaning -/

/-- The value of a column in a record. -/
def lookup (columns : Entries Nat) (record : List String) (key : String) : String :=
  match columns.get? key with
  | some place => record.getD place ""
  | none => ""

/-- A key extended by the name of an element. -/
def keyIn (key : String) (e : Element) : String :=
  let name := (e.attr? "name").getD ""
  if name.isEmpty then key else if key.isEmpty then name else key ++ "/" ++ name

/-- What an element gives: bytes, and the rows that are left unread. -/
abbrev Given := Except Error (Bytes × List Row)

/-- What two elements give, one behind the other. -/
def andThen (x : Given) (next : List Row → Given) : Given := do
  let (bytes, unread) ← x
  let (more, unread) ← next unread
  return (bytes ++ more, unread)

/-- The record of a further run, and the rows that are unread then; none if there is no further run. -/
def further? (fetch : Bool) (record : List String) : List Row → Option (List String × List Row)
  | row :: unread => some (if fetch then (row.fields, unread) else (record, row :: unread))
  | [] => if fetch then none else some (record, [])

/-- What the further runs of a loop give, at most so many. -/
def furtherRuns (body : List String → List Row → Given) (fetch : Bool) (record : List String) :
    Nat → List Row → Given
  | 0, unread => .ok ([], unread)
  | n + 1, unread =>
    match further? fetch record unread with
    | none => .ok ([], unread)
    | some (r, unread) => andThen (body r unread) (furtherRuns body fetch record n)

/-- What the runs of a loop give.  Each run but the first takes a row if there is no maximum, so there are
    no more runs than unread rows, and one. -/
def runs (body : List String → List Row → Given) (l : Limits) (record : List String)
    (unread : List Row) : Given :=
  match l.max.getD (unread.length + 1) with
  | 0 => .ok ([], unread)
  | n + 1 => andThen (body record unread) (furtherRuns body l.fetch record n)

/-- The bytes of a field with a value from the records; the value it declares stands in for an empty one. -/
def fieldBytes (e : Element) (value : String) : Except Error Bytes := do
  let fallback := (e.children.head?.map Element.text).getD ""
  return (← Field.layout (Tree.ofElement e) 0 (if value.isEmpty then fallback else value)).bytes

/-- What a field gives. -/
def field (columns : Entries Nat) (key : String) (record : List String) (e : Element) :
    Except Error Bytes :=
  fieldBytes e (lookup columns record (keyIn key e))

mutual

/-- What an element gives, under a key, on a record. -/
def meaning (columns : Entries Nat) : Element → String → List String → List Row → Given
  | .mk n a x c cs, key, record, unread =>
    match Tag.ofName? n with
    | some .item => (field columns key record (.mk n a x c cs)).map fun bytes => (bytes, unread)
    | some .items => meaningAll columns cs (keyIn key (.mk n a x c cs)) record unread
    | some .loop =>
      match limits? (.mk n a x c cs) with
      | some l =>
        if cs.isEmpty then .ok ([], unread)
        else runs (meaningAll columns cs (keyIn key (.mk n a x c cs))) l record unread
      | none => .ok ([], unread)
    | _ => .ok ([], unread)

/-- What the elements of a list give, one after another. -/
def meaningAll (columns : Entries Nat) : List Element → String → List String → List Row → Given
  | [], _, _, unread => .ok ([], unread)
  | e :: es, key, record, unread =>
    andThen (meaning columns e key record unread) (meaningAll columns es key record)

end

/-- The bytes of a template.  The first row of the table is the current record at the beginning. -/
def ofTemplate (e : Element) (table : Option Table) : Except Error Bytes :=
  let t := (table.getD .empty).read.2
  (meaningAll t.columns e.children "" t.current t.unread).map Prod.fst

/-- A loop that fetches runs once for each record, and the record before it is current again. -/
example :
    let field : Element := .mk "item" [("name", "a")] "" .none []
    let loop : Element := .mk "repeat" [("fetch", "true")] "" .none [field]
    let table : Table := ((Table.ofHeader ["a"]).addRow ["1"] 2).addRow ["2"] 3
    (ofTemplate (.mk "format" [] "" .none [loop, field]) (some table)).toOption = some [49, 50, 49] := by
  decide +kernel

/-! ## Rows -/

theorem suffix_andThen {x : Given} {next : List Row → Given} {unread rest : List Row} {bytes : Bytes}
    (hx : ∀ bs u, x = .ok (bs, u) → u <:+ unread)
    (hn : ∀ bs u u', next u = .ok (bs, u') → u' <:+ u) (h : andThen x next = .ok (bytes, rest)) :
    rest <:+ unread := by
  unfold andThen at h
  cases hr : x with
  | error e => rw [hr] at h; cases h
  | ok r =>
    obtain ⟨bs, u⟩ := r
    rw [hr] at h
    simp only [bind, Except.bind, pure, Except.pure] at h
    cases hr' : next u with
    | error e => rw [hr'] at h; cases h
    | ok r' =>
      obtain ⟨cs, u'⟩ := r'
      rw [hr'] at h
      cases h
      exact (hn _ _ _ hr').trans (hx _ _ hr)

theorem suffix_further {fetch : Bool} {record r : List String} {unread u : List Row}
    (h : further? fetch record unread = some (r, u)) : u <:+ unread := by
  cases unread with
  | nil =>
    cases fetch <;> simp only [further?] at h <;> cases h
    exact List.suffix_rfl
  | cons row rows =>
    cases fetch <;> cases h
    · exact List.suffix_rfl
    · exact List.suffix_cons _ _

section

variable {body : List String → List Row → Given}
  (hb : ∀ r bs u u', body r u = .ok (bs, u') → u' <:+ u)

include hb

theorem suffix_furtherRuns {fetch : Bool} {record : List String} {n : Nat} {unread rest : List Row}
    {bytes : Bytes} (h : furtherRuns body fetch record n unread = .ok (bytes, rest)) :
    rest <:+ unread := by
  induction n generalizing unread rest bytes with
  | zero =>
    cases h
    exact List.suffix_rfl
  | succ n ih =>
    rw [furtherRuns] at h
    cases hf : further? fetch record unread with
    | none =>
      rw [hf] at h
      cases h
      exact List.suffix_rfl
    | some next =>
      obtain ⟨r, u⟩ := next
      rw [hf] at h
      have hrest : rest <:+ u := suffix_andThen (fun bs u' h => hb _ _ _ _ h) (fun bs u' v h => ih h) h
      exact hrest.trans (suffix_further hf)

theorem suffix_runs {l : Limits} {record : List String} {unread rest : List Row} {bytes : Bytes}
    (h : runs body l record unread = .ok (bytes, rest)) : rest <:+ unread := by
  unfold runs at h
  split at h
  · cases h
    exact List.suffix_rfl
  · refine suffix_andThen (fun bs u' h => hb _ _ _ _ h) ?_ h
    exact fun bs u u' h => suffix_furtherRuns hb h

end

mutual

/-- Rows are read in order; none comes back. -/
theorem suffix_meaning {columns : Entries Nat} : ∀ {e : Element} {key : String} {record : List String}
    {unread rest : List Row} {bytes : Bytes},
    meaning columns e key record unread = .ok (bytes, rest) → rest <:+ unread
  | .mk n a x c cs, key, record, unread, rest, bytes, h => by
    unfold meaning at h
    split at h
    · cases hf : field columns key record (.mk n a x c cs) with
      | error e => rw [hf] at h; cases h
      | ok bs =>
        rw [hf] at h
        cases h
        exact List.suffix_rfl
    · exact suffix_meaningAll h
    · split at h
      · split at h
        · cases h
          exact List.suffix_rfl
        · exact suffix_runs (fun r bs u u' h => suffix_meaningAll h) h
      · cases h
        exact List.suffix_rfl
    · cases h
      exact List.suffix_rfl

theorem suffix_meaningAll {columns : Entries Nat} : ∀ {es : List Element} {key : String}
    {record : List String} {unread rest : List Row} {bytes : Bytes},
    meaningAll columns es key record unread = .ok (bytes, rest) → rest <:+ unread
  | [], _, _, _, _, _, h => by
    rw [meaningAll] at h
    cases h
    exact List.suffix_rfl
  | e :: es, _, _, _, _, _, h => by
    rw [meaningAll] at h
    exact suffix_andThen (fun bs u h => suffix_meaning h) (fun bs u u' h => suffix_meaningAll h) h

end

end Stencil.Meaning
