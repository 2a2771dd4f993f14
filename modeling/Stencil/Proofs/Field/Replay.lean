/-
  Lazy fields are written again inside their own bytes.

  A lazy field with a literal width reserves so many bytes when it is put into a sink (`Reservation`).  As the stream stands
  at its end before each field, reservations do not overlap, and they lie within the bytes of the stream
  (`Reserved`, which every field that is put into the sink keeps: `reserved_putAll`).

  Completing the level writes the fields again, the newest first, each with the text it has by then (`Replays`).  The width
  is literal, so each field has as many bytes as before, and one write after another changes nothing outside of the
  reservations, nor inside those that have been written already (`Replays.outside`, `Replays.inside`).
-/
import Stencil.Proofs.Field.Writing

set_option autoImplicit false

namespace Stencil

open Stencil.Field (WorkedOut)

namespace Job

variable {o : Options} {files : Files} {item : NodeId} {place spot : Option Nat} {j j₁ j' done : Job} {w : Workspace}
  {text : String} {l : Field.Layout} {e : Error} {t : Tree}

/-! ## Putting fields into a sink -/

/-- A lazy field in a sink: the place of its bytes, and how many they are. -/
structure Reservation where
  /-- The field. -/
  item : NodeId
  /-- The place of the first byte. -/
  place : Nat
  /-- The number of bytes. -/
  size : Nat
  deriving DecidableEq

/-- A reserved field as it waits. -/
def Reservation.waiting (r : Reservation) : Waiting := ⟨r.item, some r.place⟩

/-- The width that a field states literally; zero if it states none. -/
def literalWidth (t : Tree) (item : NodeId) : Int :=
  match t.attr? item "bytes" with
  | some text => (Field.readWidth text).toOption.getD 0
  | none => 0

/-- What a field reserves where the sink stands, if it is lazy: a negative width is no byte. -/
def reserve (j : Job) (item : NodeId) : List Reservation :=
  if j.space.tree.attr? item "eval" = some "lazy" then
    [⟨item, j.sink.stream.position, (literalWidth j.space.tree item).toNat⟩]
  else []

/-- Puts fields into a sink one after another, and keeps what the lazy ones reserve.  A field that cannot be written is
    passed over. -/
def putAll (o : Options) (files : Files) : List NodeId → Job → List Reservation × Job
  | [], j => ([], j)
  | item :: items, j =>
    match setData o files item j with
    | .ok _ j' => ((reserve j item) ++ (putAll o files items j').1, (putAll o files items j').2)
    | .error _ j' => putAll o files items j'

/-- What reservations are in a sink: the fields wait on the innermost level, the newest first, and their bytes are there,
    one field's behind the other's. -/
structure Reserved (rs : List Reservation) (outer : List (List Waiting)) (j : Job) : Prop where
  atEnd : j.sink.stream.AtEnd
  levels : j.sink.levels = rs.reverse.map Reservation.waiting :: outer
  apart : rs.Pairwise fun r r' => r.place + r.size ≤ r'.place
  fits : ∀ r ∈ rs, r.place + r.size ≤ j.sink.stream.toBytes.length

theorem literalWidth_of_sameAttrs {t' : Tree} (h : t.SameAttrs t') : literalWidth t' item = literalWidth t item := by
  unfold literalWidth
  rw [h item "bytes"]

/-- The bytes of a field whose width is literal. -/
theorem length_layout (hb : t.attr? item "bytes" ≠ none) {value : String} (hl : Field.layout t item value = .ok l) :
    l.bytes.length = (literalWidth t item).toNat := by
  obtain ⟨text, hb⟩ := Option.ne_none_iff_exists'.mp hb
  have hwidth := Field.width?_of_text (.literal hb)
  cases hr : Field.readWidth text with
  | error e =>
    rw [hr] at hwidth
    rw [Field.layout_of_width_error hwidth] at hl
    cases hl
  | ok n =>
    rw [hr] at hwidth
    have hn : literalWidth t item = n := by
      unfold literalWidth
      rw [hb]
      dsimp only
      rw [hr]
      rfl
    rw [hn]
    exact (Field.measured_of_width hwidth hl).2

theorem length_of_workedOut {space : Workspace} {read : FileReader} (ht : t.SameAttrs space.tree)
    (hb : t.attr? item "bytes" ≠ none) (hw : WorkedOut o read item place space text w spot l) :
    l.bytes.length = (literalWidth t item).toNat := by
  have htext := ht.trans hw.sameAttrs
  rw [← literalWidth_of_sameAttrs htext]
  exact length_layout (by rwa [htext item "bytes"]) hw.layout

/-! ## Reservations -/

variable {rs : List Reservation} {outer : List (List Waiting)}

/-- A field that is written, wherever, leaves the reservations as they are. -/
theorem Reserved.emit {space : Workspace} (h : Reserved rs outer j) (place : Option Nat) (bs : Bytes) :
    Reserved rs outer ⟨space, j.sink.flush.emit place bs⟩ where
  atEnd := by
    show (j.sink.flush.stream.emit place bs).AtEnd
    rw [Sink.stream_flush]
    exact h.atEnd.emit place bs
  levels := (levels_flush j.sink).trans h.levels
  apart := h.apart
  fits := by
    intro r hr
    show _ ≤ (j.sink.flush.stream.emit place bs).toBytes.length
    rw [Sink.stream_flush]
    exact Nat.le_trans (h.fits r hr) (Stream.le_length_emit _ place bs)

/-- A lazy field reserves its bytes behind those that are reserved. -/
theorem Reserved.reserve {space : Workspace} (h : Reserved rs outer j) (item : NodeId) (bs : Bytes) :
    Reserved (rs ++ [⟨item, j.sink.stream.position, bs.length⟩]) outer
      ⟨space, { j.sink.flush.emit none bs with
        levels := (⟨item, some j.sink.stream.position⟩ :: rs.reverse.map Reservation.waiting) :: outer }⟩ := by
  obtain ⟨hbytes, hend⟩ := h.atEnd.write bs
  have hstream : (j.sink.flush.emit none bs).stream = j.sink.stream.write bs := by
    show j.sink.flush.stream.write bs = _
    rw [Sink.stream_flush]
  refine ⟨?_, ?_, ?_, ?_⟩
  · show (j.sink.flush.emit none bs).stream.AtEnd
    rw [hstream]
    exact hend
  · simp [Reservation.waiting]
  · refine List.pairwise_append.mpr ⟨h.apart, List.pairwise_singleton _ _, ?_⟩
    intro r hr r' hr'
    obtain rfl := List.mem_singleton.mp hr'
    show _ ≤ j.sink.stream.position
    rw [h.atEnd]
    exact h.fits r hr
  · intro r hr
    show _ ≤ (j.sink.flush.emit none bs).stream.toBytes.length
    rw [hstream, hbytes, List.length_append]
    rcases List.mem_append.mp hr with hr | hr
    · exact Nat.le_add_right_of_le (h.fits r hr)
    · obtain rfl := List.mem_singleton.mp hr
      show j.sink.stream.position + _ ≤ _
      rw [h.atEnd]

/-- Whether the lazy one of a field states its width literally and no place. -/
def LiteralIfLazy (t : Tree) (item : NodeId) : Prop :=
  t.attr? item "eval" = some "lazy" → t.attr? item "bytes" ≠ none ∧ t.attr? item "offset" = none

instance (t : Tree) (item : NodeId) : Decidable (LiteralIfLazy t item) := by unfold LiteralIfLazy; infer_instance

/-- Whether a reservation is that of a field with a literal width. -/
def Reservation.Literal (t : Tree) (r : Reservation) : Prop :=
  t.attr? r.item "bytes" ≠ none ∧ r.size = (literalWidth t r.item).toNat

theorem reserve_of_not_lazy (h : j.space.tree.attr? item "eval" ≠ some "lazy") : reserve j item = [] := if_neg h

/-- Putting a field into a sink: the reservations are those that there were, and its own if it is lazy. -/
theorem reserved_setData (o : Options) (files : Files) (ht : t.SameAttrs j.space.tree) (hlit : LiteralIfLazy t item)
    (h : Reserved rs outer j) :
    (∃ e j', setData o files item j = .error e j' ∧ Reserved rs outer j' ∧ t.SameAttrs j'.space.tree)
      ∨ ∃ j', setData o files item j = .ok () j' ∧ Reserved (rs ++ reserve j item) outer j'
        ∧ t.SameAttrs j'.space.tree ∧ ∀ r ∈ reserve j item, r.Literal t := by
  have hattrs := ht.trans (sameAttrs_write o files item none { j with sink := j.sink.flush })
  rcases Field.unwritable_or_workedOut o (j.sink.flush.reader files) item none j.space
    with ⟨e, w, hu⟩ | ⟨text, w, spot, l, hw⟩
  · have hwrite := write_of_unwritable (j := { j with sink := j.sink.flush }) hu
    rw [Action.outcome_of_error hwrite] at hattrs
    refine .inl ⟨_, _, setData_of_write_error hwrite, ⟨?_, ?_, h.apart, ?_⟩, hattrs⟩
    · show j.sink.flush.stream.AtEnd
      rw [Sink.stream_flush]
      exact h.atEnd
    · exact (levels_flush j.sink).trans h.levels
    · show ∀ r ∈ rs, _ ≤ j.sink.flush.stream.toBytes.length
      rw [Sink.stream_flush]
      exact h.fits
  · have hwrite := write_of_workedOut (j := { j with sink := j.sink.flush }) hw
    rw [Action.outcome_of_ok hwrite] at hattrs
    right
    by_cases hlazy : j.space.tree.attr? item "eval" = some "lazy"
    · obtain ⟨hbytes, hplace⟩ := hlit ((ht item "eval").symm.trans hlazy)
      -- it declares no place, so it is written at the position and reserves its bytes there
      obtain rfl := hw.spot_eq_none ((ht item "offset").trans hplace)
      have hlength := length_of_workedOut ht hbytes hw
      have hreserve : reserve j item = [⟨item, j.sink.stream.position, l.bytes.length⟩] := by
        unfold reserve
        rw [if_pos hlazy, literalWidth_of_sameAttrs ht, hlength]
      refine ⟨_, setData_of_lazy hlazy ((hattrs item "offset").trans hplace) ((levels_flush j.sink).trans h.levels) hwrite,
        ?_, hattrs, ?_⟩
      · rw [hreserve]
        exact h.reserve item l.bytes
      · rw [hreserve]
        rintro r hr
        obtain rfl := List.mem_singleton.mp hr
        exact ⟨hbytes, hlength⟩
    · rw [reserve_of_not_lazy hlazy, List.append_nil]
      exact ⟨_, setData_of_write_ok hlazy hwrite, h.emit spot l.bytes, hattrs, fun r hr => absurd hr List.not_mem_nil⟩

theorem reserved_putAll (o : Options) (files : Files) {items : List NodeId} (ht : t.SameAttrs j.space.tree)
    (hlit : ∀ item ∈ items, LiteralIfLazy t item) (h : Reserved rs outer j) :
    Reserved (rs ++ (putAll o files items j).1) outer (putAll o files items j).2
      ∧ t.SameAttrs (putAll o files items j).2.space.tree ∧ ∀ r ∈ (putAll o files items j).1, r.Literal t := by
  induction items generalizing j rs with
  | nil => exact ⟨(List.append_nil rs).symm ▸ h, ht, fun r hr => absurd hr List.not_mem_nil⟩
  | cons item items ih =>
    obtain ⟨hitem, hitems⟩ := List.forall_mem_cons.mp hlit
    rcases reserved_setData o files ht hitem h with ⟨e, j', hput, h', ht'⟩ | ⟨j', hput, h', ht', hnew⟩
    · simp only [putAll, hput]
      exact ih ht' hitems h'
    · simp only [putAll, hput]
      obtain ⟨hall, htall, hrest⟩ := ih ht' hitems h'
      rw [List.append_assoc] at hall
      refine ⟨hall, htall, fun r hr => ?_⟩
      rcases List.mem_append.mp hr with hr | hr
      · exact hnew r hr
      · exact hrest r hr

/-! ## Completing the level -/

/-- Fields are written again, one after another: each one with the bytes of the text it has by then, over those that it
    has reserved. -/
inductive Replays (o : Options) (files : Files) : Job → List (Reservation × Bytes) → Job → Prop
  | none (j : Job) : Replays o files j [] j
  | next {j j₁ j' : Job} {r : Reservation} {text : String} {w : Workspace} {l : Field.Layout}
    {fields : List (Reservation × Bytes)}
    (worked : WorkedOut o (j.sink.reader files) r.item (some r.place) j.space text w (some r.place) l)
    (written : write o files r.item (some r.place) { j with sink := dropWaiting j.sink } = .ok () j₁)
    (rest : Replays o files j₁ fields j') : Replays o files j ((r, l.bytes) :: fields) j'

theorem reader_dropWaiting (s : Sink) : (dropWaiting s).reader files = s.reader files := by
  unfold dropWaiting
  cases s.levels <;> rfl

theorem stream_dropWaiting (s : Sink) : (dropWaiting s).stream = s.stream := by
  unfold dropWaiting
  cases s.levels <;> rfl

/-- Replaying what waits writes each field again, and nothing waits any more. -/
theorem replays_of_replay (hlevels : j.sink.levels = rs.map Reservation.waiting :: outer)
    (h : replay o files (rs.map Reservation.waiting) j = .ok () done) :
    ∃ fields, fields.map Prod.fst = rs ∧ Replays o files j fields done ∧ done.sink.levels = [] :: outer := by
  induction rs generalizing j with
  | nil =>
    obtain ⟨-, rfl⟩ := Action.pure_eq_ok.mp h
    exact ⟨[], rfl, .none j, hlevels⟩
  | cons r rs ih =>
    rw [List.map_cons, replay, modifySink, Action.modify_bind_eq_ok] at h
    obtain ⟨_, j₁, hwritten, h⟩ := Action.bind_eq_ok.mp h
    obtain ⟨text, w, spot, l, hw, rfl⟩ := workedOut_of_write hwritten
    have hdrop : (dropWaiting j.sink).levels = rs.map Reservation.waiting :: outer := by
      unfold dropWaiting
      rw [hlevels]
      rfl
    obtain ⟨fields, hfields, hrest, hdone⟩ := ih hdrop h
    have hspot : some r.place = spot := Except.ok.inj hw.place
    subst hspot
    rw [reader_dropWaiting] at hw
    exact ⟨(r, l.bytes) :: fields, by rw [List.map_cons, hfields], .next hw hwritten hrest, hdone⟩

/-- One field that is written again. -/
theorem step_of_replay {r : Reservation}
    (hw : WorkedOut o (j.sink.reader files) r.item (some r.place) j.space text w (some r.place) l)
    (hwritten : write o files r.item (some r.place) { j with sink := dropWaiting j.sink } = .ok () j₁) :
    j₁.sink.stream = j.sink.stream.emit (some r.place) l.bytes ∧ j.space.tree.SameAttrs j₁.space.tree := by
  have hattrs := sameAttrs_write o files r.item (some r.place) { j with sink := dropWaiting j.sink }
  rw [Action.outcome_of_ok hwritten] at hattrs
  rw [← reader_dropWaiting] at hw
  rw [write_of_workedOut (j := { j with sink := dropWaiting j.sink }) hw] at hwritten
  cases hwritten
  refine ⟨?_, hattrs⟩
  show (dropWaiting j.sink).stream.emit (some r.place) l.bytes = _
  rw [stream_dropWaiting]

/-- It stands over its own bytes, and the stream is as long as before. -/
theorem bytes_of_replay {r : Reservation}
    (hw : WorkedOut o (j.sink.reader files) r.item (some r.place) j.space text w (some r.place) l)
    (hwritten : write o files r.item (some r.place) { j with sink := dropWaiting j.sink } = .ok () j₁)
    (hfits : r.place + l.bytes.length ≤ j.sink.stream.toBytes.length) :
    j₁.sink.stream.toBytes = j.sink.stream.overlay r.place l.bytes ∧ j₁.sink.stream.AtEnd
      ∧ j₁.sink.stream.toBytes.length = j.sink.stream.toBytes.length := by
  obtain ⟨hbytes, hend⟩ := j.sink.stream.emit_at r.place l.bytes
  rw [← (step_of_replay hw hwritten).1] at hbytes hend
  refine ⟨hbytes, hend, ?_⟩
  rw [hbytes, Stream.length_overlay (by omega)]
  omega

namespace Replays

variable {fields : List (Reservation × Bytes)}

/-- Each field has as many bytes as it has reserved. -/
theorem lengths (h : Replays o files j fields done) (ht : t.SameAttrs j.space.tree)
    (hlit : ∀ f ∈ fields, f.1.Literal t) : ∀ f ∈ fields, f.2.length = f.1.size := by
  induction h with
  | none => exact fun f hf => absurd hf List.not_mem_nil
  | next worked written rest ih =>
    obtain ⟨hr, hrest⟩ := List.forall_mem_cons.mp hlit
    obtain ⟨-, hattrs⟩ := step_of_replay worked written
    exact List.forall_mem_cons.mpr ⟨(length_of_workedOut ht hr.1 worked).trans hr.2.symm, ih (ht.trans hattrs) hrest⟩

/-- Outside of the fields the stream is as it was. -/
theorem outside (h : Replays o files j fields done) (hend : j.sink.stream.AtEnd)
    (hfits : ∀ f ∈ fields, f.1.place + f.2.length ≤ j.sink.stream.toBytes.length) :
    done.sink.stream.AtEnd ∧ done.sink.stream.toBytes.length = j.sink.stream.toBytes.length
      ∧ ∀ i, (∀ f ∈ fields, i < f.1.place ∨ f.1.place + f.2.length ≤ i) →
        done.sink.stream.toBytes[i]? = j.sink.stream.toBytes[i]? := by
  induction h with
  | none => exact ⟨hend, rfl, fun i _ => rfl⟩
  | @next j j₁ j' r text w l fields worked written rest ih =>
    obtain ⟨hr, hrest⟩ := List.forall_mem_cons.mp hfits
    obtain ⟨hbytes, hend₁, hlength⟩ := bytes_of_replay worked written hr
    obtain ⟨hend', hlength', hout⟩ := ih hend₁ (fun f hf => hlength ▸ hrest f hf)
    refine ⟨hend', hlength'.trans hlength, fun i hi => ?_⟩
    obtain ⟨hir, hirest⟩ := List.forall_mem_cons.mp hi
    rw [hout i hirest, hbytes, Stream.getElem?_overlay_outside hr hir]

/-- Inside of the fields stand their bytes: those of a field are written before the others, which lie elsewhere. -/
theorem inside (h : Replays o files j fields done) (hend : j.sink.stream.AtEnd)
    (hfits : ∀ f ∈ fields, f.1.place + f.2.length ≤ j.sink.stream.toBytes.length)
    (hapart : fields.Pairwise fun f f' => f'.1.place + f'.2.length ≤ f.1.place) :
    ∀ f ∈ fields, (done.sink.stream.toBytes.drop f.1.place).take f.2.length = f.2 := by
  induction h with
  | none => exact fun f hf => absurd hf List.not_mem_nil
  | @next j j₁ j' r text w l fields worked written rest ih =>
    obtain ⟨hr, hrest⟩ := List.forall_mem_cons.mp hfits
    obtain ⟨hhead, htail⟩ := List.pairwise_cons.mp hapart
    dsimp only at hr hhead
    obtain ⟨hbytes, hend₁, hlength⟩ := bytes_of_replay worked written hr
    have hfits₁ : ∀ f ∈ fields, f.1.place + f.2.length ≤ j₁.sink.stream.toBytes.length :=
      fun f hf => hlength ▸ hrest f hf
    refine List.forall_mem_cons.mpr ⟨List.ext_getElem? fun i => ?_, ih hend₁ hfits₁ htail⟩
    dsimp only
    by_cases hi : i < l.bytes.length
    · -- the fields that are written after it lie before it
      obtain ⟨-, -, hout⟩ := rest.outside hend₁ hfits₁
      rw [List.getElem?_take_of_lt hi, List.getElem?_drop,
        hout _ fun f hf => .inr (Nat.le_trans (hhead f hf) (Nat.le_add_right _ _)), hbytes,
        Stream.getElem?_overlay_inside (by omega) (Nat.le_add_right _ _) (by omega), Nat.add_sub_cancel_left]
    · rw [List.getElem?_eq_none (by rw [List.length_take]; omega), List.getElem?_eq_none (by omega)]

end Replays

/-- Lazy fields are written again inside of what they have reserved.

    Fields are put into a sink that stands at its end, behind a new level; the lazy ones state their width literally and
    no place, and each reserves as many bytes where the stream stands.  If completing the level succeeds, the stream is as
    long as before and stands at its end, no byte outside of the reservations is another one, and in each of them stands
    the field with the text that it had when its turn came, the newest being the first.  Completing the level again
    changes nothing. -/
theorem replayed_inside_reservations {o : Options} {files : Files} {j filled done : Job} {items : List NodeId}
    {rs : List Reservation} (hend : j.sink.stream.AtEnd) (hlit : ∀ item ∈ items, LiteralIfLazy j.space.tree item)
    (hfilled : putAll o files items { j with sink := j.sink.push } = (rs, filled))
    (hdone : writeChunk o files filled = .ok () done) :
    done.sink.stream.toBytes.length = filled.sink.stream.toBytes.length
      ∧ (∀ i, (∀ r ∈ rs, i < r.place ∨ r.place + r.size ≤ i) →
          done.sink.stream.toBytes[i]? = filled.sink.stream.toBytes[i]?)
      ∧ (∃ fields, fields.map Prod.fst = rs.reverse ∧ Replays o files filled fields done
          ∧ ∀ f ∈ fields, f.2.length = f.1.size
            ∧ (done.sink.stream.toBytes.drop f.1.place).take f.1.size = f.2)
      ∧ done.sink.stream.AtEnd
      ∧ writeChunk o files done = .ok () done := by
  have hempty : Reserved [] j.sink.levels { j with sink := j.sink.push } :=
    ⟨hend, rfl, List.Pairwise.nil, fun r hr => absurd hr List.not_mem_nil⟩
  obtain ⟨hreserved, ht, hliteral⟩ :=
    reserved_putAll o files (t := j.space.tree) (j := { j with sink := j.sink.push }) (fun _ _ => rfl) hlit hempty
  rw [hfilled, List.nil_append] at hreserved
  rw [hfilled] at ht hliteral
  have hreplay := hdone
  rw [writeChunk, Action.get_bind, hreserved.levels, List.headD_cons] at hreplay
  obtain ⟨fields, hfields, hreplays, hlevels⟩ := replays_of_replay hreserved.levels hreplay
  have hmem : ∀ f ∈ fields, f.1 ∈ rs := by
    intro f hf
    rw [← List.mem_reverse, ← hfields]
    exact List.mem_map_of_mem hf
  have hlengths := hreplays.lengths ht fun f hf => hliteral f.1 (hmem f hf)
  have hfits : ∀ f ∈ fields, f.1.place + f.2.length ≤ filled.sink.stream.toBytes.length := by
    intro f hf
    rw [hlengths f hf]
    exact hreserved.fits f.1 (hmem f hf)
  have hapart : fields.Pairwise fun f f' => f'.1.place + f'.2.length ≤ f.1.place := by
    have hreverse : (fields.map Prod.fst).Pairwise fun r r' => r'.place + r'.size ≤ r.place := by
      rw [hfields]
      exact List.pairwise_reverse.mpr hreserved.apart
    refine (List.pairwise_map.mp hreverse).imp_of_mem fun {f f'} _ hf' h => ?_
    rw [hlengths f' hf']
    exact h
  obtain ⟨hend', hlength, hout⟩ := hreplays.outside hreserved.atEnd hfits
  refine ⟨hlength, fun i hi => hout i fun f hf => ?_, ⟨fields, hfields, hreplays, fun f hf => ⟨hlengths f hf, ?_⟩⟩, hend', ?_⟩
  · rw [hlengths f hf]
    exact hi f.1 (hmem f hf)
  · rw [← hlengths f hf]
    exact hreplays.inside hreserved.atEnd hfits hapart f hf
  · rw [writeChunk, Action.get_bind, hlevels]
    rfl

/-- A lazy field whose number grows each time it is taken, before and behind another field: at the end the one in front
    has the greatest number. -/
theorem replayed_inside_reservations_numbered :
    let t : Tree :=
      ⟨#[⟨"item", [("eval", "lazy"), ("bytes", "2")], "", [1], none, .none⟩,
        ⟨"value", [("type", "auto-increment")], "", [], some 0, .none⟩,
        ⟨"item", [], "", [3], none, .none⟩,
        ⟨"value", [], "xy", [], some 2, .none⟩], []⟩
    let j : Job := ⟨⟨t, .zero, false, .stored []⟩, .inMemory ""⟩
    let o : Options := .standard ⟨2000, 1, 1, 0, 0, 0, 0⟩
    ∃ rs filled done, j.sink.stream.AtEnd ∧ (∀ item ∈ [0, 2, 0], LiteralIfLazy t item)
      ∧ putAll o .empty [0, 2, 0] { j with sink := j.sink.push } = (rs, filled)
      ∧ writeChunk o .empty filled = .ok () done
      ∧ rs = [⟨0, 0, 2⟩, ⟨0, 4, 2⟩]
      ∧ filled.sink.toBytes = [48, 0, 120, 121, 49, 0] ∧ done.sink.toBytes = [51, 0, 120, 121, 50, 0]
      ∧ done.sink.stream.toBytes.length = filled.sink.stream.toBytes.length
      ∧ ∀ i, (∀ r ∈ rs, i < r.place ∨ r.place + r.size ≤ i) →
          done.sink.stream.toBytes[i]? = filled.sink.stream.toBytes[i]? := by
  intro t j o
  have hlit : ∀ item ∈ [0, 2, 0], LiteralIfLazy t item := by decide +kernel
  have hput : (putAll o .empty [0, 2, 0] { j with sink := j.sink.push }).1 = [⟨0, 0, 2⟩, ⟨0, 4, 2⟩] ∧
      (putAll o .empty [0, 2, 0] { j with sink := j.sink.push }).2.sink.toBytes = [48, 0, 120, 121, 49, 0] := by
    decide +kernel
  have hrun : Action.succeeds (writeChunk o .empty (putAll o .empty [0, 2, 0] { j with sink := j.sink.push }).2)
      (fun _ done => done.sink.toBytes = [51, 0, 120, 121, 50, 0]) = true := by decide +kernel
  cases hfilled : putAll o .empty [0, 2, 0] { j with sink := j.sink.push } with | mk rs filled =>
  rw [hfilled] at hput hrun
  obtain ⟨_, done, hdone, hbytes⟩ := Action.succeeds_iff.mp hrun
  obtain ⟨hlength, hout, -⟩ := replayed_inside_reservations (j := j) rfl hlit hfilled hdone
  exact ⟨rs, filled, done, rfl, hlit, rfl, hdone, hput.1, hput.2, of_decide_eq_true hbytes, hlength, hout⟩

end Job

end Stencil
