/-
  What writing does to a stream.

  Writing at a place puts bytes over those that stand there; the others stay, and zeros fill a gap before the place
  (`Stream.overlay`).  So what can be read behind it is said place by place (`getElem?_overlay_inside`,
  `getElem?_overlay_outside`).  A stream whose position is behind its last byte (`Stream.AtEnd`) keeps it there, wherever
  bytes are written.
-/
import Stencil.Stream

set_option autoImplicit false

namespace Stencil.Stream

variable {s : Stream} {n i : Nat} {bs : Bytes}

/-- The zeros that are put before bytes at a place.  If there are no bytes, only an eager stream puts them. -/
def gap (s : Stream) (n : Nat) (bs : Bytes) : Nat := if bs = [] ∧ s.eager = false then 0 else n - s.toBytes.length

/-- The bytes of a stream with others over them from a place on. -/
def overlay (s : Stream) (n : Nat) (bs : Bytes) : Bytes :=
  s.toBytes.take n ++ List.replicate (s.gap n bs) 0 ++ bs ++ s.toBytes.drop (n + bs.length)

/-- Whether the position is behind the last byte. -/
def AtEnd (s : Stream) : Prop := s.position = s.toBytes.length

theorem length_toBytes (s : Stream) : s.toBytes.length = s.bytes.size := Array.length_toList

theorem toBytes_pad (bytes : Array UInt8) (n : Nat) :
    (pad bytes n).toList = bytes.toList ++ List.replicate (n - bytes.size) 0 := by
  unfold pad
  split
  · rename_i hle
    rw [Nat.sub_eq_zero_of_le hle, List.replicate_zero, List.append_nil]
  · rw [Array.toList_append, Array.toList_replicate]

/-! ## Writing -/

theorem le_length_overlay (s : Stream) (n : Nat) (bs : Bytes) : s.toBytes.length ≤ (s.overlay n bs).length := by
  unfold overlay
  simp only [List.length_append, List.length_take, List.length_replicate, List.length_drop]
  omega

/-- Bytes are written over others at the position. -/
theorem toBytes_write (s : Stream) (bs : Bytes) : (s.write bs).toBytes = s.overlay s.position bs := by
  unfold write overlay gap
  by_cases hnone : bs = [] ∧ s.eager = false
  · obtain ⟨rfl, heager⟩ := hnone
    simp [heager]
  · have hsome : ¬ (bs.isEmpty && !s.eager) = true := by simpa using hnone
    rw [if_neg hsome, if_neg hnone]
    show (put (pad s.bytes s.position) s.position bs).toList = _
    rw [toList_put (le_size_pad _ _), toBytes_pad, List.take_append, List.drop_append, length_toBytes, toBytes,
      Array.length_toList, List.take_replicate, List.drop_replicate]
    have hfits : min (s.position - s.bytes.size) (s.position - s.bytes.size) = s.position - s.bytes.size := Nat.min_self _
    have hrest : s.position - s.bytes.size - (s.position + bs.length - s.bytes.size) = 0 := by omega
    rw [hfits, hrest, List.replicate_zero, List.append_nil]

-- a gap of one byte, and none before no bytes
example : ((Stream.ofBytes false [65, 65]).emit (some 3) [66]).toBytes = [65, 65, 0, 66] := by decide
example : ((Stream.ofBytes false [65, 65]).emit (some 3) []).toBytes = [65, 65] := by decide

@[simp] theorem position_write (s : Stream) (bs : Bytes) : (s.write bs).position = s.position + bs.length := by
  unfold write
  split
  · rename_i hnone
    rw [List.isEmpty_iff.mp (Bool.and_eq_true_iff.mp hnone).1]
    rfl
  · rfl

/-- Bytes are written over others at a place, and the position is behind the last byte. -/
theorem emit_at (s : Stream) (n : Nat) (bs : Bytes) :
    (s.emit (some n) bs).toBytes = s.overlay n bs ∧ (s.emit (some n) bs).AtEnd :=
  ⟨toBytes_write { s with position := n } bs, (length_toBytes _).symm⟩

/-- A stream does not get shorter. -/
theorem le_length_emit (s : Stream) (place : Option Nat) (bs : Bytes) :
    s.toBytes.length ≤ (s.emit place bs).toBytes.length := by
  cases place with
  | none =>
    show _ ≤ (s.write bs).toBytes.length
    rw [toBytes_write]
    exact le_length_overlay s _ bs
  | some n =>
    rw [(emit_at s n bs).1]
    exact le_length_overlay s n bs

/-! ## Reading -/

/-- At a place that is not behind the end there is no gap. -/
theorem overlay_of_le (h : n ≤ s.toBytes.length) :
    s.overlay n bs = s.toBytes.take n ++ (bs ++ s.toBytes.drop (n + bs.length)) := by
  have hgap : s.gap n bs = 0 := by
    unfold gap
    split
    · rfl
    · exact Nat.sub_eq_zero_of_le h
  rw [overlay, hgap, List.replicate_zero, List.append_nil, List.append_assoc]

theorem length_overlay (h : n ≤ s.toBytes.length) : (s.overlay n bs).length = max s.toBytes.length (n + bs.length) := by
  rw [overlay_of_le h]
  simp only [List.length_append, List.length_take, List.length_drop]
  omega

/-- What has been written is read. -/
theorem getElem?_overlay_inside (h : n ≤ s.toBytes.length) (hlow : n ≤ i) (hhigh : i < n + bs.length) :
    (s.overlay n bs)[i]? = bs[i - n]? := by
  have htake : (s.toBytes.take n).length = n := by
    rw [List.length_take]
    omega
  rw [overlay_of_le h, List.getElem?_append_right (by omega), htake, List.getElem?_append_left (by omega)]

/-- What stood elsewhere is read as before. -/
theorem getElem?_overlay_outside (hfits : n + bs.length ≤ s.toBytes.length) (hout : i < n ∨ n + bs.length ≤ i) :
    (s.overlay n bs)[i]? = s.toBytes[i]? := by
  have htake : (s.toBytes.take n).length = n := by
    rw [List.length_take]
    omega
  rw [overlay_of_le (by omega)]
  rcases hout with hlow | hhigh
  · rw [List.getElem?_append_left (by omega), List.getElem?_take_of_lt hlow]
  · rw [List.getElem?_append_right (by omega), htake, List.getElem?_append_right (by omega), List.getElem?_drop]
    congr 1
    omega

/-! ## The end -/

theorem AtEnd.overlay (h : s.AtEnd) (bs : Bytes) : s.overlay s.position bs = s.toBytes ++ bs := by
  unfold Stream.overlay gap
  rw [h]
  simp

/-- Writing at the end goes on behind it. -/
theorem AtEnd.write (h : s.AtEnd) (bs : Bytes) : (s.write bs).toBytes = s.toBytes ++ bs ∧ (s.write bs).AtEnd := by
  have hbytes : (s.write bs).toBytes = s.toBytes ++ bs := (toBytes_write s bs).trans (h.overlay bs)
  refine ⟨hbytes, ?_⟩
  unfold AtEnd
  rw [hbytes, position_write, List.length_append, h]

theorem AtEnd.emit (h : s.AtEnd) (place : Option Nat) (bs : Bytes) : (s.emit place bs).AtEnd := by
  cases place with
  | none => exact (h.write bs).2
  | some n => exact (s.emit_at n bs).2

end Stencil.Stream
