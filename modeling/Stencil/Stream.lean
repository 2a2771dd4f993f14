/-
  Streams of bytes that can be overwritten.

  A stream holds bytes and a position, which may lie behind the last byte.  Writing replaces the bytes
  at the position and goes on behind the end; a gap before the position is filled with zeros first.  An
  *eager* stream fills the gap even if there is nothing to write.

  `toList_put` says what writing does to the bytes as a list.
-/
import Stencil.Codec

set_option autoImplicit false

namespace Stencil

/-- Bytes with a position. -/
structure Stream where
  /-- The bytes. -/
  bytes : Array UInt8
  /-- The place of the byte that is written next. -/
  position : Nat
  /-- Whether writing nothing behind the end fills the gap before the position. -/
  eager : Bool
  deriving Repr, Inhabited

namespace Stream

/-- A stream without bytes. -/
def empty (eager : Bool) : Stream := ⟨#[], 0, eager⟩

/-- A stream with its position behind the last byte. -/
def ofBytes (eager : Bool) (bs : Bytes) : Stream := ⟨bs.toArray, bs.length, eager⟩

/-- The bytes. -/
def toBytes (s : Stream) : Bytes := s.bytes.toList

/-- Fills a gap up to a place with zeros. -/
def pad (bytes : Array UInt8) (place : Nat) : Array UInt8 :=
  if place ≤ bytes.size then bytes else bytes ++ Array.replicate (place - bytes.size) 0

/-- Replaces the bytes from a place on, which is not behind the end. -/
def put (bytes : Array UInt8) (place : Nat) : Bytes → Array UInt8
  | [] => bytes
  | b :: bs =>
    if place < bytes.size then put (bytes.setIfInBounds place b) (place + 1) bs
    else put (bytes.push b) (place + 1) bs

/-- Writes bytes at the position. -/
def write (s : Stream) (bs : Bytes) : Stream :=
  if bs.isEmpty && !s.eager then s
  else
    { s with
      bytes := put (pad s.bytes s.position) s.position bs
      position := s.position + bs.length }

/-- Moves the position behind the last byte. -/
def seekEnd (s : Stream) : Stream := { s with position := s.bytes.size }

/-- Writes bytes at the position; or at a place, and moves the position behind the last byte. -/
def emit (s : Stream) (place : Option Nat) (bs : Bytes) : Stream :=
  match place with
  | none => s.write bs
  | some n => (write { s with position := n } bs).seekEnd

/-- Padding reaches the place. -/
theorem le_size_pad (bytes : Array UInt8) (place : Nat) : place ≤ (pad bytes place).size := by
  unfold pad
  split
  · assumption
  · simp; omega

/-- What is written stands at its place; the bytes before it and behind it stay. -/
theorem toList_put {bytes : Array UInt8} {place : Nat} (h : place ≤ bytes.size) (bs : Bytes) :
    (put bytes place bs).toList
      = bytes.toList.take place ++ bs ++ bytes.toList.drop (place + bs.length) := by
  induction bs generalizing bytes place with
  | nil => simp [put]
  | cons b bs ih =>
    have hlen : place ≤ bytes.toList.length := by simpa using h
    unfold put
    split
    · rename_i hlt
      have hl : place < bytes.toList.length := by simpa using hlt
      rw [ih (by simp only [Array.size_setIfInBounds]; omega)]
      have hset : bytes.toList.set place b
          = bytes.toList.take place ++ b :: bytes.toList.drop (place + 1) := by
        rw [List.set_eq_take_append_cons_drop, if_pos hl]
      have htake : (bytes.toList.take place).length = place := by
        rw [List.length_take]; omega
      simp only [Array.toList_setIfInBounds, List.length_cons, hset]
      rw [List.take_append, List.drop_append, htake]
      have hmin : min place bytes.size ≤ place + (bs.length + 1) := by omega
      simp [List.take_take, Nat.add_assoc, Nat.add_comm 1, hmin]
    · rename_i hge
      have he : place = bytes.size := by omega
      subst he
      rw [ih (by simp)]
      have h1 : (bytes.toList ++ [b]).length = bytes.size + 1 := by simp
      have h2 : bytes.toList.length = bytes.size := by simp
      simp only [Array.toList_push, List.length_cons]
      rw [List.take_of_length_le (Nat.le_of_eq h1), List.take_of_length_le (Nat.le_of_eq h2),
        List.drop_of_length_le (by omega), List.drop_of_length_le (by omega)]
      simp

end Stream

end Stencil
