/-
  The bytes of a field.

  A field has the width that its `bytes` attribute states or its `xbytes` query computes, or else the
  width of its value.  A value that is too long is cut off at its end; one that is too short is padded,
  on the left with `lpadding`, otherwise on the right with `padding` or `rpadding`.  The padding is
  encoded as the value is, and repeated from its beginning; without padding the bytes are zero.

    * `width?` says which width is declared;
    * `fit` makes bytes of a value fit a width, `length_fit` says that it does;
    * `layout` puts the two together.
-/
import Stencil.Codec
import Stencil.Query.Eval
import Stencil.Text.Integer

set_option autoImplicit false

namespace Stencil.Field

open Stencil.Text (boundedInt trim)

/-- The greatest width, in bytes. -/
def maxWidth : Int := 16777216

/-- The bytes of a field, and the width that is kept with it. -/
structure Layout where
  /-- The bytes. -/
  bytes : Bytes
  /-- The width; none for an empty value without a declared width. -/
  recorded : Option Int
  deriving DecidableEq, Repr

/-- The sides on which a short value is padded. -/
inductive Side where
  | left
  | right
  deriving DecidableEq, Repr

/-- Reads a width. -/
def readWidth (text : String) : Except Error Int :=
  match boundedInt .int32 (trim text) with
  | .error fault => .error (.of (.badWidth text fault))
  | .ok n => if maxWidth < n then .error (.of (.widthAbove n maxWidth)) else .ok n

/-- The declared width of a field. -/
def width? (t : Tree) (item : NodeId) : Except Error (Option Int) := do
  match t.attr? item "bytes", t.attr? item "xbytes" with
  | some text, _ => return some (← readWidth text)
  | none, some source => return some (← readWidth (← Query.evaluate t (.element item) source))
  | none, none => return none

/-- The declared padding of a field. -/
def padding (t : Tree) (item : NodeId) : Side × String :=
  match t.attr? item "lpadding" with
  | some text => (.left, text)
  | none => (.right, ((t.attr? item "padding").or (t.attr? item "rpadding")).getD "")

/-- The bytes of a padding, at least one. -/
def padBytes (codec : Codec) (text : String) : Except Error Bytes := do
  let bytes ← if text.isEmpty then pure [] else codec.encode text 0
  return if bytes.isEmpty then [0] else bytes

/-- So many bytes of a padding, repeated from its beginning. -/
def fill (pad : Bytes) (n : Nat) : Bytes :=
  let pad := pad.toArray
  (List.range n).map fun i => pad.getD (i % pad.size) 0

/-- Cuts or pads bytes to a width. -/
def fit (side : Side) (pad : Bytes) (width : Nat) (body : Bytes) : Bytes :=
  if width ≤ body.length then body.take width
  else
    match side with
    | .left => fill pad (width - body.length) ++ body
    | .right => body ++ fill pad (width - body.length)

/-- The bytes of a value under the attributes of a field. -/
def layout (t : Tree) (item : NodeId) (value : String) : Except Error Layout := do
  let codec := Codec.ofName (t.attr? item "encoding")
  match ← width? t item with
  | none =>
    if value.isEmpty then return ⟨[], none⟩
    else
      let bytes ← codec.encode value 0
      return ⟨bytes, some bytes.length⟩
  | some width =>
    if width ≤ 0 then return ⟨[], some width⟩
    else
      let (side, text) := padding t item
      let pad ← padBytes codec text
      let body ← if value.isEmpty then pure [] else codec.encode value width.toNat
      return ⟨fit side pad width.toNat body, some width⟩

@[simp] theorem length_fill (pad : Bytes) (n : Nat) : (fill pad n).length = n := by simp [fill]

/-- Fitted bytes have the width. -/
theorem length_fit (side : Side) (pad : Bytes) (width : Nat) (body : Bytes) :
    (fit side pad width body).length = width := by
  unfold fit
  split
  · rw [List.length_take]; omega
  · cases side <;> simp <;> omega

end Stencil.Field
