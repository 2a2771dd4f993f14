/-
  Matching.

  All ways through a program are followed at the same time, character by character.  The threads at a
  place stand in the order of preference, and a step that one thread has reached at a place is not
  followed there by another: what it would lead to, the thread before it leads to as well.  So each place
  costs as many steps at most as the program has, and a way that only goes round is never taken.

  A thread that has come to the end is a match, and the threads behind it are given up; those before it
  may still end in a match, which is then preferred.  Further to the left is preferred to everything.
-/
import Stencil.Pattern.Program

set_option autoImplicit false

namespace Stencil.Pattern

/-! ## Places -/

/-- A place in a text: the characters around it. -/
structure Spot where
  /-- The character before the place. -/
  previous : Option Char
  /-- The character behind the place. -/
  next : Option Char
  deriving DecidableEq, Repr

/-- Whether the condition holds at a place. -/
def Spot.satisfies (s : Spot) : Edge → Bool
  | .textStart => s.previous.isNone
  | .textEnd => s.next.isNone
  | .lineStart => s.previous.isNone || s.previous == some '\n'
  | .lineEnd => s.next.isNone || s.next == some '\n'
  | .anyLineStart =>
    s.previous.isNone || s.previous == some '\n' || (s.previous == some '\r' && s.next != some '\n')
  | .anyLineEnd =>
    s.next.isNone || s.next == some '\r' || (s.next == some '\n' && s.previous != some '\r')
  | .word kind ascii =>
    let isWord := if ascii then CharSet.isAsciiWord else CharSet.isWord
    kind.holds (s.previous.any isWord) (s.next.any isWord)

/-! ## Threads -/

/-- A way through a program: the step it has come to, and what it has remembered, the last first. -/
structure Thread where
  /-- The number of the step. -/
  step : Nat
  /-- Numbers for starts and ends of groups, with places. -/
  marks : List (Nat × Nat)
  deriving Repr, Inhabited

/-- Follows threads, the first one first, up to where they read a character or end.  `place` is the
    number of characters before the place, `seen` says which steps have been reached here, and `waiting`
    are the threads that have been followed, the last one first.  The allowance counts steps. -/
def follow (steps : Array Step) (spot : Spot) (place : Nat) :
    Nat → List Thread → Array Bool → List Thread → List Thread
  | 0, _, _, waiting => waiting
  | _, [], _, waiting => waiting
  | n + 1, t :: ts, seen, waiting =>
    if seen.getD t.step true then follow steps spot place n ts seen waiting
    else
      let seen := seen.setIfInBounds t.step true
      match steps[t.step]? with
      | some (.read _) | some .found => follow steps spot place n ts seen (t :: waiting)
      | some (.check e) =>
        if spot.satisfies e then
          follow steps spot place n (⟨t.step + 1, t.marks⟩ :: ts) seen waiting
        else follow steps spot place n ts seen waiting
      | some (.mark slot) =>
        follow steps spot place n (⟨t.step + 1, (slot, place) :: t.marks⟩ :: ts) seen waiting
      | some (.fork a b) =>
        follow steps spot place n (⟨a, t.marks⟩ :: ⟨b, t.marks⟩ :: ts) seen waiting
      | some (.jump a) => follow steps spot place n (⟨a, t.marks⟩ :: ts) seen waiting
      | none => follow steps spot place n ts seen waiting

/-- The threads that wait at a place, in the order of preference.  Every step adds two threads at
    most, so the allowance is enough. -/
def threadsAt (steps : Array Step) (spot : Spot) (place : Nat) (ts : List Thread) : List Thread :=
  (follow steps spot place (ts.length + 2 * steps.size) ts (.replicate steps.size false) []).reverse

/-- Whether a thread has come to the end. -/
def Thread.isFound (steps : Array Step) (t : Thread) : Bool :=
  match steps[t.step]? with
  | some .found => true
  | _ => false

/-- The thread behind a character, if it reads it. -/
def Thread.read? (steps : Array Step) (c : Char) (t : Thread) : Option Thread :=
  match steps[t.step]? with
  | some (.read set) => if set.holds c then some ⟨t.step + 1, t.marks⟩ else none
  | _ => none

/-! ## Matches -/

/-- How a match ends. -/
structure Matched where
  /-- The number of characters up to the end. -/
  place : Nat
  /-- What has been remembered, the last first. -/
  marks : List (Nat × Nat)
  deriving DecidableEq, Repr

/-- A match. -/
structure Found where
  /-- The number of characters up to the end of the match. -/
  consumed : Nat
  /-- What has been remembered, the last first. -/
  marks : List (Nat × Nat)
  /-- The text. -/
  input : List Char
  deriving DecidableEq, Repr

/-- What a group has matched. -/
def Found.group? (f : Found) (index : Nat) : Option String :=
  match f.marks.lookup (startSlot index), f.marks.lookup (endSlot index) with
  | some first, some last => some (String.ofList ((f.input.drop first).take (last - first)))
  | _, _ => none

namespace Program

/-- The threads at a place, with one that begins there if a match may begin and none has been found. -/
def started (p : Program) (place : Nat) (ts : List Thread) (best : Option Matched) : List Thread :=
  if best.isNone && (place == 0 || !p.atStart) then ts ++ [⟨0, []⟩] else ts

/-- Follows threads at a place: those that are preferred to the first that has come to the end, and the
    best match. -/
def arrive (p : Program) (place : Nat) (spot : Spot) (ts : List Thread) (best : Option Matched) :
    List Thread × Option Matched :=
  let waiting := threadsAt p.steps spot place ts
  (waiting.takeWhile fun t => !t.isFound p.steps,
    ((waiting.find? (Thread.isFound p.steps)).map fun t => ⟨place, t.marks⟩).or best)

/-- The best match from a place on.  `ts` are the threads that have come to the place, `best` is the
    match that has been found so far. -/
def search (p : Program) (place : Nat) (previous : Option Char) (ts : List Thread)
    (best : Option Matched) : List Char → Option Matched
  | [] => (p.arrive place ⟨previous, none⟩ (p.started place ts best) best).2
  | c :: cs =>
    match p.started place ts best with
    | [] => best
    | t :: ts =>
      let reached := p.arrive place ⟨previous, some c⟩ (t :: ts) best
      search p (place + 1) (some c) (reached.1.filterMap (Thread.read? p.steps c)) reached.2 cs

/-- The first match in a text. -/
def find? (p : Program) (cs : List Char) : Option Found :=
  (p.search 0 none [] none cs).map fun m => ⟨m.place, m.marks, cs⟩

/-- A match that is found at a place ends there. -/
theorem le_of_arrive {p : Program} {place : Nat} {spot : Spot} {ts : List Thread}
    {best : Option Matched} {m : Matched} {bound : Nat} (hplace : place ≤ bound)
    (hbest : ∀ b ∈ best, b.place ≤ bound) (h : m ∈ (p.arrive place spot ts best).2) :
    m.place ≤ bound := by
  rcases Option.or_eq_some_iff.mp h with h | ⟨_, h⟩
  · obtain ⟨t, _, rfl⟩ := Option.map_eq_some_iff.mp h
    exact hplace
  · exact hbest m h

/-- A search ends in the text. -/
theorem place_search_le {p : Program} {place : Nat} {previous : Option Char} {ts : List Thread}
    {best : Option Matched} {cs : List Char} {m : Matched}
    (hbest : ∀ b ∈ best, b.place ≤ place + cs.length)
    (h : p.search place previous ts best cs = some m) : m.place ≤ place + cs.length := by
  induction cs generalizing place previous ts best with
  | nil => exact le_of_arrive (by simp) hbest h
  | cons c cs ih =>
    have hlen : place + (c :: cs).length = place + 1 + cs.length := by
      simp only [List.length_cons]; omega
    unfold search at h
    split at h
    · exact hbest m h
    · rw [hlen]
      exact ih (fun b hb => le_of_arrive (by omega) (hlen ▸ hbest) hb) h

/-- No more is consumed than the text holds. -/
theorem consumed_find? {p : Program} {cs : List Char} {f : Found} (h : p.find? cs = some f) :
    f.consumed ≤ cs.length := by
  obtain ⟨m, hm, rfl⟩ := Option.map_eq_some_iff.mp h
  have := place_search_le (by simp) hm
  simpa using this

end Program

end Stencil.Pattern
