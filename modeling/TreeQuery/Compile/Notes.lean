/-!
# Notes

The buffer for what a compilation remarks. It is bounded: a long note is cut between two characters,
and once a note no longer fits into the whole, one last mark is put down and nothing is added any
more.
-/

namespace TreeQuery

/-- The notes collected so far, the latest first. -/
structure Notes where
  enabled : Bool
  latest : List String := []
  /-- The bytes of all notes but the mark at the end. -/
  bytes : Nat := 0
  closed : Bool := false
deriving DecidableEq, Repr, Inhabited

namespace Notes

/-- The greatest length of a note in bytes, before it is marked as cut. -/
def maxLine : Nat := Nat.pow 2 14

def maxTotal : Nat := Nat.pow 2 20

def mark : String := "..."

/-- Goes back from an offset in bytes, one by one, to where a character begins or the text ends.
`none` is for a search that would leave the text. -/
def boundaryBack? (text : String) : Nat → Option text.Pos
  | 0 => text.pos? ⟨0⟩
  | i + 1 => text.pos? ⟨i + 1⟩ <|> boundaryBack? text i

theorem pos?_eq_some_iff {text : String} {i : String.Pos.Raw} {p : text.Pos} :
    text.pos? i = some p ↔ p.offset = i := by
  rw [String.pos?, String.Slice.pos?]
  constructor
  · intro h
    split at h
    · obtain rfl := Option.some.inj h
      rfl
    · cases h
  · rintro rfl
    rw [dif_pos (String.Pos.Raw.isValidForSlice_eq_true_iff.mpr p.isValid.toSlice)]
    rfl

/-- The way back never leaves the text: it ends at the last boundary that is no further in, which
the start is at least. -/
theorem boundaryBack?_eq (text : String) : (i : Nat) → boundaryBack? text i = some (text.posLE ⟨i⟩)
  | 0 => pos?_eq_some_iff.mpr (String.offset_posLE_eq_self_iff.mpr String.Pos.Raw.isValid_zero)
  | i + 1 => by
    rw [boundaryBack?]
    cases h : text.pos? ⟨i + 1⟩ with
    | some p =>
      rw [← pos?_eq_some_iff.mp h, String.Pos.posLE_offset]
      rfl
    | none =>
      have hsplit (p : text.Pos) : p.offset ≠ ⟨i + 1⟩ :=
        fun hp => by simp [pos?_eq_some_iff.mpr hp] at h
      have hback : text.posLE ⟨i + 1⟩ = text.posLE ⟨i⟩ := by
        refine String.posLE_eq_iff.mpr ⟨Nat.le_succ_of_le String.offset_posLE_le, fun p hp => ?_⟩
        have hne : p.offset.byteIdx ≠ i + 1 := fun he => hsplit p (String.Pos.Raw.ext he)
        exact String.le_posLE_iff.mpr (Nat.le_of_lt_succ (Nat.lt_of_le_of_ne hp hne))
      rw [hback, ← boundaryBack?_eq text i]
      rfl

/-- A text up to the last boundary that is no further in than a number of bytes. -/
def cut (limit : Nat) (text : String) : String :=
  (text.sliceTo ((boundaryBack? text limit).get (by simp [boundaryBack?_eq]))).copy

def shorten (note : String) : String :=
  if maxLine < note.utf8ByteSize then cut maxLine note ++ mark else note

/-- Adds a note, or closes the buffer if there is no room for it. -/
def add (n : Notes) (note : String) : Notes :=
  if !n.enabled || n.closed then n
  else
    let note := shorten note
    if maxTotal < n.bytes + note.utf8ByteSize then
      { n with latest := mark :: n.latest, closed := true }
    else { n with latest := note :: n.latest, bytes := n.bytes + note.utf8ByteSize }

def addAll (n : Notes) (notes : List String) : Notes := notes.foldl add n

def toList (n : Notes) : List String := n.latest.reverse

end Notes
end TreeQuery
