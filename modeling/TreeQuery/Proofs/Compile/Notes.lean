import Mathlib.Algebra.Ring.Nat
import TreeQuery.Query
/-!
# The limits of the notes

Both limits keep a longest prefix, `LongestWithin`: of a note that is too long the longest of whole
characters (`longestWithin_cut`), and of all notes the longest that fits, with one mark behind it if
a note is left out. What the buffer holds after some notes is `Holds`, with `Holds.add` for a step
and `Holds.addAll` for a run; the main statement is `addAll_keeps`. For a query they come to
`Query.total_notes`.
-/

namespace TreeQuery

namespace Notes

/-! ### Longest prefixes -/

section

variable {α : Type} {size : α → Nat} {limit : Nat} {whole part rest : List α}

/-- The longest prefix of a list of which the sizes add up to no more than a limit. -/
structure LongestWithin (size : α → Nat) (limit : Nat) (whole part : List α) : Prop where
  initial : part <+: whole
  within : (part.map size).sum ≤ limit
  longest : ∀ other, other <+: whole → (other.map size).sum ≤ limit → other.length ≤ part.length

theorem LongestWithin.of_next (hwhole : whole = part ++ rest) (hpart : (part.map size).sum ≤ limit)
    (hnext : ∀ next ∈ rest.head?, limit < (part.map size).sum + size next) :
    LongestWithin size limit whole part := by
  refine ⟨⟨rest, hwhole.symm⟩, hpart, fun other hother hfits => Nat.le_of_not_lt fun hlonger => ?_⟩
  cases rest with
  | nil =>
    have hlength := hother.length_le
    rw [hwhole, List.append_nil] at hlength
    omega
  | cons next rest =>
    have hinitial : part ++ [next] <+: whole :=
      ⟨rest, by rw [hwhole, List.append_assoc, List.singleton_append]⟩
    -- a longer prefix has the next element in it
    obtain ⟨more, rfl⟩ := List.prefix_of_prefix_length_le hinitial hother
      (by simpa [Nat.succ_le_iff] using hlonger)
    have := hnext next rfl
    simp only [List.map_append, List.sum_append, List.map_cons, List.map_nil, List.sum_cons,
      List.sum_nil] at hfits
    omega

end

/-! ### Cutting a note -/

theorem sum_utf8Size (text : String) : (text.toList.map Char.utf8Size).sum = text.utf8ByteSize := by
  obtain ⟨cs, rfl⟩ := text.exists_eq_ofList
  rw [String.toList_ofList]
  induction cs with
  | nil => rfl
  | cons c cs ih =>
    rw [List.map_cons, List.sum_cons, ih, String.ofList_cons, String.utf8ByteSize_append,
      String.utf8ByteSize_singleton]

section

variable (limit : Nat) (text : String)

theorem cut_splits :
    (text.posLE ⟨limit⟩).Splits (cut limit text) (text.sliceFrom (text.posLE ⟨limit⟩)).copy := by
  simpa only [cut, boundaryBack?_eq, Option.get_some] using (text.posLE ⟨limit⟩).splits

theorem offset_posLE : (text.posLE ⟨limit⟩).offset.byteIdx = (cut limit text).utf8ByteSize :=
  congrArg String.Pos.Raw.byteIdx (cut_splits limit text).offset_eq_rawEndPos

/-- The first character that a cut leaves out does not fit: the search back would have stopped
behind it. -/
theorem lt_of_cut_append {limit : Nat} {text : String} {c : Char} {rest : String}
    (h : text = cut limit text ++ (String.singleton c ++ rest)) :
    limit < (cut limit text).utf8ByteSize + c.utf8Size := by
  have hvalid : (cut limit text ++ String.singleton c).rawEndPos.IsValid text :=
    String.Pos.Raw.isValid_iff_exists_append.mpr ⟨_, rest, by rw [String.append_assoc, ← h], rfl⟩
  have hsize : (text.pos _ hvalid).offset.byteIdx = (cut limit text).utf8ByteSize + c.utf8Size := by
    rw [String.offset_pos, String.byteIdx_rawEndPos, String.utf8ByteSize_append,
      String.utf8ByteSize_singleton]
  have hbehind : text.posLE ⟨limit⟩ < text.pos _ hvalid := by
    rw [String.Pos.lt_iff, String.Pos.Raw.lt_iff, offset_posLE, hsize]
    exact Nat.lt_add_of_pos_right c.utf8Size_pos
  rw [String.posLE_lt_iff, String.Pos.Raw.lt_iff, hsize] at hbehind
  exact hbehind

theorem toList_cut : ∃ rest, text.toList = (cut limit text).toList ++ rest ∧
    ∀ c ∈ rest.head?, limit < (cut limit text).utf8ByteSize + c.utf8Size := by
  have happend := (cut_splits limit text).eq_append
  obtain ⟨rest, hrest⟩ := (text.sliceFrom (text.posLE ⟨limit⟩)).copy.exists_eq_ofList
  rw [hrest] at happend
  refine ⟨rest, by rw [← String.toList_ofList (l := rest), ← String.toList_append,
    ← happend], fun c hc => ?_⟩
  obtain ⟨cs, rfl⟩ := List.head?_eq_some_iff.mp hc
  rw [String.ofList_cons] at happend
  exact lt_of_cut_append happend

theorem longestWithin_cut :
    LongestWithin Char.utf8Size limit text.toList (cut limit text).toList := by
  obtain ⟨rest, htext, hnext⟩ := toList_cut limit text
  refine .of_next htext ?_ fun c hc => ?_
  · rw [sum_utf8Size, ← offset_posLE]
    exact String.offset_posLE_le
  · rw [sum_utf8Size]
    exact hnext c hc

/-- A cut takes at most three bytes less than it may, as before a character of four bytes. -/
theorem lt_cut_add_four : min limit text.utf8ByteSize < (cut limit text).utf8ByteSize + 4 := by
  obtain ⟨rest, htext, hnext⟩ := toList_cut limit text
  cases rest with
  | nil =>
    rw [List.append_nil, String.toList_inj] at htext
    rw [← htext]
    omega
  | cons c rest =>
    have := hnext c rfl
    have := c.utf8Size_le_four
    omega

example : cut 7 "🎉🎉z" = "🎉" := by decide

end

/-- What is stored of a note: the whole of it, or if it is too long its longest prefix of whole
characters with a mark. -/
inductive Shortens (note : String) : String → Prop
  | whole (hshort : note.utf8ByteSize ≤ maxLine) : Shortens note note
  | cut {part : String} (hlong : maxLine < note.utf8ByteSize)
      (hpart : LongestWithin Char.utf8Size maxLine note.toList part.toList) :
        Shortens note (part ++ mark)

theorem shortens_shorten (note : String) : Shortens note (shorten note) := by
  unfold shorten
  split
  · next hlong => exact .cut hlong (longestWithin_cut maxLine note)
  · next hshort => exact .whole (Nat.le_of_not_lt hshort)

/-! ### A run of notes -/

def total (notes : List String) : Nat := (notes.map String.utf8ByteSize).sum

theorem total_concat (notes : List String) (note : String) :
    total (notes ++ [note]) = total notes + note.utf8ByteSize := by
  simp [total]

/-- What an enabled buffer holds after some notes: all of them, or those before the first that does
not fit and a mark. -/
inductive Holds (seen : List String) : Notes → Prop
  | all (hfits : total seen ≤ maxTotal) : Holds seen ⟨true, seen.reverse, total seen, false⟩
  | closed {kept rest : List String} {late : String} (hseen : seen = kept ++ late :: rest)
    (hfits : total kept ≤ maxTotal)
    (hlate : maxTotal < total kept + late.utf8ByteSize) :
      Holds seen ⟨true, mark :: kept.reverse, total kept, true⟩

variable {seen : List String} {n : Notes}

theorem Holds.add (h : Holds seen n) (note : String) :
    Holds (seen ++ [shorten note]) (n.add note) := by
  cases h with
  | all hfits =>
    simp only [Notes.add, Bool.not_true, Bool.or_self, Bool.false_eq_true, if_false]
    split
    · next hlate => exact .closed rfl hfits hlate
    · next hroom =>
      rw [← total_concat] at hroom ⊢
      simpa using Holds.all (Nat.le_of_not_lt hroom)
  | @closed kept rest late hseen hfits hlate =>
    rw [hseen, List.append_assoc, List.cons_append]
    exact .closed rfl hfits hlate

theorem Holds.addAll (h : Holds seen n) (notes : List String) :
    Holds (seen ++ notes.map shorten) (n.addAll notes) := by
  induction notes generalizing seen n with
  | nil => simpa [Notes.addAll] using h
  | cons note notes ih => simpa [Notes.addAll] using ih (h.add note)

theorem Holds.toList (h : Holds seen n) :
    ∃ kept, LongestWithin String.utf8ByteSize maxTotal seen kept ∧
    n.toList = kept ++ if kept = seen then [] else [mark] := by
  cases h with
  | all hfits =>
    exact ⟨seen, .of_next (List.append_nil seen).symm hfits (by simp), by simp [Notes.toList]⟩
  | @closed kept rest late hseen hfits hlate =>
    refine ⟨kept, .of_next hseen hfits (by simpa [total] using hlate), ?_⟩
    have hleft : kept ≠ seen := by simp [hseen]
    simp [Notes.toList, hleft]

theorem holds_start : Holds [] ⟨true, [], 0, false⟩ := .all (Nat.zero_le _)

/-- An enabled buffer stores the longest prefix of the notes, each shortened, that fits into the
whole, and one mark behind it exactly if a note is left out. Every cut is up to where the search
back ends, which is at most three bytes back, and up to there the bytes of a text are those of its
longest prefix of whole characters. -/
theorem addAll_keeps (notes : List String) :
    (∃ kept, LongestWithin String.utf8ByteSize maxTotal (notes.map shorten) kept ∧
      (addAll ⟨true, [], 0, false⟩ notes).toList = kept ++ if kept = notes.map shorten then
      [] else [mark]) ∧
    (∀ note, Shortens note (shorten note)) ∧
    ∀ limit text, ∃ p : text.Pos, boundaryBack? text limit = some p ∧
    min limit text.utf8ByteSize < p.offset.byteIdx + 4 ∧
      (cut limit text).toByteArray = text.toByteArray.extract 0 p.offset.byteIdx ∧
      LongestWithin Char.utf8Size limit text.toList (cut limit text).toList := by
  refine ⟨?_, shortens_shorten, fun limit text =>
    ⟨text.posLE ⟨limit⟩, boundaryBack?_eq text limit, ?_, ?_, ?_⟩⟩
  · have hrun := holds_start.addAll notes
    rw [List.nil_append] at hrun
    exact hrun.toList
  · rw [offset_posLE]
    exact lt_cut_add_four limit text
  · exact (cut_splits limit text).toByteArray_left_eq
  · exact longestWithin_cut limit text

/-! ### The notes of a query -/

theorem Holds.total_toList (h : Holds seen n) : total n.toList ≤ maxTotal + mark.utf8ByteSize := by
  obtain ⟨kept, hkept, hlist⟩ := h.toList
  have hfits : total kept ≤ maxTotal := hkept.within
  rw [hlist]
  split
  · rw [List.append_nil]
    omega
  · rw [total_concat]
    omega

theorem addAll_disabled (notes : List String) :
    addAll ⟨false, [], 0, false⟩ notes = ⟨false, [], 0, false⟩ := by
  induction notes with
  | nil => rfl
  | cons note notes ih => exact ih

end Notes

/-- However much a compilation remarks, the notes of its query stay within the limit and a mark. -/
theorem Query.total_notes {s : StaticContext} {e : Expr} {q : Query} (hq : compile s e = .ok q) :
    Notes.total q.notes ≤ Notes.maxTotal + Notes.mark.utf8ByteSize := by
  unfold compile at hq
  cases hcompiled : (e.compile s.optimizer s.scope).outcome with
  | error failure => simp [hcompiled, Except.map] at hq
  | ok compiled =>
    simp only [hcompiled, Except.map, Except.ok.injEq] at hq
    subst hq
    cases hkeep : s.keepNotes with
    | false => simp [Notes.addAll_disabled, Notes.toList, Notes.total]
    | true => exact (Notes.holds_start.addAll _).total_toList

end TreeQuery
