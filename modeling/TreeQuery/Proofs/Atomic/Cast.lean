import TreeQuery.Atomic.Cast
import TreeQuery.Proofs.Number.Written
/-!
# Casts of untyped text

Which texts denote a number of a type (`castText_accepts`). An integer is written as one and lies in
the range; a decimal has no exponent, a double may have one. The two readers of doubles share the
words for infinity and for what is not a number with the reader of numbers below them:
`readDecimal?` takes every spelling of them, since none has an `e`, and `readDouble?` refuses only
two, so that more texts are taken than are written as numbers of the type (`castText_infinity`).
-/

namespace TreeQuery

def WritesDouble (s : List Char) : Prop :=
  WritesNumeral s ∨ s ∈ ["INF".toList, "+INF".toList, "-INF".toList, "NaN".toList]

variable {s : List Char}

/-! ### The letters of numerals and words -/

theorem IsMantissa.mem (h : IsMantissa s) : ∀ c ∈ s, c.isDigit = true ∨ c = '.' := by
  intro c hc
  cases h with
  | whole hds => exact .inl (hds.2 c hc)
  | point hds hfs =>
    rcases List.mem_append.mp hc with hc | hc
    · exact .inl (hds.2 c hc)
    · rcases List.mem_cons.mp hc with hc | hc
      · exact .inr hc
      · exact .inl (hfs c hc)
  | fraction hfs =>
    rcases List.mem_cons.mp hc with hc | hc
    · exact .inr hc
    · exact .inl (hfs.2 c hc)

theorem IsMantissa.ne_nil (h : IsMantissa s) : s ≠ [] := by
  cases h with
  | whole hds => exact hds.1
  | point | fraction => simp

theorem Signed.mem {negative : Bool} {body : List Char} (h : Signed negative s body) {c : Char}
    (hc : c ∈ s) : c ∈ body ∨ c = '+' ∨ c = '-' := by
  cases h with
  | unsigned => exact .inl hc
  | plus => exact (List.mem_cons.mp hc).symm.imp_right .inl
  | minus => exact (List.mem_cons.mp hc).symm.imp_right .inr

theorem ne_letter_of_decimal {c : Char} (h : (c.isDigit = true ∨ c = '.') ∨ c = '+' ∨ c = '-') :
    c ≠ 'e' ∧ c ≠ 'E' := by
  constructor <;> rintro rfl <;> revert h <;> decide

/-- A numeral is a decimal if it has no letter of exponents. -/
theorem writesDecimal_iff : WritesDecimal s ↔ WritesNumeral s ∧ ∀ c ∈ s, c ≠ 'e' ∧ c ≠ 'E' := by
  constructor
  · rintro ⟨negative, body, hsigned, hbody⟩
    refine ⟨⟨negative, body, [], by rwa [List.append_nil], hbody, .none⟩, fun c hc => ?_⟩
    exact ne_letter_of_decimal ((hsigned.mem hc).imp_left (hbody.mem c))
  · rintro ⟨⟨negative, mantissa, exponent, hsigned, hmantissa, hexponent⟩, hletter⟩
    cases hexponent with
    | none => exact ⟨negative, mantissa, by rwa [List.append_nil] at hsigned, hmantissa⟩
    | @letter c s i hc _ =>
      have hmem : c ∈ mantissa ++ c :: s := List.mem_append_right _ List.mem_cons_self
      have hne := hletter c (by cases hsigned <;> simp)
      exact absurd hc (not_or.mpr hne)

theorem WritesWord.ne_letter (h : WritesWord s) : ∀ c ∈ s, c ≠ 'e' ∧ c ≠ 'E' := by
  obtain ⟨negative, body, hsigned, hword⟩ := h
  intro c hc
  rcases hsigned.mem hc with hc | hc
  · have hlower : c.toLower ∈ foldAscii body := List.mem_map_of_mem hc
    constructor <;> rintro rfl <;> revert hlower <;>
      simp only [List.mem_cons, List.not_mem_nil, or_false] at hword <;>
      rcases hword with hword | hword | hword <;> rw [hword] <;> decide
  · exact ne_letter_of_decimal (.inr hc)

theorem toLower_of_digit {c : Char} (h : c.isDigit = true) : c.toLower = c := by
  simp only [Char.isDigit, Bool.and_eq_true, decide_eq_true_eq] at h
  refine dif_neg fun hupper => ?_
  have hle : 'A'.val ≤ '9'.val := UInt32.le_trans hupper.1 h.2
  revert hle
  decide

/-- No text is both a word and a numeral: behind the sign a word begins with a letter, a numeral
with a digit or a point. -/
theorem WritesWord.not_numeral (h : WritesWord s) : ¬WritesNumeral s := by
  obtain ⟨negative, body, hsigned, hword⟩ := h
  rintro ⟨negative', mantissa, exponent, hsigned', hmantissa, -⟩
  have hbody : body = mantissa ++ exponent := by
    have hsplit := hsigned.splitSign_eq (head_ne_sign_of_word hword)
    rw [hsigned'.splitSign_eq (hmantissa.head exponent)] at hsplit
    exact (congrArg Prod.snd hsplit).symm
  obtain ⟨c, rest, rfl⟩ := List.exists_cons_of_ne_nil hmantissa.ne_nil
  have hfirst : c.toLower = c := by
    rcases hmantissa.mem c List.mem_cons_self with hc | rfl
    · exact toLower_of_digit hc
    · decide
  have hdigit := hmantissa.mem c List.mem_cons_self
  rw [hbody, List.cons_append, foldAscii, List.map_cons, hfirst] at hword
  simp only [List.mem_cons, List.not_mem_nil, or_false] at hword
  rcases hword with hword | hword | hword <;> cases (List.cons.inj hword).1 <;>
    revert hdigit <;> decide

/-! ### The readers of atomic values -/

theorem readInteger64?_iff {i : Int} : readInteger64? s = some i ↔
    WritesInteger s i ∧ Atomic.minInteger ≤ i ∧ i ≤ Atomic.maxInteger := by
  rw [readInteger64?, Option.filter_eq_some_iff, readInteger?_iff, decide_eq_true_eq]

theorem readDecimal?_iff : (∃ x, readDecimal? s = some x) ↔ WritesDecimal s ∨ WritesWord s := by
  have hletter : ¬(s.any fun c => c == 'e' || c == 'E') = true ↔ ∀ c ∈ s, c ≠ 'e' ∧
    c ≠ 'E' := by simp
  simp only [readDecimal?, Option.ite_none_left_eq_some, exists_and_left, Number.read?_iff, hletter,
    writesDecimal_iff]
  constructor
  · rintro ⟨hne, hnumeral | hword⟩
    · exact .inl ⟨hnumeral, hne⟩
    · exact .inr hword
  · rintro (⟨hnumeral, hne⟩ | hword)
    · exact ⟨hne, .inl hnumeral⟩
    · exact ⟨hword.ne_letter, .inr hword⟩

/-- The reader of doubles takes numerals, the four forms of the special values, and every other word
but `inf` and `nan` without a sign. -/
theorem readDouble?_iff : (∃ x, readDouble? s = some x) ↔
    WritesDouble s ∨ WritesWord s ∧ foldAscii s ∉ ["inf".toList, "nan".toList] := by
  have hrefused (h : foldAscii s ∈ ["inf".toList, "nan".toList]) : WritesWord s := by
    refine ⟨false, s, .unsigned, ?_⟩
    simp only [List.mem_cons, List.not_mem_nil, or_false] at h
    rcases h with h | h <;> simp [h]
  by_cases hspecial : s ∈ ["INF".toList, "+INF".toList, "-INF".toList, "NaN".toList]
  · refine iff_of_true ?_ (.inl (.inr hspecial))
    simp only [List.mem_cons, List.not_mem_nil, or_false] at hspecial
    rcases hspecial with rfl | rfl | rfl | rfl
    exacts [⟨_, rfl⟩, ⟨_, rfl⟩, ⟨_, rfl⟩, ⟨_, rfl⟩]
  · have hread : readDouble? s =
        if foldAscii s ∈ ["inf".toList, "nan".toList] then none else Number.read? .double s := by
      simp only [List.mem_cons, List.not_mem_nil, or_false, not_or] at hspecial
      obtain ⟨hinf, hplus, hminus, hnan⟩ := hspecial
      simp only [readDouble?, hinf, hplus, hminus, hnan, decide_false, Bool.or_self,
        Bool.false_eq_true, if_false, Bool.or_eq_true, decide_eq_true_eq, List.mem_cons,
        List.not_mem_nil, or_false]
    rw [hread, WritesDouble, or_iff_left hspecial]
    simp only [Option.ite_none_left_eq_some, exists_and_left, Number.read?_iff]
    constructor
    · rintro ⟨hne, hnumeral | hword⟩
      · exact .inl hnumeral
      · exact .inr ⟨hword, hne⟩
    · rintro (hnumeral | ⟨hword, hne⟩)
      · exact ⟨fun h => (hrefused h).not_numeral hnumeral, .inl hnumeral⟩
      · exact ⟨hne, .inr hword⟩

/-! ### Casts -/

/-- Which texts, without the blanks around them, are taken as numbers. The value of an integer is
the one written. -/
theorem castText_accepts (s : String) :
    (∀ v, castText s .integer = .ok v ↔ ∃ i, v = .integer i ∧
      WritesInteger (trimBlanks s.toList) i ∧
      Atomic.minInteger ≤ i ∧ i ≤ Atomic.maxInteger) ∧
    ((∃ v, castText s .decimal = .ok v) ↔
      WritesDecimal (trimBlanks s.toList) ∨ WritesWord (trimBlanks s.toList)) ∧
    ((∃ v, castText s .double = .ok v) ↔ WritesDouble (trimBlanks s.toList) ∨
      WritesWord (trimBlanks s.toList) ∧
      foldAscii (trimBlanks s.toList) ∉ ["inf".toList, "nan".toList]) ∧
    ((∃ v, castText s .float = .ok v) ↔ WritesDouble (trimBlanks s.toList) ∨
      WritesWord (trimBlanks s.toList) ∧
      foldAscii (trimBlanks s.toList) ∉ ["inf".toList, "nan".toList]) := by
  simp only [castText, ← readInteger64?_iff, ← readDecimal?_iff, ← readDouble?_iff]
  refine ⟨fun v => ?_, ?_, ?_, ?_⟩
  · cases readInteger64? (trimBlanks s.toList) <;> simp [eq_comm]
  · cases readDecimal? (trimBlanks s.toList) <;> simp
  · cases readDouble? (trimBlanks s.toList) <;> simp
  · cases readDouble? (trimBlanks s.toList) <;> simp

/-- A spelling of infinity that is no written form of a decimal or of a double is taken as both. -/
theorem castText_infinity : (∃ v, castText "infinity" .decimal = .ok v) ∧
    ¬WritesDecimal "infinity".toList ∧
    (∃ v, castText "infinity" .double = .ok v) ∧ ¬WritesDouble "infinity".toList := by
  have hword : WritesWord "infinity".toList := ⟨false, _, .unsigned, by decide⟩
  refine ⟨⟨_, rfl⟩, fun h => hword.not_numeral (writesDecimal_iff.mp h).1, ⟨_, rfl⟩, ?_⟩
  rintro (hnumeral | hspecial)
  · exact hword.not_numeral hnumeral
  · revert hspecial
    decide

end TreeQuery
