import Mathlib.Data.Nat.Digits.Defs
import TreeQuery.Number.Numeral
/-!
# Written numbers

The forms in which numbers are written, told without a reader: a sign that may be left out, digits
with an optional fraction or a fraction alone, an exponent that may be left out. The readers accept
these forms and no others: `readInteger?_iff`, `readUnsigned?_iff` and, with the words for infinity
and for what is not a number, `Number.read?_iff`.
-/

namespace TreeQuery

/-- What is written behind an optional sign, and whether the sign is a minus. -/
inductive Signed : Bool → List Char → List Char → Prop
  | unsigned {body : List Char} : Signed false body body
  | plus {body : List Char} : Signed false ('+' :: body) body
  | minus {body : List Char} : Signed true ('-' :: body) body

def IsDigits (s : List Char) : Prop := s ≠ [] ∧ ∀ c ∈ s, c.isDigit = true

/-- An optional sign in front of digits, and the integer that they denote. -/
def WritesInteger (s : List Char) (i : Int) : Prop :=
  ∃ negative ds, Signed negative s ds ∧ IsDigits ds ∧
    i = (if negative then -1 else 1) * (Nat.ofDigits 10 (ds.map digitValue).reverse : Nat)

/-- Digits with an optional fraction, or a fraction alone. -/
inductive IsMantissa : List Char → Prop
  | whole {ds : List Char} : IsDigits ds → IsMantissa ds
  | point {ds fs : List Char} : IsDigits ds → (∀ c ∈ fs, c.isDigit = true) →
    IsMantissa (ds ++ '.' :: fs)
  | fraction {fs : List Char} : IsDigits fs → IsMantissa ('.' :: fs)

/-- Nothing, or the letter `e` in front of an integer. -/
inductive IsExponent : List Char → Prop
  | none : IsExponent []
  | letter {c : Char} {s : List Char} {i : Int} : c = 'e' ∨ c = 'E' → WritesInteger s i →
    IsExponent (c :: s)

/-- An optional sign in front of digits with an optional fraction, or of a fraction alone. -/
def WritesDecimal (s : List Char) : Prop :=
  ∃ negative body, Signed negative s body ∧ IsMantissa body

def WritesNumeral (s : List Char) : Prop :=
  ∃ negative mantissa exponent, Signed negative s (mantissa ++ exponent) ∧ IsMantissa mantissa ∧
    IsExponent exponent

/-- An optional sign in front of a word for infinity or for what is not a number, in any case of
letters. -/
def WritesWord (s : List Char) : Prop :=
  ∃ negative body, Signed negative s body ∧
    foldAscii body ∈ ["inf".toList, "infinity".toList, "nan".toList]

/-! ### Signs and digits -/

theorem signed_splitSign (s : List Char) : Signed (splitSign s).1 s (splitSign s).2 := by
  unfold splitSign
  split
  · exact .plus
  · exact .minus
  · exact .unsigned

/-- A sign can be split off in one way if what is behind it begins with none. -/
theorem Signed.splitSign_eq {negative : Bool} {s body : List Char} (h : Signed negative s body)
    (hbody : ∀ c ∈ body.head?, c ≠ '+' ∧ c ≠ '-') : splitSign s = (negative, body) := by
  cases h with
  | plus | minus => rfl
  | unsigned =>
    unfold splitSign
    split
    · exact absurd rfl (hbody '+' rfl).1
    · exact absurd rfl (hbody '-' rfl).2
    · rfl

theorem ne_sign_of_isDigit {c : Char} (h : c.isDigit = true) : c ≠ '+' ∧ c ≠ '-' := by
  constructor <;> rintro rfl <;> revert h <;> decide

theorem IsDigits.head {ds : List Char} (h : IsDigits ds) (rest : List Char) :
    ∀ c ∈ (ds ++ rest).head?, c.isDigit = true := by
  obtain _ | ⟨d, ds⟩ := ds
  · exact absurd rfl h.1
  · rintro _ ⟨⟩
    exact h.2 d List.mem_cons_self

theorem appendDigits_eq_ofDigits : (ds : List Char) → (n : Nat) →
    appendDigits n ds = n * 10 ^ ds.length + Nat.ofDigits 10 (ds.map digitValue).reverse
  | [], n => by simp [appendDigits]
  | d :: ds, n => by
    have ih := appendDigits_eq_ofDigits ds (10 * n + digitValue d)
    rw [appendDigits, List.foldl_cons, ← appendDigits, ih, List.map_cons, List.reverse_cons,
      Nat.ofDigits_append, Nat.ofDigits_singleton, List.length_reverse, List.length_map,
      List.length_cons, Nat.pow_succ]
    ring

theorem digitsValue_eq_ofDigits (ds : List Char) :
    digitsValue ds = Nat.ofDigits 10 (ds.map digitValue).reverse := by
  rw [digitsValue_eq_appendDigits, appendDigits_eq_ofDigits, Nat.zero_mul, Nat.zero_add]

theorem readInteger?_iff {s : List Char} {i : Int} :
    readInteger? s = some i ↔ WritesInteger s i := by
  have hvalue (negative : Bool) (ds : List Char) :
    (if negative then -(digitsValue ds : Int) else digitsValue ds) =
      (if negative then -1 else 1) * (Nat.ofDigits 10 (ds.map digitValue).reverse : Nat) := by
    rw [digitsValue_eq_ofDigits]
    cases negative <;> simp
  constructor
  · intro h
    simp only [readInteger?, Option.ite_none_left_eq_some, Option.some.injEq, Bool.or_eq_true,
      List.isEmpty_iff, Bool.not_eq_true', not_or, Bool.not_eq_false, List.all_eq_true] at h
    obtain ⟨hdigits, rfl⟩ := h
    exact ⟨_, _, signed_splitSign s, hdigits, hvalue _ _⟩
  · rintro ⟨negative, ds, hsigned, hdigits, rfl⟩
    have hsplit := hsigned.splitSign_eq fun c hc =>
      ne_sign_of_isDigit (hdigits.head [] c (by rwa [List.append_nil]))
    simp only [readInteger?, hsplit, Option.ite_none_left_eq_some, Option.some.injEq,
      Bool.or_eq_true, List.isEmpty_iff, Bool.not_eq_true', not_or, Bool.not_eq_false,
      List.all_eq_true]
    exact ⟨hdigits, hvalue _ _⟩

/-! ### Numerals -/

theorem takeWhile_digits {ds : List Char} (rest : List Char) (hds : ∀ c ∈ ds, c.isDigit = true)
    (hrest : ∀ c ∈ rest.head?, c.isDigit = false) :
    (ds ++ rest).takeWhile Char.isDigit = ds ∧ (ds ++ rest).dropWhile Char.isDigit = rest := by
  rw [List.takeWhile_append_of_pos hds, List.dropWhile_append_of_pos hds]
  cases rest with
  | nil => simp
  | cons c rest => simp [hrest c rfl]

theorem isDigit_of_mem_takeWhile {s : List Char} :
    ∀ c ∈ s.takeWhile Char.isDigit, c.isDigit = true :=
  List.all_eq_true.mp List.all_takeWhile

theorem readExponent?_iff {s : List Char} :
    (∃ e, Numeral.readExponent? s = some e) ↔ IsExponent s := by
  cases s with
  | nil => exact ⟨fun _ => .none, fun _ => ⟨0, rfl⟩⟩
  | cons c s =>
    simp only [Numeral.readExponent?, Option.ite_none_right_eq_some, Bool.or_eq_true, beq_iff_eq,
      exists_and_left, readInteger?_iff]
    constructor
    · rintro ⟨hc, i, hi⟩
      exact .letter hc hi
    · rintro (_ | ⟨hc, hi⟩)
      exact ⟨hc, _, hi⟩

theorem IsExponent.head {s : List Char} (h : IsExponent s) :
    ∀ c ∈ s.head?, c.isDigit = false ∧ c ≠ '.' := by
  cases h with
  | none => simp
  | letter hc _ =>
    rintro c ⟨⟩
    rcases hc with rfl | rfl <;> decide

theorem isMantissa_iff {s : List Char} : IsMantissa s ↔ IsDigits s ∨ ∃ ds fs, s = ds ++ '.' :: fs ∧
    (∀ c ∈ ds, c.isDigit = true) ∧ (∀ c ∈ fs, c.isDigit = true) ∧ ¬(ds = [] ∧ fs = []) := by
  constructor
  · rintro (h | ⟨hds, hfs⟩ | h)
    · exact .inl h
    · exact .inr ⟨_, _, rfl, hds.2, hfs, fun hnil => hds.1 hnil.1⟩
    · exact .inr ⟨[], _, rfl, by simp, h.2, fun hnil => h.1 hnil.2⟩
  · rintro (h | ⟨ds, fs, rfl, hds, hfs, hne⟩)
    · exact .whole h
    · by_cases hnil : ds = []
      · subst hnil
        exact .fraction ⟨fun h => hne ⟨rfl, h⟩, hfs⟩
      · exact .point ⟨hnil, hds⟩ hfs

theorem readUnsigned?_iff (negative : Bool) {s : List Char} :
    (∃ n, Numeral.readUnsigned? negative s = some n) ↔
    ∃ mantissa exponent, s = mantissa ++ exponent ∧ IsMantissa mantissa ∧ IsExponent exponent := by
  constructor
  · rintro ⟨n, h⟩
    simp only [Numeral.readUnsigned?] at h
    have hs : s = s.takeWhile Char.isDigit ++ s.dropWhile Char.isDigit :=
      List.takeWhile_append_dropWhile.symm
    generalize s.takeWhile Char.isDigit = whole, isDigit_of_mem_takeWhile (s := s) = hwhole at h hs
    split at h
    · next r hdrop =>
      simp only [Option.ite_none_left_eq_some, Option.map_eq_some_iff, Bool.and_eq_true,
        List.isEmpty_iff] at h
      obtain ⟨hne, e, he, -⟩ := h
      refine ⟨whole ++ '.' :: r.takeWhile Char.isDigit, r.dropWhile Char.isDigit, ?_, ?_,
        readExponent?_iff.mp ⟨e, he⟩⟩
      · rw [hs, hdrop, List.append_assoc, List.cons_append, List.takeWhile_append_dropWhile]
      · exact isMantissa_iff.mpr (.inr ⟨_, _, rfl, hwhole, isDigit_of_mem_takeWhile, hne⟩)
    · simp only [Option.ite_none_left_eq_some, Option.map_eq_some_iff, List.isEmpty_iff] at h
      obtain ⟨hne, e, he, -⟩ := h
      exact ⟨whole, _, hs, .whole ⟨hne, hwhole⟩, readExponent?_iff.mp ⟨e, he⟩⟩
  · rintro ⟨mantissa, exponent, rfl, hmantissa, hexponent⟩
    obtain ⟨e, he⟩ := readExponent?_iff.mpr hexponent
    have hend : ∀ c ∈ exponent.head?, c.isDigit = false := fun c hc => (hexponent.head c hc).1
    obtain hds | ⟨ds, fs, rfl, hds, hfs, hne⟩ := isMantissa_iff.mp hmantissa
    · obtain ⟨htake, hdrop⟩ := takeWhile_digits exponent hds.2 hend
      simp only [Numeral.readUnsigned?, htake, hdrop]
      split
      · exact absurd rfl (hexponent.head '.' rfl).2
      · exact ⟨_, by rw [if_neg (by simpa using hds.1), he, Option.map_some]⟩
    · rw [List.append_assoc, List.cons_append]
      obtain ⟨htake, hdrop⟩ :=
        takeWhile_digits ('.' :: (fs ++ exponent)) hds (by rintro _ ⟨⟩; decide)
      obtain ⟨htake', hdrop'⟩ := takeWhile_digits exponent hfs hend
      simp only [Numeral.readUnsigned?, htake, hdrop, htake', hdrop']
      exact ⟨_, by rw [if_neg (by simpa using hne), he, Option.map_some]⟩

theorem IsMantissa.head {s : List Char} (h : IsMantissa s) (rest : List Char) :
    ∀ c ∈ (s ++ rest).head?, c ≠ '+' ∧ c ≠ '-' := by
  cases h with
  | whole hds => exact fun c hc => ne_sign_of_isDigit (hds.head rest c hc)
  | point hds _ => exact fun c hc =>
    ne_sign_of_isDigit (hds.head _ c (by rwa [List.append_assoc] at hc))
  | fraction _ =>
    rintro _ ⟨⟩
    decide

theorem head_ne_sign_of_word {s : List Char}
    (h : foldAscii s ∈ ["inf".toList, "infinity".toList, "nan".toList]) :
    ∀ c ∈ s.head?, c ≠ '+' ∧ c ≠ '-' := by
  obtain _ | ⟨c, s⟩ := s
  · simp
  · rintro _ ⟨⟩
    constructor <;> rintro rfl <;> revert h <;> simp [foldAscii]

/-- The reader of numbers takes numerals and words. -/
theorem Number.read?_iff {f : Format} {s : List Char} :
    (∃ x, Number.read? f s = some x) ↔ WritesNumeral s ∨ WritesWord s := by
  constructor
  · rintro ⟨x, h⟩
    have hsigned := signed_splitSign s
    simp only [read?] at h
    split at h
    · next hword =>
      simp only [Bool.or_eq_true, decide_eq_true_eq] at hword
      exact .inr ⟨_, _, hsigned, by rcases hword with hword | hword <;> simp [hword]⟩
    · split at h
      · next hword => exact .inr ⟨_, _, hsigned, by simp [hword]⟩
      · obtain ⟨n, hn, -⟩ := Option.map_eq_some_iff.mp h
        obtain ⟨mantissa, exponent, hbody, hmantissa, hexponent⟩ := (readUnsigned?_iff _).mp ⟨n, hn⟩
        exact .inl ⟨_, mantissa, exponent, hbody ▸ hsigned, hmantissa, hexponent⟩
  · rintro (⟨negative, mantissa, exponent, hsigned, hmantissa, hexponent⟩ | ⟨negative, body,
      hsigned, hword⟩)
    · obtain ⟨n, hn⟩ := (readUnsigned?_iff negative).mpr
        ⟨mantissa, exponent, rfl, hmantissa, hexponent⟩
      simp only [read?, hsigned.splitSign_eq (hmantissa.head exponent), hn, Option.map_some]
      split
      · exact ⟨_, rfl⟩
      · split <;> exact ⟨_, rfl⟩
    · simp only [read?, hsigned.splitSign_eq (head_ne_sign_of_word hword)]
      simp only [List.mem_cons, List.not_mem_nil, or_false] at hword
      rcases hword with hword | hword | hword
      · exact ⟨_, if_pos (by simp [hword])⟩
      · exact ⟨_, if_pos (by simp [hword])⟩
      · exact ⟨.nan, by simp [hword]⟩

end TreeQuery
