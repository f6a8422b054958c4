import RuleLogic.Numeral

/-!
# Texts of numerals

A numeral is written as its sign, its whole digits, a point and its fraction, and an `e`, a sign and
its exponent, each part only if it is there.  Where the parts are what their names say, taking the
text apart gives the numeral back.

    n.WellFormed → scan n.text = some n                    (scan_text)
-/

namespace RuleLogic.Numeral

/-! ## Texts -/

def fractionText : Option (List Char) → List Char
  | none => []
  | some ds => '.' :: ds

def exponentText : Option (Bool × List Char) → List Char
  | none => []
  | some (minus, ds) => 'e' :: (if minus then '-' else '+') :: ds

/-- The text of a numeral. -/
def text (n : Numeral) : List Char :=
  n.sign.toList ++ (n.whole ++ (fractionText n.fraction ++ exponentText n.exponent))

/-- The parts are what their names say; an exponent has digits. -/
structure WellFormed (n : Numeral) : Prop where
  sign : ∀ c ∈ n.sign, isSign c
  whole : ∀ c ∈ n.whole, c.isDigit
  fraction : ∀ ds ∈ n.fraction, ∀ c ∈ ds, c.isDigit
  exponent : ∀ e ∈ n.exponent, e.2 ≠ [] ∧ ∀ c ∈ e.2, c.isDigit

theorem WellFormed.digits {n : Numeral} (h : n.WellFormed) : ∀ c ∈ n.digits, c.isDigit := by
  intro c hc
  rcases List.mem_append.1 hc with hw | hf
  · exact h.whole c hw
  · cases hn : n.fraction with
    | none =>
      rw [hn] at hf
      cases hf
    | some ds =>
      rw [hn] at hf
      exact h.fraction ds hn c hf

/-! ## Taking texts apart -/

theorem not_isSign_of_isDigit {c : Char} (h : c.isDigit) : isSign c = false := by
  rw [isSign, Bool.or_eq_false_iff, beq_eq_false_iff_ne, beq_eq_false_iff_ne]
  refine ⟨?_, ?_⟩ <;>
  · rintro rfl
    exact absurd h (by decide)

theorem takeWhile_isDigit {ds tail : List Char} (hd : ∀ c ∈ ds, c.isDigit)
    (ht : ∀ c ∈ tail.head?, c.isDigit = false) : (ds ++ tail).takeWhile Char.isDigit = ds := by
  rw [List.takeWhile_append_of_pos hd]
  cases tail with
  | nil => rw [List.takeWhile_nil, List.append_nil]
  | cons c tail => simp [ht c rfl]

theorem dropWhile_isDigit {ds tail : List Char} (hd : ∀ c ∈ ds, c.isDigit)
    (ht : ∀ c ∈ tail.head?, c.isDigit = false) : (ds ++ tail).dropWhile Char.isDigit = tail := by
  rw [List.dropWhile_append_of_pos hd]
  cases tail with
  | nil => rfl
  | cons c tail => simp [ht c rfl]

theorem exponentText_head (e : Option (Bool × List Char)) :
    ∀ c ∈ (exponentText e).head?, c = 'e' := by
  intro c hc
  cases e with
  | none => cases hc
  | some e =>
    cases hc
    rfl

theorem fractionText_head (f : Option (List Char)) (e : Option (Bool × List Char)) :
    ∀ c ∈ (fractionText f ++ exponentText e).head?, c = '.' ∨ c = 'e' := by
  intro c hc
  cases f with
  | none => exact .inr (exponentText_head e c hc)
  | some ds =>
    cases hc
    exact .inl rfl

theorem scanSign_unsigned {tail : List Char} (h : ∀ c ∈ tail.head?, isSign c = false) :
    scanSign tail = (none, tail) := by
  cases tail with
  | nil => rfl
  | cons c tail =>
    rw [scanSign, if_neg]
    rw [h c rfl]
    decide

/-- The sign comes off in front of a text that does not begin with one. -/
theorem scanSign_append {sign : Option Char} {tail : List Char} (hs : ∀ c ∈ sign, isSign c)
    (ht : ∀ c ∈ tail.head?, isSign c = false) : scanSign (sign.toList ++ tail) = (sign, tail) := by
  cases sign with
  | none => exact scanSign_unsigned ht
  | some c =>
    show scanSign (c :: tail) = _
    rw [scanSign, if_pos (hs c rfl)]

theorem scanFraction_text {fraction : Option (List Char)} (e : Option (Bool × List Char))
    (hf : ∀ ds ∈ fraction, ∀ c ∈ ds, c.isDigit) :
    scanFraction (fractionText fraction ++ exponentText e) = (fraction, exponentText e) := by
  cases fraction with
  | none => cases e <;> rfl
  | some ds =>
    have he : ∀ c ∈ (exponentText e).head?, c.isDigit = false := by
      intro c hc
      rw [exponentText_head e c hc]
      decide
    show (some ((ds ++ exponentText e).takeWhile Char.isDigit),
      (ds ++ exponentText e).dropWhile Char.isDigit) = _
    rw [takeWhile_isDigit (hf ds rfl) he, dropWhile_isDigit (hf ds rfl) he]

theorem scanExponent_text {e : Option (Bool × List Char)}
    (he : ∀ p ∈ e, p.2 ≠ [] ∧ ∀ c ∈ p.2, c.isDigit) : scanExponent (exponentText e) = some e := by
  cases e with
  | none => rfl
  | some p =>
    obtain ⟨minus, ds⟩ := p
    obtain ⟨hne, hds⟩ := he _ rfl
    have hall : ds.all Char.isDigit = true := List.all_eq_true.2 hds
    have hempty : ds.isEmpty = false := by rwa [List.isEmpty_eq_false_iff]
    cases minus <;> simp [exponentText, scanExponent, scanSign, isSign, hall, hempty]

/-- Taking the text of a numeral apart gives the numeral back. -/
theorem scan_text {n : Numeral} (h : n.WellFormed) : scan n.text = some n := by
  obtain ⟨sign, whole, fraction, exponent⟩ := n
  obtain ⟨hsign, hwhole, hfraction, hexponent⟩ := h
  have htail : ∀ c ∈ (fractionText fraction ++ exponentText exponent).head?,
      c.isDigit = false ∧ isSign c = false := by
    intro c hc
    rcases fractionText_head fraction exponent c hc with rfl | rfl <;> decide
  have hunsigned : ∀ c ∈ (whole ++ (fractionText fraction ++ exponentText exponent)).head?,
      isSign c = false := by
    intro c hc
    cases whole with
    | nil => exact (htail c hc).2
    | cons d ds =>
      cases hc
      exact not_isSign_of_isDigit (hwhole _ List.mem_cons_self)
  have hdigit := fun c hc => (htail c hc).1
  rw [text, scan, scanSign_append hsign hunsigned]
  simp only [takeWhile_isDigit hwhole hdigit, dropWhile_isDigit hwhole hdigit,
    scanFraction_text exponent hfraction, scanExponent_text hexponent, Option.map_some]

end RuleLogic.Numeral
