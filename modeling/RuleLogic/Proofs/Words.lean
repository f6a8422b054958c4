import RuleLogic.Json.Printer
import Mathlib.Data.Bool.AllAny
import Mathlib.Data.List.Infix

/-!
# Words in JSON texts

A word is a text without the characters that JSON puts between and around values.  It cannot reach
across them, so it occurs in the text of an array or object exactly if it occurs in a part.

    word <:+: compact (.arr items) ↔ ∃ v ∈ items, word <:+: compact v        (infix_compact_arr)
-/

namespace RuleLogic.Value

/-- The characters around and between the parts of arrays and objects. -/
def punctuation : List Char := [',', ':', '[', ']', '{', '}']

/-- A text that holds no punctuation. -/
structure IsWord (word : List Char) : Prop where
  ne_nil : word ≠ []
  not_mem : ∀ c ∈ punctuation, c ∉ word

instance (word : List Char) : Decidable (IsWord word) :=
  decidable_of_iff (word ≠ [] ∧ punctuation.all (· ∉ word))
    ⟨fun h => ⟨h.1, List.all_iff_forall_prop.1 h.2⟩,
      fun h => ⟨h.1, List.all_iff_forall_prop.2 h.not_mem⟩⟩

/-- What does not hold a character cannot reach across it. -/
theorem infix_append_cons_iff {α : Type} {c : α} {word : List α} (hc : c ∉ word) (xs ys : List α) :
    word <:+: xs ++ c :: ys ↔ word <:+: xs ∨ word <:+: ys := by
  have hstart {w : List α} (hw : w ⊆ word) : w <+: c :: ys → w = [] := by
    intro h
    rcases List.prefix_cons_iff.1 h with h | ⟨t, rfl, -⟩
    · exact h
    · exact absurd (hw List.mem_cons_self) hc
  constructor
  · intro h
    rcases List.infix_append_iff_ne_nil.1 h with h | h | ⟨u, w, -, hw, rfl, -, h⟩
    · exact .inl h
    · rcases List.infix_cons_iff.1 h with h | h
      · rw [hstart (List.Subset.refl word) h]
        exact .inl List.nil_infix
      · exact .inr h
    · exact absurd (hstart (List.subset_append_right u w) h) hw
  · rintro (h | h)
    · exact h.trans (List.prefix_append xs (c :: ys)).isInfix
    · exact h.trans ((List.suffix_cons c ys).trans (List.suffix_append xs (c :: ys))).isInfix

section
variable {word : List Char} (hw : IsWord word)

include hw

theorem infix_cons_punctuation {c : Char} (hc : c ∈ punctuation) (ys : List Char) :
    word <:+: c :: ys ↔ word <:+: ys := by
  have h := infix_append_cons_iff (hw.not_mem c hc) [] ys
  rwa [List.nil_append, List.infix_nil, or_iff_right hw.ne_nil] at h

theorem infix_append_moreItems (xs : List Char) (items : List Value) :
    word <:+: xs ++ moreItems items ↔ word <:+: xs ∨ ∃ v ∈ items, word <:+: compact v := by
  induction items generalizing xs with
  | nil =>
    rw [moreItems, infix_append_cons_iff (hw.not_mem ']' (by decide))]
    simp [hw.ne_nil]
  | cons v rest ih =>
    rw [moreItems, List.cons_append, infix_append_cons_iff (hw.not_mem ',' (by decide)), ih]
    simp

theorem infix_append_moreEntries (xs : List Char) (entries : List (String × Value)) :
    word <:+: xs ++ moreEntries entries ↔
      word <:+: xs ∨ ∃ e ∈ entries, word <:+: quoted e.1 ∨ word <:+: compact e.2 := by
  induction entries generalizing xs with
  | nil =>
    rw [moreEntries, infix_append_cons_iff (hw.not_mem '}' (by decide))]
    simp [hw.ne_nil]
  | cons e rest ih =>
    obtain ⟨k, v⟩ := e
    rw [moreEntries, List.cons_append, List.cons_append,
      infix_append_cons_iff (hw.not_mem ',' (by decide)), List.append_assoc, List.cons_append,
      infix_append_cons_iff (hw.not_mem ':' (by decide)), ih]
    simp [or_assoc]

/-- A word occurs in the text of an array if it occurs in that of an item. -/
theorem infix_compact_arr (items : List Value) :
    word <:+: compact (.arr items) ↔ ∃ v ∈ items, word <:+: compact v := by
  cases items with
  | nil =>
    rw [compact, infix_cons_punctuation hw (by decide), infix_cons_punctuation hw (by decide)]
    simp [hw.ne_nil]
  | cons v rest =>
    rw [compact, List.cons_append, infix_cons_punctuation hw (by decide),
      infix_append_moreItems hw]
    simp

/-- A word occurs in the text of an object if it occurs in a key or in the text of a value. -/
theorem infix_compact_obj (entries : List (String × Value)) :
    word <:+: compact (.obj entries) ↔
      ∃ e ∈ entries, word <:+: quoted e.1 ∨ word <:+: compact e.2 := by
  cases entries with
  | nil =>
    rw [compact, infix_cons_punctuation hw (by decide), infix_cons_punctuation hw (by decide)]
    simp [hw.ne_nil]
  | cons e rest =>
    obtain ⟨k, v⟩ := e
    rw [compact, List.cons_append, List.cons_append, infix_cons_punctuation hw (by decide),
      List.append_assoc, List.cons_append, infix_append_cons_iff (hw.not_mem ':' (by decide)),
      infix_append_moreEntries hw]
    simp [or_assoc]

end

end RuleLogic.Value
