import RuleLogic.Proofs.Contents
import RuleLogic.Proofs.NumberText
import RuleLogic.Proofs.Places
import RuleLogic.Proofs.Validity
import RuleLogic.Proofs.Words

/-!
# Names in reducers

Validation warns about a reducer whose text names neither the value so far nor the item.  It
searches the JSON text of the reducer, and there every key and every string is written with its
plain letters as they are, side by side.  So a name that stands in a key or a string is found,
whatever has to be escaped around it, and it is found nowhere but in keys and strings.

    word <:+: compact v ↔ word stands in the written form of a key or a string of v
                                                                  (infix_compact_iff_hasText)
    a name in a key or a string of the reducer → no warning       (reducer_warned_iff)
-/

namespace RuleLogic

/-! ## Keys and strings -/

/-- The text is a string in the value or a key of an object in it, at any depth. -/
inductive Value.HasText (s : String) : Value → Prop
  | string : HasText s (.str s)
  | key {entries : List (String × Value)} {v : Value} (hv : (s, v) ∈ entries) :
    HasText s (.obj entries)
  | item {items : List Value} {v : Value} (hv : v ∈ items) (h : HasText s v) :
    HasText s (.arr items)
  | entry {entries : List (String × Value)} {key : String} {v : Value} (hv : (key, v) ∈ entries)
    (h : HasText s v) : HasText s (.obj entries)

namespace Value

theorem hasText_str_iff {s t : String} : (Value.str t).HasText s ↔ s = t := by
  constructor
  · rintro ⟨⟩
    rfl
  · rintro rfl
    exact .string

theorem hasText_arr_iff {s : String} {items : List Value} :
    (Value.arr items).HasText s ↔ ∃ v ∈ items, v.HasText s := by
  constructor
  · rintro (_ | _ | ⟨hv, h⟩)
    exact ⟨_, hv, h⟩
  · rintro ⟨v, hv, h⟩
    exact .item hv h

theorem hasText_obj_iff {s : String} {entries : List (String × Value)} :
    (Value.obj entries).HasText s ↔ ∃ e ∈ entries, s = e.1 ∨ e.2.HasText s := by
  constructor
  · rintro (_ | hv | _ | ⟨hv, h⟩)
    · exact ⟨_, hv, .inl rfl⟩
    · exact ⟨_, hv, .inr h⟩
  · rintro ⟨⟨key, v⟩, hv, rfl | h⟩
    · exact .key hv
    · exact .entry hv h

/-! ## Words in written texts -/

section
variable {word : List Char}

/-- A word that needs no escapes stands in the written form of a string if it stands in the
string: what is around it is escaped by itself. -/
theorem infix_quoted_of_infix (hplain : word.flatMap escape = word) {s : String}
    (h : word <:+: s.toList) : word <:+: quoted s := by
  have hescaped : word <:+: s.toList.flatMap escape := hplain ▸ h.flatMap escape
  exact hescaped.trans ⟨['"'], ['"'], rfl⟩

variable (hw : IsWord word) (hc : 'c' ∈ word)

include hc

/-- A word with a `c` in it stands in no number, nor in `null`, `true` or `false`. -/
theorem not_infix_compact_scalar {v : Value}
    (hv : v.kind = .null ∨ v.kind = .boolean ∨ v.kind = .number) : ¬ word <:+: compact v := by
  intro h
  have hmem : 'c' ∈ compact v := h.subset hc
  match v with
  | .null => exact absurd hmem (by decide)
  | .bool true | .bool false => exact absurd hmem (by decide)
  | .num n => exact absurd (Number.isTextChar_of_mem_text n 'c' hmem) (by decide)
  | .str _ | .arr _ | .obj _ => rcases hv with hv | hv | hv <;> cases hv

include hw

/-- A word occurs in the text of a value where it occurs in a key or a string. -/
theorem infix_compact_iff_hasText (v : Value) :
    word <:+: compact v ↔ ∃ s, v.HasText s ∧ word <:+: quoted s := by
  have hscalar {v : Value} (hv : v.kind = .null ∨ v.kind = .boolean ∨ v.kind = .number)
      (hnone : ∀ s, ¬ v.HasText s) :
      word <:+: compact v ↔ ∃ s, v.HasText s ∧ word <:+: quoted s :=
    iff_of_false (not_infix_compact_scalar hc hv) fun ⟨s, hs, _⟩ => hnone s hs
  induction v using held_induction with
  | h v ih =>
    cases v with
    | null => exact hscalar (.inl rfl) nofun
    | bool b => exact hscalar (.inr (.inl rfl)) nofun
    | num n => exact hscalar (.inr (.inr rfl)) nofun
    | str s =>
      simp only [hasText_str_iff, exists_eq_left]
      rfl
    | arr items =>
      rw [infix_compact_arr hw]
      constructor
      · rintro ⟨v, hv, h⟩
        obtain ⟨s, hs, h⟩ := (ih v hv).1 h
        exact ⟨s, .item hv hs, h⟩
      · rintro ⟨s, hs, h⟩
        obtain ⟨v, hv, hs⟩ := hasText_arr_iff.1 hs
        exact ⟨v, hv, (ih v hv).2 ⟨s, hs, h⟩⟩
    | obj entries =>
      rw [infix_compact_obj hw]
      have hheld (e : String × Value) (he : e ∈ entries) := ih e.2 (List.mem_map_of_mem he)
      constructor
      · rintro ⟨e, he, h | h⟩
        · exact ⟨e.1, .key he, h⟩
        · obtain ⟨s, hs, h⟩ := (hheld e he).1 h
          exact ⟨s, .entry he hs, h⟩
      · rintro ⟨s, hs, h⟩
        obtain ⟨e, he, rfl | hs⟩ := hasText_obj_iff.1 hs
        · exact ⟨e, he, .inl h⟩
        · exact ⟨e, he, .inr ((hheld e he).2 ⟨s, hs, h⟩)⟩

end

end Value

/-! ## Reducers -/

/-- The text holds one of the names under which a reducer finds its data. -/
def NamesScope (text : List Char) : Prop :=
  "accumulator".toList <:+: text ∨ "current".toList <:+: text

instance (text : List Char) : Decidable (NamesScope text) :=
  inferInstanceAs (Decidable (_ ∨ _))

theorem namesScope_quoted {s : String} (h : NamesScope s.toList) : NamesScope (Value.quoted s) :=
  h.imp (Value.infix_quoted_of_infix rfl) (Value.infix_quoted_of_infix rfl)

/-- The digits of an escape may complete a name that the string does not hold. -/
example : NamesScope (Value.quoted "\x1accumulator") ∧ ¬ NamesScope "\x1accumulator".toList := by
  decide

theorem namesScope_compact_iff (v : Value) :
    NamesScope v.compact ↔ ∃ s, v.HasText s ∧ NamesScope (Value.quoted s) := by
  unfold NamesScope
  rw [Value.infix_compact_iff_hasText (by decide) (by decide),
    Value.infix_compact_iff_hasText (by decide) (by decide), ← exists_or]
  simp only [and_or_left]

open Validation

/-- The names are searched in the written reducer. -/
theorem reducerIgnoresScope_mem_iff {source : Value} {entries : List (String × Value)}
    {more : List Value} :
    .reducerIgnoresScope ∈ reduceProblems (source :: .obj entries :: more) ↔
      ¬ NamesScope (Value.obj entries).compact := by
  simp only [reduceProblems, Bool.or_eq_true, Text.hasPart_iff]
  split
  · next h => exact iff_of_false List.not_mem_nil (not_not_intro h)
  · next h => exact iff_of_true (List.mem_singleton_self _) h

/-- An object that applies `reduce` to a source, a reducer that is an object, and more. -/
def reduction (source : Value) (reducer : List (String × Value)) (more : List Value)
    (rest : List (String × Value)) : Value :=
  .obj ((Operator.reduce.name, .arr (source :: .obj reducer :: more)) :: rest)

section
variable {custom : Allowlist} {source : Value} {reducer : List (String × Value)}
  {more : List Value} {rest : List (String × Value)}

theorem mem_problems_reduction_iff :
    .reducerIgnoresScope ∈ (reduction source reducer more rest).problems custom ↔
      ∀ s, (Value.obj reducer).HasText s → ¬ NamesScope (Value.quoted s) := by
  have hwritten : (∀ s, (Value.obj reducer).HasText s → ¬ NamesScope (Value.quoted s)) ↔
      .reducerIgnoresScope ∈ reduceProblems (source :: .obj reducer :: more) := by
    rw [reducerIgnoresScope_mem_iff, namesScope_compact_iff]
    simp only [not_exists, not_and]
  rw [hwritten]
  have hb := Operator.ofName?_name .reduce
  constructor
  · intro h
    obtain hkeys | ⟨op, hop, hfew | ⟨most, hmany⟩ | hshape⟩ :=
      cases_of_mem_problems (accepts_of_ofName? hb) h
    · cases hkeys
    · cases hfew
    · cases hmany
    · obtain rfl := Option.some.inj (hop.symm.trans hb)
      exact hshape
  · intro h
    exact mem_problems_of_ofName? hb (List.mem_append_right _ h)

end

/-- **The warning about reducers is no false alarm.**  One string or key of the reducer, at any
depth, that holds `accumulator` or `current` keeps the warning away, whatever stands around the name
and wherever the reduction stands.  A reduction that is visited is warned about exactly if neither
name stands in the written form of any string or key of its reducer. -/
theorem reducer_warned_iff (custom : Allowlist) (rule source : Value) (place : Place)
    (reducer : List (String × Value)) (more : List Value) (rest : List (String × Value)) :
    (PositionAt rule place (reduction source reducer more rest) →
      ∀ s, (Value.obj reducer).HasText s → NamesScope s.toList →
        ∀ f ∈ (validate custom rule).warnings, f.place.text = place.text →
          f.problem ≠ .reducerIgnoresScope) ∧
    (NodeAt custom.accepts rule place (reduction source reducer more rest) →
      (⟨⟨place, .reducerIgnoresScope⟩, .warning⟩ ∈ (validate custom rule).warnings ↔
        ∀ s, (Value.obj reducer).HasText s → ¬ NamesScope (Value.quoted s))) := by
  constructor
  · intro hn s hs hnames f hf htext hproblem
    obtain ⟨-, node, hnode, hp, -⟩ := mem_warnings_iff.1 hf
    rw [eq_of_text_eq hnode hn htext] at hnode
    obtain rfl := hnode.unique hn
    rw [hproblem, mem_problems_reduction_iff] at hp
    exact hp s hs (namesScope_quoted hnames)
  · intro hn
    rw [mem_warnings_iff, ← mem_problems_reduction_iff]
    constructor
    · rintro ⟨-, node, hnode, hp, -⟩
      obtain rfl := hnode.unique hn
      exact hp
    · intro hp
      exact ⟨rfl, _, hn, hp, rfl⟩

theorem reducer_warned_iff_escapes :
    let awkward := "\"\\\ncurrent\x01\t"
    let naming : List (String × Value) := [("cat", .arr [.obj [("x", .null), (awkward, .null)]])]
    let silent : List (String × Value) := [("cat", .arr [.str "accumulate"])]
    let within := fun reducer => Value.obj [("!", .arr [reduction .null reducer [.null] []])]
    let place : Place := [.argument "!" 0]
    PositionAt (within naming) place (reduction .null naming [.null] []) ∧
      (Value.obj naming).HasText awkward ∧ NamesScope awkward.toList ∧
      (∀ f ∈ (validate [] (within naming)).warnings, f.place.text = place.text →
        f.problem ≠ .reducerIgnoresScope) ∧
      NodeAt (Allowlist.accepts []) (within silent) place (reduction .null silent [.null] []) ∧
      (∀ s, (Value.obj silent).HasText s → ¬ NamesScope (Value.quoted s)) ∧
      ⟨⟨place, .reducerIgnoresScope⟩, .warning⟩ ∈ (validate [] (within silent)).warnings := by
  intro awkward naming silent within place
  have hposition : PositionAt (within naming) place (reduction .null naming [.null] []) :=
    .down rfl List.mem_cons_self .here
  have htext : (Value.obj naming).HasText awkward :=
    .entry List.mem_cons_self (.item List.mem_cons_self
      (.key (List.mem_cons_of_mem _ List.mem_cons_self)))
  have hnames : NamesScope awkward.toList := by decide
  have hnode : NodeAt (Allowlist.accepts []) (within silent) place
      (reduction .null silent [.null] []) := .down rfl List.mem_cons_self .here
  have hnone : ∀ s, (Value.obj silent).HasText s → ¬ NamesScope (Value.quoted s) := by
    intro s hs
    have hs : s = "cat" ∨ s = "accumulate" := by
      simpa [silent, Value.hasText_obj_iff, Value.hasText_arr_iff, Value.hasText_str_iff] using hs
    rcases hs with rfl | rfl <;> decide
  exact ⟨hposition, htext, hnames,
    (reducer_warned_iff [] _ .null place naming [.null] []).1 hposition awkward htext hnames,
    hnode, hnone, ((reducer_warned_iff [] _ .null place silent [.null] []).2 hnode).2 hnone⟩

end RuleLogic
