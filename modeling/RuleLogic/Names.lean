/-!
# Lists of names

Names are listed in ascending order of their characters, each once, however often and in whatever
order they were given.
-/

namespace RuleLogic.Names

/-- A name put into an ascending list; one that is there already is not repeated. -/
def insert (name : String) : List String → List String
  | [] => [name]
  | other :: rest =>
    if name < other then name :: other :: rest
    else if name = other then other :: rest
    else other :: insert name rest

/-- The names in ascending order, each once. -/
def sort (names : List String) : List String := names.foldr insert []

/-! ## Lemmas -/

theorem mem_insert {name other : String} {names : List String} :
    other ∈ insert name names ↔ other = name ∨ other ∈ names := by
  induction names with
  | nil => simp [insert]
  | cons first rest ih =>
    unfold insert
    split
    · simp
    · split
      · next h =>
        subst h
        simp
      · rw [List.mem_cons, ih, List.mem_cons]
        exact or_left_comm

theorem mem_sort {name : String} {names : List String} : name ∈ sort names ↔ name ∈ names := by
  induction names with
  | nil => simp [sort]
  | cons first rest ih => exact mem_insert.trans ((or_congr_right ih).trans List.mem_cons.symm)

end RuleLogic.Names
