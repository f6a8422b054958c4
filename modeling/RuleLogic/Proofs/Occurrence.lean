import RuleLogic.Proofs.Rule

/-!
# Values inside values

A value occurs in the arrays and objects that hold it, at any depth.  What a path leads to occurs in
the data, and where no `null` occurs in the data, every path that resolves leads to a value that
counts.

    DataPath.walk data path = .ok v → v.OccursIn data                        (walk_occursIn)
    Lookup.present? data path = some v → v.OccursIn data                     (present?_occursIn)
-/

namespace RuleLogic

/-! ## Occurrence -/

/-- A value occurs in itself, and in an array or object if it occurs in something held there. -/
inductive Value.OccursIn (w : Value) : Value → Prop
  | self : OccursIn w w
  | item {items : List Value} {v : Value} (hv : v ∈ items) (h : OccursIn w v) :
    OccursIn w (.arr items)
  | entry {entries : List (String × Value)} {key : String} {v : Value} (hv : (key, v) ∈ entries)
    (h : OccursIn w v) : OccursIn w (.obj entries)

theorem Value.OccursIn.trans {u v w : Value} (huv : u.OccursIn v) (hvw : v.OccursIn w) :
    u.OccursIn w := by
  induction hvw with
  | self => exact huv
  | item hv _ ih => exact .item hv ih
  | entry hv _ ih => exact .entry hv ih

theorem Value.occursIn_arr_iff {w : Value} {items : List Value} :
    w.OccursIn (.arr items) ↔ w = .arr items ∨ ∃ v ∈ items, w.OccursIn v := by
  constructor
  · rintro (_ | ⟨hv, h⟩)
    · exact .inl rfl
    · exact .inr ⟨_, hv, h⟩
  · rintro (rfl | ⟨v, hv, h⟩)
    · exact .self
    · exact .item hv h

theorem Value.occursIn_obj_iff {w : Value} {entries : List (String × Value)} :
    w.OccursIn (.obj entries) ↔ w = .obj entries ∨ ∃ entry ∈ entries, w.OccursIn entry.2 := by
  constructor
  · rintro (_ | _ | ⟨hv, h⟩)
    · exact .inl rfl
    · exact .inr ⟨_, hv, h⟩
  · rintro (rfl | ⟨⟨key, v⟩, hv, h⟩)
    · exact .self
    · exact .entry hv h

/-- Nothing else occurs in a value that holds no other values. -/
theorem Value.occursIn_scalar_iff {v w : Value} (ha : v.kind ≠ .array) (ho : v.kind ≠ .object) :
    w.OccursIn v ↔ w = v := by
  constructor
  · rintro (_ | _ | _)
    · rfl
    · exact absurd rfl ha
    · exact absurd rfl ho
  · rintro rfl
    exact .self

theorem Value.mem_of_find? {key : String} {v : Value} {entries : List (String × Value)}
    (h : Value.find? key entries = some v) : (key, v) ∈ entries := by
  induction entries with
  | nil => cases h
  | cons entry rest ih =>
    obtain ⟨k, w⟩ := entry
    unfold Value.find? at h
    split at h
    · next hk =>
      cases h
      rw [eq_of_beq hk]
      exact List.mem_cons_self
    · exact List.mem_cons_of_mem _ (ih h)

/-! ## What paths lead to -/

section
variable {data v w : Value} {path : String}

theorem follow_occursIn {segment : String} (h : DataPath.follow v segment = .ok w) :
    w.OccursIn v := by
  unfold DataPath.follow at h
  split at h
  · split at h
    · next hw =>
      cases h
      exact .entry (Value.mem_of_find? hw) .self
    · cases h
  · split at h
    · cases h
    · split at h
      · next hw =>
        cases h
        exact .item (List.mem_of_getElem? hw) .self
      · cases h
  · cases h

theorem walkFrom_occursIn {reached : String} {segments : List String}
    (h : DataPath.walkFrom reached v segments = .ok w) : w.OccursIn v := by
  induction segments generalizing reached v with
  | nil =>
    cases h
    exact .self
  | cons segment rest ih =>
    unfold DataPath.walkFrom at h
    split at h
    · next hu => exact (ih h).trans (follow_occursIn hu)
    · cases h

theorem walk_occursIn (h : DataPath.walk data path = .ok v) : v.OccursIn data := by
  unfold DataPath.walk at h
  split at h
  · cases h
    exact .self
  · exact walkFrom_occursIn h

theorem present?_eq_some_iff :
    Lookup.present? data path = some v ↔ DataPath.walk data path = .ok v ∧ v ≠ .null := by
  have hnull : (!v.isNull) = true ↔ v ≠ .null := by cases v <;> simp [Value.isNull]
  rw [Lookup.present?, Option.filter_eq_some_iff, DataPath.resolve?, hnull]
  cases DataPath.walk data path with
  | ok w => simp [Except.toOption]
  | error miss => simp [Except.toOption]

theorem present?_occursIn (h : Lookup.present? data path = some v) : v.OccursIn data :=
  walk_occursIn (present?_eq_some_iff.1 h).1

theorem present?_of_walk_error {miss : Miss} (h : DataPath.walk data path = .error miss) :
    Lookup.present? data path = none := by
  rw [Lookup.present?, DataPath.resolve?, h]
  rfl

/-- Where `null` does not occur, a path that resolves leads to a value that counts. -/
theorem exists_present?_of_walk (hd : ¬ Value.null.OccursIn data)
    (h : DataPath.walk data path = .ok v) : Lookup.present? data path = some v := by
  refine present?_eq_some_iff.2 ⟨h, ?_⟩
  rintro rfl
  exact hd (walk_occursIn h)

end

end RuleLogic
