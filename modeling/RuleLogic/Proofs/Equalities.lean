import RuleLogic.Proofs.StrictEquality

/-!
# Strict and loose equality together

Strict equality is an equivalence.  Loose equality agrees with it on values of one kind; values of
two kinds it compares as the pair of kinds says: as texts, as numbers or not at all.  The table is
symmetric, so loose equality is, and where `null` stands it says "never".

    v.kind = w.kind → v.looseEq w = v.strictEq w                              (looseEq_of_kind_eq)
    v.kind ≠ w.kind → v.looseEq w = what the table says                       (looseEq_of_kind_ne)
-/

namespace RuleLogic

/-! ## The table -/

/-- How values of two kinds are compared. -/
inductive Comparison where
  | never | texts | numbers

/-- How loose equality compares values of two different kinds. -/
def Kind.comparison : Kind → Kind → Comparison
  | .null, _ | _, .null => .never
  | .string, .array | .string, .object | .array, .string | .object, .string => .texts
  | .array, .object | .object, .array => .never
  | _, _ => .numbers

theorem Kind.comparison_comm (k l : Kind) : k.comparison l = l.comparison k := by
  cases k <;> cases l <;> rfl

namespace Value

variable {u v w : Value}

/-! ## Strict equality -/

theorem strictEq_refl (hv : v.UniqueKeys) : v.strictEq v = true := by
  cases v with
  | num n => exact Double.sameValue_iff.2 rfl
  | _ => exact same_refl hv

theorem strictEq_symm (hv : v.UniqueKeys) (hw : w.UniqueKeys) (h : v.strictEq w = true) :
    w.strictEq v = true := by
  have hk := kind_eq_of_strictEq h
  by_cases hn : v.kind = .number
  · obtain ⟨a, rfl⟩ := exists_num_of_kind hn
    obtain ⟨b, rfl⟩ := exists_num_of_kind (hk.symm.trans hn)
    exact Double.sameValue_iff.2 (Double.sameValue_iff.1 h).symm
  · rw [strictEq_eq_same_of_left hn] at h
    rw [strictEq_eq_same_of_right hn]
    exact same_symm hv hw h

theorem strictEq_trans (hu : u.UniqueKeys) (hv : v.UniqueKeys) (hw : w.UniqueKeys)
    (huv : u.strictEq v = true) (hvw : v.strictEq w = true) : u.strictEq w = true := by
  have huk := kind_eq_of_strictEq huv
  have hwk := kind_eq_of_strictEq hvw
  by_cases hn : v.kind = .number
  · obtain ⟨a, rfl⟩ := exists_num_of_kind (huk.trans hn)
    obtain ⟨b, rfl⟩ := exists_num_of_kind hn
    obtain ⟨c, rfl⟩ := exists_num_of_kind (hwk.symm.trans hn)
    exact Double.sameValue_iff.2
      ((Double.sameValue_iff.1 huv).trans (Double.sameValue_iff.1 hvw))
  · rw [strictEq_eq_same_of_right hn] at huv
    rw [strictEq_eq_same_of_left hn] at hvw
    rw [strictEq_eq_same_of_left (huk ▸ hn)]
    exact same_trans hu hv hw huv hvw

/-! ## Loose equality -/

theorem sameNumber_comm (v w : Value) : v.sameNumber w = w.sameNumber v := by
  unfold sameNumber
  cases v.looseNumber? with
  | none => cases w.looseNumber? <;> rfl
  | some x =>
    cases w.looseNumber? with
    | none => rfl
    | some y => exact Double.sameValue_comm x y

theorem looseEq_of_kind_eq (h : v.kind = w.kind) : v.looseEq w = v.strictEq w := by
  cases v <;> cases w <;> first | rfl | cases h

theorem looseEq_of_kind_ne (h : v.kind ≠ w.kind) : v.looseEq w =
    match v.kind.comparison w.kind with
    | .never => false
    | .texts => v.plain == w.plain
    | .numbers => v.sameNumber w := by
  -- the table has one entry for each pair of constructors
  cases v <;> cases w <;> first | rfl | exact absurd rfl h

theorem looseEq_comm (hv : v.UniqueKeys) (hw : w.UniqueKeys) : v.looseEq w = w.looseEq v := by
  by_cases hk : v.kind = w.kind
  · rw [looseEq_of_kind_eq hk, looseEq_of_kind_eq hk.symm, Bool.eq_iff_iff]
    exact ⟨strictEq_symm hv hw, strictEq_symm hw hv⟩
  · rw [looseEq_of_kind_ne hk, looseEq_of_kind_ne (Ne.symm hk), Kind.comparison_comm]
    split
    · rfl
    · exact Bool.beq_comm
    · exact sameNumber_comm v w

/-- Nothing but `null` equals `null`. -/
theorem looseEq_null_iff : Value.null.looseEq v = true ↔ v = .null := by
  cases v with
  | null => exact ⟨fun _ => rfl, fun _ => rfl⟩
  | _ => constructor <;> intro h <;> cases h

theorem looseEq_null_right_iff : v.looseEq .null = true ↔ v = .null := by
  cases v with
  | null => exact ⟨fun _ => rfl, fun _ => rfl⟩
  | _ => constructor <;> intro h <;> cases h

end Value

/-- **The two equalities are coherent.**  On values in which no object has a key twice strict
equality is an equivalence that does not see the order of entries, and loose equality is reflexive
and symmetric.  Strict equality implies loose equality, values of one kind are equal in both senses
or in neither, and `null` is loosely equal to `null` only. -/
theorem equalities_coherent :
    (Equivalence fun v w : {v : Value // v.UniqueKeys} => v.1.strictEq w.1 = true) ∧
    (∀ es fs : List (String × Value), es.Perm fs → (Value.obj es).UniqueKeys →
      (Value.obj es).strictEq (.obj fs) = true) ∧
    (∀ v : Value, v.UniqueKeys → v.looseEq v = true) ∧
    (∀ v w : Value, v.UniqueKeys → w.UniqueKeys → v.looseEq w = w.looseEq v) ∧
    (∀ v w : Value, v.strictEq w = true → v.looseEq w = true) ∧
    (∀ v w : Value, v.kind = w.kind → v.looseEq w = v.strictEq w) ∧
    (∀ v : Value, (Value.null.looseEq v = true ↔ v = .null) ∧
      (v.looseEq .null = true ↔ v = .null)) := by
  have hsame : ∀ v w : Value, v.kind = w.kind → v.looseEq w = v.strictEq w :=
    fun _ _ hk => Value.looseEq_of_kind_eq hk
  refine ⟨⟨?refl, ?symm, ?trans⟩, ?perm, ?looseRefl, ?looseSymm, ?imp, hsame, ?null⟩
  case refl => exact fun v => Value.strictEq_refl v.2
  case symm => exact fun {v w} h => Value.strictEq_symm v.2 w.2 h
  case trans => exact fun {u v w} huv hvw => Value.strictEq_trans u.2 v.2 w.2 huv hvw
  case perm => exact fun es fs hp h => Value.same_of_perm hp h
  case looseRefl =>
    intro v hv
    rw [hsame v v rfl]
    exact Value.strictEq_refl hv
  case looseSymm => exact fun v w hv hw => Value.looseEq_comm hv hw
  case imp =>
    intro v w h
    rw [hsame v w (Value.kind_eq_of_strictEq h)]
    exact h
  case null => exact fun v => ⟨Value.looseEq_null_iff, Value.looseEq_null_right_iff⟩

theorem equalities_coherent_reordered :
    let one := Value.num (.int 1 (by decide))
    let wrapped := Value.arr [.obj [("a", one), ("b", .null)]]
    let entries := [("a", one), ("b", wrapped)]
    (Value.obj entries).UniqueKeys ∧ (Value.obj entries.reverse).UniqueKeys ∧
      (Value.obj entries).strictEq (.obj entries.reverse) = true ∧
      (Value.obj entries.reverse).strictEq (.obj entries) = true ∧
      (Value.obj entries).strictEq (.obj entries) = true ∧
      (Value.obj entries).looseEq (.obj entries) = true ∧
      (Value.obj entries).looseEq (.obj entries.reverse) = true ∧
      (Value.bool true).looseEq (.arr [one]) = true ∧
      (Value.arr [one]).looseEq (.bool true) = true ∧
      Value.null.looseEq (.str "") = false := by
  intro one wrapped entries
  have hv : (Value.obj entries).UniqueKeys := by decide +kernel
  have hw : (Value.obj entries.reverse).UniqueKeys := by decide +kernel
  have hone : (Value.bool true).looseEq (.arr [one]) = true := by decide +kernel
  have hbool : (Value.bool true).UniqueKeys := by decide +kernel
  have harr : (Value.arr [one]).UniqueKeys := by decide +kernel
  obtain ⟨hequiv, hperm, hrefl, hsymm, himp, -, hnull⟩ := equalities_coherent
  have hvw := hperm entries entries.reverse (List.reverse_perm entries).symm hv
  have hwv := @Equivalence.symm _ _ hequiv ⟨_, hv⟩ ⟨_, hw⟩ hvw
  have hvv := @Equivalence.trans _ _ hequiv ⟨_, hv⟩ ⟨_, hw⟩ ⟨_, hv⟩ hvw hwv
  refine ⟨hv, hw, hvw, hwv, hvv, hrefl _ hv, himp _ _ hvw, hone, ?_, ?_⟩
  · rw [← hsymm _ _ hbool harr]
    exact hone
  · rw [Bool.eq_false_iff, Ne, (hnull (.str "")).1]
    exact nofun

end RuleLogic
