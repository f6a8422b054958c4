import Mathlib.Data.List.Nodup
import RuleLogic.Proofs.Occurrence

/-!
# What values hold

A value holds its items or the values of its entries, and what holds of a value whenever it holds
of these holds of every value.  Where no object has a key twice, which can be decided along the
value, the value under a key is that of its only entry, and the order of the entries does not matter
to look-ups.

    v.hasUniqueKeys = true ↔ v.UniqueKeys                                      (hasUniqueKeys_iff)
    find? key entries = some v ↔ (key, v) ∈ entries                 (find?_eq_some_iff_of_nodup)
    entries.Perm entries' → find? key entries = find? key entries'               (find?_eq_of_perm)
-/

namespace RuleLogic.Value

/-! ## Contents -/

/-- The values that stand directly in a value. -/
def held : Value → List Value
  | .arr items => items
  | .obj entries => entries.map Prod.snd
  | _ => []

theorem sizeOf_of_mem_held {v w : Value} (h : w ∈ v.held) : sizeOf w < sizeOf v := by
  cases v with
  | arr items =>
    have hlt : sizeOf w < sizeOf items := List.sizeOf_lt_of_mem h
    rw [arr.sizeOf_spec]
    omega
  | obj entries =>
    obtain ⟨⟨key, u⟩, hentry, rfl⟩ := List.mem_map.1 h
    have hlt := List.sizeOf_lt_of_mem hentry
    rw [Prod.mk.sizeOf_spec] at hlt
    show sizeOf u < _
    rw [obj.sizeOf_spec]
    omega
  | _ => cases h

/-- What holds of a value whenever it holds of all that the value holds is true of every value. -/
theorem held_induction {P : Value → Prop} (h : ∀ v : Value, (∀ w ∈ v.held, P w) → P v)
    (v : Value) : P v :=
  h v fun w _ => held_induction h w
termination_by sizeOf v
decreasing_by exact sizeOf_of_mem_held (by assumption)

theorem mem_held_of_find? {key : String} {v : Value} {entries : List (String × Value)}
    (h : find? key entries = some v) : v ∈ (Value.obj entries).held :=
  List.mem_map_of_mem (f := Prod.snd) (mem_of_find? h)

theorem OccursIn.of_held {u v w : Value} (huv : u.OccursIn v) (h : v ∈ w.held) : u.OccursIn w := by
  cases w with
  | arr items => exact .item h huv
  | obj entries =>
    obtain ⟨⟨key, _⟩, hentry, rfl⟩ := List.mem_map.1 h
    exact .entry hentry huv
  | _ => cases h

/-! ## Unique keys -/

/-- No object in the value has a key twice. -/
def UniqueKeys (v : Value) : Prop :=
  ∀ entries, (Value.obj entries).OccursIn v → (entries.map Prod.fst).Nodup

theorem UniqueKeys.nodup {entries : List (String × Value)} (h : (Value.obj entries).UniqueKeys) :
    (entries.map Prod.fst).Nodup :=
  h entries .self

theorem UniqueKeys.of_mem_held {v w : Value} (h : v.UniqueKeys) (hw : w ∈ v.held) :
    w.UniqueKeys :=
  fun entries ho => h entries (ho.of_held hw)

mutual

/-- The same, decided along the value. -/
def hasUniqueKeys : Value → Bool
  | .arr items => itemsHaveUniqueKeys items
  | .obj entries => decide (entries.map Prod.fst).Nodup && entriesHaveUniqueKeys entries
  | _ => true

def itemsHaveUniqueKeys : List Value → Bool
  | [] => true
  | v :: rest => hasUniqueKeys v && itemsHaveUniqueKeys rest

def entriesHaveUniqueKeys : List (String × Value) → Bool
  | [] => true
  | (_, v) :: rest => hasUniqueKeys v && entriesHaveUniqueKeys rest

end

theorem itemsHaveUniqueKeys_iff (items : List Value) :
    itemsHaveUniqueKeys items = true ↔ ∀ v ∈ items, v.hasUniqueKeys = true := by
  induction items with
  | nil => simp [itemsHaveUniqueKeys]
  | cons v rest ih => simp [itemsHaveUniqueKeys, ih]

theorem entriesHaveUniqueKeys_iff (entries : List (String × Value)) :
    entriesHaveUniqueKeys entries = true ↔ ∀ entry ∈ entries, entry.2.hasUniqueKeys = true := by
  induction entries with
  | nil => simp [entriesHaveUniqueKeys]
  | cons entry rest ih => simp [entriesHaveUniqueKeys, ih]

theorem hasUniqueKeys_of_uniqueKeys (v : Value) (h : v.UniqueKeys) : v.hasUniqueKeys = true := by
  induction v using held_induction with
  | h v ih =>
    cases v with
    | arr items =>
      rw [hasUniqueKeys, itemsHaveUniqueKeys_iff]
      exact fun w hw => ih w hw (h.of_mem_held hw)
    | obj entries =>
      rw [hasUniqueKeys, Bool.and_eq_true, decide_eq_true_eq, entriesHaveUniqueKeys_iff]
      refine ⟨h entries .self, fun entry hentry => ?_⟩
      have hw : entry.2 ∈ (Value.obj entries).held := List.mem_map_of_mem hentry
      exact ih entry.2 hw (h.of_mem_held hw)
    | _ => rfl

theorem hasUniqueKeys_iff (v : Value) : v.hasUniqueKeys = true ↔ v.UniqueKeys := by
  refine ⟨?_, hasUniqueKeys_of_uniqueKeys v⟩
  intro h entries ho
  induction ho with
  | self =>
    rw [hasUniqueKeys, Bool.and_eq_true, decide_eq_true_eq] at h
    exact h.1
  | item hv _ ih =>
    rw [hasUniqueKeys, itemsHaveUniqueKeys_iff] at h
    exact ih (h _ hv)
  | entry hv _ ih =>
    rw [hasUniqueKeys, Bool.and_eq_true, entriesHaveUniqueKeys_iff] at h
    exact ih (h.2 _ hv)

instance (v : Value) : Decidable v.UniqueKeys := decidable_of_iff _ v.hasUniqueKeys_iff

/-! ## Look-ups -/

section
variable {key : String} {v : Value} {entries entries' : List (String × Value)}

theorem find?_eq_none_iff : find? key entries = none ↔ key ∉ entries.map Prod.fst := by
  induction entries with
  | nil => simp [find?]
  | cons entry rest ih =>
    obtain ⟨k, w⟩ := entry
    rw [find?, List.map_cons, List.mem_cons, not_or]
    by_cases hk : k = key
    · simp [hk]
    · rw [if_neg (by simpa using hk), ih]
      exact ⟨fun h => ⟨Ne.symm hk, h⟩, fun h => h.2⟩

theorem find?_eq_some_iff_of_nodup (hn : (entries.map Prod.fst).Nodup) :
    find? key entries = some v ↔ (key, v) ∈ entries := by
  refine ⟨mem_of_find?, fun h => ?_⟩
  cases hf : find? key entries with
  | none =>
    have hmem : key ∈ entries.map Prod.fst := List.mem_map_of_mem (f := Prod.fst) h
    exact absurd hmem (find?_eq_none_iff.1 hf)
  | some w =>
    have heq := List.inj_on_of_nodup_map hn (mem_of_find? hf) h rfl
    rw [(Prod.mk.inj heq).2]

/-- Look-ups do not see the order of entries. -/
theorem find?_eq_of_perm (hp : entries.Perm entries') (hn : (entries.map Prod.fst).Nodup) :
    find? key entries = find? key entries' := by
  have hn' : (entries'.map Prod.fst).Nodup := (hp.map Prod.fst).nodup_iff.1 hn
  refine Option.ext fun w => ?_
  rw [find?_eq_some_iff_of_nodup hn, find?_eq_some_iff_of_nodup hn', hp.mem_iff]

end

end RuleLogic.Value
