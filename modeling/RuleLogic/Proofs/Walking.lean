import RuleLogic.Proofs.Contents
import RuleLogic.Proofs.Segments

/-!
# Walking along paths

A walk follows the segments of its path from value to value.  It succeeds where they lead to its
end, and misses at the first segment that leads nowhere; nothing but the part that has been reached
is carried along.  So a walk along two paths with a dot between them is a walk along the one and
from there along the other, and every value in the data is the end of a walk.

    walk data path = .ok v ↔ Follows data (segments path) v                       (walk_eq_ok_iff)
    Follows u (xs ++ ys) w ↔ ∃ v, Follows u xs v ∧ Follows v ys w              (follows_append_iff)
    Leads data steps v → Follows data (steps.map text) v                            (Leads.follows)
-/

namespace RuleLogic.DataPath

/-! ## Following segments -/

/-- The segments lead from a value to another, each from where the ones in front of it lead. -/
inductive Follows : Value → List String → Value → Prop
  | nil {v : Value} : Follows v [] v
  | cons {u v w : Value} {segment : String} {rest : List String} (hv : follow u segment = .ok v)
    (hw : Follows v rest w) : Follows u (segment :: rest) w

section
variable {u v w : Value} {segment reached : String} {rest texts more : List String} {miss : Miss}

theorem follows_cons_iff :
    Follows u (segment :: rest) w ↔ ∃ v, follow u segment = .ok v ∧ Follows v rest w := by
  constructor
  · rintro (_ | ⟨hv, hw⟩)
    exact ⟨_, hv, hw⟩
  · rintro ⟨v, hv, hw⟩
    exact .cons hv hw

theorem follows_append_iff :
    Follows u (texts ++ more) w ↔ ∃ v, Follows u texts v ∧ Follows v more w := by
  induction texts generalizing u with
  | nil =>
    constructor
    · exact fun h => ⟨u, .nil, h⟩
    · rintro ⟨v, hv, hw⟩
      cases hv
      exact hw
  | cons segment rest ih =>
    rw [List.cons_append, follows_cons_iff]
    constructor
    · rintro ⟨v, hv, h⟩
      obtain ⟨x, hx, hw⟩ := ih.1 h
      exact ⟨x, .cons hv hx, hw⟩
    · rintro ⟨x, hx, hw⟩
      obtain ⟨v, hv, hx⟩ := follows_cons_iff.1 hx
      exact ⟨v, hv, ih.2 ⟨x, hx, hw⟩⟩

/-! ## Runs -/

theorem walkFrom_eq_ok_iff : walkFrom reached u texts = .ok w ↔ Follows u texts w := by
  induction texts generalizing reached u with
  | nil =>
    constructor
    · rintro ⟨⟩
      exact .nil
    · rintro ⟨⟩
      rfl
  | cons segment rest ih =>
    rw [walkFrom, follows_cons_iff]
    cases hv : follow u segment with
    | ok v => simp [ih]
    | error cause => simp

/-- A walk misses where a segment leads nowhere from where the ones in front of it lead. -/
theorem walkFrom_eq_error_iff : walkFrom reached u texts = .error miss ↔
    ∃ before segment after v, texts = before ++ segment :: after ∧ Follows u before v ∧
      follow v segment = .error miss.cause ∧ before.foldl extend reached = miss.reached := by
  constructor
  · intro h
    induction texts generalizing reached u with
    | nil => cases h
    | cons segment rest ih =>
      rw [walkFrom] at h
      cases hv : follow u segment with
      | error cause =>
        rw [hv] at h
        cases h
        exact ⟨[], segment, rest, u, rfl, .nil, hv, rfl⟩
      | ok v =>
        rw [hv] at h
        obtain ⟨before, next, after, w, rfl, hw, hcause, hreached⟩ := ih h
        exact ⟨segment :: before, next, after, w, rfl, .cons hv hw, hcause, hreached⟩
  · obtain ⟨_, cause⟩ := miss
    rintro ⟨before, segment, after, v, rfl, hv, hcause, hreached⟩
    induction hv generalizing reached with
    | nil =>
      rw [List.nil_append, walkFrom, hcause]
      cases hreached
      rfl
    | cons hx _ ih =>
      rw [List.cons_append, walkFrom, hx]
      exact ih hcause hreached

end

section
variable {data v w : Value} {p q path : String} {miss : Miss}

theorem walk_of_ne_empty (h : path ≠ "") (data : Value) :
    walk data path = walkFrom "" data (segments path) :=
  if_neg fun hempty => h (String.isEmpty_iff.1 hempty)

theorem walk_eq_ok_iff (h : path ≠ "") :
    walk data path = .ok v ↔ Follows data (segments path) v := by
  rw [walk_of_ne_empty h, walkFrom_eq_ok_iff]

theorem walk_eq_error_iff (h : path ≠ "") : walk data path = .error miss ↔
    ∃ before segment after v, segments path = before ++ segment :: after ∧ Follows data before v ∧
      follow v segment = .error miss.cause ∧ before.foldl extend "" = miss.reached := by
  rw [walk_of_ne_empty h, walkFrom_eq_error_iff]

/-! ## Joined paths -/

theorem append_dot_ne_empty (p q : String) : p ++ "." ++ q ≠ "" := by
  intro h
  have hlist := congrArg String.toList h
  simp at hlist

theorem walk_append_eq_ok_iff (hp : p ≠ "") (hq : q ≠ "") :
    walk data (p ++ "." ++ q) = .ok w ↔ ∃ v, walk data p = .ok v ∧ walk v q = .ok w := by
  rw [walk_eq_ok_iff (append_dot_ne_empty p q), segments_append, follows_append_iff]
  simp only [walk_eq_ok_iff hp, walk_eq_ok_iff hq]

/-- A walk that misses on the first path misses there on both. -/
theorem walk_append_of_miss (hp : p ≠ "") (h : walk data p = .error miss) :
    walk data (p ++ "." ++ q) = .error miss := by
  obtain ⟨before, segment, after, v, hsplit, hv, hcause, hreached⟩ := (walk_eq_error_iff hp).1 h
  refine (walk_eq_error_iff (append_dot_ne_empty p q)).2
    ⟨before, segment, after ++ segments q, v, ?_, hv, hcause, hreached⟩
  rw [segments_append, hsplit, List.append_assoc, List.cons_append]

/-- A walk that misses on the second path only misses for the same cause on both. -/
theorem walk_append_of_later_miss (hp : p ≠ "") (hq : q ≠ "") (hv : walk data p = .ok v)
    (h : walk v q = .error miss) :
    ∃ reached, walk data (p ++ "." ++ q) = .error ⟨reached, miss.cause⟩ := by
  obtain ⟨before, segment, after, w, hsplit, hw, hcause, -⟩ := (walk_eq_error_iff hq).1 h
  have hfront : Follows data (segments p ++ before) w :=
    follows_append_iff.2 ⟨v, (walk_eq_ok_iff hp).1 hv, hw⟩
  refine ⟨(segments p ++ before).foldl extend "", (walk_eq_error_iff (append_dot_ne_empty p q)).2
    ⟨segments p ++ before, segment, after, w, ?_, hfront, hcause, rfl⟩⟩
  rw [segments_append, hsplit, List.append_assoc]

end

/-! ## Steps to the values in the data -/

/-- A step into data that a path can write: a key without a dot, or an index of an array, which has
64 bits. -/
inductive DataStep where
  | key (name : String) (noDot : '.' ∉ name.toList)
  | index (i : UInt64)

/-- A key as it is, an index in decimal. -/
def DataStep.text : DataStep → String
  | .key name _ => name
  | .index i => toString i.toNat

/-- The steps lead from a value to one that stands in it. -/
inductive Leads : Value → List DataStep → Value → Prop
  | here {v : Value} : Leads v [] v
  | entry {entries : List (String × Value)} {name : String} {noDot : '.' ∉ name.toList}
    {v w : Value} {steps : List DataStep} (hv : (name, v) ∈ entries) (hw : Leads v steps w) :
    Leads (.obj entries) (.key name noDot :: steps) w
  | item {items : List Value} {i : UInt64} {v w : Value} {steps : List DataStep}
    (hv : items[i.toNat]? = some v) (hw : Leads v steps w) :
    Leads (.arr items) (.index i :: steps) w

section
variable {data v : Value} {steps : List DataStep}

theorem DataStep.not_mem_text (s : DataStep) : '.' ∉ s.text.toList := by
  cases s with
  | key name noDot => exact noDot
  | index i =>
    intro h
    rw [text, toList_toString] at h
    exact absurd (Nat.isDigit_of_mem_toDigits (by decide) (by decide) h) (by decide)

theorem Leads.follows (hd : data.UniqueKeys) (h : Leads data steps v) :
    Follows data (steps.map DataStep.text) v := by
  induction h with
  | here => exact .nil
  | entry hv _ ih =>
    have hfollow : Value.find? _ _ = some _ := (Value.find?_eq_some_iff_of_nodup hd.nodup).2 hv
    refine .cons ?_ (ih (hd.of_mem_held (List.mem_map_of_mem (f := Prod.snd) hv)))
    simp only [follow, DataStep.text, hfollow]
  | item hv _ ih =>
    refine .cons ?_ (ih (hd.of_mem_held (List.mem_of_getElem? hv)))
    simp only [follow, DataStep.text, index?_toString (UInt64.toNat_lt_size _), hv]

theorem walk_of_leads (hd : data.UniqueKeys) (h : Leads data steps v) (hs : steps ≠ [])
    (hp : ".".intercalate (steps.map DataStep.text) ≠ "") :
    walk data (".".intercalate (steps.map DataStep.text)) = .ok v := by
  have hne : steps.map DataStep.text ≠ [] := by rwa [Ne, List.map_eq_nil_iff]
  have hdots : ∀ t ∈ steps.map DataStep.text, '.' ∉ t.toList :=
    List.forall_mem_map.2 fun s _ => s.not_mem_text
  rw [walk_eq_ok_iff hp, segments_intercalate hne hdots]
  exact h.follows hd

end

/-- **Walks compose and reach everything.**  With a dot between two paths that are not empty a walk
is a walk along the first and from its end along the second: it succeeds exactly if both do, misses
as the first does, and otherwise for the cause for which the second does.  The texts of steps to a
value in the data, joined by dots to a path that is not empty, lead a walk to that value. -/
theorem walk_compositional (data : Value) :
    (∀ p q : String, p ≠ "" → q ≠ "" →
      (∀ w, walk data (p ++ "." ++ q) = .ok w ↔ ∃ v, walk data p = .ok v ∧ walk v q = .ok w) ∧
      (∀ miss, walk data p = .error miss → walk data (p ++ "." ++ q) = .error miss) ∧
      ∀ v miss, walk data p = .ok v → walk v q = .error miss →
        ∃ reached, walk data (p ++ "." ++ q) = .error ⟨reached, miss.cause⟩) ∧
    ∀ steps v, data.UniqueKeys → Leads data steps v → steps ≠ [] →
      ".".intercalate (steps.map DataStep.text) ≠ "" →
        walk data (".".intercalate (steps.map DataStep.text)) = .ok v := by
  constructor
  · intro p q hp hq
    exact ⟨fun w => walk_append_eq_ok_iff hp hq, fun miss => walk_append_of_miss hp,
      fun v miss => walk_append_of_later_miss hp hq⟩
  · intro steps v hd h hs hp
    exact walk_of_leads hd h hs hp

theorem walk_compositional_numeric_key :
    let five := Value.num (.int 5 (by decide))
    let data := Value.obj [("", .arr [.null, .obj [("0", five)]])]
    let steps : List DataStep := [.key "" (by decide), .index 1, .key "0" (by decide)]
    walk data ".1.0" = .ok five ∧
      (walk data "x.1" = .error ⟨"", .noKey "x"⟩ ∧
        walk data "x.1.y" = .error ⟨"", .noKey "x"⟩) ∧
      (∃ v, walk data ".1" = .ok v ∧ walk v "0" = .ok five) ∧
      (∃ reached, walk data ".1.y" = .error ⟨reached, .noKey "y"⟩) ∧
      data.UniqueKeys ∧ Leads data steps five ∧
      ".".intercalate (steps.map DataStep.text) = ".1.0" := by
  intro five data steps
  have hkeys : data.UniqueKeys := by decide +kernel
  have hleads : Leads data steps five :=
    .entry List.mem_cons_self (.item rfl (.entry List.mem_cons_self .here))
  have htext : ".".intercalate (steps.map DataStep.text) = ".1.0" := by decide
  have hmiss : walk data "x.1" = .error ⟨"", .noKey "x"⟩ := rfl
  obtain ⟨hjoined, hsteps⟩ := walk_compositional data
  have hwalk := hsteps steps five hkeys hleads (by decide) (by rw [htext]; decide)
  rw [htext] at hwalk
  obtain ⟨hok, -, hlater⟩ := hjoined ".1" "0" (by decide) (by decide)
  obtain ⟨-, hfirst, -⟩ := hjoined "x.1" "y" (by decide) (by decide)
  obtain ⟨-, -, hlast⟩ := hjoined ".1" "y" (by decide) (by decide)
  exact ⟨hwalk, ⟨hmiss, hfirst _ hmiss⟩, (hok five).1 hwalk,
    hlast (.obj [("0", five)]) ⟨"", .noKey "y"⟩ rfl rfl, hkeys, hleads, htext⟩

end RuleLogic.DataPath
