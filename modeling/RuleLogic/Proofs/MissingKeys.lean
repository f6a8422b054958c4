import RuleLogic.Proofs.EagerOrder
import RuleLogic.Proofs.Literal
import RuleLogic.Proofs.RoundingOrder

/-!
# Missing keys

`missing` and `missing_some` look for their keys where `var` does.  A key is missing exactly if `var`
comes to `null` on it, and exactly if `var` falls back on the default, whichever it is.  The number
of the other keys is compared with a minimum as doubles are, and so as numbers are while there are
fewer than `2 ^ 53` of them.

    missingKeys op data keys = .ok (absentKeys r data keys)                     (missingKeys_eq)
    missing gives absentKeys r data keys                              (missing_agrees_with_var)
-/

namespace RuleLogic

/-! ## Keys that `var` does not find -/

/-- The keys on which `var` comes to `null`, in order and as they were given. -/
def absentKeys (r : Registry) (data : Value) (keys : List Value) : List Value :=
  keys.filter fun key => answer r data .var [key] = .ok .null

theorem absentKeys_cons (r : Registry) (data key : Value) (rest : List Value) :
    absentKeys r data (key :: rest) = if answer r data .var [key] = .ok .null then
      key :: absentKeys r data rest else absentKeys r data rest := by
  simp only [absentKeys, List.filter_cons, decide_eq_true_eq]

theorem Value.exists_pathText {key : Value} (h : key.kind = .string ∨ key.kind = .number) :
    ∃ path, key.pathText? = some path := by
  cases key with
  | str s => exact ⟨s, rfl⟩
  | num n => exact ⟨_, rfl⟩
  | null | bool _ | arr _ | obj _ => rcases h with h | h <;> cases h

section
variable {r : Registry} {data key : Value} {path : String} (hp : key.pathText? = some path)

include hp

theorem answer_var :
    answer r data .var [key] = .ok ((Lookup.present? data path).getD .null) := by
  have hvar : eval r (.obj [(Operator.var.name, .arr (key :: []))]) data =
      pure (((Lookup.present? data path).orElse fun _ => none).getD .null) :=
    eval_var hp nofun (Nat.zero_le 1)
  rw [answer, hvar]
  cases Lookup.present? data path <;> rfl

theorem answer_var_default {D : Value} (hD : D.isLiteral = true) :
    answer r data .var [key, D] = .ok ((Lookup.present? data path).getD D) := by
  have hdefaults : ∀ d ∈ [D], d.isLiteral = true := List.forall_mem_singleton.2 hD
  rw [answer, eval_var hp hdefaults (Nat.le_refl 1)]
  cases Lookup.present? data path <;> rfl

/-- What is present is not `null`, so `var` comes to `null` on absent keys only. -/
theorem answer_var_eq_null_iff :
    answer r data .var [key] = .ok .null ↔ Lookup.present? data path = none := by
  rw [answer_var hp]
  constructor
  · intro h
    cases hv : Lookup.present? data path with
    | none => rfl
    | some v =>
      rw [hv] at h
      exact absurd (Except.ok.inj h) (present?_eq_some_iff.1 hv).2
  · intro h
    rw [h]
    rfl

/-- What is present differs from one default at least. -/
theorem answer_var_eq_default_iff :
    (∀ D : Value, D.isLiteral = true → answer r data .var [key, D] = .ok D) ↔
      Lookup.present? data path = none := by
  constructor
  · intro h
    have hnull := h .null rfl
    rw [answer_var_default hp rfl, ← answer_var hp (r := r)] at hnull
    exact (answer_var_eq_null_iff hp).1 hnull
  · intro h D hD
    rw [answer_var_default hp hD, h]
    rfl

end

/-! ## Keys that are listed -/

section
variable {r : Registry} {data : Value} {keys : List Value}
  (hk : ∀ key ∈ keys, key.kind = .string ∨ key.kind = .number)

include hk

theorem missingKeys_eq (op : Operator) :
    Lookup.missingKeys op data keys = .ok (absentKeys r data keys) := by
  induction keys with
  | nil => rfl
  | cons key rest ih =>
    obtain ⟨path, hp⟩ := Value.exists_pathText (hk key List.mem_cons_self)
    have hpath : Lookup.keyPath op key = .ok path := keyPath_of_pathText? hp
    have hrest := ih fun k hmem => hk k (List.mem_cons_of_mem key hmem)
    rw [Lookup.missingKeys, hpath, hrest, absentKeys_cons]
    simp only [answer_var_eq_null_iff hp]
    show Except.ok (if (Lookup.present? data path).isSome = true then absentKeys r data rest
      else key :: absentKeys r data rest) = _
    cases Lookup.present? data path with
    | none => rw [if_neg (by simp), if_pos rfl]
    | some v => rw [if_pos Option.isSome_some, if_neg (by simp)]

theorem requestedKeys_eq_self : Lookup.requestedKeys keys = keys := by
  unfold Lookup.requestedKeys
  split
  · next items rest =>
    rcases hk (.arr items) List.mem_cons_self with h | h <;> cases h
  · rfl

theorem answer_missing {rules operands : List Value} (hv : EvaluateTo r data rules operands)
    (hne : operands ≠ []) (ho : Lookup.requestedKeys operands = keys) :
    answer r data .missing rules = .ok (.arr (absentKeys r data keys)) := by
  have hn : Operator.missing.arity.accepts operands.length = true :=
    Arity.accepts_atLeast.2 (List.length_pos_iff.2 hne)
  have hmissing : Lookup.missing .missing data operands = .ok (.arr (absentKeys r data keys)) := by
    rw [Lookup.missing, ho, missingKeys_eq hk]
    rfl
  rw [answer_eq_apply rfl hn hv]
  exact hmissing

theorem answer_missingSome {rules : List Value} {need : Number}
    (hv : EvaluateTo r data rules [.num need, .arr keys]) :
    answer r data .missingSome rules = .ok (.arr
      (if need.toDouble ≤ .ofInt (keys.length - (absentKeys r data keys).length : Nat) then []
        else absentKeys r data keys)) := by
  have hsome : Lookup.missingSome .missingSome data [.num need, .arr keys] = .ok (.arr
      (if need.toDouble ≤ .ofInt (keys.length - (absentKeys r data keys).length : Nat) then []
        else absentKeys r data keys)) := by
    rw [Lookup.missingSome, missingKeys_eq hk]
    rfl
  rw [answer_eq_apply rfl rfl hv]
  exact hsome

end

/-! ## The three operators -/

/-- **`missing`, `missing_some` and `var` agree.**  `var` comes to `null` on a key exactly if it gives
every default that is a literal.  `missing` lists these keys, whether the keys are its arguments, of
which there is at least one, or the items of its first, and `missing_some` lists them unless as many
of the others are there as its minimum says. -/
theorem missing_agrees_with_var (r : Registry) (data : Value) (keys : List Value)
    (hk : ∀ key ∈ keys, key.kind = .string ∨ key.kind = .number) :
    let absent := absentKeys r data keys
    let present := keys.length - absent.length
    (∀ key ∈ keys, answer r data .var [key] = .ok .null ↔
      ∀ D : Value, D.isLiteral = true → answer r data .var [key, D] = .ok D) ∧
    (∀ rules, EvaluateTo r data rules keys → keys ≠ [] →
      answer r data .missing rules = .ok (.arr absent)) ∧
    (∀ rules others, EvaluateTo r data rules (.arr keys :: others) →
      answer r data .missing rules = .ok (.arr absent)) ∧
    ∀ rules need, EvaluateTo r data rules [.num need, .arr keys] →
      (need.value ≤ present → answer r data .missingSome rules = .ok (.arr [])) ∧
      (present < need.value → present < 2 ^ 53 →
        answer r data .missingSome rules = .ok (.arr absent)) := by
  intro absent present
  refine ⟨fun key hkey => ?_, fun rules hv hne => ?_, fun rules others hv => ?_,
    fun rules need hv => ⟨fun hle => ?_, fun hlt hsmall => ?_⟩⟩
  · obtain ⟨path, hp⟩ := Value.exists_pathText (hk key hkey)
    rw [answer_var_eq_null_iff hp, answer_var_eq_default_iff hp]
  · exact answer_missing hk hv hne (requestedKeys_eq_self hk)
  · exact answer_missing hk hv (List.cons_ne_nil _ _) rfl
  · rw [answer_missingSome hk hv, if_pos (Number.toDouble_le_ofInt (by exact_mod_cast hle))]
  · have hcount : ((present : Nat) : Int).natAbs < 2 ^ 53 := hsmall
    have hexceeds : ((present : Nat) : Int) < need.value := by exact_mod_cast hlt
    rw [answer_missingSome hk hv, if_neg (Number.not_toDouble_le_ofInt hexceeds hcount)]

/-- Keys are found as they write their paths, the empty one always, and each time that they occur. -/
theorem missing_agrees_with_var_repeated :
    let two := Value.num (.double (.ofInt 2))
    let keys := [.str "", .num (.int 0 (by decide)), two, .str "0", .str "x", .str "x"]
    let data := Value.arr [.null, .null, .bool false]
    let rules := [Value.num (.int 3 (by decide)), .arr keys]
    (∀ key ∈ keys, key.kind = .string ∨ key.kind = .number) ∧
      EvaluateTo .empty data keys keys ∧ keys ≠ [] ∧
      absentKeys .empty data keys = [.num (.int 0 (by decide)), .str "0", .str "x", .str "x"] ∧
      answer .empty data .missing keys = .ok (.arr (absentKeys .empty data keys)) ∧
      EvaluateTo .empty data rules rules ∧
      answer .empty data .missingSome rules = .ok (.arr (absentKeys .empty data keys)) := by
  intro two keys data rules
  have hk : ∀ key ∈ keys, key.kind = .string ∨ key.kind = .number := by decide
  have hkeys : EvaluateTo .empty data keys keys := List.forall₂_same.2 (by decide +kernel)
  have hrules : EvaluateTo .empty data rules rules := List.forall₂_same.2 (by decide +kernel)
  have hne : keys ≠ [] := List.cons_ne_nil _ _
  have habsent : absentKeys .empty data keys =
      [.num (.int 0 (by decide)), .str "0", .str "x", .str "x"] := by decide +kernel
  obtain ⟨-, hmissing, -, hsome⟩ := missing_agrees_with_var .empty data keys hk
  have hlt : ((keys.length - (absentKeys .empty data keys).length : Nat) : ℚ) <
      (Number.int 3 (by decide)).value := by
    rw [habsent]
    show ((2 : Nat) : ℚ) < ((3 : Int) : ℚ)
    exact_mod_cast (by decide : (2 : Int) < 3)
  have hsmall : keys.length - (absentKeys .empty data keys).length < 2 ^ 53 := by
    rw [habsent]
    decide
  exact ⟨hk, hkeys, hne, habsent, hmissing keys hkeys hne, hrules, (hsome rules _ hrules).2 hlt hsmall⟩

/-- The first two show why the arguments are to be values, and some, and the third why the keys that
are there are to be fewer than `2 ^ 53`: no double lies between that number and the next one. -/
theorem missing_needs_operands_and_counts :
    let many := Value.str "a" :: List.replicate (2 ^ 53) (.str "")
    let need := Number.int (2 ^ 53 + 1) (by decide)
    answer .empty .null .missing [] = .error (.arity "missing" (.atLeast 1) 0) ∧
    answer .empty .null .missing [.arr [.str "a"], .obj [("nope", .arr [])]] =
      .error (.unknownOperator "nope") ∧
    EvaluateTo .empty (.bool true) [.num need, .arr many] [.num need, .arr many] ∧
    absentKeys .empty (.bool true) many = [.str "a"] ∧
    ((many.length - (absentKeys .empty (.bool true) many).length : Nat) : ℚ) < need.value ∧
    answer .empty (.bool true) .missingSome [.num need, .arr many] = .ok (.arr []) := by
  intro many need
  have hpresent : answer .empty (.bool true) .var [.str ""] ≠ .ok .null := by decide +kernel
  have habsent : absentKeys .empty (.bool true) many = [.str "a"] := by
    rw [absentKeys_cons, if_pos (by decide +kernel), absentKeys, List.filter_eq_nil_iff.2]
    intro key hkey
    rw [List.eq_of_mem_replicate hkey]
    simpa using hpresent
  have hcount : many.length - (absentKeys .empty (.bool true) many).length = 2 ^ 53 := by
    rw [habsent, List.length_cons, List.length_replicate]
    rfl
  have hkeys : ∀ key ∈ many, key.kind = .string ∧ key.isLiteral = true := by
    intro key hkey
    rcases List.mem_cons.1 hkey with rfl | hmem
    · exact ⟨rfl, rfl⟩
    · rw [List.eq_of_mem_replicate hmem]
      exact ⟨rfl, rfl⟩
  have hrules : EvaluateTo .empty (.bool true) [.num need, .arr many] [.num need, .arr many] := by
    have hmany : Value.isLiteral (.arr many) = true :=
      Value.isLiteral_arr.2 fun key hkey => (hkeys key hkey).2
    refine .cons ?_ (.cons ?_ .nil)
    · rw [eval_literal rfl]
      rfl
    · rw [eval_literal hmany]
      rfl
  refine ⟨rfl, by decide +kernel, hrules, habsent, ?_, ?_⟩
  · rw [hcount]
    show (((2 ^ 53 : Nat) : Int) : ℚ) < ((2 ^ 53 + 1 : Int) : ℚ)
    exact_mod_cast (by decide : ((2 ^ 53 : Nat) : Int) < 2 ^ 53 + 1)
  · rw [answer_missingSome (fun key hkey => .inl (hkeys key hkey).1) hrules, hcount,
      if_pos (by decide +kernel)]

end RuleLogic
