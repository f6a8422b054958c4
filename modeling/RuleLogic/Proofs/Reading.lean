import RuleLogic.Proofs.NumberText
import RuleLogic.Json.Printer
import RuleLogic.Json.Reader

/-!
# Reading printed scalars

The reader is a machine that takes one character at a time, so it is followed along the pieces of a
text: a string from its opening to its closing quote, escape by escape, a number up to where it may
go on, a word.  A state that holds a complete value takes up what comes behind it.

    run s (cs ++ ds) = (run s cs).bind (run · ds)                              (run_append)
    Holds v frames s → step s c = afterValue v frames c, unless c may stand in a number
    Blank bs → Holds v frames s → run s bs leads to a state that holds v        (run_blanks)
    inside a string, run (escape c) adds c                                     (run_escape)
-/

namespace RuleLogic

namespace Reader

/-! ## Runs -/

theorem run_cons (s : State) (c : Char) (cs : List Char) :
    run s (c :: cs) = (step s c).bind (run · cs) := rfl

theorem run_append (s : State) (cs ds : List Char) :
    run s (cs ++ ds) = (run s cs).bind (run · ds) := by
  unfold run
  rw [List.foldlM_append]
  rfl

theorem run_append_of_eq_some {s t : State} {cs : List Char} (h : run s cs = some t)
    (ds : List Char) : run s (cs ++ ds) = run t ds := by
  rw [run_append, h, Option.bind_some]

theorem run_cons_of_eq_some {s t : State} {c : Char} (h : step s c = some t) (cs : List Char) :
    run s (c :: cs) = run t cs := by
  rw [run_cons, h, Option.bind_some]

/-! ## Complete values -/

/-- The state holds a complete value inside the open containers: the value is done, or it is a
number whose text might go on. -/
inductive Holds (v : Value) (frames : List Frame) : State → Prop
  | done : Holds v frames ⟨.done v, frames⟩
  | number {text : List Char} {n : Number} (hv : v = .num n)
    (h : Number.read? text.reverse = some n) : Holds v frames ⟨.number text, frames⟩

/-- What comes behind a complete value is taken up behind it. -/
theorem Holds.step_eq {v : Value} {frames : List Frame} {s : State} {c : Char}
    (h : Holds v frames s) (hc : Number.isTextChar c = false) :
    step s c = afterValue v frames c := by
  cases h with
  | done => rfl
  | number hv h =>
    subst hv
    simp only [step, hc, h]
    rfl

theorem Holds.finish_eq {v : Value} {s : State} (h : Holds v [] s) : finish s = some v := by
  cases h with
  | done => rfl
  | number hv h =>
    subst hv
    simp only [finish, h, Option.map_some]

/-! ## Blanks -/

section
variable {s : State} {bs : List Char}

/-- The characters are blanks, as they stand between the parts of a text. -/
def Blank (bs : List Char) : Prop := ∀ c ∈ bs, isBlank c = true

theorem blank_nil : Blank [] := List.forall_mem_nil _

theorem blank_singleton {c : Char} (hc : isBlank c = true) : Blank [c] :=
  List.forall_mem_singleton.2 hc

/-- Blanks leave the state as it is. -/
def Waits (s : State) : Prop := ∀ c, isBlank c = true → step s c = some s

theorem waits_value (frames : List Frame) : Waits ⟨.value, frames⟩ := fun _ hc => if_pos hc

theorem waits_firstItem (frames : List Frame) : Waits ⟨.firstItem, frames⟩ := fun _ hc => if_pos hc

theorem waits_firstKey (frames : List Frame) : Waits ⟨.firstKey, frames⟩ := fun _ hc => if_pos hc

theorem waits_nextKey (entries : List (String × Value)) (frames : List Frame) :
    Waits ⟨.nextKey entries, frames⟩ := fun _ hc => if_pos hc

theorem Waits.run_append (hs : Waits s) (hb : Blank bs) (cs : List Char) :
    run s (bs ++ cs) = run s cs := by
  induction bs with
  | nil => rfl
  | cons b bs ih =>
    rw [List.cons_append, run_cons_of_eq_some (hs b (hb b List.mem_cons_self))]
    exact ih fun c hc => hb c (List.mem_cons_of_mem b hc)

theorem isTextChar_of_isBlank {c : Char} (hc : isBlank c = true) : Number.isTextChar c = false := by
  simp only [isBlank, Bool.or_eq_true, beq_iff_eq] at hc
  rcases hc with ((rfl | rfl) | rfl) | rfl <;> decide

/-- A value is still held behind blanks. -/
theorem Holds.run_blanks {v : Value} {frames : List Frame} (hs : Holds v frames s)
    (hb : Blank bs) : ∃ t, run s bs = some t ∧ Holds v frames t := by
  induction bs generalizing s with
  | nil => exact ⟨s, rfl, hs⟩
  | cons b bs ih =>
    have hblank := hb b List.mem_cons_self
    have hstep : step s b = some ⟨.done v, frames⟩ := by
      rw [hs.step_eq (isTextChar_of_isBlank hblank)]
      exact if_pos hblank
    rw [run_cons_of_eq_some hstep]
    exact ih .done fun c hc => hb c (List.mem_cons_of_mem b hc)

end

/-! ## Strings -/

section
variable (role : StringRole) (text : List Char) (frames : List Frame)

theorem hexValue?_hexDigit : ∀ n < 16, hexValue? (Value.hexDigit n) = some n := by decide

theorem step_hex {count code n : Nat} {c : Char} (hc : hexValue? c = some n) (hcount : count < 3) :
    step ⟨.string role text (.hex count code), frames⟩ c =
      some ⟨.string role text (.hex (count + 1) (16 * code + n)), frames⟩ := by
  simp [step, inString, hc, hcount]

theorem step_lastHex {code n : Nat} {c : Char} (hc : hexValue? c = some n)
    (hcode : 16 * code + n < 0xD800) :
    step ⟨.string role text (.hex 3 code), frames⟩ c =
      some ⟨.string role (Char.ofNat (16 * code + n) :: text) .none, frames⟩ := by
  have hhigh : isHighSurrogate (16 * code + n) = false := by
    rw [isHighSurrogate, Bool.and_eq_false_iff, decide_eq_false_iff_not]
    exact .inl (by omega)
  have hlow : isLowSurrogate (16 * code + n) = false := by
    rw [isLowSurrogate, Bool.and_eq_false_iff, decide_eq_false_iff_not]
    exact .inl (by omega)
  simp [step, inString, hc, hhigh, hlow]

/-- A control character is written by its code. -/
theorem run_control {c : Char} (hc : c.toNat < 0x20) :
    run ⟨.string role text .none, frames⟩
      ['\\', 'u', '0', '0', Value.hexDigit (c.toNat / 16), Value.hexDigit (c.toNat % 16)] =
      some ⟨.string role (c :: text) .none, frames⟩ := by
  have hhigh := hexValue?_hexDigit (c.toNat / 16) (by omega)
  have hlow := hexValue?_hexDigit (c.toNat % 16) (by omega)
  have hcode : 16 * (16 * 0 + c.toNat / 16) + c.toNat % 16 = c.toNat := by omega
  have hlast := step_lastHex role text frames hlow
    (show 16 * (16 * 0 + c.toNat / 16) + c.toNat % 16 < 0xD800 by omega)
  rw [hcode, Char.ofNat_toNat] at hlast
  have hzeros : run ⟨.string role text .none, frames⟩ ['\\', 'u', '0', '0'] =
      some ⟨.string role text (.hex 2 0), frames⟩ := rfl
  calc run ⟨.string role text .none, frames⟩
        (['\\', 'u', '0', '0'] ++
          [Value.hexDigit (c.toNat / 16), Value.hexDigit (c.toNat % 16)])
      = run ⟨.string role text (.hex 2 0), frames⟩
          [Value.hexDigit (c.toNat / 16), Value.hexDigit (c.toNat % 16)] :=
        run_append_of_eq_some hzeros _
    _ = run ⟨.string role text (.hex 3 (16 * 0 + c.toNat / 16)), frames⟩
          [Value.hexDigit (c.toNat % 16)] :=
        run_cons_of_eq_some (step_hex role text frames hhigh (by decide)) _
    _ = some ⟨.string role (c :: text) .none, frames⟩ := run_cons_of_eq_some hlast []

/-- The escape of a character is read as the character. -/
theorem run_escape (c : Char) :
    run ⟨.string role text .none, frames⟩ (Value.escape c) =
      some ⟨.string role (c :: text) .none, frames⟩ := by
  unfold Value.escape
  split
  case h_8 hquote hbackslash _ _ _ _ _ =>
    split
    · next hc => exact run_control role text frames hc
    · next hc =>
      have hstep : step ⟨.string role text .none, frames⟩ c =
          some ⟨.string role (c :: text) .none, frames⟩ := by
        have hq : (c == '"') = false := beq_eq_false_iff_ne.2 hquote
        have hb : (c == '\\') = false := beq_eq_false_iff_ne.2 hbackslash
        simp only [step, inString, hq, hb, hc]
        rfl
      exact run_cons_of_eq_some hstep []
  all_goals rfl

/-- A string is read up to its closing quote. -/
theorem run_string (cs : List Char) :
    run ⟨.string role text .none, frames⟩ (cs.flatMap Value.escape ++ ['"']) =
      some (endString role (cs.reverse ++ text) frames) := by
  induction cs generalizing text with
  | nil => rfl
  | cons c cs ih =>
    rw [List.flatMap_cons, List.append_assoc,
      run_append_of_eq_some (run_escape role text frames c), ih, List.reverse_cons,
      List.append_assoc]
    rfl

end

/-- A state that the opening quote leads into a string. -/
theorem run_quoted {s : State} {role : StringRole} {frames : List Frame} (k : String)
    (h : step s '"' = some ⟨.string role [] .none, frames⟩) :
    run s (Value.quoted k) = some (endString role k.toList.reverse frames) := by
  unfold Value.quoted
  rw [List.cons_append, run_cons_of_eq_some h, run_string, List.append_nil]

/-! ## Numbers -/

/-- The first character of a number begins a number. -/
theorem startValue_number {c : Char} (hc : c = '-' ∨ c.isDigit = true) (frames : List Frame) :
    isBlank c = false ∧ startValue frames c = some ⟨.number [c], frames⟩ := by
  have hne : ∀ d : Char, d ≠ '-' → d.isDigit = false → c ≠ d := by
    rintro d hminus hdigit rfl
    rcases hc with hc | hc
    · exact hminus hc
    · rw [hdigit] at hc
      cases hc
  constructor
  · unfold isBlank
    simp [hne ' ', hne '\n', hne '\t', hne '\r']
  · unfold startValue
    split
    case h_7 =>
      rw [if_pos]
      simpa using hc
    all_goals exact absurd rfl (hne _ (by decide) (by decide))

theorem run_number (frames : List Frame) (text cs : List Char)
    (h : ∀ c ∈ cs, Number.isTextChar c) :
    run ⟨.number text, frames⟩ cs = some ⟨.number (cs.reverse ++ text), frames⟩ := by
  induction cs generalizing text with
  | nil => rfl
  | cons c cs ih =>
    have hc := h c List.mem_cons_self
    have hstep : step ⟨.number text, frames⟩ c = some ⟨.number (c :: text), frames⟩ := by
      simp only [step, hc, if_true]
    rw [run_cons_of_eq_some hstep, ih _ fun d hd => h d (List.mem_cons_of_mem c hd)]
    simp

/-- The text of a number leads to a state that holds the number. -/
theorem run_numberText (n : Number) (frames : List Frame) :
    ∃ s, run ⟨.value, frames⟩ n.text = some s ∧ Holds (.num n) frames s := by
  obtain ⟨c, rest, htext, hc⟩ := Number.exists_text_eq_cons n
  have hchars := Number.isTextChar_of_mem_text n
  have hread := Number.read?_text n
  rw [htext] at hchars hread
  obtain ⟨hblank, hstart⟩ := startValue_number hc frames
  have hstep : step ⟨.value, frames⟩ c = some ⟨.number [c], frames⟩ := by
    simp only [step, hblank, hstart]
    rfl
  refine ⟨⟨.number (rest.reverse ++ [c]), frames⟩, ?_, .number rfl ?_⟩
  · rw [htext, run_cons_of_eq_some hstep]
    exact run_number frames [c] rest fun d hd => hchars d (List.mem_cons_of_mem c hd)
  · simpa using hread

end Reader

end RuleLogic
