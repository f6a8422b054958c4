import RuleLogic.Evaluator
import RuleLogic.Proofs.Contents
import RuleLogic.Proofs.Reading

/-!
# Values read back from their texts

A value whose objects have no key twice and whose containers are at most 127 deep is read back from
every text that writes it, to the last detail: order of entries, form of numbers, every character.
The compact and the indented text are two such texts, which differ in their blanks.  So a rule and
data that went through JSON text evaluate as before, and what is printed is what was meant.

    Writes v (compact v) ∧ Writes v (pretty level v)            (writes_compact, writes_pretty)
    v.UniqueKeys → v.depth ≤ 127 → Value.read? v.toText = some v                 (read?_toText)
    v.UniqueKeys → v.depth ≤ 127 → Value.read? v.toPrettyText = some v     (read?_toPrettyText)

The reader is followed along the text.  Each open container takes one place on its stack, so that
the depth of what is read next and the open containers stay within the bound together is what the
induction carries.
-/

namespace RuleLogic

open Reader

namespace Value

/-! ## Values that texts can carry -/

mutual

/-- How many containers stand around the innermost value, itself included. -/
def depth : Value → Nat
  | .arr items => depthOfItems items + 1
  | .obj entries => depthOfEntries entries + 1
  | _ => 0

def depthOfItems : List Value → Nat
  | [] => 0
  | v :: rest => max (depth v) (depthOfItems rest)

def depthOfEntries : List (String × Value) → Nat
  | [] => 0
  | (_, v) :: rest => max (depth v) (depthOfEntries rest)

end

theorem depthOfItems_le {items : List Value} {n : Nat} (h : ∀ v ∈ items, v.depth ≤ n) :
    depthOfItems items ≤ n := by
  induction items with
  | nil => exact Nat.zero_le n
  | cons v rest ih =>
    rw [depthOfItems]
    exact Nat.max_le.2 ⟨h v List.mem_cons_self, ih fun w hw => h w (List.mem_cons_of_mem v hw)⟩

theorem put_of_not_mem {key : String} {v : Value} {entries : List (String × Value)}
    (h : key ∉ entries.map Prod.fst) : put key v entries = entries ++ [(key, v)] := by
  induction entries with
  | nil => rfl
  | cons entry rest ih =>
    obtain ⟨k, old⟩ := entry
    rw [List.map_cons, List.mem_cons, not_or] at h
    have hne : (k == key) = false := beq_eq_false_iff_ne.2 (Ne.symm h.1)
    unfold put
    rw [hne, ih h.2]
    rfl

/-! ## Texts that write a value -/

mutual

/-- The characters write the value.  Blanks may stand behind an opening bracket, a comma or a colon,
and before a closing bracket. -/
inductive Writes : Value → List Char → Prop
  | null : Writes .null "null".toList
  | bool (b : Bool) : Writes (.bool b) (boolText b)
  | num (n : Number) : Writes (.num n) n.text
  | str (s : String) : Writes (.str s) (quoted s)
  | emptyArray : Writes (.arr []) ['[', ']']
  | array {v : Value} {rest : List Value} {bs cs ds : List Char} (hb : Blank bs) (hv : Writes v cs)
    (hr : WritesItems rest ds) : Writes (.arr (v :: rest)) ('[' :: bs ++ cs ++ ds)
  | emptyObject : Writes (.obj []) ['{', '}']
  | object {key : String} {v : Value} {rest : List (String × Value)} {bs gap cs ds : List Char}
    (hb : Blank bs) (hg : Blank gap) (hv : Writes v cs) (hr : WritesEntries rest ds) :
    Writes (.obj ((key, v) :: rest)) ('{' :: bs ++ quoted key ++ ':' :: gap ++ cs ++ ds)

/-- The characters write the items behind the first, and the closing bracket. -/
inductive WritesItems : List Value → List Char → Prop
  | close {bs : List Char} (hb : Blank bs) : WritesItems [] (bs ++ [']'])
  | more {v : Value} {rest : List Value} {bs cs ds : List Char} (hb : Blank bs) (hv : Writes v cs)
    (hr : WritesItems rest ds) : WritesItems (v :: rest) (',' :: bs ++ cs ++ ds)

/-- The characters write the entries behind the first, and the closing brace. -/
inductive WritesEntries : List (String × Value) → List Char → Prop
  | close {bs : List Char} (hb : Blank bs) : WritesEntries [] (bs ++ ['}'])
  | more {key : String} {v : Value} {rest : List (String × Value)} {bs gap cs ds : List Char}
    (hb : Blank bs) (hg : Blank gap) (hv : Writes v cs) (hr : WritesEntries rest ds) :
    WritesEntries ((key, v) :: rest) (',' :: bs ++ quoted key ++ ':' :: gap ++ cs ++ ds)

end

mutual

theorem writes_compact (v : Value) : Writes v (compact v) := by
  match v with
  | .null => exact .null
  | .bool b => exact .bool b
  | .num n => exact .num n
  | .str s => exact .str s
  | .arr [] => exact .emptyArray
  | .arr (v :: rest) => exact .array blank_nil (writes_compact v) (writesItems_moreItems rest)
  | .obj [] => exact .emptyObject
  | .obj ((k, v) :: rest) =>
    have h : Writes (.obj ((k, v) :: rest)) _ := .object blank_nil blank_nil (writes_compact v)
      (writesEntries_moreEntries rest)
    simpa [compact] using h

theorem writesItems_moreItems (items : List Value) : WritesItems items (moreItems items) := by
  match items with
  | [] => exact .close blank_nil
  | v :: rest => exact .more blank_nil (writes_compact v) (writesItems_moreItems rest)

theorem writesEntries_moreEntries (entries : List (String × Value)) :
    WritesEntries entries (moreEntries entries) := by
  match entries with
  | [] => exact .close blank_nil
  | (k, v) :: rest =>
    have h : WritesEntries ((k, v) :: rest) _ := .more blank_nil blank_nil (writes_compact v)
      (writesEntries_moreEntries rest)
    simpa [moreEntries] using h

end

theorem blank_lineAt (level : Nat) : Blank (lineAt level) := by
  intro c hc
  rcases List.mem_cons.1 hc with rfl | hc
  · rfl
  · rw [List.eq_of_mem_replicate hc]
    rfl

mutual

theorem writes_pretty (level : Nat) (v : Value) : Writes v (pretty level v) := by
  match v with
  | .null => exact .null
  | .bool b => exact .bool b
  | .num n => exact .num n
  | .str s => exact .str s
  | .arr [] => exact .emptyArray
  | .arr (v :: rest) =>
    exact .array (blank_lineAt _) (writes_pretty (level + 1) v) (writesItems_prettyItems level rest)
  | .obj [] => exact .emptyObject
  | .obj ((k, v) :: rest) =>
    exact .object (blank_lineAt _) (blank_singleton rfl) (writes_pretty (level + 1) v)
      (writesEntries_prettyEntries level rest)

theorem writesItems_prettyItems (level : Nat) (items : List Value) :
    WritesItems items (prettyItems level items) := by
  match items with
  | [] => exact .close (blank_lineAt level)
  | v :: rest =>
    exact .more (blank_lineAt _) (writes_pretty (level + 1) v) (writesItems_prettyItems level rest)

theorem writesEntries_prettyEntries (level : Nat) (entries : List (String × Value)) :
    WritesEntries entries (prettyEntries level entries) := by
  match entries with
  | [] => exact .close (blank_lineAt level)
  | (k, v) :: rest =>
    exact .more (blank_lineAt _) (blank_singleton rfl) (writes_pretty (level + 1) v)
      (writesEntries_prettyEntries level rest)

end

/-! ## The beginning of a text -/

/-- A text begins with a character that is neither blank nor a closing bracket. -/
theorem Writes.exists_eq_cons {v : Value} {cs : List Char} (h : Writes v cs) :
    ∃ c rest, cs = c :: rest ∧ isBlank c = false ∧ c ≠ ']' := by
  cases h with
  | null => exact ⟨'n', _, rfl, by decide, by decide⟩
  | bool b => cases b <;> exact ⟨_, _, rfl, by decide, by decide⟩
  | num n =>
    obtain ⟨c, rest, htext, hc⟩ := Number.exists_text_eq_cons n
    refine ⟨c, rest, htext, (startValue_number hc []).1, ?_⟩
    rintro rfl
    simp at hc
  | str s => exact ⟨'"', _, rfl, by decide, by decide⟩
  | emptyArray | array => exact ⟨'[', _, rfl, by decide, by decide⟩
  | emptyObject | object => exact ⟨'{', _, rfl, by decide, by decide⟩

/-- The first item of an array is read as a value inside it. -/
theorem Writes.run_firstItem {v : Value} {cs : List Char} (h : Writes v cs) (frames : List Frame) :
    run ⟨.firstItem, frames⟩ cs = run ⟨.value, .array [] :: frames⟩ cs := by
  obtain ⟨c, rest, rfl, hblank, hclose⟩ := h.exists_eq_cons
  have hstep : step ⟨.firstItem, frames⟩ c = step ⟨.value, .array [] :: frames⟩ c := by
    have hne : (c == ']') = false := beq_eq_false_iff_ne.2 hclose
    simp only [step, hblank, hne]
    rfl
  rw [run_cons, run_cons, hstep]

/-! ## Containers -/

section
variable {v : Value} {items : List Value} {entries : List (String × Value)} {key : String}
variable {frames outer : List Frame} {s : State} {bs gap : List Char}

theorem step_openArray (h : frames.length < maxDepth) :
    step ⟨.value, frames⟩ '[' = some ⟨.firstItem, frames⟩ := if_pos h

theorem step_openObject (h : frames.length < maxDepth) :
    step ⟨.value, frames⟩ '{' = some ⟨.firstKey, frames⟩ := if_pos h

/-- A key and its colon, and the blanks around them, lead to the value of the entry. -/
theorem run_key (hs : Waits s) (h : step s '"' = some ⟨.string (.key entries) [] .none, frames⟩)
    (hb : Blank bs) (hg : Blank gap) (cs : List Char) :
    run s (bs ++ (quoted key ++ ':' :: (gap ++ cs))) =
      run ⟨.value, .object entries key :: frames⟩ cs := by
  have hkey : endString (.key entries) key.toList.reverse frames =
      ⟨.colon entries key, frames⟩ := by
    simp [endString]
  have hcolon : step ⟨.colon entries key, frames⟩ ':' =
      some ⟨.value, .object entries key :: frames⟩ := rfl
  rw [hs.run_append hb, run_append_of_eq_some (run_quoted key h), hkey, run_cons_of_eq_some hcolon,
    (waits_value _).run_append hg]

theorem step_nextItem (h : Holds v (.array items :: outer) s) :
    step s ',' = some ⟨.value, .array (v :: items) :: outer⟩ := by
  rw [h.step_eq (by decide)]
  rfl

/-- The end of an array, and the blanks before it. -/
theorem run_closeArray (h : Holds v (.array items :: outer) s) (hb : Blank bs) :
    run s (bs ++ [']']) = some ⟨.done (.arr (v :: items).reverse), outer⟩ := by
  obtain ⟨t, hrun, ht⟩ := h.run_blanks hb
  have hstep : step t ']' = some ⟨.done (.arr (v :: items).reverse), outer⟩ := by
    rw [ht.step_eq (by decide)]
    rfl
  rw [run_append_of_eq_some hrun]
  exact run_cons_of_eq_some hstep []

theorem step_nextEntry (h : Holds v (.object entries key :: outer) s)
    (hk : key ∉ entries.map Prod.fst) :
    step s ',' = some ⟨.nextKey (entries ++ [(key, v)]), outer⟩ := by
  rw [h.step_eq (by decide), ← put_of_not_mem hk]
  rfl

/-- The end of an object, and the blanks before it. -/
theorem run_closeObject (h : Holds v (.object entries key :: outer) s)
    (hk : key ∉ entries.map Prod.fst) (hb : Blank bs) :
    run s (bs ++ ['}']) = some ⟨.done (.obj (entries ++ [(key, v)])), outer⟩ := by
  obtain ⟨t, hrun, ht⟩ := h.run_blanks hb
  have hstep : step t '}' = some ⟨.done (.obj (entries ++ [(key, v)])), outer⟩ := by
    rw [ht.step_eq (by decide), ← put_of_not_mem hk]
    rfl
  rw [run_append_of_eq_some hrun]
  exact run_cons_of_eq_some hstep []

end

/-! ## The whole text -/

mutual

/-- A text that writes a value leads to a state that holds the value. -/
theorem run_writes (v : Value) (cs : List Char) (h : Writes v cs) (frames : List Frame)
    (hk : v.hasUniqueKeys = true) (hd : v.depth + frames.length ≤ maxDepth) :
    ∃ s, run ⟨.value, frames⟩ cs = some s ∧ Holds v frames s := by
  match v, cs, h with
  | _, _, .null => exact ⟨_, rfl, .done⟩
  | _, _, .bool true => exact ⟨_, rfl, .done⟩
  | _, _, .bool false => exact ⟨_, rfl, .done⟩
  | _, _, .num n => exact run_numberText n frames
  | _, _, .str s =>
    refine ⟨_, run_quoted s rfl, ?_⟩
    simp only [endString, List.reverse_reverse, String.ofList_toList]
    exact .done
  | _, _, .emptyArray =>
    rw [depth, depthOfItems] at hd
    exact ⟨_, run_cons_of_eq_some (step_openArray (by omega)) _, .done⟩
  | .arr (first :: rest), _, .array hb hv hr =>
    rw [hasUniqueKeys, itemsHaveUniqueKeys, Bool.and_eq_true] at hk
    rw [depth, depthOfItems] at hd
    obtain ⟨s, hrun, hs⟩ := run_writes first _ hv (.array [] :: frames) hk.1 (by
      rw [List.length_cons]
      omega)
    have hrest := run_writesItems rest _ hr first [] frames s hs hk.2 (by omega)
    refine ⟨⟨.done (.arr (first :: rest)), frames⟩, ?_, .done⟩
    simp only [List.cons_append, List.append_assoc]
    rw [run_cons_of_eq_some (step_openArray (by omega)), (waits_firstItem frames).run_append hb,
      run_append, hv.run_firstItem, hrun, Option.bind_some, hrest]
    rfl
  | _, _, .emptyObject =>
    rw [depth, depthOfEntries] at hd
    exact ⟨_, run_cons_of_eq_some (step_openObject (by omega)) _, .done⟩
  | .obj ((key, first) :: rest), _, .object hb hg hv hr =>
    rw [hasUniqueKeys, entriesHaveUniqueKeys, Bool.and_eq_true, Bool.and_eq_true,
      decide_eq_true_eq] at hk
    rw [depth, depthOfEntries] at hd
    obtain ⟨s, hrun, hs⟩ := run_writes first _ hv (.object [] key :: frames) hk.2.1 (by
      rw [List.length_cons]
      omega)
    have hrest := run_writesEntries rest _ hr first key [] frames s hs hk.1 hk.2.2 (by omega)
    refine ⟨⟨.done (.obj ((key, first) :: rest)), frames⟩, ?_, .done⟩
    simp only [List.cons_append, List.append_assoc]
    rw [run_cons_of_eq_some (step_openObject (by omega)),
      run_key (waits_firstKey frames) rfl hb hg, run_append_of_eq_some hrun, hrest]
    rfl

/-- The items behind a value that is held lead to the end of the array. -/
theorem run_writesItems (rest : List Value) (cs : List Char) (h : WritesItems rest cs) (v : Value)
    (items : List Value) (outer : List Frame) (s : State) (hs : Holds v (.array items :: outer) s)
    (hk : itemsHaveUniqueKeys rest = true)
    (hd : depthOfItems rest + 1 + outer.length ≤ maxDepth) :
    run s cs = some ⟨.done (.arr ((v :: items).reverse ++ rest)), outer⟩ := by
  match rest, cs, h with
  | _, _, .close hb =>
    rw [List.append_nil]
    exact run_closeArray hs hb
  | w :: rest, _, .more hb hw hr =>
    rw [itemsHaveUniqueKeys, Bool.and_eq_true] at hk
    rw [depthOfItems] at hd
    obtain ⟨t, hrun, ht⟩ := run_writes w _ hw (.array (v :: items) :: outer) hk.1 (by
      rw [List.length_cons]
      omega)
    have hrest := run_writesItems rest _ hr w (v :: items) outer t ht hk.2 (by omega)
    simp only [List.cons_append, List.append_assoc]
    rw [run_cons_of_eq_some (step_nextItem hs), (waits_value _).run_append hb,
      run_append_of_eq_some hrun, hrest, List.reverse_cons, List.append_assoc]
    rfl

/-- The entries behind a value that is held lead to the end of the object. -/
theorem run_writesEntries (rest : List (String × Value)) (cs : List Char)
    (h : WritesEntries rest cs) (v : Value) (key : String) (entries : List (String × Value))
    (outer : List Frame) (s : State) (hs : Holds v (.object entries key :: outer) s)
    (hu : ((entries ++ (key, v) :: rest).map Prod.fst).Nodup)
    (hk : entriesHaveUniqueKeys rest = true)
    (hd : depthOfEntries rest + 1 + outer.length ≤ maxDepth) :
    run s cs = some ⟨.done (.obj (entries ++ (key, v) :: rest)), outer⟩ := by
  have hkey : key ∉ entries.map Prod.fst := by
    intro hmem
    rw [List.map_append, List.map_cons, List.nodup_append] at hu
    exact hu.2.2 key hmem key List.mem_cons_self rfl
  match rest, cs, h with
  | _, _, .close hb => exact run_closeObject hs hkey hb
  | (k, w) :: rest, _, .more hb hg hw hr =>
    rw [entriesHaveUniqueKeys, Bool.and_eq_true] at hk
    rw [depthOfEntries] at hd
    have hsplit : entries ++ (key, v) :: (k, w) :: rest =
        (entries ++ [(key, v)]) ++ (k, w) :: rest := by simp
    rw [hsplit] at hu ⊢
    obtain ⟨t, hrun, ht⟩ := run_writes w _ hw (.object (entries ++ [(key, v)]) k :: outer) hk.1
      (by
        rw [List.length_cons]
        omega)
    have hrest := run_writesEntries rest _ hr w k (entries ++ [(key, v)]) outer t ht hu hk.2
      (by omega)
    simp only [List.cons_append, List.append_assoc]
    rw [run_cons_of_eq_some (step_nextEntry hs hkey), run_key (waits_nextKey _ _) rfl hb hg,
      run_append_of_eq_some hrun, hrest, List.append_assoc]
    rfl

end

/-- A value with unique keys whose containers can all be open at once is read back from every text
that writes it, blanks behind the text included. -/
theorem Writes.read?_eq {v : Value} {cs bs : List Char} (h : Writes v cs) (hb : Blank bs)
    (hk : v.UniqueKeys) (hd : v.depth ≤ maxDepth) :
    Value.read? (String.ofList (cs ++ bs)) = some v := by
  obtain ⟨s, hrun, hs⟩ := run_writes v cs h [] ((hasUniqueKeys_iff v).2 hk) hd
  obtain ⟨t, hblanks, ht⟩ := hs.run_blanks hb
  rw [Value.read?, String.toList_ofList, start, run_append_of_eq_some hrun, hblanks,
    Option.bind_some, ht.finish_eq]

theorem read?_toText {v : Value} (hk : v.UniqueKeys) (hd : v.depth ≤ maxDepth) :
    Value.read? v.toText = some v := by
  have h := (writes_compact v).read?_eq blank_nil hk hd
  rwa [List.append_nil] at h

theorem read?_toPrettyText {v : Value} (hk : v.UniqueKeys) (hd : v.depth ≤ maxDepth) :
    Value.read? v.toPrettyText = some v := by
  have h := (writes_pretty 0 v).read?_eq blank_nil hk hd
  rwa [List.append_nil] at h

end Value

/-- **Texts carry everything.**  A value with unique keys and at most 127 containers inside one
another is read back from its compact text as it was.  So a rule and data that went through text
have the outcome they had, its log included. -/
theorem round_trip_evaluation :
    (∀ v : Value, v.UniqueKeys → v.depth ≤ 127 → Value.read? v.toText = some v) ∧
    ∀ (ev : Evaluator) (rule data : Value), rule.UniqueKeys → rule.depth ≤ 127 →
      data.UniqueKeys → data.depth ≤ 127 →
      ∃ rule' data' : Value, Value.read? rule.toText = some rule' ∧
        Value.read? data.toText = some data' ∧
        ev.evaluate rule' data' = ev.evaluate rule data := by
  have hread : ∀ v : Value, v.UniqueKeys → v.depth ≤ 127 → Value.read? v.toText = some v :=
    fun _ hk hd => Value.read?_toText hk hd
  refine ⟨hread, ?_⟩
  intro ev rule data hrule hruleDepth hdata hdataDepth
  exact ⟨rule, data, hread rule hrule hruleDepth, hread data hdata hdataDepth, rfl⟩

theorem round_trip_evaluation_log :
    let one : Number := .double (.ofInt 1)
    let whole : Number := .int 1 (by decide)
    let rule := Value.obj [("===", .arr [.obj [("log", .obj [("var", .str "k\n\"")])],
      .arr [.num one, .num whole]])]
    let data := Value.obj [("k\n\"", .arr [.num one, .num one]), ("a\x01", .str "é/\\")]
    rule.UniqueKeys ∧ rule.depth ≤ 127 ∧ data.UniqueKeys ∧ data.depth ≤ 127 ∧
      rule.toText =
        "\x7b\"===\":[\x7b\"log\":\x7b\"var\":\"k\\n\\\"\"\x7d\x7d,[1.0,1]]\x7d" ∧
      data.toText = "\x7b\"k\\n\\\"\":[1.0,1.0],\"a\\u0001\":\"é/\\\\\"\x7d" ∧
      (Value.read? rule.toText = some rule ∧ Value.read? data.toText = some data) ∧
      ∃ rule' data' : Value, Value.read? rule.toText = some rule' ∧
        Value.read? data.toText = some data' ∧
        (Evaluator.builtin.evaluate rule' data').log = [.arr [.num one, .num one]] ∧
        (Evaluator.builtin.evaluate rule' data').result.toOption = some (.bool false) := by
  intro one whole rule data
  have hrule : rule.UniqueKeys := by decide +kernel
  have hruleDepth : rule.depth ≤ 127 := by decide +kernel
  have hdata : data.UniqueKeys := by decide +kernel
  have hdataDepth : data.depth ≤ 127 := by decide +kernel
  obtain ⟨hread, heval⟩ := round_trip_evaluation
  obtain ⟨rule', data', hr, hd, hsame⟩ :=
    heval .builtin rule data hrule hruleDepth hdata hdataDepth
  refine ⟨hrule, hruleDepth, hdata, hdataDepth, by decide +kernel, by decide +kernel,
    ⟨hread rule hrule hruleDepth, hread data hdata hdataDepth⟩, rule', data', hr, hd, ?_⟩
  rw [hsame]
  exact ⟨by decide +kernel, by decide +kernel⟩

end RuleLogic
