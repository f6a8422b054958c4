import RuleLogic.Proofs.Unshared
import Mathlib.Data.List.Induction

/-!
# The lineage of an evaluator

An evaluator has the operators that it was created with and those registered since; a copy takes
over those of its source up to the copy.  These registrations, in order, are its lineage.  The
evaluator finds under each name the operator of the lineage that was registered last, and no
request to other evaluators changes it, though they may share its registry.  Registrations under
different names commute, whatever is asked afterwards.

    (start layout).after requests has under each name the last of the lineage   (holds_lineage)
    no request of requests is for name → name stands for what it stood for and reads the same
                                                                          (Sound.after_other)
    two registrations of different names may be swapped              (handleAll_swap_register)
-/

namespace RuleLogic

/-! ## Registries from lists -/

namespace Registry

theorem ofList_append_singleton (fs : List CustomOperator) (f : CustomOperator) :
    ofList (fs ++ [f]) = (ofList fs).register f := by
  rw [ofList, List.foldl_append]
  rfl

/-- Of the operators of a name, the last one is found. -/
theorem find?_ofList (fs : List CustomOperator) (name : String) :
    (ofList fs).find? name = fs.reverse.find? (·.name == name) := by
  induction fs using List.reverseRecOn with
  | nil => rfl
  | append_singleton fs f ih =>
    rw [ofList_append_singleton, List.reverse_append, List.reverse_singleton,
      List.singleton_append, List.find?_cons, ← ih]
    by_cases h : f.name = name
    · subst h
      rw [find?_register_self, beq_self_eq_true]
    · rw [find?_register_of_ne _ (Ne.symm h), beq_eq_false_iff_ne.2 h]

theorem find?_ofList_eq_some_iff {fs : List CustomOperator} {name : String} {f : CustomOperator} :
    (ofList fs).find? name = some f ↔
      f.name = name ∧ ∃ before after, fs = before ++ f :: after ∧ ∀ g ∈ after, g.name ≠ name := by
  rw [find?_ofList, List.find?_eq_some_iff_append]
  simp only [beq_iff_eq, Bool.not_eq_true', beq_eq_false_iff_ne]
  refine and_congr_right fun _ => ⟨?_, ?_⟩
  · rintro ⟨before, after, h, hbefore⟩
    refine ⟨after.reverse, before.reverse, ?_, fun g hg => hbefore g (List.mem_reverse.1 hg)⟩
    rw [← List.reverse_reverse fs, h]
    simp
  · rintro ⟨before, after, rfl, hafter⟩
    exact ⟨after.reverse, before.reverse, by simp, fun g hg => hafter g (List.mem_reverse.1 hg)⟩

theorem mem_names_ofList {fs : List CustomOperator} {name : String} :
    name ∈ (ofList fs).names ↔ ∃ f ∈ fs, f.name = name := by
  rw [mem_names_iff, find?_ofList, List.find?_isSome]
  simp only [List.mem_reverse, beq_iff_eq]

/-- The registry has the operators of the list, under each name the last one, and lists each name
once. -/
structure Holds (r : Registry) (fs : List CustomOperator) : Prop where
  find?_iff : ∀ name f, r.find? name = some f ↔
    f.name = name ∧ ∃ before after, fs = before ++ f :: after ∧ ∀ g ∈ after, g.name ≠ name
  mem_names_iff : ∀ name, name ∈ r.names ↔ ∃ f ∈ fs, f.name = name
  nodup_names : r.names.Nodup

theorem Same.holds {r : Registry} {fs : List CustomOperator} (h : r.Same (ofList fs))
    (hn : r.names.Nodup) : r.Holds fs where
  find?_iff name f := by rw [h, find?_ofList_eq_some_iff]
  mem_names_iff name := by rw [h.mem_names_iff, mem_names_ofList]
  nodup_names := hn

/-- Operators of different names may be registered in any order. -/
theorem same_register_comm (r : Registry) {f g : CustomOperator} (h : f.name ≠ g.name) :
    ((r.register f).register g).Same ((r.register g).register f) := by
  intro name
  by_cases hf : name = f.name
  · subst hf
    rw [find?_register_of_ne _ h, find?_register_self, find?_register_self]
  · rw [find?_register_of_ne (r.register g) hf]
    by_cases hg : name = g.name
    · subst hg
      rw [find?_register_self, find?_register_self]
    · rw [find?_register_of_ne _ hg, find?_register_of_ne _ hg, find?_register_of_ne _ hf]

end Registry

/-! ## Lineages -/

namespace Session

/-- The operators registered for an evaluator in a history of requests whose latest stands in
front, the first one in front; `none` if there is no such evaluator. -/
def lineage : List Request → String → Option (List CustomOperator)
  | [], _ => none
  | .create other operators :: earlier, name =>
    if name = other then some operators else lineage earlier name
  | .ask other action :: earlier, name =>
    match action with
    | .register f =>
      if name = other then (lineage earlier other).map (· ++ [f]) else lineage earlier name
    | .copy target =>
      if name = target then (lineage earlier other).orElse fun _ => lineage earlier target
      else lineage earlier name
    | _ => lineage earlier name

end Session

namespace Unshared

open Session (Request Action Response lineage)

/-- The registry of an evaluator. -/
def registryOf (t : Unshared) (name : String) : Option Registry :=
  (t.member? name).map (·.evaluator.registry)

theorem after_append (t : Unshared) (requests more : List Request) :
    t.after (requests ++ more) = (t.after requests).after more :=
  List.foldl_append

theorem after_reverse_cons (t : Unshared) (q : Request) (earlier : List Request) :
    t.after (q :: earlier).reverse = ((t.after earlier.reverse).handle q).1 := by
  rw [List.reverse_cons, after_append]
  rfl

theorem handleAll_cons (t : Unshared) (q : Request) (rest : List Request) :
    t.handleAll (q :: rest) = (t.handle q).2 :: (t.handle q).1.handleAll rest := rfl

theorem handleAll_append (t : Unshared) (requests more : List Request) :
    t.handleAll (requests ++ more) = t.handleAll requests ++ (t.after requests).handleAll more := by
  induction requests generalizing t with
  | nil => rfl
  | cons q rest ih => exact congrArg ((t.handle q).2 :: ·) (ih (t.handle q).1)

section
variable (t : Unshared) (name : String)

theorem member?_set (other : String) (m : Member) :
    (t.set other m).member? name = if name = other then some m else t.member? name := rfl

theorem set_set (m m' : Member) : (t.set name m).set name m' = t.set name m' := by
  refine congrArg Unshared.mk (funext fun other => ?_)
  simp only [member?_set]
  split <;> rfl

theorem registryOf_set (other : String) (m : Member) : (t.set other m).registryOf name =
    if name = other then some m.evaluator.registry else t.registryOf name := by
  rw [registryOf, member?_set]
  split <;> rfl

theorem registryOf_create (other : String) (operators : List CustomOperator) :
    (t.handle (.create other operators)).1.registryOf name =
      if name = other then some (.ofList operators) else t.registryOf name :=
  registryOf_set t name other _

theorem registryOf_register (other : String) (f : CustomOperator) :
    (t.handle (.ask other (.register f))).1.registryOf name =
      if name = other then (t.registryOf other).map (·.register f) else t.registryOf name := by
  cases hm : t.member? other with
  | none =>
    have hother : t.registryOf other = none := by rw [registryOf, hm, Option.map_none]
    simp only [handle, hm, hother, Option.map_none]
    split
    · next h => rw [h, hother]
    · rfl
  | some m =>
    have hother : t.registryOf other = some m.evaluator.registry := by
      rw [registryOf, hm, Option.map_some]
    simp only [handle, hm, perform, registryOf_set, hother, Option.map_some]
    rfl

theorem registryOf_copy (source target : String) :
    (t.handle (.ask source (.copy target))).1.registryOf name =
      if name = target then (t.registryOf source).orElse fun _ => t.registryOf target
      else t.registryOf name := by
  cases hm : t.member? source with
  | none =>
    have hsource : t.registryOf source = none := by rw [registryOf, hm, Option.map_none]
    simp only [handle, hm, hsource, Option.orElse_none]
    split
    · next h => rw [h]
    · rfl
  | some m =>
    have hsource : t.registryOf source = some m.evaluator.registry := by
      rw [registryOf, hm, Option.map_some]
    simp only [handle, hm, perform, registryOf_set, hsource, Option.orElse_some]

/-- Nothing but registrations and copies changes a registry. -/
theorem registryOf_ask (other : String) {action : Action} (hr : ∀ f, action ≠ .register f)
    (hc : ∀ target, action ≠ .copy target) :
    (t.handle (.ask other action)).1.registryOf name = t.registryOf name := by
  cases hm : t.member? other with
  | none => simp only [handle, hm]
  | some m =>
    cases action with
    | register f => exact absurd rfl (hr f)
    | copy target => exact absurd rfl (hc target)
    | redirect sink =>
      simp only [handle, hm, perform, registryOf_set]
      split
      · next h => rw [h, registryOf, hm, Option.map_some]
      · rfl
    | names | find _ | call _ _ | eval _ _ | validate _ | known => simp only [handle, hm, perform]

end

/-- An evaluator has the operators of its lineage. -/
theorem registryOf_eq_lineage (history : List Request) (name : String) :
    (empty.after history.reverse).registryOf name = (lineage history name).map Registry.ofList := by
  induction history generalizing name with
  | nil => rfl
  | cons q earlier ih =>
    rw [after_reverse_cons]
    cases q with
    | create other operators =>
      rw [registryOf_create, ih, lineage]
      split <;> rfl
    | ask other action =>
      cases action with
      | register f =>
        simp only [registryOf_register, ih, lineage]
        split
        · cases lineage earlier other with
          | none => rfl
          | some fs => exact congrArg some (Registry.ofList_append_singleton fs f).symm
        · rfl
      | copy target =>
        simp only [registryOf_copy, ih, lineage]
        split
        · cases lineage earlier other <;> rfl
        · rfl
      | redirect _ | names | find _ | call _ _ | eval _ _ | validate _ | known =>
        refine (registryOf_ask _ name other ?_ ?_).trans (ih name)
        · intro f h
          cases h
        · intro target h
          cases h

/-! ## Swapped registrations -/

/-- A session does as either of two sessions without sharing whose registries find the same, so
these answer alike. -/
theorem handleAll_set_eq {s : Session} {t : Unshared} {name : String} {m m' : Member}
    (h : s.Refines (t.set name m)) (hr : m.evaluator.registry.Same m'.evaluator.registry)
    (hsink : m.sink = m'.sink) (requests : List Request) :
    (t.set name m).handleAll requests = (t.set name m').handleAll requests := by
  have h' : s.Refines (t.set name m') := by
    refine ⟨h.sound, fun other => ?_⟩
    have hother := h.agrees other
    rw [member?_set] at hother ⊢
    split at hother
    · next heq =>
      rw [if_pos heq]
      generalize s.member? other = m? at hother
      cases hother with
      | some hagrees => exact .some ⟨hagrees.registry.trans hr, hagrees.sink.trans hsink⟩
    · next hne => rwa [if_neg hne]
  rw [← h.handleAll, h'.handleAll]

section
variable (requests later : List Request) (name : String) {f g : CustomOperator}

/-- What is asked later does not show which of two registrations came first. -/
theorem handleAll_swap_register (h : f.name ≠ g.name) :
    empty.handleAll (requests ++ .ask name (.register f) :: .ask name (.register g) :: later) =
      empty.handleAll
        (requests ++ .ask name (.register g) :: .ask name (.register f) :: later) := by
  rw [handleAll_append, handleAll_append]
  have hs := (Session.refines_start .newestFirst).after requests
  generalize empty.after requests = t at hs ⊢
  simp only [handleAll_cons]
  have hboth := ((hs.handle (.ask name (.register f))).1.handle (.ask name (.register g))).1
  cases hm : t.member? name with
  | none => simp only [handle, hm]
  | some m =>
    simp only [handle, hm, perform, member?_set, if_true, set_set] at hboth ⊢
    let swapped : Member := { m with evaluator := (m.evaluator.register g).register f }
    have hsame : ((m.evaluator.register f).register g).registry.Same swapped.evaluator.registry :=
      m.evaluator.registry.same_register_comm h
    rw [handleAll_set_eq hboth hsame rfl later]
    rfl

/-- Nor does it show when they are in the list that an evaluator is created with. -/
theorem handleAll_swap_create (earlier more : List CustomOperator) (h : f.name ≠ g.name) :
    empty.handleAll (requests ++ .create name (earlier ++ f :: g :: more) :: later) =
      empty.handleAll (requests ++ .create name (earlier ++ g :: f :: more) :: later) := by
  let swapped : Member := ⟨⟨Registry.ofList (earlier ++ g :: f :: more)⟩, name⟩
  have hsame : (Registry.ofList (earlier ++ f :: g :: more)).Same swapped.evaluator.registry := by
    show (Registry.ofList _).Same (Registry.ofList _)
    unfold Registry.ofList
    rw [List.foldl_append, List.foldl_append]
    exact ((earlier.foldl Registry.register .empty).same_register_comm h).registerAll more
  rw [handleAll_append, handleAll_append, handleAll_cons, handleAll_cons]
  have hs := (Session.refines_start .newestFirst).after requests
  generalize empty.after requests = t at hs ⊢
  have hcreated := (hs.handle (.create name (earlier ++ f :: g :: more))).1
  simp only [handle] at hcreated ⊢
  rw [handleAll_set_eq hcreated hsame rfl later]

end

end Unshared

namespace Session

/-- Behind any requests, an evaluator reads the operators of its lineage. -/
theorem holds_lineage (layout : Layout) (history : List Request) (name : String) :
    Option.Rel Registry.Holds (((start layout).after history.reverse).registryOf name)
      (lineage history name) := by
  have hs := (refines_start layout).after history.reverse
  have hlineage := Unshared.registryOf_eq_lineage history name
  have hname := hs.agrees name
  rw [Unshared.registryOf] at hlineage
  rw [registryOf]
  generalize (Unshared.empty.after history.reverse).member? name = m'? at hlineage hname
  generalize ((start layout).after history.reverse).member? name = m? at hname ⊢
  cases hname with
  | none =>
    rw [Option.map_none] at hlineage
    rw [Option.map_eq_none_iff.1 hlineage.symm]
    exact .none
  | some hagrees =>
    obtain ⟨fs, hfs, hregistry⟩ := Option.map_eq_some_iff.1 hlineage.symm
    rw [hfs]
    refine .some (Registry.Same.holds ?_ (hs.sound.heap.nodup_names _))
    rw [hregistry]
    exact hagrees.registry

/-- **The last registration of the lineage wins, and nothing else counts.**  Evaluators share
registries and write in place where they own them alone; a registry may list its operators in any
order.  Behind any requests, an evaluator finds under each name the operator of its lineage that was
registered last, and its names are those in its lineage, each once.  Requests for other evaluators,
such as its source or its copies, leave it as it is, down to the order of its operators.  No answer
depends on the orders, nor does it show, in whatever is asked later, whether two operators of
different names were registered in one order or the other. -/
theorem lineage_decides (layout : Layout) :
    (∀ history name, Option.Rel Registry.Holds
      (((start layout).after history.reverse).registryOf name) (lineage history name)) ∧
    (∀ history requests name, (∀ q ∈ requests, target? q ≠ some name) →
      let s := (start layout).after history
      (s.after requests).member? name = s.member? name ∧
        (s.after requests).registryOf name = s.registryOf name) ∧
    ∀ other : Layout,
      (∀ requests, (start layout).handleAll requests = (start other).handleAll requests) ∧
      (∀ requests later name (f g : CustomOperator), f.name ≠ g.name →
        (start layout).handleAll
            (requests ++ .ask name (.register f) :: .ask name (.register g) :: later) =
          (start other).handleAll
            (requests ++ .ask name (.register g) :: .ask name (.register f) :: later)) ∧
      ∀ requests later name earlier more (f g : CustomOperator), f.name ≠ g.name →
        (start layout).handleAll
            (requests ++ .create name (earlier ++ f :: g :: more) :: later) =
          (start other).handleAll
            (requests ++ .create name (earlier ++ g :: f :: more) :: later) := by
  refine ⟨holds_lineage layout, fun history requests name h => ?_, fun other => ⟨fun requests => ?_,
    fun requests later name f g h => ?_, fun requests later name earlier more f g h => ?_⟩⟩
  · exact ((sound_start layout).after history).after_other h
  · rw [handleAll_start, handleAll_start]
  · rw [handleAll_start, handleAll_start, Unshared.handleAll_swap_register requests later name h]
  · rw [handleAll_start, handleAll_start,
      Unshared.handleAll_swap_create requests later name earlier more h]

/-- The copy shares its registry with the source until the source registers another operator. -/
theorem lineage_decides_copy :
    let first : CustomOperator := ⟨"f", 0, 1, fun _ => .ok .null⟩
    let second : CustomOperator := ⟨"f", 1, 2, fun _ => .ok (.bool true)⟩
    let other : CustomOperator := ⟨"g", 0, 0, fun _ => .ok .null⟩
    let layout : Layout := ⟨fun _ fs => fs.reverse, fun _ fs => fs.reverse_perm⟩
    let history := [Request.create "a" [first, other], .ask "a" (.copy "b")]
    let requests := [Request.ask "a" (.register second), .ask "b" (.copy "c")]
    let s := (start layout).after history
    let addressOf := fun (s : Session) name => (s.member? name).map (·.address)
    addressOf s "a" = addressOf s "b" ∧
      Option.Rel Registry.Holds (s.registryOf "b") (some [first, other]) ∧
      (∀ q ∈ requests, target? q ≠ some "b") ∧
      (s.after requests).member? "b" = s.member? "b" ∧
      (s.after requests).registryOf "b" = s.registryOf "b" ∧
      addressOf (s.after requests) "a" ≠ addressOf (s.after requests) "b" ∧
      lineage (history ++ requests).reverse "a" = some [first, other, second] ∧
      Option.Rel Registry.Holds (((start layout).after (history ++ requests)).registryOf "a")
        (some [first, other, second]) ∧
      second.name ≠ other.name ∧
      (∀ later, (start layout).handleAll
          (.ask "b" (.register second) :: .ask "b" (.register other) :: later) =
        empty.handleAll (.ask "b" (.register other) :: .ask "b" (.register second) :: later)) ∧
      ∀ later, (start layout).handleAll (.create "b" [first, second, other] :: later) =
        empty.handleAll (.create "b" [first, other, second] :: later) := by
  intro first second other layout history requests s addressOf
  obtain ⟨hlookup, hisolated, hlayouts⟩ := lineage_decides layout
  obtain ⟨-, hregister, hcreate⟩ := hlayouts .newestFirst
  have htargets : ∀ q ∈ requests, target? q ≠ some "b" := by
    intro q hq
    rcases List.mem_pair.1 hq with rfl | rfl <;> decide
  have hne : second.name ≠ other.name := by decide
  obtain ⟨hmember, hregistry⟩ := hisolated history requests "b" htargets
  exact ⟨by decide, hlookup history.reverse "b", htargets, hmember, hregistry, by decide, rfl,
    hlookup (history ++ requests).reverse "a", hne,
    fun later => hregister [] later "b" second other hne,
    fun later => hcreate [] later "b" [first] [] second other hne⟩

end Session

end RuleLogic
