import RuleLogic.Sharing
import Mathlib.Data.List.Nodup

/-!
# Owners of registries

The number of owners of a registry is exact: it is the number of addresses by which the registry is
held.  So a registry with one owner may be written in place, and whatever one owner registers, the
others find in their registries what they found before.  Wherever a write puts the operators, the
one written is found under its name and the others under theirs.

    h.Sound (a :: others) → (h.register layout a f).1 serves that owner and leaves the others alone
                                                                              (Sound.register)
-/

namespace RuleLogic

/-! ## Registries that find the same operators -/

namespace Registry

/-- Registries that find the same operators. -/
def Same (r r' : Registry) : Prop := ∀ name, r.find? name = r'.find? name

variable {r r' : Registry}

theorem Same.trans {r'' : Registry} (h : r.Same r') (h' : r'.Same r'') : r.Same r'' :=
  fun name => (h name).trans (h' name)

theorem Same.register (h : r.Same r') (f : CustomOperator) :
    (r.register f).Same (r'.register f) := by
  intro name
  by_cases hname : name = f.name
  · rw [hname, find?_register_self, find?_register_self]
  · rw [find?_register_of_ne _ hname, find?_register_of_ne _ hname, h]

theorem Same.registerAll (h : r.Same r') (fs : List CustomOperator) :
    (fs.foldl Registry.register r).Same (fs.foldl Registry.register r') := by
  induction fs generalizing r r' with
  | nil => exact h
  | cons f rest ih => exact ih (h.register f)

/-- Where no two operators have one name, the one that is there is found. -/
theorem find?_eq_some_iff_mem (hn : r.names.Nodup) {name : String} {f : CustomOperator} :
    r.find? name = some f ↔ f ∈ r.operators ∧ f.name = name := by
  constructor
  · intro h
    exact ⟨List.mem_of_find?_eq_some h, name_of_find? h⟩
  · rintro ⟨hf, rfl⟩
    have hfound : (r.find? f.name).isSome = true := mem_names_iff.1 (List.mem_map_of_mem hf)
    obtain ⟨g, hg⟩ := Option.isSome_iff_exists.1 hfound
    rw [hg, List.inj_on_of_nodup_map hn (List.mem_of_find?_eq_some hg) hf (name_of_find? hg)]

/-- The order of the operators does not matter. -/
theorem same_of_perm (hp : r.operators.Perm r'.operators) (hn : r'.names.Nodup) : r.Same r' := by
  have hn' : r.names.Nodup := (hp.map _).nodup_iff.2 hn
  intro name
  refine Option.ext fun f => ?_
  rw [find?_eq_some_iff_mem hn', find?_eq_some_iff_mem hn, hp.mem_iff]

theorem nodup_names_register (hn : r.names.Nodup) (f : CustomOperator) :
    (r.register f).names.Nodup := by
  refine List.nodup_cons.2 ⟨fun hmem => ?_, List.Nodup.sublist (List.filter_sublist.map _) hn⟩
  obtain ⟨g, hg, hname⟩ := List.mem_map.1 hmem
  have hne := List.of_mem_filter hg
  rw [bne_iff_ne] at hne
  exact hne hname

end Registry

/-! ## Exact counts -/

namespace Heap

/-- Of the addresses that are held, with repetitions, each is allocated and counted; no registry has
two operators of one name. -/
structure Sound (h : Heap) (held : List Nat) : Prop where
  owners_eq : ∀ a, h.owners a = held.count a
  lt_next : ∀ a ∈ held, a < h.next
  nodup_names : ∀ a, (h.registry a).names.Nodup

theorem sound_empty : empty.Sound [] := ⟨fun _ => rfl, nofun, fun _ => List.nodup_nil⟩

section
variable {h : Heap} {a : Nat} {held others : List Nat}

theorem Sound.perm (hs : h.Sound held) (hp : held.Perm others) : h.Sound others :=
  ⟨fun b => (hs.owners_eq b).trans (hp.count_eq b), fun b hb => hs.lt_next b (hp.mem_iff.2 hb),
    hs.nodup_names⟩

theorem Sound.share (hs : h.Sound held) (ha : a ∈ held) : (h.share a).Sound (a :: held) where
  owners_eq b := by
    show (if b = a then h.owners a + 1 else h.owners b) = _
    rw [List.count_cons, hs.owners_eq, hs.owners_eq]
    by_cases hb : b = a
    · simp [hb]
    · simp [hb, Ne.symm hb]
  lt_next b hb := (List.mem_cons.1 hb).elim (fun hb => hb ▸ hs.lt_next a ha) (hs.lt_next b)
  nodup_names := hs.nodup_names

theorem Sound.release (hs : h.Sound (a :: others)) : (h.release a).Sound others where
  owners_eq b := by
    have hcount := hs.owners_eq b
    rw [List.count_cons] at hcount
    show (if b = a then h.owners a - 1 else h.owners b) = _
    by_cases hb : b = a
    · subst hb
      simp [hcount]
    · simpa [hb, Ne.symm hb] using hcount
  lt_next b hb := hs.lt_next b (List.mem_cons_of_mem a hb)
  nodup_names := hs.nodup_names

theorem Sound.next_not_mem (hs : h.Sound held) : h.next ∉ held :=
  fun hmem => Nat.lt_irrefl _ (hs.lt_next _ hmem)

theorem Sound.allocate (hs : h.Sound held) {r : Registry} (hr : r.names.Nodup) :
    (h.allocate r).Sound (h.next :: held) where
  owners_eq b := by
    show (if b = h.next then 1 else h.owners b) = _
    rw [List.count_cons, hs.owners_eq]
    by_cases hb : b = h.next
    · simp [hb, List.count_eq_zero.2 hs.next_not_mem]
    · simp [hb, Ne.symm hb]
  lt_next b hb := by
    rcases List.mem_cons.1 hb with rfl | hb
    · exact Nat.lt_succ_self _
    · exact Nat.lt_succ_of_lt (hs.lt_next b hb)
  nodup_names b := by
    show (if b = h.next then r else h.registry b).names.Nodup
    split
    · exact hr
    · exact hs.nodup_names b

/-- What is done for one owner: it now holds an address `b`, and the registries of the others are as
they were. -/
structure Serves (h : Heap) (others : List Nat) (h' : Heap) (b : Nat) : Prop where
  sound : h'.Sound (b :: others)
  registry_eq : ∀ c ∈ others, h'.registry c = h.registry c

theorem Serves.trans {h' h'' : Heap} {b c : Nat} (hs : h.Serves others h' b)
    (hs' : h'.Serves others h'' c) : h.Serves others h'' c :=
  ⟨hs'.sound, fun d hd => (hs'.registry_eq d hd).trans (hs.registry_eq d hd)⟩

theorem Sound.serves_allocate (hs : h.Sound others) {r : Registry} (hr : r.names.Nodup) :
    h.Serves others (h.allocate r) h.next := by
  refine ⟨hs.allocate hr, fun c hc => if_neg ?_⟩
  rintro rfl
  exact hs.next_not_mem hc

/-- An owner gets a registry of its own with what it had. -/
theorem Sound.own (hs : h.Sound (a :: others)) :
    h.Serves others (h.own a).1 (h.own a).2 ∧ (h.own a).2 ∉ others ∧
      (h.own a).1.registry (h.own a).2 = h.registry a := by
  unfold Heap.own
  split
  · next hone =>
    rw [hs.owners_eq, List.count_cons_self, Nat.add_eq_right] at hone
    exact ⟨⟨hs, fun _ _ => rfl⟩, List.count_eq_zero.1 hone, rfl⟩
  · have hcopy := hs.release.serves_allocate (hs.nodup_names a)
    exact ⟨⟨hcopy.sound, hcopy.registry_eq⟩, hs.release.next_not_mem, if_pos rfl⟩

/-- What is written into a registry of one owner is found there, and the others are left alone. -/
theorem Sound.insert (hs : h.Sound (a :: others)) (ha : a ∉ others) (layout : Layout)
    (f : CustomOperator) : h.Serves others (h.insert layout a f) a ∧
      ((h.insert layout a f).registry a).Same ((h.registry a).register f) := by
  have hn := Registry.nodup_names_register (hs.nodup_names a) f
  have hp := layout.perm h.writes ((h.registry a).register f).operators
  have hself : (h.insert layout a f).registry a =
      ⟨layout.arrange h.writes ((h.registry a).register f).operators⟩ := if_pos rfl
  have hother {b : Nat} (hb : b ≠ a) : (h.insert layout a f).registry b = h.registry b := if_neg hb
  refine ⟨⟨⟨hs.owners_eq, hs.lt_next, fun b => ?_⟩, fun b hb => hother ?_⟩, ?_⟩
  · by_cases hb : b = a
    · rw [hb, hself]
      exact (hp.map _).nodup_iff.2 hn
    · rw [hother hb]
      exact hs.nodup_names b
  · rintro rfl
    exact ha hb
  · rw [hself]
    exact Registry.same_of_perm hp hn

/-- One owner registers an operator and the others notice nothing. -/
theorem Sound.register (hs : h.Sound (a :: others)) (layout : Layout) (f : CustomOperator) :
    h.Serves others (h.register layout a f).1 (h.register layout a f).2 ∧
      ((h.register layout a f).1.registry (h.register layout a f).2).Same
        ((h.registry a).register f) := by
  obtain ⟨hown, hnot, hsame⟩ := hs.own
  obtain ⟨hinsert, hfound⟩ := hown.sound.insert hnot layout f
  rw [hsame] at hfound
  exact ⟨hown.trans hinsert, hfound⟩

/-- Operators registered one after the other for one owner. -/
theorem Sound.registerAll (hs : h.Sound (a :: others)) (layout : Layout)
    (fs : List CustomOperator) :
    let last := fs.foldl (fun (h, a) f => h.register layout a f) (h, a)
    h.Serves others last.1 last.2 ∧
      (last.1.registry last.2).Same (fs.foldl .register (h.registry a)) := by
  induction fs generalizing h a with
  | nil => exact ⟨⟨hs, fun _ _ => rfl⟩, fun _ => rfl⟩
  | cons f rest ih =>
    obtain ⟨hfirst, hfound⟩ := hs.register layout f
    obtain ⟨hrest, hall⟩ := ih hfirst.sound
    exact ⟨hfirst.trans hrest, hall.trans (hfound.registerAll rest)⟩

theorem Sound.create (hs : h.Sound others) (layout : Layout) (fs : List CustomOperator) :
    h.Serves others (h.create layout fs).1 (h.create layout fs).2 ∧
      ((h.create layout fs).1.registry (h.create layout fs).2).Same (.ofList fs) := by
  have hnew := hs.serves_allocate (r := .empty) List.nodup_nil
  obtain ⟨hrest, hall⟩ := hnew.sound.registerAll layout fs
  have hempty : (h.allocate .empty).registry h.next = .empty := if_pos rfl
  rw [hempty] at hall
  exact ⟨hnew.trans hrest, hall⟩

end

end Heap

end RuleLogic
