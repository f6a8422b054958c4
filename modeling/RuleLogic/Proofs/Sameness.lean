import Mathlib.Data.List.Forall2
import Mathlib.Data.List.Perm.Subperm
import RuleLogic.Proofs.Contents

/-!
# Structural equality

Two arrays are the same when they are as long and hold the same at every index, two objects when
they have the same keys and the same under every key.  On values in which no object has a key twice
structural equality is an equivalence, and does not see the order of entries.

    same (.arr xs) (.arr ys) ↔ xs and ys agree index by index                       (same_arr_iff)
    same (.obj es) (.obj fs) ↔ es and fs agree key by key                           (same_obj_iff)
-/

namespace RuleLogic

/-! ## Numbers -/

namespace Number

variable {a b c : Number}

theorem same_refl (a : Number) : a.same a = true := by
  cases a with
  | int n _ => exact beq_self_eq_true n
  | double x => exact Double.sameValue_iff.2 rfl

theorem same_symm (h : a.same b = true) : b.same a = true := by
  cases a with
  | int n _ =>
    cases b with
    | int m _ => exact beq_iff_eq.2 (eq_of_beq h).symm
    | double _ => cases h
  | double x =>
    cases b with
    | int _ _ => cases h
    | double y => exact Double.sameValue_iff.2 (Double.sameValue_iff.1 h).symm

theorem same_trans (hab : a.same b = true) (hbc : b.same c = true) : a.same c = true := by
  cases b with
  | int m _ =>
    cases a with
    | double _ => cases hab
    | int n _ =>
      cases c with
      | double _ => cases hbc
      | int k _ => exact beq_iff_eq.2 ((eq_of_beq hab).trans (eq_of_beq hbc))
  | double y =>
    cases a with
    | int _ _ => cases hab
    | double x =>
      cases c with
      | int _ _ => cases hbc
      | double z =>
        exact Double.sameValue_iff.2
          ((Double.sameValue_iff.1 hab).trans (Double.sameValue_iff.1 hbc))

end Number

namespace Value

/-! ## Lists and look-ups related item by item -/

section
variable {R S T : Value → Value → Prop} {xs ys zs : List Value}
variable {found found' found'' : Option Value}

theorem forall₂_swap (h : List.Forall₂ R xs ys) (hs : ∀ x ∈ xs, ∀ y ∈ ys, R x y → S y x) :
    List.Forall₂ S ys xs := by
  induction h with
  | nil => exact .nil
  | cons hxy _ ih =>
    refine .cons (hs _ List.mem_cons_self _ List.mem_cons_self hxy) (ih fun x hx y hy => ?_)
    exact hs x (List.mem_cons_of_mem _ hx) y (List.mem_cons_of_mem _ hy)

theorem forall₂_chain (hxy : List.Forall₂ R xs ys) (hyz : List.Forall₂ S ys zs)
    (ht : ∀ x ∈ xs, ∀ y ∈ ys, ∀ z ∈ zs, R x y → S y z → T x z) : List.Forall₂ T xs zs := by
  induction hxy generalizing zs with
  | nil =>
    cases hyz
    exact .nil
  | cons hx _ ih =>
    cases hyz with
    | cons hy hrest =>
      refine .cons (ht _ List.mem_cons_self _ List.mem_cons_self _ List.mem_cons_self hx hy) ?_
      refine ih hrest fun x hx y hy z hz => ?_
      exact ht x (List.mem_cons_of_mem _ hx) y (List.mem_cons_of_mem _ hy) z
        (List.mem_cons_of_mem _ hz)

theorem forall₂_and_iff : List.Forall₂ (fun x y => R x y ∧ S x y) xs ys ↔
    List.Forall₂ R xs ys ∧ List.Forall₂ S xs ys := by
  induction xs generalizing ys with
  | nil => simp
  | cons x xs ih =>
    cases ys with
    | nil => simp
    | cons y ys =>
      rw [List.forall₂_cons, List.forall₂_cons, List.forall₂_cons, ih]
      exact and_and_and_comm

theorem eq_none_iff_of_rel (h : Option.Rel R found found') : found = none ↔ found' = none := by
  cases h <;> simp

theorem exists_of_rel {x : Value} (h : Option.Rel R found found') (hx : found = some x) :
    ∃ y, found' = some y ∧ R x y := by
  cases h with
  | none => cases hx
  | some hxy =>
    cases hx
    exact ⟨_, rfl, hxy⟩

theorem rel_and_iff : Option.Rel (fun x y => R x y ∧ S x y) found found' ↔
    Option.Rel R found found' ∧ Option.Rel S found found' := by
  constructor
  · rintro (h | _)
    · exact ⟨.some h.1, .some h.2⟩
    · exact ⟨.none, .none⟩
  · rintro ⟨h | _, hS⟩
    · cases hS with
      | some h' => exact .some ⟨h, h'⟩
    · exact .none

theorem rel_swap (h : Option.Rel R found found')
    (hs : ∀ x y, found = some x → found' = some y → R x y → S y x) : Option.Rel S found' found := by
  cases h with
  | none => exact .none
  | some hxy => exact .some (hs _ _ rfl rfl hxy)

theorem rel_chain (hxy : Option.Rel R found found') (hyz : Option.Rel S found' found'')
    (ht : ∀ x y z, found = some x → found' = some y → found'' = some z → R x y → S y z → T x z) :
    Option.Rel T found found'' := by
  cases hxy with
  | none =>
    cases hyz
    exact .none
  | some hx =>
    cases hyz with
    | some hy => exact .some (ht _ _ _ rfl rfl rfl hx hy)

end

section
variable {u v w : Value} {xs ys : List Value} {es fs : List (String × Value)}

/-! ## Arrays and objects -/

theorem sameItems_iff :
    sameItems xs ys = true ↔ List.Forall₂ (fun x y => x.same y = true) xs ys := by
  induction xs generalizing ys with
  | nil => cases ys <;> simp [sameItems]
  | cons x xs ih => cases ys <;> simp [sameItems, ih]

theorem same_arr_iff :
    (Value.arr xs).same (.arr ys) = true ↔ List.Forall₂ (fun x y => x.same y = true) xs ys := by
  rw [same, sameItems_iff]

theorem within_iff : within es fs = true ↔
    ∀ key x, (key, x) ∈ es → ∃ y, find? key fs = some y ∧ x.same y = true := by
  induction es with
  | nil => simp [within]
  | cons entry rest ih =>
    obtain ⟨k, v⟩ := entry
    rw [within, Bool.and_eq_true, ih, Option.any_eq_true]
    constructor
    · rintro ⟨hv, hrest⟩ key x hx
      rcases List.mem_cons.1 hx with heq | hx
      · cases heq
        exact hv
      · exact hrest key x hx
    · intro h
      exact ⟨h k v List.mem_cons_self, fun key x hx => h key x (List.mem_cons_of_mem _ hx)⟩

/-- Keys that are all among as many other keys are the same keys. -/
theorem keys_perm_of_within (hes : (es.map Prod.fst).Nodup) (hlen : es.length = fs.length)
    (h : within es fs = true) : (es.map Prod.fst).Perm (fs.map Prod.fst) := by
  have hsub : es.map Prod.fst ⊆ fs.map Prod.fst := by
    intro key hkey
    obtain ⟨⟨k, x⟩, hx, rfl⟩ := List.mem_map.1 hkey
    obtain ⟨y, hy, -⟩ := within_iff.1 h k x hx
    exact List.mem_map.2 ⟨(k, y), mem_of_find? hy, rfl⟩
  refine (hes.subperm hsub).perm_of_length_le (Nat.le_of_eq ?_)
  rw [List.length_map, List.length_map, hlen]

theorem same_obj_iff (hes : (es.map Prod.fst).Nodup) (hfs : (fs.map Prod.fst).Nodup) :
    (Value.obj es).same (.obj fs) = true ↔
      ∀ key, Option.Rel (fun x y => x.same y = true) (find? key es) (find? key fs) := by
  rw [same, Bool.and_eq_true, beq_iff_eq]
  constructor
  · -- every key of `es` is found in `fs`, and there are no more of them
    rintro ⟨hlen, hw⟩ key
    cases hx : find? key es with
    | none =>
      have hkey : key ∉ fs.map Prod.fst := by
        rw [← (keys_perm_of_within hes hlen hw).mem_iff]
        exact find?_eq_none_iff.1 hx
      rw [find?_eq_none_iff.2 hkey]
      exact .none
    | some x =>
      obtain ⟨y, hy, hxy⟩ := within_iff.1 hw key x (mem_of_find? hx)
      rw [hy]
      exact .some hxy
  · intro h
    have hkeys : (es.map Prod.fst).Perm (fs.map Prod.fst) := by
      refine (List.perm_ext_iff_of_nodup hes hfs).2 fun key => ?_
      rw [← not_iff_not, ← find?_eq_none_iff, ← find?_eq_none_iff]
      exact eq_none_iff_of_rel (h key)
    refine ⟨by simpa using hkeys.length_eq, within_iff.2 fun key x hx => ?_⟩
    exact exists_of_rel (h key) ((find?_eq_some_iff_of_nodup hes).2 hx)

/-! ## An equivalence -/

/-- How two values can be structurally equal. -/
inductive SameForms : Value → Value → Prop
  | null : SameForms .null .null
  | bool (b : Bool) : SameForms (.bool b) (.bool b)
  | num {a b : Number} (h : a.same b = true) : SameForms (.num a) (.num b)
  | str (s : String) : SameForms (.str s) (.str s)
  | arr {xs ys : List Value} (h : List.Forall₂ (fun x y => x.same y = true) xs ys) :
    SameForms (.arr xs) (.arr ys)
  | obj {es fs : List (String × Value)} (h : (Value.obj es).same (.obj fs) = true) :
    SameForms (.obj es) (.obj fs)

theorem sameForms_of_same (h : v.same w = true) : SameForms v w := by
  unfold same at h
  split at h
  · exact .null
  · rw [eq_of_beq h]
    exact .bool _
  · exact .num h
  · rw [eq_of_beq h]
    exact .str _
  · exact .arr (sameItems_iff.1 h)
  · refine .obj ?_
    rw [same]
    exact h
  · cases h

theorem kind_eq_of_same (h : v.same w = true) : v.kind = w.kind := by
  cases sameForms_of_same h <;> rfl

theorem same_refl (hv : v.UniqueKeys) : v.same v = true := by
  induction v using held_induction with
  | h v ih =>
    cases v with
    | null => rfl
    | bool b => exact beq_self_eq_true b
    | num n => exact n.same_refl
    | str s => exact beq_self_eq_true s
    | arr xs =>
      rw [same_arr_iff, List.forall₂_same]
      exact fun x hx => ih x hx (hv.of_mem_held hx)
    | obj es =>
      rw [same_obj_iff hv.nodup hv.nodup]
      intro key
      cases hx : find? key es with
      | none => exact .none
      | some x =>
        have hheld := mem_held_of_find? hx
        exact .some (ih x hheld (hv.of_mem_held hheld))

theorem same_symm (hv : v.UniqueKeys) (hw : w.UniqueKeys) (h : v.same w = true) :
    w.same v = true := by
  induction v using held_induction generalizing w with
  | h v ih =>
    have hheld {x y : Value} (hx : x ∈ v.held) (hy : y ∈ w.held) (hxy : x.same y = true) :
        y.same x = true := ih x hx (hv.of_mem_held hx) (hw.of_mem_held hy) hxy
    cases sameForms_of_same h with
    | null | bool | str => exact h
    | num hn => exact Number.same_symm hn
    | arr hxs => exact same_arr_iff.2 (forall₂_swap hxs fun x hx y hy hxy => hheld hx hy hxy)
    | obj hes =>
      rw [same_obj_iff hv.nodup hw.nodup] at hes
      rw [same_obj_iff hw.nodup hv.nodup]
      refine fun key => rel_swap (hes key) fun x y hx hy hxy => ?_
      exact hheld (mem_held_of_find? hx) (mem_held_of_find? hy) hxy

theorem same_trans (hu : u.UniqueKeys) (hv : v.UniqueKeys) (hw : w.UniqueKeys)
    (huv : u.same v = true) (hvw : v.same w = true) : u.same w = true := by
  induction u using held_induction generalizing v w with
  | h u ih =>
    have hheld {x y z : Value} (hx : x ∈ u.held) (hy : y ∈ v.held) (hz : z ∈ w.held)
        (hxy : x.same y = true) (hyz : y.same z = true) : x.same z = true :=
      ih x hx (hu.of_mem_held hx) (hv.of_mem_held hy) (hw.of_mem_held hz) hxy hyz
    cases sameForms_of_same huv with
    | null | bool | str => exact hvw
    | num hab =>
      cases sameForms_of_same hvw with
      | num hbc => exact Number.same_trans hab hbc
    | arr hxy =>
      cases sameForms_of_same hvw with
      | arr hyz =>
        exact same_arr_iff.2 (forall₂_chain hxy hyz fun x hx y hy z hz => hheld hx hy hz)
    | obj hes =>
      cases sameForms_of_same hvw with
      | obj hfs =>
        rw [same_obj_iff hu.nodup hv.nodup] at hes
        rw [same_obj_iff hv.nodup hw.nodup] at hfs
        rw [same_obj_iff hu.nodup hw.nodup]
        refine fun key => rel_chain (hes key) (hfs key) fun x y z hx hy hz => ?_
        exact hheld (mem_held_of_find? hx) (mem_held_of_find? hy) (mem_held_of_find? hz)

/-- The order of entries is not seen. -/
theorem same_of_perm (hp : es.Perm fs) (h : (Value.obj es).UniqueKeys) :
    (Value.obj es).same (.obj fs) = true := by
  have hfs : (fs.map Prod.fst).Nodup := (hp.map Prod.fst).nodup_iff.1 h.nodup
  have hrefl := same_refl h
  rw [same_obj_iff h.nodup h.nodup] at hrefl
  rw [same_obj_iff h.nodup hfs]
  intro key
  rw [← find?_eq_of_perm hp h.nodup]
  exact hrefl key

end

end Value

end RuleLogic
