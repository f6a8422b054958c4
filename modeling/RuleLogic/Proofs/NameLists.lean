import RuleLogic.Names
import Mathlib.Data.String.Basic
import Mathlib.Data.List.Sort

/-!
# Ascending lists of names

Sorting gives a strictly ascending list, so the list says which names there are and nothing else:
neither the order in which they were given nor how often shows.

    (sort names).Pairwise (· < ·)                                    (pairwise_sort)
    xs and ys hold the same names → sort xs = sort ys                (sort_congr)
-/

namespace RuleLogic.Names

theorem pairwise_insert {name : String} {names : List String} (h : names.Pairwise (· < ·)) :
    (insert name names).Pairwise (· < ·) := by
  induction names with
  | nil => exact List.pairwise_singleton _ _
  | cons first rest ih =>
    have hfirst := (List.pairwise_cons.1 h).1
    have hrest := (List.pairwise_cons.1 h).2
    unfold insert
    split
    · next hlt =>
      refine List.pairwise_cons.2 ⟨fun other hother => ?_, h⟩
      rcases List.mem_cons.1 hother with rfl | hother
      · exact hlt
      · exact hlt.trans (hfirst other hother)
    · next hge =>
      split
      · exact h
      · next hne =>
        refine List.pairwise_cons.2 ⟨fun other hother => ?_, ih hrest⟩
        rcases mem_insert.1 hother with rfl | hother
        · exact lt_of_le_of_ne (not_lt.1 hge) (Ne.symm hne)
        · exact hfirst other hother

theorem pairwise_sort (names : List String) : (sort names).Pairwise (· < ·) := by
  induction names with
  | nil => exact List.Pairwise.nil
  | cons name rest ih => exact pairwise_insert ih

theorem sort_congr {xs ys : List String} (h : ∀ name, name ∈ xs ↔ name ∈ ys) :
    sort xs = sort ys := by
  refine (pairwise_sort xs).eq_of_mem_iff (pairwise_sort ys) fun name => ?_
  rw [mem_sort, mem_sort, h]

end RuleLogic.Names
