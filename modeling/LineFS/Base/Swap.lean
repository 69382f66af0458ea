import Mathlib.Data.List.Basic
import Mathlib.Data.List.Perm.Basic

/-! Removal from a list by moving its last element into the hole. -/
namespace LineFS.Base
open scoped List

universe u
variable {α : Type u} {xs : List α} {i : Nat}

def swapRemove (xs : List α) (i : Nat) : List α :=
  match xs.getLast? with
  | none => []
  | some l => xs.dropLast.set i l

@[simp] theorem swapRemoveConcat (ys : List α) (l : α) (i : Nat) : swapRemove (ys ++ [l]) i = ys.set i l := by
  simp [swapRemove]

theorem swapRemoveLength (xs : List α) (i : Nat) : (swapRemove xs i).length = xs.length - 1 := by
  rcases List.eq_nil_or_concat xs with rfl | ⟨ys,l,rfl⟩
  · rfl
  · simp

theorem swapRemoveGet (inside : i < xs.length) (j : Nat) : (swapRemove xs i)[j]? =
    if j + 1 < xs.length then if j = i then xs[xs.length - 1]? else xs[j]? else none := by
  rcases List.eq_nil_or_concat xs with rfl | ⟨ys,l,rfl⟩
  · simp at inside
  · simp only [List.concat_eq_append,swapRemoveConcat,List.length_append,List.length_singleton] at inside ⊢
    by_cases below : j < ys.length
    · rw [if_pos (by omega),List.getElem?_set]
      by_cases here : j = i
      · subst here
        simp [below]
      · rw [if_neg (Ne.symm here),if_neg here,List.getElem?_append_left below]
    · rw [if_neg (by omega),List.getElem?_eq_none (by simpa using below)]

theorem swapRemovePerm {x : α} (found : xs[i]? = some x) : (x::swapRemove xs i).Perm xs := by
  rcases List.eq_nil_or_concat xs with rfl | ⟨ys,l,rfl⟩
  · simp at found
  · simp only [List.concat_eq_append] at found ⊢
    rw [swapRemoveConcat]
    have last : (ys ++ [l]).Perm (l::ys) := List.perm_append_comm
    refine .trans ?_ last.symm
    by_cases inside : i < ys.length
    · rw [List.getElem?_append_left inside,List.getElem?_eq_getElem inside] at found
      have whole := List.getElem_cons_eraseIdx_perm inside
      rw [Option.some.inj found] at whole
      calc x::ys.set i l
        _ ~ x::l::ys.eraseIdx i := (List.set_perm_cons_eraseIdx inside l).cons x
        _ ~ l::x::ys.eraseIdx i := List.Perm.swap ..
        _ ~ l::ys := whole.cons l
    · have bound := (List.getElem?_eq_some_iff.mp found).1
      have here : i = ys.length := by simp at bound; omega
      subst here
      rw [List.getElem?_concat_length] at found
      rw [← Option.some.inj found,List.set_eq_of_length_le (Nat.le_refl _)]

end LineFS.Base
