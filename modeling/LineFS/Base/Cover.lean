import Mathlib.Data.List.Pairwise
import Mathlib.Data.List.Count
import Mathlib.Data.List.Flatten
import Mathlib.Algebra.BigOperators.Group.List.Basic
import Mathlib.Algebra.GroupWithZero.Nat

/-! Closed stretches of numbers and how often a list of them covers a number. A list
that covers every number of a set once and no other number is a partition of the set;
splitting and joining stretches keeps the count. -/
namespace LineFS.Base

structure Stretch where
  low : Nat
  high : Nat
  deriving DecidableEq, Repr

namespace Stretch
variable (r : Stretch) (b : Nat)

def Has : Prop := r.low ≤ b ∧ b ≤ r.high
deriving Decidable
def size : Nat := r.high + 1 - r.low
def Proper : Prop := r.low ≤ r.high

end Stretch

def Separate (r q : Stretch) : Prop := ∀ b, ¬(r.Has b ∧ q.Has b)

def cover (rs : List Stretch) (b : Nat) : Nat := rs.countP fun r => decide (r.Has b)
def sizes (rs : List Stretch) : Nat := (rs.map Stretch.size).sum

variable {rs qs : List Stretch} {r : Stretch} {b : Nat}

@[simp] theorem coverNil : cover [] b = 0 := rfl
@[simp] theorem coverCons : cover (r::rs) b = cover rs b + if r.low ≤ b ∧ b ≤ r.high then 1 else 0 := by
  rw [cover,List.countP_cons]
  by_cases has : r.Has b
  · rw [if_pos (decide_eq_true has),if_pos (show r.low ≤ b ∧ b ≤ r.high from has)]; rfl
  · rw [if_neg (by simpa using has),if_neg (show ¬(r.low ≤ b ∧ b ≤ r.high) from has)]; rfl
@[simp] theorem coverAppend : cover (rs ++ qs) b = cover rs b + cover qs b := List.countP_append
@[simp] theorem sizesNil : sizes [] = 0 := rfl
@[simp] theorem sizesCons : sizes (r::rs) = r.size + sizes rs := by simp [sizes]
@[simp] theorem sizesAppend : sizes (rs ++ qs) = sizes rs + sizes qs := by simp [sizes]

theorem coverPos : 0 < cover rs b ↔ ∃ r ∈ rs, r.Has b := by
  simp only [cover,List.countP_pos_iff,decide_eq_true_eq]

theorem coverZero : cover rs b = 0 ↔ ∀ r ∈ rs, ¬r.Has b := by
  simp only [cover,List.countP_eq_zero,decide_eq_true_eq]

theorem coverPairwise (once : ∀ b, cover rs b ≤ 1) : rs.Pairwise Separate := by
  induction rs with
  | nil => exact .nil
  | cons r rs ih =>
    simp only [coverCons] at once
    refine List.pairwise_cons.mpr ⟨fun q mem b both => ?_,ih fun b => Nat.le_trans (Nat.le_add_right _ _) (once b)⟩
    have here := once b
    have there := coverPos.mpr ⟨q,mem,both.2⟩
    rw [if_pos ⟨both.1.1,both.1.2⟩] at here
    omega

theorem coverErase {i : Nat} (found : rs[i]? = some r) (b : Nat) :
    cover rs b = cover (rs.eraseIdx i) b + if r.low ≤ b ∧ b ≤ r.high then 1 else 0 := by
  induction rs generalizing i with
  | nil => simp at found
  | cons q rs ih =>
    cases i with
    | zero => cases found; simp
    | succ i =>
      have rest := ih found
      simp only [List.eraseIdx_cons_succ,coverCons]
      omega

theorem coverSet {α : Type} {f : α → List Stretch} {l : List α} {i : Nat} {x y : α} (found : l[i]? = some x) (b : Nat) :
    cover ((l.set i y).flatMap f) b + cover (f x) b = cover (l.flatMap f) b + cover (f y) b := by
  induction l generalizing i with
  | nil => simp at found
  | cons z l ih =>
    cases i with
    | zero =>
      cases found
      simp only [List.set_cons_zero,List.flatMap_cons,coverAppend]
      omega
    | succ i =>
      have rest := ih found
      simp only [List.set_cons_succ,List.flatMap_cons,coverAppend]
      omega

theorem stretchCount {n : Nat} (proper : r.Proper) (inside : r.high < n) :
    ((List.range n).map fun b => if r.low ≤ b ∧ b ≤ r.high then 1 else 0).sum = r.size := by
  have part (m : Nat) : ((List.range m).map fun b => if r.low ≤ b ∧ b ≤ r.high then 1 else 0).sum =
      min m (r.high + 1) - r.low := by
    induction m with
    | zero => simp
    | succ m ih =>
      simp only [List.range_succ,List.map_append,List.map_cons,List.map_nil,List.sum_append,List.sum_singleton,ih]
      split_ifs <;> omega
  simp only [part,Stretch.Proper,Stretch.size] at *
  omega

theorem sizesCount {n : Nat} (proper : ∀ r ∈ rs, r.Proper) (inside : ∀ r ∈ rs, r.high < n) (once : ∀ b, cover rs b ≤ 1) :
    sizes rs = (List.range n).countP fun b => decide (∃ r ∈ rs, r.Has b) := by
  have total : sizes rs = ((List.range n).map fun b => cover rs b).sum := by
    clear once
    induction rs with
    | nil => simp
    | cons r rs ih =>
      have rest := ih (fun q mem => proper q (.tail _ mem)) (fun q mem => inside q (.tail _ mem))
      have first := stretchCount (proper r (.head _)) (inside r (.head _))
      simp only [sizesCons,coverCons,List.sum_map_add,rest,first,Nat.add_comm]
  rw [total]
  generalize List.range n = bs
  induction bs with
  | nil => rfl
  | cons b bs ih =>
    have here := once b
    rw [List.map_cons,List.sum_cons,ih,List.countP_cons]
    simp only [decide_eq_true_eq,← coverPos]
    split_ifs <;> omega

end LineFS.Base
