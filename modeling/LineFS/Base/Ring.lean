import Mathlib.Data.List.Chain
import Mathlib.Algebra.GroupWithZero.Nat

/-! Spans of a circular buffer with addresses `lo ≤ a < hi`. A span carries the lap it was laid
in. It follows another one when it starts where that one stops, or at `lo` in the next lap because
it did not fit below `hi`. -/
namespace LineFS.Base

open List (getLastD_cons isChain_cons_cons mem_cons mem_singleton pairwise_cons)

structure Span where
  start : Nat
  len : Nat
  lap : Nat
  deriving DecidableEq, Repr

def Span.stop (x : Span) : Nat := x.start + x.len

def Apart (x y : Span) : Prop := x.stop ≤ y.start ∨ y.stop ≤ x.start
deriving Decidable

variable {x y : Span}

theorem Apart.symm (h : Apart x y) : Apart y x := Or.symm h

def Follows (lo hi : Nat) (x y : Span) : Prop :=
  y.lap = x.lap ∧ y.start = x.stop ∨ y.lap = x.lap + 1 ∧ y.start = lo ∧ hi < x.stop + y.len

def Before (x y : Span) : Prop := x.lap < y.lap ∨ x.lap = y.lap ∧ x.stop ≤ y.start

instance : Trans Before Before Before where
  trans := by
    intro x y z first second
    simp only [Before,Span.stop] at *
    omega

def blocks (xs : List Span) : Nat := (xs.map Span.len).sum
@[simp] theorem blocksNil : blocks [] = 0 := rfl
@[simp] theorem blocksCons (x xs) : blocks (x::xs) = x.len + blocks xs := by simp [blocks]
@[simp] theorem blocksAppend (xs ys) : blocks (xs ++ ys) = blocks xs + blocks ys := by simp [blocks]

variable {lo hi : Nat} {c : Span} {xs : List Span}

theorem followsBefore (h : Follows lo hi x y) : Before x y := by
  rcases h with ⟨lap,start⟩ | ⟨lap,_⟩
  · exact .inr ⟨lap.symm,Nat.le_of_eq start.symm⟩
  · exact .inl (by omega)

theorem laidPairwise (laid : xs.IsChain (Follows lo hi)) : xs.Pairwise Before :=
  List.isChain_iff_pairwise.mp (laid.imp fun _ _ => followsBefore)

theorem laidFirst (laid : (c::xs).IsChain (Follows lo hi)) (mem : x ∈ xs) : Before c x :=
  (pairwise_cons.mp (laidPairwise laid)).1 x mem

theorem laidLast (laid : (xs ++ [y]).IsChain (Follows lo hi)) (mem : x ∈ xs) : Before x y :=
  (List.pairwise_append.mp (laidPairwise laid)).2.2 x mem y (mem_singleton.mpr rfl)

theorem laidSnoc {R : Span → Span → Prop} (laid : (c::xs).IsChain R) (next : R (xs.getLastD c) y) :
    (c::(xs ++ [y])).IsChain R := by
  induction xs generalizing c with
  | nil => simpa using next
  | cons x xs ih =>
    obtain ⟨first,rest⟩ := isChain_cons_cons.mp laid
    refine isChain_cons_cons.mpr ⟨first,ih rest ?_⟩
    rwa [getLastD_cons] at next

theorem lastAppend (xs ys : List Span) : (xs ++ ys).getLastD c = ys.getLastD (xs.getLastD c) := by
  induction xs generalizing c with
  | nil => rfl
  | cons x xs ih => simp only [List.cons_append,getLastD_cons,ih]

theorem lastMem : xs.getLastD c ∈ c::xs := by
  induction xs generalizing c with
  | nil => simp
  | cons x xs ih => rw [getLastD_cons]; exact .tail _ ih

theorem lastMemSome (some : xs ≠ []) : xs.getLastD c ∈ xs := by
  obtain ⟨y,ys,rfl⟩ := List.exists_cons_of_ne_nil some
  rw [getLastD_cons]
  exact lastMem

theorem laidRest {R : Span → Span → Prop} {ys : List Span} (laid : (c::(xs ++ ys)).IsChain R) :
    (xs.getLastD c::ys).IsChain R := by
  induction xs generalizing c with
  | nil => exact laid
  | cons x xs ih => rw [getLastD_cons]; exact ih (isChain_cons_cons.mp laid).2

theorem laidAppend {ys : List Span} (first : (c::xs).IsChain (Follows lo hi))
    (second : (xs.getLastD c::ys).IsChain (Follows lo hi)) : (c::(xs ++ ys)).IsChain (Follows lo hi) := by
  induction xs generalizing c with
  | nil => exact second
  | cons x xs ih =>
    obtain ⟨follows,rest⟩ := isChain_cons_cons.mp first
    rw [getLastD_cons] at second
    exact isChain_cons_cons.mpr ⟨follows,ih rest second⟩

section
variable (laid : (c::xs).IsChain (Follows lo hi))
include laid

theorem laidLapLe (mem : x ∈ c::xs) :
    x.lap ≤ (xs.getLastD c).lap := by
  induction xs generalizing c x with
  | nil => cases mem_singleton.mp mem; exact Nat.le_refl _
  | cons y ys ih =>
    obtain ⟨first,rest⟩ := isChain_cons_cons.mp laid
    rw [getLastD_cons]
    rcases mem_cons.mp mem with rfl | later
    · have bound := ih rest (.head _)
      rcases first with ⟨lap,_⟩ | ⟨lap,_⟩ <;> omega
    · exact ih rest later

theorem laidStopLe (mem : x ∈ c::xs) (same : x.lap = (xs.getLastD c).lap) : x.stop ≤ (xs.getLastD c).stop := by
  induction xs generalizing c x with
  | nil => cases mem_singleton.mp mem; exact Nat.le_refl _
  | cons y ys ih =>
    obtain ⟨first,rest⟩ := isChain_cons_cons.mp laid
    rw [getLastD_cons] at same ⊢
    rcases mem_cons.mp mem with rfl | later
    · have lap := laidLapLe rest (.head _)
      rcases first with ⟨lapFirst,start⟩ | ⟨lapFirst,_⟩
      · have below := ih rest (.head _) (by omega)
        simp only [Span.stop] at *
        omega
      · omega
    · exact ih rest later same

theorem laidOneLap (same : (xs.getLastD c).lap = c.lap) :
    (xs.getLastD c).stop = c.stop + blocks xs := by
  induction xs generalizing c with
  | nil => simp
  | cons x xs ih =>
    obtain ⟨first,rest⟩ := isChain_cons_cons.mp laid
    have later := laidLapLe rest (.head _)
    simp only [getLastD_cons] at same ⊢
    rcases first with ⟨lap,start⟩ | ⟨lap,_⟩
    · rw [ih rest (by omega)]
      simp only [blocksCons,Span.stop] at *
      omega
    · omega

end

theorem laidEither (laid : xs.IsChain (Follows lo hi)) (left : x ∈ xs) (right : y ∈ xs) :
    x = y ∨ Before x y ∨ Before y x := by
  have order : xs.Pairwise fun x y => x = y ∨ Before x y ∨ Before y x :=
    (laidPairwise laid).imp fun before => .inr (.inl before)
  have flipped : xs.Pairwise (flip fun x y => x = y ∨ Before x y ∨ Before y x) :=
    (laidPairwise laid).imp fun before => .inr (.inr before)
  exact List.Pairwise.forall_of_forall_of_flip (fun z _ => .inl rfl) order flipped left right

section
variable (laid : (c::xs).IsChain (Follows lo hi))
include laid

theorem laidSplit :
    xs = xs.filter (fun x => x.lap = c.lap) ++ xs.filter (fun x => x.lap ≠ c.lap) := by
  have order := laidPairwise laid
  clear laid
  induction xs with
  | nil => rfl
  | cons x xs ih =>
    obtain ⟨above,rest⟩ := pairwise_cons.mp order
    obtain ⟨first,later⟩ := pairwise_cons.mp rest
    by_cases same : x.lap = c.lap
    · have tail := ih (pairwise_cons.mpr ⟨fun y mem => above y (.tail _ mem),later⟩)
      simpa [same] using tail
    · have none : ∀ y ∈ xs, y.lap ≠ c.lap := by
        intro y mem
        have := above x (.head _)
        have := first y mem
        simp only [Before] at *
        omega
      have all : ∀ y ∈ x::xs, y.lap ≠ c.lap := by simpa using ⟨same,none⟩
      have left : (x::xs).filter (fun y => y.lap = c.lap) = [] :=
        List.filter_eq_nil_iff.mpr fun y mem => by simpa using all y mem
      have right : (x::xs).filter (fun y => y.lap ≠ c.lap) = x::xs :=
        List.filter_eq_self.mpr fun y mem => by simpa using all y mem
      rw [left,right,List.nil_append]

theorem laidRange (same : (xs.getLastD c).lap = c.lap) :
    xs.flatMap (fun x => List.range' x.start x.len) = List.range' c.stop (blocks xs) := by
  induction xs generalizing c with
  | nil => rfl
  | cons x xs ih =>
    obtain ⟨first,rest⟩ := isChain_cons_cons.mp laid
    have later := laidLapLe rest (.head _)
    rw [getLastD_cons] at same
    rcases first with ⟨lap,start⟩ | ⟨lap,_⟩
    · have stop : x.stop = c.stop + x.len := by rw [← start]; rfl
      rw [List.flatMap_cons,ih rest (by omega),blocksCons,start,stop,List.range'_append_1]
    · omega

theorem laidTwoLaps {m : Nat} (next : (xs.getLastD c).lap = c.lap + 1)
    (small : ∀ x ∈ xs, x.len ≤ m) : hi + (xs.getLastD c).stop < c.stop + blocks xs + lo + m := by
  induction xs generalizing c with
  | nil => simp at next
  | cons x xs ih =>
    obtain ⟨first,rest⟩ := isChain_cons_cons.mp laid
    have bound := small x (.head _)
    rw [getLastD_cons] at next ⊢
    rw [blocksCons]
    rcases first with ⟨lap,start⟩ | ⟨lap,start,full⟩
    · have below := ih rest (next.trans (congrArg (· + 1) lap.symm)) (fun y mem => small y (.tail _ mem))
      simp only [Span.stop] at *
      omega
    · have stop := laidOneLap rest (next.trans lap.symm)
      simp only [Span.stop] at *
      omega

theorem laidBelow {b : Nat} (mem : x ∈ c::xs) (low : lo ≤ b) (below : b < x.stop) :
    (∃ y ∈ c::xs, y.lap = x.lap ∧ y.start ≤ b ∧ b < y.stop) ∨ x.lap = c.lap ∧ b < c.start := by
  induction xs generalizing c with
  | nil =>
    cases mem_singleton.mp mem
    by_cases inside : x.start ≤ b
    · exact .inl ⟨x,.head _,rfl,inside,below⟩
    · exact .inr ⟨rfl,Nat.lt_of_not_le inside⟩
  | cons y ys ih =>
    obtain ⟨follows,rest⟩ := isChain_cons_cons.mp laid
    have first : c.lap = x.lap → b < c.stop →
        (∃ z ∈ c::y::ys, z.lap = x.lap ∧ z.start ≤ b ∧ b < z.stop) ∨ x.lap = c.lap ∧ b < c.start := by
      intro lap under
      by_cases inside : c.start ≤ b
      · exact .inl ⟨c,.head _,lap,inside,under⟩
      · exact .inr ⟨lap.symm,Nat.lt_of_not_le inside⟩
    rcases mem_cons.mp mem with rfl | later
    · exact first rfl below
    · rcases ih rest later with ⟨z,here,found⟩ | ⟨lap,before⟩
      · exact .inl ⟨z,.tail _ here,found⟩
      · rcases follows with ⟨same,start⟩ | ⟨_,start,_⟩
        · exact first (same.symm.trans lap.symm) (start ▸ before)
        · omega

end

def Turned (mark : Nat) (x y : Span) : Prop := y.lap ≠ x.lap → x.stop = mark + 1

section turned
variable {mark : Nat}

theorem turnedOneLap (same : ∀ x ∈ xs, ∀ y ∈ xs, y.lap = x.lap) : xs.IsChain (Turned mark) :=
  (List.pairwise_iff_forall_sublist.mpr fun sub other =>
    absurd (same _ (sub.subset (by simp)) _ (sub.subset (by simp))) other).isChain

theorem turnedBound (laid : (c::xs).IsChain (Follows lo hi)) (turned : (c::xs).IsChain (Turned mark))
    (other : (xs.getLastD c).lap ≠ c.lap) {x : Span} (mem : x ∈ c::xs) (same : x.lap = c.lap) : x.stop ≤ mark + 1 := by
  induction xs generalizing c x with
  | nil => exact absurd rfl other
  | cons y ys ih =>
    obtain ⟨follows,rest⟩ := isChain_cons_cons.mp laid
    obtain ⟨turn,turns⟩ := isChain_cons_cons.mp turned
    rw [getLastD_cons] at other
    rcases follows with ⟨lap,start⟩ | ⟨lap,_⟩
    · have next : (ys.getLastD y).lap ≠ y.lap := by rwa [lap]
      rcases mem_cons.mp mem with rfl | later
      · have stop := ih rest turns next (.head _) rfl
        simp only [Span.stop] at *
        omega
      · exact ih rest turns next later (same.trans lap.symm)
    · have stop := turn (by omega)
      rcases mem_cons.mp mem with rfl | later
      · exact Nat.le_of_eq stop
      · rcases mem_cons.mp later with rfl | far
        · omega
        · have before := laidFirst rest far
          simp only [Before] at before
          omega

theorem turnedAt (turned : (c::xs).IsChain (Turned mark)) (other : (xs.getLastD c).lap ≠ c.lap) :
    ∃ x ∈ c::xs, x.stop = mark + 1 := by
  induction xs generalizing c with
  | nil => exact absurd rfl other
  | cons y ys ih =>
    obtain ⟨turn,turns⟩ := isChain_cons_cons.mp turned
    rw [getLastD_cons] at other
    by_cases lap : y.lap = c.lap
    · obtain ⟨x,mem,stop⟩ := ih turns (by rwa [lap])
      exact ⟨x,.tail _ mem,stop⟩
    · exact ⟨c,.head _,turn lap⟩

end turned

theorem laidAlike {d : Span} (stop : d.stop = c.stop) (lap : d.lap = c.lap) (laid : (c::xs).IsChain (Follows lo hi)) :
    (d::xs).IsChain (Follows lo hi) := by
  cases xs with
  | nil => exact List.isChain_singleton d
  | cons y ys =>
    obtain ⟨follows,rest⟩ := isChain_cons_cons.mp laid
    exact isChain_cons_cons.mpr ⟨by rw [Follows,stop,lap]; exact follows,rest⟩

theorem turnedAlike {d : Span} {mark : Nat} (stop : d.stop = c.stop) (lap : d.lap = c.lap)
    (turned : (c::xs).IsChain (Turned mark)) : (d::xs).IsChain (Turned mark) := by
  cases xs with
  | nil => exact List.isChain_singleton d
  | cons y ys =>
    obtain ⟨turn,rest⟩ := isChain_cons_cons.mp turned
    exact isChain_cons_cons.mpr ⟨by rw [Turned,stop,lap]; exact turn,rest⟩

theorem lastAlike {d : Span} (stop : d.stop = c.stop) (lap : d.lap = c.lap) :
    (xs.getLastD d).stop = (xs.getLastD c).stop ∧ (xs.getLastD d).lap = (xs.getLastD c).lap := by
  cases xs with
  | nil => exact ⟨stop,lap⟩
  | cons y ys => simp only [getLastD_cons,and_self]

end LineFS.Base
