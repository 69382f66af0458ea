import Mathlib.Data.List.Basic
import Mathlib.Data.List.Pairwise
import Mathlib.Data.List.Flatten
import Mathlib.Data.List.Perm.Basic

/-! Partial maps of numbers that a list of segments represents. Joining two segments that continue
each other changes neither the map nor the list of the images; cutting a range of numbers out of
the segments takes exactly the images of the range away. -/
namespace LineFS.Base

open List (mem_cons mem_range'_1 pairwise_append pairwise_cons)

structure Seg where
  low : Nat
  len : Nat
  image : Nat
  deriving DecidableEq, Repr

namespace Seg

def stop (s : Seg) : Nat := s.low + s.len
def maps (s : Seg) (l : Nat) : Option Nat := if s.low ≤ l ∧ l < s.stop then some (s.image + (l - s.low)) else none
def lookup (ss : List Seg) (l : Nat) : Option Nat := ss.findSome? (·.maps l)
def images (ss : List Seg) : List Nat := ss.flatMap fun s => List.range' s.image s.len
def Ordered (ss : List Seg) : Prop := ss.Pairwise fun a b => a.stop ≤ b.low

def Meets (a b : Seg) : Prop := a.stop = b.low ∧ a.image + a.len = b.image
def join (a b : Seg) : Seg := ⟨a.low,a.len + b.len,a.image⟩

def keep (start last : Nat) (s : Seg) : List Seg :=
  if s.stop ≤ start ∨ last < s.low then [s]
  else if s.low < start then [⟨s.low,start - s.low,s.image⟩]
  else []

def drop (start last : Nat) (s : Seg) : List Nat :=
  if s.stop ≤ start ∨ last < s.low then []
  else List.range' (s.image + (start - s.low)) (s.stop - max s.low start)

def cut (start last : Nat) (ss : List Seg) : List Seg := ss.flatMap (keep start last)
def dropped (start last : Nat) (ss : List Seg) : List Nat := ss.flatMap (drop start last)

variable {ss ts : List Seg} {s a b : Seg} {l start last : Nat}

theorem mapsIn (low : s.low ≤ l) (high : l < s.stop) : s.maps l = some (s.image + (l - s.low)) := if_pos ⟨low,high⟩
theorem mapsNone (outside : l < s.low ∨ s.stop ≤ l) : s.maps l = none := if_neg (by omega)

theorem lookupNone (outside : ∀ s ∈ ss, l < s.low ∨ s.stop ≤ l) : lookup ss l = none :=
  List.findSome?_eq_none_iff.mpr fun s mem => mapsNone (outside s mem)

@[simp] theorem lookupCons : lookup (s::ss) l = (s.maps l).or (lookup ss l) := by
  simp only [lookup,List.findSome?_cons]
  cases s.maps l <;> rfl

@[simp] theorem lookupAppend : lookup (ss ++ ts) l = (lookup ss l).or (lookup ts l) := List.findSome?_append

@[simp] theorem imagesCons : images (s::ss) = List.range' s.image s.len ++ images ss := rfl
@[simp] theorem imagesAppend : images (ss ++ ts) = images ss ++ images ts := List.flatMap_append

theorem mapsSome {p : Nat} (found : s.maps l = some p) : s.low ≤ l ∧ l < s.stop ∧ p = s.image + (l - s.low) := by
  unfold maps at found
  split_ifs at found with inside
  exact ⟨inside.1,inside.2,(Option.some.inj found).symm⟩

theorem lookupSome {p : Nat} (found : lookup ss l = some p) : ∃ s ∈ ss, s.maps l = some p :=
  List.exists_of_findSome?_eq_some found

theorem lookupAt (ordered : Ordered (ss ++ s::ts)) (here : ss ≠ [] → s.low ≤ l) (above : ∀ t ∈ ts, l < t.low) :
    lookup (ss ++ s::ts) l = s.maps l := by
  have apart := (pairwise_append.mp ordered).2.2
  have left : lookup ss l = none := by
    refine lookupNone fun a mem => .inr ?_
    exact Nat.le_trans (apart a mem s (.head _)) (here (List.ne_nil_of_mem mem))
  have right : lookup ts l = none := lookupNone fun t mem => .inl (above t mem)
  rw [lookupAppend,lookupCons,left,right,Option.none_or,Option.or_none]

theorem lookupInsert (ordered : Ordered (ss ++ s::ts)) :
    lookup (ss ++ s::ts) l = (s.maps l).or (lookup (ss ++ ts) l) := by
  have apart := (pairwise_append.mp ordered).2.2
  rw [lookupAppend,lookupCons,lookupAppend]
  cases found : s.maps l with
  | none => simp
  | some p =>
    obtain ⟨low,_,_⟩ := mapsSome found
    have left : lookup ss l = none := by
      refine lookupNone fun a mem => .inr ?_
      exact Nat.le_trans (apart a mem s (.head _)) low
    rw [left]
    rfl

theorem lookupApart (ordered : Ordered (ss ++ s::ts)) (low : s.low ≤ l) (high : l < s.stop) : lookup (ss ++ ts) l = none := by
  obtain ⟨_,right,apart⟩ := pairwise_append.mp ordered
  refine lookupNone fun a mem => ?_
  rcases List.mem_append.mp mem with mem | mem
  · exact .inr (Nat.le_trans (apart a mem s (.head _)) low)
  · exact .inl (Nat.lt_of_lt_of_le high ((pairwise_cons.mp right).1 a mem))

section
variable (meet : Meets a b)
include meet

theorem joinMaps : (a.join b).maps l = (a.maps l).or (b.maps l) := by
  obtain ⟨next,image⟩ := meet
  have stop_ : (a.join b).stop = b.stop := by simp only [stop,join] at *; omega
  have reach : a.low ≤ b.low := next ▸ Nat.le_add_right _ _
  have inside (low : a.low ≤ l) (high : l < b.stop) : (a.join b).maps l = some (a.image + (l - a.low)) :=
    mapsIn low (stop_.symm ▸ high)
  have outside (out : l < a.low ∨ b.stop ≤ l) : (a.join b).maps l = none := mapsNone (stop_.symm ▸ out)
  have within : b.low ≤ b.stop := Nat.le_add_right _ _
  rcases Nat.lt_or_ge l a.low with left | left
  · rw [outside (.inl left),mapsNone (s := a) (.inl left),mapsNone (.inl (by omega))]
    rfl
  rcases Nat.lt_or_ge l a.stop with inA | behindA
  · rw [inside left (by omega),mapsIn (s := a) left inA]
    rfl
  rw [mapsNone (s := a) (.inr behindA),Option.none_or]
  rcases Nat.lt_or_ge l b.stop with inB | behindB
  · rw [inside left inB,mapsIn (s := b) (by omega) inB]
    simp only [stop] at next behindA
    congr 1
    omega
  · rw [outside (.inr behindB),mapsNone (.inr behindB)]

theorem joinLookup : lookup (ss ++ a.join b::ts) l = lookup (ss ++ a::b::ts) l := by
  simp only [lookupAppend,lookupCons,joinMaps meet,Option.or_assoc]

theorem joinImages : images (ss ++ a.join b::ts) = images (ss ++ a::b::ts) := by
  have whole : List.range' a.image (a.len + b.len) = List.range' a.image a.len ++ List.range' b.image b.len := by
    rw [← meet.2,← List.range'_append_1]
  simp only [imagesAppend,imagesCons,join,whole,List.append_assoc]

theorem joinOrdered (ordered : Ordered (ss ++ a::b::ts)) : Ordered (ss ++ a.join b::ts) := by
  have stop_ : (a.join b).stop = b.stop := by
    have next := meet.1
    simp only [stop,join] at *
    omega
  obtain ⟨left,right,apart⟩ := pairwise_append.mp ordered
  obtain ⟨firstA,rest⟩ := pairwise_cons.mp right
  obtain ⟨firstB,rest⟩ := pairwise_cons.mp rest
  refine pairwise_append.mpr ⟨left,pairwise_cons.mpr ⟨?_,rest⟩,?_⟩
  · intro t mem
    rw [stop_]
    exact firstB t mem
  · intro x mem t inside
    rcases mem_cons.mp inside with rfl | inside
    · exact apart x mem a (.head _)
    · exact apart x mem t (by simp [inside])

theorem splitOrdered (ordered : Ordered (ss ++ a.join b::ts)) : Ordered (ss ++ a::b::ts) := by
  have next := meet.1
  have stop_ : (a.join b).stop = b.stop := by simp only [stop,join] at *; omega
  have within : a.low ≤ a.stop := Nat.le_add_right _ _
  have reach : b.low ≤ b.stop := Nat.le_add_right _ _
  obtain ⟨left,right,apart⟩ := pairwise_append.mp ordered
  obtain ⟨firstA,rest⟩ := pairwise_cons.mp right
  rw [stop_] at firstA
  refine pairwise_append.mpr ⟨left,pairwise_cons.mpr ⟨?_,pairwise_cons.mpr ⟨firstA,rest⟩⟩,?_⟩
  · intro t mem
    rcases mem_cons.mp mem with rfl | mem
    · exact Nat.le_of_eq next
    · have bound := firstA t mem
      omega
  · intro x mem t inside
    have before : x.stop ≤ a.low := apart x mem (a.join b) (.head _)
    rcases mem_cons.mp inside with rfl | inside
    · exact before
    rcases mem_cons.mp inside with rfl | inside
    · omega
    · exact apart x mem t (.tail _ inside)

end

@[simp] theorem cutCons : cut start last (s::ss) = keep start last s ++ cut start last ss := rfl
@[simp] theorem droppedCons : dropped start last (s::ss) = drop start last s ++ dropped start last ss := rfl
@[simp] theorem droppedAppend : dropped start last (ss ++ ts) = dropped start last ss ++ dropped start last ts :=
  List.flatMap_append

theorem keepWithin (mem : b ∈ keep start last s) : b.low = s.low ∧ b.stop ≤ s.stop := by
  unfold keep at mem
  split_ifs at mem with out tail
  · cases List.mem_singleton.mp mem
    exact ⟨rfl,Nat.le_refl _⟩
  · cases List.mem_singleton.mp mem
    refine ⟨rfl,?_⟩
    simp only [stop] at *
    omega
  · cases mem

theorem keepImages : images (keep start last s) ++ drop start last s = List.range' s.image s.len := by
  simp only [keep,drop]
  split_ifs with out tail
  · simp [images]
  · have count : s.stop - max s.low start = s.len - (start - s.low) := by simp only [stop] at *; omega
    have split : s.len = start - s.low + (s.len - (start - s.low)) := by simp only [stop] at *; omega
    have whole : List.range' s.image s.len =
        List.range' s.image (start - s.low) ++ List.range' (s.image + (start - s.low)) (s.len - (start - s.low)) := by
      rw [List.range'_append_1,← split]
    rw [count,whole]
    simp [images]
  · have count : s.stop - max s.low start = s.len := by simp only [stop] at *; omega
    have at_ : start - s.low = 0 := by omega
    simp [images,count,at_]

theorem cutImages : (images (cut start last ss) ++ dropped start last ss).Perm (images ss) := by
  induction ss with
  | nil => exact .refl _
  | cons s ss ih =>
    have here : List.range' s.image s.len = images (keep start last s) ++ drop start last s := keepImages.symm
    rw [cutCons,droppedCons,imagesAppend,imagesCons,here,List.append_assoc,List.append_assoc]
    refine List.Perm.append_left _ ?_
    exact (List.perm_append_comm_assoc _ _ _).trans (List.Perm.append_left _ ih)

theorem cutOrdered (ordered : Ordered ss) : Ordered (cut start last ss) := by
  refine List.pairwise_flatMap.mpr ⟨fun s _ => ?_,ordered.imp fun {a b} apart x left y right => ?_⟩
  · unfold keep
    split_ifs <;> simp
  · have one := keepWithin left
    have two := keepWithin right
    omega

theorem keepMaps (ends : s.low ≤ last → s.stop ≤ last + 1) :
    lookup (keep start last s) l = if start ≤ l ∧ l ≤ last then none else s.maps l := by
  have single (t : Seg) : lookup [t] l = t.maps l := by simp [lookup]
  have empty : lookup [] l = none := rfl
  rw [keep]
  by_cases out : s.stop ≤ start ∨ last < s.low
  · rw [if_pos out,single]
    split_ifs with inside
    · exact mapsNone (by omega)
    · rfl
  rw [if_neg out]
  by_cases tail : s.low < start
  · rw [if_pos tail,single]
    let rest : Seg := ⟨s.low,start - s.low,s.image⟩
    have stop_ : rest.stop = start := by simp only [rest,stop]; omega
    have same (kept : l < start) : rest.maps l = s.maps l := by
      rcases Nat.lt_or_ge l s.low with left | left
      · rw [mapsNone (s := rest) (.inl left),mapsNone (.inl left)]
      · rw [mapsIn (s := rest) left (by omega),mapsIn (s := s) left (by omega)]
    have gone (after : start ≤ l) : rest.maps l = none := mapsNone (.inr (by omega))
    split_ifs with inside
    · exact gone inside.1
    rcases Nat.lt_or_ge l start with kept | out
    · exact same kept
    · rw [mapsNone (s := s) (.inr (by omega))]
      exact gone out
  · rw [if_neg tail,empty]
    split_ifs with inside
    · rfl
    · exact (mapsNone (by omega)).symm

theorem cutLookup (ends : ∀ s ∈ ss, s.low ≤ last → s.stop ≤ last + 1) :
    lookup (cut start last ss) l = if start ≤ l ∧ l ≤ last then none else lookup ss l := by
  induction ss with
  | nil => exact (ite_self none).symm
  | cons s ss ih =>
    rw [cutCons,lookupAppend,lookupCons,keepMaps (ends s (.head _)),
      ih fun t mem => ends t (.tail s mem)]
    split_ifs <;> rfl

theorem filterMapOr {β : Type} {f g : Nat → Option β} {xs : List Nat} (sorted : xs.Pairwise (· < ·))
    (apart : ∀ x ∈ xs, ∀ y ∈ xs, f x ≠ none → g y ≠ none → x < y) :
    xs.filterMap (fun x => (f x).or (g x)) = xs.filterMap f ++ xs.filterMap g := by
  induction xs with
  | nil => rfl
  | cons x xs ih =>
    obtain ⟨above,sorted⟩ := pairwise_cons.mp sorted
    have rest := ih sorted fun y left z right =>
      apart y (.tail x left) z (.tail x right)
    simp only [List.filterMap_cons,rest]
    cases left : f x with
    | some v =>
      have none_ : g x = none := by
        by_contra some
        exact Nat.lt_irrefl x (apart x (.head _) x (.head _) (by simp [left]) some)
      simp [none_]
    | none =>
      cases right : g x with
      | none => simp
      | some v =>
        have empty : xs.filterMap f = [] := by
          refine List.filterMap_eq_nil_iff.mpr fun y mem => ?_
          by_contra some
          have one := apart y (.tail x mem) x (.head _) some (by simp [right])
          have two := above y mem
          omega
        simp [empty]

theorem dropMaps (ends : s.low ≤ last → s.stop ≤ last + 1) :
    (List.range' start (last + 1 - start)).filterMap s.maps = drop start last s := by
  unfold drop
  split_ifs with out
  · refine List.filterMap_eq_nil_iff.mpr fun l mem => mapsNone ?_
    rw [mem_range'_1] at mem
    omega
  · -- the range in three parts: before the segment, in it, and behind it
    have ends := ends (by omega)
    have within : s.low ≤ s.stop := Nat.le_add_right _ _
    have parts : List.range' start (last + 1 - start) = List.range' start (max s.low start - start) ++
        (List.range' (max s.low start) (s.stop - max s.low start) ++ List.range' s.stop (last + 1 - s.stop)) := by
      have size : last + 1 - start = max s.low start - start + (s.stop - max s.low start + (last + 1 - s.stop)) := by
        omega
      rw [size,← List.range'_append_1,← List.range'_append_1]
      congr 2
      · congr 1
        omega
      · congr 1
        omega
    have front : (List.range' start (max s.low start - start)).filterMap s.maps = [] := by
      refine List.filterMap_eq_nil_iff.mpr fun l mem => mapsNone ?_
      rw [mem_range'_1] at mem
      omega
    have back : (List.range' s.stop (last + 1 - s.stop)).filterMap s.maps = [] := by
      refine List.filterMap_eq_nil_iff.mpr fun l mem => mapsNone ?_
      rw [mem_range'_1] at mem
      omega
    have middle : ∀ l ∈ List.range' (max s.low start) (s.stop - max s.low start),
        s.maps l = some (s.image + (l - s.low)) := by
      intro l mem
      rw [mem_range'_1] at mem
      exact if_pos (by omega)
    rw [parts,List.filterMap_append,List.filterMap_append,front,back,List.append_nil,List.nil_append,
      List.filterMap_congr middle,List.filterMap_eq_map']
    refine List.ext_getElem (by simp) fun i left right => ?_
    simp only [List.getElem_map,List.getElem_range']
    omega

theorem droppedLookup (ordered : Ordered ss) (ends : ∀ s ∈ ss, s.low ≤ last → s.stop ≤ last + 1) :
    (List.range' start (last + 1 - start)).filterMap (lookup ss) = dropped start last ss := by
  induction ss with
  | nil =>
    exact List.filterMap_eq_nil_iff.mpr fun l _ => rfl
  | cons s ss ih =>
    obtain ⟨above,ordered⟩ := pairwise_cons.mp ordered
    have both : lookup (s::ss) = fun l => (s.maps l).or (lookup ss l) := funext fun l => lookupCons
    rw [both,filterMapOr List.pairwise_lt_range',dropMaps (ends s (.head _)),
      ih ordered fun t mem => ends t (.tail s mem),droppedCons]
    intro x _ y _ left right
    obtain ⟨p,found⟩ := Option.ne_none_iff_exists'.mp left
    obtain ⟨q,later⟩ := Option.ne_none_iff_exists'.mp right
    obtain ⟨t,mem,inside⟩ := lookupSome later
    have one := mapsSome found
    have two := mapsSome inside
    have next := above t mem
    omega

end Seg
end LineFS.Base
