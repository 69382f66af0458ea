import Mathlib.Data.List.Basic
import Mathlib.Data.List.Pairwise
import Mathlib.Data.List.Flatten
import Mathlib.Data.List.Perm.Basic

/-! Search trees of uniform height with the entries in the leaves. A link has the key of the first
entry below it and the block of the child. A place in a tree is a node and the frames around it,
innermost first; `Spot` says that a node fits its frames, and is the same at every height. -/
namespace LineFS.Base

open List (append_assoc cons_ne_nil mem_append_left mem_cons pairwise_append)

section Bisect
variable {α : Type} {key : α → Nat} {k : Nat}

def bisect (key : α → Nat) (xs : List α) (k : Nat) : Nat → Nat → Nat → Nat
  | 0, l, _ => l
  | n + 1, l, r =>
    if r < l then l
    else
      let m := l + (r - l) / 2
      match xs[m]? with
      | none => l
      | some x => if k < key x then bisect key xs k n l (m - 1) else bisect key xs k n (m + 1) r

def binsearch (key : α → Nat) (xs : List α) (k : Nat) : Nat :=
  bisect key xs k xs.length 1 (xs.length - 1) - 1

theorem bisectAt {xs : List α} {p : Nat} (split : ∀ j x, xs[j]? = some x → 1 ≤ j → (k < key x ↔ p < j)) (n l r : Nat)
    (one : 1 ≤ l) (low : l ≤ p + 1) (high : p ≤ r) (inside : r < xs.length) (fuel : r + 1 ≤ l + n) :
    bisect key xs k n l r = p + 1 := by
  induction n generalizing l r with
  | zero =>
    simp only [bisect]
    omega
  | succ n ih =>
    simp only [bisect]
    split_ifs with done
    · omega
    · have found : xs[l + (r - l) / 2]? = some xs[l + (r - l) / 2] := List.getElem?_eq_getElem (by omega)
      have turn := split _ _ found (by omega)
      rw [found]
      simp only
      split_ifs with left
      · have below := turn.mp left
        exact ih l _ one low (by omega) (by omega) (by omega)
      · have above : ¬p < l + (r - l) / 2 := fun h => left (turn.mpr h)
        exact ih _ r (by omega) (by omega) high inside (by omega)

theorem binsearchAt {pre post : List α} {x : α} (sorted : (pre ++ x::post).Pairwise fun a b => key a < key b)
    (here : pre ≠ [] → key x ≤ k) (above : ∀ y ∈ post, k < key y) :
    binsearch key (pre ++ x::post) k = pre.length := by
  have parts := pairwise_append.mp sorted
  have split : ∀ j y, (pre ++ x::post)[j]? = some y → 1 ≤ j → (k < key y ↔ pre.length < j) := by
    intro j y found one
    by_cases inside : j < pre.length
    · rw [List.getElem?_append_left inside] at found
      have mem := List.mem_of_getElem? found
      have lower := parts.2.2 y mem x (.head _)
      have level := here (List.ne_nil_of_mem mem)
      omega
    · rw [List.getElem?_append_right (Nat.le_of_not_lt inside)] at found
      cases at_ : j - pre.length with
      | zero =>
        rw [at_] at found
        cases found
        have some : pre ≠ [] := List.ne_nil_of_length_pos (by omega)
        have level := here some
        omega
      | succ i =>
        rw [at_] at found
        have higher := above y (List.mem_of_getElem? found)
        omega
  have size : (pre ++ x::post).length = pre.length + post.length + 1 := by simp; omega
  have found := bisectAt split (pre ++ x::post).length 1 ((pre ++ x::post).length - 1) (Nat.le_refl 1)
    (by omega) (by omega) (by omega) (by omega)
  rw [binsearch,found,Nat.add_sub_cancel]

theorem sortedSplit {xs : List α} (k : Nat) (sorted : xs.Pairwise fun a b => key a < key b) (some : xs ≠ []) :
    ∃ pre x post, xs = pre ++ x::post ∧ (pre ≠ [] → key x ≤ k) ∧ ∀ y ∈ post, k < key y := by
  induction xs with
  | nil => exact absurd rfl some
  | cons x xs ih =>
    by_cases last : xs = []
    · subst last
      exact ⟨[],x,[],rfl,fun h => absurd rfl h,by simp⟩
    obtain ⟨pre,y,post,same,here,above⟩ := ih (List.pairwise_cons.mp sorted).2 last
    by_cases level : key y ≤ k
    · exact ⟨x::pre,y,post,by rw [same]; rfl,fun _ => level,above⟩
    · have first : pre = [] := by
        by_contra more
        exact level (here more)
      subst first
      refine ⟨[],x,xs,rfl,fun h => absurd rfl h,?_⟩
      intro z mem
      rw [same] at mem
      rcases mem_cons.mp mem with rfl | later
      · exact Nat.lt_of_not_le level
      · exact above z later

end Bisect

structure Link where
  key : Nat
  blk : Nat
  deriving DecidableEq, Repr

inductive Node (α : Type) where
  | leaf (es : List α)
  | index (cs : List (Link × Node α))

namespace Node
variable {α : Type}

def entries : Node α → Nat
  | leaf es => es.length
  | index cs => cs.length

def flat : Nat → Node α → List α
  | 0, leaf es => es
  | h + 1, index cs => cs.flatMap fun c => flat h c.2
  | _, _ => []

def blks : Nat → Node α → List Nat
  | h + 1, index cs => cs.flatMap fun c => c.1.blk::blks h c.2
  | _, _ => []

end Node

structure Frame (α : Type) where
  left : List (Link × Node α)
  here : Link
  right : List (Link × Node α)

section Tree
open Node
variable {α : Type} {key : α → Nat} {cap rootCap h k : Nat} {n : Node α} {f : Frame α} {fs gs : List (Frame α)}
  {cs : List (Link × Node α)}

def Frame.fill (f : Frame α) (n : Node α) : Node α := .index (f.left ++ (f.here,n)::f.right)
def Frame.entries (f : Frame α) : Nat := f.left.length + f.right.length + 1

def plug (n : Node α) : List (Frame α) → Node α
  | [] => n
  | f::fs => plug (f.fill n) fs

def under (h : Nat) (cs : List (Link × Node α)) : List α := cs.flatMap fun c => c.2.flat h
def below (h : Nat) (cs : List (Link × Node α)) : List Nat := cs.flatMap fun c => c.1.blk::c.2.blks h

def before : Nat → List (Frame α) → List α
  | _, [] => []
  | h, f::fs => before (h + 1) fs ++ under h f.left

def after : Nat → List (Frame α) → List α
  | _, [] => []
  | h, f::fs => under h f.right ++ after (h + 1) fs

def around : Nat → List (Frame α) → List Nat
  | _, [] => []
  | h, f::fs => below h f.left ++ f.here.blk::below h f.right ++ around (h + 1) fs

def first (key : α → Nat) (es : List α) : Option Nat := es.head?.map key

def Good (key : α → Nat) (cap : Nat) : Nat → Node α → Prop
  | 0, leaf _ => True
  | h + 1, index cs => ∀ c ∈ cs, Good key cap h c.2 ∧ c.2.entries ≤ cap ∧ first key (c.2.flat h) = some c.1.key
  | _, _ => False

def Child (key : α → Nat) (cap h : Nat) (c : Link × Node α) : Prop :=
  Good key cap h c.2 ∧ c.2.entries ≤ cap ∧ first key (c.2.flat h) = some c.1.key

def room (cap rootCap : Nat) (fs : List (Frame α)) : Nat := if fs.isEmpty then rootCap else cap

def Sides (key : α → Nat) (cap rootCap : Nat) : Nat → List (Frame α) → Prop
  | _, [] => True
  | h, f::fs => (∀ c ∈ f.left ++ f.right, Child key cap h c) ∧ f.entries ≤ room cap rootCap fs ∧
      Sides key cap rootCap (h + 1) fs

def Chained (key : α → Nat) : Nat → List (Frame α) → Nat → Prop
  | _, [], _ => True
  | h, f::fs, k => f.here.key = k ∧ Chained key (h + 1) fs ((first key (under h f.left)).getD k)

structure Spot (key : α → Nat) (cap rootCap h : Nat) (n : Node α) (fs : List (Frame α)) : Prop where
  good : Good key cap h n
  size : n.entries ≤ room cap rootCap fs
  some : fs ≠ [] → n.flat h ≠ []
  sides : Sides key cap rootCap h fs
  chained : ∀ k ∈ first key (n.flat h), Chained key h fs k

/- Change the links on the way to a node whose first key has become `k`, up to the first that is
not the leftmost of its node. -/
def rekey (k : Nat) : List (Frame α) → List (Frame α)
  | [] => []
  | f::fs => { f with here := { f.here with key := k } }::if f.left.isEmpty then rekey k fs else fs

def seek (k : Nat) : Nat → Node α → List (Frame α) → Option (List α × List (Frame α))
  | 0, leaf es, fs => some (es,fs)
  | h + 1, index cs, fs =>
    match cs[binsearch (·.1.key) cs k]? with
    | none => none
    | some c => seek k h c.2 (⟨cs.take (binsearch (·.1.key) cs k),c.1,cs.drop (binsearch (·.1.key) cs k + 1)⟩::fs)
  | _, _, _ => none

@[simp] theorem underNil : under h ([] : List (Link × Node α)) = [] := rfl
@[simp] theorem underCons {c : Link × Node α} : under h (c::cs) = c.2.flat h ++ under h cs := rfl
@[simp] theorem underAppend {ds : List (Link × Node α)} : under h (cs ++ ds) = under h cs ++ under h ds :=
  List.flatMap_append
@[simp] theorem belowNil : below h ([] : List (Link × Node α)) = [] := rfl
@[simp] theorem belowCons {c : Link × Node α} : below h (c::cs) = c.1.blk::(c.2.blks h ++ below h cs) := rfl
@[simp] theorem belowAppend {ds : List (Link × Node α)} : below h (cs ++ ds) = below h cs ++ below h ds :=
  List.flatMap_append
@[simp] theorem flatLeaf {es : List α} : (leaf es).flat 0 = es := rfl
@[simp] theorem flatIndex : (index cs).flat (h + 1) = under h cs := rfl
@[simp] theorem blksLeaf {es : List α} : (leaf es).blks h = [] := by cases h <;> rfl
@[simp] theorem blksIndex : (index cs).blks (h + 1) = below h cs := rfl
@[simp] theorem entriesLeaf {es : List α} : (leaf es).entries = es.length := rfl
@[simp] theorem entriesIndex : (index cs).entries = cs.length := rfl
theorem firstSome {es : List α} (h : first key es = some k) : ∃ e rest, es = e::rest ∧ key e = k := by
  obtain ⟨e,found,same⟩ := Option.map_eq_some_iff.mp h
  obtain ⟨rest,rfl⟩ := List.head?_eq_some_iff.mp found
  exact ⟨e,rest,rfl,same⟩

theorem firstExists (key : α → Nat) {es : List α} (h : es ≠ []) : ∃ k, first key es = some k := by
  obtain ⟨e,rest,rfl⟩ := List.exists_cons_of_ne_nil h
  exact ⟨key e,rfl⟩

theorem firstMem {es : List α} (h : first key es = some k) : ∃ e ∈ es, key e = k := by
  obtain ⟨e,rest,rfl,same⟩ := firstSome h
  exact ⟨e,.head _,same⟩

theorem firstAppend {es ds : List α} (h : first key ds = some k) :
    first key (es ++ ds) = some ((first key es).getD k) := by
  cases es with
  | nil => exact h
  | cons e es => rfl

theorem firstLeft {es ds : List α} (h : es ≠ []) : first key (es ++ ds) = first key es := by
  obtain ⟨e,rest,rfl⟩ := List.exists_cons_of_ne_nil h
  rfl

theorem goodIndex : Good key cap (h + 1) (index cs) ↔ ∀ c ∈ cs, Child key cap h c := Iff.rfl

theorem goodShape (good : Good key cap (h + 1) n) : ∃ cs, n = index cs := by
  cases n with
  | leaf => exact good.elim
  | index cs => exact ⟨cs,rfl⟩

theorem goodLeaf (good : Good key cap 0 n) : ∃ es, n = leaf es := by
  cases n with
  | leaf es => exact ⟨es,rfl⟩
  | index => exact good.elim

theorem childSome {c : Link × Node α} (child : Child key cap h c) : c.2.flat h ≠ [] := by
  obtain ⟨e,rest,same,_⟩ := firstSome child.2.2
  rw [same]
  exact cons_ne_nil e rest

theorem underSome (children : ∀ c ∈ cs, Child key cap h c) (some : cs ≠ []) : under h cs ≠ [] := by
  obtain ⟨c,rest,rfl⟩ := List.exists_cons_of_ne_nil some
  rw [underCons]
  exact List.append_ne_nil_of_left_ne_nil (childSome (children c (.head _))) _

theorem underFirst {c : Link × Node α} (child : Child key cap h c) : first key (under h (c::cs)) = some c.1.key := by
  rw [underCons,firstLeft (childSome child),child.2.2]

theorem flatFill : (f.fill n).flat (h + 1) = under h f.left ++ n.flat h ++ under h f.right := by
  simp [Frame.fill]

theorem spotUp : Spot key cap rootCap h n (f::fs) ↔ Spot key cap rootCap (h + 1) (f.fill n) fs := by
  have count : (f.fill n).entries = f.entries := by simp [Frame.fill,Frame.entries]; omega
  constructor
  · rintro ⟨good,size,some,⟨children,many,sides⟩,chained⟩
    obtain ⟨k,key_⟩ := firstExists key (some (cons_ne_nil f fs))
    obtain ⟨link,above⟩ := chained k key_
    refine ⟨goodIndex.mpr ?_,count ▸ many,fun _ => ?_,sides,?_⟩
    · intro c mem
      rcases List.mem_append.mp mem with mem | mem
      · exact children c (mem_append_left _ mem)
      rcases mem_cons.mp mem with rfl | mem
      · exact ⟨good,size,by rw [key_,link]⟩
      · exact children c (List.mem_append_right _ mem)
    · rw [flatFill]
      exact List.append_ne_nil_of_left_ne_nil
        (List.append_ne_nil_of_right_ne_nil _ (some (cons_ne_nil f fs))) _
    · intro k' first_
      rw [flatFill,append_assoc,firstAppend (k := k)] at first_
      · cases first_
        exact above
      · rw [firstLeft (some (cons_ne_nil f fs)),key_]
  · rintro ⟨good,size,_,sides,chained⟩
    have children := goodIndex.mp good
    have child := children (f.here,n) (by simp)
    refine ⟨child.1,child.2.1,fun _ => childSome child,⟨?_,count ▸ size,sides⟩,?_⟩
    · intro c mem
      rcases List.mem_append.mp mem with mem | mem
      · exact children c (mem_append_left _ mem)
      · exact children c (List.mem_append_right _ (.tail _ mem))
    · intro k key_
      have same : f.here.key = k := Option.some.inj (child.2.2.symm.trans key_)
      refine ⟨same,chained _ ?_⟩
      rw [flatFill,append_assoc,firstAppend]
      · rfl
      · rw [firstLeft (childSome child),key_]

theorem plugSpot : Spot key cap rootCap h n fs ↔ Spot key cap rootCap (h + fs.length) (plug n fs) [] := by
  induction fs generalizing h n with
  | nil => rfl
  | cons f fs ih =>
    rw [spotUp,ih,plug,List.length_cons]
    have height : h + 1 + fs.length = h + (fs.length + 1) := by omega
    rw [height]

theorem plugFlat : (plug n fs).flat (h + fs.length) = before h fs ++ n.flat h ++ after h fs := by
  induction fs generalizing h n with
  | nil => simp [plug,before,after]
  | cons f fs ih =>
    have height : h + (f::fs).length = h + 1 + fs.length := by simp; omega
    rw [height,plug,ih,flatFill]
    simp only [before,after,append_assoc]

theorem plugBlks : ((plug n fs).blks (h + fs.length)).Perm (n.blks h ++ around h fs) := by
  induction fs generalizing h n with
  | nil => simp [plug,around]
  | cons f fs ih =>
    have height : h + (f::fs).length = h + 1 + fs.length := by simp; omega
    rw [height,plug]
    refine ih.trans ?_
    simp only [Frame.fill,blksIndex,belowAppend,belowCons,around,← append_assoc]
    refine List.Perm.append_right _ ?_
    simp only [append_assoc]
    refine (List.perm_append_comm_assoc _ _ _).symm.trans ?_ |>.symm
    exact List.Perm.append_left _ List.perm_middle

theorem beforeAppend : before h (gs ++ fs) = before (h + gs.length) fs ++ before h gs := by
  induction gs generalizing h with
  | nil => simp [before]
  | cons g gs ih =>
    have height : h + (g::gs).length = h + 1 + gs.length := by simp; omega
    simp only [List.cons_append,before,ih,height,append_assoc]

theorem afterAppend : after h (gs ++ fs) = after h gs ++ after (h + gs.length) fs := by
  induction gs generalizing h with
  | nil => simp [after]
  | cons g gs ih =>
    have height : h + (g::gs).length = h + 1 + gs.length := by simp; omega
    simp only [List.cons_append,after,ih,height,append_assoc]

theorem plugAppend : plug n (gs ++ fs) = plug (plug n gs) fs := by
  induction gs generalizing n with
  | nil => rfl
  | cons g gs ih => exact ih

@[simp] theorem rekeyLength : (rekey k fs).length = fs.length := by
  induction fs with
  | nil => rfl
  | cons f fs ih => simp only [rekey,List.length_cons]; split_ifs <;> simp [ih]

theorem rekeyBefore : before h (rekey k fs) = before h fs := by
  induction fs generalizing h with
  | nil => rfl
  | cons f fs ih => simp only [rekey,before]; split_ifs <;> simp [ih]

theorem rekeyAfter : after h (rekey k fs) = after h fs := by
  induction fs generalizing h with
  | nil => rfl
  | cons f fs ih => simp only [rekey,after]; split_ifs <;> simp [ih]

theorem rekeyAround : around h (rekey k fs) = around h fs := by
  induction fs generalizing h with
  | nil => rfl
  | cons f fs ih => simp only [rekey,around]; split_ifs <;> simp [ih]

theorem rekeyRoom : room cap rootCap (rekey k fs) = room cap rootCap fs := by
  cases fs <;> rfl

theorem rekeySides (sides : Sides key cap rootCap h fs) : Sides key cap rootCap h (rekey k fs) := by
  induction fs generalizing h with
  | nil => exact sides
  | cons f fs ih =>
    obtain ⟨children,many,sides⟩ := sides
    rw [rekey]
    split_ifs
    · exact ⟨children,rekeyRoom.symm ▸ many,ih sides⟩
    · exact ⟨children,many,sides⟩

theorem rekeyChained {old : Nat} (sides : Sides key cap rootCap h fs) (chained : Chained key h fs old) :
    Chained key h (rekey k fs) k := by
  induction fs generalizing h old with
  | nil => trivial
  | cons f fs ih =>
    obtain ⟨children,_,sides⟩ := sides
    obtain ⟨_,chained⟩ := chained
    rw [rekey]
    split_ifs with leftmost
    · refine ⟨rfl,?_⟩
      rw [List.isEmpty_iff.mp leftmost] at chained ⊢
      exact ih sides chained
    · refine ⟨rfl,?_⟩
      have some : under h f.left ≠ [] :=
        underSome (fun c mem => children c (mem_append_left _ mem)) (by simpa using leftmost)
      obtain ⟨k',first_⟩ := firstExists key some
      rw [first_] at chained ⊢
      exact chained

theorem keysSorted (good : Good key cap (h + 1) (index cs))
    (sorted : ((index cs).flat (h + 1)).Pairwise fun a b => key a < key b) :
    cs.Pairwise fun c d => c.1.key < d.1.key := by
  have apart := (List.pairwise_flatMap.mp sorted).2
  refine apart.imp_of_mem ?_
  intro c d left right less
  obtain ⟨a,inA,keyA⟩ := firstMem (good c left).2.2
  obtain ⟨b,inB,keyB⟩ := firstMem (good d right).2.2
  exact keyA ▸ keyB ▸ less a inA b inB

def Route (k : Nat) (fs : List (Frame α)) : Prop :=
  ∀ f ∈ fs, ∀ n : Node α, binsearch (·.1.key) (f.left ++ (f.here,n)::f.right) k = f.left.length

theorem seekFill {n : Node α} (route : binsearch (·.1.key) (f.left ++ (f.here,n)::f.right) k = f.left.length) :
    seek k (h + 1) (f.fill n) fs = seek k h n (f::fs) := by
  simp only [Frame.fill,seek,route]
  simp

theorem seekAlong (route : Route k fs) : seek k (h + fs.length) (plug n fs) [] = seek k h n fs := by
  induction fs generalizing h n with
  | nil => rfl
  | cons f fs ih =>
    have height : h + (f::fs).length = h + 1 + fs.length := by simp; omega
    rw [height,plug,ih fun g mem => route g (.tail f mem)]
    exact seekFill (route f (.head _) n)

theorem routed (spot : Spot key cap rootCap h n fs) (some : n.flat h ≠ [])
    (sorted : ((plug n fs).flat (h + fs.length)).Pairwise fun a b => key a < key b)
    (here : before h fs ≠ [] → ∀ k' ∈ first key (n.flat h), k' ≤ k) (above : ∀ y ∈ after h fs, k < key y) :
    Route k fs := by
  induction fs generalizing h n with
  | nil => intro f mem; cases mem
  | cons f fs ih =>
    have up := spotUp.mp spot
    have height : h + (f::fs).length = h + 1 + fs.length := by simp; omega
    rw [height,plug] at sorted
    have inner := sorted
    rw [plugFlat] at inner
    have inner := (pairwise_append.mp (pairwise_append.mp inner).1).2.1
    obtain ⟨k',firstN⟩ := firstExists key some
    have level : before (h + 1) fs ++ under h f.left ≠ [] → k' ≤ k := fun more => here more k' firstN
    intro g mem
    rcases mem_cons.mp mem with rfl | mem
    · intro m
      have keys := keysSorted up.good inner
      refine binsearchAt ?_ ?_ ?_
      · rw [← List.pairwise_map (R := (· < ·)) (f := fun c : Link × Node α => c.1.key)] at keys ⊢
        simpa using keys
      · intro more
        have children : ∀ c ∈ g.left, Child key cap h c := fun c mem => spot.sides.1 c (mem_append_left _ mem)
        rw [(spot.chained k' firstN).1]
        exact level (List.append_ne_nil_of_right_ne_nil _ (underSome children more))
      · intro c mem
        obtain ⟨e,inE,keyE⟩ := firstMem (spot.sides.1 c (List.mem_append_right _ mem)).2.2
        have inside : e ∈ under h g.right := List.mem_flatMap.mpr ⟨c,mem,inE⟩
        exact keyE ▸ above e (mem_append_left _ inside)
    · refine ih up ?_ sorted ?_ ?_ g mem
      · rw [flatFill]
        exact List.append_ne_nil_of_left_ne_nil (List.append_ne_nil_of_right_ne_nil _ some) _
      · intro more k'' firstK
        rw [flatFill,append_assoc,firstAppend (k := k') (by rw [firstLeft some,firstN])] at firstK
        cases firstK
        have bound := level (List.append_ne_nil_of_left_ne_nil more _)
        cases left : first key (under h f.left) with
        | none => exact bound
        | some j =>
          obtain ⟨a,inA,keyA⟩ := firstMem left
          obtain ⟨b,inB,keyB⟩ := firstMem firstN
          rw [flatFill,append_assoc] at inner
          have less := (pairwise_append.mp inner).2.2 a inA b (mem_append_left _ inB)
          simp only [Option.getD_some]
          omega
      · intro y mem
        exact above y (List.mem_append_right _ mem)

theorem seekSpot (k : Nat) (spot : Spot key cap rootCap h n fs)
    (sorted : (n.flat h).Pairwise fun a b => key a < key b) (listed : h = 0 ∨ n.flat h ≠ []) :
    ∃ es gs, seek k h n fs = some (es,gs ++ fs) ∧ gs.length = h ∧ plug (leaf es) gs = n ∧
      Spot key cap rootCap 0 (leaf es) (gs ++ fs) ∧
      (before 0 gs ≠ [] → ∀ k' ∈ first key es, k' ≤ k) ∧ ∀ y ∈ after 0 gs, k < key y := by
  induction h generalizing n fs with
  | zero =>
    obtain ⟨es,rfl⟩ := goodLeaf spot.good
    exact ⟨es,[],rfl,rfl,rfl,spot,fun h => absurd rfl h,by simp [after]⟩
  | succ h ih =>
    obtain ⟨cs,rfl⟩ := goodShape spot.good
    have nonempty : under h cs ≠ [] := by
      rcases listed with bad | listed
      · exact absurd bad (Nat.succ_ne_zero h)
      · exact listed
    have linked : cs ≠ [] := fun h => nonempty (by rw [h]; rfl)
    have keys := keysSorted spot.good sorted
    obtain ⟨pre,c,post,rfl,here,above⟩ := sortedSplit k keys linked
    have found := binsearchAt keys here above
    let f : Frame α := ⟨pre,c.1,post⟩
    have down : Spot key cap rootCap h c.2 (f::fs) := spotUp.mpr spot
    rw [flatIndex,underAppend,underCons] at sorted
    have sortedParts := pairwise_append.mp sorted
    have sortedRight := pairwise_append.mp sortedParts.2.1
    have child : Child key cap h c := spot.good c (by simp)
    obtain ⟨es,gs,sought,height,same,inner,low,high⟩ := ih down sortedRight.1 (.inr (childSome child))
    refine ⟨es,gs ++ [f],?_,by simp [height],?_,by simpa using inner,?_,?_⟩
    · rw [append_assoc]
      exact (seekFill (f := f) found).trans sought
    · rw [plugAppend,same]
      rfl
    · intro more k' firstE
      by_cases deeper : before 0 gs = []
      · have more : pre ≠ [] := by
          rintro rfl
          rw [beforeAppend,deeper] at more
          exact more rfl
        have content : (plug (leaf es) gs).flat (0 + gs.length) = before 0 gs ++ (leaf es).flat 0 ++ after 0 gs := plugFlat
        rw [same,deeper,Nat.zero_add,height,flatLeaf,List.nil_append] at content
        have firstC : first key (c.2.flat h) = some k' := by
          rw [content,firstLeft]
          · exact firstE
          · rintro rfl
            cases firstE
        have level := here more
        have link : c.1.key = k' := Option.some.inj (child.2.2.symm.trans firstC)
        omega
      · exact low deeper k' firstE
    · intro y mem
      rw [afterAppend,Nat.zero_add,height] at mem
      rcases List.mem_append.mp mem with mem | mem
      · exact high y mem
      · have mem : y ∈ under h post := by simpa [after] using mem
        obtain ⟨d,inD,inside⟩ := List.mem_flatMap.mp mem
        obtain ⟨e,rest,whole,keyE⟩ := firstSome (spot.good d (by simp [inD])).2.2
        have bound := above d inD
        have sortedD := (List.pairwise_flatMap.mp sortedRight.2.1).1 d inD
        rw [whole] at sortedD inside
        rcases mem_cons.mp inside with rfl | later
        · omega
        · have less := (List.pairwise_cons.mp sortedD).1 y later
          omega

end Tree
end LineFS.Base
