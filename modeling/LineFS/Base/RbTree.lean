import Mathlib.Data.List.Perm.Basic
import Mathlib.Logic.Function.Basic
import Mathlib.Order.Lattice

/-! Red-black trees whose nodes are embedded in the items and linked by pointers. A `Store` is the
memory of the nodes and the root pointer. The tree that it holds is described from a position: a
subtree and the path of frames above it. -/
namespace LineFS.Base.Rb

open List (mem_append mem_append_left mem_cons nodup_append nodup_cons perm_middle)

universe u

inductive Side where
  | left
  | right
  deriving DecidableEq, Repr

def Side.flip : Side → Side
  | .left => .right
  | .right => .left

structure Node (α : Type u) where
  parent : Option α
  black : Bool
  left : Option α
  right : Option α
  deriving DecidableEq, Repr

def Node.child (n : Node α) : Side → Option α
  | .left => n.left
  | .right => n.right

def Node.setChild (n : Node α) (d : Side) (c : Option α) : Node α :=
  match d with
  | .left => { n with left := c }
  | .right => { n with right := c }

def Node.of (d : Side) (parent : Option α) (black : Bool) (here there : Option α) : Node α :=
  match d with
  | .left => ⟨parent,black,here,there⟩
  | .right => ⟨parent,black,there,here⟩

section Nodes
variable {α : Type u} {d : Side} {p q here there c : Option α} {b e : Bool}

@[simp] theorem ofParent : (Node.of d p b here there).parent = p := by cases d <;> rfl
@[simp] theorem ofBlack : (Node.of d p b here there).black = b := by cases d <;> rfl
@[simp] theorem ofHere : (Node.of d p b here there).child d = here := by cases d <;> rfl
@[simp] theorem ofThere : (Node.of d p b here there).child d.flip = there := by cases d <;> rfl
@[simp] theorem ofSetHere : (Node.of d p b here there).setChild d c = Node.of d p b c there := by cases d <;> rfl
@[simp] theorem ofSetThere : (Node.of d p b here there).setChild d.flip c = Node.of d p b here c := by cases d <;> rfl
@[simp] theorem ofWith : (⟨q,e,(Node.of d p b here there).left,(Node.of d p b here there).right⟩ : Node α) = Node.of d q e here there := by
  cases d <;> rfl
end Nodes

inductive Tree (α : Type u) where
  | nil
  | node (black : Bool) (left : Tree α) (key : α) (right : Tree α)
  deriving DecidableEq, Repr

namespace Tree
variable {α : Type u}

def of (d : Side) (black : Bool) (here : Tree α) (key : α) (there : Tree α) : Tree α :=
  match d with
  | .left => node black here key there
  | .right => node black there key here

def ptr : Tree α → Option α
  | nil => none
  | node _ _ x _ => some x

def black : Tree α → Bool
  | nil => true
  | node b _ _ _ => b

def toList : Tree α → List α
  | nil => []
  | node _ l x r => l.toList ++ x::r.toList

def paint (c : Bool) : Tree α → Tree α
  | nil => nil
  | node _ l x r => node c l x r

def repaint (t : Tree α) : Option Bool → Tree α
  | none => t
  | some c => t.paint c

end Tree

structure Frame (α : Type u) where
  side : Side
  black : Bool
  key : α
  sibling : Tree α

def Frame.fill (f : Frame α) (t : Tree α) : Tree α := Tree.of f.side f.black t f.key f.sibling

abbrev Path (α : Type u) := List (Frame α)

namespace Path
variable {α : Type u}

def plug : Path α → Tree α → Tree α
  | [], t => t
  | f::fs, t => plug fs (f.fill t)

def parent : Path α → Option α
  | [] => none
  | f::_ => some f.key

def top : Path α → Option α → Option α
  | [], p => p
  | f::fs, _ => top fs (some f.key)

def keys : Path α → List α
  | [] => []
  | f::fs => f.key::(f.sibling.toList ++ keys fs)

def before : Path α → List α
  | [] => []
  | f::fs => before fs ++ (match f.side with | .left => [] | .right => f.sibling.toList ++ [f.key])

def after : Path α → List α
  | [] => []
  | f::fs => (match f.side with | .left => f.key::f.sibling.toList | .right => []) ++ after fs

end Path

section Lists
variable {α : Type u} {d : Side} {b : Bool} {x y : α} {t l r here there : Tree α} {path : Path α} {f : Frame α} {ks : List α} {pt : Option Bool}

@[simp] theorem nilPtr : (Tree.nil : Tree α).ptr = none := rfl
@[simp] theorem nodePtr : (Tree.node b l x r).ptr = some x := rfl
@[simp] theorem ofPtr : (Tree.of d b here x there).ptr = some x := by cases d <;> rfl
@[simp] theorem paintPtr : (t.paint b).ptr = t.ptr := by cases t <;> rfl
@[simp] theorem paintList : (t.paint b).toList = t.toList := by cases t <;> rfl
@[simp] theorem repaintPtr : (t.repaint pt).ptr = t.ptr := by cases pt <;> simp [Tree.repaint]
@[simp] theorem repaintList : (t.repaint pt).toList = t.toList := by cases pt <;> simp [Tree.repaint]

theorem ptrMem (h : t.ptr = some x) : x ∈ t.toList := by
  cases t with
  | nil => contradiction
  | node b l y r =>
    cases h
    simp [Tree.toList]

theorem ptrNone (h : t.ptr = none) : t = .nil := by
  cases t with
  | nil => rfl
  | node b l y r => contradiction

theorem ofPerm : (Tree.of d b here x there).toList.Perm (x::(here.toList ++ there.toList)) := by
  cases d
  · exact perm_middle
  · exact perm_middle.trans (List.perm_append_comm.cons x)

theorem ofNodup : ((Tree.of d b here x there).toList ++ ks).Nodup ↔
    x ∉ here.toList ∧ x ∉ there.toList ∧ x ∉ ks ∧ (here.toList ++ (there.toList ++ ks)).Nodup := by
  rw [(ofPerm.append_right ks).nodup_iff,List.cons_append,nodup_cons,List.append_assoc,mem_append,mem_append,
    not_or,not_or,and_assoc,and_assoc]

theorem ofMem : y ∈ (Tree.of d b here x there).toList ↔ y = x ∨ y ∈ here.toList ∨ y ∈ there.toList := by
  rw [ofPerm.mem_iff,mem_cons,mem_append]

theorem nodeNodup : ((Tree.node b l x r).toList ++ ks).Nodup ↔
    x ∉ l.toList ∧ x ∉ r.toList ∧ x ∉ ks ∧ (l.toList ++ (r.toList ++ ks)).Nodup := ofNodup (d := .left)

theorem nodeMem : y ∈ (Tree.node b l x r).toList ↔ y = x ∨ y ∈ l.toList ∨ y ∈ r.toList := ofMem (d := .left)

theorem ofSwap : Tree.of d.flip b here x there = Tree.of d b there x here := by cases d <;> rfl

theorem fillPerm : (f.fill t).toList.Perm (t.toList ++ f.key::f.sibling.toList) :=
  ofPerm.trans perm_middle.symm

theorem plugPerm : (path.plug t).toList.Perm (t.toList ++ path.keys) := by
  induction path generalizing t with
  | nil => simp [Path.plug,Path.keys]
  | cons f fs ih =>
    refine ih.trans ((fillPerm.append_right (Path.keys fs)).trans ?_)
    simp [Path.keys]

theorem plugList : (path.plug t).toList = path.before ++ t.toList ++ path.after := by
  induction path generalizing t with
  | nil => simp [Path.plug,Path.before,Path.after]
  | cons f fs ih =>
    rw [Path.plug,ih]
    obtain ⟨side,b,x,sibling⟩ := f
    cases side <;> simp [Frame.fill,Tree.of,Tree.toList,Path.before,Path.after]

theorem pathLength : path.length ≤ path.keys.length := by
  induction path with
  | nil => exact Nat.le_refl _
  | cons f fs ih =>
    simp only [Path.keys,List.length_cons,List.length_append]
    omega

end Lists

inductive Balanced {α : Type u} : Bool → Nat → Tree α → Prop where
  | nil : Balanced true 0 .nil
  | red {n l x r} (left : Balanced true n l) (right : Balanced true n r) : Balanced false n (.node false l x r)
  | black {n b c l x r} (left : Balanced b n l) (right : Balanced c n r) : Balanced true (n + 1) (.node true l x r)

inductive Sound {α : Type u} : Bool → Nat → Path α → Prop where
  | top {n} : Sound true n []
  | red {n d x t fs} (rest : Sound true n fs) (inner : fs ≠ []) (sibling : Balanced true n t) : Sound false n (⟨d,false,x,t⟩::fs)
  | black {n b c d x t fs} (rest : Sound b (n + 1) fs) (sibling : Balanced c n t) : Sound true n (⟨d,true,x,t⟩::fs)

section Balance
variable {α : Type u} {d : Side} {b c : Bool} {n : Nat} {x p : α} {t w l r here there : Tree α} {path fs : Path α}

theorem ofRed (one : Balanced true n here) (other : Balanced true n there) : Balanced false n (Tree.of d false here x there) := by
  cases d
  · exact .red one other
  · exact .red other one

theorem ofBlackTree (one : Balanced b n here) (other : Balanced c n there) : Balanced true (n + 1) (Tree.of d true here x there) := by
  cases d
  · exact .black one other
  · exact .black other one

theorem balancedBlack (h : Balanced b n t) : t.black = b := by cases h <;> rfl

theorem paintBalanced (h : Balanced true n t) : Balanced true n (t.paint true) := by
  cases h with
  | nil => exact .nil
  | black left right => exact .black left right

theorem plugBalanced (sound : Sound c n path) (fits : b = true ∨ c = true ∧ path ≠ []) (h : Balanced b n t) :
    ∃ m, Balanced true m (path.plug t) := by
  induction sound generalizing b t with
  | top =>
    rcases fits with rfl | ⟨_,inner⟩
    · exact ⟨_,h⟩
    · exact absurd rfl inner
  | red rest inner sibling ih =>
    rcases fits with rfl | ⟨same,_⟩
    · exact ih (.inr ⟨rfl,inner⟩) (ofRed h sibling)
    · contradiction
  | black rest sibling ih => exact ih (.inl rfl) (ofBlackTree h sibling)

theorem frameBalanced {z : α} (sound : Sound c n (⟨d,b,x,w⟩::fs)) (left : Balanced true n l) (right : Balanced true n r) :
    ∃ m, Balanced true m (Path.plug fs (.node b l z r)) := by
  cases sound with
  | red up inner _ => exact plugBalanced up (.inr ⟨rfl,inner⟩) (.red left right)
  | black up _ => exact plugBalanced up (.inl rfl) (.black left right)

theorem frameSibling (sound : Sound c n (⟨d,b,p,w⟩::fs)) : ∃ e, Balanced e n w := by
  cases sound with
  | red _ _ sibling => exact ⟨_,sibling⟩
  | black _ sibling => exact ⟨_,sibling⟩

end Balance

structure Store (α : Type u) where
  node : α → Node α
  root : Option α

section Stores
variable {α : Type u} [DecidableEq α]

def Store.modify (s : Store α) (x : α) (f : Node α → Node α) : Store α := { s with node := Function.update s.node x (f (s.node x)) }

def Store.setChild (s : Store α) (x : α) (d : Side) (c : Option α) : Store α := s.modify x fun n => n.setChild d c
def Store.rbSetParent (s : Store α) (x : α) (p : Option α) : Store α := s.modify x fun n => { n with parent := p }
def Store.rbSetParentColor (s : Store α) (x : α) (p : Option α) (black : Bool) : Store α :=
  s.modify x fun n => { n with parent := p, black }

def Store.rbChangeChild (s : Store α) (old : α) (new : Option α) : Option α → Store α
  | some p => if (s.node p).left = some old then s.setChild p .left new else s.setChild p .right new
  | none => { s with root := new }

def Store.rbRotateSetParents (s : Store α) (old new : α) (black : Bool) : Store α :=
  let cell := s.node old
  ((s.rbSetParentColor new cell.parent cell.black).rbSetParentColor old (some new) black).rbChangeChild old (some new) cell.parent

def Store.adopt (s : Store α) (c : Option α) (p : α) (black : Option Bool) : Store α :=
  match c, black with
  | none, _ => s
  | some x, none => s.rbSetParent x (some p)
  | some x, some b => s.rbSetParentColor x (some p) b

end Stores

section Shows
variable {α : Type u}

def Shows (node : α → Node α) : Option α → Tree α → Prop
  | _, .nil => True
  | p, .node b l x r => node x = ⟨p,b,l.ptr,r.ptr⟩ ∧ Shows node (some x) l ∧ Shows node (some x) r

def ShowsPath (node : α → Node α) : Option α → Path α → Prop
  | _, [] => True
  | c, f::fs => node f.key = Node.of f.side (Path.parent fs) f.black c f.sibling.ptr ∧ Shows node (some f.key) f.sibling ∧
      ShowsPath node (some f.key) fs

structure Holds (rest : α → Node α) (s : Store α) (path : Path α) (t : Tree α) : Prop where
  nodup : (t.toList ++ path.keys).Nodup
  subtree : Shows s.node path.parent t
  above : ShowsPath s.node t.ptr path
  root : s.root = path.top t.ptr
  frame : ∀ x, x ∉ t.toList → x ∉ path.keys → s.node x = rest x

variable {node other rest : α → Node α} {p c : Option α} {t : Tree α} {path : Path α} {d : Side} {b : Bool} {x : α} {here there : Tree α}
  {s r : Store α} {f : Frame α} {u : Tree α}

@[simp] theorem showsOf : Shows node p (Tree.of d b here x there) ↔
    node x = Node.of d p b here.ptr there.ptr ∧ Shows node (some x) here ∧ Shows node (some x) there := by
  cases d
  · exact Iff.rfl
  · exact and_congr_right fun _ => and_comm

theorem showsFrame (same : ∀ y ∈ t.toList, other y = node y) (h : Shows node p t) : Shows other p t := by
  induction t generalizing p with
  | nil => trivial
  | node b l y r left right =>
    refine ⟨(same y (by simp [Tree.toList])).trans h.1,left (fun z mem => same z ?_) h.2.1,right (fun z mem => same z ?_) h.2.2⟩
    · exact mem_append_left _ mem
    · exact List.mem_append_right _ (.tail _ mem)

theorem showsPathFrame (same : ∀ y ∈ path.keys, other y = node y) (h : ShowsPath node c path) : ShowsPath other c path := by
  induction path generalizing c with
  | nil => trivial
  | cons f fs ih =>
    refine ⟨(same f.key (.head _)).trans h.1,showsFrame (fun z mem => same z ?_) h.2.1,ih (fun z mem => same z ?_) h.2.2⟩
    · exact .tail _ (mem_append_left _ mem)
    · exact .tail _ (List.mem_append_right _ mem)

theorem holdsFill : Holds rest s (f::path) t ↔ Holds rest s path (f.fill t) := by
  have keys : (t.toList ++ Path.keys (f::path)).Perm ((f.fill t).toList ++ path.keys) := by
    refine List.Perm.trans ?_ (fillPerm.append_right path.keys).symm
    simp [Path.keys]
  have mem (y : α) : (y ∉ t.toList ∧ y ∉ Path.keys (f::path)) ↔ (y ∉ (f.fill t).toList ∧ y ∉ path.keys) := by
    rw [← not_or,← not_or,← mem_append,← mem_append,keys.mem_iff]
  have fields : Shows s.node path.parent (f.fill t) ↔ s.node f.key = Node.of f.side path.parent f.black t.ptr f.sibling.ptr ∧
      Shows s.node (some f.key) t ∧ Shows s.node (some f.key) f.sibling := showsOf
  have pointer : (f.fill t).ptr = some f.key := ofPtr
  constructor
  · rintro ⟨nodup,own,⟨cell,side,up⟩,root,frame⟩
    refine ⟨keys.nodup_iff.mp nodup,fields.mpr ⟨cell,own,side⟩,by rw [pointer]; exact up,by rw [pointer]; exact root,fun y out no => ?_⟩
    obtain ⟨one,two⟩ := (mem y).mpr ⟨out,no⟩
    exact frame y one two
  · rintro ⟨nodup,own,up,root,frame⟩
    obtain ⟨cell,inner,side⟩ := fields.mp own
    rw [pointer] at up root
    refine ⟨keys.nodup_iff.mpr nodup,inner,⟨cell,side,up⟩,root,fun y out no => ?_⟩
    obtain ⟨one,two⟩ := (mem y).mp ⟨out,no⟩
    exact frame y one two

theorem recolourHolds (h : Holds rest s path t) (list : u.toList = t.toList) (pointer : u.ptr = t.ptr) (subtree : Shows r.node path.parent u)
    (far : ∀ w, w ∉ t.toList → r.node w = s.node w) (root : r.root = s.root) : Holds rest r path u := by
  obtain ⟨_,_,apart⟩ := nodup_append.mp h.nodup
  have kept (w : α) (mem : w ∈ path.keys) : r.node w = s.node w := far w fun mem' => apart w mem' w mem rfl
  refine ⟨by rw [list]; exact h.nodup,subtree,by rw [pointer]; exact showsPathFrame kept h.above,?_,fun w noTree noKeys => ?_⟩
  · rw [pointer,root,h.root]
  · rw [list] at noTree
    exact (far w noTree).trans (h.frame w noTree noKeys)

theorem holdsPlug : Holds rest s path t ↔ Holds rest s [] (path.plug t) := by
  induction path generalizing t with
  | nil => exact Iff.rfl
  | cons f fs ih => rw [holdsFill,ih,Path.plug]

end Shows

section Writes
variable {α : Type u} [DecidableEq α] {s : Store α} {x y w : α} {p c new : Option α} {pt : Option Bool} {t here there : Tree α} {path : Path α}
  {d : Side} {b : Bool}

@[simp] theorem modifyHere {f : Node α → Node α} : (s.modify x f).node x = f (s.node x) := Function.update_self ..
@[simp] theorem modifyOther {f : Node α → Node α} (other : w ≠ x) : (s.modify x f).node w = s.node w := Function.update_of_ne other ..
@[simp] theorem modifyRoot {f : Node α → Node α} : (s.modify x f).root = s.root := rfl

theorem adoptOther (other : c ≠ some w) : (s.adopt c x pt).node w = s.node w := by
  cases c with
  | none => rfl
  | some z =>
    have apart : w ≠ z := fun same => other (same ▸ rfl)
    cases pt <;> simp [Store.adopt,Store.rbSetParent,Store.rbSetParentColor,apart]

@[simp] theorem adoptRoot : (s.adopt c x pt).root = s.root := by
  cases c <;> cases pt <;> rfl

theorem adoptShows (nodup : t.toList.Nodup) (h : Shows s.node p t) : Shows (s.adopt t.ptr x pt).node (some x) (t.repaint pt) := by
  cases t with
  | nil => cases pt <;> trivial
  | node b l z r =>
    obtain ⟨cell,left,right⟩ := h
    have apart : z ∉ l.toList ++ r.toList := (nodup_cons.mp (perm_middle.nodup_iff.mp nodup)).1
    rw [mem_append,not_or] at apart
    have sides (u : Tree α) (v : α) (out : z ∉ u.toList) (own : Shows s.node (some v) u) :
        Shows (s.adopt (some z) x pt).node (some v) u := by
      refine showsFrame (fun w mem => adoptOther fun same => out ?_) own
      exact Option.some.inj same ▸ mem
    have own := sides l z apart.1 left
    have other := sides r z apart.2 right
    cases pt with
    | none => exact ⟨by simp [Tree.ptr,Store.adopt,Store.rbSetParent,cell],own,other⟩
    | some b => exact ⟨by simp [Tree.ptr,Store.adopt,Store.rbSetParentColor,cell],own,other⟩

theorem changeChildPath (nodup : (x::path.keys).Nodup) (above : ShowsPath s.node (some x) path) (root : s.root = path.top (some x)) :
    ShowsPath (s.rbChangeChild x new path.parent).node new path ∧ (s.rbChangeChild x new path.parent).root = path.top new ∧
      ∀ w, w ∉ path.keys → (s.rbChangeChild x new path.parent).node w = s.node w := by
  cases path with
  | nil => exact ⟨trivial,rfl,fun _ _ => rfl⟩
  | cons f fs =>
    obtain ⟨side,b,k,sibling⟩ := f
    obtain ⟨cell,beside,up⟩ := above
    simp only [Path.keys,nodup_cons,mem_cons,mem_append,not_or] at nodup
    obtain ⟨⟨_,apart,_⟩,⟨offSibling,offPath⟩,_⟩ := nodup
    have step : s.rbChangeChild x new (some k) = s.setChild k side new := by
      cases side with
      | left => exact if_pos (by rw [cell]; rfl)
      | right =>
        refine if_neg fun same => apart (ptrMem ?_)
        rw [← same,cell]
        rfl
    have others (w : α) (other : w ≠ k) : (s.setChild k side new).node w = s.node w := modifyOther other
    simp only [Path.parent,step]
    refine ⟨⟨?_,?_,?_⟩,root,fun w out => others w fun same => out (same ▸ (.head _))⟩
    · simp [Store.setChild,cell]
    · exact showsFrame (fun w mem => others w fun same => offSibling (same ▸ mem)) beside
    · exact showsPathFrame (fun w mem => others w fun same => offPath (same ▸ mem)) up

theorem paintHolds {rest : α → Node α} {e : Bool} (h : Holds rest s path (Tree.of d b here x there)) :
    Holds rest (s.rbSetParentColor x path.parent e) path (Tree.of d e here x there) := by
  obtain ⟨offHere,offThere,_,_⟩ := ofNodup.mp h.nodup
  obtain ⟨cell,one,other⟩ := showsOf.mp h.subtree
  have far (w : α) (wx : w ≠ x) : (s.rbSetParentColor x path.parent e).node w = s.node w := modifyOther wx
  refine recolourHolds h ?_ (by simp) (showsOf.mpr ⟨?_,?_,?_⟩) (fun w out => far w fun eq => out (ofMem.mpr (.inl eq))) rfl
  · cases d <;> rfl
  · simp [Store.rbSetParentColor,cell]
  · exact showsFrame (fun w mem => far w fun eq => offHere (eq ▸ mem)) one
  · exact showsFrame (fun w mem => far w fun eq => offThere (eq ▸ mem)) other

def Store.rotate (s : Store α) (e : Side) (x y : α) (tmp : Option α) (paint : Option Bool) (black : Bool) : Store α :=
  (((s.setChild x e tmp).setChild y e.flip (some x)).adopt tmp x paint).rbRotateSetParents x y black

end Writes

section Replace
variable {α : Type u} [DecidableEq α] {rest : α → Node α} {s r : Store α} {path : Path α} {x : α} {u : Tree α}

theorem replaceHolds (above : ShowsPath s.node (some x) path) (top : s.root = path.top (some x)) (out : x ∉ path.keys)
    (nodup : (u.toList ++ path.keys).Nodup) (subtree : Shows r.node path.parent u) (kept : ∀ w ∈ path.keys, r.node w = s.node w)
    (frame : ∀ w, w ∉ u.toList → w ∉ path.keys → r.node w = rest w) (root : r.root = s.root) :
    Holds rest (r.rbChangeChild x u.ptr path.parent) path u := by
  obtain ⟨_,nodupKeys,apart⟩ := nodup_append.mp nodup
  have fresh : (x::path.keys).Nodup := nodup_cons.mpr ⟨out,nodupKeys⟩
  obtain ⟨up,head,far⟩ := @changeChildPath _ _ r x u.ptr path fresh (showsPathFrame kept above) (root.trans top)
  refine ⟨nodup,showsFrame (fun w mem => far w fun mem' => apart w mem w mem' rfl) subtree,up,head,fun w noTree noKeys => ?_⟩
  exact (far w noKeys).trans (frame w noTree noKeys)

end Replace

section Rotate
variable {α : Type u} [DecidableEq α] {rest : α → Node α} {s : Store α} {e : Side} {path : Path α} {x y : α}
  {cx cy black : Bool} {a b c : Tree α}
  {pt : Option Bool} {i j k q : Option α}

theorem rotateHolds (nodup : ((Tree.of e cx c y (Tree.of e black b x a)).toList ++ path.keys).Nodup)
    (cellX : s.node x = Node.of e path.parent cx i a.ptr) (cellY : s.node y = Node.of e q cy c.ptr j)
    (showsC : Shows s.node (some y) c) (showsB : Shows s.node k b) (showsA : Shows s.node (some x) a)
    (above : ShowsPath s.node (some x) path) (root : s.root = path.top (some x))
    (frame : ∀ w, w ∉ (Tree.of e cx c y (Tree.of e black b x a)).toList → w ∉ path.keys → s.node w = rest w) :
    Holds rest (s.rotate e x y b.ptr pt black) path (Tree.of e cx c y (Tree.of e black (b.repaint pt) x a)) := by
  have list : (Tree.of e cx c y (Tree.of e black (b.repaint pt) x a)).toList = (Tree.of e cx c y (Tree.of e black b x a)).toList := by
    cases e <;> simp [Tree.of,Tree.toList]
  obtain ⟨yc,yx,yk,nodupC⟩ := ofNodup.mp nodup
  obtain ⟨_,nodupX,outC⟩ := nodup_append.mp nodupC
  obtain ⟨xb,xa,xk,nodupB⟩ := ofNodup.mp nodupX
  obtain ⟨ownB,_,outB⟩ := nodup_append.mp nodupB
  rw [ofMem,not_or,not_or] at yx
  obtain ⟨yNe,yb,ya⟩ := yx
  have offB (w : α) (out : w ∉ b.toList) : b.ptr ≠ some w := fun at_ => out (ptrMem at_)
  let one := (s.setChild x e b.ptr).setChild y e.flip (some x)
  let two := one.adopt b.ptr x pt
  let three := (two.rbSetParentColor y path.parent cx).rbSetParentColor x (some y) black
  have twoX : two.node x = Node.of e path.parent cx b.ptr a.ptr :=
    (adoptOther (offB x xb)).trans (by simp [one,Store.setChild,Ne.symm yNe,cellX])
  have twoY : two.node y = Node.of e q cy c.ptr (some x) := (adoptOther (offB y yb)).trans (by simp [one,Store.setChild,yNe,cellY])
  have threeX : three.node x = Node.of e (some y) black b.ptr a.ptr := by simp [three,Store.rbSetParentColor,twoX,Ne.symm yNe]
  have threeY : three.node y = Node.of e path.parent cx c.ptr (some x) := by simp [three,Store.rbSetParentColor,yNe,twoY]
  have near (w : α) (wx : w ≠ x) (wy : w ≠ y) : one.node w = s.node w ∧ three.node w = two.node w := by
    simp [one,three,Store.setChild,Store.rbSetParentColor,wx,wy]
  have far (w : α) (wx : w ≠ x) (wy : w ≠ y) (wb : w ∉ b.toList) : three.node w = s.node w :=
    (near w wx wy).2.trans ((adoptOther (offB w wb)).trans (near w wx wy).1)
  have same : s.rotate e x y b.ptr pt black = three.rbChangeChild x (some y) path.parent := by
    have read : s.rotate e x y b.ptr pt black =
      ((two.rbSetParentColor y (two.node x).parent (two.node x).black).rbSetParentColor x (some y) black).rbChangeChild x (some y)
        (two.node x).parent := rfl
    rw [read,twoX,ofParent,ofBlack]
  have pointer : (Tree.of e cx c y (Tree.of e black (b.repaint pt) x a)).ptr = some y := ofPtr
  rw [same,← pointer]
  refine replaceHolds above root xk (by rw [list]; exact nodup) ?_ (fun w mem => ?_) (fun w noTree noKeys => ?_) ?_
  · have notX (w : α) (mem : w ∈ c.toList) : w ∉ (Tree.of e black b x a).toList := fun mem' =>
      outC w mem w (mem_append_left _ mem') rfl
    simp only [showsOf,ofPtr,repaintPtr]
    refine ⟨threeY,showsFrame (fun w mem => ?_) showsC,threeX,?_,showsFrame (fun w mem => ?_) showsA⟩
    · have out := notX w mem
      rw [ofMem,not_or,not_or] at out
      exact far w out.1 (fun eq => yc (eq ▸ mem)) out.2.1
    · have oneB : Shows one.node k b := showsFrame (fun w mem => (near w (fun eq => xb (eq ▸ mem)) fun eq => yb (eq ▸ mem)).1) showsB
      exact showsFrame (fun w mem => (near w (fun eq => xb (eq ▸ repaintList ▸ mem)) fun eq => yb (eq ▸ repaintList ▸ mem)).2)
        (adoptShows ownB oneB)
    · exact far w (fun eq => xa (eq ▸ mem)) (fun eq => ya (eq ▸ mem)) fun mem' => outB w mem' w (mem_append_left _ mem) rfl
  · exact far w (fun eq => xk (eq ▸ mem)) (fun eq => yk (eq ▸ mem)) fun mem' => outB w mem' w (List.mem_append_right _ mem) rfl
  · rw [list] at noTree
    refine (far w ?_ ?_ ?_).trans (frame w noTree noKeys)
    all_goals
      simp only [ofMem,not_or] at noTree
      tauto
  · simp [three,two,one,Store.rbSetParentColor,Store.setChild]

end Rotate

end LineFS.Base.Rb
