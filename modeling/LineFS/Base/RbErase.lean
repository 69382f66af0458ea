import LineFS.Base.RbInsert

/-! Removal of the first node of a red-black tree of linked nodes, and the walk to the next one. A
loop that removes the node it stands on asks the removed node: its pointers stay as they were. -/
namespace LineFS.Base.Rb

universe u v
variable {α : Type u} [DecidableEq α]

def Store.redOf (s : Store α) (c : Option α) : Option α := c.filter fun x => !(s.node x).black

/- Case 4 of `____rb_erase_color`; `tmp1` is the outer child of the sibling, `d` the side of the shorter subtree. -/
def Store.rbEraseRotate (s : Store α) (d : Side) (parent sibling tmp1 : α) : Store α :=
  let tmp2 := (s.node sibling).child d
  (s.rbSetParentColor tmp1 (some sibling) true).rotate d.flip parent sibling tmp2 none true

def Store.rbEraseRotateTwice (s : Store α) (d : Side) (parent sibling tmp2 : α) : Store α :=
  let tmp1 := (s.node tmp2).child d.flip
  let s := ((s.setChild sibling d tmp1).setChild tmp2 d.flip (some sibling)).setChild parent d.flip (some tmp2)
  (s.adopt tmp1 sibling (some true)).rbEraseRotate d parent tmp2 sibling

def Store.rbEraseCases (s : Store α) (d : Side) (parent sibling : α) : Store α × Option α :=
  match s.redOf ((s.node sibling).child d.flip) with
  | some tmp1 => (s.rbEraseRotate d parent sibling tmp1,none)
  | none =>
    match s.redOf ((s.node sibling).child d) with
    | some tmp2 => (s.rbEraseRotateTwice d parent sibling tmp2,none)
    | none =>
      let s := s.rbSetParentColor sibling (some parent) false
      if (s.node parent).black then (s,(s.node parent).parent)
      else (s.modify parent fun n => { n with black := true },none)

def Store.rbEraseSibling (s : Store α) (d : Side) (parent : α) : Option (Store α × α) :=
  match (s.node parent).child d.flip with
  | none => none
  | some sibling =>
    if (s.node sibling).black then some (s,sibling)
    else ((s.node sibling).child d).map fun tmp1 => (s.rotate d.flip parent sibling (some tmp1) (some true) false,tmp1)

/- The loop of `____rb_erase_color`. -/
def Store.rbEraseColor : Nat → Store α → Option α → α → Option (Store α)
  | 0, _, _, _ => none
  | fuel + 1, s, node, parent =>
    let d : Side := if node = (s.node parent).right then .right else .left
    (s.rbEraseSibling d parent).bind fun r =>
      let o := r.1.rbEraseCases d parent r.2
      match o.2 with
      | none => some o.1
      | some up => rbEraseColor fuel o.1 (some parent) up

def Store.leftmost (s : Store α) : Nat → α → α → Option (α × α)
  | 0, _, _ => none
  | fuel + 1, parent, successor =>
    match (s.node successor).left with
    | none => some (parent,successor)
    | some tmp => leftmost s fuel successor tmp

/- `__rb_erase_augmented` for a node with two children: the successor takes its place. The second result is the parent
that needs a repair. -/
def Store.rbEraseInner (s : Store α) (fuel : Nat) (node child : α) : Option (Store α × Option α) :=
  let moved : Option (Store α × α × α × Option α) :=
    match (s.node child).left with
    | none => some (s,child,child,(s.node child).right)
    | some next => (s.leftmost fuel child next).map fun r =>
        let child2 := (s.node r.2).right
        (((s.setChild r.1 .left child2).setChild r.2 .right (some child)).rbSetParent child (some r.2),r.1,r.2,child2)
  moved.bind fun m =>
    let successor := m.2.2.1
    match (m.1.node node).left with
    | none => none
    | some tmp =>
      let s := (m.1.setChild successor .left (some tmp)).rbSetParent tmp (some successor)
      let pc := s.node node
      let s := s.rbChangeChild node (some successor) pc.parent
      let black := (s.node successor).black
      let s := s.rbSetParentColor successor pc.parent pc.black
      match m.2.2.2 with
      | some child2 => some (s.rbSetParentColor child2 (some m.2.1) true,none)
      | none => some (s,if black then some m.2.1 else none)

-- `__rb_erase_augmented`
def Store.rbEraseNode (s : Store α) (fuel : Nat) (node : α) : Option (Store α × Option α) :=
  let pc := s.node node
  match pc.left, pc.right with
  | none, some child => some ((s.rbChangeChild node (some child) pc.parent).rbSetParentColor child pc.parent pc.black,none)
  | none, none => some (s.rbChangeChild node none pc.parent,if pc.black then pc.parent else none)
  | some tmp, none => some ((s.rbSetParentColor tmp pc.parent pc.black).rbChangeChild node (some tmp) pc.parent,none)
  | some _, some child => s.rbEraseInner fuel node child

def Store.rbErase (s : Store α) (fuel : Nat) (node : α) : Option (Store α) :=
  (s.rbEraseNode fuel node).bind fun r =>
    match r.2 with
    | none => some r.1
    | some rebalance => r.1.rbEraseColor fuel none rebalance

def Store.first (s : Store α) : Nat → α → Option α
  | 0, _ => none
  | fuel + 1, n =>
    match (s.node n).left with
    | none => some n
    | some l => first s fuel l

def Store.rbFirst (s : Store α) (fuel : Nat) : Option (Option α) :=
  match s.root with
  | none => some none
  | some n => (s.first fuel n).map some

def Store.climb (s : Store α) : Nat → α → Option (Option α)
  | 0, _ => none
  | fuel + 1, node =>
    match (s.node node).parent with
    | none => some none
    | some parent => if (s.node parent).right = some node then climb s fuel parent else some (some parent)

def Store.rbNext (s : Store α) (fuel : Nat) (node : α) : Option (Option α) :=
  if (s.node node).parent = some node ∧ (s.node node).black = false then some none
  else
    match (s.node node).right with
    | some n => (s.first fuel n).map some
    | none => s.climb fuel node

section Rotations
variable {rest : α → Node α} {s : Store α} {path : Path α} {p y z : α} {b c : Bool} {t sl sr a e : Tree α}

theorem eraseOuter (h : Holds rest s path (.node b t p (.node true sl y (.node false a z e)))) :
    Holds rest (s.rbEraseRotate .left p y z) path (.node b (.node true t p sl) y (.node true a z e)) := by
  have list : (Tree.node b (.node true t p sl) y (.node true a z e)).toList =
      (Tree.node b t p (.node true sl y (.node false a z e))).toList := by
    simp [Tree.toList]
  obtain ⟨nodup,⟨cellP,showsT,cellY,showsL,cellZ,showsA,showsE⟩,above,root,frame⟩ := h
  rw [← list] at nodup frame
  obtain ⟨yLeft,yRight,_,nodupP⟩ := nodeNodup.mp nodup
  obtain ⟨_,_,pRest,nodupT⟩ := nodeNodup.mp nodupP
  obtain ⟨_,nodupL,outT⟩ := List.nodup_append.mp nodupT
  obtain ⟨_,nodupZ,outL⟩ := List.nodup_append.mp nodupL
  obtain ⟨za,ze,zk,_⟩ := nodeNodup.mp nodupZ
  simp only [nodeMem,not_or,List.mem_append] at yRight pRest outT outL
  let one := s.rbSetParentColor z (some y) true
  have far (w : α) (wz : w ≠ z) : one.node w = s.node w := modifyOther wz
  have step : s.rbEraseRotate .left p y z = one.rotate .right p y sl.ptr none true := by
    simp only [Store.rbEraseRotate,cellY]
    rfl
  have oneP : one.node p = Node.of .right path.parent b (some y) t.ptr := (far p pRest.1.1).trans cellP
  have oneY : one.node y = Node.of .right (some p) true (Tree.node true a z e).ptr sl.ptr := (far y yRight.1).trans cellY
  have oneZ : Shows one.node (some y) (.node true a z e) := by
    refine ⟨?_,showsFrame (fun w mem => far w fun eq => za (eq ▸ mem)) showsA,showsFrame (fun w mem => far w fun eq => ze (eq ▸ mem)) showsE⟩
    simp [one,Store.rbSetParentColor,cellZ]
  have oneL : Shows one.node (some y) sl := showsFrame (fun w mem => far w fun eq => outL w mem z (.inl (.inl rfl)) eq) showsL
  have oneT : Shows one.node (some p) t := showsFrame (fun w mem => far w fun eq => outT w mem z (.inr (.inl (.inl rfl))) eq) showsT
  have oneUp : ShowsPath one.node (some p) path := showsPathFrame (fun w mem => far w fun eq => zk (eq ▸ mem)) above
  rw [step]
  refine rotateHolds (e := .right) (b := sl) nodup oneP oneY oneZ oneL oneT oneUp root fun w noTree noKeys => ?_
  refine (far w ?_).trans (frame w noTree noKeys)
  rintro rfl
  exact noTree (nodeMem.mpr (.inr (.inr (nodeMem.mpr (.inl rfl)))))

theorem eraseInner (h : Holds rest s path (.node b t p (.node true (.node false a z e) y sr))) :
    Holds rest (s.rbEraseRotateTwice .left p y z) path (.node b (.node true t p a) z (.node true (e.paint true) y sr)) := by
  have list : (Tree.node b (.node true t p a) z (.node true (e.paint true) y sr)).toList =
      (Tree.node b t p (.node true (.node false a z e) y sr)).toList := by
    simp [Tree.toList]
  obtain ⟨nodup,⟨cellP,showsT,cellY,⟨cellZ,showsA,showsE⟩,showsR⟩,above,root,frame⟩ := h
  rw [← list] at nodup frame
  obtain ⟨zLeft,zRight,zk,nodupP⟩ := nodeNodup.mp nodup
  obtain ⟨pt,pa,pRest,nodupT⟩ := nodeNodup.mp nodupP
  obtain ⟨_,nodupA,outT⟩ := List.nodup_append.mp nodupT
  obtain ⟨_,nodupY,outA⟩ := List.nodup_append.mp nodupA
  obtain ⟨ye,yr,yk,nodupE⟩ := nodeNodup.mp nodupY
  rw [paintList] at ye nodupE
  obtain ⟨ownE,_,outE⟩ := List.nodup_append.mp nodupE
  simp only [nodeMem,not_or,List.mem_append,paintList] at zLeft zRight pRest outT outA outE
  obtain ⟨zp,zt,za⟩ := zLeft
  obtain ⟨zy,ze,zr⟩ := zRight
  obtain ⟨⟨py,pe,pr⟩,pk⟩ := pRest
  have offE (w : α) (out : w ∉ e.toList) : e.ptr ≠ some w := fun at_ => out (ptrMem at_)
  let one := ((s.setChild y .left e.ptr).setChild z .right (some y)).setChild p .right (some z)
  let two := one.adopt e.ptr y (some true)
  let three := two.rbSetParentColor y (some z) true
  have near (w : α) (wy : w ≠ y) (wz : w ≠ z) (wp : w ≠ p) : one.node w = s.node w ∧ three.node w = two.node w := by
    simp [one,three,Store.setChild,Store.rbSetParentColor,wy,wz,wp]
  have far (w : α) (wy : w ≠ y) (wz : w ≠ z) (wp : w ≠ p) (we : w ∉ e.toList) : three.node w = s.node w :=
    (near w wy wz wp).2.trans ((adoptOther (offE w we)).trans (near w wy wz wp).1)
  have twoY : two.node y = ⟨some p,true,e.ptr,sr.ptr⟩ :=
    (adoptOther (offE y ye)).trans (by simp [one,Store.setChild,Ne.symm zy,Ne.symm py,cellY,Node.setChild])
  have twoZ : two.node z = ⟨some y,false,a.ptr,some y⟩ :=
    (adoptOther (offE z ze)).trans (by simp [one,Store.setChild,zy,zp,cellZ,Node.setChild])
  have twoP : two.node p = ⟨path.parent,b,t.ptr,some z⟩ :=
    (adoptOther (offE p pe)).trans (by simp [one,Store.setChild,Ne.symm zp,py,cellP,Node.setChild])
  have threeY : three.node y = ⟨some z,true,e.ptr,sr.ptr⟩ := by simp [three,Store.rbSetParentColor,twoY]
  have threeZ : three.node z = Node.of .right (some y) false (some y) a.ptr := by
    simp only [three,Store.rbSetParentColor,modifyOther zy,twoZ]
    rfl
  have threeP : three.node p = Node.of .right path.parent b (some z) t.ptr := by
    simp only [three,Store.rbSetParentColor,modifyOther py,twoP]
    rfl
  have step : s.rbEraseRotateTwice .left p y z = three.rotate .right p z a.ptr none true := by
    have read : s.rbEraseRotateTwice .left p y z = three.rotate .right p z ((two.node z).child .left) none true := by
      simp only [Store.rbEraseRotateTwice,cellZ]
      rfl
    rw [read,twoZ]
    rfl
  have threeE : Shows three.node (some y) (e.paint true) := by
    have oneE : Shows one.node (some z) e := showsFrame
      (fun w mem => (near w (fun eq => ye (eq ▸ mem)) (fun eq => ze (eq ▸ mem)) fun eq => pe (eq ▸ mem)).1) showsE
    have adopted := @adoptShows _ _ one y _ (some true) e ownE oneE
    refine showsFrame (fun w mem => ?_) adopted
    rw [paintList] at mem
    exact (near w (fun eq => ye (eq ▸ mem)) (fun eq => ze (eq ▸ mem)) fun eq => pe (eq ▸ mem)).2
  have threeR : Shows three.node (some y) sr := showsFrame (fun w mem => far w (fun eq => yr (eq ▸ mem)) (fun eq => zr (eq ▸ mem))
    (fun eq => pr (eq ▸ mem)) fun mem' => outE w mem' w (.inl mem) rfl) showsR
  have threeA : Shows three.node (some z) a := showsFrame (fun w mem => far w (fun eq => outA w mem y (.inl (.inl rfl)) eq)
    (fun eq => za (eq ▸ mem)) (fun eq => pa (eq ▸ mem)) fun mem' => outA w mem w (.inl (.inr (.inl mem'))) rfl) showsA
  have threeT : Shows three.node (some p) t := showsFrame (fun w mem => far w (fun eq => outT w mem y (.inr (.inl (.inl rfl))) eq)
    (fun eq => zt (eq ▸ mem)) (fun eq => pt (eq ▸ mem)) fun mem' => outT w mem w (.inr (.inl (.inr (.inl mem')))) rfl) showsT
  have threeUp : ShowsPath three.node (some p) path := showsPathFrame (fun w mem => far w (fun eq => yk (eq ▸ mem)) (fun eq => zk (eq ▸ mem))
    (fun eq => pk (eq ▸ mem)) fun mem' => outE w mem' w (.inr mem) rfl) above
  have threeRoot : three.root = path.top (some p) := by simpa [three,two,one,Store.rbSetParentColor,Store.setChild] using root
  rw [step]
  refine rotateHolds (e := .right) (c := .node true (e.paint true) y sr) (b := a) nodup threeP threeZ ⟨?_,threeE,threeR⟩ threeA threeT threeUp
    threeRoot fun w noTree noKeys => ?_
  · rw [paintPtr]
    exact threeY
  · have out : w ∉ (Tree.node b (.node true t p a) z (.node true (e.paint true) y sr)).toList := noTree
    simp only [nodeMem,not_or,paintList] at out
    exact (far w out.2.2.1 out.1 out.2.1.1 out.2.2.2.1).trans (frame w noTree noKeys)

end Rotations

section Colour
variable {rest : α → Node α} {s : Store α} {fs : Path α} {p y : α} {b c cl cr : Bool} {t sl sr w : Tree α}
  {d : Side} {n fuel : Nat} {q : Option α}

omit [DecidableEq α] in
theorem redShows (h : Shows s.node q t) : s.redOf t.ptr = if t.black then none else t.ptr := by
  cases t with
  | nil => rfl
  | node b l x r => cases b <;> simp [Store.redOf,Tree.black,h.1]

/- One round from a black sibling on: it ends with a balanced tree, or goes on above a black parent. -/
theorem eraseCasesHolds (h : Holds rest s (⟨.left,b,p,.node true sl y sr⟩::fs) t) (balanced : Balanced true n t)
    (left : Balanced cl n sl) (right : Balanced cr n sr) (sound : Sound c (n + 1) (⟨.left,b,p,.node true sl y sr⟩::fs)) :
    ∃ s' u, Holds rest s' fs u ∧ u.toList = (Tree.node b t p (.node true sl y sr)).toList ∧
      (s.rbEraseCases .left p y = (s',none) ∧ (∃ m, Balanced true m (Path.plug fs u)) ∨
        s.rbEraseCases .left p y = (s',Path.parent fs) ∧ b = true ∧ u.ptr = some p ∧ Balanced true (n + 1) u) := by
  have whole : Holds rest s fs (.node b t p (.node true sl y sr)) := holdsFill.mp h
  obtain ⟨_,⟨cellY,showsL,showsR⟩,_⟩ := h.above
  have outer : s.redOf ((s.node y).child Side.left.flip) = if sr.black then none else sr.ptr := by
    rw [cellY]
    exact redShows showsR
  have inner : s.redOf ((s.node y).child .left) = if sl.black then none else sl.ptr := by
    rw [cellY]
    exact redShows showsL
  cases shade : sr.black with
  | false =>
    cases right with
    | nil => contradiction
    | black _ _ => contradiction
    | @red _ a z e one other =>
      refine ⟨_,_,eraseOuter whole,by simp [Tree.toList],.inl ⟨?_,frameBalanced sound (.black balanced left) (.black one other)⟩⟩
      simp only [Store.rbEraseCases,outer]
      rfl
  | true =>
    obtain rfl : cr = true := (balancedBlack right).symm.trans shade
    rw [shade,if_pos rfl] at outer
    cases shade' : sl.black with
    | false =>
      cases left with
      | nil => contradiction
      | black _ _ => contradiction
      | @red _ a z e one other =>
        refine ⟨_,_,eraseInner whole,by simp [Tree.toList],
          .inl ⟨?_,frameBalanced sound (.black balanced one) (.black (paintBalanced other) right)⟩⟩
        simp only [Store.rbEraseCases,outer,inner]
        rfl
    | true =>
      obtain rfl : cl = true := (balancedBlack left).symm.trans shade'
      rw [shade',if_pos rfl] at inner
      have beside : Holds rest s (⟨.right,b,p,t⟩::fs) (.node true sl y sr) := holdsFill.mpr whole
      have one : Holds rest (s.rbSetParentColor y (some p) false) fs (.node b t p (.node false sl y sr)) :=
        holdsFill.mp (paintHolds (d := .left) (e := false) beside)
      have cell := one.subtree.1
      have next : Balanced true (n + 1) (.node true t p (.node false sl y sr)) := .black balanced (.red left right)
      cases b with
      | true =>
        refine ⟨_,_,one,by simp [Tree.toList],.inr ⟨?_,rfl,rfl,next⟩⟩
        simp only [Store.rbEraseCases,outer,inner,cell,if_true]
      | false =>
        have two : Holds rest ((s.rbSetParentColor y (some p) false).rbSetParentColor p (Path.parent fs) true) fs
          (.node true t p (.node false sl y sr)) := paintHolds (d := .left) (e := true) one
        have balanced' : ∃ m, Balanced true m (Path.plug fs (.node true t p (.node false sl y sr))) := by
          cases sound with
          | red up _ _ => exact plugBalanced up (.inl rfl) next
        refine ⟨_,_,two,by simp [Tree.toList],.inl ⟨?_,balanced'⟩⟩
        simp only [Store.rbEraseCases,outer,inner,cell,Bool.false_eq_true,if_false]
        simp only [Store.modify,Store.rbSetParentColor] at cell ⊢
        rw [cell]

/- The sibling of the shorter subtree is there, and black at the latest after case 1, which leaves a red parent. -/
theorem eraseSiblingHolds (h : Holds rest s (⟨.left,b,p,w⟩::fs) t) (sound : Sound c (n + 1) (⟨.left,b,p,w⟩::fs)) :
    ∃ s' b' sl y sr fs', s.rbEraseSibling .left p = some (s',y) ∧ Holds rest s' (⟨.left,b',p,.node true sl y sr⟩::fs') t ∧
      (∃ cl, Balanced cl n sl) ∧ (∃ cr, Balanced cr n sr) ∧ Sound b' (n + 1) (⟨.left,b',p,.node true sl y sr⟩::fs') ∧
      (b' = true → fs' = fs) ∧ (Path.plug (⟨.left,b',p,.node true sl y sr⟩::fs') t).toList = (Path.plug (⟨.left,b,p,w⟩::fs) t).toList := by
  obtain ⟨cellP,showsW,_⟩ := h.above
  have same : c = b := by cases sound <;> rfl
  subst same
  obtain ⟨e,sibling⟩ := frameSibling sound
  cases sibling with
  | @black _ cl cr sl y sr left right =>
    refine ⟨s,c,sl,y,sr,fs,?_,h,⟨_,left⟩,⟨_,right⟩,sound,fun _ => rfl,rfl⟩
    simp only [Store.rbEraseSibling,cellP,ofThere,nodePtr,showsW.1,if_true]
  | @red _ sl y sr left right =>
    cases sound with
    | red _ _ sibling => cases sibling
    | black up _ =>
      cases left with
      | @black _ ca cb a k e inner outer =>
        have whole : Holds rest s fs (.node true t p (.node false (.node true a k e) y sr)) := holdsFill.mp h
        obtain ⟨nodup,⟨_,showsT,cellY,showsK,showsR⟩,above,root,frame⟩ := whole
        have list : (Tree.node true (.node false t p (.node true a k e)) y sr).toList =
            (Tree.node true t p (.node false (.node true a k e) y sr)).toList := by simp [Tree.toList]
        rw [← list] at nodup frame
        have turned : Holds rest (s.rotate .right p y (some k) (some true) false) fs (.node true (.node false t p (.node true a k e)) y sr) :=
          rotateHolds (e := .right) (c := sr) (b := .node true a k e) (a := t) nodup cellP cellY showsR showsK showsT above root frame
        refine ⟨_,false,a,k,e,⟨.left,true,y,sr⟩::fs,?_,holdsFill.mpr (holdsFill.mpr turned),⟨_,inner⟩,⟨_,outer⟩,
          .red (.black up right) (by simp) (.black inner outer),by simp,?_⟩
        · simp only [Store.rbEraseSibling,cellP,ofThere,nodePtr,cellY,Bool.false_eq_true,if_false]
          rfl
        · simp only [Path.plug,Frame.fill,plugList]
          rw [show Tree.of .left true (Tree.of .left false t p (.node true a k e)) y sr =
              .node true (.node false t p (.node true a k e)) y sr from rfl,
            list]
          rfl

theorem eraseColorHolds {f : Frame α} (enough : fs.length < fuel) (side : ∀ g ∈ f::fs, g.side = .left) (h : Holds rest s (f::fs) t)
    (balanced : Balanced true n t) (sound : Sound c (n + 1) (f::fs)) :
    ∃ s' t', Store.rbEraseColor fuel s t.ptr f.key = some s' ∧ Holds rest s' [] t' ∧ (∃ m, Balanced true m t') ∧
      t'.toList = (Path.plug (f::fs) t).toList := by
  induction fuel generalizing s f fs t n c with
  | zero => exact absurd enough (Nat.not_lt_zero _)
  | succ fuel ih =>
    obtain ⟨d,b,p,w⟩ := f
    obtain rfl : d = .left := side _ (.head _)
    obtain ⟨s',b',sl,y,sr,fs',read,holds,⟨cl,left⟩,⟨cr,right⟩,sound',above,list⟩ := eraseSiblingHolds h sound
    have apart : t.ptr ≠ (s.node p).right := by
      rw [h.above.1]
      intro same
      obtain ⟨_,sibling⟩ := frameSibling sound
      obtain ⟨k,here⟩ : ∃ k, w.ptr = some k := by cases sibling <;> exact ⟨_,rfl⟩
      have other : w.ptr = t.ptr := same.symm
      have out := (List.nodup_append.mp h.nodup).2.2 k (ptrMem (other.symm.trans here)) k
      exact out (.tail _ (List.mem_append_left _ (ptrMem here))) rfl
    have step : Store.rbEraseColor (fuel + 1) s t.ptr p =
        match (s'.rbEraseCases .left p y).2 with
        | none => some (s'.rbEraseCases .left p y).1
        | some up => Store.rbEraseColor fuel (s'.rbEraseCases .left p y).1 (some p) up := by
      simp only [Store.rbEraseColor,if_neg apart,read,Option.bind_some]
    obtain ⟨s'',u,holds'',list'',answer⟩ := eraseCasesHolds holds balanced left right sound'
    have whole : (Path.plug fs' u).toList = (Path.plug (⟨.left,b,p,w⟩::fs) t).toList := by
      rw [← list]
      simp only [Path.plug,Frame.fill,plugList,list'']
      rfl
    rw [step]
    rcases answer with ⟨ended,balanced'⟩ | ⟨goes,rfl,here,balanced'⟩
    · rw [ended]
      exact ⟨_,_,rfl,holdsPlug.mp holds'',balanced',whole⟩
    · rw [goes]
      obtain rfl := above rfl
      cases fs' with
      | nil => exact ⟨_,_,rfl,holds'',⟨_,balanced'⟩,whole⟩
      | cons g rest =>
        obtain ⟨e,up⟩ : ∃ e, Sound e (n + 2) (g::rest) := by
          cases sound' with
          | black up _ => exact ⟨_,up⟩
        rw [← here]
        obtain ⟨last,t',ran,done,balanced'',order⟩ := ih (by simp only [List.length_cons] at enough; omega)
          (fun g mem => side g (.tail _ mem)) holds'' balanced' up
        exact ⟨last,t',ran,done,balanced'',order.trans whole⟩

end Colour

section First
variable {rest : α → Node α} {s : Store α} {path : Path α} {x m : α} {b c : Bool} {t r : Tree α} {n fuel : Nat} {q : Option α} {ms : List α}

omit [DecidableEq α] in
theorem childMem {d : Side} {y : α} (h : Shows s.node q t) (mem : x ∈ t.toList) (child : (s.node x).child d = some y) : y ∈ t.toList := by
  induction t generalizing q with
  | nil => exact nomatch mem
  | node b l k r left right =>
    rcases nodeMem.mp mem with rfl | inL | inR
    · rw [h.1] at child
      cases d
      · exact nodeMem.mpr (.inr (.inl (ptrMem child)))
      · exact nodeMem.mpr (.inr (.inr (ptrMem child)))
    · exact nodeMem.mpr (.inr (.inl (left h.2.1 inL)))
    · exact nodeMem.mpr (.inr (.inr (right h.2.2 inR)))

omit [DecidableEq α] in
theorem firstShows (h : Shows s.node q t) (here : t.ptr = some x) (enough : t.toList.length ≤ fuel) :
    ∃ m, s.first fuel x = some m ∧ t.toList.head? = some m := by
  induction t generalizing q x fuel with
  | nil => contradiction
  | node b l k r left right =>
    cases here
    simp only [Tree.toList,List.length_append,List.length_cons] at enough
    obtain ⟨j,rfl⟩ : ∃ j, fuel = j + 1 := ⟨fuel - 1,by omega⟩
    cases lower : l.ptr with
    | none =>
      refine ⟨k,by simp only [Store.first,h.1,lower],?_⟩
      rw [ptrNone lower]
      rfl
    | some y =>
      obtain ⟨m,walked,head⟩ := left h.2.1 lower (show l.toList.length ≤ j by omega)
      refine ⟨m,by simp only [Store.first,h.1,lower,walked],?_⟩
      rw [Tree.toList,List.head?_append,head]
      rfl

omit [DecidableEq α] in
theorem leftEdge (balanced : Balanced b n t) (sound : Sound c n path) (fits : b = true ∨ c = true ∧ path ≠ [])
    (side : ∀ f ∈ path, f.side = .left)
    (some_ : t ≠ .nil) : ∃ path' b' m r n' c', path'.plug (.node b' .nil m r) = path.plug t ∧ Balanced b' n' (.node b' .nil m r) ∧
      Sound c' n' path' ∧ (b' = true ∨ c' = true ∧ path' ≠ []) ∧ ∀ f ∈ path', f.side = .left := by
  induction t generalizing path b c n with
  | nil => exact absurd rfl some_
  | node e l x r left _ =>
    have same : e = b := balancedBlack balanced
    subst same
    by_cases none_ : l = .nil
    · subst none_
      exact ⟨path,e,x,r,n,c,rfl,balanced,sound,fits,side⟩
    · have sides (f : Frame α) (mem : f ∈ (⟨.left,e,x,r⟩ : Frame α)::path) : f.side = .left := by
        rcases List.mem_cons.mp mem with rfl | old
        · rfl
        · exact side f old
      cases balanced with
      | red one other =>
        obtain ⟨rfl,inner⟩ := fits.resolve_left nofun
        exact left one (.red sound inner other) (.inl rfl) sides none_
      | black one other => exact left one (.black sound other) (.inr ⟨rfl,nofun⟩) sides none_

omit [DecidableEq α] in
theorem leftBefore (side : ∀ f ∈ path, f.side = .left) : path.before = [] := by
  induction path with
  | nil => rfl
  | cons f fs ih =>
    rw [Path.before,ih fun g mem => side g (.tail _ mem),side f (.head _)]
    rfl

structure Removed (s s' : Store α) (path : Path α) (r t : Tree α) : Prop where
  holds : Holds s.node s' [] t
  balanced : ∃ n, Balanced true n t
  list : t.toList = path.before ++ r.toList ++ path.after

theorem eraseParent {k : α} (h : Holds rest s path (.node true .nil m (.node false .nil k .nil))) (sound : Sound c 1 path) :
    ∃ s' t', s.rbErase fuel m = some s' ∧ Removed s s' path (.node false .nil k .nil) t' ∧ (s'.node k).left = none := by
  obtain ⟨cellM,_,cellK,_,_⟩ := h.subtree
  obtain ⟨_,mk,mKeys,nodup⟩ := nodeNodup.mp h.nodup
  obtain ⟨_,_,kKeys,nodupKeys⟩ := nodeNodup.mp nodup
  have fresh : (m::path.keys).Nodup := List.nodup_cons.mpr ⟨mKeys,nodupKeys⟩
  obtain ⟨up,root,far⟩ := @changeChildPath _ _ s m (some k) path fresh h.above h.root
  have other (w : α) (wk : w ≠ k) : ((s.rbChangeChild m (some k) path.parent).rbSetParentColor k path.parent true).node w =
      (s.rbChangeChild m (some k) path.parent).node w := modifyOther wk
  have cell : ((s.rbChangeChild m (some k) path.parent).rbSetParentColor k path.parent true).node k = ⟨path.parent,true,none,none⟩ := by
    simp [Store.rbSetParentColor,far k kKeys,cellK]
  have done : s.rbErase fuel m = some ((s.rbChangeChild m (some k) path.parent).rbSetParentColor k path.parent true) := by
    simp only [Store.rbErase,Store.rbEraseNode,cellM]
    rfl
  have holds : Holds s.node ((s.rbChangeChild m (some k) path.parent).rbSetParentColor k path.parent true) path (.node true .nil k .nil) := by
    refine ⟨nodup,⟨cell,trivial,trivial⟩,showsPathFrame (fun w mem => other w fun eq => kKeys (eq ▸ mem)) up,root,fun w out no => ?_⟩
    exact (other w fun eq => out (nodeMem.mpr (.inl eq))).trans (far w no)
  refine ⟨_,_,done,⟨holdsPlug.mp holds,plugBalanced sound (.inl rfl) (.black .nil .nil),?_⟩,by rw [cell]⟩
  rw [plugList]
  rfl

theorem eraseLeaf (enough : path.length ≤ fuel) (h : Holds rest s path (.node b .nil m .nil)) (balanced : Balanced b n (.node b .nil m .nil))
    (sound : Sound c n path) (side : ∀ f ∈ path, f.side = .left) : ∃ s' t', s.rbErase fuel m = some s' ∧ Removed s s' path .nil t' := by
  obtain ⟨cellM,_⟩ := h.subtree
  obtain ⟨_,_,mKeys,nodupKeys⟩ := nodeNodup.mp h.nodup
  have cut : Holds s.node (s.rbChangeChild m none path.parent) path .nil :=
    replaceHolds (u := .nil) h.above h.root mKeys nodupKeys trivial (fun _ _ => rfl) (fun _ _ _ => rfl) rfl
  have whole (t' : Tree α) (same : t'.toList = (path.plug .nil).toList) :
      t'.toList = path.before ++ (Tree.nil : Tree α).toList ++ path.after := by
    rw [same,plugList]
  cases balanced with
  | @red n _ _ _ one other =>
    cases one
    refine ⟨_,_,?_,holdsPlug.mp cut,plugBalanced sound (.inl rfl) .nil,whole _ rfl⟩
    simp only [Store.rbErase,Store.rbEraseNode,cellM]
    rfl
  | black one other =>
    cases one
    cases path with
    | nil =>
      refine ⟨_,_,?_,cut,⟨0,.nil⟩,rfl⟩
      simp only [Store.rbErase,Store.rbEraseNode,cellM]
      rfl
    | cons f fs =>
      obtain ⟨s',t',ran,holds,balanced',list⟩ := eraseColorHolds enough side cut .nil sound
      refine ⟨s',t',?_,holds,balanced',whole t' list⟩
      rw [← ran]
      simp only [Store.rbErase,Store.rbEraseNode,cellM]
      rfl

theorem eraseFirst (h : Holds rest s [] t) (balanced : Balanced true n t) (list : t.toList = m::ms) (enough : t.toList.length ≤ fuel) :
    ∃ s' t', s.rbErase fuel m = some s' ∧ Holds s.node s' [] t' ∧ (∃ n, Balanced true n t') ∧ t'.toList = ms ∧
      s'.rbNext fuel m = some ms.head? := by
  have some_ : t ≠ .nil := by
    rintro rfl
    contradiction
  obtain ⟨path,b,m',r,k,c,whole,balanced',sound,_,side⟩ := leftEdge balanced .top (.inl rfl) (by simp) some_
  have whole : path.plug (.node b .nil m' r) = t := whole
  have position : Holds rest s path (.node b .nil m' r) := holdsPlug.mpr (whole ▸ h)
  have before := leftBefore side
  have cells : t.toList = m'::(r.toList ++ path.after) := by
    rw [← whole,plugList,before]
    simp [Tree.toList]
  obtain ⟨rfl,rfl⟩ := List.cons.inj (list.symm.trans cells)
  have nodup : t.toList.Nodup := (List.nodup_append.mp h.nodup).1
  rw [cells] at nodup enough
  have gone := (List.nodup_cons.mp nodup).1
  obtain ⟨j,rfl⟩ : ∃ j, fuel = j + 1 := ⟨fuel - 1,by simp only [List.length_cons] at enough; omega⟩
  obtain ⟨cell,_⟩ := position.subtree
  have keys := (nodeNodup.mp position.nodup).2.2.1
  have inner : path.parent ≠ some m := by
    cases path with
    | nil => simp [Path.parent]
    | cons f fs => exact fun same => keys (Option.some.inj same ▸ (.head _))
  have stale {s' : Store α} {t' : Tree α} (removed : Removed s s' path r t') :
      t'.toList = r.toList ++ path.after ∧ s'.node m = ⟨path.parent,b,none,r.ptr⟩ := by
    have same : t'.toList = r.toList ++ path.after := by rw [removed.list,before,List.nil_append]
    exact ⟨same,(removed.holds.frame m (same ▸ gone) List.not_mem_nil).trans cell⟩
  have short : path.length ≤ j + 1 := by
    have few := @pathLength _ path
    have perm := (@plugPerm _ (.node b .nil m r) path).length_eq
    rw [whole,cells] at perm
    simp only [List.length_append] at perm
    omega
  cases r with
  | nil =>
    obtain ⟨s',t',ran,removed⟩ := eraseLeaf short position balanced' sound side
    obtain ⟨same,left⟩ := stale removed
    refine ⟨s',t',ran,removed.holds,removed.balanced,same,?_⟩
    rw [Store.rbNext,left,if_neg fun self => inner self.1]
    simp only [nilPtr,Store.climb,left]
    cases path with
    | nil => rfl
    | cons f fs =>
      have first : f.side = .left := side f (.head _)
      have after : Path.after (f::fs) = f.key::(f.sibling.toList ++ Path.after fs) := by rw [Path.after,first]; rfl
      have member : f.key ∈ t'.toList := by rw [same,after]; exact List.mem_append_right _ (.head _)
      have right : (s'.node f.key).right ≠ some m := fun eq => gone (same ▸ childMem (d := .right) removed.holds.subtree member eq)
      simp only [Path.parent,if_neg right,after]
      rfl
  | node e l y u =>
    cases balanced' with
    | red one other =>
      cases one
      cases other
    | black one other =>
      cases one
      cases other with
      | red below beyond =>
        cases below
        cases beyond
        obtain ⟨s',t',ran,removed,leaf⟩ := eraseParent position sound
        obtain ⟨same,left⟩ := stale removed
        refine ⟨s',t',ran,removed.holds,removed.balanced,same,?_⟩
        rw [Store.rbNext,left,if_neg fun self => inner self.1]
        simp only [nodePtr,Store.first,leaf]
        rfl

end First

end LineFS.Base.Rb
