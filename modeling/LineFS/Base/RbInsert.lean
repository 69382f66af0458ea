import LineFS.Base.RbTree

/-! Insertion into a red-black tree of linked nodes: the search for the place, the link and the
repair of the colours on the way up. -/
namespace LineFS.Base.Rb

open List (mem_append mem_cons nodup_append)

universe u v
variable {α : Type u} [DecidableEq α]

def Store.rbInsertRotate (s : Store α) (d : Side) (node parent gparent : α) : Store α :=
  let tmp := (s.node parent).child d.flip
  if tmp = some node then
    let tmp := (s.node node).child d
    let s := (s.setChild parent d.flip tmp).setChild node d (some parent)
    let s := (s.adopt tmp parent (some true)).rbSetParentColor parent (some node) false
    s.rotate d gparent node ((s.node node).child d.flip) (some true) false
  else s.rotate d gparent parent tmp (some true) false

def Store.rbInsertColor : Nat → Store α → α → Option α → Option (Store α)
  | 0, _, _, _ => none
  | _ + 1, s, node, none => some (s.rbSetParentColor node none true)
  | fuel + 1, s, node, some parent =>
    if (s.node parent).black then some s
    else
      match (s.node parent).parent with
      | none => none
      | some gparent =>
        let d : Side := if (s.node gparent).right = some parent then .right else .left
        match (s.node gparent).child d.flip with
        | none => some (s.rbInsertRotate d node parent gparent)
        | some tmp =>
          if (s.node tmp).black then some (s.rbInsertRotate d node parent gparent)
          else
            let s := (s.rbSetParentColor tmp (some gparent) true).rbSetParentColor parent (some gparent) true
            let up := (s.node gparent).parent
            rbInsertColor fuel (s.rbSetParentColor gparent up false) gparent up

section Rotations
variable {rest : α → Node α} {s : Store α} {path : Path α} {d : Side} {x p g : α} {a b c t u : Tree α}

theorem insertOuter (h : Holds rest s path (Tree.of d true (Tree.of d false t p c) g u)) (here : t.ptr = some x) :
    Holds rest (s.rbInsertRotate d x p g) path (Tree.of d true t p (Tree.of d false (c.paint true) g u)) := by
  have list : (Tree.of d true t p (Tree.of d false c g u)).toList = (Tree.of d true (Tree.of d false t p c) g u).toList := by
    cases d <;> simp [Tree.of,Tree.toList]
  obtain ⟨nodup,subtree,above,root,frame⟩ := h
  rw [← list] at nodup frame
  simp only [showsOf,ofPtr] at subtree above root
  obtain ⟨cellG,⟨cellP,showsT,showsC⟩,showsU⟩ := subtree
  have other : c.ptr ≠ some x := by
    intro same
    have inner := (nodup_append.mp (ofNodup.mp nodup).2.2.2).2.2 x (ptrMem here) x
    exact inner (List.mem_append_left _ (ofMem.mpr (.inr (.inl (ptrMem same))))) rfl
  have step : s.rbInsertRotate d x p g = s.rotate d g p c.ptr (some true) false := by
    simp only [Store.rbInsertRotate,cellP,ofThere,if_neg other]
  rw [step]
  exact rotateHolds nodup cellG cellP showsT showsC showsU above root frame

theorem insertInner (h : Holds rest s path (Tree.of d true (Tree.of d false c p (Tree.of d false a x b)) g u)) :
    Holds rest (s.rbInsertRotate d x p g) path (Tree.of d true (Tree.of d false c p (a.paint true)) x (Tree.of d false (b.paint true) g u)) := by
  have list : (Tree.of d true (Tree.of d false c p (a.paint true)) x (Tree.of d false b g u)).toList =
      (Tree.of d true (Tree.of d false c p (Tree.of d false a x b)) g u).toList := by
    cases d <;> simp [Tree.of,Tree.toList]
  obtain ⟨nodup,subtree,above,root,frame⟩ := h
  rw [← list] at nodup frame
  simp only [showsOf,ofPtr] at subtree above root
  obtain ⟨cellG,⟨cellP,showsC,cellX,showsA,showsB⟩,showsU⟩ := subtree
  obtain ⟨xLeft,xRight,xk,nodupP⟩ := ofNodup.mp nodup
  obtain ⟨pc,pa,pRest,nodupC⟩ := ofNodup.mp nodupP
  rw [paintList] at pa nodupC
  obtain ⟨_,nodupA,outC⟩ := nodup_append.mp nodupC
  obtain ⟨ownA,_,outA⟩ := nodup_append.mp nodupA
  simp only [ofMem,paintList,not_or,mem_append] at xLeft xRight pRest outC outA
  obtain ⟨xp,xc,xa⟩ := xLeft
  obtain ⟨xg,xb,xu⟩ := xRight
  have offA (w : α) (out : w ∉ a.toList) : a.ptr ≠ some w := fun at_ => out (ptrMem at_)
  let one := (s.setChild p d.flip a.ptr).setChild x d (some p)
  let two := (one.adopt a.ptr p (some true)).rbSetParentColor p (some x) false
  have near (w : α) (wp : w ≠ p) (wx : w ≠ x) : one.node w = s.node w ∧ two.node w = (one.adopt a.ptr p (some true)).node w := by
    simp [one,two,Store.setChild,Store.rbSetParentColor,wp,wx]
  have far (w : α) (wp : w ≠ p) (wx : w ≠ x) (wa : w ∉ a.toList) : two.node w = s.node w :=
    (near w wp wx).2.trans ((adoptOther (offA w wa)).trans (near w wp wx).1)
  have adoptedP : (one.adopt a.ptr p (some true)).node p = Node.of d (some g) false c.ptr a.ptr :=
    (adoptOther (offA p pa)).trans (by simp [one,Store.setChild,Ne.symm xp,cellP])
  have twoP : two.node p = Node.of d (some x) false c.ptr a.ptr := by simp [two,Store.rbSetParentColor,adoptedP]
  have twoX : two.node x = Node.of d (some p) false (some p) b.ptr := by
    have adopted : (one.adopt a.ptr p (some true)).node x = Node.of d (some p) false (some p) b.ptr :=
      (adoptOther (offA x xa)).trans (by simp [one,Store.setChild,xp,cellX])
    simp [two,Store.rbSetParentColor,xp,adopted]
  have twoG : two.node g = Node.of d path.parent true (some p) u.ptr :=
    (far g (Ne.symm pRest.1.1) (Ne.symm xg) fun mem => outA g mem g (.inl (.inl rfl)) rfl).trans cellG
  have step : s.rbInsertRotate d x p g = two.rotate d g x b.ptr (some true) false := by
    have read : s.rbInsertRotate d x p g = two.rotate d g x ((two.node x).child d.flip) (some true) false := by
      simp only [Store.rbInsertRotate,cellP,cellX,ofThere,ofHere,if_true]
      rfl
    rw [read,twoX,ofThere]
  rw [step]
  refine rotateHolds nodup twoG (by rw [ofPtr]; exact twoX) ?_ (showsFrame (fun w mem => ?_) showsB) (showsFrame (fun w mem => ?_) showsU)
    (showsPathFrame (fun w mem => ?_) above) ?_ fun w noTree noKeys => ?_
  · refine showsOf.mpr ⟨by rw [paintPtr]; exact twoP,showsFrame (fun w mem => ?_) showsC,?_⟩
    · exact far w (fun eq => pc (eq ▸ mem)) (fun eq => xc (eq ▸ mem)) fun mem' => outC w mem w (.inl mem') rfl
    · have oneA : Shows one.node (some x) a :=
        showsFrame (fun w mem => (near w (fun eq => pa (eq ▸ mem)) fun eq => xa (eq ▸ mem)).1) showsA
      have adopted := @adoptShows _ _ one p _ (some true) a ownA oneA
      refine showsFrame (fun w mem => ?_) adopted
      rw [paintList] at mem
      exact (near w (fun eq => pa (eq ▸ mem)) fun eq => xa (eq ▸ mem)).2
  · exact far w (fun eq => pRest.1.2.1 (eq ▸ mem)) (fun eq => xb (eq ▸ mem)) fun mem' => outA w mem' w (.inl (.inr (.inl mem))) rfl
  · exact far w (fun eq => pRest.1.2.2 (eq ▸ mem)) (fun eq => xu (eq ▸ mem)) fun mem' => outA w mem' w (.inl (.inr (.inr mem))) rfl
  · exact far w (fun eq => pRest.2 (eq ▸ mem)) (fun eq => xk (eq ▸ mem)) fun mem' => outA w mem' w (.inr mem) rfl
  · simpa [two,one,Store.rbSetParentColor,Store.setChild] using root
  · have out := noTree
    simp only [ofMem,paintList,not_or] at out
    exact (far w out.2.1.1 out.1 out.2.1.2.2).trans (frame w noTree noKeys)

theorem flipHolds {e : Side} {k : α} {l r : Tree α} (h : Holds rest s path (Tree.of d true (Tree.of e false t p c) g (.node false l k r))) :
    Holds rest (((s.rbSetParentColor k (some g) true).rbSetParentColor p (some g) true).rbSetParentColor g path.parent false) path
      (Tree.of d false (Tree.of e true t p c) g (.node true l k r)) := by
  have uncle : Holds rest s (⟨d.flip,true,g,Tree.of e false t p c⟩::path) (.node false l k r) :=
    holdsFill.mpr (by rw [Frame.fill,ofSwap]; exact h)
  have one := holdsFill.mp (paintHolds (d := .left) (e := true) uncle)
  rw [Frame.fill,ofSwap] at one
  have two := holdsFill.mp (paintHolds (e := true) (holdsFill (f := ⟨d,true,g,.node true l k r⟩).mpr one))
  exact paintHolds two

end Rotations

section Colour
variable {rest : α → Node α} {s : Store α} {path : Path α} {d : Side} {x p g : α} {l r u : Tree α} {q : Option α} {b c : Bool} {n fuel : Nat}

theorem sideOf (cell : s.node g = Node.of d q b (some p) u.ptr) (other : u.ptr ≠ some p) :
    (if (s.node g).right = some p then Side.right else .left) = d := by
  rw [cell]
  cases d
  · exact if_neg other
  · exact if_pos rfl

theorem rotatedHolds {e : Side} {y : Tree α} (h : Holds rest s path (Tree.of d true (Tree.of e false (.node false l x r) p y) g u))
    (left : Balanced true n l) (right : Balanced true n r) (sibling : Balanced true n y) (uncle : Balanced true n u) :
    ∃ t, Holds rest (s.rbInsertRotate d x p g) path t ∧ Balanced true (n + 1) t ∧
      t.toList = (Tree.of d true (Tree.of e false (.node false l x r) p y) g u).toList := by
  by_cases outer : e = d
  · subst outer
    refine ⟨_,insertOuter h rfl,ofBlackTree (.red left right) (ofRed (paintBalanced sibling) uncle),?_⟩
    cases e <;> simp [Tree.of,Tree.toList]
  · have inner : e = d.flip := by cases e <;> cases d <;> first | rfl | contradiction
    subst inner
    obtain ⟨a,b,same,one,other⟩ : ∃ a b, Tree.node false l x r = Tree.of d false a x b ∧ Balanced true n a ∧ Balanced true n b := by
      cases d
      · exact ⟨l,r,rfl,left,right⟩
      · exact ⟨r,l,rfl,right,left⟩
    rw [ofSwap,same] at h ⊢
    refine ⟨_,insertInner h,ofBlackTree (ofRed sibling (paintBalanced one)) (ofRed (paintBalanced other) uncle),?_⟩
    cases d <;> simp [Tree.of,Tree.toList]

theorem insertColorHolds (enough : path.length < fuel) (h : Holds rest s path (.node false l x r)) (left : Balanced true n l)
    (right : Balanced true n r) (sound : Sound c n path) :
    ∃ s' t, Store.rbInsertColor fuel s x path.parent = some s' ∧ Holds rest s' [] t ∧ (∃ m, Balanced true m t) ∧
      t.toList = (path.plug (.node false l x r)).toList := by
  induction fuel generalizing s path l x r n c with
  | zero => exact absurd enough (Nat.not_lt_zero _)
  | succ fuel ih =>
    cases sound with
    | top =>
      exact ⟨_,_,rfl,paintHolds (d := .left) h,⟨n + 1,.black left right⟩,rfl⟩
    | @black _ b e d p u fs up sibling =>
      have black : (s.node p).black = true := by rw [h.above.1,ofBlack]
      exact ⟨s,_,if_pos black,holdsPlug.mp h,plugBalanced (.black up sibling) (.inr ⟨rfl,nofun⟩) (.red left right),rfl⟩
    | @red _ e p y fs up inner sibling =>
      cases up with
      | top => exact absurd rfl inner
      | @black _ b c d g u fs up uncle =>
        have whole : Holds rest s fs (Tree.of d true (Tree.of e false (.node false l x r) p y) g u) := holdsFill.mp (holdsFill.mp h)
        obtain ⟨cellP,_,cellG,showsU,_⟩ := h.above
        have red : (s.node p).black = false := by rw [cellP,ofBlack]
        have parent : (s.node p).parent = some g := by rw [cellP,ofParent]; rfl
        have pu : u.ptr ≠ some p := by
          intro same
          have out := (nodup_append.mp (ofNodup.mp whole.nodup).2.2.2).2.2 p (ofMem.mpr (.inl rfl)) p
          exact out (List.mem_append_left _ (ptrMem same)) rfl
        have side := sideOf cellG pu
        have beside : (s.node g).child d.flip = u.ptr := by rw [cellG,ofThere]
        have list (t : Tree α) (same : t.toList = (Tree.of d true (Tree.of e false (.node false l x r) p y) g u).toList) :
            (Path.plug fs t).toList = (Path.plug (⟨e,false,p,y⟩::⟨d,true,g,u⟩::fs) (.node false l x r)).toList := by
          simp only [Path.plug,Frame.fill,plugList,same]
        have finish (black : Balanced true n u) (step : Store.rbInsertColor (fuel + 1) s x (some p) = some (s.rbInsertRotate d x p g)) :
            ∃ s' t, Store.rbInsertColor (fuel + 1) s x (some p) = some s' ∧ Holds rest s' [] t ∧ (∃ m, Balanced true m t) ∧
              t.toList = (Path.plug (⟨e,false,p,y⟩::⟨d,true,g,u⟩::fs) (.node false l x r)).toList := by
          obtain ⟨t,holds,balanced,same⟩ := rotatedHolds whole left right sibling black
          exact ⟨_,_,step,holdsPlug.mp holds,plugBalanced up (.inl rfl) balanced,list t same⟩
        cases uncle with
        | nil =>
          refine finish .nil ?_
          simp only [Store.rbInsertColor,red,parent,side,beside,nilPtr,Bool.false_eq_true,if_false]
        | @black m b' c' ul k ur one other =>
          refine finish (.black one other) ?_
          simp only [Store.rbInsertColor,red,parent,side,beside,nodePtr,showsU.1,Bool.false_eq_true,if_false,if_true]
        | @red _ ul k ur one other =>
          have flipped := flipHolds whole
          obtain ⟨l',r',same,balancedL,balancedR⟩ : ∃ l' r', Tree.of d false (Tree.of e true (.node false l x r) p y) g (.node true ul k ur) =
              .node false l' g r' ∧ Balanced true (n + 1) l' ∧ Balanced true (n + 1) r' := by
            have raised : Balanced true (n + 1) (Tree.of e true (.node false l x r) p y) := ofBlackTree (.red left right) sibling
            cases d
            · exact ⟨_,_,rfl,raised,.black one other⟩
            · exact ⟨_,_,rfl,.black one other,raised⟩
          have kg : g ≠ k := fun eq => (ofNodup.mp whole.nodup).2.1 (eq ▸ by simp [Tree.toList])
          have pg : g ≠ p := fun eq => (ofNodup.mp whole.nodup).1 (eq ▸ ofMem.mpr (.inl rfl))
          rw [same] at flipped
          obtain ⟨s',t,ran,holds,balanced,order⟩ := ih (by simp only [List.length_cons] at enough; omega) flipped balancedL balancedR up
          refine ⟨s',t,?_,holds,balanced,order.trans (list _ ?_)⟩
          · rw [← ran]
            simp only [Path.parent,Store.rbInsertColor,red,parent,side,beside,nodePtr,showsU.1,Bool.false_eq_true,if_false]
            have kept : (((s.rbSetParentColor k (some g) true).rbSetParentColor p (some g) true).node g).parent = Path.parent fs := by
              simp [Store.rbSetParentColor,kg,pg,cellG]
            rw [kept]
            rfl
          · rw [← same]
            cases d <;> cases e <;> simp [Tree.of,Tree.toList]

end Colour

section Search
variable {κ : Type v} [LinearOrder κ]

def Store.descend (s : Store α) (key : α → κ) (x : α) : Nat → Option α → Option α → Side → Option (Option (Option α × Side))
  | 0, _, _, _ => none
  | _ + 1, none, parent, d => some (some (parent,d))
  | fuel + 1, some y, _, _ =>
    if key x < key y then descend s key x fuel (s.node y).left (some y) .left
    else if key y < key x then descend s key x fuel (s.node y).right (some y) .right
    else some none

def Store.rbLinkNode (s : Store α) (x : α) (parent : Option α) (d : Side) : Store α :=
  let s := s.modify x fun _ => ⟨parent,false,none,none⟩
  match parent with
  | none => { s with root := some x }
  | some p => s.setChild p d (some x)

def Store.rbInsert (s : Store α) (key : α → κ) (fuel : Nat) (x : α) : Option (Store α) :=
  match s.descend key x fuel s.root none .left with
  | none => none
  | some none => some s
  | some (some (parent,d)) => (s.rbLinkNode x parent d).rbInsertColor fuel x parent

variable {rest : α → Node α} {s : Store α} {path : Path α} {x : α} {t : Tree α} {key : α → κ} {b c : Bool} {n fuel : Nat} {d : Side}

structure Place (rest : α → Node α) (s : Store α) (key : α → κ) (x : α) (t : Tree α) (path : Path α) : Prop where
  whole : path.plug .nil = t
  holds : Holds rest s path .nil
  sound : ∃ c, Sound c 0 path
  low : ∀ y ∈ path.before, key y < key x
  high : ∀ y ∈ path.after, key x < key y

omit [DecidableEq α] in
theorem descendFinds (enough : t.toList.length < fuel) (h : Holds rest s path t) (balanced : Balanced b n t) (sound : Sound c n path)
    (fits : b = true ∨ c = true ∧ path ≠ []) (low : ∀ y ∈ path.before, key y < key x) (high : ∀ y ∈ path.after, key x < key y)
    (sorted : t.toList.Pairwise fun y z => key y < key z) (side : ∀ f ∈ path.head?, d = f.side) :
    (∃ y ∈ t.toList, key y = key x ∧ s.descend key x fuel t.ptr path.parent d = some none) ∨
    ((∀ y ∈ t.toList, key y ≠ key x) ∧ ∃ path' d', s.descend key x fuel t.ptr path.parent d = some (some (path'.parent,d')) ∧
      (∀ f ∈ path'.head?, d' = f.side) ∧ Place rest s key x (path.plug t) path') := by
  induction t generalizing path fuel b c n d with
  | nil =>
    obtain ⟨k,rfl⟩ : ∃ k, fuel = k + 1 := ⟨fuel - 1,by omega⟩
    cases balanced
    exact .inr ⟨fun _ mem => (by cases mem),path,d,rfl,side,rfl,h,⟨c,sound⟩,low,high⟩
  | node e l y r left right =>
    obtain ⟨k,rfl⟩ : ∃ k, fuel = k + 1 := ⟨fuel - 1,by omega⟩
    have cell := h.subtree.1
    simp only [Tree.toList,List.length_append,List.length_cons] at enough
    obtain ⟨sortedL,sortedR,cross⟩ := List.pairwise_append.mp sorted
    obtain ⟨above,sortedR⟩ := List.pairwise_cons.mp sortedR
    obtain ⟨n',bl,br,balL,balR,soundL,soundR,fitsL,fitsR⟩ : ∃ n' bl br, Balanced bl n' l ∧ Balanced br n' r ∧
        Sound e n' (⟨.left,e,y,r⟩::path) ∧ Sound e n' (⟨.right,e,y,l⟩::path) ∧ (bl = true ∨ e = true) ∧ (br = true ∨ e = true) := by
      cases balanced with
      | red one other =>
        obtain ⟨rfl,inner⟩ := fits.resolve_left Bool.false_ne_true
        exact ⟨n,true,true,one,other,.red sound inner other,.red sound inner one,.inl rfl,.inl rfl⟩
      | black one other => exact ⟨_,_,_,one,other,.black sound other,.black sound one,.inr rfl,.inr rfl⟩
    rcases lt_trichotomy (key x) (key y) with less | same | greater
    · have step : s.descend key x (k + 1) (some y) path.parent d = s.descend key x k l.ptr (some y) .left := by
        rw [Store.descend,if_pos less,cell]
      rw [nodePtr,step]
      have room : l.toList.length < k := by omega
      have found := left room (holdsFill (f := ⟨.left,e,y,r⟩).mpr h) balL soundL (fitsL.imp_right fun e => ⟨e,by simp⟩)
        (by simpa [Path.before] using low) (fun z mem => ?_) sortedL (d := .left) (by simp)
      · rcases found with ⟨z,mem,equal,answer⟩ | ⟨none_,path',d',answer,place⟩
        · exact .inl ⟨z,List.mem_append_left _ mem,equal,answer⟩
        · refine .inr ⟨fun z mem => ?_,path',d',answer,place⟩
          rcases mem_append.mp mem with inL | inR
          · exact none_ z inL
          · rcases mem_cons.mp inR with rfl | inR
            · exact ne_of_gt less
            · exact ne_of_gt (less.trans (above z inR))
      · simp only [Path.after,List.cons_append,mem_cons,mem_append] at mem
        rcases mem with rfl | inR | behind
        · exact less
        · exact less.trans (above z inR)
        · exact high z behind
    · refine .inl ⟨y,by simp [Tree.toList],same.symm,?_⟩
      rw [nodePtr,Store.descend,if_neg (by rw [same]; exact lt_irrefl _),if_neg (by rw [same]; exact lt_irrefl _)]
    · have step : s.descend key x (k + 1) (some y) path.parent d = s.descend key x k r.ptr (some y) .right := by
        rw [Store.descend,if_neg (not_lt_of_gt greater),if_pos greater,cell]
      rw [nodePtr,step]
      have room : r.toList.length < k := by omega
      have found := right room (holdsFill (f := ⟨.right,e,y,l⟩).mpr h) balR soundR (fitsR.imp_right fun e => ⟨e,by simp⟩)
        (fun z mem => ?_) (by simpa [Path.after] using high) sortedR (d := .right) (by simp)
      · rcases found with ⟨z,mem,equal,answer⟩ | ⟨none_,path',d',answer,place⟩
        · exact .inl ⟨z,List.mem_append_right _ (.tail _ mem),equal,answer⟩
        · refine .inr ⟨fun z mem => ?_,path',d',answer,place⟩
          rcases mem_append.mp mem with inL | inR
          · exact ne_of_lt ((cross z inL y (.head _)).trans greater)
          · rcases mem_cons.mp inR with rfl | inR
            · exact ne_of_lt greater
            · exact none_ z inR
      · simp only [Path.before,mem_append,List.mem_singleton] at mem
        rcases mem with before | inL | rfl
        · exact low z before
        · exact (cross z inL y (.head _)).trans greater
        · exact greater

theorem linkHolds (h : Holds rest s path .nil) (new : x ∉ path.keys) (side : ∀ f ∈ path.head?, d = f.side) :
    Holds rest (s.rbLinkNode x path.parent d) path (.node false .nil x .nil) := by
  obtain ⟨nodup,_,above,root,frame⟩ := h
  have one : (([x] : List α) ++ path.keys).Nodup := List.nodup_cons.mpr ⟨new,nodup⟩
  cases path with
  | nil =>
    refine ⟨one,⟨?_,trivial,trivial⟩,trivial,rfl,fun w out no => ?_⟩
    · simp [Store.rbLinkNode,Path.parent]
    · have other : w ≠ x := fun eq => out (eq ▸ by simp [Tree.toList])
      rw [← frame w List.not_mem_nil no]
      simp [Store.rbLinkNode,Path.parent,other]
  | cons f fs =>
    obtain ⟨cell,beside,up⟩ := above
    obtain rfl : d = f.side := side f rfl
    simp only [Path.keys,mem_cons,mem_append,not_or] at new
    obtain ⟨xf,xb,xfs⟩ := new
    simp only [Tree.toList,List.nil_append,Path.keys,List.nodup_cons,mem_append,not_or] at nodup
    obtain ⟨⟨fb,ff⟩,_⟩ := nodup
    have far (w : α) (wx : w ≠ x) (wf : w ≠ f.key) : (s.rbLinkNode x (some f.key) f.side).node w = s.node w := by
      simp [Store.rbLinkNode,Store.setChild,wx,wf]
    refine ⟨one,⟨?_,trivial,trivial⟩,⟨?_,?_,?_⟩,root,fun w out no => ?_⟩
    · simp [Store.rbLinkNode,Store.setChild,Path.parent,xf]
    · simp [Store.rbLinkNode,Store.setChild,Path.parent,Ne.symm xf,cell]
    · exact showsFrame (fun w mem => far w (fun eq => xb (eq ▸ mem)) fun eq => fb (eq ▸ mem)) beside
    · exact showsPathFrame (fun w mem => far w (fun eq => xfs (eq ▸ mem)) fun eq => ff (eq ▸ mem)) up
    · have other : w ≠ x := fun eq => out (eq ▸ by simp [Tree.toList])
      exact (far w other fun eq => no (eq ▸ (.head _))).trans (frame w List.not_mem_nil no)

structure Ordered (rest : α → Node α) (s : Store α) (key : α → κ) (t : Tree α) : Prop where
  holds : Holds rest s [] t
  balanced : ∃ n, Balanced true n t
  sorted : t.toList.Pairwise fun y z => key y < key z

omit [DecidableEq α] in
theorem orderedRebase (h : Ordered rest s key t) : Ordered s.node s key t :=
  ⟨⟨h.holds.nodup,h.holds.subtree,h.holds.above,h.holds.root,fun _ _ _ => rfl⟩,h.balanced,h.sorted⟩

theorem insertPresent (h : Ordered rest s key t) (enough : t.toList.length < fuel) (mem : x ∈ t.toList) : s.rbInsert key fuel x = some s := by
  obtain ⟨n,balanced⟩ := h.balanced
  have found := descendFinds (x := x) (d := .left) enough h.holds balanced .top (.inl rfl) nofun nofun h.sorted nofun
  rcases found with ⟨_,_,_,answer⟩ | ⟨none_,_⟩
  · have root : s.root = t.ptr := h.holds.root
    rw [Store.rbInsert,root,show (none : Option α) = Path.parent [] from rfl,answer]
  · exact absurd rfl (none_ x mem)

theorem insertAbsent (h : Ordered rest s key t) (enough : t.toList.length + 1 < fuel) (new : ∀ y ∈ t.toList, key y ≠ key x) :
    ∃ s' t', s.rbInsert key fuel x = some s' ∧ Ordered rest s' key t' ∧ ∀ y, y ∈ t'.toList ↔ y = x ∨ y ∈ t.toList := by
  obtain ⟨n,balanced⟩ := h.balanced
  have found := descendFinds (x := x) (d := .left) (Nat.lt_of_succ_lt enough) h.holds balanced .top (.inl rfl) nofun nofun h.sorted nofun
  rcases found with ⟨y,mem,same,_⟩ | ⟨_,path,d,answer,side,place⟩
  · exact absurd same (new y mem)
  · obtain ⟨c,sound⟩ := place.sound
    have keys : t.toList.Perm path.keys := by
      have perm := @plugPerm _ .nil path
      rw [place.whole] at perm
      exact perm
    have fresh : x ∉ path.keys := fun mem => new x (keys.mem_iff.mpr mem) rfl
    have short : path.length < fuel := by
      have := @pathLength _ path
      have := keys.length_eq
      omega
    obtain ⟨s',t',ran,holds,balanced',list⟩ := insertColorHolds short (linkHolds place.holds fresh side) .nil .nil sound
    have order : t'.toList = path.before ++ x::path.after := by
      rw [list,plugList]
      simp [Tree.toList]
    have old : t.toList = path.before ++ path.after := by
      have plugged : (path.plug .nil).toList = t.toList := congrArg Tree.toList place.whole
      rw [← plugged,plugList]
      simp [Tree.toList]
    have sorted := h.sorted
    rw [old] at sorted
    obtain ⟨before,after,cross⟩ := List.pairwise_append.mp sorted
    refine ⟨s',t',?_,⟨holds,balanced',?_⟩,fun y => ?_⟩
    · have root : s.root = t.ptr := h.holds.root
      rw [Store.rbInsert,root,show (none : Option α) = Path.parent [] from rfl,answer]
      exact ran
    · rw [order]
      refine List.pairwise_append.mpr ⟨before,List.pairwise_cons.mpr ⟨place.high,after⟩,fun y mem z mem' => ?_⟩
      rcases mem_cons.mp mem' with rfl | behind
      · exact place.low y mem
      · exact cross y mem z behind
    · rw [order,old]
      simp only [mem_append,mem_cons]
      tauto

end Search

end LineFS.Base.Rb
