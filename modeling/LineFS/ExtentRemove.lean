import LineFS.ExtentInsert

/-! Removal of a range from the extent tree. The walk of `mlfs_ext_remove_space` goes from the leaf of
the last block to the left and stops in a node that is not emptied. It trims what a pass over all
extents would trim, because an extent that keeps a part begins before the range. -/
namespace LineFS.Extents
open List (append_assoc append_nil length_append mem_append mem_append_left mem_append_right mem_cons
  mem_reverse mem_singleton perm_iff_count reverse_reverse)
open Base Kernfs

section Trim
variable (start last : Nat)

def keepPart (ex : Extent) : List Extent :=
  if ex.stop ≤ start ∨ last < ex.eeBlock then [ex]
  else if ex.eeBlock < start then [{ ex with eeLen := start - ex.eeBlock }]
  else []

def trimmed (es : List Extent) : List Extent := es.flatMap (keepPart start last)
def released (es : List Extent) : List Nat := Seg.dropped start last (es.map Extent.seg)

def Ends (es : List Extent) : Prop := ∀ ex ∈ es, ex.eeBlock ≤ last → ex.stop ≤ last + 1

variable {start last} {es ds : List Extent} {x y : Extent}

@[simp] theorem trimmedNil : trimmed start last [] = [] := rfl
@[simp] theorem trimmedCons : trimmed start last (x::es) = keepPart start last x ++ trimmed start last es := rfl
@[simp] theorem trimmedAppend : trimmed start last (es ++ ds) = trimmed start last es ++ trimmed start last ds :=
  List.flatMap_append
@[simp] theorem releasedNil : released start last [] = [] := rfl
@[simp] theorem releasedAppend : released start last (es ++ ds) = released start last es ++ released start last ds := by
  simp [released]

theorem keepPlain (plain : Plain x) (mem : y ∈ keepPart start last x) :
    Plain y ∧ y.eeBlock = x.eeBlock ∧ y.stop ≤ x.stop := by
  unfold keepPart at mem
  split_ifs at mem with out tail
  · cases mem_singleton.mp mem
    exact ⟨plain,rfl,Nat.le_refl _⟩
  · cases mem_singleton.mp mem
    have long : x.stop = x.eeBlock + x.eeLen := by rw [Extent.stop,plainLen plain]
    have bound := plain.2
    have part : Plain { x with eeLen := start - x.eeBlock } := ⟨by simp only; omega,by simp only; omega⟩
    refine ⟨part,rfl,?_⟩
    rw [Extent.stop,plainLen part]
    simp only
    omega
  · cases mem

theorem keepSeg (plain : Plain x) : (keepPart start last x).map Extent.seg = Seg.keep start last x.seg := by
  unfold keepPart Seg.keep
  have whole : x.seg.stop = x.stop := rfl
  have low : x.seg.low = x.eeBlock := rfl
  rw [whole,low]
  split_ifs with out tail
  · rfl
  · have mem : { x with eeLen := start - x.eeBlock } ∈ keepPart start last x := by
      rw [keepPart,if_neg out,if_pos tail]
      exact mem_singleton.mpr rfl
    rw [List.map_singleton,Extent.seg,plainLen (keepPlain plain mem).1]
    rfl
  · rfl

theorem trimmedSeg (plain : ∀ ex ∈ es, Plain ex) :
    (trimmed start last es).map Extent.seg = Seg.cut start last (es.map Extent.seg) := by
  induction es with
  | nil => rfl
  | cons ex es ih =>
    rw [trimmedCons,List.map_append,keepSeg (plain ex (.head _)),
      ih fun e mem => plain e (.tail ex mem)]
    rfl

theorem trimmedMem (mem : y ∈ trimmed start last es) : ∃ ex ∈ es, y ∈ keepPart start last ex :=
  List.mem_flatMap.mp mem

theorem trimmedValid (valid : Valid es) : Valid (trimmed start last es) := by
  refine ⟨fun y mem => ?_,?_⟩
  · obtain ⟨ex,inside,kept⟩ := trimmedMem mem
    obtain ⟨plain,_,stop⟩ := keepPlain (valid.plain ex inside).1 kept
    exact ⟨plain,Nat.le_trans stop (valid.plain ex inside).2⟩
  · rw [trimmedSeg fun ex mem => (valid.plain ex mem).1]
    exact Seg.cutOrdered valid.ordered

theorem trimmedAway (out : ∀ ex ∈ es, ex.stop ≤ start ∨ last < ex.eeBlock) :
    trimmed start last es = es ∧ released start last es = [] := by
  induction es with
  | nil => exact ⟨rfl,rfl⟩
  | cons ex es ih =>
    have here := out ex (.head _)
    obtain ⟨kept,none_⟩ := ih fun e mem => out e (.tail ex mem)
    refine ⟨?_,?_⟩
    · rw [trimmedCons,kept,keepPart,if_pos here]
      rfl
    · have dropped : Seg.drop start last ex.seg = [] := if_pos here
      rw [released,List.map_cons,Seg.droppedCons,dropped]
      exact none_

theorem trimmedLength : (trimmed start last es).length ≤ es.length := by
  induction es with
  | nil => exact Nat.le_refl 0
  | cons ex es ih =>
    have one : (keepPart start last ex).length ≤ 1 := by
      unfold keepPart
      split_ifs <;> simp
    rw [trimmedCons,length_append,List.length_cons]
    omega

theorem rmPart (plain : Plain x) (inside : ¬x.stop ≤ start) (behind : ¬last < x.eeBlock) :
    (if max x.eeBlock start - x.eeBlock = 0 then [] else
      [if x.isUnwritten then Extent.markUnwritten { x with eeLen := max x.eeBlock start - x.eeBlock }
        else { x with eeLen := max x.eeBlock start - x.eeBlock }]) = keepPart start last x ∧
    List.range' (x.eeStart + (max x.eeBlock start - x.eeBlock)) (x.actualLen - (max x.eeBlock start - x.eeBlock)) =
      released start last [x] := by
  have out : ¬(x.stop ≤ start ∨ last < x.eeBlock) := by omega
  have dropped : released start last [x] =
      List.range' (x.eeStart + (start - x.eeBlock)) (x.stop - max x.eeBlock start) := by
    rw [released,List.map_singleton,Seg.dropped,List.flatMap_singleton,Seg.drop]
    exact if_neg out
  have num : max x.eeBlock start - x.eeBlock = start - x.eeBlock := by omega
  refine ⟨?_,?_⟩
  · rw [keepPart,if_neg out,num,plainWritten plain]
    by_cases tail : x.eeBlock < start
    · rw [if_neg (by omega),if_pos tail]
      rfl
    · rw [if_pos (by omega),if_neg tail]
  · rw [dropped,num,Extent.stop]
    congr 1
    omega

theorem rmExtentsTrims (start : Nat) {left : List Extent} (right : List Extent) (valid : Valid left.reverse) (ends : Ends last left.reverse) :
    ∃ freed changed, rmExtents start last left right = some (trimmed start last left.reverse ++ right,freed,changed) ∧
      freed.Perm (released start last left.reverse) ∧
      (changed = false → first Extent.eeBlock (trimmed start last left.reverse ++ right) =
        first Extent.eeBlock (left.reverse ++ right)) := by
  induction left generalizing right with
  | nil => exact ⟨[],false,rfl,.refl _,fun _ => rfl⟩
  | cons ex left ih =>
    rw [List.reverse_cons] at valid ends ⊢
    have plain := (valid.plain ex (by simp)).1
    have inner (right : List Extent) := ih right (validLeft valid) fun e mem => ends e (mem_append_left _ mem)
    rw [rmExtents]
    by_cases stop : ex.stop ≤ start
    · have away : ∀ e ∈ left.reverse ++ [ex], e.stop ≤ start ∨ last < e.eeBlock := by
        intro e mem
        rcases memSnoc mem with mem | rfl
        · have apart := validApart valid mem (.head _)
          have less := plainStop plain
          exact .inl (by omega)
        · exact .inl stop
      obtain ⟨same,none_⟩ := trimmedAway away
      rw [if_pos stop,same,none_]
      exact ⟨[],false,by simp,.refl _,fun _ => rfl⟩
    rw [if_neg stop]
    by_cases behind : last < ex.eeBlock
    · obtain ⟨freed,changed,done,perm,same⟩ := inner (ex::right)
      have away : ∀ e ∈ [ex], e.stop ≤ start ∨ last < e.eeBlock := fun e mem => by
        cases mem_singleton.mp mem
        exact .inr behind
      obtain ⟨kept,none_⟩ := trimmedAway away
      rw [if_pos behind,done,trimmedAppend,releasedAppend,kept,none_]
      exact ⟨freed,changed,by simp,by simpa using perm,by simpa using same⟩
    have within := ends ex (by simp) (by omega)
    have less := plainStop plain
    rw [if_neg behind,if_neg (by omega)]
    obtain ⟨part,gone⟩ := rmPart plain stop behind
    simp only [part,gone]
    obtain ⟨freed,changed,done,perm,same⟩ := inner (keepPart start last ex ++ right)
    rw [done]
    refine ⟨released start last [ex] ++ freed,changed || left.isEmpty,?_,?_,?_⟩
    · simp
    · rw [releasedAppend]
      exact (List.Perm.append_left _ perm).trans List.perm_append_comm
    · intro unchanged
      obtain ⟨unchanged,more⟩ := Bool.or_eq_false_iff.mp unchanged
      have some : left.reverse ≠ [] := by simpa using more
      have same := same unchanged
      rw [firstLeft some] at same
      rw [trimmedAppend,append_assoc,append_assoc,firstLeft some,← same]
      simp

end Trim

def Frees (freed data bs cs : List Nat) : Prop := ∃ gone, freed.Perm (data ++ gone) ∧ (gone ++ cs).Perm bs

theorem freesPerm {freed data bs cs ds : List Nat} (frees : Frees freed data bs cs) (perm : bs.Perm ds) :
    Frees freed data ds cs := by
  obtain ⟨gone,all,rest⟩ := frees
  exact ⟨gone,all,rest.trans perm⟩

theorem freesAppend {freed data bs cs freed' data' bs' cs' : List Nat} (frees : Frees freed data bs cs)
    (frees' : Frees freed' data' bs' cs') : Frees (freed ++ freed') (data' ++ data) (bs' ++ bs) (cs' ++ cs) := by
  obtain ⟨gone,all,rest⟩ := frees
  obtain ⟨gone',all',rest'⟩ := frees'
  refine ⟨gone ++ gone',perm_iff_count.mpr fun b => ?_,perm_iff_count.mpr fun b => ?_⟩
  · have one := perm_iff_count.mp all b
    have two := perm_iff_count.mp all' b
    simp only [List.count_append] at one two ⊢
    omega
  · have one := perm_iff_count.mp rest b
    have two := perm_iff_count.mp rest' b
    simp only [List.count_append] at one two ⊢
    omega

theorem freesNone (bs : List Nat) : Frees [] [] bs bs := ⟨[],.refl _,.refl _⟩
theorem freesBlock (b : Nat) : Frees [b] [] [b] [] := ⟨[b],.refl _,.refl _⟩

def Swept.flat (h : Nat) (w : Swept) : List Extent := (w.node.map (Node.flat h)).getD []
def Swept.blks (h : Nat) (w : Swept) : List Nat := (w.node.map (Node.blks h)).getD []

structure Sweeps (start last h cap : Nat) (es : List Extent) (bs : List Nat) (w : Swept) : Prop where
  flat : w.flat h = trimmed start last es
  good : ∀ n ∈ w.node, Good Extent.eeBlock spaceBlock h n ∧ n.entries ≤ cap ∧ n.flat h ≠ []
  key : w.flat h ≠ [] → first Extent.eeBlock (w.flat h) = w.key.or (first Extent.eeBlock es)
  freed : Frees w.freed (released start last es) bs (w.blks h)

structure SweepsList (start last h : Nat) (left right cs : List (Link × Node Extent)) (key : Option Nat) (freed : List Nat) :
    Prop where
  children : ∀ c ∈ cs, Child Extent.eeBlock spaceBlock h c
  count : cs.length ≤ left.length
  flat : under h cs = trimmed start last (under h left)
  key : under h (cs ++ right) ≠ [] →
    first Extent.eeBlock (under h (cs ++ right)) = key.or (first Extent.eeBlock (under h (left ++ right)))
  freed : Frees freed (released start last (under h left)) (below h left) (below h cs)

section Walk
variable {start last h cap : Nat} {es : List Extent} {n : Node Extent} {left right : List (Link × Node Extent)}

theorem rmLeafSweeps (valid : Valid es) (ends : Ends last es) (size : es.length ≤ cap) :
    ∃ w, mlfsExtRmLeaf start last es = some w ∧ Sweeps start last 0 cap es [] w := by
  rw [← reverse_reverse es] at valid ends
  obtain ⟨freed,changed,done,perm,same⟩ := rmExtentsTrims start [] valid ends
  simp only [reverse_reverse,append_nil] at done perm same
  refine ⟨_,by rw [mlfsExtRmLeaf,done]; rfl,?_⟩
  have key : first Extent.eeBlock (trimmed start last es) =
      (if changed then (trimmed start last es).head?.map Extent.eeBlock else none).or (first Extent.eeBlock es) ∨
      trimmed start last es = [] := by
    cases changed with
    | false => exact .inl (same rfl)
    | true =>
      cases trimmed start last es with
      | nil => exact .inr rfl
      | cons => exact .inl rfl
  have bound : (trimmed start last es).length ≤ cap := Nat.le_trans trimmedLength size
  by_cases empty : trimmed start last es = []
  · refine ⟨?_,?_,?_,?_⟩
    all_goals simp [Swept.flat,Swept.blks,empty]
    exact ⟨[],by simpa using perm,.refl _⟩
  · have whole : (trimmed start last es).isEmpty = false := by simpa using empty
    simp only [whole,Bool.false_eq_true,if_false]
    refine ⟨rfl,?_,fun _ => key.resolve_right empty,?_⟩
    · intro n mem
      cases mem
      exact ⟨trivial,bound,empty⟩
    · exact ⟨[],by simpa using perm,.refl _⟩

theorem trimmedLeft {ds : List Extent} (valid : Valid (es ++ ds)) (inside : ∀ e ∈ es ++ ds, e.stop ≤ last + 1)
    (some : trimmed start last ds ≠ []) : trimmed start last es = es ∧ released start last es = [] := by
  obtain ⟨y,mem⟩ := List.exists_mem_of_ne_nil _ some
  obtain ⟨ex,inDs,kept⟩ := trimmedMem mem
  have plain := (valid.plain ex (mem_append_right _ inDs)).1
  have less := plainStop plain
  have bound := inside ex (mem_append_right _ inDs)
  have early : ex.eeBlock < start := by
    unfold keepPart at kept
    split_ifs at kept with out tail
    · omega
    · exact tail
    · cases kept
  refine trimmedAway fun e inEs => .inl ?_
  have apart := validApart valid inEs inDs
  omega

variable {c : Link × Node Extent} {cs : List (Link × Node Extent)}

theorem sweepsOne {w : Swept} (child : Child Extent.eeBlock spaceBlock h c)
    (rights : ∀ d ∈ right, Child Extent.eeBlock spaceBlock h d)
    (sweeps : Sweeps start last h spaceBlock (c.2.flat h) (c.2.blks h) w) :
    SweepsList start last h [c] right (kept w c.1) (if w.node.isNone then some (nextKey right c.1.key) else w.key)
      (w.freed ++ if w.node.isNone then [c.1.blk] else []) := by
  have flat := sweeps.flat
  have freed := sweeps.freed
  unfold kept
  cases node : w.node with
  | none =>
    simp only [Swept.flat,Swept.blks,node,Option.map_none,Option.getD_none] at flat freed
    refine ⟨by simp,Nat.zero_le 1,?_,fun some => ?_,?_⟩
    · simp [← flat]
    · obtain ⟨d,ds,rfl⟩ := List.exists_cons_of_ne_nil (show right ≠ [] from fun h => some (by rw [h]; rfl))
      rw [List.nil_append,underFirst (rights d (.head _))]
      rfl
    · have both := freesAppend freed (freesBlock c.1.blk)
      simpa using both
  | some m =>
    obtain ⟨good,size,some⟩ := sweeps.good m node
    have key := sweeps.key
    simp only [Swept.flat,Swept.blks,node,Option.map_some,Option.getD_some] at flat freed key
    have key := key some
    rw [child.2.2] at key
    have kept : Child Extent.eeBlock spaceBlock h ({ c.1 with key := w.key.getD c.1.key },m) := by
      refine ⟨good,size,?_⟩
      rw [key]
      cases w.key <;> rfl
    refine ⟨fun d mem => mem_singleton.mp mem ▸ kept,Nat.le_refl 1,by simp [flat],fun _ => ?_,?_⟩
    · rw [List.singleton_append,List.singleton_append,underFirst kept,underFirst child]
      cases w.key <;> rfl
    · have both := freesAppend freed (freesNone [c.1.blk])
      simpa using both

theorem sweepsStay (children : ∀ d ∈ left, Child Extent.eeBlock spaceBlock h d)
    (away : trimmed start last (under h left) = under h left ∧ released start last (under h left) = []) :
    SweepsList start last h left right left none [] :=
  ⟨children,Nat.le_refl _,away.1.symm,fun _ => rfl,by rw [away.2]; exact freesNone _⟩

theorem sweepsJoin {here : List (Link × Node Extent)} {key key' : Option Nat}
    {freed freed' : List Nat} (lefts : ∀ d ∈ left, Child Extent.eeBlock spaceBlock h d)
    (one : SweepsList start last h [c] right here key freed)
    (rest : SweepsList start last h left (here ++ right) cs key' freed') :
    SweepsList start last h (left ++ [c]) right (cs ++ here) (if left.isEmpty then key else key') (freed ++ freed') := by
  have countOne := one.count
  have countRest := rest.count
  refine ⟨fun d mem => (mem_append.mp mem).elim (rest.children d) (one.children d),?_,?_,fun some => ?_,?_⟩
  · rw [length_append,length_append]
    omega
  · rw [underAppend,underAppend,trimmedAppend,rest.flat,one.flat]
  · rw [append_assoc] at some ⊢
    by_cases first_ : left = []
    · subst first_
      have none_ : cs = [] := List.length_eq_zero_iff.mp (Nat.le_zero.mp countRest)
      subst none_
      exact one.key some
    · have listed : under h left ≠ [] := underSome lefts first_
      have whole : left.isEmpty = false := by simpa using first_
      have key := rest.key some
      simp only [underAppend,append_assoc,firstLeft listed,whole,Bool.false_eq_true,if_false] at key ⊢
      exact key
  · rw [underAppend,releasedAppend,belowAppend,belowAppend]
    exact freesAppend one.freed rest.freed

theorem childMem {e : Extent} (mem : c ∈ left) (inside : e ∈ c.2.flat h) : e ∈ under h left :=
  List.mem_flatMap.mpr ⟨c,mem,inside⟩

theorem validChild (valid : Valid (under h left)) (mem : c ∈ left) : Valid (c.2.flat h) := by
  obtain ⟨pre,post,rfl⟩ := List.append_of_mem mem
  rw [underAppend,underCons,← append_assoc] at valid
  exact validMiddle valid

theorem rmIndexesSweeps {rm : Node Extent → Option Swept} (left right : List (Link × Node Extent))
    (each : ∀ c ∈ left, ∃ w, rm c.2 = some w ∧ Sweeps start last h spaceBlock (c.2.flat h) (c.2.blks h) w)
    (children : ∀ c ∈ left.reverse, Child Extent.eeBlock spaceBlock h c)
    (rights : ∀ c ∈ right, Child Extent.eeBlock spaceBlock h c) (valid : Valid (under h left.reverse))
    (inside : ∀ e ∈ under h left.reverse, e.stop ≤ last + 1) :
    ∃ cs key freed, rmIndexes rm left right = some (cs ++ right,key,freed) ∧
      SweepsList start last h left.reverse right cs key freed := by
  induction left with
  | nil => exact ⟨[],none,[],rfl,by simp,Nat.le_refl 0,rfl,fun _ => rfl,freesNone []⟩
  | cons c left ih =>
    rw [List.reverse_cons] at children valid inside ⊢
    obtain ⟨w,done,sweeps⟩ := each c (.head _)
    have lefts : ∀ d ∈ left.reverse, Child Extent.eeBlock spaceBlock h d := fun d mem =>
      children d (mem_append_left _ mem)
    have one := sweepsOne (children c (by simp)) rights sweeps
    have flat := sweeps.flat
    simp only [underAppend,underCons,underNil,append_nil] at valid inside
    cases node : w.node with
    | some m =>
      have some := (sweeps.good m node).2.2
      simp only [kept,node] at one
      simp only [Swept.flat,node,Option.map_some,Option.getD_some] at flat
      have joined := sweepsJoin lefts one (sweepsStay lefts (trimmedLeft valid inside (flat ▸ some)))
      refine ⟨_,_,_,?_,joined⟩
      simp [rmIndexes,done,node]
    | none =>
      simp only [kept,node] at one
      obtain ⟨cs,key,freed,rest,list⟩ := ih (fun d mem => each d (.tail c mem)) lefts (validLeft valid)
        (fun e mem => inside e (mem_append_left _ mem))
      refine ⟨_,_,_,?_,sweepsJoin lefts one list⟩
      simp [rmIndexes,done,node,rest]

theorem indexSweeps {key : Option Nat} {freed : List Nat}
    (list : SweepsList start last h left right cs key freed) (rights : ∀ c ∈ right, Child Extent.eeBlock spaceBlock h c)
    (away : trimmed start last (under h right) = under h right ∧ released start last (under h right) = [])
    (size : left.length + right.length ≤ cap) :
    Sweeps start last (h + 1) cap (under h (left ++ right)) (below h (left ++ right)) ⟨indexNode (cs ++ right),key,freed⟩ := by
  have children : ∀ c ∈ cs ++ right, Child Extent.eeBlock spaceBlock h c := fun c mem =>
    (mem_append.mp mem).elim (list.children c) (rights c)
  have count := list.count
  have flat : Swept.flat (h + 1) ⟨indexNode (cs ++ right),key,freed⟩ = under h (cs ++ right) := by
    rw [Swept.flat,indexNode]
    cases cs ++ right <;> rfl
  have blks : Swept.blks (h + 1) ⟨indexNode (cs ++ right),key,freed⟩ = below h (cs ++ right) := by
    rw [Swept.blks,indexNode]
    cases cs ++ right <;> rfl
  refine ⟨?_,fun n mem => ?_,fun some => ?_,?_⟩
  · rw [flat,underAppend,underAppend,trimmedAppend,list.flat,away.1]
  · simp only [indexNode] at mem
    split_ifs at mem with empty
    · cases mem
    · cases mem
      refine ⟨goodIndex.mpr children,?_,underSome children (by simpa using empty)⟩
      rw [entriesIndex,length_append]
      omega
  · rw [flat] at some ⊢
    exact list.key some
  · have both := freesAppend (freesNone (below h right)) list.freed
    rw [blks,underAppend,releasedAppend,away.2,belowAppend,belowAppend]
    exact both

theorem rmNodeSweeps (good : Good Extent.eeBlock spaceBlock h n) (size : n.entries ≤ cap) (valid : Valid (n.flat h))
    (inside : ∀ e ∈ n.flat h, e.stop ≤ last + 1) :
    ∃ w, rmNode start last h n = some w ∧ Sweeps start last h cap (n.flat h) (n.blks h) w := by
  induction h generalizing n cap with
  | zero =>
    obtain ⟨es,rfl⟩ := goodLeaf good
    exact rmLeafSweeps valid (fun e mem _ => inside e mem) size
  | succ h ih =>
    obtain ⟨cs,rfl⟩ := goodShape good
    have children := goodIndex.mp good
    have each : ∀ c ∈ cs, ∃ w, rmNode start last h c.2 = some w ∧
        Sweeps start last h spaceBlock (c.2.flat h) (c.2.blks h) w := by
      intro c mem
      have child := children c mem
      exact ih child.1 child.2.1 (validChild valid mem) fun e inE => inside e (childMem mem inE)
    rw [← reverse_reverse cs] at children valid inside
    obtain ⟨ds,key,freed,done,list⟩ := rmIndexesSweeps cs.reverse []
      (fun c mem => each c (mem_reverse.mp mem)) children (by simp) valid inside
    rw [reverse_reverse] at list
    rw [rmNode,done]
    refine ⟨_,rfl,?_⟩
    have whole : Sweeps start last (h + 1) cap (under h (cs ++ [])) (below h (cs ++ [])) ⟨indexNode (ds ++ []),key,freed⟩ :=
      indexSweeps list (by simp) ⟨rfl,rfl⟩ size
    rwa [append_nil] at whole

theorem rmFrameSweeps {f : Frame Extent} {fs : List (Frame Extent)} {w : Swept} (fits : Fits h n (f::fs))
    (sweeps : Sweeps start last h (ehMax (f::fs)) (n.flat h) (n.blks h) w)
    (valid : Valid (before h (f::fs) ++ n.flat h ++ after h (f::fs)))
    (inside : ∀ e ∈ before h (f::fs), e.stop ≤ last + 1)
    (behind : ∀ e ∈ after h (f::fs), last < e.eeBlock) (high : spaceRoot < f.here.blk) :
    ∃ w', rmPath start last h w (f::fs) = rmPath start last (h + 1) w' fs ∧
      Sweeps start last (h + 1) (ehMax fs) ((f.fill n).flat (h + 1)) ((f.fill n).blks (h + 1)) w' := by
  obtain ⟨children,many,_⟩ := fits.sides
  have lefts : ∀ d ∈ f.left, Child Extent.eeBlock spaceBlock h d := fun d mem => children d (mem_append_left _ mem)
  have rights : ∀ d ∈ f.right, Child Extent.eeBlock spaceBlock h d := fun d mem => children d (mem_append_right _ mem)
  have child : Child Extent.eeBlock spaceBlock h (f.here,n) := goodIndex.mp (spotUp.mp fits).good (f.here,n) (by simp)
  have away : trimmed start last (under h f.right) = under h f.right ∧ released start last (under h f.right) = [] :=
    trimmedAway fun e mem => .inr (behind e (mem_append_left _ mem))
  have one := sweepsOne child rights sweeps
  have count := one.count
  have entries : f.entries = f.left.length + f.right.length + 1 := rfl
  have size : (f.left ++ [(f.here,n)]).length + f.right.length ≤ ehMax fs := by
    have bound : f.entries ≤ ehMax fs := many
    rw [length_append,List.length_singleton]
    omega
  have whole {cs : List (Link × Node Extent)} {key : Option Nat} {freed : List Nat}
      (list : SweepsList start last h (f.left ++ [(f.here,n)]) f.right cs key freed) :
      Sweeps start last (h + 1) (ehMax fs) ((f.fill n).flat (h + 1)) ((f.fill n).blks (h + 1))
        ⟨indexNode (cs ++ f.right),key,freed⟩ := by
    have sweeps := indexSweeps list rights away size
    rw [append_assoc] at sweeps
    exact sweeps
  rw [rmPath]
  generalize kept w f.here = here at one count ⊢
  by_cases leftmost : f.left = []
  · rw [if_pos (by simpa using leftmost)]
    refine ⟨_,rfl,whole ?_⟩
    rw [leftmost]
    exact one
  have apart : f.left.length + here.length + f.right.length ≠ (if fs.isEmpty then f.here.blk else f.entries + 1) := by
    cases fs with
    | nil =>
      have bound : f.entries ≤ spaceRoot := many
      simp only [List.isEmpty_nil,if_true]
      simp only [List.length_singleton] at count
      omega
    | cons =>
      simp only [List.isEmpty_cons,Bool.false_eq_true,if_false]
      simp only [List.length_singleton] at count
      omega
  rw [if_neg (by simpa using leftmost),if_neg apart]
  simp only [before] at valid inside
  have early : ∀ e ∈ under h f.left, e.stop ≤ last + 1 := fun e mem => inside e (mem_append_right _ mem)
  rw [append_assoc (_ ++ _)] at valid
  have validLefts : Valid (under h f.left) := validMiddle valid
  have each : ∀ c ∈ f.left.reverse, ∃ w, rmNode start last h c.2 = some w ∧
      Sweeps start last h spaceBlock (c.2.flat h) (c.2.blks h) w := by
    intro c mem
    have mem := mem_reverse.mp mem
    have child := lefts c mem
    exact rmNodeSweeps child.1 child.2.1 (validChild validLefts mem) fun e inE => early e (childMem mem inE)
  rw [← reverse_reverse f.left] at early validLefts
  obtain ⟨cs,key,freed,done,list⟩ := rmIndexesSweeps f.left.reverse (here ++ f.right) each
    (fun d mem => lefts d (mem_reverse.mp (mem_reverse.mp mem)))
    (fun d mem => (mem_append.mp mem).elim (one.children d) (rights d)) validLefts early
  rw [reverse_reverse] at list
  have joined := whole (sweepsJoin lefts one list)
  have more : f.left.isEmpty = false := by simpa using leftmost
  rw [more,if_neg Bool.false_ne_true,append_assoc cs] at joined
  exact ⟨_,by rw [done]; rfl,joined⟩

theorem rmPathSweeps {fs : List (Frame Extent)} {w : Swept} (fits : Fits h n fs)
    (sweeps : Sweeps start last h (ehMax fs) (n.flat h) (n.blks h) w)
    (valid : Valid (before h fs ++ n.flat h ++ after h fs)) (inside : ∀ e ∈ before h fs, e.stop ≤ last + 1)
    (behind : ∀ e ∈ after h fs, last < e.eeBlock) (high : ∀ b ∈ around h fs, spaceRoot < b) :
    ∃ w', rmPath start last h w fs = some w' ∧
      Sweeps start last (h + fs.length) spaceRoot ((plug n fs).flat (h + fs.length)) ((plug n fs).blks (h + fs.length)) w' := by
  induction fs generalizing h n w with
  | nil => exact ⟨w,rfl,sweeps⟩
  | cons f fs ih =>
    obtain ⟨w',step,sweeps⟩ := rmFrameSweeps fits sweeps valid inside behind (high _ (by simp [around]))
    have height : h + (f::fs).length = h + 1 + fs.length := by simp; omega
    rw [step,height]
    simp only [before,after] at valid inside behind
    refine ih (spotUp.mp fits) sweeps ?_ (fun e mem => inside e (mem_append_left _ mem))
      (fun e mem => behind e (mem_append_right _ mem)) fun b mem => high b (mem_append_right _ mem)
    rw [flatFill]
    simpa using valid

end Walk

def Tree.data (t : Tree) : List Nat := Seg.images (t.extents.map Extent.seg)

def Tree.mapped (t : Tree) (start last : Nat) : List Nat := (List.range' start (last + 1 - start)).filterMap t.map

structure Cleared {σ : Type} (start last : Nat) (A : Allocator σ) (space : σ) (t : Tree) (r : Removed σ) : Prop where
  sound : Sound r.tree
  extents : r.tree.extents = trimmed start last t.extents
  freed : Frees r.freed (released start last t.extents) t.blks r.tree.blks
  space : r.space = r.freed.foldl A.free space

structure Removes {σ : Type} (start last : Nat) (A : Allocator σ) (space : σ) (t : Tree) (r : Removed σ) : Prop where
  sound : Sound r.tree
  map : ∀ l, r.tree.map l = if start ≤ l ∧ l ≤ last then none else t.map l
  data : (r.tree.data ++ t.mapped start last).Perm t.data
  books : ∃ grown mid, Drawn A space grown mid ∧ r.space = r.freed.foldl A.free mid ∧
    Frees r.freed (t.mapped start last) (t.blks ++ grown) r.tree.blks

section Range
variable {σ : Type} {A : Allocator σ} {used : σ → Nat → Prop} {space : σ} {start last block : Nat} {t : Tree} {p : Path}
  {pre post a b : List Extent} {x : Extent}

theorem endsAt (valid : Valid (a ++ x::b)) (here : a ≠ [] → x.eeBlock ≤ last + 1)
    (stop : x.eeBlock ≤ last → x.stop ≤ last + 1) (above : ∀ y ∈ b, last < y.eeBlock) : Ends last (a ++ x::b) := by
  intro e mem low
  rcases mem_append.mp mem with mem | mem
  · exact Nat.le_trans (validApart valid mem (.head _)) (here (List.ne_nil_of_mem mem))
  rcases mem_cons.mp mem with rfl | mem
  · exact stop low
  · have bound := above e mem
    omega

theorem soundRoot {depth : Nat} {root : Node Extent} (good : Good Extent.eeBlock spaceBlock depth root)
    (size : root.entries ≤ spaceRoot) (some : depth ≠ 0 → root.flat depth ≠ []) (valid : Valid (root.flat depth)) :
    Sound ⟨depth,root⟩ :=
  ⟨⟨good,size,fun h => absurd rfl h,trivial,fun _ _ => trivial⟩,some,valid⟩

theorem emptySound : Sound emptyTree :=
  soundRoot trivial (Nat.zero_le _) (fun h => absurd rfl h) ⟨by simp,List.Pairwise.nil⟩

theorem clearCleared (A : Allocator σ) (space : σ) (start : Nat) (sound : Sound t)
    (found : Located t p pre x post block) (low : last ≤ block) (high : block ≤ last + 1)
    (ends : Ends last t.extents) (blks : ∀ b ∈ t.blks, spaceRoot < b) :
    ∃ r, clear start last A space p = some r ∧ Cleared start last A space t r := by
  have tree := found.tree
  subst tree
  have valid := sound.valid
  rw [Path.tree,extentsPlug] at valid ends
  have ends' : Ends last p.leaf := fun e mem => ends e (by simp [mem])
  obtain ⟨w,leaf,sweeps⟩ : ∃ w, mlfsExtRmLeaf start last p.leaf = some w ∧ Sweeps start last 0 (ehMax p.frames) p.leaf [] w :=
    rmLeafSweeps (validMiddle valid) ends' found.fits.size
  have inside : ∀ e ∈ before 0 p.frames, e.stop ≤ last + 1 := by
    intro e mem
    have here := found.here (List.append_ne_nil_of_left_ne_nil (List.ne_nil_of_mem mem) _)
    rw [append_assoc] at valid
    have less := validLess valid mem (y := x) (by simp [found.leaf])
    exact ends e (by simp [mem]) (by omega)
  have behind : ∀ e ∈ after 0 p.frames, last < e.eeBlock := by
    intro e mem
    have above := found.above e (mem_append_right _ mem)
    omega
  have sweeps' : Sweeps start last 0 (ehMax p.frames) ((Node.leaf p.leaf).flat 0) ((Node.leaf p.leaf).blks 0) w := by
    rw [blksLeaf]
    exact sweeps
  obtain ⟨w',path,whole⟩ := rmPathSweeps found.fits sweeps' valid inside behind
    fun b mem => blks b ((locatedBlks found).mem_iff.mpr mem)
  rw [Nat.zero_add] at whole
  rw [clear]
  simp only [leaf,path,bind,Option.bind_some]
  refine ⟨_,rfl,?_⟩
  cases node : w'.node with
  | none =>
    have flat := whole.flat
    have freed := whole.freed
    simp only [Swept.flat,Swept.blks,node,Option.map_none,Option.getD_none] at flat freed
    exact ⟨emptySound,flat,freed,rfl⟩
  | some root =>
    have flat := whole.flat
    have freed := whole.freed
    obtain ⟨good,size,some⟩ := whole.good root node
    simp only [Swept.flat,Swept.blks,node,Option.map_some,Option.getD_some] at flat freed
    have kept : Valid (root.flat p.frames.length) := flat ▸ trimmedValid sound.valid
    exact ⟨soundRoot good size (fun _ => some) kept,flat,freed,rfl⟩

theorem clearedRemoves {t' : Tree} {mid : σ} {grown : List Nat} {r : Removed σ} (valid : Valid t'.extents)
    (ends : Ends last t'.extents) (same : t'.map = t.map) (data : t'.data = t.data) (drawn : Drawn A space grown mid)
    (blks : t'.blks.Perm (t.blks ++ grown)) (cleared : Cleared start last A mid t' r) : Removes start last A space t r := by
  have ends' : ∀ s ∈ t'.extents.map Extent.seg, s.low ≤ last → s.stop ≤ last + 1 := by
    intro s mem
    obtain ⟨e,inE,rfl⟩ := List.mem_map.mp mem
    exact ends e inE
  have cut : (trimmed start last t'.extents).map Extent.seg = Seg.cut start last (t'.extents.map Extent.seg) :=
    trimmedSeg fun e mem => (valid.plain e mem).1
  have gone : t.mapped start last = Seg.dropped start last (t'.extents.map Extent.seg) := by
    rw [Tree.mapped,← same]
    exact Seg.droppedLookup valid.ordered ends'
  refine ⟨cleared.sound,fun l => ?_,?_,grown,mid,drawn,cleared.space,?_⟩
  · rw [Tree.map,cleared.extents,cut,Seg.cutLookup ends',← same]
    rfl
  · rw [gone,← data,Tree.data,cleared.extents,cut]
    exact Seg.cutImages
  · rw [gone]
    exact freesPerm cleared.freed blks

structure Parts (x : Extent) (block : Nat) (y z : Extent) : Prop where
  left : Plain y
  right : Plain z
  low : y.eeBlock = x.eeBlock
  border : z.eeBlock = block
  meets : y.seg.Meets z.seg
  whole : y.seg.join z.seg = x.seg

theorem splitPlain (plain : Plain x) (low : x.eeBlock < block) (high : block < x.stop) :
    Parts x block (splitParts x block false false).1 (splitParts x block false false).2 := by
  have long := plainLen plain
  have size := plain.2
  rw [Extent.stop,long] at high
  let y : Extent := ⟨x.eeBlock,block - x.eeBlock,x.eeStart⟩
  let z : Extent := ⟨block,x.actualLen - (block - x.eeBlock),x.eeStart + (block - x.eeBlock)⟩
  have left : Plain y := ⟨by simp only [y]; omega,by simp only [y]; omega⟩
  have right : Plain z := ⟨by simp only [z]; omega,by simp only [z]; omega⟩
  have same : splitParts x block false false = (y,z) := rfl
  rw [same]
  refine ⟨left,right,rfl,rfl,⟨?_,?_⟩,?_⟩
  · simp only [Seg.stop,Extent.seg,plainLen left]
    simp only [y,z]
    omega
  · simp only [Extent.seg,plainLen left]
    rfl
  · simp only [Extent.seg,plainLen left,plainLen right,Seg.join]
    simp only [y,z]
    congr 1
    omega

variable {y z : Extent}

theorem partsStop (parts : Parts x block y z) : y.stop = block ∧ z.stop = x.stop := by
  have next : y.stop = z.eeBlock := parts.meets.1
  have ends : (y.seg.join z.seg).stop = x.stop := by rw [parts.whole]; rfl
  refine ⟨next.trans parts.border,?_⟩
  rw [← ends]
  simp only [Seg.stop,Seg.join,Extent.seg,Extent.stop] at next ⊢
  omega

theorem splitValid (parts : Parts x block y z) (valid : Valid (a ++ x::b)) :
    Valid (a ++ y::z::b) ∧
      (∀ l, Seg.lookup ((a ++ y::z::b).map Extent.seg) l = Seg.lookup ((a ++ x::b).map Extent.seg) l) ∧
      Seg.images ((a ++ y::z::b).map Extent.seg) = Seg.images ((a ++ x::b).map Extent.seg) := by
  obtain ⟨stopY,stopZ⟩ := partsStop parts
  have plain := valid.plain x (by simp)
  have ordered := valid.ordered
  have less := plainStop parts.right
  have border := parts.border
  simp only [List.map_append,List.map_cons,← parts.whole] at ordered ⊢
  refine ⟨⟨fun e mem => ?_,?_⟩,fun l => (Seg.joinLookup parts.meets).symm,(Seg.joinImages parts.meets).symm⟩
  · rcases mem_append.mp mem with mem | mem
    · exact valid.plain e (mem_append_left _ mem)
    rcases mem_cons.mp mem with rfl | mem
    · exact ⟨parts.left,by omega⟩
    rcases mem_cons.mp mem with rfl | mem
    · exact ⟨parts.right,by omega⟩
    · exact valid.plain e (by simp [mem])
  · simpa using Seg.splitOrdered parts.meets ordered

theorem splitLocated (sound : Sound t) (found : Located t p pre x post last)
    (parts : Parts x (last + 1) y z) (low : x.eeBlock ≤ last) (high : last + 1 < x.stop) :
    let q := { p with leaf := p.leaf.set (p.ext.getD 0) y }
    Sound q.tree ∧ Located q.tree q pre y post z.eeBlock ∧ q.tree.blks.Perm t.blks := by
  intro q
  have leaf : q.leaf = pre ++ y::post := by simp [q,found.ext,found.leaf]
  have key : first Extent.eeBlock (pre ++ y::post) = first Extent.eeBlock (pre ++ x::post) := by
    cases pre with
    | nil => exact congrArg some parts.low
    | cons => rfl
  have fits : Fits 0 (.leaf q.leaf) q.frames := by
    have old := found.fits
    rw [found.leaf] at old
    rw [leaf]
    refine ⟨trivial,?_,fun _ => by simp,old.sides,fun k head => old.chained k ?_⟩
    · have size := old.size
      rw [entriesLeaf] at size ⊢
      simpa using size
    · rw [flatLeaf] at head ⊢
      rw [← key]
      exact head
  have valid := sound.valid
  rw [locatedExtents found] at valid
  have border := parts.border
  have low' := parts.low
  refine ⟨soundPlug fits ?_,⟨leaf,found.ext,fits,rfl,fun _ => by omega,fun e mem => ?_⟩,?_⟩
  · refine validSublist (splitValid parts valid).1 ?_
    have whole : before 0 q.frames ++ q.leaf ++ after 0 q.frames =
        before 0 p.frames ++ pre ++ y::(post ++ after 0 p.frames) := by rw [leaf]; simp [q]
    rw [whole]
    exact ((List.sublist_cons_self z _).cons_cons y).append_left _
  · rw [← List.singleton_append,← append_assoc] at valid
    have apart := validApart valid (x := x) (by simp) mem
    omega
  · exact blksPlug.trans (locatedBlks found).symm

theorem partInserted (A : Allocator σ) (space : σ) (sound : Sound t) (found : Located t p pre x post last)
    (parts : Parts x (last + 1) y z) (low : x.eeBlock ≤ last) (high : last + 1 < x.stop) :
    let q := { p with leaf := p.leaf.set (p.ext.getD 0) y }
    ∃ c, mlfsExtInsertExtent A space q.tree q z true = some c ∧ Sound c.tree ∧ c.tree.map = t.map ∧ c.tree.data = t.data ∧
      Ends last c.tree.extents ∧ c.tree.extents ≠ [] ∧
      ∃ new, Drawn A space new c.space ∧ c.tree.blks.Perm (t.blks ++ new) := by
  intro q
  obtain ⟨sound',found',blks⟩ := splitLocated sound found parts low high
  have extents := locatedExtents found
  have valid := sound.valid
  rw [extents] at valid
  obtain ⟨validBoth,same,data⟩ := splitValid parts valid
  obtain ⟨stop,_⟩ := partsStop parts
  have border := parts.border
  have first_ := parts.low
  have both : q.placed pre y post z = before 0 p.frames ++ pre ++ y::z::(post ++ after 0 p.frames) := if_pos (by omega)
  obtain ⟨c,done,inserted⟩ := insertInserted A space true sound' found' parts.right (by omega) (both ▸ validBoth)
  have whole := (inserted.exact rfl).trans both
  obtain ⟨new,gone,mid,drawn,after_,perm,keeps⟩ := inserted.books
  cases keeps rfl
  cases after_
  refine ⟨c,done,inserted.sound,?_,?_,?_,by rw [whole]; simp,new,drawn,perm.trans (blks.append_right new)⟩
  · funext l
    rw [Tree.map,Tree.map,whole,extents,same l]
  · rw [Tree.data,Tree.data,whole,extents,data]
  · rw [whole]
    refine endsAt validBoth (fun _ => by omega) (fun _ => by omega) fun e mem => ?_
    rcases mem_cons.mp mem with rfl | mem
    · omega
    · exact found.above e mem

theorem forceSplit (A : Allocator σ) (space : σ) (sound : Sound t) (found : Located t p pre x post last)
    (low : x.eeBlock ≤ last) (high : last + 1 < x.stop) :
    ∃ c, mlfsForceSplitExtentAt A space p (last + 1) = some c ∧ Sound c.tree ∧ c.tree.map = t.map ∧ c.tree.data = t.data ∧
      Ends last c.tree.extents ∧ c.tree.extents ≠ [] ∧
      ∃ new, Drawn A space new c.space ∧ c.tree.blks.Perm (t.blks ++ new) := by
  have plain := (sound.valid.plain x (by rw [locatedExtents found]; simp)).1
  obtain ⟨c,done,rest⟩ := partInserted A space sound found (splitPlain plain (Nat.lt_succ_of_le low) high) low high
  refine ⟨c,?_,rest⟩
  rw [mlfsForceSplitExtentAt,locatedNear found]
  simp only [Option.map_some,Option.getD_some,plainWritten plain,mlfsSplitExtentAt,found.ext,locatedNear found]
  rw [if_neg (by omega),if_neg (by omega)]
  rw [found.ext] at done
  exact done

theorem clearAgain (A : Allocator σ) (space : σ) (start : Nat) (sound : Sound t) (listed : t.extents ≠ [])
    (low : last ≤ block) (high : block ≤ last + 1) (ends : Ends last t.extents) (blks : ∀ b ∈ t.blks, spaceRoot < b) :
    ∃ p r, mlfsFindExtent t block = some p ∧ clear start last A space p = some r ∧ Cleared start last A space t r := by
  obtain ⟨p,pre,x,post,sought,found⟩ := located sound listed block
  obtain ⟨r,done,cleared⟩ := clearCleared A space start sound found low high ends blks
  exact ⟨p,r,sought,done,cleared⟩

theorem removeSpaceRemoves (law : Lawful A used) (held : Held used space t.blks) (sound : Sound t)
    (range : last + 1 < extMaxBlocks) (start : Nat) :
    ∃ r, mlfsExtRemoveSpace start last A space t = some r ∧ Removes start last A space t r := by
  rw [mlfsExtRemoveSpace,if_neg (by omega)]
  by_cases listed : t.extents = []
  · obtain ⟨rfl,sought⟩ := locatedEmpty sound listed last
    rw [sought]
    have none_ : emptyTree.map = fun _ => none := funext fun _ => rfl
    have empty : emptyTree.mapped start last = [] := by
      rw [Tree.mapped,none_]
      simp
    refine ⟨_,rfl,sound,fun l => ?_,?_,[],space,.none space,rfl,?_⟩
    · rw [none_]
      simp
    · rw [empty,append_nil]
    · rw [empty,append_nil]
      exact freesNone _
  obtain ⟨p,pre,x,post,sought,found⟩ := located sound listed last
  have extents := locatedExtents found
  have less := plainStop (sound.valid.plain x (by rw [extents]; simp)).1
  simp only [sought,locatedNear found]
  rw [if_neg (by omega)]
  by_cases inside : x.eeBlock ≤ last ∧ last < x.stop - 1
  · rw [if_pos inside]
    obtain ⟨c,done,sound',same,data,ends,listed',new,drawn,blks⟩ := forceSplit A space sound found inside.1 (by omega)
    have high : ∀ b ∈ c.tree.blks, spaceRoot < b := fun b mem =>
      (drawnHeld law drawn held).high b (List.perm_append_comm.mem_iff.mp (blks.mem_iff.mp mem))
    generalize (if p.leaf.length < ehMax p.frames then none else _ : Option Path) = there
    have near : last ≤ (if there.isSome then last else last + 1) ∧ (if there.isSome then last else last + 1) ≤ last + 1 := by
      split_ifs <;> omega
    obtain ⟨q,r,again,walk,cleared⟩ := clearAgain A c.space start sound' listed' near.1 near.2 ends high
    refine ⟨r,?_,clearedRemoves sound'.valid ends same data drawn blks cleared⟩
    simp only [done,again,walk,bind,Option.bind_some]
  · rw [if_neg inside]
    have ends : Ends last t.extents := by
      have valid := sound.valid
      rw [extents] at valid ⊢
      refine endsAt valid (fun more => Nat.le_succ_of_le (found.here more)) (fun low => ?_) found.above
      have short : ¬last < x.stop - 1 := fun h => inside ⟨low,h⟩
      omega
    obtain ⟨r,done,cleared⟩ := clearCleared A space start sound found (Nat.le_refl _) (Nat.le_succ _) ends held.high
    exact ⟨r,done,clearedRemoves sound.valid ends rfl rfl (.none space) (by simp) cleared⟩

theorem removesHeld {r : Removed σ} (law : Lawful A used) (removes : Removes start last A space t r)
    (held : Held used space (t.blks ++ t.data)) : Held used r.space (r.tree.blks ++ r.tree.data) ∧ r.freed.Nodup := by
  obtain ⟨grown,mid,drawn,after_,gone,all,rest⟩ := removes.books
  have whole : Held used mid (r.freed ++ (r.tree.blks ++ r.tree.data)) := by
    refine heldPerm (drawnHeld law drawn held) (perm_iff_count.mpr fun b => ?_)
    have data := perm_iff_count.mp removes.data b
    have all := perm_iff_count.mp all b
    have rest := perm_iff_count.mp rest b
    simp only [List.count_append] at data all rest ⊢
    omega
  rw [after_]
  exact ⟨heldFrees law whole,(List.nodup_append.mp whole.nodup).1⟩

end Range

end LineFS.Extents
