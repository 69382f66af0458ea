import LineFS.Extents

/-! Insertion into the extent tree. A `Sound` tree has uniform depth, links that carry the first logical
block below them, no node over its capacity, and sorted, disjoint extents. An insertion puts the
new extent next to the one a search finds, however many nodes are split on the way. -/
namespace LineFS.Extents
open List (append_assoc append_nil exists_cons_of_ne_nil length_append length_cons map_append map_cons
  mem_append mem_append_left mem_append_right mem_cons mem_singleton)
open Base Kernfs

def Plain (ex : Extent) : Prop := 0 < ex.eeLen ∧ ex.eeLen ≤ extInitMaxLen

structure Valid (es : List Extent) : Prop where
  plain : ∀ ex ∈ es, Plain ex ∧ ex.stop ≤ extMaxBlocks
  ordered : Seg.Ordered (es.map Extent.seg)

abbrev Fits (h : Nat) (n : Node Extent) (fs : List (Frame Extent)) : Prop :=
  Spot Extent.eeBlock spaceBlock spaceRoot h n fs

abbrev Flanked (h : Nat) (fs : List (Frame Extent)) : Prop := Sides Extent.eeBlock spaceBlock spaceRoot h fs

structure Sound (t : Tree) : Prop where
  fits : Fits t.depth t.root []
  some : t.depth ≠ 0 → t.extents ≠ []
  valid : Valid t.extents

inductive Merged : List Extent → List Extent → Prop where
  | refl (es : List Extent) : Merged es es
  | join {a b ds : List Extent} {x y : Extent} (can : mlfsCanExtentsBeMerged x y)
      (rest : Merged (a ++ x.joined y::b) ds) : Merged (a ++ x::y::b) ds

structure Alike (es ds : List Extent) : Prop where
  valid : Valid ds
  same : ∀ l, Seg.lookup (ds.map Extent.seg) l = Seg.lookup (es.map Extent.seg) l
  images : Seg.images (ds.map Extent.seg) = Seg.images (es.map Extent.seg)
  shorter : ds.length ≤ es.length
  first : first Extent.eeBlock ds = first Extent.eeBlock es

section Lists
variable {es ds : List Extent} {x y : Extent}

theorem plainLen (plain : Plain x) : x.actualLen = x.eeLen := if_pos plain.2

theorem plainLong (plain : Plain x) : x.actualLen ≠ 0 := by
  rw [plainLen plain]
  exact Nat.ne_of_gt plain.1

theorem plainWritten (plain : Plain x) : x.isUnwritten = false := decide_eq_false (Nat.not_lt.mpr plain.2)

theorem plainStop (plain : Plain x) : x.eeBlock < x.stop := by
  have pos := plain.1
  rw [Extent.stop,plainLen plain]
  omega

theorem validSublist (valid : Valid es) (sub : ds.Sublist es) : Valid ds :=
  ⟨fun ex mem => valid.plain ex (sub.subset mem),valid.ordered.sublist (sub.map _)⟩

theorem validLeft (valid : Valid (es ++ ds)) : Valid es := validSublist valid (List.sublist_append_left es ds)

theorem validMiddle {cs : List Extent} (valid : Valid (es ++ cs ++ ds)) : Valid cs :=
  validSublist (validLeft valid) (List.sublist_append_right es cs)

theorem validApart (valid : Valid (es ++ ds)) (left : x ∈ es) (right : y ∈ ds) : x.stop ≤ y.eeBlock := by
  have ordered := valid.ordered
  rw [map_append] at ordered
  exact (List.pairwise_append.mp ordered).2.2 x.seg (List.mem_map_of_mem left) y.seg (List.mem_map_of_mem right)

theorem validSorted (valid : Valid es) : es.Pairwise fun a b => a.eeBlock < b.eeBlock := by
  refine List.Pairwise.imp_of_mem ?_ (List.pairwise_map.mp valid.ordered)
  intro a b left _ apart
  exact Nat.lt_of_lt_of_le (plainStop (valid.plain a left).1) apart

theorem validLess (valid : Valid (es ++ ds)) (left : x ∈ es) (right : y ∈ ds) : x.eeBlock < y.eeBlock :=
  Nat.lt_of_lt_of_le (plainStop (valid.plain x (mem_append_left _ left)).1) (validApart valid left right)

theorem mergedTrans {cs : List Extent} (left : Merged es ds) (right : Merged ds cs) : Merged es cs := by
  induction left with
  | refl => exact right
  | join can _ ih => exact .join can (ih right)

theorem mergedWithin (merged : Merged es ds) (a b : List Extent) : Merged (a ++ es ++ b) (a ++ ds ++ b) := by
  induction merged with
  | refl => exact .refl _
  | @join c d ds x y can _ ih =>
    have moved (m : List Extent) : a ++ (c ++ m) ++ b = (a ++ c) ++ (m ++ b) := by simp
    rw [moved] at ih ⊢
    exact .join can ih

theorem joinedPlain (can : mlfsCanExtentsBeMerged x y) (left : Plain x) :
    Plain (x.joined y) ∧ (x.joined y).seg = x.seg.join y.seg ∧ x.seg.Meets y.seg := by
  obtain ⟨_,next,fits,_,image⟩ := can
  have sum : x.joined y = { x with eeLen := x.actualLen + y.actualLen } := by
    simp only [Extent.joined,plainWritten left]
    rfl
  have pos := left.1
  have plain : Plain (x.joined y) := by
    rw [sum,Plain]
    rw [plainLen left] at fits ⊢
    exact ⟨by simp only; omega,fits⟩
  refine ⟨plain,?_,next,image⟩
  rw [Extent.seg,plainLen plain,sum]
  rfl

theorem mergedAlike (merged : Merged es ds) (valid : Valid es) : Alike es ds := by
  induction merged with
  | refl => exact ⟨valid,fun _ => rfl,rfl,Nat.le_refl _,rfl⟩
  | @join a b ds x y can _ ih =>
    have plainX := valid.plain x (by simp)
    have plainY := valid.plain y (by simp)
    obtain ⟨plain,seg,meets⟩ := joinedPlain can plainX.1
    have ordered := valid.ordered
    simp only [map_append,map_cons] at ordered
    have stop : (x.joined y).stop = y.stop := by
      have ends : (x.joined y).seg.stop = y.seg.stop := by
        rw [seg]
        simp only [Seg.stop,Seg.join,Seg.Meets] at *
        omega
      exact ends
    have joined : Valid (a ++ x.joined y::b) := by
      refine ⟨fun ex mem => ?_,?_⟩
      · rcases mem_append.mp mem with mem | mem
        · exact valid.plain ex (mem_append_left _ mem)
        rcases mem_cons.mp mem with rfl | mem
        · exact ⟨plain,stop ▸ plainY.2⟩
        · exact valid.plain ex (by simp [mem])
      · rw [map_append,map_cons,seg]
        exact Seg.joinOrdered meets ordered
    have alike := ih joined
    refine ⟨alike.valid,fun l => ?_,?_,?_,?_⟩
    · rw [alike.same,map_append,map_cons,seg,Seg.joinLookup meets]
      simp
    · rw [alike.images,map_append,map_cons,seg,Seg.joinImages meets]
      simp
    · have shorter := alike.shorter
      simp only [length_append,length_cons] at shorter ⊢
      omega
    · rw [alike.first]
      cases a with
      | nil =>
        have head : (x.joined y).seg.low = x.seg.low := by rw [seg]; rfl
        exact congrArg some head
      | cons => rfl

theorem mergeRightMerged (a : List Extent) (ex : Extent) (rest : List Extent) :
    Merged (a ++ ex::rest) (a ++ (mergeRight ex rest).1::(mergeRight ex rest).2.1) := by
  induction rest generalizing ex with
  | nil => exact .refl _
  | cons next rest ih =>
    rw [mergeRight]
    split_ifs with can
    · exact .join can (ih _)
    · exact .refl _

theorem tryRightMerged (es : List Extent) (j : Nat) : Merged es (mlfsExtTryToMergeRight es j).1 := by
  rw [mlfsExtTryToMergeRight]
  split
  · exact .refl _
  · rename_i ex rest found
    have parts := List.take_append_drop j es
    rw [found] at parts
    have merged := mergeRightMerged (es.take j) ex rest
    rw [parts] at merged
    exact merged

theorem tryMerged (es : List Extent) (j : Nat) : Merged es (mlfsExtTryToMerge es j) := by
  rw [mlfsExtTryToMerge]
  by_cases inner : 0 < j
  · rw [if_pos inner]
    split_ifs
    · exact tryRightMerged es (j - 1)
    · exact tryRightMerged es j
  · rw [if_neg inner]
    exact tryRightMerged es j

end Lists

structure Held {σ : Type} (used : σ → Nat → Prop) (space : σ) (bs : List Nat) : Prop where
  nodup : bs.Nodup
  taken : ∀ b ∈ bs, used space b
  high : ∀ b ∈ bs, spaceRoot < b
  low : ∀ b, b ≤ spaceRoot → used space b

section Blocks
variable {σ : Type} {A : Allocator σ} {used : σ → Nat → Prop} {space : σ} {bs cs : List Nat} {b : Nat}

theorem heldPerm (held : Held used space bs) (perm : bs.Perm cs) : Held used space cs :=
  ⟨perm.nodup held.nodup,fun b mem => held.taken b (perm.mem_iff.mpr mem),
    fun b mem => held.high b (perm.mem_iff.mpr mem),held.low⟩

theorem heldLeft (held : Held used space (bs ++ cs)) : Held used space bs :=
  ⟨(List.nodup_append.mp held.nodup).1,fun b mem => held.taken b (mem_append_left _ mem),
    fun b mem => held.high b (mem_append_left _ mem),held.low⟩

theorem heldGrant (law : Lawful A used) (held : Held used space bs) (n : Nat) :
    Held used (A.alloc space n).space (List.range' (A.alloc space n).first (A.alloc space n).count ++ bs) := by
  have fresh : ∀ b ∈ List.range' (A.alloc space n).first (A.alloc space n).count, ¬used space b := by
    intro b mem
    rw [List.mem_range'_1] at mem
    exact law.fresh space n b mem.1 mem.2
  refine ⟨List.nodup_append.mpr ⟨List.nodup_range',held.nodup,?_⟩,?_,?_,?_⟩
  · rintro b new c old rfl
    exact fresh b new (held.taken b old)
  · intro b mem
    rcases mem_append.mp mem with new | old
    · exact (law.marked space n b).mpr (.inr (List.mem_range'_1.mp new))
    · exact (law.marked space n b).mpr (.inl (held.taken b old))
  · intro b mem
    rcases mem_append.mp mem with new | old
    · by_contra low
      exact fresh b new (held.low b (Nat.le_of_not_lt low))
    · exact held.high b old
  · exact fun b low => (law.marked space n b).mpr (.inl (held.low b low))

theorem heldOne (law : Lawful A used) (held : Held used space bs) :
    Held used (A.alloc space 1).space ((A.alloc space 1).first::bs) := by
  have count : (A.alloc space 1).count = 1 := by
    have bounds := law.counted space 1 Nat.one_pos
    omega
  have grant := heldGrant law held 1
  rw [count] at grant
  exact grant

theorem heldFree (law : Lawful A used) (held : Held used space (b::bs)) : Held used (A.free space b) bs := by
  obtain ⟨new,nodup⟩ := List.nodup_cons.mp held.nodup
  refine ⟨nodup,fun c mem => ?_,fun c mem => held.high c (.tail b mem),fun c low => ?_⟩
  · refine law.kept space b c (held.taken c (.tail b mem)) ?_
    rintro rfl
    exact new mem
  · have high := held.high b (.head _)
    exact law.kept space b c (held.low c low) (by omega)

theorem heldFrees (law : Lawful A used) (held : Held used space (cs ++ bs)) : Held used (cs.foldl A.free space) bs := by
  induction cs generalizing space with
  | nil => exact held
  | cons c cs ih => exact ih (heldFree law held)

inductive Drawn (A : Allocator σ) : σ → List Nat → σ → Prop where
  | none (space : σ) : Drawn A space [] space
  | more {space after : σ} {new : List Nat} (rest : Drawn A (A.alloc space 1).space new after) :
      Drawn A space ((A.alloc space 1).first::new) after

/- A call that has the blocks `bs` before and `cs` after it has drawn some and given back others,
none of them if it is not to shrink. -/
def Books (A : Allocator σ) (space : σ) (bs : List Nat) (after : σ) (cs : List Nat) (keeps : Bool) : Prop :=
  ∃ new gone mid, Drawn A space new mid ∧ after = gone.foldl A.free mid ∧ (gone ++ cs).Perm (bs ++ new) ∧
    (keeps = true → gone = [])

variable {after mid : σ} {ds new : List Nat} {keeps : Bool}

theorem booksSame (perm : bs.Perm cs) : Books A space bs space cs keeps :=
  ⟨[],[],space,.none space,rfl,by simpa using perm.symm,fun _ => rfl⟩

theorem booksPerm (perm : bs.Perm cs) (books : Books A space cs after ds keeps) : Books A space bs after ds keeps := by
  obtain ⟨new,gone,mid,drawn,freed,same,kept⟩ := books
  exact ⟨new,gone,mid,drawn,freed,same.trans (perm.symm.append_right new),kept⟩

theorem drawnTrans {more : List Nat} (first : Drawn A space new mid) (second : Drawn A mid more after) :
    Drawn A space (new ++ more) after := by
  induction first with
  | none => exact second
  | more _ ih => exact .more (ih second)

theorem booksDrawn (drawn : Drawn A space new mid) (perm : cs.Perm (bs ++ new)) (books : Books A mid cs after ds keeps) :
    Books A space bs after ds keeps := by
  obtain ⟨more,gone,last,drawn',freed,same,kept⟩ := books
  refine ⟨new ++ more,gone,last,drawnTrans drawn drawn',freed,?_,kept⟩
  rw [← append_assoc]
  exact same.trans (perm.append_right more)

theorem drawnHeld (law : Lawful A used) (drawn : Drawn A space new mid) (held : Held used space bs) :
    Held used mid (new ++ bs) := by
  induction drawn generalizing bs with
  | none => exact held
  | more _ ih => exact heldPerm (ih (heldOne law held)) List.perm_middle

theorem drawnFresh (law : Lawful A used) (drawn : Drawn A space new mid) : ∀ b ∈ new, ¬used space b := by
  induction drawn with
  | none => simp
  | @more space _ _ _ ih =>
    have count := law.counted space 1 Nat.one_pos
    intro b mem
    rcases mem_cons.mp mem with rfl | mem
    · exact law.fresh space 1 _ (Nat.le_refl _) (by omega)
    · exact fun taken => ih b mem ((law.marked space 1 b).mpr (.inl taken))

theorem booksHeld (law : Lawful A used) (books : Books A space bs after cs keeps) (held : Held used space (bs ++ ds)) :
    Held used after (cs ++ ds) := by
  obtain ⟨new,gone,mid,drawn,rfl,same,_⟩ := books
  refine heldFrees law (heldPerm (drawnHeld law drawn held) ?_)
  refine List.perm_append_comm.trans ?_
  rw [← append_assoc gone]
  refine .trans ?_ (same.symm.append_right ds)
  simp only [append_assoc]
  exact List.Perm.append_left bs List.perm_append_comm

end Blocks

section Search
variable {es : List Extent} {fs : List (Frame Extent)} {t : Tree} {p : Path} {pre post : List Extent} {x : Extent}
  {block : Nat}

theorem extentsPlug : Tree.extents ⟨fs.length,plug (.leaf es) fs⟩ = before 0 fs ++ es ++ after 0 fs := by
  have flat : (plug (.leaf es) fs).flat (0 + fs.length) = before 0 fs ++ es ++ after 0 fs := plugFlat
  rwa [Nat.zero_add] at flat

theorem blksPlug : (Tree.blks ⟨fs.length,plug (.leaf es) fs⟩).Perm (around 0 fs) := by
  have perm : ((plug (.leaf es) fs).blks (0 + fs.length)).Perm ((Node.leaf es).blks 0 ++ around 0 fs) := plugBlks
  rwa [Nat.zero_add,blksLeaf,List.nil_append] at perm

theorem soundPlug (fits : Fits 0 (.leaf es) fs) (valid : Valid (before 0 fs ++ es ++ after 0 fs)) :
    Sound ⟨fs.length,plug (.leaf es) fs⟩ := by
  refine ⟨?_,fun deep => ?_,extentsPlug.symm ▸ valid⟩
  · have whole := plugSpot.mp fits
    rwa [Nat.zero_add] at whole
  · have some := fits.some (List.ne_nil_of_length_pos (Nat.pos_of_ne_zero deep))
    rw [extentsPlug]
    exact List.append_ne_nil_of_left_ne_nil (List.append_ne_nil_of_right_ne_nil _ some) _

structure Located (t : Tree) (p : Path) (pre : List Extent) (x : Extent) (post : List Extent) (block : Nat) : Prop where
  leaf : p.leaf = pre ++ x::post
  ext : p.ext = some pre.length
  fits : Fits 0 (.leaf p.leaf) p.frames
  tree : p.tree = t
  here : before 0 p.frames ++ pre ≠ [] → x.eeBlock ≤ block
  above : ∀ y ∈ post ++ after 0 p.frames, block < y.eeBlock

section
variable (found : Located t p pre x post block)
include found

theorem locatedExtents :
    t.extents = (before 0 p.frames ++ pre) ++ x::(post ++ after 0 p.frames) := by
  rw [← found.tree,Path.tree,extentsPlug,found.leaf]
  simp

theorem locatedNear : p.near = some x := by
  rw [Path.near,found.ext,found.leaf]
  simp

theorem locatedBlks : t.blks.Perm (around 0 p.frames) := by
  rw [← found.tree]
  exact blksPlug

end

theorem leafSearch (valid : Valid (before 0 fs ++ es ++ after 0 fs)) (some : es ≠ [])
    (low : before 0 fs ≠ [] → ∀ k ∈ first Extent.eeBlock es, k ≤ block) (high : ∀ y ∈ after 0 fs, block < y.eeBlock) :
    ∃ pre x post, es = pre ++ x::post ∧ binsearch Extent.eeBlock es block = pre.length ∧
      (before 0 fs ++ pre ≠ [] → x.eeBlock ≤ block) ∧ ∀ y ∈ post ++ after 0 fs, block < y.eeBlock := by
  have sorted := (List.pairwise_append.mp (List.pairwise_append.mp (validSorted valid)).1).2.1
  obtain ⟨pre,x,post,rfl,here,above⟩ := sortedSplit block sorted some
  refine ⟨pre,x,post,rfl,binsearchAt sorted here above,fun more => ?_,fun y mem => ?_⟩
  · by_cases inner : pre = []
    · subst inner
      exact low (by simpa using more) x.eeBlock rfl
    · exact here inner
  · rcases mem_append.mp mem with mem | mem
    · exact above y mem
    · exact high y mem

theorem located (sound : Sound t) (listed : t.extents ≠ []) (block : Nat) :
    ∃ p pre x post, mlfsFindExtent t block = some p ∧ Located t p pre x post block := by
  obtain ⟨es,gs,sought,height,same,fits,low,high⟩ :=
    seekSpot block sound.fits (validSorted sound.valid) (.inr listed)
  rw [append_nil] at sought fits
  have tree : (⟨gs.length,plug (.leaf es) gs⟩ : Tree) = t := by rw [same,height]
  have full : es ≠ [] := by
    by_cases deep : gs = []
    · rintro rfl
      subst deep
      rw [← tree] at listed
      exact listed rfl
    · exact fits.some deep
  have valid : Valid (before 0 gs ++ es ++ after 0 gs) := by
    rw [← extentsPlug,tree]
    exact sound.valid
  obtain ⟨pre,x,post,shape,position,here,above⟩ := leafSearch valid full low high
  refine ⟨⟨es,pre.length,gs⟩,pre,x,post,?_,shape,rfl,fits,tree,here,above⟩
  rw [mlfsFindExtent,sought,Option.map_some,position,if_neg (by simpa using full)]

theorem locatedEmpty (sound : Sound t) (none_ : t.extents = []) (block : Nat) :
    t = emptyTree ∧ mlfsFindExtent t block = some ⟨[],none,[]⟩ := by
  have flat : t.depth = 0 := by
    by_contra deep
    exact sound.some deep none_
  obtain ⟨depth,root⟩ := t
  cases flat
  obtain ⟨es,rfl⟩ := goodLeaf sound.fits.good
  cases none_
  exact ⟨rfl,rfl⟩

theorem splitSame {a b c d : List Extent} {y : Extent} (valid : Valid (a ++ x::b)) (same : a ++ x::b = c ++ y::d)
    (hereX : a ≠ [] → x.eeBlock ≤ block) (aboveX : ∀ e ∈ b, block < e.eeBlock)
    (hereY : c ≠ [] → y.eeBlock ≤ block) (aboveY : ∀ e ∈ d, block < e.eeBlock) : a = c ∧ x = y ∧ b = d := by
  have left := binsearchAt (validSorted valid) hereX aboveX
  have right := binsearchAt (validSorted (same ▸ valid)) hereY aboveY
  rw [same,right] at left
  obtain ⟨front,back⟩ := List.append_inj same left.symm
  cases back
  exact ⟨front,rfl,rfl⟩

theorem nextLeafFirst {h : Nat} (sides : Flanked h fs) :
    mlfsExtNextLeafBlock fs = (first Extent.eeBlock (after h fs)).getD extMaxBlocks := by
  induction fs generalizing h with
  | nil => rfl
  | cons f fs ih =>
    obtain ⟨children,_,sides⟩ := sides
    rw [mlfsExtNextLeafBlock,after]
    cases shape : f.right with
    | nil => exact ih sides
    | cons c rest =>
      have child := children c (by simp [shape])
      rw [firstLeft (underSome (fun d mem => children d (by simp [shape,mem_cons.mp mem])) (List.cons_ne_nil c rest)),
        underFirst child]
      rfl

end Search

structure Inserted {σ : Type} (A : Allocator σ) (space : σ) (blks : List Nat) (ins : List Extent) (preIo : Bool)
    (c : Change σ) : Prop where
  sound : Sound c.tree
  merged : Merged ins c.tree.extents
  exact : preIo = true → c.tree.extents = ins
  books : Books A space blks c.space c.tree.blks preIo

/- A call behind which the search starts over and finds space. -/
abbrev Retried {σ : Type} (A : Allocator σ) (space : σ) (blks : List Nat) (ins : List Extent) (new : Extent) (preIo : Bool)
    (made : Option (Change σ)) : Prop :=
  ∃ c, made = some c ∧ ∃ d, ((mlfsFindExtent c.tree new.eeBlock).bind fun q => hasSpace A c.space q new preIo) = some d ∧
    Inserted A space blks ins preIo d

section Finish
variable {σ : Type} {A : Allocator σ} {space : σ} {frames : List (Frame Extent)}
  {es : List Extent} {k ext near : Nat} {preIo : Bool}

theorem correctSame (frames : List (Frame Extent)) (es : List Extent) (ext : Nat) :
    before 0 (mlfsExtCorrectIndexes frames es ext) = before 0 frames ∧
    after 0 (mlfsExtCorrectIndexes frames es ext) = after 0 frames ∧
    around 0 (mlfsExtCorrectIndexes frames es ext) = around 0 frames ∧
    (mlfsExtCorrectIndexes frames es ext).length = frames.length := by
  unfold mlfsExtCorrectIndexes
  split
  · exact ⟨rekeyBefore,rekeyAfter,rekeyAround,rekeyLength⟩
  · exact ⟨rfl,rfl,rfl,rfl⟩

theorem mergeUpInserted {c : Change σ} (up : mlfsExtTryToMergeUp A space frames es = some c)
    (valid : Valid (before 0 frames ++ es ++ after 0 frames)) :
    Inserted A space (around 0 frames) (before 0 frames ++ es ++ after 0 frames) false c := by
  unfold mlfsExtTryToMergeUp at up
  split at up <;> try contradiction
  rename_i here
  split_ifs at up with small
  cases up
  have alone : before 0 [(⟨[],here,[]⟩ : Frame Extent)] ++ es ++ after 0 [(⟨[],here,[]⟩ : Frame Extent)] = es := by
    simp [before,after]
  rw [alone] at valid ⊢
  exact ⟨⟨⟨trivial,small,fun h => absurd rfl h,trivial,fun _ _ => trivial⟩,fun h => absurd rfl h,valid⟩,
    .refl es,fun _ => rfl,[],[here.blk],space,.none space,rfl,.refl _,fun h => (by cases h)⟩

variable (sides : Flanked 0 frames) (chained : Chained Extent.eeBlock 0 frames k) (listed : es ≠ [])
  (size : es.length ≤ ehMax frames) (keyed : ext = 0 ∨ first Extent.eeBlock es = some k)
include sides chained listed size keyed

theorem correctFits :
    Fits 0 (.leaf es) (mlfsExtCorrectIndexes frames es ext) := by
  cases ext with
  | zero =>
    obtain ⟨ex,rest,rfl⟩ := exists_cons_of_ne_nil listed
    refine ⟨trivial,?_,fun _ => listed,rekeySides sides,fun k' head => ?_⟩
    · exact Nat.le_trans size (Nat.le_of_eq rekeyRoom.symm)
    · cases head
      exact rekeyChained sides chained
  | succ ext =>
    have same : first Extent.eeBlock es = some k := keyed.resolve_left (Nat.succ_ne_zero ext)
    refine ⟨trivial,size,fun _ => listed,sides,fun k' head => ?_⟩
    cases same.symm.trans head
    exact chained

theorem correctInserted (valid : Valid (before 0 frames ++ es ++ after 0 frames)) :
    Inserted A space (around 0 frames) (before 0 frames ++ es ++ after 0 frames) preIo
      ⟨space,⟨frames.length,plug (.leaf es) (mlfsExtCorrectIndexes frames es ext)⟩⟩ := by
  obtain ⟨left,right,blks,count⟩ := correctSame frames es ext
  have fits := correctFits sides chained listed size keyed
  generalize mlfsExtCorrectIndexes frames es ext = gs at *
  rw [← left,← right] at valid ⊢
  rw [← count,← blks]
  refine ⟨soundPlug fits valid,extentsPlug.symm ▸ .refl _,fun _ => extentsPlug,booksSame blksPlug.symm⟩

theorem finishInserted (valid : Valid (before 0 frames ++ es ++ after 0 frames)) :
    Inserted A space (around 0 frames) (before 0 frames ++ es ++ after 0 frames) preIo
      (finish A space frames es ext near preIo) := by
  unfold finish
  cases preIo with
  | true => exact correctInserted sides chained listed size keyed valid
  | false =>
  rw [if_neg Bool.false_ne_true]
  have merged := tryMerged es near
  have inside := mergedWithin merged (before 0 frames) (after 0 frames)
  have alike := mergedAlike inside valid
  have first_ : first Extent.eeBlock (mlfsExtTryToMerge es near) = first Extent.eeBlock es :=
    (mergedAlike merged (validMiddle valid)).first
  have shorter := (mergedAlike merged (validMiddle valid)).shorter
  generalize mlfsExtTryToMerge es near = ds at *
  have listed : ds ≠ [] := by
    rintro rfl
    obtain ⟨k',head⟩ := firstExists Extent.eeBlock listed
    rw [head] at first_
    cases first_
  have corrected : Inserted A space (around 0 frames) (before 0 frames ++ ds ++ after 0 frames) false
      ⟨space,⟨frames.length,plug (.leaf ds) (mlfsExtCorrectIndexes frames ds ext)⟩⟩ :=
    correctInserted sides chained listed (Nat.le_trans shorter size) (first_ ▸ keyed) alike.valid
  dsimp only
  cases up : mlfsExtTryToMergeUp A space frames ds with
  | none =>
    exact ⟨corrected.sound,mergedTrans inside corrected.merged,fun h => (by cases h),corrected.books⟩
  | some c =>
    have moved := mergeUpInserted up alike.valid
    exact ⟨moved.sound,mergedTrans inside moved.merged,fun h => (by cases h),moved.books⟩

end Finish

def placed (a : List Extent) (x : Extent) (b : List Extent) (new : Extent) : List Extent :=
  if x.eeBlock < new.eeBlock then a ++ x::new::b else a ++ new::x::b

abbrev Path.placed (p : Path) (pre : List Extent) (x : Extent) (post : List Extent) (new : Extent) : List Extent :=
  Extents.placed (before 0 p.frames ++ pre) x (post ++ after 0 p.frames) new

section Place
variable {σ : Type} {A : Allocator σ} {space : σ} {p : Path} {pre post : List Extent}
  {x new : Extent} {k : Nat} {preIo : Bool}

theorem placedWithin : p.placed pre x post new = before 0 p.frames ++ placed pre x post new ++ after 0 p.frames := by
  unfold Path.placed placed
  split_ifs <;> simp

theorem spaceBlockPos : 4 ≤ ehMax p.frames := by
  unfold ehMax room spaceBlock spaceRoot
  split_ifs <;> decide

theorem insertIdxAt (es ds : List Extent) (new : Extent) : (es ++ ds).insertIdx es.length new = es ++ new::ds := by
  induction es with
  | nil => rfl
  | cons e es ih => exact congrArg (e::·) ih

theorem placedFirst (inner : pre ≠ []) : first Extent.eeBlock (placed pre x post new) = first Extent.eeBlock (pre ++ x::post) := by
  obtain ⟨e,rest,rfl⟩ := exists_cons_of_ne_nil inner
  unfold placed
  split_ifs <;> rfl

theorem hasSpaceInserted (A : Allocator σ) (space : σ) (preIo : Bool) (fits : Fits 0 (.leaf p.leaf) p.frames) (leaf : p.leaf = pre ++ x::post)
    (ext : p.ext = some pre.length) (size : p.leaf.length < ehMax p.frames) (other : new.eeBlock ≠ x.eeBlock)
    (valid : Valid (p.placed pre x post new)) :
    ∃ c, hasSpace A space p new preIo = some c ∧ Inserted A space (around 0 p.frames)
      (p.placed pre x post new) preIo c := by
  obtain ⟨k,head⟩ := firstExists Extent.eeBlock (show pre ++ x::post ≠ [] by simp)
  have chained := fits.chained k (by rw [flatLeaf,leaf]; exact head)
  have found : p.leaf[pre.length]? = some x := by rw [leaf]; simp
  rw [leaf,length_append,length_cons] at size
  rw [placedWithin] at valid ⊢
  rw [hasSpace,ext]
  simp only [found]
  by_cases less : x.eeBlock < new.eeBlock
  · have shape : placed pre x post new = pre ++ x::new::post := if_pos less
    have inserted : p.leaf.insertIdx (pre.length + 1) new = pre ++ x::new::post := by
      have at_ := insertIdxAt (pre ++ [x]) post new
      simpa [leaf] using at_
    rw [if_pos less,inserted]
    rw [shape] at valid ⊢
    refine ⟨_,rfl,finishInserted fits.sides chained (by simp) (by simp; omega) (.inr ?_) valid⟩
    rw [← head]
    cases pre <;> rfl
  · have shape : placed pre x post new = pre ++ new::x::post := if_neg less
    have inserted : p.leaf.insertIdx pre.length new = pre ++ new::x::post := by
      rw [leaf]
      exact insertIdxAt pre (x::post) new
    rw [if_neg less,if_neg other,inserted]
    rw [shape] at valid ⊢
    refine ⟨_,rfl,finishInserted fits.sides chained (by simp) (by simp; omega) ?_ valid⟩
    cases pre with
    | nil => exact .inl rfl
    | cons => exact .inr head

theorem hasSpaceEmpty (A : Allocator σ) (space : σ) (preIo : Bool) (ext : p.ext = none) (sides : Flanked 0 p.frames)
    (chained : Chained Extent.eeBlock 0 p.frames k) (valid : Valid (before 0 p.frames ++ [new] ++ after 0 p.frames)) :
    ∃ c, hasSpace A space p new preIo = some c ∧
      Inserted A space (around 0 p.frames) (before 0 p.frames ++ [new] ++ after 0 p.frames) preIo c := by
  rw [hasSpace,ext]
  have room : 4 ≤ ehMax p.frames := spaceBlockPos
  exact ⟨_,rfl,finishInserted sides chained (by simp) (by simp; omega) (.inl rfl) valid⟩

theorem prependMerged {r : List Extent × Nat} {a b : List Extent} {y : Extent} (plain : Plain new)
    (into : prepend (a ++ y::b) a.length new = some r) :
    Merged (a ++ new::y::b) r.1 ∧ r.1.length = (a ++ y::b).length ∧ new.eeBlock < y.eeBlock := by
  unfold prepend at into
  have found : (a ++ y::b)[a.length]? = some y := by simp
  rw [found] at into
  simp only at into
  split_ifs at into with can
  cases into
  have next := can.2.1
  have ends := plainStop plain
  refine ⟨.join can ?_,by simp,by omega⟩
  simp only [List.set_append_right _ _ (Nat.le_refl a.length),Nat.sub_self,List.set_cons_zero]
  exact .refl _

/- The branch for the extent before is never taken: a search finds no extent above the block unless it is
the first. -/
theorem mergeIntoMerged {r : List Extent × Nat} (leaf : p.leaf = pre ++ x::post) (ext : p.ext = some pre.length)
    (here : pre ≠ [] → x.eeBlock ≤ new.eeBlock) (plainX : Plain x) (plain : Plain new)
    (into : mergeInto p new = some r) : Merged (placed pre x post new) r.1 ∧ r.1.length = p.leaf.length := by
  have near : p.near = some x := by rw [Path.near,ext,leaf]; simp
  have stop := plainStop plainX
  have ends := plainStop plain
  unfold mergeInto at into
  rw [ext,near] at into
  simp only at into
  by_cases behind : pre.length + 1 < p.leaf.length ∧ x.stop < new.eeBlock
  · rw [if_pos behind] at into
    obtain ⟨y,rest,rfl⟩ : ∃ y rest, post = y::rest := by
      refine exists_cons_of_ne_nil ?_
      rintro rfl
      rw [leaf] at behind
      simp at behind
    have into : prepend ((pre ++ [x]) ++ y::rest) (pre ++ [x]).length new = some r := by simpa [leaf] using into
    obtain ⟨merged,count,_⟩ := prependMerged plain into
    have shape : placed pre x (y::rest) new = (pre ++ [x]) ++ new::y::rest := by
      rw [placed,if_pos (by omega)]
      simp
    exact ⟨shape ▸ merged,by simpa [leaf] using count⟩
  have never : ¬(0 < pre.length ∧ new.stop < x.eeBlock) := by
    rintro ⟨inner,above⟩
    have level := here (List.ne_nil_of_length_pos inner)
    omega
  have found : p.leaf[pre.length]? = some x := by rw [leaf]; simp
  rw [if_neg behind,if_neg never,found] at into
  simp only at into
  split_ifs at into with can
  · cases into
    have next := can.2.1
    have shape : placed pre x post new = pre ++ x::new::post := if_pos (by omega)
    refine ⟨shape ▸ .join can ?_,by simp⟩
    simp only [leaf,List.set_append_right _ _ (Nat.le_refl pre.length),Nat.sub_self,List.set_cons_zero]
    exact .refl _
  · rw [leaf] at into
    obtain ⟨merged,count,less⟩ := prependMerged plain into
    have shape : placed pre x post new = pre ++ new::x::post := if_neg (by omega)
    exact ⟨shape ▸ merged,leaf ▸ count⟩

end Place

/- The frames `gs` of a new node that begins at `border`, behind the node `old`, and for every such
node the frames of `old` in the same tree. -/
structure Split {σ : Type} (A : Allocator σ) (space : σ) (h : Nat) (fs : List (Frame Extent)) (old : Node Extent)
    (k border blk : Nat) (space' : σ) (gs : List (Frame Extent)) : Prop where
  count : gs.length = fs.length
  sides : Flanked h gs
  chained : Chained Extent.eeBlock h gs border
  left : before h gs = before h fs ++ old.flat h
  right : after h gs = after h fs
  books : ∃ new, Drawn A space new space' ∧ (around h gs).Perm (around h fs ++ old.blks h ++ blk::new)
  stays : ∀ n, Good Extent.eeBlock spaceBlock h n → n.entries ≤ spaceBlock → first Extent.eeBlock (n.flat h) = some border →
    ∃ os, plug old os = plug n gs ∧ os.length = fs.length ∧ Flanked h os ∧ Chained Extent.eeBlock h os k ∧
      before h os = before h fs ∧ after h os = n.flat h ++ after h fs

section Divide
variable {σ : Type} {A : Allocator σ} {space : σ} {h k border blk : Nat} {old : Node Extent}
  {f : Frame Extent} {fs : List (Frame Extent)}

theorem freeDeep (free : hasFreeIndex fs = true) : fs ≠ [] := by
  rintro rfl
  cases free

theorem splitHere (room_ : f.entries < ehMax fs) (sides : Flanked h (f::fs)) (chained : Chained Extent.eeBlock h (f::fs) k)
    (good : Good Extent.eeBlock spaceBlock h old) (size : old.entries ≤ spaceBlock)
    (head : first Extent.eeBlock (old.flat h) = some k) :
    Split A space h (f::fs) old k border blk space (⟨f.left ++ [(f.here,old)],⟨border,blk⟩,f.right⟩::fs) := by
  obtain ⟨children,_,sides⟩ := sides
  obtain ⟨link,chained⟩ := chained
  have child : Child Extent.eeBlock spaceBlock h (f.here,old) := ⟨good,size,link ▸ head⟩
  have many : f.left.length + (f.right.length + 1) + 1 ≤ ehMax fs := by
    rw [Frame.entries] at room_
    omega
  refine ⟨rfl,⟨?_,?_,sides⟩,⟨rfl,?_⟩,?_,rfl,?_,?_⟩
  · intro c mem
    simp only [mem_append,mem_singleton] at mem
    rcases mem with (mem | rfl) | mem
    · exact children c (mem_append_left _ mem)
    · exact child
    · exact children c (mem_append_right _ mem)
  · simp only [Frame.entries,length_append,List.length_singleton]
    exact Nat.le_trans (by omega) many
  · simp only [underAppend,underCons,underNil,append_nil]
    rw [firstAppend head]
    exact chained
  · simp [before]
  · refine ⟨[],.none space,List.perm_iff_count.mpr fun b => ?_⟩
    simp only [around,belowAppend,belowCons,belowNil,List.count_append,List.count_cons,List.count_nil]
    omega
  · intro n goodN sizeN headN
    refine ⟨⟨f.left,f.here,(⟨border,blk⟩,n)::f.right⟩::fs,?_,rfl,⟨?_,?_,sides⟩,⟨link,chained⟩,rfl,?_⟩
    · simp [plug,Frame.fill]
    · intro c mem
      simp only [mem_append,mem_cons] at mem
      rcases mem with mem | rfl | mem
      · exact children c (mem_append_left _ mem)
      · exact ⟨goodN,sizeN,headN⟩
      · exact children c (mem_append_right _ mem)
    · exact many
    · simp [after]

theorem ehMaxDeep (deep : fs ≠ []) : ehMax fs = spaceBlock := by
  obtain ⟨f,rest,rfl⟩ := exists_cons_of_ne_nil deep
  rfl

theorem splitAbove {space' : σ} {gs : List (Frame Extent)} (deep : fs ≠ [])
    (sides : Flanked h (f::fs)) (chained : Chained Extent.eeBlock h (f::fs) k)
    (split : Split A (A.alloc space 1).space (h + 1) fs (.index (f.left ++ [(f.here,old)]))
      ((first Extent.eeBlock (under h f.left)).getD k) border (A.alloc space 1).first space' gs) :
    Split A space h (f::fs) old k border blk space' (⟨[],⟨border,blk⟩,f.right⟩::gs) := by
  obtain ⟨children,many,_⟩ := sides
  have lefts : ∀ c ∈ f.left, Child Extent.eeBlock spaceBlock h c := fun c mem => children c (mem_append_left _ mem)
  have rights : ∀ c ∈ f.right, Child Extent.eeBlock spaceBlock h c := fun c mem => children c (mem_append_right _ mem)
  have full (os : List (Frame Extent)) (count : os.length = fs.length) : ehMax os = ehMax fs := by
    rw [ehMaxDeep deep,ehMaxDeep]
    rintro rfl
    exact deep (List.length_eq_zero_iff.mp count.symm)
  rw [Frame.entries] at many
  refine ⟨by simp [split.count],⟨by simpa using rights,?_,split.sides⟩,⟨rfl,split.chained⟩,?_,?_,?_,?_⟩
  · have bound : f.right.length + 1 ≤ ehMax gs := full gs split.count ▸ Nat.le_trans (by omega) many
    simpa [Frame.entries,ehMax] using bound
  · rw [before,split.left]
    simp [before]
  · rw [after,split.right]
    rfl
  · obtain ⟨new,drawn,perm⟩ := split.books
    refine ⟨_,.more drawn,List.perm_iff_count.mpr fun b => ?_⟩
    have inner := List.perm_iff_count.mp perm b
    simp only [around,blksIndex,belowAppend,belowCons,belowNil,List.count_append,List.count_cons,List.count_nil] at inner ⊢
    omega
  · intro n good size head
    have child : Child Extent.eeBlock spaceBlock h (⟨border,blk⟩,n) := ⟨good,size,head⟩
    obtain ⟨os,same,count,sides,chain,left,right⟩ := split.stays (.index ((⟨border,blk⟩,n)::f.right))
      (goodIndex.mpr fun c mem => (mem_cons.mp mem).elim (fun h => h ▸ child) (rights c))
      (by
        have bound : f.right.length + 1 ≤ ehMax fs := Nat.le_trans (by omega) many
        rwa [ehMaxDeep deep] at bound)
      (underFirst child)
    refine ⟨⟨f.left,f.here,[]⟩::os,?_,by simp [count],⟨by simpa using lefts,?_,sides⟩,⟨chained.1,chain⟩,?_,?_⟩
    · simpa [plug,Frame.fill] using same
    · have bound : f.left.length + 1 ≤ ehMax os := full os count ▸ Nat.le_trans (by omega) many
      simpa [Frame.entries,ehMax] using bound
    · rw [before,left]
      rfl
    · rw [after,right]
      simp [after]

theorem splitIndexesSplit (free : hasFreeIndex fs = true) (sides : Flanked h fs)
    (chained : Chained Extent.eeBlock h fs k) (good : Good Extent.eeBlock spaceBlock h old) (size : old.entries ≤ spaceBlock)
    (head : first Extent.eeBlock (old.flat h) = some k) (below : ∀ y ∈ before h fs ++ old.flat h, y.eeBlock < border) :
    ∃ space' gs, splitIndexes A fs space old border blk = some (space',gs) ∧
      Split A space h fs old k border blk space' gs := by
  induction fs generalizing h k space old blk with
  | nil => cases free
  | cons f fs ih =>
    obtain ⟨children,many,upper⟩ := sides
    obtain ⟨link,chain⟩ := chained
    have child : Child Extent.eeBlock spaceBlock h (f.here,old) := ⟨good,size,link ▸ head⟩
    rw [splitIndexes]
    by_cases room_ : f.entries < ehMax fs
    · have less : f.here.key < border := by
        obtain ⟨y,mem,key⟩ := firstMem head
        rw [link,← key]
        exact below y (mem_append_right _ mem)
      rw [if_pos room_,if_neg (Nat.ne_of_gt less),if_pos less]
      exact ⟨space,_,rfl,splitHere room_ ⟨children,many,upper⟩ ⟨link,chain⟩ good size head⟩
    · rw [if_neg room_]
      have free : hasFreeIndex fs = true := by
        rw [hasFreeIndex,decide_eq_false room_] at free
        exact free
      have deep := freeDeep free
      have flat : (Node.index (f.left ++ [(f.here,old)])).flat (h + 1) = under h f.left ++ old.flat h := by simp
      have good : Good Extent.eeBlock spaceBlock (h + 1) (.index (f.left ++ [(f.here,old)])) := by
        refine goodIndex.mpr fun c mem => ?_
        rcases memSnoc mem with mem | rfl
        · exact children c (mem_append_left _ mem)
        · exact child
      have size : (Node.index (f.left ++ [(f.here,old)])).entries ≤ spaceBlock := by
        rw [Frame.entries] at many
        have bound : f.left.length + 1 ≤ ehMax fs := Nat.le_trans (by omega) many
        rw [ehMaxDeep deep] at bound
        simpa using bound
      have below : ∀ y ∈ before (h + 1) fs ++ (Node.index (f.left ++ [(f.here,old)])).flat (h + 1), y.eeBlock < border := by
        intro y mem
        rw [flat,← append_assoc] at mem
        exact below y mem
      obtain ⟨space',gs,done,split⟩ : ∃ space' gs, splitIndexes A fs (A.alloc space 1).space
          (.index (f.left ++ [(f.here,old)])) border (A.alloc space 1).first = some (space',gs) ∧
          Split A (A.alloc space 1).space (h + 1) fs (.index (f.left ++ [(f.here,old)]))
            ((first Extent.eeBlock (under h f.left)).getD k) border (A.alloc space 1).first space' gs :=
        ih free upper chain good size (by rw [flat,firstAppend head]) below
      refine ⟨space',_,?_,splitAbove deep ⟨children,many,upper⟩ ⟨link,chain⟩ split⟩
      simp only [done,Option.map_some]

theorem findAlong {es : List Extent} {block : Nat} (ds : List Extent) (fits : Fits 0 (.leaf es) fs) (listed : es ≠ [])
    (valid : Valid (before 0 fs ++ es ++ after 0 fs)) (here : before 0 fs ≠ [] → ∀ k ∈ first Extent.eeBlock es, k ≤ block)
    (above : ∀ y ∈ after 0 fs, block < y.eeBlock) :
    mlfsFindExtent ⟨fs.length,plug (.leaf ds) fs⟩ block =
      some ⟨ds,if ds.isEmpty then none else some (binsearch Extent.eeBlock ds block),fs⟩ := by
  have sorted : ((plug (.leaf es) fs).flat (0 + fs.length)).Pairwise fun a b => a.eeBlock < b.eeBlock := by
    rw [plugFlat]
    exact validSorted valid
  have sought : seek block (0 + fs.length) (plug (.leaf ds) fs) [] = some (ds,fs) :=
    seekAlong (routed fits listed sorted here above)
  rw [Nat.zero_add] at sought
  rw [mlfsFindExtent,sought]
  rfl

end Divide

section Leaf
variable {σ : Type} {A : Allocator σ} {space : σ} {t : Tree} {p : Path}
  {pre post : List Extent} {x new : Extent} {preIo : Bool}

theorem splitBooks {k border : Nat} {space' last : σ} {gs : List (Frame Extent)} {old : List Extent} {bs cs : List Nat}
    (blks : bs.Perm (around 0 p.frames))
    (split : Split A (A.alloc space 1).space 0 p.frames (.leaf old) k border (A.alloc space 1).first space' gs)
    (books : Books A space' (around 0 gs) last cs preIo) : Books A space bs last cs preIo := by
  obtain ⟨new,drawn,perm⟩ := split.books
  refine booksDrawn (.more drawn) (perm.trans ?_) books
  rw [blksLeaf,append_nil]
  exact blks.symm.append_right _

theorem leafSplit {border : Nat} (A : Allocator σ) (space : σ) (fits : Fits 0 (.leaf p.leaf) p.frames) (leaf : p.leaf = pre ++ x::post)
    (free : hasFreeIndex p.frames = true) (below : ∀ e ∈ before 0 p.frames ++ (pre ++ [x]), e.eeBlock < border) :
    ∃ k space' gs, first Extent.eeBlock (pre ++ [x]) = some k ∧
      splitIndexes A p.frames (A.alloc space 1).space (.leaf (pre ++ [x])) border (A.alloc space 1).first = some (space',gs) ∧
      Split A (A.alloc space 1).space 0 p.frames (.leaf (pre ++ [x])) k border (A.alloc space 1).first space' gs := by
  obtain ⟨k,head⟩ := firstExists Extent.eeBlock (show pre ++ [x] ≠ [] by simp)
  have deep := freeDeep free
  have chained : Chained Extent.eeBlock 0 p.frames k := by
    refine fits.chained k ?_
    rw [flatLeaf,leaf]
    cases pre <;> exact head
  have size : (pre ++ [x]).length ≤ spaceBlock := by
    have size : (pre ++ x::post).length ≤ ehMax p.frames := leaf ▸ fits.size
    rw [ehMaxDeep deep] at size
    simp only [length_append,length_cons,List.length_nil] at size ⊢
    omega
  obtain ⟨space',gs,done,split⟩ := splitIndexesSplit free fits.sides chained
    (show Good Extent.eeBlock spaceBlock 0 (.leaf (pre ++ [x])) from trivial) size head below
  exact ⟨k,space',gs,head,done,split⟩

theorem leafStays {k blk : Nat} {y : Extent} {rest : List Extent} {space' : σ} {gs : List (Frame Extent)}
    (free : hasFreeIndex p.frames = true) (size : (pre ++ x::y::rest).length ≤ ehMax p.frames)
    (head : first Extent.eeBlock (pre ++ [x]) = some k)
    (split : Split A space 0 p.frames (.leaf (pre ++ [x])) k y.eeBlock blk space' gs) :
    ∃ os, plug (.leaf (pre ++ [x])) os = plug (.leaf (y::rest)) gs ∧ os.length = gs.length ∧ (pre ++ [x]).length < ehMax os ∧
      Fits 0 (.leaf (pre ++ [x])) os ∧ before 0 os = before 0 p.frames ∧ after 0 os = y::rest ++ after 0 p.frames := by
  have deep := freeDeep free
  rw [ehMaxDeep deep] at size
  simp only [length_append,length_cons] at size
  obtain ⟨os,same,count,sides,chained,left,right⟩ := split.stays (.leaf (y::rest)) trivial
    (by rw [entriesLeaf,length_cons]; omega) rfl
  have deepO : os ≠ [] := fun h => deep (List.length_eq_zero_iff.mp (by rw [← count,h]; rfl))
  have room_ : (pre ++ [x]).length < ehMax os := by
    rw [ehMaxDeep deepO,length_append,List.length_singleton]
    omega
  refine ⟨os,same,count.trans split.count.symm,room_,⟨trivial,Nat.le_of_lt room_,fun _ => by simp,sides,?_⟩,left,right⟩
  intro k' head'
  cases head.symm.trans head'
  exact chained

theorem extSplitEq (space : σ) (leaf : p.leaf = pre ++ x::post) (ext : p.ext = some pre.length) : mlfsExtSplit A space p new =
    (splitIndexes A p.frames (A.alloc space 1).space (.leaf (pre ++ [x])) ((first Extent.eeBlock post).getD new.eeBlock)
      (A.alloc space 1).first).map fun r => ⟨r.1,⟨p.frames.length,plug (.leaf post) r.2⟩⟩ := by
  have parts : pre ++ x::post = (pre ++ [x]) ++ post := by simp
  have count : pre.length + 1 = (pre ++ [x]).length := by simp
  have next : p.leaf[pre.length + 1]? = post.head? := by
    rw [leaf,parts,count,List.getElem?_append_right (Nat.le_refl _),Nat.sub_self,List.head?_eq_getElem?]
  have taken : p.leaf.take (pre.length + 1) = pre ++ [x] := by rw [leaf,parts,count,List.take_left]
  have rest : p.leaf.drop (pre.length + 1) = post := by rw [leaf,parts,count,List.drop_left]
  rw [mlfsExtSplit,ext]
  simp only [next,taken,rest]
  cases post <;> rfl

theorem splitInner {y : Extent} {rest : List Extent} (sound : Sound t)
    (found : Located t p pre x (y::rest) new.eeBlock) (free : hasFreeIndex p.frames = true) (other : new.eeBlock ≠ x.eeBlock)
    (valid : Valid (p.placed pre x (y::rest) new)) :
    Retried A space t.blks (p.placed pre x (y::rest) new) new preIo (mlfsExtSplit A space p new) := by
  have leaf := found.leaf
  have whole : Valid ((before 0 p.frames ++ pre) ++ x::(y::rest ++ after 0 p.frames)) := locatedExtents found ▸ sound.valid
  have parts : Valid ((before 0 p.frames ++ (pre ++ [x])) ++ (y::rest ++ after 0 p.frames)) := by simpa using whole
  obtain ⟨k,space',gs,head,done,split⟩ := leafSplit A space found.fits leaf free
    fun e mem => validLess parts mem (.head _)
  obtain ⟨os,same,count,room_,fits,left,right⟩ := leafStays free (leaf ▸ found.fits.size) head split
  have here : before 0 os ≠ [] → ∀ k' ∈ first Extent.eeBlock (pre ++ [x]), k' ≤ new.eeBlock := by
    intro more k' head'
    have level := found.here (List.append_ne_nil_of_left_ne_nil (left ▸ more) _)
    obtain ⟨e,mem,key⟩ := firstMem head'
    rcases memSnoc mem with mem | rfl
    · have less := validLess whole (mem_append_right _ mem) (.head _)
      omega
    · omega
  have sought := findAlong (pre ++ [x]) fits (by simp) (by rw [left,right]; exact parts) here
    (by rw [right]; exact found.above)
  have position : binsearch Extent.eeBlock (pre ++ [x]) new.eeBlock = pre.length := by
    refine binsearchAt (validSorted (validMiddle parts)) (fun inner => ?_) (by simp)
    exact found.here (List.append_ne_nil_of_right_ne_nil _ inner)
  have tree : (⟨p.frames.length,plug (.leaf (y::rest)) gs⟩ : Tree) = ⟨os.length,plug (.leaf (pre ++ [x])) os⟩ := by
    rw [same,count,split.count]
  obtain ⟨d,placed_,inserted⟩ := hasSpaceInserted (p := ⟨pre ++ [x],some pre.length,os⟩) A space' preIo fits rfl rfl room_
    other (by rw [Path.placed,left,right]; exact valid)
  refine ⟨⟨space',⟨p.frames.length,plug (.leaf (y::rest)) gs⟩⟩,?_,d,?_,?_⟩
  · rw [extSplitEq space leaf found.ext]
    exact congrArg (Option.map _) done
  · rw [tree,sought,position]
    simpa using placed_
  · simp only [Path.placed,left,right,List.nil_append] at inserted
    refine ⟨inserted.sound,inserted.merged,inserted.exact,splitBooks (locatedBlks found) split (booksPerm ?_ inserted.books)⟩
    have one : (Tree.blks ⟨gs.length,plug (.leaf (y::rest)) gs⟩).Perm (around 0 gs) := blksPlug
    rw [split.count,tree] at one
    exact one.symm.trans blksPlug

theorem splitOuter (found : Located t p pre x [] new.eeBlock) (free : hasFreeIndex p.frames = true)
    (less : x.eeBlock < new.eeBlock) (valid : Valid (p.placed pre x [] new)) :
    Retried A space t.blks (p.placed pre x [] new) new preIo (mlfsExtSplit A space p new) := by
  have leaf := found.leaf
  have shape : p.placed pre x [] new =
      (before 0 p.frames ++ (pre ++ [x])) ++ [new] ++ after 0 p.frames := by
    rw [Path.placed,placed,if_pos less]
    simp
  rw [shape] at valid ⊢
  obtain ⟨k,space',gs,head,done,split⟩ := leafSplit A space found.fits leaf free
    fun e mem => validLess (validLeft valid) mem (.head _)
  have left : before 0 gs = before 0 p.frames ++ (pre ++ [x]) := split.left
  rw [← left,← split.right] at valid ⊢
  have room_ : 4 ≤ ehMax gs := spaceBlockPos (p := ⟨[],none,gs⟩)
  have fits : Fits 0 (.leaf [new]) gs := by
    refine ⟨trivial,Nat.le_trans (by simp) room_,fun _ => by simp,split.sides,fun k' head' => ?_⟩
    cases head'
    exact split.chained
  have sought := findAlong [] fits (by simp) valid (fun _ k' head' => by cases head'; exact Nat.le_refl _)
    fun y mem => found.above y (by rw [← split.right]; exact mem)
  obtain ⟨d,placed_,inserted⟩ := hasSpaceEmpty (p := ⟨[],none,gs⟩) A space' preIo rfl split.sides split.chained valid
  refine ⟨⟨space',⟨p.frames.length,plug (.leaf []) gs⟩⟩,?_,d,?_,?_⟩
  · rw [extSplitEq space leaf found.ext]
    exact congrArg (Option.map _) done
  · rw [← split.count,sought]
    simpa using placed_
  · exact ⟨inserted.sound,inserted.merged,inserted.exact,splitBooks (locatedBlks found) split inserted.books⟩

theorem splitInserted (A : Allocator σ) (space : σ) (preIo : Bool) (sound : Sound t) (found : Located t p pre x post new.eeBlock)
    (full : ehMax p.frames ≤ p.leaf.length) (free : hasFreeIndex p.frames = true) (other : new.eeBlock ≠ x.eeBlock)
    (valid : Valid (p.placed pre x post new)) :
    Retried A space t.blks (p.placed pre x post new) new preIo (mlfsExtSplit A space p new) := by
  cases post with
  | cons y rest => exact splitInner sound found free other valid
  | nil =>
    have many : 4 ≤ p.leaf.length := Nat.le_trans spaceBlockPos full
    have inner : pre ≠ [] := by
      rintro rfl
      rw [found.leaf] at many
      simp at many
    have level := found.here (List.append_ne_nil_of_right_ne_nil _ inner)
    exact splitOuter found free (Nat.lt_of_le_of_ne level (Ne.symm other)) valid

end Leaf

section Grow
variable {σ : Type} {A : Allocator σ} {space : σ} {t : Tree} {p : Path}
  {pre post : List Extent} {x new : Extent} {preIo : Bool}

theorem firstBlockKey (sound : Sound t) (listed : t.extents ≠ []) :
    first Extent.eeBlock t.extents = some (firstBlock t.root) := by
  obtain ⟨depth,root⟩ := t
  have good := sound.fits.good
  cases depth with
  | zero =>
    obtain ⟨es,rfl⟩ := goodLeaf good
    obtain ⟨ex,rest,rfl⟩ := exists_cons_of_ne_nil (show es ≠ [] from listed)
    rfl
  | succ d =>
    obtain ⟨cs,rfl⟩ := goodShape good
    obtain ⟨c,rest,rfl⟩ := exists_cons_of_ne_nil (show cs ≠ [] from fun h => listed (by rw [h]; rfl))
    exact underFirst (goodIndex.mp good c (.head _))

theorem growSound (A : Allocator σ) (space : σ) (sound : Sound t) (listed : t.extents ≠ []) : Sound (mlfsExtGrowIndepth A space t).tree ∧
    (mlfsExtGrowIndepth A space t).tree.extents = t.extents ∧
    (mlfsExtGrowIndepth A space t).tree.blks = (A.alloc space 1).first::t.blks := by
  have extents : (mlfsExtGrowIndepth A space t).tree.extents = t.extents := append_nil _
  have blks : (mlfsExtGrowIndepth A space t).tree.blks = (A.alloc space 1).first::t.blks :=
    congrArg _ (append_nil _)
  have size : t.root.entries ≤ spaceBlock := Nat.le_trans sound.fits.size (by decide)
  refine ⟨⟨⟨goodIndex.mpr fun c mem => ?_,show 1 ≤ spaceRoot by decide,fun h => absurd rfl h,trivial,fun _ _ => trivial⟩,
    fun _ => ?_,?_⟩,extents,blks⟩
  · cases mem_singleton.mp mem
    exact ⟨sound.fits.good,size,firstBlockKey sound listed⟩
  · rw [extents]
    exact listed
  · rw [extents]
    exact sound.valid

theorem freeAtRoot {d : Nat} {c : Link × Node Extent} (tree : p.tree = ⟨d + 1,.index [c]⟩) : hasFreeIndex p.frames = true := by
  have count : p.frames.length = d + 1 := congrArg Tree.depth tree
  have root : plug (.leaf p.leaf) p.frames = .index [c] := congrArg Tree.root tree
  obtain ⟨gs,f,shape⟩ : ∃ gs f, p.frames = gs ++ [f] := by
    refine ⟨p.frames.dropLast,p.frames.getLast (List.ne_nil_of_length_pos (by omega)),?_⟩
    exact (List.dropLast_append_getLast _).symm
  rw [shape] at root ⊢
  rw [plugAppend] at root
  have alone : f.entries = 1 := by
    have cs := Node.index.inj root
    have lengths := congrArg List.length cs
    simp only [length_append,length_cons,List.length_nil] at lengths
    rw [Frame.entries]
    omega
  clear shape root
  induction gs with
  | nil =>
    rw [List.nil_append,hasFreeIndex,alone]
    rfl
  | cons g gs ih =>
    rw [List.cons_append,hasFreeIndex,ih,Bool.or_true]

theorem locatedSame {t' : Tree} {q : Path} {pre' post' : List Extent} {y : Extent} {block : Nat} (sound : Sound t)
    (same : t'.extents = t.extents) (found : Located t p pre x post block) (again : Located t' q pre' y post' block) :
    before 0 q.frames ++ pre' = before 0 p.frames ++ pre ∧ y = x ∧ post' ++ after 0 q.frames = post ++ after 0 p.frames := by
  have whole := locatedExtents found
  have other := locatedExtents again
  rw [same] at other
  have valid : Valid (before 0 q.frames ++ pre' ++ y::(post' ++ after 0 q.frames)) := other ▸ sound.valid
  exact splitSame valid (other.symm.trans whole) again.here again.above found.here found.above

theorem createInserted (sound : Sound t) (found : Located t p pre x post new.eeBlock)
    (full : ehMax p.frames ≤ p.leaf.length) (other : new.eeBlock ≠ x.eeBlock)
    (valid : Valid (p.placed pre x post new)) :
    Retried A space t.blks (p.placed pre x post new) new preIo (mlfsExtCreateNewLeaf A space t p new) := by
  rw [mlfsExtCreateNewLeaf]
  by_cases free : hasFreeIndex p.frames = true
  · rw [if_pos free]
    exact splitInserted A space preIo sound found full free other valid
  rw [if_neg free]
  have listed : t.extents ≠ [] := by
    rw [locatedExtents found]
    simp
  obtain ⟨soundG,extents,blks⟩ := growSound A space sound listed
  have grows {last : σ} {cs : List Nat} (books : Books A (mlfsExtGrowIndepth A space t).space
      (mlfsExtGrowIndepth A space t).tree.blks last cs preIo) : Books A space t.blks last cs preIo := by
    rw [blks] at books
    exact booksDrawn (.more (.none _)) List.perm_append_comm books
  obtain ⟨q,pre',y,post',sought,again⟩ := located soundG (by rw [extents]; exact listed) new.eeBlock
  obtain ⟨left,rfl,right⟩ := locatedSame sound extents found again
  have freeG : hasFreeIndex q.frames = true := freeAtRoot again.tree
  rw [Path.placed,← left,← right] at valid ⊢
  generalize mlfsExtGrowIndepth A space t = grown at *
  simp only [sought]
  by_cases still : q.leaf.length = ehMax q.frames
  · obtain ⟨c,split,d,done,inserted⟩ := splitInserted A grown.space preIo soundG again
      (Nat.le_of_eq still.symm) freeG other valid
    rw [if_pos still]
    exact ⟨c,split,d,done,inserted.sound,inserted.merged,inserted.exact,grows inserted.books⟩
  · have room_ : q.leaf.length < ehMax q.frames := Nat.lt_of_le_of_ne again.fits.size still
    obtain ⟨d,done,inserted⟩ := hasSpaceInserted A grown.space preIo again.fits again.leaf again.ext room_ other valid
    rw [if_neg still]
    exact ⟨grown,rfl,d,by rw [sought]; exact done,inserted.sound,inserted.merged,inserted.exact,
      grows (booksPerm (locatedBlks again) inserted.books)⟩

theorem nextLeafFound {q : Path} (found : Located t p pre x post new.eeBlock) (next : nextLeaf t p new = some q) :
    ∃ b rest, post = [] ∧ x.eeBlock < new.eeBlock ∧ after 0 p.frames = b::rest ∧
      mlfsFindExtent t b.eeBlock = some q ∧ q.leaf.length < ehMax q.frames := by
  unfold nextLeaf at next
  split at next <;> try contradiction
  rename_i last atEnd
  split_ifs at next with behind
  obtain ⟨sought,room_⟩ := Option.filter_eq_some_iff.mp next
  rw [found.leaf] at atEnd
  have ended : post = [] := by
    by_contra more
    rw [List.getLast?_append_of_ne_nil _ (List.cons_ne_nil x post),List.getLast?_cons_of_ne_nil more] at atEnd
    have above := found.above last (mem_append_left _ (List.mem_of_getLast? atEnd))
    omega
  subst ended
  have same : x = last := by simpa using atEnd
  subst same
  have key := nextLeafFirst found.fits.sides
  obtain ⟨k,head⟩ : ∃ k, first Extent.eeBlock (after 0 p.frames) = some k := by
    refine firstExists Extent.eeBlock fun none_ => behind.2 ?_
    rw [key,none_]
    rfl
  obtain ⟨b,rest,shape,keyB⟩ := firstSome head
  rw [head,Option.getD_some,← keyB] at key
  rw [key] at sought
  exact ⟨b,rest,rfl,behind.1,shape,sought,of_decide_eq_true room_⟩

theorem nextInserted {q : Path} (A : Allocator σ) (space : σ) (preIo : Bool) (sound : Sound t)
    (found : Located t p pre x post new.eeBlock) (next : nextLeaf t p new = some q)
    (valid : Valid (p.placed pre x post new)) :
    ∃ d, hasSpace A space q new preIo = some d ∧
      Inserted A space t.blks (p.placed pre x post new) preIo d := by
  obtain ⟨b,rest,rfl,less,shape,sought,room_⟩ := nextLeafFound found next
  have above := found.above b (by simp [shape])
  have whole : t.extents = (before 0 p.frames ++ pre ++ [x]) ++ b::rest := by
    rw [locatedExtents found,shape]
    simp
  obtain ⟨q',pre',y,post',sought',again⟩ := located sound (by rw [whole]; simp) b.eeBlock
  cases sought.symm.trans sought'
  have sorted : Valid ((before 0 p.frames ++ pre ++ [x] ++ [b]) ++ rest) := by
    have valid := sound.valid
    rw [whole] at valid
    simpa using valid
  obtain ⟨left,rfl,right⟩ := splitSame (whole ▸ sound.valid) (whole.symm.trans (locatedExtents again))
    (fun _ => Nat.le_refl b.eeBlock) (fun e mem => validLess sorted (by simp) mem) again.here again.above
  have same : p.placed pre x [] new = q.placed pre' b post' new := by
    rw [Path.placed,placed,if_pos less,Path.placed,placed,if_neg (by omega),← left,← right,shape]
    simp
  rw [same] at valid ⊢
  obtain ⟨d,done,inserted⟩ := hasSpaceInserted A space preIo again.fits again.leaf again.ext room_ (by omega) valid
  exact ⟨d,done,inserted.sound,inserted.merged,inserted.exact,booksPerm (locatedBlks again) inserted.books⟩

theorem mergeInserted {r : List Extent × Nat} (sound : Sound t)
    (found : Located t p pre x post new.eeBlock) (plain : Plain new) (into : mergeInto p new = some r)
    (valid : Valid (p.placed pre x post new)) :
    Inserted A space t.blks (p.placed pre x post new) false
      (finish A space p.frames r.1 (p.ext.getD 0) r.2 false) := by
  have leaf := found.leaf
  have plainX : Plain x := (sound.valid.plain x (by rw [locatedExtents found]; simp)).1
  obtain ⟨merged,count⟩ := mergeIntoMerged leaf found.ext
    (fun inner => found.here (List.append_ne_nil_of_right_ne_nil _ inner)) plainX plain into
  rw [placedWithin] at valid ⊢
  have inside := mergedWithin merged (before 0 p.frames) (after 0 p.frames)
  have alike := mergedAlike inside valid
  obtain ⟨k,head⟩ := firstExists Extent.eeBlock (show pre ++ x::post ≠ [] by simp)
  have chained := found.fits.chained k (by rw [flatLeaf,leaf]; exact head)
  have listed : r.1 ≠ [] := by
    refine List.ne_nil_of_length_pos ?_
    rw [count,leaf]
    simp
  have keyed : p.ext.getD 0 = 0 ∨ first Extent.eeBlock r.1 = some k := by
    rw [found.ext,Option.getD_some]
    by_cases inner : pre = []
    · exact .inl (by rw [inner]; rfl)
    · refine .inr ?_
      rw [(mergedAlike merged (validMiddle valid)).first,placedFirst inner,head]
  have done : Inserted A space (around 0 p.frames) (before 0 p.frames ++ r.1 ++ after 0 p.frames) false
      (finish A space p.frames r.1 (p.ext.getD 0) r.2 false) :=
    finishInserted found.fits.sides chained listed (count ▸ found.fits.size) keyed alike.valid
  exact ⟨done.sound,mergedTrans inside done.merged,fun h => (by cases h),booksPerm (locatedBlks found) done.books⟩

theorem insertInserted (A : Allocator σ) (space : σ) (preIo : Bool) (sound : Sound t)
    (found : Located t p pre x post new.eeBlock) (plain : Plain new) (other : new.eeBlock ≠ x.eeBlock)
    (valid : Valid (p.placed pre x post new)) :
    ∃ d, mlfsExtInsertExtent A space t p new preIo = some d ∧
      Inserted A space t.blks (p.placed pre x post new) preIo d := by
  rw [mlfsExtInsertExtent,if_neg (plainLong plain)]
  cases into : (if preIo then none else mergeInto p new) with
  | some r =>
    cases preIo with
    | true => cases into
    | false => exact ⟨_,rfl,mergeInserted sound found plain into valid⟩
  | none =>
    simp only
    by_cases room_ : p.leaf.length < ehMax p.frames
    · rw [if_pos room_]
      obtain ⟨d,done,inserted⟩ := hasSpaceInserted A space preIo found.fits found.leaf found.ext room_ other valid
      exact ⟨d,done,inserted.sound,inserted.merged,inserted.exact,booksPerm (locatedBlks found) inserted.books⟩
    rw [if_neg room_]
    cases next : nextLeaf t p new with
    | some q => exact nextInserted A space preIo sound found next valid
    | none =>
      obtain ⟨c,created,d,done,inserted⟩ := createInserted sound found (Nat.le_of_not_lt room_) other valid
      refine ⟨d,?_,inserted⟩
      simp only [created,bind,Option.bind_some]
      exact done

theorem insertEmpty (A : Allocator σ) (space : σ) (preIo : Bool) (plain : Plain new) (valid : Valid [new]) :
    ∃ d, mlfsExtInsertExtent A space emptyTree ⟨[],none,[]⟩ new preIo = some d ∧
      Inserted A space emptyTree.blks [new] preIo d := by
  have none_ : (if preIo then none else mergeInto ⟨[],none,[]⟩ new) = none := by cases preIo <;> rfl
  obtain ⟨d,done,inserted⟩ := hasSpaceEmpty A space preIo (p := ⟨[],none,[]⟩) rfl trivial (k := 0) trivial valid
  refine ⟨d,?_,inserted⟩
  rw [mlfsExtInsertExtent,if_neg (plainLong plain),none_]
  exact (if_pos (by decide)).trans done

end Grow

end LineFS.Extents
