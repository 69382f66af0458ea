import LineFS.ExtentMap

/-! What an unlink gives back. The digest builds the extent tree of a file by its writes; `digest_unlink`
truncates the tree up to the last whole block of the file and then wipes the inode, with whatever
the tree still holds. -/
namespace LineFS.Unlink
open Base Kernfs Extents

structure File (σ : Type) where
  space : σ
  tree : Tree
  size : Nat

structure Write where
  offset : Nat
  length : Nat
  deriving DecidableEq, Repr

section Digest
variable {σ : Type} (A : Allocator σ)

def digestBlocks : Nat → σ → Tree → Nat → Nat → Option (σ × Tree)
  | _, space, tree, _, 0 => some (space,tree)
  | 0, _, _, _, _ => none
  | rounds + 1, space, tree, curOffset, left + 1 => do
    if curOffset % gBlockSizeBytes ≠ 0 then none
    else
      let g ← mlfsExtGetBlocks A space tree (curOffset / gBlockSizeBytes) (left + 1) true
      if g.pblk = 0 ∨ left + 1 < g.len ∨ g.len = 0 then none
      else digestBlocks rounds g.space g.tree (curOffset + g.len * gBlockSizeBytes) (left + 1 - g.len)

def placeFile (space : σ) (tree : Tree) (w : Write) : Option (σ × Tree) :=
  let nrBlocks := getBlkCntFromLength w.length
  let offsetInBlock := w.offset % gBlockSizeBytes
  if w.length < gBlockSizeBytes ∨ offsetInBlock ≠ 0 then do
    let len := min w.length (gBlockSizeBytes - offsetInBlock)
    let g ← mlfsExtGetBlocks A space tree (w.offset / gBlockSizeBytes) 1 true
    digestBlocks A nrBlocks g.space g.tree (w.offset + len) (nrBlocks - 1)
  else digestBlocks A nrBlocks space tree w.offset nrBlocks

def digestFile (f : File σ) (w : Write) : Option (File σ) :=
  if getBlkCntFromLength w.length = 0 then none
  else (placeFile A f.space f.tree w).map fun p => ⟨p.1,p.2,max f.size (w.offset + w.length)⟩

def digestUnlink (f : File σ) : Option (Removed σ) :=
  if 0 < f.size then
    let last := f.size / gBlockSizeBytes % 2 ^ 32
    mlfsExtRemoveSpace 0 (if last = 0 then last else last - 1) A f.space f.tree
  else some ⟨f.space,f.tree,[]⟩

end Digest

def created {σ : Type} (space : σ) : File σ := ⟨space,emptyTree,0⟩

/- The first call asks for the whole range of an aligned write. It must not reach over the first extent of the
tree. -/
def Allowed {σ : Type} (f : File σ) (w : Write) : Prop :=
  let first := w.offset / gBlockSizeBytes
  let n := getBlkCntFromLength w.length
  0 < w.length ∧ n ≤ extInitMaxLen ∧ w.offset + w.length ≤ (extMaxBlocks - 1) * gBlockSizeBytes ∧
  (gBlockSizeBytes ≤ w.length ∧ w.offset % gBlockSizeBytes = 0 → f.tree.map first = none →
    (∀ l < first, f.tree.map l = none) → ∀ i < n, f.tree.map (first + i) = none)

instance {σ : Type} (f : File σ) (w : Write) : Decidable (Allowed f w) :=
  inferInstanceAs (Decidable (_ ∧ _ ∧ _ ∧ (_ → _ → (∀ l < _, _) → ∀ i < _, _)))

/- The size ends a block, or the file has no whole block, or nothing is mapped behind the last one. -/
def Whole {σ : Type} (f : File σ) : Prop :=
  f.size < gBlockSizeBytes ∨ f.size % gBlockSizeBytes = 0 ∨ f.tree.map (f.size / gBlockSizeBytes) = none

/- `grown` are blocks that the truncation itself has drawn for the tree. -/
structure Released {σ : Type} (used : σ → Nat → Prop) (f : File σ) (r : Removed σ) : Prop where
  empty : r.tree = emptyTree
  once : r.freed.Nodup
  all : ∃ grown, (∀ b ∈ grown, ¬used f.space b) ∧ r.freed.Perm (f.tree.data ++ (f.tree.blks ++ grown))

section Writes
variable {σ : Type} {A : Allocator σ} {used : σ → Nat → Prop} {space : σ} {tree t : Tree} {f f' : File σ} {w : Write}
  {lblk l b n : Nat}

theorem mappedData (mapped : t.map l = some b) : b ∈ t.data := by
  obtain ⟨s,mem,maps⟩ := Seg.lookupSome mapped
  obtain ⟨low,high,rfl⟩ := Seg.mapsSome maps
  refine List.mem_flatMap.mpr ⟨s,mem,List.mem_range'_1.mpr ⟨Nat.le_add_right _ _,?_⟩⟩
  have stop : s.stop = s.low + s.len := rfl
  omega

theorem unmappedEmpty (sound : Sound t) (unmapped : ∀ l, t.map l = none) : t = emptyTree := by
  have none' : t.extents = [] := by
    by_contra listed
    obtain ⟨x,mem⟩ := List.exists_mem_of_ne_nil _ listed
    exact mapsStart sound mem (unmapped _)
  exact (locatedEmpty sound none' 0).1

structure Good (used : σ → Nat → Prop) (space : σ) (tree : Tree) : Prop where
  sound : Sound tree
  held : Held used space (tree.blks ++ tree.data)

def Adds (tree tree' : Tree) (lblk n : Nat) : Prop :=
  ∀ l, tree'.map l ≠ none → tree.map l ≠ none ∨ lblk ≤ l ∧ l < lblk + n

theorem getPlaced (law : Lawful A used) (good : Good used space tree) (pos : 0 < n) (fitting : Fitting tree.map lblk n) :
    ∃ g, mlfsExtGetBlocks A space tree lblk n true = some g ∧ 0 < g.len ∧ g.len ≤ n ∧ g.pblk ≠ 0 ∧
      Good used g.space g.tree ∧ g.tree.map lblk ≠ none ∧ Adds tree g.tree lblk g.len := by
  obtain ⟨g,done,creates,sound,held⟩ := getCreated law good.sound good.held fitting
  have len := creates.least pos
  have here : g.tree.map lblk = some g.pblk := by
    rw [creates.map,mapRange,if_pos ⟨Nat.le_refl _,by omega⟩,Nat.sub_self,Nat.add_zero]
  have high := held.high g.pblk (List.mem_append_right _ (mappedData here))
  refine ⟨g,done,len,creates.most,by omega,⟨sound,held⟩,by simp [here],fun l mapped => ?_⟩
  rw [creates.map,mapRange] at mapped
  split at mapped
  · exact Or.inr (by assumption)
  · exact Or.inl mapped

theorem fittingOf (pos : 0 < n) (few : n ≤ extInitMaxLen) (bound : lblk + n ≤ extMaxBlocks)
    (clear : tree.map lblk = none → (∀ l < lblk, tree.map l = none) → ∀ i < n, tree.map (lblk + i) = none) :
    Fitting tree.map lblk n :=
  fun hole => ⟨pos,by omega,Or.inl few,clear hole⟩

theorem digestBlocksPlaced (law : Lawful A used) {rounds left curOffset : Nat} (enough : left ≤ rounds)
    (aligned : left ≠ 0 → curOffset % gBlockSizeBytes = 0) (few : left ≤ extInitMaxLen)
    (bound : left ≠ 0 → curOffset / gBlockSizeBytes + left ≤ extMaxBlocks) (good : Good used space tree)
    (clear : tree.map (curOffset / gBlockSizeBytes) = none → (∀ l < curOffset / gBlockSizeBytes, tree.map l = none) →
      ∀ i < left, tree.map (curOffset / gBlockSizeBytes + i) = none) :
    ∃ p, digestBlocks A rounds space tree curOffset left = some p ∧ Good used p.1 p.2 ∧
      Adds tree p.2 (curOffset / gBlockSizeBytes) left := by
  induction rounds generalizing left curOffset space tree with
  | zero =>
    cases Nat.le_zero.mp enough
    exact ⟨(space,tree),rfl,good,fun _ mapped => Or.inl mapped⟩
  | succ rounds ih =>
    cases left with
    | zero => exact ⟨(space,tree),rfl,good,fun _ mapped => Or.inl mapped⟩
    | succ left =>
      have start := aligned (Nat.succ_ne_zero left)
      have room := bound (Nat.succ_ne_zero left)
      obtain ⟨g,done,pos,most,high,good',here,adds⟩ :=
        getPlaced law good (Nat.succ_pos left) (fittingOf (Nat.succ_pos left) few room clear)
      have next : (curOffset + g.len * gBlockSizeBytes) / gBlockSizeBytes = curOffset / gBlockSizeBytes + g.len :=
        Nat.add_mul_div_right _ _ (by decide)
      have still : (curOffset + g.len * gBlockSizeBytes) % gBlockSizeBytes = 0 := by rw [Nat.add_mul_mod_self_right,start]
      have clear' : g.tree.map ((curOffset + g.len * gBlockSizeBytes) / gBlockSizeBytes) = none →
          (∀ l < (curOffset + g.len * gBlockSizeBytes) / gBlockSizeBytes, g.tree.map l = none) →
          ∀ i < left + 1 - g.len, g.tree.map ((curOffset + g.len * gBlockSizeBytes) / gBlockSizeBytes + i) = none := by
        intro _ below
        exact absurd (below (curOffset / gBlockSizeBytes) (by omega)) here
      obtain ⟨p,rest,last,more⟩ := ih (by omega) (fun _ => still) (by omega) (by omega) good' clear'
      refine ⟨p,?_,last,fun l mapped => ?_⟩
      · have fine : ¬(g.pblk = 0 ∨ left + 1 < g.len ∨ g.len = 0) := by omega
        simp only [digestBlocks,start,ne_eq,not_true_eq_false,if_false,done,bind,Option.bind_some,if_neg fine,rest]
      · rw [next] at more
        rcases more l mapped with before | ⟨low,top⟩
        · exact (adds l before).imp_right fun inside => ⟨inside.1,by omega⟩
        · exact Or.inr ⟨by omega,by omega⟩

theorem blkCnt {length : Nat} (pos : 0 < length) : getBlkCntFromLength length = (length + gBlockSizeBytes - 1) / gBlockSizeBytes := by
  unfold getBlkCntFromLength
  split
  · simp only [gBlockSizeBytes] at *
    omega
  · split <;> simp only [gBlockSizeBytes] at * <;> omega

theorem headEnds {offset length : Nat} (pos : 0 < length) (more : getBlkCntFromLength length - 1 ≠ 0) :
    (offset + min length (gBlockSizeBytes - offset % gBlockSizeBytes)) % gBlockSizeBytes = 0 ∧
    (offset + min length (gBlockSizeBytes - offset % gBlockSizeBytes)) / gBlockSizeBytes = offset / gBlockSizeBytes + 1 := by
  rw [blkCnt pos] at more
  simp only [gBlockSizeBytes] at *
  omega

theorem lastStarts {offset length l : Nat} (pos : 0 < length) (inside : l ≤ offset / gBlockSizeBytes + (getBlkCntFromLength length - 1)) :
    l * gBlockSizeBytes < offset + length := by
  rw [blkCnt pos] at inside
  simp only [gBlockSizeBytes] at *
  omega

def PlacesFile (A : Allocator σ) (used : σ → Nat → Prop) (f : File σ) (w : Write) : Prop :=
  ∃ p, placeFile A f.space f.tree w = some p ∧ Good used p.1 p.2 ∧
    ∀ l, p.2.map l ≠ none → f.tree.map l ≠ none ∨ l * gBlockSizeBytes < w.offset + w.length

section place
variable (law : Lawful A used) (good : Good used f.space f.tree) (allowed : Allowed f w)
include law good allowed

theorem headPlaced (single : w.length < gBlockSizeBytes ∨ w.offset % gBlockSizeBytes ≠ 0) : PlacesFile A used f w := by
  obtain ⟨pos,few,range,-⟩ := allowed
  have count := blkCnt pos
  have room : w.offset / gBlockSizeBytes + 1 ≤ extMaxBlocks := by
    simp only [gBlockSizeBytes,extMaxBlocks] at *
    omega
  have alone : f.tree.map (w.offset / gBlockSizeBytes) = none → (∀ l < w.offset / gBlockSizeBytes, f.tree.map l = none) →
      ∀ i < 1, f.tree.map (w.offset / gBlockSizeBytes + i) = none := by
    intro hole _ i less
    rw [Nat.lt_one_iff.mp less,Nat.add_zero]
    exact hole
  obtain ⟨g,done,_,most,_,good',here,adds⟩ := getPlaced law good Nat.one_pos (fittingOf Nat.one_pos (by decide) room alone)
  have head := @headEnds w.offset _ pos
  simp only [PlacesFile,placeFile,if_pos single,done,bind,Option.bind_some]
  generalize w.offset + min w.length (gBlockSizeBytes - w.offset % gBlockSizeBytes) = curOffset at head ⊢
  have later : ∃ p, digestBlocks A (getBlkCntFromLength w.length) g.space g.tree curOffset (getBlkCntFromLength w.length - 1) = some p ∧
      Good used p.1 p.2 ∧ Adds g.tree p.2 (curOffset / gBlockSizeBytes) (getBlkCntFromLength w.length - 1) := by
    refine digestBlocksPlaced law (Nat.sub_le _ _) (fun more => (head more).1) (by omega) (fun more => ?_) good' fun _ below i less => ?_
    · rw [(head more).2]
      simp only [gBlockSizeBytes,extMaxBlocks] at *
      omega
    · rw [(head (by omega)).2] at below
      exact absurd (below _ (Nat.lt_succ_self _)) here
  obtain ⟨p,rest,last,more⟩ := later
  refine ⟨p,rest,last,fun l mapped => ?_⟩
  rcases more l mapped with before | ⟨low,top⟩
  · exact (adds l before).imp_right fun inside => lastStarts pos (by omega)
  · have left : getBlkCntFromLength w.length - 1 ≠ 0 := by omega
    rw [(head left).2] at low top
    exact Or.inr (lastStarts pos (by omega))

theorem wholePlaced (aligned : gBlockSizeBytes ≤ w.length ∧ w.offset % gBlockSizeBytes = 0) : PlacesFile A used f w := by
  obtain ⟨pos,few,range,clear⟩ := allowed
  have count := blkCnt pos
  have room : w.offset / gBlockSizeBytes + getBlkCntFromLength w.length ≤ extMaxBlocks := by
    simp only [gBlockSizeBytes,extMaxBlocks] at *
    omega
  obtain ⟨p,done,last,more⟩ := digestBlocksPlaced law (Nat.le_refl _) (fun _ => aligned.2) few (fun _ => room) good (clear aligned)
  have whole : ¬(w.length < gBlockSizeBytes ∨ w.offset % gBlockSizeBytes ≠ 0) := by omega
  refine ⟨p,by simp only [placeFile,if_neg whole,done],last,fun l mapped => ?_⟩
  exact (more l mapped).imp_right fun inside => lastStarts pos (by omega)

theorem placeFilePlaced : PlacesFile A used f w := by
  by_cases single : w.length < gBlockSizeBytes ∨ w.offset % gBlockSizeBytes ≠ 0
  · exact headPlaced law good allowed single
  · exact wholePlaced law good allowed (by omega)

end place

structure Inv (used : σ → Nat → Prop) (f : File σ) : Prop where
  good : Good used f.space f.tree
  covered : ∀ l, f.tree.map l ≠ none → l * gBlockSizeBytes < f.size
  short : f.size ≤ (extMaxBlocks - 1) * gBlockSizeBytes

theorem digestFileInv (law : Lawful A used) (inv : Inv used f) (allowed : Allowed f w) (taken : digestFile A f w = some f') :
    Inv used f' := by
  obtain ⟨p,placed,good,mapped⟩ := placeFilePlaced law inv.good allowed
  unfold digestFile at taken
  split at taken <;> try contradiction
  rw [placed] at taken
  cases taken
  refine ⟨good,fun l some => ?_,Nat.max_le.mpr ⟨inv.short,allowed.2.2.1⟩⟩
  rcases mapped l some with old | new
  · exact Nat.lt_of_lt_of_le (inv.covered l old) (Nat.le_max_left _ _)
  · exact Nat.lt_of_lt_of_le new (Nat.le_max_right _ _)

theorem createdInv (reserved : ∀ b ≤ spaceRoot, used space b) : Inv used (created space) :=
  ⟨⟨emptySound,List.nodup_nil,nofun,nofun,reserved⟩,
    fun _ mapped => absurd rfl mapped,Nat.zero_le _⟩

def lastBlock (size : Nat) : Nat := size / gBlockSizeBytes - 1

theorem unlinkTruncates (law : Lawful A used) (inv : Inv used f) (filled : 0 < f.size) :
    ∃ r, digestUnlink A f = some r ∧ Removes 0 (lastBlock f.size) A f.space f.tree r := by
  have short := inv.short
  have small : f.size / gBlockSizeBytes % 2 ^ 32 = f.size / gBlockSizeBytes := by
    simp only [gBlockSizeBytes,extMaxBlocks] at *
    omega
  have range : lastBlock f.size + 1 < extMaxBlocks := by
    simp only [lastBlock,gBlockSizeBytes,extMaxBlocks] at *
    omega
  obtain ⟨r,done,removes⟩ := removeSpaceRemoves law (heldLeft inv.good.held) inv.good.sound range 0
  refine ⟨r,?_,removes⟩
  simp only [digestUnlink,if_pos filled,small]
  have same : (if f.size / gBlockSizeBytes = 0 then f.size / gBlockSizeBytes else f.size / gBlockSizeBytes - 1) = lastBlock f.size := by
    unfold lastBlock
    split <;> omega
  rw [same]
  exact done

theorem wholeCovered (inv : Inv used f) (whole : Whole f) {l : Nat} (mapped : f.tree.map l ≠ none) : l ≤ lastBlock f.size := by
  have inside := inv.covered l mapped
  have other : f.tree.map (f.size / gBlockSizeBytes) = none → l ≠ f.size / gBlockSizeBytes := by
    rintro hole rfl
    exact mapped hole
  rcases whole with few | even | hole
  · simp only [lastBlock,gBlockSizeBytes] at *
    omega
  · simp only [lastBlock,gBlockSizeBytes] at *
    omega
  · have apart := other hole
    simp only [lastBlock,gBlockSizeBytes] at *
    omega

theorem removesAll (law : Lawful A used) (inv : Inv used f) {r : Removed σ} (removes : Removes 0 (lastBlock f.size) A f.space f.tree r)
    (covered : ∀ l, f.tree.map l ≠ none → l ≤ lastBlock f.size) : Released used f r := by
  have empty : r.tree = emptyTree := by
    refine unmappedEmpty removes.sound fun l => ?_
    rw [removes.map]
    split
    · rfl
    · rename_i outside
      by_contra mapped
      exact outside ⟨Nat.zero_le l,covered l mapped⟩
  obtain ⟨grown,mid,drawn,_,gone,freed,blocks⟩ := removes.books
  have data := removes.data
  rw [empty] at data blocks
  have none' : emptyTree.data = [] ∧ emptyTree.blks = [] := ⟨rfl,rfl⟩
  rw [none'.1,List.nil_append] at data
  rw [none'.2,List.append_nil] at blocks
  exact ⟨empty,(removesHeld law removes inv.good.held).2,grown,drawnFresh law drawn,freed.trans (data.append blocks)⟩

theorem unlinkReleases (law : Lawful A used) (reserved : ∀ b ≤ spaceRoot, used space b)
    (reached : Reach (digestFile A) Allowed (created space) f) :
    (∃ r, digestUnlink A f = some r ∧ Released used f r) ↔ Whole f := by
  have inv : Inv used f := reachInvariant (Inv used) (createdInv reserved)
    (fun _ _ _ inv allowed taken => digestFileInv law inv allowed taken) reached
  rcases Nat.eq_zero_or_pos f.size with zero | filled
  · have unmapped : ∀ l, f.tree.map l = none := by
      intro l
      by_contra mapped
      have inside := inv.covered l mapped
      omega
    have empty := unmappedEmpty inv.good.sound unmapped
    refine iff_of_true ⟨⟨f.space,f.tree,[]⟩,?_,empty,List.nodup_nil,[],by simp,?_⟩ (Or.inl (by rw [zero]; decide))
    · simp [digestUnlink,zero]
    · rw [empty]
      exact List.Perm.refl _
  · obtain ⟨r,done,removes⟩ := unlinkTruncates law inv filled
    constructor
    · rintro ⟨r',done',released⟩
      cases Option.some.inj (done.symm.trans done')
      by_contra hidden
      obtain ⟨many,hidden⟩ := not_or.mp hidden
      obtain ⟨odd,mapped⟩ := not_or.mp hidden
      have kept := removes.map (f.size / gBlockSizeBytes)
      have behind : ¬(0 ≤ f.size / gBlockSizeBytes ∧ f.size / gBlockSizeBytes ≤ lastBlock f.size) := by
        simp only [lastBlock,gBlockSizeBytes] at *
        omega
      rw [if_neg behind,released.empty] at kept
      exact mapped kept.symm
    · intro whole
      exact ⟨r,done,removesAll law inv removes fun l mapped => wholeCovered inv whole mapped⟩

end Writes

def aroundHole : List Write := [⟨0,4096⟩,⟨8192,4096⟩]

theorem unlinkReleasesHole : ∃ f : File (List Nat), Reach (digestFile topAllocator) Allowed (created reservedBlks) f ∧
    f.tree.data = [5,6] ∧ ∃ r, digestUnlink topAllocator f = some r ∧ Released (fun space b => b ∈ space) f r := by
  obtain ⟨f,reached,is⟩ : ∃ f, Reach (digestFile topAllocator) Allowed (created reservedBlks) f ∧ f.size = 12288 ∧
      f.tree.data = [5,6] := traceReach aroundHole (by decide +kernel)
  exact ⟨f,reached,is.2,(unlinkReleases topLawful reservedLow reached).mpr (Or.inr (Or.inl (by rw [is.1]; decide)))⟩

def partialBlock : List Write := [⟨0,4096⟩,⟨4096,904⟩]

/- A file of 5000 bytes: the second of its blocks is still mapped when the inode is wiped. -/
theorem partialBlockLeaks : ∃ f : File (List Nat), Reach (digestFile topAllocator) Allowed (created reservedBlks) f ∧ f.size = 5000 ∧
    f.tree.data = [5,6] ∧ (digestUnlink topAllocator f).map (fun r => (r.freed,r.tree.data)) = some ([5],[6]) := by
  exact traceReach partialBlock (by decide +kernel)

end LineFS.Unlink
