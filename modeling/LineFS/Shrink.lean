import LineFS.Unlink

/-! The digest of an inode update. A size below that of the published inode unmaps the blocks behind the new
end of the file: `digest_inode` computes the first and the last block of the range from the two sizes
in 32 bits, and `mlfs_ext_truncate` removes the range. -/
namespace LineFS.Shrink
open Base Kernfs Extents
open Unlink (File Good)

def blocksOf (size : Nat) : Nat := size / gBlockSizeBytes + if size % gBlockSizeBytes = 0 then 0 else 1
def startBlk (size : Nat) : Nat := blocksOf size % 2 ^ 32
def endBlk (size : Nat) : Nat := size / gBlockSizeBytes % 2 ^ 32

structure Digested (σ : Type) where
  file : File σ
  freed : List Nat

/- A regular file. The tree of an inode that was not digested before is the empty one. -/
def digestInode {σ : Type} (A : Allocator σ) (f : File σ) (size : Nat) : Option (Digested σ) :=
  if size < f.size then
    (mlfsExtRemoveSpace (startBlk size) (endBlk f.size) A f.space f.tree).map fun r => ⟨⟨r.space,r.tree,size⟩,r.freed⟩
  else some ⟨{ f with size := size },[]⟩

def tailBlocks (t : Tree) (first : Nat) : List Nat := t.mapped first (extMaxBlocks - 1)

/- The blocks behind the new size go back to the allocator, with those of emptied nodes; `grown` are blocks
that a split has drawn for the tree. -/
structure Shrunk {σ : Type} (A : Allocator σ) (f : File σ) (size : Nat) (d : Digested σ) : Prop where
  sized : d.file.size = size
  map : ∀ l, d.file.tree.map l = if l < blocksOf size then f.tree.map l else none
  once : d.freed.Nodup
  books : ∃ grown mid, Drawn A f.space grown mid ∧ d.file.space = d.freed.foldl A.free mid ∧
    Frees d.freed (tailBlocks f.tree (blocksOf size)) (f.tree.blks ++ grown) d.file.tree.blks

def Fits {σ : Type} (f : File σ) (size : Nat) : Prop :=
  endBlk f.size + 1 < extMaxBlocks ∧ ∀ l, f.tree.map l ≠ none →
    if blocksOf size < 2 ^ 32 then blocksOf size ≤ l → l ≤ endBlk f.size
    else ¬(startBlk size ≤ l ∧ l ≤ endBlk f.size)

section Ranges
variable {t : Tree} {l a b first last : Nat}

theorem mappedLow (sound : Sound t) (mapped : t.map l ≠ none) : l < extMaxBlocks := by
  obtain ⟨e,mem,_,high⟩ := mappedIn mapped
  exact Nat.lt_of_lt_of_le high (sound.valid.plain e mem).2

theorem rangeRestrict (map : Nat → Option Nat) {start n limit : Nat} (within : start + n ≤ limit) :
    (List.range' start n).filterMap map = (List.range' 0 limit).filterMap fun l => if start ≤ l ∧ l < start + n then map l else none := by
  obtain ⟨k,rfl⟩ := Nat.exists_eq_add_of_le within
  have whole : List.range' 0 (start + n + k) = List.range' 0 start ++ (List.range' start n ++ List.range' (start + n) k) := by
    have front : List.range' 0 start ++ List.range' (0 + start) (n + k) = List.range' 0 (start + (n + k)) := List.range'_append_1
    rw [Nat.zero_add] at front
    rw [List.range'_append_1,front,Nat.add_assoc]
  have before : (List.range' 0 start).filterMap (fun l => if start ≤ l ∧ l < start + n then map l else none) = [] := by
    refine List.filterMap_eq_nil_iff.mpr fun l mem => if_neg fun inside => ?_
    have less := (List.mem_range'_1.mp mem).2
    omega
  have behind : (List.range' (start + n) k).filterMap (fun l => if start ≤ l ∧ l < start + n then map l else none) = [] := by
    refine List.filterMap_eq_nil_iff.mpr fun l mem => if_neg fun inside => ?_
    have low := (List.mem_range'_1.mp mem).1
    omega
  rw [whole,List.filterMap_append,List.filterMap_append,before,behind,List.nil_append,List.append_nil]
  refine List.filterMap_congr fun l mem => ?_
  exact (if_pos (List.mem_range'_1.mp mem)).symm

theorem mappedRestrict (t : Tree) {limit : Nat} (within : last < limit) :
    t.mapped first last = (List.range' 0 limit).filterMap fun l => if first ≤ l ∧ l ≤ last then t.map l else none := by
  rw [Tree.mapped]
  by_cases crossed : last + 1 ≤ first
  · have empty : (List.range' 0 limit).filterMap (fun l => if first ≤ l ∧ l ≤ last then t.map l else none) = [] :=
      List.filterMap_eq_nil_iff.mpr fun l _ => if_neg (by omega)
    rw [empty,show last + 1 - first = 0 by omega]
    rfl
  · rw [rangeRestrict t.map (show first + (last + 1 - first) ≤ limit by omega)]
    refine List.filterMap_congr fun l _ => ?_
    refine if_congr ?_ rfl rfl
    omega

theorem mappedSame (same : ∀ l, t.map l ≠ none → (a ≤ l ∧ l ≤ b ↔ first ≤ l ∧ l ≤ last)) : t.mapped a b = t.mapped first last := by
  rw [mappedRestrict t (show b < max b last + 1 by omega),mappedRestrict t (show last < max b last + 1 by omega)]
  refine List.filterMap_congr fun l _ => ?_
  by_cases hole : t.map l = none
  · rw [hole,ite_self,ite_self]
  · exact if_congr (same l hole) rfl rfl

end Ranges

section Update
variable {σ : Type} {A : Allocator σ} {used : σ → Nat → Prop} {f : File σ} {size : Nat} {d : Digested σ}

theorem fitsRange (sound : Sound f.tree) : Fits f size ↔ endBlk f.size + 1 < extMaxBlocks ∧
    ∀ l, f.tree.map l ≠ none → (startBlk size ≤ l ∧ l ≤ endBlk f.size ↔ blocksOf size ≤ l) := by
  refine and_congr_right fun _ => forall₂_congr fun l mapped => ?_
  have low := mappedLow sound mapped
  have limit : extMaxBlocks < 2 ^ 32 := by decide
  split
  · rename_i short
    rw [startBlk,Nat.mod_eq_of_lt short]
    constructor
    · exact fun inside => ⟨And.left,fun behind => ⟨behind,inside behind⟩⟩
    · exact fun same behind => (same.mpr behind).2
  · rename_i long
    have below : ¬blocksOf size ≤ l := by omega
    rw [iff_false_right below]

theorem inodeRemoves (law : Lawful A used) (good : Good used f.space f.tree) (smaller : size < f.size)
    (range : endBlk f.size + 1 < extMaxBlocks) : ∃ r, digestInode A f size = some ⟨⟨r.space,r.tree,size⟩,r.freed⟩ ∧
      Removes (startBlk size) (endBlk f.size) A f.space f.tree r := by
  obtain ⟨r,done,removes⟩ := removeSpaceRemoves law (heldLeft good.held) good.sound range (startBlk size)
  exact ⟨r,by rw [digestInode,if_pos smaller,done,Option.map_some],removes⟩

theorem shrinkExact (law : Lawful A used) (good : Good used f.space f.tree) (smaller : size < f.size) :
    (∃ d, digestInode A f size = some d ∧ Shrunk A f size d) ↔ Fits f size := by
  rw [fitsRange good.sound]
  constructor
  · rintro ⟨d,done,shrunk⟩
    have range : endBlk f.size + 1 < extMaxBlocks := by
      by_contra far
      rw [digestInode,if_pos smaller,mlfsExtRemoveSpace,if_pos (by omega)] at done
      cases done
    obtain ⟨r,done',removes⟩ := inodeRemoves law good smaller range
    cases Option.some.inj (done.symm.trans done')
    refine ⟨range,fun l mapped => ?_⟩
    have left := (removes.map l).symm.trans (shrunk.map l)
    by_cases gone : startBlk size ≤ l ∧ l ≤ endBlk f.size
    · rw [if_pos gone] at left
      refine iff_of_true gone (Nat.not_lt.mp fun below => ?_)
      rw [if_pos below] at left
      exact mapped left.symm
    · rw [if_neg gone] at left
      refine iff_of_false gone fun behind => ?_
      rw [if_neg (Nat.not_lt.mpr behind)] at left
      exact mapped left
  · rintro ⟨range,same⟩
    obtain ⟨r,done,removes⟩ := inodeRemoves law good smaller range
    obtain ⟨grown,mid,drawn,after_,frees⟩ := removes.books
    have tail : f.tree.mapped (startBlk size) (endBlk f.size) = tailBlocks f.tree (blocksOf size) := by
      refine mappedSame fun l mapped => (same l mapped).trans ?_
      have low := mappedLow good.sound mapped
      omega
    rw [tail] at frees
    refine ⟨_,done,rfl,fun l => ?_,(removesHeld law removes good.held).2,grown,mid,drawn,after_,frees⟩
    show r.tree.map l = _
    rw [removes.map]
    by_cases hole : f.tree.map l = none
    · rw [hole,ite_self,ite_self]
    · by_cases behind : blocksOf size ≤ l
      · rw [if_pos ((same l hole).mpr behind),if_neg (Nat.not_lt.mpr behind)]
      · rw [if_neg (mt (same l hole).mp behind),if_pos (Nat.not_le.mp behind)]

theorem ordinaryFits (small : f.size < (extMaxBlocks - 1) * gBlockSizeBytes) (smaller : size < f.size)
    (inside : ∀ l, f.tree.map l ≠ none → l * gBlockSizeBytes < f.size) : Fits f size := by
  have last : endBlk f.size = f.size / gBlockSizeBytes := by
    refine Nat.mod_eq_of_lt ?_
    simp only [extMaxBlocks,gBlockSizeBytes] at *
    omega
  have first : blocksOf size < 2 ^ 32 := by
    have most : blocksOf size ≤ size / gBlockSizeBytes + 1 := by
      unfold blocksOf
      split <;> omega
    simp only [extMaxBlocks,gBlockSizeBytes] at *
    omega
  refine ⟨?_,fun l mapped => ?_⟩
  · rw [last]
    simp only [extMaxBlocks,gBlockSizeBytes] at *
    omega
  · rw [if_pos first,last]
    intro _
    have start := inside l mapped
    simp only [gBlockSizeBytes] at *
    omega

end Update

section Runs
variable {σ : Type} {A : Allocator σ} {used : σ → Nat → Prop} {space : σ} {s : State σ}

theorem reachedGood (law : Lawful A used) (reserved : ∀ b ≤ spaceRoot, used space b)
    (reached : Reach (step A) Allowed (initial space) s) : Good used s.space s.tree := by
  have exact_ := reachedExact law reserved reached
  exact ⟨exact_.sound,exact_.held⟩

end Runs

def twoExtents : List Action := [.create 0 3,.create 10 6]

theorem shrinkExactCut : ∃ s : State (List Nat), Reach (step topAllocator) Allowed (initial reservedBlks) s ∧
    s.tree.data = [5,6,7,8,9,10,11,12,13] ∧
    ∃ d, digestInode topAllocator ⟨s.space,s.tree,65536⟩ 50000 = some d ∧ Shrunk topAllocator ⟨s.space,s.tree,65536⟩ 50000 d := by
  obtain ⟨s,reached,is⟩ : ∃ s, Reach (step topAllocator) Allowed (initial reservedBlks) s ∧ s.tree.data = [5,6,7,8,9,10,11,12,13] ∧
      s.tree.extents = [⟨0,3,5⟩,⟨10,6,8⟩] := traceReach twoExtents (by decide +kernel)
  have smaller : 50000 < 65536 := by decide
  refine ⟨s,reached,is.1,(shrinkExact topLawful (reachedGood topLawful reservedLow reached) smaller).mpr ?_⟩
  have small : 65536 < (extMaxBlocks - 1) * gBlockSizeBytes := by decide
  refine ordinaryFits small smaller fun l mapped => ?_
  obtain ⟨e,mem,_,high⟩ := mappedIn mapped
  have listed : e ∈ ([⟨0,3,5⟩,⟨10,6,8⟩] : List Extent) := is.2 ▸ mem
  have stop : e.stop ≤ 16 := (by decide : ∀ e ∈ ([⟨0,3,5⟩,⟨10,6,8⟩] : List Extent), e.stop ≤ 16) e listed
  show l * gBlockSizeBytes < 65536
  simp only [gBlockSizeBytes]
  omega

/- Of a file of eleven blocks made longer to 16 TB, the last block is 0 in 32 bits, and no block is removed. -/
theorem shrinkFromWrappedEnd : ∃ f d, (Unlink.digestFile topAllocator (Unlink.created reservedBlks) ⟨0,11 * 4096⟩).bind
      (fun f => (digestInode topAllocator f (2 ^ 44)).map Digested.file) = some f ∧ f.size = 2 ^ 44 ∧
    digestInode topAllocator f 4096 = some d ∧ d.file.tree.map 1 = some 6 ∧ d.freed = [] ∧ ¬Shrunk topAllocator f 4096 d := by
  have trace : ((Unlink.digestFile topAllocator (Unlink.created reservedBlks) ⟨0,11 * 4096⟩).bind
      (fun f => (digestInode topAllocator f (2 ^ 44)).map Digested.file)).map (fun f => (f.size,
        (digestInode topAllocator f 4096).map fun d => (d.file.tree.map 1,d.freed))) = some (2 ^ 44,some (some 6,[])) := by
    decide +kernel
  obtain ⟨f,ran,is⟩ := Option.map_eq_some_iff.mp trace
  obtain ⟨size,cut⟩ := Prod.mk.inj is
  obtain ⟨d,done,left⟩ := Option.map_eq_some_iff.mp cut
  obtain ⟨mapped,freed⟩ := Prod.mk.inj left
  refine ⟨f,d,ran,size,done,mapped,freed,fun shrunk => ?_⟩
  have gone := shrunk.map 1
  rw [mapped,if_neg (by decide)] at gone
  cases gone

end LineFS.Shrink
