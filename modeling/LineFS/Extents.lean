import LineFS.Base.Btree
import LineFS.Base.Segments
import LineFS.Kernfs

/-! The extent tree of an inode as `kernfs/extents.c` reads and changes it. A path of the source is the leaf
it ends in, the position of `p_ext` and the frames above; the search finds again the pointers of a path that
a call has changed. An error, a failed `BUG_ON` and an uninitialised pointer are `none`. -/
namespace LineFS.Extents
open Base Kernfs

def extInitMaxLen : Nat := 32768
def extUnwrittenMaxLen : Nat := extInitMaxLen - 1
def extMaxBlocks : Nat := 0xffffffff

def spaceRoot : Nat := (60 - 12) / 12
def spaceBlock : Nat := (4096 - 12) / 12

structure Extent where
  eeBlock : Nat
  eeLen : Nat
  eeStart : Nat
  deriving DecidableEq, Repr

namespace Extent

def actualLen (ex : Extent) : Nat := if ex.eeLen ≤ extInitMaxLen then ex.eeLen else ex.eeLen - extInitMaxLen
def isUnwritten (ex : Extent) : Bool := decide (extInitMaxLen < ex.eeLen)
def markUnwritten (ex : Extent) : Extent := { ex with eeLen := ex.eeLen ||| extInitMaxLen }
def markInitialized (ex : Extent) : Extent := { ex with eeLen := ex.actualLen }
def stop (ex : Extent) : Nat := ex.eeBlock + ex.actualLen

def seg (ex : Extent) : Seg := ⟨ex.eeBlock,ex.actualLen,ex.eeStart⟩

def joined (ex1 ex2 : Extent) : Extent :=
  let ex := { ex1 with eeLen := ex1.actualLen + ex2.actualLen }
  if ex1.isUnwritten then ex.markUnwritten else ex

end Extent

structure Tree where
  depth : Nat
  root : Node Extent

structure Path where
  leaf : List Extent
  ext : Option Nat
  frames : List (Frame Extent)

def Tree.extents (t : Tree) : List Extent := t.root.flat t.depth
def Tree.blks (t : Tree) : List Nat := t.root.blks t.depth
def Tree.map (t : Tree) : Nat → Option Nat := Seg.lookup (t.extents.map Extent.seg)
def emptyTree : Tree := ⟨0,.leaf []⟩

def Path.tree (p : Path) : Tree := ⟨p.frames.length,plug (.leaf p.leaf) p.frames⟩
def Path.near (p : Path) : Option Extent := p.ext.bind fun i => p.leaf[i]?

def ehMax (frames : List (Frame Extent)) : Nat := room spaceBlock spaceRoot frames

def mlfsFindExtent (t : Tree) (block : Nat) : Option Path :=
  (seek block t.depth t.root []).map fun r =>
    ⟨r.1,if r.1.isEmpty then none else some (binsearch Extent.eeBlock r.1 block),r.2⟩

def mlfsExtNextLeafBlock : List (Frame Extent) → Nat
  | [] => extMaxBlocks
  | f::fs =>
    match f.right with
    | c::_ => c.1.key
    | [] => mlfsExtNextLeafBlock fs

def mlfsExtNextAllocatedBlock (p : Path) : Nat :=
  match p.ext.bind fun i => p.leaf[i + 1]? with
  | some ex => ex.eeBlock
  | none => mlfsExtNextLeafBlock p.frames

def mlfsCanExtentsBeMerged (ex1 ex2 : Extent) : Prop :=
  ex1.isUnwritten = ex2.isUnwritten ∧ ex1.stop = ex2.eeBlock ∧ ex1.actualLen + ex2.actualLen ≤ extInitMaxLen ∧
    ¬(ex1.isUnwritten = true ∧ extUnwrittenMaxLen < ex1.actualLen + ex2.actualLen) ∧
    ex1.eeStart + ex1.actualLen = ex2.eeStart
deriving Decidable

def mergeRight (ex : Extent) : List Extent → Extent × List Extent × Bool
  | [] => (ex,[],false)
  | next::rest =>
    if mlfsCanExtentsBeMerged ex next then
      let r := mergeRight (ex.joined next) rest
      (r.1,r.2.1,true)
    else (ex,next::rest,false)

def mlfsExtTryToMergeRight (es : List Extent) (j : Nat) : List Extent × Bool :=
  match es.drop j with
  | [] => (es,false)
  | ex::rest =>
    let r := mergeRight ex rest
    (es.take j ++ r.1::r.2.1,r.2.2)

def mlfsExtTryToMerge (es : List Extent) (j : Nat) : List Extent :=
  let left := if 0 < j then mlfsExtTryToMergeRight es (j - 1) else (es,false)
  if left.2 then left.1 else (mlfsExtTryToMergeRight es j).1

def mlfsExtCorrectIndexes (frames : List (Frame Extent)) (es : List Extent) (ext : Nat) : List (Frame Extent) :=
  match ext, es with
  | 0, ex::_ => rekey ex.eeBlock frames
  | _, _ => frames

structure Change (σ : Type) where
  space : σ
  tree : Tree

section Insert
variable {σ : Type} (A : Allocator σ)

def mlfsExtTryToMergeUp (space : σ) (frames : List (Frame Extent)) (es : List Extent) : Option (Change σ) :=
  match frames with
  | [⟨[],here,[]⟩] => if es.length ≤ spaceRoot then some ⟨A.free space here.blk,⟨0,.leaf es⟩⟩ else none
  | _ => none

def finish (space : σ) (frames : List (Frame Extent)) (es : List Extent) (ext near : Nat) (preIo : Bool) : Change σ :=
  if preIo then ⟨space,⟨frames.length,plug (.leaf es) (mlfsExtCorrectIndexes frames es ext)⟩⟩
  else
    let es := mlfsExtTryToMerge es near
    (mlfsExtTryToMergeUp A space frames es).getD
      ⟨space,⟨frames.length,plug (.leaf es) (mlfsExtCorrectIndexes frames es ext)⟩⟩

def prepend (es : List Extent) (j : Nat) (new : Extent) : Option (List Extent × Nat) :=
  match es[j]? with
  | none => none
  | some ex => if mlfsCanExtentsBeMerged new ex then some (es.set j (new.joined ex),j) else none

def mergeInto (p : Path) (new : Extent) : Option (List Extent × Nat) :=
  match p.ext, p.near with
  | some i, some ex =>
    if i + 1 < p.leaf.length ∧ ex.stop < new.eeBlock then prepend p.leaf (i + 1) new
    else
      let j := if 0 < i ∧ new.stop < ex.eeBlock then i - 1 else i
      match p.leaf[j]? with
      | none => none
      | some ex =>
        if mlfsCanExtentsBeMerged ex new then some (p.leaf.set j (ex.joined new),j) else prepend p.leaf j new
  | _, _ => none

def hasSpace (space : σ) (p : Path) (new : Extent) (preIo : Bool) : Option (Change σ) :=
  match p.ext with
  | none => some (finish A space p.frames [new] 0 0 preIo)
  | some i =>
    match p.leaf[i]? with
    | none => none
    | some near =>
      if near.eeBlock < new.eeBlock then
        some (finish A space p.frames (p.leaf.insertIdx (i + 1) new) (i + 1) (i + 1) preIo)
      else if new.eeBlock = near.eeBlock then none
      else some (finish A space p.frames (p.leaf.insertIdx i new) i i preIo)

def hasFreeIndex : List (Frame Extent) → Bool
  | [] => false
  | f::fs => decide (f.entries < ehMax fs) || hasFreeIndex fs

def splitIndexes : List (Frame Extent) → σ → Node Extent → Nat → Nat → Option (σ × List (Frame Extent))
  | [], _, _, _, _ => none
  | f::fs, space, old, border, blk =>
    if f.entries < ehMax fs then
      if border = f.here.key then none
      else if f.here.key < border then some (space,⟨f.left ++ [(f.here,old)],⟨border,blk⟩,f.right⟩::fs)
      else some (space,⟨f.left,⟨border,blk⟩,(f.here,old)::f.right⟩::fs)
    else
      let g := A.alloc space 1
      (splitIndexes fs g.space (.index (f.left ++ [(f.here,old)])) border g.first).map fun r =>
        (r.1,⟨[],⟨border,blk⟩,f.right⟩::r.2)

def mlfsExtSplit (space : σ) (p : Path) (new : Extent) : Option (Change σ) :=
  match p.ext with
  | none => none
  | some i =>
    let border := match p.leaf[i + 1]? with
      | some ex => ex.eeBlock
      | none => new.eeBlock
    let g := A.alloc space 1
    (splitIndexes A p.frames g.space (.leaf (p.leaf.take (i + 1))) border g.first).map fun r =>
      ⟨r.1,⟨p.frames.length,plug (.leaf (p.leaf.drop (i + 1))) r.2⟩⟩

def firstBlock : Node Extent → Nat
  | .leaf (ex::_) => ex.eeBlock
  | .index (c::_) => c.1.key
  | _ => 0

def mlfsExtGrowIndepth (space : σ) (t : Tree) : Change σ :=
  let g := A.alloc space 1
  ⟨g.space,⟨t.depth + 1,.index [(⟨firstBlock t.root,g.first⟩,t.root)]⟩⟩

def mlfsExtCreateNewLeaf (space : σ) (t : Tree) (p : Path) (new : Extent) : Option (Change σ) :=
  if hasFreeIndex p.frames then mlfsExtSplit A space p new
  else
    let grown := mlfsExtGrowIndepth A space t
    match mlfsFindExtent grown.tree new.eeBlock with
    | none => none
    | some q => if q.leaf.length = ehMax q.frames then mlfsExtSplit A grown.space q new else some grown

def nextLeaf (t : Tree) (p : Path) (new : Extent) : Option Path :=
  match p.leaf.getLast? with
  | none => none
  | some last =>
    if last.eeBlock < new.eeBlock ∧ mlfsExtNextLeafBlock p.frames ≠ extMaxBlocks then
      (mlfsFindExtent t (mlfsExtNextLeafBlock p.frames)).filter fun q => decide (q.leaf.length < ehMax q.frames)
    else none

def mlfsExtInsertExtent (space : σ) (t : Tree) (p : Path) (new : Extent) (preIo : Bool) : Option (Change σ) :=
  if new.actualLen = 0 then none
  else
    match if preIo then none else mergeInto p new with
    | some r => some (finish A space p.frames r.1 (p.ext.getD 0) r.2 preIo)
    | none =>
      if p.leaf.length < ehMax p.frames then hasSpace A space p new preIo
      else
        match nextLeaf t p new with
        | some q => hasSpace A space q new preIo
        | none => do
          let c ← mlfsExtCreateNewLeaf A space t p new
          let q ← mlfsFindExtent c.tree new.eeBlock
          hasSpace A c.space q new preIo

def splitParts (ex : Extent) (split : Nat) (mark1 mark2 : Bool) : Extent × Extent :=
  let ex1 := { ex with eeLen := split - ex.eeBlock }
  let ex2 : Extent := ⟨split,ex.actualLen - (split - ex.eeBlock),ex.eeStart + (split - ex.eeBlock)⟩
  (if mark1 then ex1.markUnwritten else ex1,if mark2 then ex2.markUnwritten else ex2)

def mlfsSplitExtentAt (space : σ) (p : Path) (split : Nat) (mark1 mark2 preIo : Bool) : Option (Change σ) :=
  match p.ext, p.near with
  | some i, some ex =>
    if split < ex.eeBlock ∨ ex.stop ≤ split then none
    else if split = ex.eeBlock then
      let es := p.leaf.set i (if mark2 then ex.markUnwritten else ex.markInitialized)
      if preIo then some ⟨space,⟨p.frames.length,plug (.leaf es) p.frames⟩⟩
      else
        let es := mlfsExtTryToMerge es i
        some ((mlfsExtTryToMergeUp A space p.frames es).getD ⟨space,⟨p.frames.length,plug (.leaf es) p.frames⟩⟩)
    else
      let parts := splitParts ex split mark1 mark2
      let p := { p with leaf := p.leaf.set i parts.1 }
      mlfsExtInsertExtent A space p.tree p parts.2 preIo
  | _, _ => none

def mlfsForceSplitExtentAt (space : σ) (p : Path) (lblk : Nat) : Option (Change σ) :=
  let unwritten := (p.near.map Extent.isUnwritten).getD false
  mlfsSplitExtentAt A space p lblk unwritten unwritten true

structure Got (σ : Type) where
  space : σ
  tree : Tree
  pblk : Nat
  len : Nat

-- The length of the hole around an unmapped block; its two `BUG_ON` are `none`.
def mlfsExtDetermineHole (p : Path) (lblk : Nat) : Option Nat :=
  match p.near with
  | none => some extMaxBlocks
  | some ex =>
    if lblk < ex.eeBlock then some (ex.eeBlock - lblk)
    else if ex.stop ≤ lblk ∧ mlfsExtNextAllocatedBlock p ≠ ex.stop then some (mlfsExtNextAllocatedBlock p - ex.stop)
    else none

/- `len` of the result is the return value. `mlfs_ext_convert_to_initialized` is asked for the blocks up to
the end of the extent, which is the first of its three cases. -/
def mlfsExtGetBlocks (space : σ) (t : Tree) (lblk len : Nat) (create : Bool) : Option (Got σ) :=
  match mlfsFindExtent t lblk with
  | none => none
  | some p =>
    match p.near.filter fun ex => decide (ex.eeBlock ≤ lblk ∧ lblk < ex.stop) with
    | some ex =>
      let newblock := lblk - ex.eeBlock + ex.eeStart
      let allocated := min (ex.stop - lblk) len
      if ex.isUnwritten then
        if create then
          (mlfsSplitExtentAt A space p lblk true false false).map fun c => ⟨c.space,c.tree,newblock,allocated⟩
        else some ⟨space,t,0,allocated⟩
      else some ⟨space,t,newblock,allocated⟩
    | none =>
      if p.ext = none ∧ t.depth ≠ 0 then none
      else if create then
        let next := mlfsExtNextAllocatedBlock p
        if next ≤ lblk then none
        else
          let g := A.alloc space (min (next - lblk) len)
          let newex : Extent := ⟨lblk,g.count % 65536,g.first⟩
          (mlfsExtInsertExtent A g.space t p newex false).map fun c =>
            ⟨c.space,c.tree,if newex.isUnwritten then 0 else newex.eeStart,g.count⟩
      else (mlfsExtDetermineHole p lblk).map fun _ => ⟨space,t,0,0⟩

end Insert

/- A level of the walk leaves its node, unless it was emptied and freed, the key for the links above, and
the blocks freed. -/
structure Swept where
  node : Option (Node Extent)
  key : Option Nat
  freed : List Nat

section Remove
variable (start last : Nat)

def rmExtents : List Extent → List Extent → Option (List Extent × List Nat × Bool)
  | [], right => some (right,[],false)
  | ex::left, right =>
    if ex.stop ≤ start then some (left.reverse ++ ex::right,[],false)
    else if last < ex.eeBlock then rmExtents left (ex::right)
    else if last < ex.stop - 1 then none
    else
      let num := max ex.eeBlock start - ex.eeBlock
      let rest := { ex with eeLen := num }
      let kept := if num = 0 then [] else [if ex.isUnwritten then rest.markUnwritten else rest]
      (rmExtents left (kept ++ right)).map fun r =>
        (r.1,List.range' (ex.eeStart + num) (ex.actualLen - num) ++ r.2.1,r.2.2 || left.isEmpty)

def mlfsExtRmLeaf (es : List Extent) : Option Swept :=
  (rmExtents start last es.reverse []).map fun r =>
    ⟨if r.1.isEmpty then none else some (.leaf r.1),if r.2.2 then r.1.head?.map Extent.eeBlock else none,r.2.1⟩

def nextKey (right : List (Link × Node Extent)) (stale : Nat) : Nat := (right.head?.map (·.1.key)).getD stale

def indexNode (cs : List (Link × Node Extent)) : Option (Node Extent) := if cs.isEmpty then none else some (.index cs)

def rmIndexes (rm : Node Extent → Option Swept) :
    List (Link × Node Extent) → List (Link × Node Extent) → Option (List (Link × Node Extent) × Option Nat × List Nat)
  | [], right => some (right,none,[])
  | c::left, right => do
    let w ← rm c.2
    match w.node with
    | some n =>
      some (left.reverse ++ ({ c.1 with key := w.key.getD c.1.key },n)::right,
        if left.isEmpty then w.key else none,w.freed)
    | none =>
      let r ← rmIndexes rm left right
      some (r.1,if left.isEmpty then some (nextKey right c.1.key) else r.2.1,w.freed ++ c.1.blk::r.2.2)

def kept (w : Swept) (link : Link) : List (Link × Node Extent) :=
  match w.node with
  | none => []
  | some n => [({ link with key := w.key.getD link.key },n)]

def rmNode : Nat → Node Extent → Option Swept
  | 0, .leaf es => mlfsExtRmLeaf start last es
  | h + 1, .index cs =>
    (rmIndexes (rmNode h) cs.reverse []).map fun r => ⟨indexNode r.1,r.2.1,r.2.2⟩
  | _, _ => none

def rmPath : Nat → Swept → List (Frame Extent) → Option Swept
  | _, w, [] => some w
  | h, w, f::fs =>
    let here := kept w f.here
    let freed := w.freed ++ if w.node.isNone then [f.here.blk] else []
    let key := if w.node.isNone then some (nextKey f.right f.here.key) else w.key
    let pBlock := if fs.isEmpty then f.here.blk else f.entries + 1
    if f.left.isEmpty then rmPath (h + 1) ⟨indexNode (here ++ f.right),key,freed⟩ fs
    else if f.left.length + here.length + f.right.length = pBlock then
      rmPath (h + 1) ⟨indexNode (f.left ++ here ++ f.right),none,freed⟩ fs
    else
      (rmIndexes (rmNode start last h) f.left.reverse (here ++ f.right)).bind fun r =>
        rmPath (h + 1) ⟨indexNode r.1,r.2.1,freed ++ r.2.2⟩ fs

variable {σ : Type} (A : Allocator σ)

structure Removed (σ : Type) where
  space : σ
  tree : Tree
  freed : List Nat

def clear (space : σ) (p : Path) : Option (Removed σ) := do
  let w ← mlfsExtRmLeaf start last p.leaf
  let w ← rmPath start last 0 w p.frames
  some ⟨w.freed.foldl A.free space,
    match w.node with
    | none => emptyTree
    | some root => ⟨p.frames.length,root⟩,w.freed⟩

/- The path is uninitialised when `end` is `EXT_MAX_BLOCKS - 1` or more. After a split it leads to the second
part of the extent, unless that went to the next leaf. -/
def mlfsExtRemoveSpace (space : σ) (t : Tree) : Option (Removed σ) :=
  if extMaxBlocks - 1 ≤ last then none
  else
    match mlfsFindExtent t last with
    | none => none
    | some p =>
      match p.near with
      | none => if t.depth = 0 then some ⟨space,t,[]⟩ else none
      | some ex =>
        if ex.stop = 0 then some ⟨space,t,[]⟩
        else if ex.eeBlock ≤ last ∧ last < ex.stop - 1 then do
          let c ← mlfsForceSplitExtentAt A space p (last + 1)
          let parts := splitParts ex (last + 1) ex.isUnwritten ex.isUnwritten
          let q := { p with leaf := p.leaf.set (p.ext.getD 0) parts.1 }
          let there := if p.leaf.length < ehMax p.frames then none else nextLeaf q.tree q parts.2
          let p ← mlfsFindExtent c.tree (if there.isSome then last else last + 1)
          clear start last A c.space p
        else clear start last A space p

end Remove

end LineFS.Extents
