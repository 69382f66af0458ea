import LineFS.Config
import LineFS.Bitmap
import LineFS.Balloc

/-! The block bitmap of `io/balloc.c` over a restart: the loops that set and clear its
bits, the dirty flags of its blocks, `store_all_bitmap`, which writes the dirty blocks,
and `balloc_init`, which scans the stored bitmap into free lists. -/
namespace LineFS.BlockBitmap
open Base Bitmap Balloc

def blockBits : Nat := gBlockSizeBytes * 8

def bitmapCount (nrBits : Nat) : Nat :=
  let bitmapsz := nrBits / 8 + if nrBits % 8 = 0 then 0 else 1
  bitmapsz / gBlockSizeBytes + if bitmapsz % gBlockSizeBytes = 0 then 0 else 1

structure Blocks where
  bitmap : Words
  dirty : Nat → Bool

def bitmapBitsSetRange (b : Blocks) (bit length : Nat) : Blocks :=
  ⟨bitmapSet b.bitmap bit length,
   fun k => b.dirty k || decide (bit / blockBits ≤ k ∧ k ≤ (bit + length) / blockBits)⟩

def clearBit (m : Words) (i : Nat) : Words := store m (i / 64) (m (i / 64) &&& ~~~(1#64 <<< (i % 64)))
def zeroByte (m : Words) (byte : Nat) : Words := store m (byte / 8) (m (byte / 8) &&& ~~~(255#64 <<< (8 * (byte % 8))))

def zeroBytes (m : Words) (byte : Nat) : Nat → Words
  | 0 => m
  | width+1 => zeroByte (zeroBytes m byte width) (byte + width)

def bitsClr (b : Blocks) (base bit : Nat) : Blocks :=
  let bitmapBlock := base / gBlockSizeBytes + bit / blockBits
  ⟨clearBit b.bitmap (8 * base + bit),fun k => b.dirty k || decide (k = bitmapBlock)⟩

def freeHead : Nat → Blocks → Nat → Blocks × Nat × Nat
  | 0,b,i => (b,i,0)
  | bcnt+1,b,i => if i % 8 = 0 then (b,i,bcnt + 1) else freeHead bcnt (bitsClr b 0 i) (i + 1)

def zeroLoop (width : Nat) : Nat → Words → Nat → Nat → Words × Nat × Nat
  | 0,m,byte,bcnt => (m,byte,bcnt)
  | fuel+1,m,byte,bcnt =>
    if 8 * width ≤ bcnt then zeroLoop width fuel (zeroBytes m byte width) (byte + width) (bcnt - 8 * width)
    else (m,byte,bcnt)

def freeTail (b : Blocks) (byte : Nat) : Nat → Blocks
  | 0 => b
  | i+1 => bitsClr (freeTail b byte i) byte i

/- The whole bytes are cleared four, two and one at a time; these stores leave the dirty
flags alone. -/
def bitmapBitsFree (b : Blocks) (bit bcnt : Nat) : Blocks :=
  let head := freeHead bcnt b bit
  let words := zeroLoop 4 head.2.2 head.1.bitmap (head.2.1 / 8) head.2.2
  let halves := zeroLoop 2 words.2.2 words.1 words.2.1 words.2.2
  let bytes := zeroLoop 1 halves.2.2 halves.1 halves.2.1 halves.2.2
  freeTail { head.1 with bitmap := bytes.1 } bytes.2.1 bytes.2.2

def storeAllBitmap (nrBits : Nat) (b : Blocks) (disk : Words) : Blocks × Words :=
  let written (k : Nat) := decide (k < bitmapCount nrBits) && b.dirty k
  ({ b with dirty := fun k => b.dirty k && !written k },
   fun w => if written (64 * w / blockBits) then b.bitmap w else disk w)

section Clear
variable (m : Words)

theorem iteEmpty {low j : Nat} {p q : Bool} : (if low ≤ j ∧ j < low then p else q) = q := if_neg (by omega)

theorem clearBitBit (i j : Nat) : bit (clearBit m i) j = if j = i then false else bit m j := by
  by_cases word : j / 64 = i / 64
  · simp only [bit,clearBit,store,word,if_true,BitVec.getLsbD_and,BitVec.getLsbD_not,BitVec.getLsbD_shiftLeft,BitVec.getLsbD_one]
    have small := Nat.mod_lt j (show 0 < 64 by decide)
    by_cases same : j = i
    · subst same; simp [small]
    · have apart : j % 64 - i % 64 ≠ 0 ∨ j % 64 < i % 64 := by omega
      rcases apart with above | under
      · simp [small,same,above]
      · simp [small,same,under]
  · have other : j ≠ i := fun same => word (by rw [same])
    simp [bit,clearBit,store,word,other]

theorem zeroByteBit (byte j : Nat) : bit (zeroByte m byte) j = if j / 8 = byte then false else bit m j := by
  have ones (n : Nat) (small : n < 64) : (255#64).getLsbD n = decide (n < 8) := by revert n; decide
  by_cases word : j / 64 = byte / 8
  · have small := Nat.mod_lt j (show 0 < 64 by decide)
    simp only [bit,zeroByte,store,word,if_true,BitVec.getLsbD_and,BitVec.getLsbD_not,BitVec.getLsbD_shiftLeft,
      ones _ (show j % 64 - 8 * (byte % 8) < 64 by omega)]
    by_cases same : j / 8 = byte
    · have low : ¬j % 64 < 8 * (byte % 8) := by omega
      have high : j % 64 - 8 * (byte % 8) < 8 := by omega
      simp [small,same,low,high]
    · have apart : j % 64 < 8 * (byte % 8) ∨ ¬j % 64 - 8 * (byte % 8) < 8 := by omega
      rcases apart with under | above
      · simp [small,same,under]
      · simp [small,same,above]
  · have other : j / 8 ≠ byte := by omega
    simp [bit,zeroByte,store,word,other]

theorem zeroBytesBit (byte width j : Nat) :
    bit (zeroBytes m byte width) j = if byte ≤ j / 8 ∧ j / 8 < byte + width then false else bit m j := by
  induction width with
  | zero => rw [zeroBytes,if_neg (by omega)]
  | succ width ih =>
    rw [zeroBytes,zeroByteBit,ih]
    split_ifs <;> first | rfl | omega

theorem zeroLoopBit {width : Nat} (positive : 0 < width) (fuel : Nat) (byte bcnt : Nat) (enough : bcnt ≤ fuel) :
    let r := zeroLoop width fuel m byte bcnt
    byte ≤ r.2.1 ∧ r.2.2 < 8 * width ∧ 8 * r.2.1 + r.2.2 = 8 * byte + bcnt ∧
    ∀ j, bit r.1 j = if byte ≤ j / 8 ∧ j / 8 < r.2.1 then false else bit m j := by
  induction fuel generalizing m byte bcnt with
  | zero =>
    refine ⟨Nat.le_refl _,?_,rfl,fun j => ?_⟩
    · simp only [zeroLoop]; omega
    · exact iteEmpty.symm
  | succ fuel ih =>
    simp only [zeroLoop]
    split
    · obtain ⟨low,rest,total,bits⟩ := ih (zeroBytes m byte width) (byte + width) (bcnt - 8 * width) (by omega)
      refine ⟨by omega,rest,by omega,fun j => ?_⟩
      rw [bits,zeroBytesBit]
      split_ifs <;> first | rfl | omega
    · refine ⟨Nat.le_refl _,by simp only; omega,rfl,fun j => ?_⟩
      exact iteEmpty.symm

end Clear

section Free
variable (b : Blocks)

theorem bitsClrBit (base i j : Nat) : bit (bitsClr b base i).bitmap j = if j = 8 * base + i then false else bit b.bitmap j :=
  clearBitBit _ _ _

theorem bitsClrDirty (base i k : Nat) :
    (bitsClr b base i).dirty k = true ↔ b.dirty k = true ∨ k = base / gBlockSizeBytes + i / blockBits := by
  simp only [bitsClr,Bool.or_eq_true,decide_eq_true_eq]

theorem freeHeadSpec (bcnt i : Nat) : let r := freeHead bcnt b i
    i ≤ r.2.1 ∧ r.2.1 + r.2.2 = i + bcnt ∧ (r.2.2 = 0 ∨ r.2.1 % 8 = 0) ∧ (i < r.2.1 → r.2.1 ≤ 8 * (i / 8) + 8 ∧ i % 8 ≠ 0) ∧
    (∀ j, bit r.1.bitmap j = if i ≤ j ∧ j < r.2.1 then false else bit b.bitmap j) ∧
    ∀ k, r.1.dirty k = true ↔ b.dirty k = true ∨ ∃ j, i ≤ j ∧ j < r.2.1 ∧ j / blockBits = k := by
  induction bcnt generalizing b i with
  | zero =>
    refine ⟨Nat.le_refl _,rfl,.inl rfl,fun less => absurd less (Nat.lt_irrefl _),fun j => ?_,fun k => ?_⟩
    · exact iteEmpty.symm
    · exact ⟨.inl,fun or => or.resolve_right fun ⟨j,from_,upto,_⟩ => absurd upto (Nat.not_lt.mpr from_)⟩
  | succ bcnt ih =>
    simp only [freeHead]
    split
    · rename_i whole
      refine ⟨Nat.le_refl _,rfl,.inr whole,fun less => absurd less (Nat.lt_irrefl _),fun j => ?_,fun k => ?_⟩
      · exact iteEmpty.symm
      · exact ⟨.inl,fun or => or.resolve_right fun ⟨j,from_,upto,_⟩ => absurd upto (Nat.not_lt.mpr from_)⟩
    · obtain ⟨low,total,stop,near,bits,marked⟩ := ih (bitsClr b 0 i) (i + 1)
      refine ⟨by omega,by omega,stop,fun _ => ⟨by omega,by assumption⟩,fun j => ?_,fun k => ?_⟩
      · rw [bits,bitsClrBit]
        split_ifs <;> first | rfl | omega
      · rw [marked,bitsClrDirty,Nat.zero_div,Nat.zero_add,or_assoc]
        refine or_congr_right ⟨?_,?_⟩
        · rintro (rfl | ⟨j,from_,upto,block⟩)
          · exact ⟨i,Nat.le_refl _,by omega,rfl⟩
          · exact ⟨j,by omega,upto,block⟩
        · rintro ⟨j,from_,upto,block⟩
          by_cases first : j = i
          · exact .inl (by rw [← block,first])
          · exact .inr ⟨j,by omega,upto,block⟩

theorem freeTailSpec (byte bcnt : Nat) :
    (∀ j, bit (freeTail b byte bcnt).bitmap j = if 8 * byte ≤ j ∧ j < 8 * byte + bcnt then false else bit b.bitmap j) ∧
    ∀ k, (freeTail b byte bcnt).dirty k = true ↔
      b.dirty k = true ∨ ∃ i < bcnt, byte / gBlockSizeBytes + i / blockBits = k := by
  induction bcnt with
  | zero =>
    refine ⟨fun j => ?_,fun k => by simp [freeTail]⟩
    rw [freeTail,if_neg (by omega)]
  | succ bcnt ih =>
    refine ⟨fun j => ?_,fun k => ?_⟩
    · rw [freeTail,bitsClrBit,ih.1]
      split_ifs <;> first | rfl | omega
    · rw [freeTail,bitsClrDirty,ih.2,or_assoc]
      refine or_congr_right ⟨?_,?_⟩
      · rintro (⟨i,small,block⟩ | rfl)
        · exact ⟨i,by omega,block⟩
        · exact ⟨bcnt,by omega,rfl⟩
      · rintro ⟨i,small,block⟩
        by_cases last : i = bcnt
        · exact .inr (by rw [← block,last])
        · exact .inl ⟨i,by omega,block⟩

end Free

def WholeByte (bit bcnt i : Nat) : Prop := bit ≤ 8 * (i / 8) ∧ 8 * (i / 8) + 8 ≤ bit + bcnt
deriving Decidable

theorem bitmapBitsFreeSpec (b : Blocks) (bit bcnt : Nat) :
    (∀ j, Bitmap.bit (bitmapBitsFree b bit bcnt).bitmap j = if bit ≤ j ∧ j < bit + bcnt then false else Bitmap.bit b.bitmap j) ∧
    ∀ k, (bitmapBitsFree b bit bcnt).dirty k = true ↔
      b.dirty k = true ∨ ∃ j, bit ≤ j ∧ j < bit + bcnt ∧ ¬WholeByte bit bcnt j ∧ j / blockBits = k := by
  obtain ⟨low,total,stop,near,bits,marked⟩ := freeHeadSpec b bcnt bit
  simp only [bitmapBitsFree]
  generalize freeHead bcnt b bit = head at *
  obtain ⟨low4,_,total4,bits4⟩ := zeroLoopBit head.1.bitmap (show 0 < 4 by decide) head.2.2 (head.2.1 / 8) head.2.2 (Nat.le_refl _)
  generalize zeroLoop 4 head.2.2 head.1.bitmap (head.2.1 / 8) head.2.2 = words at *
  obtain ⟨low2,_,total2,bits2⟩ := zeroLoopBit words.1 (show 0 < 2 by decide) words.2.2 words.2.1 words.2.2 (Nat.le_refl _)
  generalize zeroLoop 2 words.2.2 words.1 words.2.1 words.2.2 = halves at *
  obtain ⟨low1,rest,total1,bits1⟩ := zeroLoopBit halves.1 (show 0 < 1 by decide) halves.2.2 halves.2.1 halves.2.2 (Nat.le_refl _)
  generalize zeroLoop 1 halves.2.2 halves.1 halves.2.1 halves.2.2 = bytes at *
  obtain ⟨bitsTail,markedTail⟩ := freeTailSpec { head.1 with bitmap := bytes.1 } bytes.2.1 bytes.2.2
  refine ⟨fun j => ?_,fun k => ?_⟩
  · rw [bitsTail,bits1,bits2,bits4,bits]
    rcases stop with none | whole
    · split_ifs <;> first | rfl | omega
    · split_ifs <;> first | rfl | omega
  · rw [markedTail,marked,or_assoc]
    refine or_congr_right ⟨?_,?_⟩
    · rintro (⟨j,from_,upto,block⟩ | ⟨i,small,block⟩)
      · refine ⟨j,from_,by omega,?_,block⟩
        have := near (by omega)
        simp only [WholeByte]
        omega
      · refine ⟨8 * bytes.2.1 + i,by omega,by omega,?_,?_⟩
        · simp only [WholeByte]
          omega
        · simp only [blockBits,gBlockSizeBytes] at block ⊢
          omega
    · rintro ⟨j,from_,upto,single,block⟩
      by_cases first : j < head.2.1
      · exact .inl ⟨j,from_,first,block⟩
      · refine .inr ⟨j - 8 * bytes.2.1,?_,?_⟩
        · simp only [WholeByte] at single
          omega
        · simp only [WholeByte] at single
          simp only [blockBits,gBlockSizeBytes] at block ⊢
          omega

theorem storeAllBitmapBit (nrBits : Nat) (b : Blocks) (disk : Words) (i : Nat) :
    bit (storeAllBitmap nrBits b disk).2 i =
      if i / blockBits < bitmapCount nrBits ∧ b.dirty (i / blockBits) = true then bit b.bitmap i else bit disk i := by
  have block : 64 * (i / 64) / blockBits = i / blockBits := by
    simp only [blockBits,gBlockSizeBytes]; omega
  simp only [bit,storeAllBitmap,block,Bool.and_eq_true,decide_eq_true_eq]
  split_ifs <;> rfl

def mlfsInsertBlocknodeMap (l : FreeList) (low high : Nat) : FreeList :=
  let prevs := l.nodes.takeWhile fun r => r.high < low
  let nexts := l.nodes.dropWhile fun r => r.high < low
  if nexts.any fun r => r.low ≤ low ∧ low ≤ r.high then l
  else { l with nodes := prevs ++ ⟨low,high⟩::nexts
                firstNode := if l.firstNode = none then some prevs.length else inserted prevs.length l.firstNode
                numFreeBlocks := l.numFreeBlocks + (high - low + 1) }

def mlfsGetFreeList (s : FreeLists) : Option Nat → FreeList
  | some id => s.lists[id]?.getD s.shared
  | none => s.shared

def putFreeList (s : FreeLists) (l : FreeList) : Option Nat → FreeLists
  | some id => { s with lists := s.lists.set id l }
  | none => { s with shared := l }

def nextPartition (sb : SuperBlock) (id : Option Nat) : Option Nat :=
  if id = some (sb.nPartition - 1) then none else id.map (· + 1)

def buildLoop (sb : SuperBlock) (m : Words) (bsize : Nat) : Nat → FreeLists → Option Nat → Nat → Nat → FreeLists
  | 0,s,_,_,_ => s
  | fuel+1,s,id,start,last =>
    let enter (s : FreeLists) :=
      let id := nextPartition sb id
      let l := mlfsGetFreeList s id
      buildLoop sb m bsize fuel s id l.blockStart (l.blockEnd + 1)
    let low := findNextZeroBit m last start
    if low = bsize then s
    else if low = last then enter s
    else
      let next := findNextBit m last low
      let s := putFreeList s (mlfsInsertBlocknodeMap (mlfsGetFreeList s id) low (next - 1)) id
      if next = bsize then s
      else if next = last then enter s
      else buildLoop sb m bsize fuel s id next last

def mlfsBuildBlocknodeMap (sb : SuperBlock) (m : Words) (bsize : Nat) (s : FreeLists) : FreeLists :=
  let l := mlfsGetFreeList s (some 0)
  buildLoop sb m bsize (bsize + 1) s (some 0) l.blockStart (l.blockEnd + 1)

/- `balloc_init` without initialisation: the bitmap is read from the device, counted and
scanned into empty free lists. -/
structure Loaded where
  free : FreeLists
  blkBitmap : Blocks
  usedBlocks : Nat

def ballocInit (sb : SuperBlock) (disk : Words) : Loaded :=
  ⟨mlfsBuildBlocknodeMap sb disk sb.numBlocks (mlfsInitBlockmap sb false),⟨disk,fun _ => false⟩,bitmapWeight disk sb.numBlocks⟩

theorem insertAppends {l : FreeList} (low high : Nat) (below : ∀ r ∈ l.nodes, r.high < low) :
    (mlfsInsertBlocknodeMap l low high).nodes = l.nodes ++ [⟨low,high⟩] := by
  have front : l.nodes.takeWhile (fun r => decide (r.high < low)) = l.nodes :=
    List.takeWhile_eq_self_iff.mpr fun r mem => decide_eq_true (below r mem)
  have back : l.nodes.dropWhile (fun r => decide (r.high < low)) = [] :=
    List.dropWhile_eq_nil_iff.mpr fun r mem => decide_eq_true (below r mem)
  simp [mlfsInsertBlocknodeMap,front,back]

theorem buildLoopCover (sb : SuperBlock) (m : Words) (bsize fuel : Nat) (l shared : FreeList) (start : Nat)
    (enough : bsize < start + fuel) (below : ∀ r ∈ l.nodes, r.high < start) (b : Nat) :
    cover (freeNodes (buildLoop sb m bsize fuel ⟨[l],shared⟩ (some 0) start bsize)) b =
      cover (l.nodes ++ shared.nodes) b + if (start ≤ b ∧ b < bsize) ∧ bit m b = false then 1 else 0 := by
  induction fuel generalizing l start with
  | zero =>
    rw [buildLoop,if_neg (by omega)]
    simp [freeNodes,allLists]
  | succ fuel ih =>
    obtain ⟨lowZero,highZero,skippedZero,foundZero⟩ := findNextZeroBitSpec m bsize start
    simp only [buildLoop]
    generalize findNextZeroBit m bsize start = low at *
    by_cases stop : low = bsize
    · rw [if_pos stop,if_neg]
      · simp [freeNodes,allLists]
      · rintro ⟨inside,zero⟩
        have := skippedZero b inside.1 (by omega)
        simp [zero] at this
    · obtain ⟨lowBit,highBit,skippedBit,foundBit⟩ := findNextBitSpec m bsize low
      rw [if_neg stop,if_neg stop]
      generalize findNextBit m bsize low = next at *
      have free : bit m low = false := by simpa using foundZero (by omega)
      have more : low < next := by
        by_contra same
        have := foundBit (by omega)
        rw [show next = low by omega,free] at this
        cases this
      have nodes := insertAppends (l := l) low (next - 1) (fun r mem => by have := below r mem; omega)
      have run : (if (start ≤ b ∧ b < bsize) ∧ bit m b = false then 1 else 0) =
          (if low ≤ b ∧ b ≤ next - 1 then 1 else 0) + if (next ≤ b ∧ b < bsize) ∧ bit m b = false then 1 else 0 := by
        by_cases before : b < low
        · rw [if_neg,if_neg (by omega),if_neg (by omega)]
          rintro ⟨inside,zero⟩
          have := skippedZero b inside.1 before
          simp [zero] at this
        · by_cases within : b < next
          · have zero := skippedBit b (by omega) within
            rw [if_pos ⟨by omega,zero⟩,if_pos (by omega),if_neg (by omega)]
          · rw [if_neg (show ¬(low ≤ b ∧ b ≤ next - 1) by omega),Nat.zero_add]
            exact if_congr (and_congr_left' (by omega)) rfl rfl
      simp only [mlfsGetFreeList,putFreeList,List.getElem?_cons_zero,Option.getD_some,List.set_cons_zero]
      split
      · rename_i stop
        rw [run,if_neg (show ¬((next ≤ b ∧ b < bsize) ∧ bit m b = false) by omega)]
        simp [freeNodes,allLists,nodes]
        omega
      · rename_i goes
        rw [ih _ next (by omega),run,nodes]
        · simp; omega
        · rw [nodes]
          intro r mem
          rcases memSnoc mem with old | rfl
          · have := below r old
            omega
          · simp only
            omega

def superBlock (numBlocks reserved : Nat) : SuperBlock := ⟨numBlocks,1,reserved⟩

structure State where
  alloc : Balloc.State
  blkBitmap : Blocks
  disk : Words
  usedBlocks : Nat

def init (numBlocks reserved : Nat) : State :=
  let bitmap := bitmapSet empty 0 reserved
  ⟨Balloc.init (superBlock numBlocks reserved),⟨bitmap,fun _ => false⟩,bitmap,bitmapWeight bitmap numBlocks⟩

inductive Action where
  | alloc (count : Nat) (atype : AllocType)
  | free (i block count : Nat) (below : Bool)
  | store
  deriving DecidableEq, Repr

/- Without space the request panics. `mlfs_free_blocks` asserts that the free lists take the range. -/
def step (numBlocks reserved : Nat) (s : State) : Action → Option State
  | .alloc count atype =>
    if atype = .tree → count = 1 then
      match mlfsNewBlocks s.alloc.free count atype with
      | (free,.ok (blockp,n)) =>
        some { s with alloc := ⟨free,s.alloc.out ++ [⟨blockp,blockp + n - 1⟩]⟩
                      blkBitmap := bitmapBitsSetRange s.blkBitmap blockp n
                      usedBlocks := s.usedBlocks + n }
      | (_,.error _) => none
    else none
  | .free i block count below =>
    s.alloc.out[i]?.bind fun r =>
      if 0 < count ∧ r.low ≤ block ∧ block + count ≤ r.high + 1 then
        match mlfsFreeBlocksNode (superBlock numBlocks reserved) s.alloc.free below block count with
        | .ok free =>
          if count < s.usedBlocks then
            some { s with alloc := ⟨free,s.alloc.out.eraseIdx i ++ remains r block count⟩
                          blkBitmap := bitmapBitsFree s.blkBitmap block count
                          usedBlocks := s.usedBlocks - count }
          else none
        | .error _ => none
      else none
  | .store =>
    let stored := storeAllBitmap numBlocks s.blkBitmap s.disk
    some { s with blkBitmap := stored.1, disk := stored.2 }

def Free (s : FreeLists) (b : Nat) : Prop := ∃ r ∈ freeNodes s, r.Has b
deriving Decidable

structure Survives (numBlocks reserved : Nat) (s : State) : Prop where
  stored : ∀ i < bitmapCount numBlocks * blockBits, bit s.disk i = bit s.blkBitmap.bitmap i
  rebuilt : ∀ b, Free (ballocInit (superBlock numBlocks reserved) s.disk).free b ↔ Free s.alloc.free b

/- Whole bytes are cleared only in bitmap blocks that are dirty anyway. -/
def Marked (s : State) : Action → Prop
  | .free _ block count _ => ∀ i < block + count, block ≤ i →
      s.blkBitmap.dirty (i / blockBits) = true ∨
      ∃ j < block + count, block ≤ j ∧ ¬WholeByte block count j ∧ j / blockBits = i / blockBits
  | _ => True
instance (s a) : Decidable (Marked s a) := by unfold Marked; split <;> infer_instance

structure Tracked (numBlocks reserved : Nat) (s : State) : Prop where
  conserving : Conserving (superBlock numBlocks reserved) s.alloc
  used : ∀ i, bit s.blkBitmap.bitmap i = decide (i < reserved ∨ 0 < cover s.alloc.out i)
  clean : ∀ i, s.blkBitmap.dirty (i / blockBits) = false → bit s.disk i = bit s.blkBitmap.bitmap i

section Steps
variable {numBlocks reserved : Nat} {s t : State}

@[simp] theorem areaEnd : blockEnd (superBlock numBlocks reserved) = numBlocks := by simp [blockEnd,superBlock,Nat.mod_one]

theorem initTracked (room : reserved < numBlocks) : Tracked numBlocks reserved (init numBlocks reserved) := by
  refine ⟨initConserving (by simpa [perListBlocks,superBlock] using room),fun i => ?_,fun i _ => rfl⟩
  simp [init,bitmapSetBit,Balloc.init]

theorem coverOnce (h : Tracked numBlocks reserved s) (b : Nat) :
    cover (freeNodes s.alloc.free) b + cover s.alloc.out b = if reserved ≤ b ∧ b < numBlocks then 1 else 0 := by
  have once := h.conserving.once b
  rwa [areaEnd] at once

theorem allocTracked {count : Nat} {atype : AllocType} (positive : 0 < reserved) (h : Tracked numBlocks reserved s)
    (stepped : step numBlocks reserved s (.alloc count atype) = some t) : Tracked numBlocks reserved t := by
  simp only [step,Option.ite_none_right_eq_some] at stepped
  obtain ⟨single,answered⟩ := stepped
  have zero := coverOnce h 0
  rw [if_neg (by omega)] at zero
  rcases newBlocksSound h.conserving.sound single (by omega) with ⟨e,failed⟩ | ⟨free,blockp,n,done,some,_⟩
  · rw [failed] at answered
    cases answered
  · rw [done] at answered
    cases answered
    refine ⟨stepConserving positive h.conserving (a := .newBlocks count atype) ?_,fun i => ?_,fun i clean => ?_⟩
    · simp only [Balloc.step,if_pos single,done]
    · simp only [bitmapBitsSetRange,bitmapSetBit,h.used,coverAppend,coverCons,coverNil]
      rw [← Bool.decide_or,decide_eq_decide]
      split_ifs <;> omega
    · simp only [bitmapBitsSetRange,Bool.or_eq_false_iff,decide_eq_false_iff_not,bitmapSetBit] at clean ⊢
      have outside : ¬(blockp ≤ i ∧ i < blockp + n) := by
        rintro ⟨from_,upto⟩
        exact clean.2 ⟨Nat.div_le_div_right from_,Nat.div_le_div_right (Nat.le_of_lt upto)⟩
      simp only [h.clean i clean.1,outside,decide_false,Bool.or_false]

theorem freeTracked {i block count : Nat} {below : Bool} (positive : 0 < reserved) (h : Tracked numBlocks reserved s)
    (marked : Marked s (.free i block count below))
    (stepped : step numBlocks reserved s (.free i block count below) = some t) : Tracked numBlocks reserved t := by
  simp only [step,Option.bind_eq_some_iff,Option.ite_none_right_eq_some] at stepped
  obtain ⟨r,held,range,freed⟩ := stepped
  split at freed
  · rename_i free done
    obtain ⟨_,same⟩ := Option.ite_none_right_eq_some.mp freed
    cases same
    obtain ⟨bits,dirty⟩ := bitmapBitsFreeSpec s.blkBitmap block count
    have conserving := stepConserving positive h.conserving (a := .freeBlocks i block count below)
      (t := ⟨free,s.alloc.out.eraseIdx i ++ remains r block count⟩) (by simp only [Balloc.step,held,Option.bind_some,if_pos range,done])
    refine ⟨conserving,fun j => ?_,fun j clean => ?_⟩
    · have whole := coverErase held j
      have pieces := remainsCover range.1 range.2.1 range.2.2 j
      have once := coverOnce h j
      simp only [bits,h.used,coverAppend,taken] at *
      by_cases inside : block ≤ j ∧ j < block + count
      · rw [if_pos inside] at pieces ⊢
        symm
        rw [decide_eq_false_iff_not]
        split_ifs at once pieces whole <;> omega
      · rw [if_neg inside] at pieces ⊢
        rw [decide_eq_decide]
        omega
    · have same : s.blkBitmap.dirty (j / blockBits) = false ∧ ¬(block ≤ j ∧ j < block + count) := by
        have none := mt (dirty (j / blockBits)).mpr (by simpa using clean)
        rw [not_or] at none
        refine ⟨by simpa using none.1,fun inside => ?_⟩
        rcases marked j inside.2 inside.1 with before | ⟨i,upto,from_,single,block⟩
        · exact none.1 before
        · exact none.2 ⟨i,from_,upto,single,block⟩
      simp only [bits,if_neg same.2]
      exact h.clean j same.1
  · cases freed

theorem storeTracked (h : Tracked numBlocks reserved s) (stepped : step numBlocks reserved s .store = some t) :
    Tracked numBlocks reserved t ∧ ∀ i < bitmapCount numBlocks * blockBits, bit t.disk i = bit t.blkBitmap.bitmap i := by
  cases stepped
  have same (i : Nat) (clean : i / blockBits < bitmapCount numBlocks ∨ s.blkBitmap.dirty (i / blockBits) = false) :
      bit (storeAllBitmap numBlocks s.blkBitmap s.disk).2 i = bit s.blkBitmap.bitmap i := by
    rw [storeAllBitmapBit]
    split
    · rfl
    · rename_i skipped
      have unmarked : s.blkBitmap.dirty (i / blockBits) = false :=
        clean.elim (fun inside => by simpa [inside] using skipped) id
      exact h.clean i unmarked
  refine ⟨⟨h.conserving,h.used,fun i clean => same i ?_⟩,fun i inside => same i (.inl ?_)⟩
  · simp only [storeAllBitmap] at clean
    by_cases inside : i / blockBits < bitmapCount numBlocks
    · exact .inl inside
    · exact .inr (by simpa [inside] using clean)
  · exact (Nat.div_lt_iff_lt_mul (by decide)).mpr inside

theorem blocksInside {b : Nat} (inside : b < numBlocks) : b < bitmapCount numBlocks * blockBits := by
  simp only [bitmapCount,blockBits,gBlockSizeBytes]
  split_ifs <;> omega

theorem rebuiltFree (h : Tracked numBlocks reserved s) (positive : 0 < numBlocks)
    (stored : ∀ i < bitmapCount numBlocks * blockBits, bit s.disk i = bit s.blkBitmap.bitmap i) (b : Nat) :
    Free (ballocInit (superBlock numBlocks reserved) s.disk).free b ↔ Free s.alloc.free b := by
  have start : mlfsInitBlockmap (superBlock numBlocks reserved) false =
      ⟨[⟨0,numBlocks - 1,[],none,0⟩],⟨0,0,[],none,0⟩⟩ := by
    simp [mlfsInitBlockmap,superBlock,perListBlocks,initList,List.range_succ]
    omega
  have scanned := buildLoopCover (superBlock numBlocks reserved) s.disk numBlocks (numBlocks + 1)
    ⟨0,numBlocks - 1,[],none,0⟩ ⟨0,0,[],none,0⟩ 0 (by omega) (by simp) b
  have loaded : (ballocInit (superBlock numBlocks reserved) s.disk).free =
      buildLoop (superBlock numBlocks reserved) s.disk numBlocks (numBlocks + 1)
        ⟨[⟨0,numBlocks - 1,[],none,0⟩],⟨0,0,[],none,0⟩⟩ (some 0) 0 numBlocks := by
    simp only [ballocInit,start,mlfsBuildBlocknodeMap,mlfsGetFreeList,List.getElem?_cons_zero,Option.getD_some,
      show numBlocks - 1 + 1 = numBlocks by omega]
    rfl
  have once := coverOnce h b
  rw [Free,Free,← coverPos,← coverPos,loaded,scanned]
  simp only [List.append_nil,coverNil,Nat.zero_add,Nat.zero_le,true_and]
  by_cases inside : b < numBlocks
  · have used : bit s.disk b = false ↔ ¬(b < reserved ∨ 0 < cover s.alloc.out b) := by
      rw [stored b (blocksInside inside),h.used,decide_eq_false_iff_not]
    by_cases zero : bit s.disk b = false
    · have out := used.mp zero
      rw [if_pos ⟨inside,zero⟩]
      rw [if_pos (by omega)] at once
      omega
    · have held := not_not.mp (mt used.mpr zero)
      rw [if_neg (fun both => zero both.2)]
      split_ifs at once <;> omega
  · rw [if_neg (fun both => inside both.1)]
    rw [if_neg (by omega)] at once
    omega

end Steps

theorem stepTracked {numBlocks reserved : Nat} {s t : State} {a : Action} (positive : 0 < reserved) (h : Tracked numBlocks reserved s)
    (marked : Marked s a) (stepped : step numBlocks reserved s a = some t) : Tracked numBlocks reserved t := by
  cases a with
  | alloc count atype => exact allocTracked positive h stepped
  | free i block count below => exact freeTracked positive h marked stepped
  | store => exact (storeTracked h stepped).1

theorem markedSurvives {numBlocks reserved : Nat} {s t : State} (positive : 0 < reserved) (room : reserved < numBlocks)
    (reached : Reach (step numBlocks reserved) Marked (init numBlocks reserved) s)
    (stored : step numBlocks reserved s .store = some t) : Survives numBlocks reserved t := by
  have h : Tracked numBlocks reserved s := reachInvariant (Tracked numBlocks reserved) (initTracked room)
    (fun _ _ _ before marked stepped => stepTracked positive before marked stepped) reached
  obtain ⟨kept,same⟩ := storeTracked h stored
  exact ⟨same,rebuiltFree kept (by omega) same⟩

theorem markedSurvivesUnaligned : ∃ s t, Reach (step 64 10) Marked (init 64 10) s ∧ step 64 10 s .store = some t ∧
    bit t.disk 16 = false ∧ bit t.disk 24 = true ∧ Survives 64 10 t := by
  obtain ⟨s,reached,after⟩ : ∃ s, Reach (step 64 10) Marked (init 64 10) s ∧
      ((step 64 10 s .store).map fun t => (bit t.disk 16,bit t.disk 24)) = some (false,true) :=
    traceReach [.alloc 30 .data,.store,.free 0 15 9 false] (by decide +kernel)
  obtain ⟨t,stored,seen⟩ := Option.map_eq_some_iff.mp after
  obtain ⟨freed,kept⟩ := Prod.mk.inj seen
  exact ⟨s,t,reached,stored,freed,kept,markedSurvives (by decide) (by decide) reached stored⟩

theorem wholeByteLost : ¬∀ numBlocks reserved s t, 0 < reserved → reserved < numBlocks →
    Reach (step numBlocks reserved) Any (init numBlocks reserved) s → step numBlocks reserved s .store = some t →
    Survives numBlocks reserved t := by
  intro claim
  obtain ⟨s,reached,after⟩ : ∃ s, Reach (step 64 10) Any (init 64 10) s ∧
      ((step 64 10 s .store).map fun t => decide (Free t.alloc.free 16 ∧ ¬Free
      (ballocInit (superBlock 64 10) t.disk).free 16)) = some true :=
    traceAny [.alloc 30 .data,.store,.free 0 16 8 false] (by decide +kernel)
  obtain ⟨t,stored,lost⟩ := Option.map_eq_some_iff.mp after
  obtain ⟨free,gone⟩ := of_decide_eq_true lost
  exact gone (((claim 64 10 s t (by decide) (by decide) reached stored).rebuilt 16).mpr free)

end LineFS.BlockBitmap
