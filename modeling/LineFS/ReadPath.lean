import LineFS.Overlay

/-! The read path of LibFS: `readi` copies the published blocks of a range into the caller's
buffer and then the pieces of the file cache over them, the oldest first. The buffer is
addressed by the file position that a byte is for. -/
namespace LineFS.ReadPath
open Base Bitmap Kernfs Placement Overlay

variable {β : Type}

/- The published file: its size, its extent tree as the map it represents with the lengths
of the extents, and the device. -/
structure Published (β : Type) where
  size : Nat
  ext : Nat → Option Nat
  extentLen : Nat → Nat → Nat
  extent : ∀ b n, 0 < n → 0 < extentLen b n ∧ extentLen b n ≤ n
  disk : Nat → β

def bmap (pub : Published β) (lblk blkCount : Nat) : Option (Nat × Nat) :=
  (pub.ext lblk).map fun pblk => (pblk,pub.extentLen pblk (runLength pub.ext lblk pblk blkCount))

def findIntersection (start1 size1 start2 size2 : Nat) : Option (Nat × Nat) :=
  if start1 + size1 - 1 < start2 ∨ start2 + size2 - 1 < start1 then none
  else some (max start1 start2,min (start1 + size1) (start2 + size2) - max start1 start2)

def doUnalignedRead (s : LibFS β) (pub : Published β) (off ioSize : Nat) : List (Copy β) :=
  let offAligned := off / gBlockSizeBytes * gBlockSizeBytes
  let offInBlock := off - offAligned
  let key := offAligned / gBlockSizeBytes
  let ioListLog := (fcacheFind s key).reverse.filterMap fun fcl =>
    (findIntersection offInBlock ioSize fcl.offset fcl.size).map fun (start,size) =>
      ⟨off + start - offInBlock,size,fun i => s.log (fcl.addr * gBlockSizeBytes + start + i)⟩
  let shared := ((bmap pub key 1).map fun (blockNo,_) =>
    ⟨off,ioSize,fun i => pub.disk (blockNo * gBlockSizeBytes + (off - offAligned) + i)⟩).toList
  shared ++ ioListLog

/- `do_global_search`: the runs of blocks still to read, until one of them starts with a
block that is not mapped. -/
def globalSearch (pub : Published β) (off bitmapSize : Nat) : Nat → Words → List (Copy β)
  | 0,_ => []
  | fuel+1,ioBitmap =>
    if bitmapWeight ioBitmap bitmapSize = 0 then []
    else
      let pos := findFirstBit ioBitmap bitmapSize
      match bmap pub (off / gBlockSizeBytes + pos) (findNextZeroBit ioBitmap bitmapSize pos - pos) with
      | none => []
      | some (blockNo,found) =>
        ⟨off + pos * gBlockSizeBytes,found * gBlockSizeBytes,fun i => pub.disk (blockNo * gBlockSizeBytes + i)⟩::
          globalSearch pub off bitmapSize fuel (bitmapClear ioBitmap pos found)

def totFclSize (s : LibFS β) (key : Nat) : Nat := ((fcacheFind s key).map FcacheLog.size).sum

def ioBits (s : LibFS β) (key : Nat) : Nat → Words → Words
  | 0,m => m
  | i+1,m =>
    let m := ioBits s key i m
    if totFclSize s (key + i) = gBlockSizeBytes then bitmapClear m i 1 else m

def doAlignedRead (s : LibFS β) (pub : Published β) (off ioSize : Nat) : List (Copy β) :=
  let bitmapSize := ioSize / gBlockSizeBytes
  let key := off / gBlockSizeBytes
  let ioListLog := (List.range bitmapSize).flatMap fun i => (fcacheFind s (key + i)).reverse.map (patch s (key + i))
  globalSearch pub off bitmapSize (bitmapSize + 1) (ioBits s key bitmapSize (bitmapSet empty 0 bitmapSize)) ++ ioListLog

structure Parts where
  small : Nat
  prepended : Nat
  aligned : Nat
  appended : Nat
  deriving DecidableEq, Repr

def parts (off ioSize : Nat) : Parts :=
  let offsetEnd := off + ioSize
  let offsetAligned := align off
  if offsetAligned = off ∧ offsetEnd = align offsetEnd then ⟨0,0,ioSize,0⟩
  else if offsetAligned = off ∧ ioSize < gBlockSizeBytes ∨ offsetEnd < offsetAligned then ⟨ioSize,0,0,0⟩
  else
    let prepended := if off < offsetAligned then offsetAligned - off else 0
    let slack := align offsetEnd - offsetEnd
    let appended := if 0 < slack then gBlockSizeBytes - slack else slack
    ⟨0,prepended,ioSize - prepended - appended,appended⟩

def readi (s : LibFS β) (pub : Published β) (buf : Nat → β) (off ioSize : Nat) : Option (Nat × (Nat → β)) :=
  if s.size ≤ off then none
  else
    let ioSize := if s.size < off + ioSize then s.size - off else ioSize
    let p := parts off ioSize
    let part (size : Nat) (copies : List (Copy β)) := if size = 0 then [] else copies
    let copies := part p.small (doUnalignedRead s pub off p.small) ++
      part p.prepended (doUnalignedRead s pub (off + p.small) p.prepended) ++
      part p.aligned (doAlignedRead s pub (off + p.small + p.prepended) p.aligned) ++
      part p.appended (doUnalignedRead s pub (off + p.small + p.prepended + p.aligned) p.appended)
    some (p.small + p.prepended + p.aligned + p.appended,Copy.executeAll copies buf)

def Whole (off n k : Nat) : Prop := off ≤ k * gBlockSizeBytes ∧ (k + 1) * gBlockSizeBytes ≤ off + n
deriving Decidable

def published (pub : Published β) (p : Nat) (b : Nat) : β := pub.disk (b * gBlockSizeBytes + p % gBlockSizeBytes)

section Reads
variable {s : LibFS β} {bound : Nat} {ws : List (Copy β)} {pub : Published β}

variable {a ioSize n off size start : Nat}

theorem intersects (l : FcacheLog) (low : off ≤ a) (high : a < off + ioSize)
    (mem : Nat → β) : (((findIntersection (off % gBlockSizeBytes) ioSize l.offset l.size).map fun (start,size) =>
      (⟨off + start - off % gBlockSizeBytes,size,fun i => s.log (l.addr * gBlockSizeBytes + start + i)⟩ : Copy β)).elim mem
        (Copy.execute mem)) a = Copy.execute mem (patch s (off / gBlockSizeBytes) l) a := by
  have place : off / gBlockSizeBytes * gBlockSizeBytes + off % gBlockSizeBytes = off := by
    rw [Nat.mul_comm]; exact Nat.div_add_mod _ _
  simp only [findIntersection,patch]
  generalize off / gBlockSizeBytes * gBlockSizeBytes = base at *
  generalize off % gBlockSizeBytes = offInBlock at *
  by_cases covers : base + l.offset ≤ a ∧ a < base + l.offset + l.size
  · rw [if_neg (by omega)]
    refine (if_pos ⟨by simp only; omega,by simp only; omega⟩).trans (Eq.trans ?_ (if_pos covers).symm)
    refine congrArg s.log ?_
    simp only
    omega
  · refine Eq.trans ?_ (if_neg covers).symm
    split
    · rfl
    · refine if_neg fun inside => covers ?_
      simp only [Copy.Covers] at inside
      omega

theorem unalignedByte (h : Current s bound ws) (single : off % gBlockSizeBytes + ioSize ≤ gBlockSizeBytes)
    (low : off ≤ a) (high : a < off + ioSize) (mem : Nat → β) : Copy.executeAll (doUnalignedRead s pub off ioSize) mem a =
      Copy.executeAll ws (fun _ => ((pub.ext (a / gBlockSizeBytes)).map (published pub a)).getD (mem a)) a := by
  have place : off / gBlockSizeBytes * gBlockSizeBytes + off % gBlockSizeBytes = off := by
    rw [Nat.mul_comm]; exact Nat.div_add_mod _ _
  have inBlock : off - off / gBlockSizeBytes * gBlockSizeBytes = off % gBlockSizeBytes := by omega
  have key : off / gBlockSizeBytes * gBlockSizeBytes / gBlockSizeBytes = off / gBlockSizeBytes := Nat.mul_div_cancel _ (by decide)
  have block : a / gBlockSizeBytes = off / gBlockSizeBytes := by
    simp only [gBlockSizeBytes] at *
    omega
  simp only [doUnalignedRead,inBlock,key,Copy.executeAppend,findRaw h]
  rw [Copy.executeFilterMap (h := patch s (off / gBlockSizeBytes)) fun l _ mem => intersects l low high mem,← block]
  refine (h.patched _ a).trans (Copy.executeCongr ?_)
  simp only [bmap]
  cases pub.ext (a / gBlockSizeBytes) with
  | none => rfl
  | some b =>
    have same : off / gBlockSizeBytes * gBlockSizeBytes + a % gBlockSizeBytes = a := by
      rw [← block,Nat.mul_comm]; exact Nat.div_add_mod _ _
    refine (if_pos ⟨low,high⟩).trans (congrArg pub.disk ?_)
    simp only
    omega

theorem unalignedMiss (outside : a < off ∨ off + ioSize ≤ a) (some : 0 < ioSize) (mem : Nat → β) :
    Copy.executeAll (doUnalignedRead s pub off ioSize) mem a = mem a := by
  have place : off / gBlockSizeBytes * gBlockSizeBytes + off % gBlockSizeBytes = off := by
    rw [Nat.mul_comm]; exact Nat.div_add_mod _ _
  have inBlock : off - off / gBlockSizeBytes * gBlockSizeBytes = off % gBlockSizeBytes := by omega
  refine Copy.executeMiss fun c listed covers => ?_
  simp only [doUnalignedRead,inBlock,List.mem_append,Option.mem_toList,Option.map_eq_some_iff,List.mem_filterMap,
    findIntersection,Option.ite_none_left_eq_some,Option.some.injEq] at listed
  rcases listed with ⟨_,_,rfl⟩ | ⟨l,_,_,⟨meets,rfl⟩,rfl⟩
  · simp only [Copy.Covers] at covers
    omega
  · simp only [Copy.Covers] at covers
    omega

theorem bmapRun {lblk count b found : Nat} (ask : 0 < count) (got : bmap pub lblk count = some (b,found)) :
    0 < found ∧ found ≤ count ∧ ∀ i < found, pub.ext (lblk + i) = some (b + i) := by
  obtain ⟨pblk,mapped,same⟩ := Option.map_eq_some_iff.mp got
  obtain ⟨rfl,rfl⟩ := Prod.mk.inj same
  have extent := pub.extent pblk _ (runPositive mapped ask)
  obtain ⟨short,run⟩ := runWithin pub.ext lblk pblk count
  exact ⟨extent.1,Nat.le_trans extent.2 short,fun i less => run i (Nat.lt_of_lt_of_le less extent.2)⟩

theorem runCovers {j pos count : Nat} {byte : Nat → β} (aligned : off % gBlockSizeBytes = 0)
    (here : a / gBlockSizeBytes = off / gBlockSizeBytes + j) :
    (⟨off + pos * gBlockSizeBytes,count * gBlockSizeBytes,byte⟩ : Copy β).Covers a ↔ pos ≤ j ∧ j < pos + count := by
  have first := Nat.div_add_mod off gBlockSizeBytes
  have place := Nat.div_add_mod a gBlockSizeBytes
  have small : a % gBlockSizeBytes < gBlockSizeBytes := Nat.mod_lt _ (by decide)
  rw [here] at place
  rw [aligned] at first
  generalize off / gBlockSizeBytes = q at *
  simp only [Copy.Covers,gBlockSizeBytes] at *
  omega

theorem runByte {j pos b : Nat} (aligned : off % gBlockSizeBytes = 0) (here : a / gBlockSizeBytes = off / gBlockSizeBytes + j)
    (behind : pos ≤ j) : b * gBlockSizeBytes + (a - (off + pos * gBlockSizeBytes)) =
      (b + (j - pos)) * gBlockSizeBytes + a % gBlockSizeBytes := by
  have first := Nat.div_add_mod off gBlockSizeBytes
  have place := Nat.div_add_mod a gBlockSizeBytes
  rw [here] at place
  rw [aligned] at first
  obtain ⟨d,rfl⟩ := Nat.exists_eq_add_of_le behind
  rw [Nat.add_sub_cancel_left]
  clear here behind
  generalize off / gBlockSizeBytes = q at *
  simp only [gBlockSizeBytes] at *
  omega

theorem searchTurn {m : Words} (some : bitmapWeight m n ≠ 0) : let pos := findFirstBit m n
    let next := findNextZeroBit m n pos
    pos < next ∧ next ≤ n ∧ (∀ i < pos, bit m i = false) ∧ ∀ i, pos ≤ i → i < next → bit m i = true := by
  obtain ⟨_,top,skipped,found⟩ := findFirstBitSpec m n
  have less : findFirstBit m n < n := by
    by_contra all
    exact some ((bitmapWeightZero m n).mpr fun i small => skipped i (Nat.zero_le i) (by omega))
  have set := found less
  obtain ⟨low,high,run,stop⟩ := findNextZeroBitSpec m n (findFirstBit m n)
  refine ⟨?_,high,fun i before => skipped i (Nat.zero_le i) before,fun i from_ upto => by simpa using run i from_ upto⟩
  by_contra same
  have zero := stop (by omega)
  rw [show findNextZeroBit m n (findFirstBit m n) = findFirstBit m n by omega,set] at zero
  cases zero

/- The search reads block `j` if it is asked for and no hole is asked for before it. -/
def searched (pub : Published β) (off : Nat) (m : Words) (j a : Nat) (old : β) : β :=
  if bit m j = true ∧ ∀ i < j, bit m i = true → pub.ext (off / gBlockSizeBytes + i) ≠ none
  then ((pub.ext (a / gBlockSizeBytes)).map (published pub a)).getD old else old

theorem searchHole {m : Words} {j pos : Nat} {old : β} (here : a / gBlockSizeBytes = off / gBlockSizeBytes + j)
    (skipped : ∀ i < pos, bit m i = false) (set : bit m pos = true) (hole : pub.ext (off / gBlockSizeBytes + pos) = none) :
    searched pub off m j a old = old := by
  unfold searched
  split
  · rename_i reached
    have same : j = pos := by
      by_contra other
      by_cases before : j < pos
      · rw [skipped j before] at reached
        cases reached.1
      · exact reached.2 pos (by omega) set hole
    rw [here,same,hole]
    rfl
  · rfl

section Turn
variable {m : Words} {j pos next b count : Nat}
  (mapped : ∀ i, pos ≤ i ∧ i < pos + count → pub.ext (off / gBlockSizeBytes + i) = some (b + (i - pos)))
include mapped

theorem searchRead (here : a / gBlockSizeBytes = off / gBlockSizeBytes + j) (skipped : ∀ i < pos, bit m i = false)
    (run : ∀ i, pos ≤ i → i < next → bit m i = true) (short : pos + count ≤ next) (read : pos ≤ j ∧ j < pos + count) (old : β) :
    searched pub off m j a old = published pub a (b + (j - pos)) := by
  have before : ∀ i < j, bit m i = true → pub.ext (off / gBlockSizeBytes + i) ≠ none := by
    intro i below on
    by_cases early : i < pos
    · rw [skipped i early] at on
      cases on
    · rw [mapped i (by omega)]
      exact Option.some_ne_none _
  rw [searched,if_pos ⟨run j read.1 (by omega),before⟩,here,mapped j read]
  rfl

-- Clearing the run that was read changes nothing for the blocks outside it.
theorem searchCleared (other : ¬(pos ≤ j ∧ j < pos + count)) (old : β) :
    searched pub off (bitmapClear m pos count) j a old = searched pub off m j a old := by
  refine if_congr (and_congr (by simp [bitmapClearBit,other]) (forall₂_congr fun i below => ?_)) rfl rfl
  rw [bitmapClearBit]
  by_cases done : pos ≤ i ∧ i < pos + count
  · simp [done,mapped i done]
  · simp [done]

end Turn

theorem searchByte (aligned : off % gBlockSizeBytes = 0) (fuel start : Nat) (m : Words) (enough : n < start + fuel)
    (clear : ∀ i < start, bit m i = false) {j : Nat} (here : a / gBlockSizeBytes = off / gBlockSizeBytes + j) (inside : j < n) (mem : Nat → β) :
    Copy.executeAll (globalSearch pub off n fuel m) mem a = searched pub off m j a (mem a) := by
  induction fuel generalizing start m mem with
  | zero =>
    have done := clear j (by omega)
    exact (if_neg (by simp [done])).symm
  | succ fuel ih =>
    simp only [globalSearch]
    split
    · rename_i none
      have done := (bitmapWeightZero m n).mp none j inside
      exact (if_neg (by simp [done])).symm
    · rename_i weight
      obtain ⟨more,high,skipped,run⟩ := searchTurn weight
      generalize findFirstBit m n = pos at *
      generalize findNextZeroBit m n pos = next at *
      have set := run pos (Nat.le_refl _) more
      have later : start ≤ pos := by
        by_contra early
        rw [clear pos (by omega)] at set
        cases set
      cases got : bmap pub (off / gBlockSizeBytes + pos) (next - pos) with
      | none => exact (searchHole here skipped set (by simpa [bmap] using got)).symm
      | some r =>
        obtain ⟨b,count⟩ := r
        obtain ⟨positive,short,stretch⟩ := bmapRun (by omega) got
        have mapped (i : Nat) (read : pos ≤ i ∧ i < pos + count) : pub.ext (off / gBlockSizeBytes + i) = some (b + (i - pos)) := by
          have there := stretch (i - pos) (by omega)
          rwa [show off / gBlockSizeBytes + pos + (i - pos) = off / gBlockSizeBytes + i by omega] at there
        refine (ih (pos + 1) (bitmapClear m pos count) (by omega) (fun i less => ?_) _).trans ?_
        · rw [bitmapClearBit]
          by_cases before : i < pos
          · rw [skipped i before]; rfl
          · simp [show pos ≤ i ∧ i < pos + count by omega]
        · by_cases read : pos ≤ j ∧ j < pos + count
          · rw [searchRead mapped here skipped run (by omega) read,searched,if_neg (by simp [bitmapClearBit,read])]
            exact (if_pos ((runCovers aligned here).mpr read)).trans (congrArg pub.disk (runByte aligned here read.1))
          · rw [searchCleared mapped read]
            exact congrArg _ (if_neg (mt (runCovers aligned here).mp read))

theorem ioBitsBit (key n : Nat) (m : Words) (j : Nat) :
    bit (ioBits s key n m) j = true ↔ bit m j = true ∧ (j < n → totFclSize s (key + j) ≠ gBlockSizeBytes) := by
  induction n with
  | zero => simp [ioBits]
  | succ n ih =>
    simp only [ioBits]
    split
    · rename_i full
      rw [bitmapClearBit,Bool.and_eq_true,ih]
      by_cases last : j = n
      · subst last
        simp [full]
      · have same : j < n + 1 ↔ j < n := by omega
        have outside : ¬(n ≤ j ∧ j < n + 1) := by omega
        rw [decide_eq_false outside]
        simp [same]
    · rename_i part
      rw [ih]
      by_cases last : j = n
      · subst last
        simp [part]
      · have same : j < n + 1 ↔ j < n := by omega
        simp [same]

theorem patchBlock {k : Nat} {l : FcacheLog} (fits : l.offset + l.size ≤ gBlockSizeBytes) (covers : (patch s k l).Covers a) :
    a / gBlockSizeBytes = k := by
  simp only [patch,Copy.Covers] at covers
  refine Nat.div_eq_of_lt_le (by omega) ?_
  rw [Nat.succ_mul]
  omega

theorem alignedByte (h : Current s bound ws) (aligned : off % gBlockSizeBytes = 0)
    (blocks : ioSize % gBlockSizeBytes = 0) (low : off ≤ a) (high : a < off + ioSize) (mem : Nat → β) :
    Copy.executeAll (doAlignedRead s pub off ioSize) mem a = Copy.executeAll ws (fun _ =>
      if logged ws (a / gBlockSizeBytes) ≠ gBlockSizeBytes ∧
        ∀ k < a / gBlockSizeBytes, off / gBlockSizeBytes ≤ k → logged ws k ≠ gBlockSizeBytes → pub.ext k ≠ none
      then ((pub.ext (a / gBlockSizeBytes)).map (published pub a)).getD (mem a) else mem a) a := by
  obtain ⟨j,here⟩ := Nat.exists_eq_add_of_le (Nat.div_le_div_right low : off / gBlockSizeBytes ≤ a / gBlockSizeBytes)
  have inside : j < ioSize / gBlockSizeBytes := by
    simp only [gBlockSizeBytes] at *
    omega
  have total (k : Nat) : totFclSize s k = logged ws k := by rw [totFclSize,findRaw h,h.counted]
  have bits (i : Nat) (small : i < ioSize / gBlockSizeBytes) : bit (ioBits s (off / gBlockSizeBytes) (ioSize / gBlockSizeBytes)
      (bitmapSet empty 0 (ioSize / gBlockSizeBytes))) i = true ↔ logged ws (off / gBlockSizeBytes + i) ≠ gBlockSizeBytes := by
    rw [ioBitsBit,bitmapSetBit,total]
    simp [small]
  have apart : ∀ i < ioSize / gBlockSizeBytes, i ≠ j →
      ∀ c ∈ (fcacheFind s (off / gBlockSizeBytes + i)).reverse.map (patch s (off / gBlockSizeBytes + i)), ¬c.Covers a := by
    intro i _ other c listed covers
    obtain ⟨l,mem,rfl⟩ := List.mem_map.mp listed
    rw [findRaw h] at mem
    obtain ⟨_,_,fits⟩ := h.piece _ l (List.mem_reverse.mp mem)
    have block := patchBlock fits covers
    omega
  simp only [doAlignedRead]
  rw [Copy.executeAppend,Copy.executeRange apart,if_pos inside,findRaw h,← here]
  refine (h.patched _ a).trans (Copy.executeCongr ?_)
  rw [searchByte aligned _ 0 _ (by omega) (by simp) here inside]
  refine if_congr (and_congr ?_ ?_) rfl rfl
  · rw [bits j inside,here]
  · constructor
    · intro all k below behind needed
      obtain ⟨i,rfl⟩ := Nat.exists_eq_add_of_le behind
      exact all i (by omega) ((bits i (by omega)).mpr needed)
    · intro all i less needed
      exact all _ (by omega) (Nat.le_add_right _ _) ((bits i (by omega)).mp needed)

theorem searchMiss (fuel : Nat) (m : Words)
    (outside : a < off ∨ off + n * gBlockSizeBytes ≤ a) : ∀ c ∈ globalSearch pub off n fuel m, ¬c.Covers a := by
  induction fuel generalizing m with
  | zero => exact fun c listed => nomatch listed
  | succ fuel ih =>
    intro c listed
    simp only [globalSearch] at listed
    split at listed
    · exact nomatch listed
    · rename_i weight
      obtain ⟨more,high,_,_⟩ := searchTurn weight
      generalize findFirstBit m n = pos at *
      generalize findNextZeroBit m n pos = next at *
      cases got : bmap pub (off / gBlockSizeBytes + pos) (next - pos) with
      | none =>
        rw [got] at listed
        exact nomatch listed
      | some r =>
        obtain ⟨b,count⟩ := r
        obtain ⟨_,short,_⟩ := bmapRun (by omega) got
        rw [got] at listed
        rcases List.mem_cons.mp listed with rfl | later
        · have stop := Nat.mul_le_mul_right gBlockSizeBytes (show pos + count ≤ n by omega)
          rw [Nat.add_mul] at stop
          simp only [Copy.Covers]
          omega
        · exact ih _ c later

theorem alignedMiss (h : Current s bound ws) (aligned : off % gBlockSizeBytes = 0) (blocks : ioSize % gBlockSizeBytes = 0)
    (outside : a < off ∨ off + ioSize ≤ a) (mem : Nat → β) : Copy.executeAll (doAlignedRead s pub off ioSize) mem a = mem a := by
  refine Copy.executeMiss fun c listed => ?_
  rcases List.mem_append.mp listed with searched | logged
  · refine searchMiss _ _ ?_ c searched
    rwa [Nat.div_mul_cancel (Nat.dvd_of_mod_eq_zero blocks)]
  · obtain ⟨i,small,part⟩ := List.mem_flatMap.mp logged
    obtain ⟨l,mem,rfl⟩ := List.mem_map.mp part
    rw [findRaw h] at mem
    obtain ⟨_,_,fits⟩ := h.piece _ l (List.mem_reverse.mp mem)
    intro covers
    have block := patchBlock fits covers
    have less := List.mem_range.mp small
    simp only [gBlockSizeBytes] at *
    omega

theorem partsShape (off n : Nat) : let p := parts off n
    p.small = n ∧ p.prepended = 0 ∧ p.aligned = 0 ∧ p.appended = 0 ∧ off % gBlockSizeBytes + n ≤ gBlockSizeBytes ∧ n < gBlockSizeBytes ∨
    p.small = 0 ∧ p.prepended + p.aligned + p.appended = n ∧ p.prepended < gBlockSizeBytes ∧ p.appended < gBlockSizeBytes ∧
      (off + p.prepended) % gBlockSizeBytes = 0 ∧ p.aligned % gBlockSizeBytes = 0 := by
  have head := alignUp off
  have tail := alignUp (off + n)
  simp only [parts]
  split
  · refine .inr ⟨rfl,?_⟩
    simp only [gBlockSizeBytes] at *
    omega
  · split
    · refine .inl ⟨rfl,rfl,rfl,rfl,?_⟩
      simp only [gBlockSizeBytes] at *
      omega
    · refine .inr ⟨rfl,?_⟩
      simp only [gBlockSizeBytes] at *
      split_ifs <;> omega

def shown (pub : Published β) (ws : List (Copy β)) (off n : Nat) (buf : Nat → β) (a : Nat) : β :=
  if Whole off n (a / gBlockSizeBytes) → logged ws (a / gBlockSizeBytes) ≠ gBlockSizeBytes ∧
      ∀ k < a / gBlockSizeBytes, Whole off n k → logged ws k ≠ gBlockSizeBytes → pub.ext k ≠ none
  then ((pub.ext (a / gBlockSizeBytes)).map (published pub a)).getD (buf a) else buf a

theorem unalignedPart (h : Current s bound ws) (single : start % gBlockSizeBytes + size ≤ gBlockSizeBytes)
    (low : start ≤ a) (high : a < start + size) (part : ¬Whole off n (a / gBlockSizeBytes)) (buf : Nat → β) :
    Copy.executeAll (if size = 0 then [] else doUnalignedRead s pub start size) buf a =
      Copy.executeAll ws (fun _ => shown pub ws off n buf a) a := by
  rw [if_neg (by omega),unalignedByte h single low high,shown,if_pos fun whole => absurd whole part]

theorem unalignedSkip (outside : a < start ∨ start + size ≤ a) (buf : Nat → β) :
    Copy.executeAll (if size = 0 then [] else doUnalignedRead s pub start size) buf a = buf a := by
  split
  · rfl
  · exact unalignedMiss outside (by omega) buf

theorem alignedPart (h : Current s bound ws) (aligned : start % gBlockSizeBytes = 0)
    (blocks : size % gBlockSizeBytes = 0) (low : start ≤ a) (high : a < start + size)
    (first : off ≤ start) (near : start < off + gBlockSizeBytes)
    (last : start + size ≤ off + n) (buf : Nat → β) : Copy.executeAll (if size = 0 then [] else doAlignedRead s pub start size) buf a =
      Copy.executeAll ws (fun _ => shown pub ws off n buf a) a := by
  have whole : Whole off n (a / gBlockSizeBytes) := by
    simp only [Whole,gBlockSizeBytes] at *
    omega
  have same (k : Nat) (below : k < a / gBlockSizeBytes) : start / gBlockSizeBytes ≤ k ↔ Whole off n k := by
    simp only [Whole,gBlockSizeBytes] at *
    omega
  rw [if_neg (by omega),alignedByte h aligned blocks low high,shown]
  refine Copy.executeCongr (if_congr ?_ rfl rfl)
  rw [forall_prop_of_true whole]
  refine and_congr_right fun _ => forall₂_congr fun k below => ?_
  rw [same k below]

theorem alignedSkip (h : Current s bound ws) (aligned : start % gBlockSizeBytes = 0)
    (blocks : size % gBlockSizeBytes = 0) (outside : a < start ∨ start + size ≤ a) (buf : Nat → β) :
    Copy.executeAll (if size = 0 then [] else doAlignedRead s pub start size) buf a = buf a := by
  split
  · rfl
  · exact alignedMiss h aligned blocks outside buf

theorem shownCongr {buf other : Nat → β} (same : buf a = other a) :
    shown pub ws off n buf a = shown pub ws off n other a := by
  simp only [shown,same]

theorem readiByte (h : Current s bound ws) (inside : off < s.size) (buf : Nat → β) :
    ∃ out, readi s pub buf off n = some (min n (s.size - off),out) ∧ ∀ a, off ≤ a → a < off + min n (s.size - off) →
      out a = Copy.executeAll ws (fun _ => shown pub ws off (min n (s.size - off)) buf a) a := by
  have size : (if s.size < off + n then s.size - off else n) = min n (s.size - off) := by
    split <;> omega
  simp only [readi,if_neg (Nat.not_le.mpr inside),size]
  generalize min n (s.size - off) = n
  have shape := partsShape off n
  generalize parts off n = p at *
  obtain ⟨small,prepended,aligned,appended⟩ := p
  refine ⟨_,congrArg some (Prod.ext (by simp only at *; omega) rfl),fun a low high => ?_⟩
  simp only [Copy.executeAppend] at *
  rcases shape with ⟨rfl,rfl,rfl,rfl,single,short⟩ | ⟨rfl,total,head,tail,start,blocks⟩
  · have part : ¬Whole off small (a / gBlockSizeBytes) := by
      simp only [Whole,gBlockSizeBytes] at *
      omega
    exact unalignedPart h single low high part buf
  · simp only [Nat.add_zero,if_true]
    have stop : (off + prepended + aligned) % gBlockSizeBytes = 0 := by rw [Nat.add_mod,start,blocks]; rfl
    by_cases first : a < off + prepended
    · have single : off % gBlockSizeBytes + prepended ≤ gBlockSizeBytes := by
        simp only [gBlockSizeBytes] at *
        omega
      have part : ¬Whole off n (a / gBlockSizeBytes) := by
        simp only [Whole,gBlockSizeBytes] at *
        omega
      rw [unalignedSkip (by omega),alignedSkip h start blocks (by omega)]
      exact unalignedPart h single low first part buf
    · have before : Copy.executeAll (if prepended = 0 then [] else doUnalignedRead s pub off prepended) buf a = buf a :=
        unalignedSkip (by omega) buf
      by_cases middle : a < off + prepended + aligned
      · rw [unalignedSkip (by omega)]
        refine (alignedPart (n := n) h start blocks (by omega) middle (Nat.le_add_right _ _) (by omega) (by omega) _).trans ?_
        exact Copy.executeCongr (shownCongr before)
      · have part : ¬Whole off n (a / gBlockSizeBytes) := by
          simp only [Whole,gBlockSizeBytes] at *
          omega
        have single : (off + prepended + aligned) % gBlockSizeBytes + appended ≤ gBlockSizeBytes := by omega
        refine (unalignedPart h single (by omega) (by omega) part _).trans ?_
        refine Copy.executeCongr (shownCongr ?_)
        rw [alignedSkip h start blocks (by omega)]
        exact before

end Reads

section Bytes
variable {pub : Published UInt8} {ws : List (Copy UInt8)} {log : Nat → UInt8} {next version : Nat} {s : LibFS UInt8} {off n : Nat}

def opened (pub : Published β) (log : Nat → β) (next version : Nat) : LibFS β := ⟨pub.size,fun _ => none,log,next,version⟩

def fileSize (pub : Published β) (ws : List (Copy β)) : Nat := ws.foldl grown pub.size

/- The file as an array of bytes: the published bytes below the published size, zero where
nothing was published, and the writes in order. -/
def contents (pub : Published UInt8) (ws : List (Copy UInt8)) : Nat → UInt8 :=
  Copy.executeAll ws fun a => if a < pub.size then ((pub.ext (a / gBlockSizeBytes)).map (published pub a)).getD 0 else 0

theorem openedCurrent (pub : Published β) (log : Nat → β) (next version : Nat) : Current (opened pub log next version) next [] :=
  ⟨nofun,nofun,fun _ _ => rfl,fun _ => rfl⟩

theorem runCurrent {s t : LibFS β} {done ws : List (Copy β)} (h : Current s s.nextAvailHeader done) (wrote : run mlfsFileWrite s ws = some t) :
    Current t t.nextAvailHeader (done ++ ws) ∧ t.size = ws.foldl grown s.size := by
  induction ws generalizing s done with
  | nil =>
    cases wrote
    exact ⟨by simpa using h,rfl⟩
  | cons w ws ih =>
    simp only [run,Option.bind_eq_some_iff] at wrote
    obtain ⟨m,first,rest⟩ := wrote
    obtain ⟨current,size⟩ := writeCurrent h first
    obtain ⟨all,final⟩ := ih current rest
    rw [List.append_assoc,List.singleton_append] at all
    rw [List.foldl_cons,← size]
    exact ⟨all,final⟩

def Returns (pub : Published UInt8) (ws : List (Copy UInt8)) (s : LibFS UInt8) (off n : Nat) (buf : Nat → UInt8) : Prop :=
  ∃ out, readi s pub buf off n = some (min n (fileSize pub ws - off),out) ∧
    ∀ a, off ≤ a → a < off + min n (fileSize pub ws - off) → out a = contents pub ws a

/- A position that was not written since the publication must be in a mapped block, and below the published
size unless the block holds a zero there. In a block that is read as a whole, the writes must not add up to
its size, and the blocks read before it must be mapped unless the writes to them do. -/
def Readable (pub : Published UInt8) (ws : List (Copy UInt8)) (off n : Nat) : Prop :=
  ∀ a, off ≤ a → a < off + n → (∃ w ∈ ws, w.Covers a) ∨
    (∃ b, pub.ext (a / gBlockSizeBytes) = some b ∧ (a < pub.size ∨ published pub a b = 0)) ∧
    (Whole off n (a / gBlockSizeBytes) → logged ws (a / gBlockSizeBytes) ≠ gBlockSizeBytes ∧
      ∀ k < a / gBlockSizeBytes, Whole off n k → logged ws k ≠ gBlockSizeBytes → pub.ext k ≠ none)

theorem shownExact {a : Nat} (v : UInt8) : (∀ buf, shown pub ws off n buf a = v) ↔
    (∃ b, pub.ext (a / gBlockSizeBytes) = some b ∧ published pub a b = v) ∧
    (Whole off n (a / gBlockSizeBytes) → logged ws (a / gBlockSizeBytes) ≠ gBlockSizeBytes ∧
      ∀ k < a / gBlockSizeBytes, Whole off n k → logged ws k ≠ gBlockSizeBytes → pub.ext k ≠ none) := by
  have other : v + 1 ≠ v := by simp
  simp only [shown]
  constructor
  · intro all
    have here := all fun _ => v + 1
    split at here
    · rename_i reached
      refine ⟨?_,reached⟩
      cases mapped : pub.ext (a / gBlockSizeBytes) with
      | none =>
        rw [mapped] at here
        exact absurd here other
      | some b =>
        rw [mapped] at here
        exact ⟨b,rfl,here⟩
    · exact absurd here other
  · rintro ⟨⟨b,mapped,byte⟩,reached⟩ buf
    rw [if_pos reached,mapped]
    exact byte

theorem readsLatest (wrote : run mlfsFileWrite (opened pub log next version) ws = some s) (inside : off < fileSize pub ws) :
    (∀ buf, Returns pub ws s off n buf) ↔ Readable pub ws off (min n (fileSize pub ws - off)) := by
  obtain ⟨current,size⟩ := runCurrent (openedCurrent pub log next version) wrote
  rw [List.nil_append] at current
  have same : s.size = fileSize pub ws := size
  have reads (buf : Nat → UInt8) : ∃ out, readi s pub buf off n = some (min n (s.size - off),out) ∧
      ∀ a, off ≤ a → a < off + min n (s.size - off) →
        out a = Copy.executeAll ws (fun _ => shown pub ws off (min n (s.size - off)) buf a) a :=
    readiByte current (same ▸ inside) buf
  rw [same] at reads
  have base {a : Nat} : (∃ b, pub.ext (a / gBlockSizeBytes) = some b ∧ (a < pub.size ∨ published pub a b = 0)) ↔
      ∃ b, pub.ext (a / gBlockSizeBytes) = some b ∧ published pub a b =
        if a < pub.size then ((pub.ext (a / gBlockSizeBytes)).map (published pub a)).getD 0 else 0 := by
    refine exists_congr fun b => and_congr_right fun mapped => ?_
    rw [mapped]
    by_cases below : a < pub.size
    · simp [below]
    · simp [below]
  constructor
  · intro all a low high
    by_cases written : ∃ w ∈ ws, w.Covers a
    · exact .inl written
    · have miss : ∀ w ∈ ws, ¬w.Covers a := fun w mem covers => written ⟨w,mem,covers⟩
      rw [base]
      refine .inr ((shownExact _).mp fun buf => ?_)
      obtain ⟨out,done,bytes⟩ := reads buf
      obtain ⟨out',done',bytes'⟩ := all buf
      cases Option.some.inj (done.symm.trans done')
      have shows := (bytes a low high).symm.trans (bytes' a low high)
      rwa [contents,Copy.executeMiss miss,Copy.executeMiss miss] at shows
  · intro readable buf
    obtain ⟨out,done,bytes⟩ := reads buf
    refine ⟨out,done,fun a low high => (bytes a low high).trans ?_⟩
    rcases readable a low high with written | unwritten
    · exact Copy.executeCovered written
    · rw [base] at unwritten
      exact Copy.executeCongr ((shownExact _).mpr unwritten buf)

end Bytes

def oneBlock : Published UInt8 :=
  ⟨4096,fun l => if l = 0 then some 5 else none,fun _ n => n,fun _ _ some => ⟨some,Nat.le_refl _⟩,fun _ => 7⟩

theorem readsLatestPatched : ∃ s, run mlfsFileWrite (opened oneBlock (fun _ => 0) 10 1) [⟨10,5,fun _ => 1⟩] = some s ∧
    0 < fileSize oneBlock [⟨10,5,fun _ => 1⟩] ∧ ∀ buf, Returns oneBlock [⟨10,5,fun _ => 1⟩] s 0 4096 buf := by
  have trace : (run mlfsFileWrite (opened oneBlock (fun _ => 0) 10 1) [⟨10,5,fun _ => 1⟩]).isSome = true := by decide +kernel
  obtain ⟨s,ran⟩ := Option.isSome_iff_exists.mp trace
  refine ⟨s,ran,by decide,(readsLatest ran (by decide)).mpr fun a _ high => .inr ?_⟩
  have small : a < 4096 := high
  have first : a / gBlockSizeBytes = 0 := Nat.div_eq_of_lt small
  rw [first]
  exact ⟨⟨5,rfl,.inl small⟩,fun _ => ⟨by decide,fun k less => absurd less (Nat.not_lt_zero k)⟩⟩

theorem overlappingPiecesUnread : ¬∀ pub ws log next version s off n buf,
    run mlfsFileWrite (opened pub log next version) ws = some s → off < fileSize pub ws → Returns pub ws s off n buf := by
  intro claim
  have trace : (run mlfsFileWrite (opened oneBlock (fun _ => 0) 10 1) [⟨0,2048,fun _ => 1⟩,⟨0,2048,fun _ => 2⟩]).map
      (fun s => (readi s oneBlock (fun _ => 0) 0 4096).map fun r => r.2 2048) = some (some 0) := by decide +kernel
  obtain ⟨s,ran,read⟩ := Option.map_eq_some_iff.mp trace
  obtain ⟨r,answer,byte⟩ := Option.map_eq_some_iff.mp read
  obtain ⟨out,same,bytes⟩ := claim oneBlock _ _ _ _ s 0 4096 (fun _ => 0) ran (by decide)
  cases Option.some.inj (answer.symm.trans same)
  have wrong := byte.symm.trans (bytes 2048 (by decide) (by decide))
  exact absurd wrong (by decide)

section Sparse
variable {pub : Published UInt8} {log : Nat → UInt8} {next version off n : Nat}

def ReadsMapped (pub : Published UInt8) (s : LibFS UInt8) (off n : Nat) (buf : Nat → UInt8) : Prop :=
  ∃ out, readi s pub buf off n = some (min n (pub.size - off),out) ∧
    ∀ a b, off ≤ a → a < off + min n (pub.size - off) → pub.ext (a / gBlockSizeBytes) = some b → out a = published pub a b

theorem sparseReads (inside : off < pub.size) : (∀ buf, ReadsMapped pub (opened pub log next version) off n buf) ↔
    ∀ j k, Whole off (min n (pub.size - off)) j → Whole off (min n (pub.size - off)) k → j < k → pub.ext j = none → pub.ext k = none := by
  have reads (buf : Nat → UInt8) : ∃ out, readi (opened pub log next version) pub buf off n = some (min n (pub.size - off),out) ∧
      ∀ a, off ≤ a → a < off + min n (pub.size - off) → out a = shown pub [] off (min n (pub.size - off)) buf a :=
    readiByte (openedCurrent pub log next version) inside buf
  have none (k : Nat) : logged ([] : List (Copy UInt8)) k ≠ gBlockSizeBytes := by show 0 ≠ gBlockSizeBytes; decide
  constructor
  · intro all j k wholeJ wholeK less hole
    by_contra mapped
    obtain ⟨b,mapped⟩ := Option.ne_none_iff_exists'.mp mapped
    have first : k * gBlockSizeBytes / gBlockSizeBytes = k := Nat.mul_div_cancel k (by decide)
    have shows : ∀ buf, shown pub [] off (min n (pub.size - off)) buf (k * gBlockSizeBytes) = published pub (k * gBlockSizeBytes) b := by
      intro buf
      obtain ⟨out,done,bytes⟩ := reads buf
      obtain ⟨out',done',bytes'⟩ := all buf
      cases Option.some.inj (done.symm.trans done')
      have low : off ≤ k * gBlockSizeBytes := wholeK.1
      have high : k * gBlockSizeBytes < off + min n (pub.size - off) := by
        have stop := wholeK.2
        rw [Nat.add_mul] at stop
        exact Nat.lt_of_lt_of_le (Nat.lt_add_of_pos_right (by decide)) stop
      exact (bytes _ low high).symm.trans (bytes' _ b low high (by rw [first]; exact mapped))
    have reached := ((shownExact _).mp shows).2
    rw [first] at reached
    exact (reached wholeK).2 j less wholeJ (none j) hole
  · intro order buf
    obtain ⟨out,done,bytes⟩ := reads buf
    refine ⟨out,done,fun a b low high mapped => (bytes a low high).trans ?_⟩
    refine (shownExact _).mpr ⟨⟨b,mapped,rfl⟩,fun whole => ⟨none _,fun k less earlier _ hole => ?_⟩⟩ buf
    have gone := order k _ earlier whole less hole
    rw [mapped] at gone
    cases gone

end Sparse

def holeFirst : Published UInt8 :=
  ⟨8192,fun l => if l = 1 then some 5 else none,fun _ n => n,fun _ _ some => ⟨some,Nat.le_refl _⟩,fun _ => 7⟩

def holeLast : Published UInt8 :=
  ⟨12288,fun l => if l < 2 then some (l + 5) else none,fun _ n => n,fun _ _ some => ⟨some,Nat.le_refl _⟩,fun _ => 7⟩

theorem sparseReadsHoleLast : 0 < holeLast.size ∧ ∀ buf, ReadsMapped holeLast (opened holeLast (fun _ => 0) 10 1) 0 12288 buf := by
  refine ⟨by decide,(sparseReads (by decide)).mpr fun j k _ _ less hole => ?_⟩
  simp only [holeLast,ite_eq_right_iff,reduceCtorEq,imp_false] at hole ⊢
  omega

/- The search ends at the hole, and the block behind it is not read. -/
theorem holeHidesBlock : ¬∀ pub log next version off n buf, off < pub.size →
    ReadsMapped pub (opened pub log next version) off n buf := by
  intro claim
  have trace : (readi (opened holeFirst (fun _ => 0) 10 1) holeFirst (fun _ => 0) 0 8192).map (fun r => r.2 4096) = some 0 := by
    decide +kernel
  obtain ⟨r,answer,byte⟩ := Option.map_eq_some_iff.mp trace
  obtain ⟨out,same,bytes⟩ := claim holeFirst (fun _ => 0) 10 1 0 8192 (fun _ => 0) (by decide)
  cases Option.some.inj (answer.symm.trans same)
  have wrong := byte.symm.trans (bytes 4096 5 (by decide) (by decide) (by decide))
  exact absurd wrong (by decide)

end LineFS.ReadPath
