import Mathlib.Data.List.Count
import Mathlib.Tactic.Linarith

/-! The word-wise bitmap operations of `ds/bitmap.c`: the replica's NIC records persisted
log copies with them, the block allocator its used blocks. A bitmap is an array of
64-bit words; `bit` reads one position. Each operation is followed by what it does to
every bit. -/
namespace LineFS.Bitmap

open List (countP_append countP_map mem_range range_add)

abbrev Words := Nat → BitVec 64

def bit (m : Words) (i : Nat) : Bool := (m (i / 64)).getLsbD (i % 64)
def store (m : Words) (k : Nat) (w : BitVec 64) : Words := fun j => if j = k then w else m j
def empty : Words := fun _ => 0

def firstWordMask (start : Nat) : BitVec 64 := BitVec.allOnes 64 <<< (start % 64)
def lastWordMask (nbits : Nat) : BitVec 64 := BitVec.allOnes 64 >>> ((64 - nbits % 64) % 64)

theorem bitWord (m : Words) (k j : Nat) (h : j < 64) : bit m (64 * k + j) = (m k).getLsbD j := by
  simp only [bit,show (64 * k + j) / 64 = k by omega,show (64 * k + j) % 64 = j by omega]

@[simp] theorem bitEmpty (i) : bit empty i = false := by simp [bit,empty]

theorem lastMaskBit (nbits j : Nat) (h : j < 64) :
    (lastWordMask nbits).getLsbD j = decide (nbits % 64 = 0 ∨ j < nbits % 64) := by
  simp only [lastWordMask,BitVec.getLsbD_ushiftRight,BitVec.getLsbD_allOnes,decide_eq_decide]
  omega

def setWords (size : Nat) : Nat → Words → Nat → Nat → Nat → BitVec 64 → Words
  | 0,m,p,len,_,mask => if len = 0 then m else store m p (m p ||| (mask &&& lastWordMask size))
  | fuel+1,m,p,len,bits,mask =>
    if bits ≤ len then setWords size fuel (store m p (m p ||| mask)) (p + 1) (len - bits) 64 (BitVec.allOnes 64)
    else if len = 0 then m else store m p (m p ||| (mask &&& lastWordMask size))

def bitmapSet (m : Words) (start len : Nat) : Words :=
  setWords (start + len) len m (start / 64) len (64 - start % 64) (firstWordMask start)

theorem storeBit (m : Words) (k i : Nat) (w : BitVec 64) :
    bit (store m k (m k ||| w)) i = (bit m i || (decide (i / 64 = k) && w.getLsbD (i % 64))) := by
  by_cases same : i / 64 = k
  · simp [bit,store,same]
  · simp [bit,store,same]

theorem firstMaskBit (first j : Nat) (inWord : first < 64) (h : j < 64) :
    (firstWordMask first).getLsbD j = decide (first ≤ j) := by
  simp only [firstWordMask,BitVec.getLsbD_shiftLeft,BitVec.getLsbD_allOnes,Nat.mod_eq_of_lt inWord]
  by_cases le : first ≤ j
  · simp [h,le]; omega
  · simp [h,le]

theorem setRestBit {m : Words} {p len first size : Nat} (inWord : first < 64)
    (place : size = 64 * p + first + len) (short : len < 64 - first) (i : Nat) :
    bit (if len = 0 then m else store m p (m p ||| (firstWordMask first &&& lastWordMask size))) i =
      (bit m i || decide (64 * p + first ≤ i ∧ i < size)) := by
  split
  · have none : ¬(64 * p + first ≤ i ∧ i < size) := by omega
    simp [none]
  · have inside := Nat.mod_lt i (show 0 < 64 by decide)
    rw [storeBit,BitVec.getLsbD_and,firstMaskBit _ _ inWord inside,lastMaskBit _ _ inside]
    congr 1
    rw [← Bool.decide_and,← Bool.decide_and,decide_eq_decide]
    omega

theorem setWordsBit (size fuel : Nat) (m : Words) (p len first : Nat) (enough : len ≤ fuel) (inWord : first < 64)
    (place : size = 64 * p + first + len) (i : Nat) :
    bit (setWords size fuel m p len (64 - first) (firstWordMask first)) i =
      (bit m i || decide (64 * p + first ≤ i ∧ i < size)) := by
  induction fuel generalizing m p len first with
  | zero => exact setRestBit inWord place (by omega) i
  | succ fuel ih =>
    simp only [setWords]
    split
    · have rest := ih (store m p (m p ||| firstWordMask first)) (p + 1) (len - (64 - first)) 0
        (by omega) (by decide) (by omega)
      rw [show firstWordMask 0 = BitVec.allOnes 64 by decide] at rest
      have inside := Nat.mod_lt i (show 0 < 64 by decide)
      rw [rest,storeBit,firstMaskBit _ _ inWord inside,Bool.or_assoc]
      congr 1
      rw [← Bool.decide_and,← Bool.decide_or,decide_eq_decide]
      omega
    · exact setRestBit inWord place (by omega) i

theorem bitmapSetBit (m : Words) (start len i : Nat) :
    bit (bitmapSet m start len) i = (bit m i || decide (start ≤ i ∧ i < start + len)) := by
  have mask : firstWordMask start = firstWordMask (start % 64) := by simp [firstWordMask]
  have inWord := Nat.mod_lt start (show 0 < 64 by decide)
  rw [bitmapSet,mask,setWordsBit _ _ _ _ _ _ (Nat.le_refl _) inWord (by omega),show 64 * (start / 64) + start % 64 = start by omega]

theorem bitmapSetOne (m : Words) (k i : Nat) : bit (bitmapSet m k 1) i = (bit m i || decide (i = k)) := by
  rw [bitmapSetBit,decide_eq_decide.mpr (show k ≤ i ∧ i < k + 1 ↔ i = k by omega)]

def hweightLong (w : BitVec 64) : Nat := (List.range 64).countP fun j => w.getLsbD j

def bitmapWeight (m : Words) (bits : Nat) : Nat :=
  let lim := bits / 64
  ((List.range lim).map fun k => hweightLong (m k)).sum +
    if bits % 64 = 0 then 0 else hweightLong (m lim &&& lastWordMask bits)

theorem countWords (m : Words) (lim : Nat) :
    ((List.range lim).map fun k => hweightLong (m k)).sum = (List.range (64 * lim)).countP (bit m) := by
  induction lim with
  | zero => rfl
  | succ lim ih =>
    rw [List.range_succ,List.map_append,List.sum_append,ih,Nat.mul_succ,range_add,
      countP_append,countP_map]
    simp only [List.map_cons,List.map_nil,List.sum_singleton,hweightLong]
    congr 1
    exact List.countP_congr fun j mem => by simp [bitWord _ _ _ (mem_range.mp mem)]

theorem countMasked (m : Words) (bits : Nat) (odd : bits % 64 ≠ 0) :
    hweightLong (m (bits / 64) &&& lastWordMask bits) =
      (List.range (bits % 64)).countP (fun j => bit m (64 * (bits / 64) + j)) := by
  have inWord := Nat.mod_lt bits (show 0 < 64 by decide)
  have split : List.range 64 = List.range (bits % 64) ++ (List.range (64 - bits % 64)).map (bits % 64 + ·) := by
    rw [← range_add]; congr 1; omega
  rw [hweightLong,split,countP_append,countP_map]
  have low : (List.range (bits % 64)).countP (fun j => (m (bits / 64) &&& lastWordMask bits).getLsbD j) =
      (List.range (bits % 64)).countP (fun j => bit m (64 * (bits / 64) + j)) := by
    refine List.countP_congr fun j mem => ?_
    have small := mem_range.mp mem
    rw [BitVec.getLsbD_and,lastMaskBit _ _ (by omega),bitWord _ _ _ (by omega)]
    simp [small]
  have high : (List.range (64 - bits % 64)).countP
      ((fun j => (m (bits / 64) &&& lastWordMask bits).getLsbD j) ∘ (bits % 64 + ·)) = 0 := by
    refine List.countP_eq_zero.mpr fun j mem => ?_
    have small := mem_range.mp mem
    simp only [Function.comp_apply,BitVec.getLsbD_and,lastMaskBit bits (bits % 64 + j) (by omega)]
    simp [odd]
  rw [low,high,Nat.add_zero]

theorem bitmapWeightCount (m : Words) (bits : Nat) : bitmapWeight m bits = (List.range bits).countP (bit m) := by
  have whole : bits = 64 * (bits / 64) + bits % 64 := by omega
  conv_rhs => rw [whole,range_add,countP_append,countP_map]
  simp only [bitmapWeight,countWords]
  congr 1
  split
  · rename_i none; simp [none]
  · rename_i odd; exact countMasked m bits odd

theorem bitmapWeightFull (m : Words) (bits : Nat) : bitmapWeight m bits = bits ↔ ∀ i < bits, bit m i = true := by
  rw [bitmapWeightCount]
  constructor
  · intro full i small
    exact List.countP_eq_length.mp (full.trans List.length_range.symm) i (mem_range.mpr small)
  · intro all
    exact (List.countP_eq_length.mpr fun i mem => all i (mem_range.mp mem)).trans List.length_range

def shiftWord (m : Words) (off rem lim : Nat) (mask : BitVec 64) (k : Nat) : BitVec 64 :=
  let source (q : Nat) := if q = lim - 1 then m q &&& mask else m q
  let upper := if rem = 0 ∨ lim ≤ off + k + 1 then 0 else source (off + k + 1) <<< (64 - rem)
  (source (off + k) >>> rem) ||| upper

def shiftLoop (off rem lim : Nat) (mask : BitVec 64) : Nat → Words → Words
  | 0,m => m
  | n+1,m =>
    let m := shiftLoop off rem lim mask n m
    store m n (shiftWord m off rem lim mask n)

def clearWords (m : Words) (first count : Nat) : Words := fun k => if first ≤ k ∧ k < first + count then 0 else m k

def bitmapShiftRight (m : Words) (shift nbits : Nat) : Words :=
  let lim := (nbits + 63) / 64
  let off := shift / 64
  let m := shiftLoop off (shift % 64) lim (lastWordMask nbits) (lim - off) m
  if off = 0 then m else clearWords m (lim - off) off

theorem shiftLoopWord (off rem lim : Nat) (mask : BitVec 64) (n : Nat) (m : Words) (k : Nat) :
    shiftLoop off rem lim mask n m k = if k < n then shiftWord m off rem lim mask k else m k := by
  induction n generalizing k with
  | zero => simp [shiftLoop]
  | succ n ih =>
    have unread : shiftWord (shiftLoop off rem lim mask n m) off rem lim mask n = shiftWord m off rem lim mask n := by
      simp only [shiftWord,ih,show ¬off + n < n by omega,show ¬off + n + 1 < n by omega,if_false]
    simp only [shiftLoop,store,unread,ih]
    split_ifs <;> first | rfl | omega | (subst k; rfl)

theorem sourceWordBit (m : Words) (nbits q b : Nat) (h : b < 64) (low : q < (nbits + 63) / 64) :
    (if q = (nbits + 63) / 64 - 1 then m q &&& lastWordMask nbits else m q).getLsbD b =
      (decide (64 * q + b < nbits) && bit m (64 * q + b)) := by
  rw [bitWord _ _ _ h]
  split
  · rw [BitVec.getLsbD_and,lastMaskBit _ _ h,Bool.and_comm]
    congr 1
    rw [decide_eq_decide]
    omega
  · have inside : 64 * q + b < nbits := by omega
    simp [inside]

theorem shiftWordBit (m : Words) (shift nbits k j : Nat) (inWord : j < 64)
    (below : shift / 64 + k < (nbits + 63) / 64) :
    (shiftWord m (shift / 64) (shift % 64) ((nbits + 63) / 64) (lastWordMask nbits) k).getLsbD j =
      (decide (64 * k + j + shift < nbits) && bit m (64 * k + j + shift)) := by
  simp only [shiftWord,BitVec.getLsbD_or,BitVec.getLsbD_ushiftRight]
  by_cases fits : shift % 64 + j < 64
  · -- the position comes from the lower source word
    rw [sourceWordBit _ _ _ _ fits below,
      show 64 * (shift / 64 + k) + (shift % 64 + j) = 64 * k + j + shift by omega]
    split
    · simp
    · simp [BitVec.getLsbD_shiftLeft,show j < 64 - shift % 64 by omega]
  · rw [BitVec.getLsbD_of_ge _ _ (Nat.le_of_not_lt fits),Bool.false_or]
    split
    · have beyond : ¬64 * k + j + shift < nbits := by omega
      simp [beyond]
    · rw [BitVec.getLsbD_shiftLeft,sourceWordBit _ _ _ _ (by omega) (by omega),
        show 64 * (shift / 64 + k + 1) + (j - (64 - shift % 64)) = 64 * k + j + shift by omega]
      simp [inWord,show ¬j < 64 - shift % 64 by omega]

theorem bitmapShiftRightBit (m : Words) (shift nbits i : Nat) (wide : shift ≤ nbits) :
    bit (bitmapShiftRight m shift nbits) i =
      if i < 64 * ((nbits + 63) / 64) then decide (i + shift < nbits) && bit m (i + shift) else bit m i := by
  have place : 64 * (i / 64) + i % 64 + shift = i + shift := by omega
  have inWord := Nat.mod_lt i (show 0 < 64 by decide)
  have looped : bit (shiftLoop (shift / 64) (shift % 64) ((nbits + 63) / 64) (lastWordMask nbits)
      ((nbits + 63) / 64 - shift / 64) m) i =
      if i / 64 < (nbits + 63) / 64 - shift / 64 then decide (i + shift < nbits) && bit m (i + shift) else bit m i := by
    simp only [bit,shiftLoopWord]
    split
    · rw [shiftWordBit _ _ _ _ _ inWord (by omega),place]; rfl
    · rfl
  simp only [bitmapShiftRight]
  by_cases whole : shift / 64 = 0
  · rw [if_pos whole,looped]
    have same : i / 64 < (nbits + 63) / 64 - shift / 64 ↔ i < 64 * ((nbits + 63) / 64) := by omega
    simp only [same]
  · rw [if_neg whole]
    by_cases cleared : (nbits + 63) / 64 - shift / 64 ≤ i / 64 ∧
        i / 64 < (nbits + 63) / 64 - shift / 64 + shift / 64
    · have inside : i < 64 * ((nbits + 63) / 64) := by omega
      have beyond : ¬i + shift < nbits := by omega
      simp [bit,clearWords,cleared,inside,beyond]
    · have kept : bit (clearWords (shiftLoop (shift / 64) (shift % 64) ((nbits + 63) / 64) (lastWordMask nbits)
          ((nbits + 63) / 64 - shift / 64) m) ((nbits + 63) / 64 - shift / 64) (shift / 64)) i =
          bit (shiftLoop (shift / 64) (shift % 64) ((nbits + 63) / 64) (lastWordMask nbits)
          ((nbits + 63) / 64 - shift / 64) m) i := by
        simp only [bit,clearWords,if_neg cleared]
      have same : i / 64 < (nbits + 63) / 64 - shift / 64 ↔ i < 64 * ((nbits + 63) / 64) := by omega
      rw [kept,looped]
      simp only [same]

def ffs (w : BitVec 64) : Nat := ((List.range 64).find? fun j => w.getLsbD j).getD 64

def findWord (m : Words) (nbits : Nat) (invert : BitVec 64) : Nat → Nat → BitVec 64 → Nat
  | 0,_,_ => nbits
  | fuel+1,start,tmp =>
    if tmp = 0 then
      if nbits ≤ start + 64 then nbits else findWord m nbits invert fuel (start + 64) (m ((start + 64) / 64) ^^^ invert)
    else min (start + ffs tmp) nbits

def findNext (m : Words) (nbits start : Nat) (invert : BitVec 64) : Nat :=
  if nbits ≤ start then nbits
  else findWord m nbits invert nbits (start / 64 * 64) ((m (start / 64) ^^^ invert) &&& firstWordMask start)

def findNextBit (m : Words) (nbits start : Nat) : Nat := findNext m nbits start 0
def findNextZeroBit (m : Words) (nbits start : Nat) : Nat := findNext m nbits start (BitVec.allOnes 64)

structure Next (want : Nat → Bool) (nbits start next : Nat) : Prop where
  low : min start nbits ≤ next
  high : next ≤ nbits
  skipped : ∀ i, start ≤ i → i < next → want i = false
  found : next < nbits → want next = true

theorem ffsLowest {w : BitVec 64} (some : w ≠ 0) : ffs w < 64 ∧ w.getLsbD (ffs w) = true ∧ ∀ j < ffs w, w.getLsbD j = false := by
  cases found : (List.range 64).find? fun j => w.getLsbD j with
  | none =>
    refine absurd (BitVec.eq_of_getLsbD_eq fun j inside => ?_) some
    simpa using List.find?_eq_none.mp found j (mem_range.mpr inside)
  | some k =>
    have lowest := List.find?_range_eq_some.mp found
    simp only [ffs,found,Option.getD_some]
    exact ⟨mem_range.mp lowest.2.1,lowest.1,fun j less => by simpa using lowest.2.2 j less⟩

theorem findWordNext {m : Words} {nbits start : Nat} {invert : BitVec 64} {want : Nat → Bool}
    (words : ∀ k j, j < 64 → (m k ^^^ invert).getLsbD j = want (64 * k + j)) (fuel first : Nat) (tmp : BitVec 64)
    (enough : nbits ≤ first + 64 * fuel) (positive : 0 < fuel) (whole : first % 64 = 0) (inside : start < nbits) (near : start < first + 64)
    (skipped : ∀ i, start ≤ i → i < first → want i = false)
    (shows : ∀ j < 64, tmp.getLsbD j = (decide (start ≤ first + j) && want (first + j))) :
    Next want nbits start (findWord m nbits invert fuel first tmp) := by
  induction fuel generalizing first tmp with
  | zero => omega
  | succ fuel ih =>
    simp only [findWord]
    by_cases none : tmp = 0
    · have passed : ∀ i, start ≤ i → i < first + 64 → want i = false := by
        intro i from_ upto
        by_cases before : i < first
        · exact skipped i from_ before
        · have here := shows (i - first) (by omega)
          simpa [none,show first + (i - first) = i by omega,from_] using here.symm
      rw [if_pos none]
      split
      · exact ⟨by omega,Nat.le_refl _,fun i from_ upto => passed i from_ (by omega),fun less => absurd less (Nat.lt_irrefl _)⟩
      · refine ih (first + 64) _ (by omega) (by omega) (by omega) (by omega) passed fun j small => ?_
        rw [words _ _ small,show 64 * ((first + 64) / 64) + j = first + 64 + j by omega]
        simp [show start ≤ first + 64 + j by omega]
    · rw [if_neg none]
      obtain ⟨small,set,lowest⟩ := ffsLowest none
      rw [shows _ small,Bool.and_eq_true,decide_eq_true_eq] at set
      refine ⟨by omega,Nat.min_le_right _ _,fun i from_ upto => ?_,fun less => ?_⟩
      · by_cases before : i < first
        · exact skipped i from_ before
        · have here := lowest (i - first) (by omega)
          rw [shows _ (by omega)] at here
          simpa [show first + (i - first) = i by omega,from_] using here
      · rw [Nat.min_eq_left (by omega)]
        exact set.2

theorem findNextSpec {m : Words} (nbits start : Nat) {invert : BitVec 64} {want : Nat → Bool}
    (words : ∀ k j, j < 64 → (m k ^^^ invert).getLsbD j = want (64 * k + j)) :
    Next want nbits start (findNext m nbits start invert) := by
  rw [findNext]
  split
  · exact ⟨by omega,Nat.le_refl _,fun i from_ upto => by omega,fun less => absurd less (Nat.lt_irrefl _)⟩
  · refine findWordNext words nbits _ _ (by omega) (by omega) (by omega) (by omega) (by omega) (fun i from_ upto => by omega) ?_
    intro j small
    have mask : firstWordMask start = firstWordMask (start % 64) := by simp [firstWordMask]
    rw [BitVec.getLsbD_and,words _ _ small,mask,firstMaskBit _ _ (Nat.mod_lt _ (by decide)) small,Bool.and_comm,
      show 64 * (start / 64) + j = start / 64 * 64 + j by omega]
    congr 1
    rw [decide_eq_decide]
    omega

theorem findNextBitSpec (m : Words) (nbits start : Nat) : Next (bit m) nbits start (findNextBit m nbits start) :=
  findNextSpec nbits start fun k j small => by simp [bitWord _ _ _ small]

theorem findNextZeroBitSpec (m : Words) (nbits start : Nat) :
    Next (fun i => !bit m i) nbits start (findNextZeroBit m nbits start) :=
  findNextSpec nbits start fun k j small => by
    rw [BitVec.getLsbD_xor,BitVec.getLsbD_allOnes,bitWord _ _ _ small,decide_eq_true small,Bool.xor_true]

def findFirstBit (m : Words) (size : Nat) : Nat := if size = 0 then size else findWord m size 0 size 0 (m 0)

theorem findFirstBitSpec (m : Words) (size : Nat) : Next (bit m) size 0 (findFirstBit m size) := by
  rw [findFirstBit]
  split
  · exact ⟨by omega,Nat.le_refl _,fun i _ less => by omega,fun less => absurd less (Nat.lt_irrefl _)⟩
  · refine findWordNext (fun k j small => by simp [bitWord _ _ _ small]) size 0 _ (by omega) (by omega) (by decide) (by omega)
      (by decide) (fun i _ less => by omega) fun j small => ?_
    have word := bitWord m 0 j small
    simp only [Nat.mul_zero,Nat.zero_add] at word
    simp [word]

theorem bitmapWeightZero (m : Words) (bits : Nat) : bitmapWeight m bits = 0 ↔ ∀ i < bits, bit m i = false := by
  rw [bitmapWeightCount,List.countP_eq_zero]
  simp only [mem_range,Bool.not_eq_true]

def clearLoop (size : Nat) : Nat → Words → Nat → Nat → Nat → BitVec 64 → Words
  | 0,m,p,len,_,mask => if len = 0 then m else store m p (m p &&& ~~~(mask &&& lastWordMask size))
  | fuel+1,m,p,len,bits,mask =>
    if bits ≤ len then clearLoop size fuel (store m p (m p &&& ~~~mask)) (p + 1) (len - bits) 64 (BitVec.allOnes 64)
    else if len = 0 then m else store m p (m p &&& ~~~(mask &&& lastWordMask size))

def bitmapClear (m : Words) (start len : Nat) : Words :=
  clearLoop (start + len) len m (start / 64) len (64 - start % 64) (firstWordMask start)

def complement (m : Words) : Words := fun k => ~~~m k

@[simp] theorem bitComplement (m : Words) (i : Nat) : bit (complement m) i = !bit m i := by
  simp [bit,complement,Nat.mod_lt i (show 0 < 64 by decide)]

theorem storeComplement (m : Words) (k : Nat) (w : BitVec 64) :
    complement (store m k (m k &&& ~~~w)) = store (complement m) k (complement m k ||| w) := by
  funext j
  by_cases same : j = k <;> simp [complement,store,same,BitVec.not_and]

theorem clearLoopSet (size fuel : Nat) (m : Words) (p len bits : Nat) (mask : BitVec 64) :
    complement (clearLoop size fuel m p len bits mask) = setWords size fuel (complement m) p len bits mask := by
  induction fuel generalizing m p len bits mask with
  | zero =>
    simp only [clearLoop,setWords]
    split
    · rfl
    · rw [storeComplement]
  | succ fuel ih =>
    simp only [clearLoop,setWords]
    split
    · rw [ih,storeComplement]
    · split
      · rfl
      · rw [storeComplement]

theorem bitmapClearBit (m : Words) (start len i : Nat) :
    bit (bitmapClear m start len) i = (bit m i && !decide (start ≤ i ∧ i < start + len)) := by
  have set := bitmapSetBit (complement m) start len i
  rw [bitmapSet,← clearLoopSet,bitComplement,bitComplement] at set
  rw [← Bool.not_inj_iff,Bool.not_and,Bool.not_not]
  exact set

theorem bitmapClearOne (m : Words) (k i : Nat) : bit (bitmapClear m k 1) i = (bit m i && !decide (i = k)) := by
  rw [bitmapClearBit,decide_eq_decide.mpr (show k ≤ i ∧ i < k + 1 ↔ i = k by omega)]

def findFirstZeroBit (m : Words) (size : Nat) : Nat := findFirstBit (complement m) size

theorem findFirstZeroBitSpec (m : Words) (size : Nat) : Next (fun i => !bit m i) size 0 (findFirstZeroBit m size) := by
  have first := findFirstBitSpec (complement m) size
  have same : bit (complement m) = fun i => !bit m i := funext (bitComplement m)
  rwa [same] at first

end LineFS.Bitmap
