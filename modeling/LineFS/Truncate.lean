import LineFS.ReadPath
import LineFS.Shrink

/-! Truncation of a file of LibFS: `itrunc` sets the size, logs the inode, and drops the cached pieces if
the new length is zero. The published file keeps its blocks until `digest_inode` unmaps those behind the new
end. A predicate marks the bytes that were written behind it. -/
namespace LineFS.Truncate
open Base Kernfs Placement Overlay ReadPath Extents
open LineFS.Shrink (startBlk endBlk)

variable {β : Type}

def dinodeSize : Nat := 256

/- The size is set before it is compared, so the branch for other lengths than zero is not taken. `cached` are
the blocks with `is_data_cached`. -/
def itrunc (cached : Nat → Bool) (s : LibFS β) (length : Nat) : LibFS β :=
  let s := { s with size := length }
  if length = 0 then { s with fcache := fun _ => none }
  else if length < s.size then
    { s with fcache := fun key => if key ≤ s.size / gBlockSizeBytes ∧ cached key then none else s.fcache key }
  else s

def commitInode (dinode : Nat → β) (s : LibFS β) : LibFS β :=
  { s with
    nextAvailHeader := s.nextAvailHeader + 2
    log := Copy.execute s.log ⟨(s.nextAvailHeader + 1) * gBlockSizeBytes,dinodeSize,dinode⟩ }

def mlfsPosixFtruncate (cached : Nat → Bool) (dinode : Nat → β) (s : LibFS β) (length : Nat) : LibFS β :=
  commitInode dinode (itrunc cached s length)

def digestInode (pub : Published β) (length : Nat) : Option (Published β) :=
  if length < pub.size then
    if extMaxBlocks - 1 ≤ endBlk pub.size then none
    else some { pub with size := length, ext := fun l => if startBlk length ≤ l ∧ l ≤ endBlk pub.size then none else pub.ext l }
  else some { pub with size := length }

def Updated (pub pub' : Published β) (length : Nat) : Prop := pub' = pub ∨ digestInode pub length = some pub'

def remaining (length : Nat) (olds : List (Copy β)) : List (Copy β) := if length = 0 then [] else olds

/- `stale` marks the bytes that were written behind the new length before the truncation; `written` are the
positions that published writes have reached. -/
structure Labelled (stale : β → Prop) (length : Nat) (olds news : List (Copy β)) (pub : Published β) (written : Nat → Prop)
    (buf : Nat → β) : Prop where
  olds : ∀ w ∈ olds, ∀ i < w.len, stale (w.byte i) ↔ length ≤ w.dst + i
  news : ∀ w ∈ news, ∀ i < w.len, ¬stale (w.byte i)
  published : ∀ a b, pub.ext (a / gBlockSizeBytes) = some b → (stale (published pub a b) ↔ length ≤ a ∧ written a)
  buffer : ∀ a, ¬stale (buf a)

def Forgets (stale : β → Prop) (t : LibFS β) (pub : Published β) (buf : Nat → β) (off n : Nat) : Prop :=
  ∃ count out, readi t pub buf off n = some (count,out) ∧ ∀ a, off ≤ a → a < off + count → ¬stale (out a)

def Fetched (pub : Published β) (ws : List (Copy β)) (off n a : Nat) : Prop :=
  pub.ext (a / gBlockSizeBytes) ≠ none ∧
  (Whole off n (a / gBlockSizeBytes) → logged ws (a / gBlockSizeBytes) ≠ gBlockSizeBytes ∧
    ∀ k < a / gBlockSizeBytes, Whole off n k → logged ws k ≠ gBlockSizeBytes → pub.ext k ≠ none)

/- Behind the new length, a position that was not written again must have no cached piece left and must not
show a published byte. -/
def Covered (length : Nat) (olds news : List (Copy β)) (pub : Published β) (written : Nat → Prop) (off n : Nat) : Prop :=
  ∀ a, off ≤ a → a < off + n → length ≤ a → (∃ w ∈ news, w.Covers a) ∨
    (¬∃ w ∈ remaining length olds, w.Covers a) ∧ ¬(Fetched pub (remaining length olds ++ news) off n a ∧ written a)

section Truncates
variable {s : LibFS β} {olds ws : List (Copy β)} {cached : Nat → Bool} {dinode : Nat → β} {length : Nat}

theorem itruncEffect (cached : Nat → Bool) (s : LibFS β) (length : Nat) : itrunc cached s length =
    { s with size := length, fcache := if length = 0 then fun _ => none else s.fcache } := by
  simp only [itrunc,Nat.lt_irrefl,if_false]
  split <;> rfl

theorem itruncCurrent (h : Current s s.nextAvailHeader olds) :
    Current (itrunc cached s length) s.nextAvailHeader (remaining length olds) := by
  rw [itruncEffect,remaining]
  by_cases zero : length = 0
  · rw [if_pos zero,if_pos zero]
    exact ⟨nofun,nofun,fun _ _ => rfl,fun _ => rfl⟩
  · rw [if_neg zero,if_neg zero]
    exact ⟨h.version,h.piece,h.patched,h.counted⟩

theorem commitCurrent (h : Current s s.nextAvailHeader ws) :
    Current (commitInode dinode s) (commitInode dinode s).nextAvailHeader ws := by
  have kept : ∀ a < s.nextAvailHeader * gBlockSizeBytes, (commitInode dinode s).log a = s.log a := by
    intro a below
    refine if_neg fun covers => ?_
    have low := covers.1
    simp only [gBlockSizeBytes] at *
    omega
  refine currentBound ⟨h.version,h.piece,fun mem p => ?_,h.counted⟩ (Nat.le_add_right _ 2)
  exact patchesKept h kept mem p

theorem truncateCurrent (h : Current s s.nextAvailHeader olds) :
    Current (mlfsPosixFtruncate cached dinode s length) (mlfsPosixFtruncate cached dinode s length).nextAvailHeader
      (remaining length olds) := by
  have same : (itrunc cached s length).nextAvailHeader = s.nextAvailHeader := by rw [itruncEffect]
  have cut : Current (itrunc cached s length) (itrunc cached s length).nextAvailHeader (remaining length olds) := by
    rw [same]
    exact itruncCurrent h
  exact commitCurrent cut

theorem truncateSize : (mlfsPosixFtruncate cached dinode s length).size = length := by
  show (itrunc cached s length).size = length
  rw [itruncEffect]

end Truncates

section Published
variable {pub pub' : Published β} {length l b : Nat}

theorem updatedDisk (updated : Updated pub pub' length) : pub'.disk = pub.disk := by
  rcases updated with rfl | digested
  · rfl
  · simp only [digestInode] at digested
    split at digested
    · split at digested <;> try contradiction
      exact (Option.some.inj digested) ▸ rfl
    · exact (Option.some.inj digested) ▸ rfl

theorem updatedExt (updated : Updated pub pub' length) (mapped : pub'.ext l = some b) : pub.ext l = some b := by
  rcases updated with rfl | digested
  · exact mapped
  · simp only [digestInode] at digested
    split at digested
    · obtain ⟨_,rfl⟩ := unlessTaken digested
      simp only at mapped
      split at mapped <;> try contradiction
      exact mapped
    · cases digested
      exact mapped

/- On a published file whose map is that of an extent tree, this is the digest of the tree. -/
theorem digestRefines {σ : Type} {A : Allocator σ} {used : σ → Nat → Prop} {f : Unlink.File σ} (law : Lawful A used)
    (good : Unlink.Good used f.space f.tree) (size : pub.size = f.size) (map : pub.ext = f.tree.map) :
    (digestInode pub length).map (fun p => (p.size,p.ext)) =
      (Shrink.digestInode A f length).map fun d => (d.file.size,d.file.tree.map) := by
  by_cases smaller : length < f.size
  · by_cases far : extMaxBlocks - 1 ≤ endBlk f.size
    · rw [digestInode,Shrink.digestInode,size,if_pos smaller,if_pos smaller,if_pos far,mlfsExtRemoveSpace,if_pos far]
      rfl
    · obtain ⟨r,done,removes⟩ := Shrink.inodeRemoves law good smaller (by omega)
      rw [done,digestInode,size,if_pos smaller,if_neg far,Option.map_some,Option.map_some,map]
      refine congrArg some (Prod.ext rfl (funext fun l => ?_))
      exact (removes.map l).symm
  · rw [digestInode,Shrink.digestInode,size,if_neg smaller,if_neg smaller]
    exact congrArg some (Prod.ext rfl map)

end Published

section Reads
variable {stale : β → Prop} {s t : LibFS β} {olds news : List (Copy β)} {pub pub' : Published β} {written : Nat → Prop}
  {buf : Nat → β} {length off n a : Nat}

theorem remainingMem {w : Copy β} (mem : w ∈ remaining length olds) : w ∈ olds := by
  simp only [remaining] at mem
  split at mem
  · exact nomatch mem
  · exact mem

theorem shownStale (label : Labelled stale length olds news pub written buf) (updated : Updated pub pub' length) (ws : List (Copy β)) :
    stale (shown pub' ws off n buf a) ↔ length ≤ a ∧ Fetched pub' ws off n a ∧ written a := by
  have blank : ¬stale (buf a) := label.buffer a
  simp only [shown]
  by_cases reached : Whole off n (a / gBlockSizeBytes) → logged ws (a / gBlockSizeBytes) ≠ gBlockSizeBytes ∧
      ∀ k < a / gBlockSizeBytes, Whole off n k → logged ws k ≠ gBlockSizeBytes → pub'.ext k ≠ none
  · rw [if_pos reached]
    cases mapped : pub'.ext (a / gBlockSizeBytes) with
    | none => exact iff_of_false blank fun fetched => fetched.2.1.1 mapped
    | some b =>
      have same : published pub' a b = published pub a b := by rw [published,published,updatedDisk updated]
      have fetched : Fetched pub' ws off n a := ⟨by simp [mapped],reached⟩
      rw [Option.map_some,Option.getD_some,same,label.published a b (updatedExt updated mapped)]
      exact and_congr_right fun _ => (and_iff_right fetched).symm
  · rw [if_neg reached]
    exact iff_of_false blank fun fetched => reached fetched.2.1.2

theorem byteStale (label : Labelled stale length olds news pub written buf) (updated : Updated pub pub' length) :
    stale (Copy.executeAll (remaining length olds ++ news) (fun _ => shown pub' (remaining length olds ++ news) off n buf a) a) ↔
      length ≤ a ∧ (¬∃ w ∈ news, w.Covers a) ∧
        ((∃ w ∈ remaining length olds, w.Covers a) ∨ Fetched pub' (remaining length olds ++ news) off n a ∧ written a) := by
  rw [Copy.executeAppend]
  generalize base : shown pub' (remaining length olds ++ news) off n buf a = v
  by_cases again : ∃ w ∈ news, w.Covers a
  · obtain ⟨w,mem,covers,value⟩ := Copy.executeFrom again
    rw [value]
    refine iff_of_false (label.news w mem _ ?_) fun old => old.2.1 again
    exact Nat.sub_lt_left_of_lt_add covers.1 covers.2
  · rw [Copy.executeMiss fun w mem covers => again ⟨w,mem,covers⟩,and_iff_right again]
    by_cases cached : ∃ w ∈ remaining length olds, w.Covers a
    · obtain ⟨w,mem,covers,value⟩ := Copy.executeFrom cached
      have place : w.dst + (a - w.dst) = a := Nat.add_sub_cancel' covers.1
      rw [value,label.olds w (remainingMem mem) _ (Nat.sub_lt_left_of_lt_add covers.1 covers.2),place]
      exact (and_iff_left (.inl cached)).symm
    · rw [Copy.executeMiss fun w mem covers => cached ⟨w,mem,covers⟩,← base,shownStale label updated]
      exact and_congr_right fun _ => (or_iff_right cached).symm

theorem truncateForgets {start : Published β} {log : Nat → β} {next version : Nat} {cached : Nat → Bool} {dinode : Nat → β}
    (before : run mlfsFileWrite (opened start log next version) olds = some s)
    (after_ : run mlfsFileWrite (mlfsPosixFtruncate cached dinode s length) news = some t)
    (updated : Updated pub pub' length) (label : Labelled stale length olds news pub written buf)
    (inside : off < news.foldl grown length) :
    Forgets stale t pub' buf off n ↔ Covered length olds news pub' written off (min n (news.foldl grown length - off)) := by
  obtain ⟨first,_⟩ := runCurrent (openedCurrent start log next version) before
  rw [List.nil_append] at first
  obtain ⟨current,size⟩ := runCurrent (truncateCurrent first) after_
  rw [truncateSize] at size
  have here : off < t.size := by rw [size]; exact inside
  have read : ∃ out, readi t pub' buf off n = some (min n (t.size - off),out) ∧ ∀ a, off ≤ a → a < off + min n (t.size - off) →
      out a = Copy.executeAll (remaining length olds ++ news)
        (fun _ => shown pub' (remaining length olds ++ news) off (min n (t.size - off)) buf a) a := readiByte current here buf
  obtain ⟨out,done,bytes⟩ := read
  rw [size] at done bytes
  have fresh (a : Nat) (low : off ≤ a) (high : a < off + min n (news.foldl grown length - off)) : ¬stale (out a) ↔
      (length ≤ a → (∃ w ∈ news, w.Covers a) ∨ (¬∃ w ∈ remaining length olds, w.Covers a) ∧
        ¬(Fetched pub' (remaining length olds ++ news) off (min n (news.foldl grown length - off)) a ∧ written a)) := by
    rw [bytes a low high,byteStale label updated,not_and]
    exact forall_congr' fun _ => by rw [not_and_or,not_not,not_or]
  constructor
  · rintro ⟨count,out',done',clean⟩ a low high
    cases Option.some.inj (done.symm.trans done')
    exact (fresh a low high).mp (clean a low high)
  · intro covered
    exact ⟨_,out,done,fun a low high => (fresh a low high).mpr (covered a low high)⟩

end Reads

theorem wholeExtent (n : Nat) (some : 0 < n) : 0 < n ∧ n ≤ n := ⟨some,Nat.le_refl n⟩

def noFile : Published UInt8 := ⟨0,fun _ => none,fun _ n => n,fun _ => wholeExtent,fun _ => 0⟩

def oldWrite : Copy UInt8 := ⟨0,200,fun i => if i < 100 then 3 else 1⟩
def newWrite (dst len : Nat) : Copy UInt8 := ⟨dst,len,fun _ => 2⟩

def isOld (v : UInt8) : Prop := v = 1

theorem oldLabelled (dst len : Nat) :
    Labelled isOld 100 [oldWrite] [newWrite dst len] noFile (fun _ => False) (fun _ => 0) := by
  refine ⟨fun w mem i small => ?_,fun w mem i _ => ?_,nofun,fun _ => by simp [isOld]⟩
  · cases List.mem_singleton.mp mem
    have start : oldWrite.dst = 0 := rfl
    rw [start,Nat.zero_add]
    simp only [oldWrite,isOld]
    split
    · exact iff_of_false (by decide) (by omega)
    · exact iff_of_true rfl (by omega)
  · cases List.mem_singleton.mp mem
    simp [newWrite,isOld]

theorem truncateForgetsRewritten : ∃ s t, run mlfsFileWrite (opened noFile (fun _ => 0) 10 1) [oldWrite] = some s ∧
    run mlfsFileWrite (mlfsPosixFtruncate (fun _ => false) (fun _ => 0) s 100) [newWrite 100 200] = some t ∧
    Forgets isOld t noFile (fun _ => 0) 0 300 := by
  have trace : ((run mlfsFileWrite (opened noFile (fun _ => 0) 10 1) [oldWrite]).bind fun s =>
      run mlfsFileWrite (mlfsPosixFtruncate (fun _ => false) (fun _ => 0) s 100) [newWrite 100 200]).isSome = true := by decide +kernel
  obtain ⟨t,ran⟩ := Option.isSome_iff_exists.mp trace
  obtain ⟨s,before,after_⟩ := Option.bind_eq_some_iff.mp ran
  refine ⟨s,t,before,after_,(truncateForgets before after_ (.inl rfl) (oldLabelled 100 200) (by decide)).mpr ?_⟩
  intro a _ high behind
  have short : min 300 (List.foldl grown 100 [newWrite 100 200] - 0) ≤ 300 := Nat.min_le_left _ _
  exact .inl ⟨_,List.mem_singleton_self _,behind,by simp only [newWrite]; omega⟩

/- A file of 200 bytes is cut to 100 and written again from 300 on. Byte 150 comes back from the file cache or,
if the file was published, from its last block. -/
theorem truncateKeepsPieces :
    (∃ s t, run mlfsFileWrite (opened noFile (fun _ => 0) 10 1) [oldWrite] = some s ∧
      run mlfsFileWrite (mlfsPosixFtruncate (fun _ => false) (fun _ => 0) s 100) [newWrite 300 10] = some t ∧
      Labelled isOld 100 [oldWrite] [newWrite 300 10] noFile (fun _ => False) (fun _ => 0) ∧
      ¬Forgets isOld t noFile (fun _ => 0) 150 1) ∧
    ∃ pub', digestInode oneBlock 100 = some pub' ∧
      ((run mlfsFileWrite (mlfsPosixFtruncate (fun _ => false) (fun _ => 0) (opened oneBlock (fun _ => 0) 10 1) 100) [newWrite 300 10]).bind
        fun t => readi t pub' (fun _ => 0) 150 1).map (fun r => r.2 150) = some 7 := by
  constructor
  · have trace : ((run mlfsFileWrite (opened noFile (fun _ => 0) 10 1) [oldWrite]).bind fun s =>
        (run mlfsFileWrite (mlfsPosixFtruncate (fun _ => false) (fun _ => 0) s 100) [newWrite 300 10]).bind fun t =>
          (readi t noFile (fun _ => 0) 150 1).map fun r => (r.1,r.2 150)) = some (1,1) := by decide +kernel
    obtain ⟨s,before,rest⟩ := Option.bind_eq_some_iff.mp trace
    obtain ⟨t,after_,read⟩ := Option.bind_eq_some_iff.mp rest
    refine ⟨s,t,before,after_,oldLabelled 300 10,?_⟩
    rintro ⟨count,out,done,clean⟩
    rw [done] at read
    obtain ⟨one,byte⟩ := Prod.mk.inj (Option.some.inj read)
    exact clean 150 (Nat.le_refl _) (by simp only at one; omega) byte
  · refine ⟨_,rfl,?_⟩
    decide +kernel

end LineFS.Truncate
