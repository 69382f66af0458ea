import LineFS.Base.Copy
import LineFS.Base.Keyed
import LineFS.Config

/-! The shared area of KernFS as the digest of `kernfs/digest.c` changes it: the inodes with their extent
trees, and the memcpy lists of `digest_file`. The block allocator is a parameter; `Lawful` is what the
digest relies on. A failed assertion is `none`. -/
namespace LineFS.Kernfs
open Base

inductive IType where
  | free | dir | file | dev
  deriving DecidableEq, Repr

structure Dinode where
  itype : IType
  size : Nat
  deriving DecidableEq, Repr

/- An in-memory inode: `deleting` is the flag `I_DELETING`, `ext` the extent tree
as the map from logical to device blocks that it represents. -/
structure Inode where
  itype : IType
  size : Nat
  deleting : Bool
  ext : Nat → Option Nat

structure Memcpy where
  isSingleBlk : Bool
  blkNr : Nat
  data : Nat
  size : Nat
  offsetInBlk : Nat
  deriving DecidableEq, Repr

def Memcpy.dst (m : Memcpy) : Nat :=
  m.blkNr * gBlockSizeBytes + if m.isSingleBlk then m.offsetInBlk else 0

def Memcpy.copy {β : Type} (log : Nat → β) (m : Memcpy) : Copy β := ⟨m.dst,m.size,fun k => log (m.data + k)⟩

structure Grant (σ : Type) where
  space : σ
  first : Nat
  count : Nat

/- `alloc` grants consecutive blocks, perhaps fewer than asked for. `extentLen` is how many of the blocks from
a device block on lie in the same extent. -/
structure Allocator (σ : Type) where
  alloc : σ → Nat → Grant σ
  free : σ → Nat → σ
  extentLen : σ → Nat → Nat → Nat

structure Lawful {σ : Type} (A : Allocator σ) (used : σ → Nat → Prop) : Prop where
  counted : ∀ s n, 0 < n → 0 < (A.alloc s n).count ∧ (A.alloc s n).count ≤ n
  fresh : ∀ s n b, (A.alloc s n).first ≤ b → b < (A.alloc s n).first + (A.alloc s n).count → ¬ used s b
  marked : ∀ s n b, used (A.alloc s n).space b ↔
    used s b ∨ (A.alloc s n).first ≤ b ∧ b < (A.alloc s n).first + (A.alloc s n).count
  kept : ∀ s b c, used s c → c ≠ b → used (A.free s b) c
  unmarked : ∀ s b c, used (A.free s b) c → used s c
  extent : ∀ s b n, 0 < n → 0 < A.extentLen s b n ∧ A.extentLen s b n ≤ n

structure Fs (σ : Type) where
  inode : Nat → Option Inode
  space : σ

variable {σ : Type} (A : Allocator σ)

def Fs.put (fs : Fs σ) (inum : Nat) (ino : Inode) (space : σ) : Fs σ :=
  ⟨fun i => if i = inum then some ino else fs.inode i,space⟩

def runLength (ext : Nat → Option Nat) (lblk pblk : Nat) : Nat → Nat
  | 0 => 0
  | n + 1 => if ext lblk = some pblk then runLength ext (lblk + 1) (pblk + 1) n + 1 else 0

def gapLength (ext : Nat → Option Nat) (lblk : Nat) : Nat → Nat
  | 0 => 0
  | n + 1 => if ext lblk = none then gapLength ext (lblk + 1) n + 1 else 0

structure Mapped (σ : Type) where
  space : σ
  ext : Nat → Option Nat
  pblk : Nat
  len : Nat

def mapRange (ext : Nat → Option Nat) (lblk first count : Nat) : Nat → Option Nat :=
  fun l => if lblk ≤ l ∧ l < lblk + count then some (first + (l - lblk)) else ext l

/- A mapped block answers with the rest of its extent, an unmapped one with new
blocks up to the next mapped one. -/
def mlfsExtGetBlocks (space : σ) (ext : Nat → Option Nat) (lblk len : Nat) : Mapped σ :=
  match ext lblk with
  | some pblk => ⟨space,ext,pblk,A.extentLen space pblk (runLength ext lblk pblk len)⟩
  | none =>
    let g := A.alloc space (gapLength ext lblk len)
    ⟨g.space,mapRange ext lblk g.first g.count,g.first,g.count⟩

def mlfsExtTruncate (space : σ) (ext : Nat → Option Nat) (start last : Nat) : σ × (Nat → Option Nat) :=
  (((List.range' start (last + 1 - start)).filterMap ext).foldl A.free space,
    fun l => if start ≤ l ∧ l ≤ last then none else ext l)

def emptyExt : Nat → Option Nat := fun _ => none

-- The inode `digest_inode` works on: cached, allocated by `ialloc`, or reused.
def snapshotTarget (ino : Option Inode) (src : Dinode) : Inode :=
  match ino with
  | none => ⟨src.itype,0,false,emptyExt⟩
  | some ino => if ino.deleting then { ino with deleting := false, itype := src.itype } else ino

def digestInode (fs : Fs σ) (inum : Nat) (src : Dinode) : Fs σ :=
  let ino := snapshotTarget (fs.inode inum) src
  if ino.itype = .file ∧ src.size < ino.size then
    let startBlk := src.size / gBlockSizeBytes + if src.size % gBlockSizeBytes ≠ 0 then 1 else 0
    let cut := mlfsExtTruncate A fs.space ino.ext startBlk (ino.size / gBlockSizeBytes)
    fs.put inum { ino with size := src.size, ext := cut.2 } cut.1
  else fs.put inum { ino with size := src.size } fs.space

def getBlkCntFromLength (length : Nat) : Nat :=
  if length < gBlockSizeBytes then 1
  else length / gBlockSizeBytes + if length % gBlockSizeBytes ≠ 0 then 1 else 0

structure Placed (σ : Type) where
  space : σ
  ext : Nat → Option Nat
  memcpys : List Memcpy

def digestBlocks : Nat → Placed σ → Nat → Nat → Nat → Option (Placed σ)
  | _, p, _, _, 0 => some p
  | 0, _, _, _, _ => none
  | rounds + 1, p, curOffset, data, left + 1 =>
    if curOffset % gBlockSizeBytes ≠ 0 then none
    else
      let m := mlfsExtGetBlocks A p.space p.ext (curOffset / gBlockSizeBytes) (left + 1)
      if m.len = 0 ∨ left + 1 < m.len then none
      else
        digestBlocks rounds ⟨m.space,m.ext,p.memcpys ++ [⟨false,m.pblk,data,m.len * gBlockSizeBytes,0⟩]⟩
          (curOffset + m.len * gBlockSizeBytes) (data + m.len * gBlockSizeBytes) (left + 1 - m.len)

def placeFile (space : σ) (ext : Nat → Option Nat) (offset length blknr : Nat) : Option (Placed σ) :=
  let nrBlocks := getBlkCntFromLength length
  let data := blknr * gBlockSizeBytes
  let offsetInBlock := offset % gBlockSizeBytes
  if length < gBlockSizeBytes ∨ offsetInBlock ≠ 0 then
    let len := min length (gBlockSizeBytes - offsetInBlock)
    let m := mlfsExtGetBlocks A space ext (offset / gBlockSizeBytes) 1
    digestBlocks A nrBlocks ⟨m.space,m.ext,[⟨true,m.pblk,data + offsetInBlock,len,offsetInBlock⟩]⟩
      (offset + len) (data + len) (nrBlocks - 1)
  else digestBlocks A nrBlocks ⟨space,ext,[]⟩ offset data nrBlocks

def digestFile (fs : Fs σ) (inum offset length blknr : Nat) : Option (Fs σ × List Memcpy) :=
  match fs.inode inum with
  | none => none
  | some ino =>
    (placeFile A fs.space ino.ext offset length blknr).map fun p =>
      (fs.put inum { ino with size := max ino.size (offset + length), ext := p.ext } p.space,p.memcpys)

def digestUnlink (fs : Fs σ) (inum : Nat) : Fs σ :=
  let ino := (fs.inode inum).getD ⟨.free,0,false,emptyExt⟩
  let last := ino.size / gBlockSizeBytes
  let space :=
    if 0 < ino.size then (mlfsExtTruncate A fs.space ino.ext 0 (if last = 0 then last else last - 1)).1
    else fs.space
  fs.put inum ⟨.free,0,true,emptyExt⟩ space

inductive Op where
  | inode (inum blknr : Nat)
  | file (inum offset length blknr : Nat)
  | unlink (inum blknr : Nat)
  deriving DecidableEq, Repr

def Op.inum : Op → Nat
  | .inode i _ => i
  | .file i _ _ _ => i
  | .unlink i _ => i

def Op.blknr : Op → Nat
  | .inode _ b => b
  | .file _ _ _ b => b
  | .unlink _ b => b

def Op.isInode : Op → Bool
  | .inode _ _ => true
  | _ => false

def Op.isFile : Op → Bool
  | .file _ _ _ _ => true
  | _ => false

def Op.isUnlink : Op → Bool
  | .unlink _ _ => true
  | _ => false

structure Digest (σ : Type) where
  fs : Fs σ
  memcpys : List Memcpy

def digestOp (area : Nat → Dinode) (d : Digest σ) : Op → Option (Digest σ)
  | .inode inum blknr => some { d with fs := digestInode A d.fs inum (area blknr) }
  | .file inum offset length blknr =>
    (digestFile A d.fs inum offset length blknr).map fun r => ⟨r.1,d.memcpys ++ r.2⟩
  | .unlink inum _ => some { d with fs := digestUnlink A d.fs inum }

def Inode.live (ino : Inode) : Bool := !ino.deleting && ino.itype != .free
def Fs.live (fs : Fs σ) (inum : Nat) : Bool := ((fs.inode inum).map Inode.live).getD false

section put
variable {fs : Fs σ} {inum i : Nat} {ino : Inode} {space : σ}

@[simp] theorem putSame : (fs.put inum ino space).inode inum = some ino := by simp [Fs.put]
theorem putOther (other : inum ≠ i) : (fs.put inum ino space).inode i = fs.inode i := by
  simp [Fs.put,Ne.symm other]
end put

theorem runWithin (ext : Nat → Option Nat) (lblk pblk len : Nat) :
    runLength ext lblk pblk len ≤ len ∧ ∀ j < runLength ext lblk pblk len, ext (lblk + j) = some (pblk + j) := by
  induction len generalizing lblk pblk with
  | zero => exact ⟨Nat.le_refl 0,fun j lt => absurd lt (Nat.not_lt_zero j)⟩
  | succ n ih =>
    simp only [runLength]
    split
    · rename_i here
      obtain ⟨short,rest⟩ := ih (lblk + 1) (pblk + 1)
      refine ⟨by omega,fun j lt => ?_⟩
      cases j with
      | zero => exact here
      | succ j =>
        have next := rest j (by omega)
        rwa [Nat.add_right_comm lblk,Nat.add_right_comm pblk] at next
    · exact ⟨Nat.zero_le _,fun j lt => absurd lt (Nat.not_lt_zero j)⟩

theorem gapWithin (ext : Nat → Option Nat) (lblk len : Nat) :
    gapLength ext lblk len ≤ len ∧ ∀ j < gapLength ext lblk len, ext (lblk + j) = none := by
  induction len generalizing lblk with
  | zero => exact ⟨Nat.le_refl 0,fun j lt => absurd lt (Nat.not_lt_zero j)⟩
  | succ n ih =>
    simp only [gapLength]
    split
    · rename_i here
      obtain ⟨short,rest⟩ := ih (lblk + 1)
      refine ⟨by omega,fun j lt => ?_⟩
      cases j with
      | zero => exact here
      | succ j =>
        have next := rest j (by omega)
        rwa [Nat.add_right_comm lblk] at next
    · exact ⟨Nat.zero_le _,fun j lt => absurd lt (Nat.not_lt_zero j)⟩

theorem runPositive {ext : Nat → Option Nat} {lblk pblk len : Nat} (mapped : ext lblk = some pblk) (ask : 0 < len) :
    0 < runLength ext lblk pblk len := by
  obtain ⟨n,rfl⟩ := Nat.exists_eq_add_of_lt ask
  simp [runLength,mapped]

theorem gapPositive {ext : Nat → Option Nat} {lblk len : Nat} (hole : ext lblk = none) (ask : 0 < len) :
    0 < gapLength ext lblk len := by
  obtain ⟨n,rfl⟩ := Nat.exists_eq_add_of_lt ask
  simp [gapLength,hole]

theorem digestBlocksDone (rounds : Nat) (p : Placed σ) (curOffset data : Nat) :
    digestBlocks A rounds p curOffset data 0 = some p := by cases rounds <;> rfl

section lawful
variable {A} {used : σ → Nat → Prop} (law : Lawful A used)
include law

theorem getBlocksLen (space : σ) (ext : Nat → Option Nat) (lblk : Nat) {len : Nat} (ask : 0 < len) :
    0 < (mlfsExtGetBlocks A space ext lblk len).len ∧ (mlfsExtGetBlocks A space ext lblk len).len ≤ len := by
  unfold mlfsExtGetBlocks
  split
  · rename_i pblk mapped
    have got := law.extent space pblk _ (runPositive mapped ask)
    exact ⟨got.1,Nat.le_trans got.2 (runWithin ext lblk pblk len).1⟩
  · rename_i hole
    have got := law.counted space _ (gapPositive hole ask)
    exact ⟨got.1,Nat.le_trans got.2 (gapWithin ext lblk len).1⟩

theorem digestBlocksSome (rounds : Nat) (p : Placed σ) (curOffset data left : Nat)
    (aligned : curOffset % gBlockSizeBytes = 0) (enough : left ≤ rounds) :
    ∃ q, digestBlocks A rounds p curOffset data left = some q := by
  induction rounds generalizing p curOffset data left with
  | zero =>
    obtain rfl : left = 0 := by omega
    exact ⟨p,rfl⟩
  | succ rounds ih =>
    cases left with
    | zero => exact ⟨p,rfl⟩
    | succ left =>
      have got := getBlocksLen law p.space p.ext (curOffset / gBlockSizeBytes)
        (show 0 < left + 1 from Nat.succ_pos left)
      have fine : ¬ ((mlfsExtGetBlocks A p.space p.ext (curOffset / gBlockSizeBytes) (left + 1)).len = 0 ∨
          left + 1 < (mlfsExtGetBlocks A p.space p.ext (curOffset / gBlockSizeBytes) (left + 1)).len) := by omega
      simp only [digestBlocks,aligned,ne_eq,not_true_eq_false,if_false,if_neg fine]
      exact ih _ _ _ _ (by rw [Nat.add_mul_mod_self_right]; exact aligned) (by omega)

theorem placeSome (space : σ) (ext : Nat → Option Nat) (offset length blknr : Nat) :
    ∃ p, placeFile A space ext offset length blknr = some p := by
  simp only [placeFile]
  split
  · by_cases short : length < gBlockSizeBytes
    · have one : getBlkCntFromLength length - 1 = 0 := by simp [getBlkCntFromLength,short]
      rw [one]
      exact ⟨_,digestBlocksDone A _ _ _ _⟩
    · apply digestBlocksSome law _ _ _ _ _ ?_ (Nat.sub_le _ 1)
      simp only [gBlockSizeBytes] at *
      omega
  · rename_i whole
    exact digestBlocksSome law _ _ _ _ _ (by omega) (Nat.le_refl _)

end lawful

def nextBlk (inUse : List Nat) : Nat := inUse.foldr max 0 + 1

def topAllocator : Allocator (List Nat) where
  alloc inUse n := ⟨List.range' (nextBlk inUse) n ++ inUse,nextBlk inUse,n⟩
  free inUse b := inUse.filter fun c => c != b
  extentLen _ _ n := n

theorem topFresh {inUse : List Nat} {b : Nat} (mem : b ∈ inUse) : b < nextBlk inUse := by
  induction inUse with
  | nil => exact nomatch mem
  | cons c rest ih =>
    simp only [nextBlk,List.foldr_cons] at *
    rcases List.mem_cons.mp mem with rfl | mem
    · omega
    · have := ih mem
      omega

theorem topLawful : Lawful topAllocator fun inUse b => b ∈ inUse where
  counted _ n pos := ⟨pos,Nat.le_refl n⟩
  fresh inUse _ b above _ mem := absurd (topFresh mem) (Nat.not_lt.mpr above)
  marked inUse n b := by simp [topAllocator,List.mem_range'_1,or_comm]
  kept inUse b c mem other := by simp [topAllocator,mem,other]
  unmarked inUse b c mem := (List.mem_filter.mp mem).1
  extent _ _ n pos := ⟨pos,Nat.le_refl n⟩

/- What one call does to the life of its inode number: a write needs a live
inode, and a snapshot has a type. -/
def opAlive (area : Nat → Dinode) : Bool → Op → Option Bool
  | _, .inode _ blknr => if (area blknr).itype = .free then none else some true
  | alive, .file _ _ _ _ => if alive then some true else none
  | _, .unlink _ _ => some false

def Typed (fs : Fs σ) : Prop := ∀ i ino, fs.inode i = some ino → ino.deleting = false → ino.itype ≠ .free

theorem digestInodePut (fs : Fs σ) (inum : Nat) (src : Dinode) :
    ∃ ext space, digestInode A fs inum src =
      fs.put inum { snapshotTarget (fs.inode inum) src with size := src.size, ext := ext } space := by
  unfold digestInode
  dsimp only
  split
  · exact ⟨_,_,rfl⟩
  · exact ⟨(snapshotTarget (fs.inode inum) src).ext,fs.space,rfl⟩

theorem targetLive {fs : Fs σ} (typed : Typed fs) (inum : Nat) {src : Dinode} (named : src.itype ≠ .free) :
    (snapshotTarget (fs.inode inum) src).live = true := by
  unfold snapshotTarget
  split
  · simp [Inode.live,named]
  · rename_i ino found
    split
    · simp [Inode.live,named]
    · rename_i kept
      simp only [Bool.not_eq_true] at kept
      simp [Inode.live,kept,typed inum ino found kept]

theorem putAlive {fs : Fs σ} (typed : Typed fs) (inum : Nat) (ino : Inode) (space : σ)
    (good : ino.deleting = false → ino.itype ≠ .free) :
    Typed (fs.put inum ino space) ∧ (fs.put inum ino space).live inum = ino.live ∧
      ∀ i, inum ≠ i → (fs.put inum ino space).live i = fs.live i := by
  refine ⟨fun i found here kept => ?_,by simp [Fs.live],fun i other => by simp [Fs.live,putOther other]⟩
  by_cases same : inum = i
  · subst same
    rw [putSame] at here
    cases here
    exact good kept
  · rw [putOther same] at here
    exact typed i found here kept

theorem aliveFound {fs : Fs σ} {inum : Nat} (alive : fs.live inum = true) :
    ∃ ino, fs.inode inum = some ino ∧ ino.live = true := by
  cases found : fs.inode inum with
  | none => simp [Fs.live,found] at alive
  | some ino => exact ⟨ino,rfl,by simpa [Fs.live,found] using alive⟩

theorem aliveSimulates {used : σ → Nat → Prop} (law : Lawful A used) (area : Nat → Dinode) :
    Simulates (digestOp A area) (opAlive area) Op.inum (fun d i => d.fs.live i) (fun d => Typed d.fs) := by
  refine ⟨fun d op after typed small => ?_⟩
  cases op with
  | inode inum blknr =>
    simp only [opAlive] at small
    obtain ⟨named,rfl⟩ := unlessTaken small
    obtain ⟨ext,space,put⟩ := digestInodePut A d.fs inum (area blknr)
    have target := targetLive typed inum named
    have good : (snapshotTarget (d.fs.inode inum) (area blknr)).itype ≠ .free := by
      intro free
      simp [Inode.live,free] at target
    obtain ⟨kept,same,others⟩ := putAlive typed inum { snapshotTarget (d.fs.inode inum) (area blknr) with
      size := (area blknr).size, ext := ext } space fun _ => good
    refine ⟨_,rfl,?_,?_,?_⟩ <;> rw [put]
    · exact kept
    · exact same.trans target
    · exact others
  | file inum offset length blknr =>
    have alive : d.fs.live inum = true := by
      by_contra dead
      simp [opAlive,Op.inum,dead] at small
    simp only [opAlive,Op.inum,alive,if_true] at small
    cases small
    obtain ⟨ino,found,live⟩ := aliveFound alive
    obtain ⟨p,placed⟩ := placeSome law d.fs.space ino.ext offset length blknr
    have good : ino.itype ≠ .free := by
      intro free
      simp [Inode.live,free] at live
    obtain ⟨kept,same,others⟩ := putAlive typed inum
      { ino with size := max ino.size (offset + length), ext := p.ext } p.space fun _ => good
    refine ⟨⟨d.fs.put inum { ino with size := max ino.size (offset + length), ext := p.ext } p.space,
      d.memcpys ++ p.memcpys⟩,?_,kept,same.trans live,others⟩
    simp only [digestOp,digestFile,found,placed,Option.map_some]
  | unlink inum blknr =>
    cases small
    obtain ⟨kept,same,others⟩ := putAlive typed inum ⟨.free,0,true,emptyExt⟩ (digestUnlink A d.fs inum).space
      fun gone => absurd gone (by simp)
    exact ⟨_,rfl,kept,same,others⟩

end LineFS.Kernfs
