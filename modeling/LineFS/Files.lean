import LineFS.Placement

/-! Files as the shared area stores them: type, size and the bytes of the mapped
blocks, without block numbers. Under an allocator that never hands out a block
twice, the digest calls on an inode act on its file alone, as `resize` and
`write` do, whatever blocks the allocator picks. -/
namespace LineFS.Files
open Base Kernfs Placement

variable {σ β : Type}

structure File (β : Type) where
  itype : IType
  size : Nat
  deleting : Bool
  byte : Nat → Option β

def Cut (size l : Nat) : Prop := size ≤ l * gBlockSizeBytes
deriving Decidable

def Tight (f : File β) : Prop :=
  f.itype = .file ∨ f.deleting = true → ∀ pos, f.byte pos ≠ none → ¬ Cut f.size (pos / gBlockSizeBytes)

namespace File

def target (f : Option (File β)) (src : Dinode) : File β :=
  match f with
  | none => ⟨src.itype,0,false,fun _ => none⟩
  | some f => if f.deleting then { f with deleting := false, itype := src.itype } else f

def resize (size : Nat) (f : File β) : File β :=
  { f with
    size := size
    byte := fun pos => if f.itype = .file ∧ Cut size (pos / gBlockSizeBytes) then none else f.byte pos }

def write (blank : β) (log : Nat → β) (offset length src : Nat) (f : File β) : File β :=
  { f with
    size := max f.size (offset + length)
    byte := fun pos =>
      if offset ≤ pos ∧ pos < offset + length then some (log (src + (pos - offset)))
      else if Touched offset length (pos / gBlockSizeBytes) then some ((f.byte pos).getD blank)
      else f.byte pos }

end File

def Inode.file (disk : Nat → β) (ino : Inode) : File β :=
  ⟨ino.itype,ino.size,ino.deleting,fun pos => (ino.ext (pos / gBlockSizeBytes)).map fun b =>
    disk (b * gBlockSizeBytes + pos % gBlockSizeBytes)⟩

structure WellFormed (blank : β) (used : σ → Nat → Prop) (fs : Fs σ) (disk : Nat → β) : Prop extends
    Owned used fs where
  unused : ∀ b o, o < gBlockSizeBytes → ¬ used fs.space b → disk (b * gBlockSizeBytes + o) = blank
  tight : ∀ i ino, fs.inode i = some ino → Tight (Inode.file disk ino)

/- A block is never handed out again, not even after it is freed. -/
def NeverReused (A : Allocator σ) (used : σ → Nat → Prop) : Prop := ∀ s b c, used s c → used (A.free s b) c

def bumpAllocator : Allocator Nat where
  alloc next n := ⟨next + n,next,n⟩
  free next _ := next
  extentLen _ _ n := n

theorem bumpLawful : Lawful bumpAllocator fun next b => b < next where
  counted _ n pos := ⟨pos,Nat.le_refl n⟩
  fresh next _ b above _ := Nat.not_lt.mpr above
  marked next n b := by simp only [bumpAllocator]; omega
  kept _ _ _ h _ := h
  unmarked _ _ _ h := h
  extent _ _ n pos := ⟨pos,Nat.le_refl n⟩

theorem bumpNever : NeverReused bumpAllocator fun next b => b < next := fun _ _ _ h => h

section snapshot
variable {A : Allocator σ} {used : σ → Nat → Prop} {blank : β} {fs : Fs σ} {disk : Nat → β} {inum : Nat}

theorem freesKeep (never : NeverReused A used) (bs : List Nat) {s : σ} {c : Nat} (h : used s c) :
    used (bs.foldl A.free s) c := by
  induction bs generalizing s with
  | nil => exact h
  | cons b bs ih => exact ih (never s b c h)

theorem putSmaller (h : WellFormed blank used fs disk) {ino : Inode} {space : σ}
    (part : ∀ l b, ino.ext l = some b → ∃ old, fs.inode inum = some old ∧ old.ext l = some b)
    (marks : ∀ b, used fs.space b → used space b) (tight : Tight (Inode.file disk ino)) :
    WellFormed blank used (fs.put inum ino space) disk := by
  refine ⟨ownedPart h.toOwned part fun _ _ _ b _ _ was => marks b was,fun b o small free => ?_,fun i x fx => ?_⟩
  · exact h.unused b o small fun was => free (marks b was)
  · by_cases same : inum = i
    · subst same
      rw [putSame] at fx
      cases fx
      exact tight
    · rw [putOther same] at fx
      exact h.tight i x fx

theorem fileTarget (src : Dinode) (ino : Option Inode) :
    Inode.file disk (snapshotTarget ino src) = File.target (ino.map (Inode.file disk)) src := by
  rcases ino with _ | ino
  · rfl
  · simp only [snapshotTarget,File.target,Option.map_some]
    have same : (Inode.file disk ino).deleting = ino.deleting := rfl
    rw [same]
    split <;> rfl

theorem tightExt {ino : Inode} : Tight (Inode.file disk ino) ↔
    (ino.itype = .file ∨ ino.deleting = true → ∀ l b, ino.ext l = some b → ¬ Cut ino.size l) := by
  refine forall_congr' fun _ => ⟨fun h l b mapped => ?_,fun h pos here => ?_⟩
  · have start : l * gBlockSizeBytes / gBlockSizeBytes = l := Nat.mul_div_cancel l (by simp [gBlockSizeBytes])
    have := h (l * gBlockSizeBytes) (by simp [Inode.file,start,mapped])
    rwa [start] at this
  · obtain ⟨b,mapped⟩ : ∃ b, ino.ext (pos / gBlockSizeBytes) = some b := by
      simpa [Inode.file,Option.ne_none_iff_exists'] using here
    exact h _ b mapped

theorem targetTight (h : WellFormed blank used fs disk) (src : Dinode) {l b : Nat}
    (regular : (snapshotTarget (fs.inode inum) src).itype = .file)
    (mapped : (snapshotTarget (fs.inode inum) src).ext l = some b) :
    ¬ Cut (snapshotTarget (fs.inode inum) src).size l := by
  rcases found : fs.inode inum with _ | ino
  · simp [found,snapshotTarget,emptyExt] at mapped
  · have tight := tightExt.mp (h.tight inum ino found)
    simp only [found,snapshotTarget] at regular mapped ⊢
    cases gone : ino.deleting <;> simp only [gone,Bool.false_eq_true,if_false,if_true] at regular mapped ⊢
    · exact tight (.inl regular) l b mapped
    · exact tight (.inr gone) l b mapped

theorem targetPart (src : Dinode) {l b : Nat} (mapped : (snapshotTarget (fs.inode inum) src).ext l = some b) :
    ∃ old, fs.inode inum = some old ∧ old.ext l = some b := by
  unfold snapshotTarget at mapped
  split at mapped
  · simp [emptyExt] at mapped
  · rename_i ino found
    refine ⟨ino,found,?_⟩
    split at mapped <;> exact mapped

theorem targetKept (ino : Option Inode) (src : Dinode) : (snapshotTarget ino src).deleting = false := by
  unfold snapshotTarget
  split
  · rfl
  · split
    · rfl
    · rename_i stays
      simpa using stays

theorem startCut (size l : Nat) :
    (size / gBlockSizeBytes + if size % gBlockSizeBytes ≠ 0 then 1 else 0) ≤ l ↔ Cut size l := by
  unfold Cut
  by_cases whole : size % gBlockSizeBytes = 0
  · rw [if_neg (not_not.mpr whole)]
    simp only [gBlockSizeBytes] at *
    omega
  · rw [if_pos whole]
    simp only [gBlockSizeBytes] at *
    omega

variable (inum) in
theorem snapshotFile (never : NeverReused A used) (h : WellFormed blank used fs disk) (src : Dinode) :
    ∃ ino space, digestInode A fs inum src = fs.put inum ino space ∧
      WellFormed blank used (fs.put inum ino space) disk ∧
      Inode.file disk ino = File.resize src.size (File.target ((fs.inode inum).map (Inode.file disk)) src) := by
  have leaves (ext : Nat → Option Nat) (space : σ) (marks : ∀ b, used fs.space b → used space b)
      (same : ∀ l, ext l = if (snapshotTarget (fs.inode inum) src).itype = .file ∧ Cut src.size l then none
        else (snapshotTarget (fs.inode inum) src).ext l) :
      WellFormed blank used (fs.put inum { snapshotTarget (fs.inode inum) src with size := src.size, ext := ext } space)
        disk ∧ Inode.file disk { snapshotTarget (fs.inode inum) src with size := src.size, ext := ext } =
          File.resize src.size (File.target ((fs.inode inum).map (Inode.file disk)) src) := by
    have kept {l b : Nat} (mapped : ext l = some b) : (snapshotTarget (fs.inode inum) src).ext l = some b ∧
        ((snapshotTarget (fs.inode inum) src).itype = .file → ¬ Cut src.size l) := by
      rw [same] at mapped
      split at mapped <;> try contradiction
      rename_i stays
      exact ⟨mapped,fun regular cut => stays ⟨regular,cut⟩⟩
    refine ⟨putSmaller h (fun l b mapped => targetPart src (kept mapped).1) marks (tightExt.mpr fun which l b mapped => ?_),?_⟩
    · refine (kept mapped).2 (which.resolve_right fun gone => ?_)
      simp [targetKept] at gone
    · rw [← fileTarget]
      simp only [Inode.file,File.resize,File.mk.injEq,true_and]
      funext pos
      rw [same,apply_ite (Option.map fun b => disk (b * gBlockSizeBytes + pos % gBlockSizeBytes))]
      rfl
  have inside {l b : Nat} (regular : (snapshotTarget (fs.inode inum) src).itype = .file)
      (mapped : (snapshotTarget (fs.inode inum) src).ext l = some b) :
      l * gBlockSizeBytes < (snapshotTarget (fs.inode inum) src).size :=
    Nat.not_le.mp (targetTight h src regular mapped)
  unfold digestInode
  dsimp only
  split
  · rename_i shrinks
    refine ⟨_,_,rfl,leaves _ _ (fun b was => freesKeep never _ was) fun l => ?_⟩
    simp only [mlfsExtTruncate,startCut,shrinks.1,true_and]
    by_cases cut : Cut src.size l
    · simp only [cut,true_and,if_true,ite_eq_left_iff]
      intro beyond
      by_contra mapped
      obtain ⟨b,mapped⟩ := Option.ne_none_iff_exists'.mp mapped
      have below := inside shrinks.1 mapped
      exact beyond ((Nat.le_div_iff_mul_le (by simp [gBlockSizeBytes])).mpr (Nat.le_of_lt below))
    · simp only [cut,false_and,if_false]
  · rename_i grows
    refine ⟨_,_,rfl,leaves (snapshotTarget (fs.inode inum) src).ext _ (fun b was => was) fun l => ?_⟩
    split
    · rename_i cut
      by_contra mapped
      obtain ⟨b,mapped⟩ := Option.ne_none_iff_exists'.mp mapped
      have below := inside cut.1 mapped
      exact grows ⟨cut.1,Nat.lt_of_le_of_lt cut.2 below⟩
    · rfl

end snapshot

theorem cellBlock {b o : Nat} (small : o < gBlockSizeBytes) : (b * gBlockSizeBytes + o) / gBlockSizeBytes = b := by
  simp only [gBlockSizeBytes] at *
  omega

theorem cellOffset {b o : Nat} (small : o < gBlockSizeBytes) : (b * gBlockSizeBytes + o) % gBlockSizeBytes = o := by
  simp only [gBlockSizeBytes] at *
  omega

section cells
variable {touch : Nat → Prop} {used : σ → Nat → Prop} {offset length src : Nat} {p q : Placed σ} {ms : List Memcpy}
  (places : Places used touch offset length src p q ms) (log disk : Nat → β)
include places

theorem cellMiss {b o : Nat} (small : o < gBlockSizeBytes)
    (other : ∀ pos, offset ≤ pos → pos < offset + length → q.ext (pos / gBlockSizeBytes) = some b →
      pos % gBlockSizeBytes ≠ o) :
    Copy.executeAll (ms.map (Memcpy.copy log)) disk (b * gBlockSizeBytes + o) = disk (b * gBlockSizeBytes + o) := by
  refine Copy.executeMiss fun c mem cover => ?_
  obtain ⟨m,known,rfl⟩ := List.mem_map.mp mem
  obtain ⟨pos,low,high,mapped,place,_⟩ := places.lands m known _ cover.1 cover.2
  rw [cellBlock small] at mapped
  rw [cellOffset small] at place
  exact other pos low high mapped place.symm

theorem cellHit (inj : Injective q.ext) {pos b : Nat} (low : offset ≤ pos) (high : pos < offset + length)
    (mapped : q.ext (pos / gBlockSizeBytes) = some b) :
    Copy.executeAll (ms.map (Memcpy.copy log)) disk (b * gBlockSizeBytes + pos % gBlockSizeBytes) =
      log (src + (pos - offset)) := by
  have small : pos % gBlockSizeBytes < gBlockSizeBytes := Nat.mod_lt _ (by simp [gBlockSizeBytes])
  refine Copy.executeHit (fun c mem cover => ?_) ?_
  · obtain ⟨m,known,rfl⟩ := List.mem_map.mp mem
    obtain ⟨at_,first,last,here,place,byte⟩ := places.lands m known _ cover.1 cover.2
    rw [cellBlock small] at here
    rw [cellOffset small] at place
    have block := inj _ _ b here mapped
    have same : at_ = pos := by
      rw [← Nat.div_add_mod at_ gBlockSizeBytes,← Nat.div_add_mod pos gBlockSizeBytes,block,place]
    subst same
    exact congrArg log byte
  · obtain ⟨c,there,m,known,cover⟩ := places.filled pos low high
    obtain rfl : c = b := Option.some.inj (there.symm.trans mapped)
    exact ⟨_,List.mem_map_of_mem known,cover⟩

end cells

section write
variable {used : σ → Nat → Prop} {blank : β} {fs : Fs σ} {disk : Nat → β} {inum offset length src : Nat}
  {ino : Inode} {q : Placed σ} (h : WellFormed blank used fs disk) (found : fs.inode inum = some ino)
  (places : Places used (Touched offset length) offset length src ⟨fs.space,ino.ext,[]⟩ q q.memcpys) (log : Nat → β)
include h found places

theorem writeOther {j : Nat} {jno : Inode} (other : fs.inode j = some jno) (differ : inum ≠ j) :
    Inode.file (Copy.executeAll (q.memcpys.map (Memcpy.copy log)) disk) jno = Inode.file disk jno := by
  simp only [Inode.file,File.mk.injEq,true_and]
  funext pos
  refine Option.map_congr fun b theirs => cellMiss places log disk (Nat.mod_lt _ (by simp [gBlockSizeBytes])) ?_
  exact fun at_ _ _ mapped => absurd mapped (grownApart h.toOwned found places.grows other differ theirs)

theorem writeSame : Inode.file (Copy.executeAll (q.memcpys.map (Memcpy.copy log)) disk)
      { ino with size := max ino.size (offset + length), ext := q.ext } =
    (Inode.file disk ino).write blank log offset length src := by
  simp only [Inode.file,File.write,File.mk.injEq,true_and]
  funext pos
  have small : pos % gBlockSizeBytes < gBlockSizeBytes := Nat.mod_lt _ (by simp [gBlockSizeBytes])
  have inj := grownInjective h.toOwned found places.grows
  by_cases inside : offset ≤ pos ∧ pos < offset + length
  · obtain ⟨b,mapped,_⟩ := places.filled pos inside.1 inside.2
    rw [if_pos inside,mapped,Option.map_some,cellHit places log disk inj inside.1 inside.2 mapped]
  · rw [if_neg inside]
    have miss {b : Nat} (mapped : q.ext (pos / gBlockSizeBytes) = some b) :
        Copy.executeAll (q.memcpys.map (Memcpy.copy log)) disk (b * gBlockSizeBytes + pos % gBlockSizeBytes) =
          disk (b * gBlockSizeBytes + pos % gBlockSizeBytes) := by
      refine cellMiss places log disk small fun at_ low high here place => inside ?_
      have block := inj _ _ b here mapped
      have same : at_ = pos := by
        rw [← Nat.div_add_mod at_ gBlockSizeBytes,← Nat.div_add_mod pos gBlockSizeBytes,block,place]
      exact same ▸ ⟨low,high⟩
    rcases old : ino.ext (pos / gBlockSizeBytes) with _ | b
    · rcases new : q.ext (pos / gBlockSizeBytes) with _ | b
      · have untouched : ¬ Touched offset length (pos / gBlockSizeBytes) := fun here => by
          obtain ⟨b,mapped⟩ := places.whole _ here
          rw [new] at mapped
          contradiction
        rw [if_neg untouched]
        rfl
      · rcases places.grows.adds _ b new with was | ⟨here,free,_⟩
        · exact absurd (was.symm.trans old) (by simp)
        · rw [if_pos here,Option.map_some,miss new,h.unused b _ small free]
          rfl
    · have new := places.grows.keeps _ b old
      rw [new,Option.map_some,miss new]
      split <;> rfl

theorem writeWellFormed (shaped : Shaped offset length) : WellFormed blank used
    (fs.put inum { ino with size := max ino.size (offset + length), ext := q.ext } q.space)
    (Copy.executeAll (q.memcpys.map (Memcpy.copy log)) disk) := by
  have back : Backed used q.space q.ext :=
    growsBacked places.grows fun l b mapped => h.backed inum ino l b found mapped
  refine ⟨ownedGrown h.toOwned found places.grows _,fun b o small free => ?_,fun i x fx => ?_⟩
  · rw [cellMiss places log disk small fun pos _ _ mapped => absurd (back _ b mapped) free]
    exact h.unused b o small fun was => free (places.grows.marks b was)
  · by_cases same : inum = i
    · subst same
      rw [putSame] at fx
      cases fx
      refine tightExt.mpr fun which l b mapped cut => ?_
      rcases places.grows.adds l b mapped with old | ⟨here,_,_⟩
      · exact tightExt.mp (h.tight inum ino found) which l b old (Nat.le_trans (Nat.le_max_left _ _) cut)
      · exact Nat.not_le.mpr ((touchedSpan shaped).mp here).2 (Nat.le_trans (Nat.le_max_right _ _) cut)
    · rw [putOther same] at fx
      rw [writeOther h found places log fx same]
      exact h.tight i x fx

end write

def fileStep (blank : β) (area : Nat → Dinode) (log : Nat → β) (f : Option (File β)) : Op → Option (Option (File β))
  | .inode _ blknr => some (some (File.resize (area blknr).size (File.target f (area blknr))))
  | .file _ offset length blknr =>
    f.bind fun f =>
      if Shaped offset length then
        some (some (f.write blank log offset length (blknr * gBlockSizeBytes + offset % gBlockSizeBytes)))
      else none
  | .unlink _ _ => none

def diskOf (log disk : Nat → β) (d : Digest σ) : Nat → β := Copy.executeAll (d.memcpys.map (Memcpy.copy log)) disk

def view (log disk : Nat → β) (d : Digest σ) (i : Nat) : Option (File β) :=
  (d.fs.inode i).map (Inode.file (diskOf log disk d))

theorem diskAppend (log disk : Nat → β) (fs : Fs σ) (ms ns : List Memcpy) : diskOf log disk ⟨fs,ms ++ ns⟩ =
    Copy.executeAll (ns.map (Memcpy.copy log)) (diskOf log disk ⟨fs,ms⟩) := by
  simp only [diskOf,List.map_append,Copy.executeAppend]

theorem fileSimulates {A : Allocator σ} {used : σ → Nat → Prop} (law : Lawful A used) (never : NeverReused A used)
    (blank : β) (area : Nat → Dinode) (log disk : Nat → β) :
    Simulates (digestOp A area) (fileStep blank area log) Op.inum (view log disk)
      (fun d => WellFormed blank used d.fs (diskOf log disk d)) := by
  refine ⟨fun d op after h small => ?_⟩
  cases op with
  | inode inum blknr =>
    cases small
    obtain ⟨ino,space,put,kept,file⟩ := snapshotFile inum never h (area blknr)
    refine ⟨⟨digestInode A d.fs inum (area blknr),d.memcpys⟩,rfl,?_,?_,fun k other => ?_⟩
    · rw [put]
      exact kept
    · simp only [view,put,Op.inum,putSame,Option.map_some]
      exact congrArg some file
    · simp only [view,put,putOther (show inum ≠ k from other)]
      rfl
  | file inum offset length blknr =>
    obtain ⟨f,seen,rest⟩ := Option.bind_eq_some_iff.mp small
    obtain ⟨shaped,rfl⟩ := ifTaken rest
    obtain ⟨ino,found,rfl⟩ := Option.map_eq_some_iff.mp seen
    have found : d.fs.inode inum = some ino := found
    obtain ⟨q,placed⟩ := placeSome law d.fs.space ino.ext offset length blknr
    have places := filePlaced law shaped placed
    refine ⟨⟨d.fs.put inum { ino with size := max ino.size (offset + length), ext := q.ext } q.space,
      d.memcpys ++ q.memcpys⟩,?_,?_,?_,fun k (other : inum ≠ k) => ?_⟩
    · simp only [digestOp,digestFile,found,placed,Option.map_some]
    · rw [diskAppend]
      exact writeWellFormed h found places log shaped
    · simp only [view,Op.inum,putSame,Option.map_some,diskAppend]
      exact congrArg some (writeSame h found places log)
    · simp only [view,putOther other,diskAppend]
      refine Option.map_congr fun jno theirs => ?_
      exact writeOther h found places log theirs other
  | unlink inum blknr => contradiction

end LineFS.Files
