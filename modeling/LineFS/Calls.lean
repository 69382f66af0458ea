import LineFS.Namespace

/-! The entries that a call of LibFS records in the log header of its transaction, between
`start_log_tx` and `commit_log_tx`. The header has room for four; the fifth one panics. -/
namespace LineFS.Calls
open Base Namespace
open Dirent hiding State Action step

def maxIoSize : Nat := 128 * 2 ^ 20
def sizeofOffset : Nat := 8

def addAligned (ip limit : Nat) : Nat → Nat → Nat → List Entry → Nat × List Entry
  | 0, off, _, h => (off,h)
  | rounds + 1, off, i, h =>
    if i < limit then
      let ioSize := min (limit - i) maxIoSize
      addAligned ip limit rounds (off + ioSize) (i + ioSize) (addToLoghdr h .file ip off ioSize [])
    else (off,h)

def addPortion (ip : Nat) (size : Nat) (r : Nat × List Entry) : Nat × List Entry :=
  if 0 < size then (r.1 + size,addToLoghdr r.2 .file ip r.1 size []) else r

def mlfsFileWrite (ip off n : Nat) : List Entry :=
  let p := portions off n
  let r := addPortion ip p.prepended (off,[])
  let r := addAligned ip (n - p.appended) n r.1 p.prepended r.2
  (addPortion ip p.appended r).2

def mlfsPosixFallocate (s : FS) (ip offset len : Nat) : List Entry :=
  if offset ≠ 0 ∨ len < (s.inode ip).size then [] else addToLoghdr [] .alloc ip len sizeofOffset []

inductive Call where
  | create (hit : Option Nat) (dir : Nat) (name : Name) (inum : Nat)
  | mkdir (hit : Option Nat) (dir : Nat) (name : Name) (inum : Nat)
  | unlink (dir : Nat) (name : Name)
  | rename (oldDir : Nat) (oldName : Name) (newDir : Nat) (newName : Name)
  | truncate (ip length : Nat)
  | fallocate (ip offset len : Nat)
  | write (ip off n : Nat)
  deriving DecidableEq, Repr

def recorded (s : FS) : Call → Option (List Entry)
  | .create hit dir name inum => some (mlfsObjectCreate s hit dir name .file inum).2
  | .mkdir hit dir name inum => some (mlfsObjectCreate s hit dir name .dir inum).2
  | .unlink dir name => some (mlfsPosixUnlink s dir name).2.1
  | .rename oldDir oldName newDir newName => (mlfsPosixRename s oldDir oldName newDir newName).map fun r => r.2.1
  | .truncate ip length => some (itrunc (s.inode ip) [] length).2
  | .fallocate ip offset len => some (mlfsPosixFallocate s ip offset len)
  | .write ip off n => if maxWriteBytes < n then none else some (mlfsFileWrite ip off n)

def Fits (s : FS) (c : Call) : Prop := ∀ h, recorded s c = some h → h.length ≤ gMaxBlocksPerOperation

def Inner (d : Inode) (x : DirentData) : Prop := x.offset < d.size - sizeofDirent
deriving Decidable

/- A rename from one directory to another finds its source and a target, and one of them is
not the last entry of its directory. -/
def Overfull (s : FS) : Call → Prop
  | .rename oldDir oldName newDir newName => oldDir ≠ newDir ∧ (s.inode oldDir).deleting = false ∧ (s.inode newDir).deleting = false ∧
      ∃ target source, (dirLookup (s.inode newDir) newName).2 = some target ∧ (dirLookup (s.inode oldDir) oldName).2 = some source ∧
        target.inode ≠ newDir ∧ target.inode ≠ oldDir ∧ (Inner (s.inode newDir) target ∨ Inner (s.inode oldDir) source)
  | _ => False

structure Kept (d e : Inode) : Prop where
  inum : e.inum = d.inum
  deleting : e.deleting = d.deleting
  size : e.size = d.size

theorem keptRefl (d : Inode) : Kept d d := ⟨rfl,rfl,rfl⟩
theorem keptTrans {d e f : Inode} (one : Kept d e) (two : Kept e f) : Kept d f :=
  ⟨two.inum.trans one.inum,two.deleting.trans one.deleting,two.size.trans one.size⟩

theorem deCacheAddKept (d : Inode) (name : Name) (inode offset : Nat) : Kept d (deCacheAdd d name inode offset) := by
  unfold deCacheAdd
  split
  · exact keptRefl d
  · exact ⟨rfl,rfl,rfl⟩

theorem deCacheDelKept (d : Inode) (name : Name) : Kept d (deCacheDel d name) := by
  unfold deCacheDel
  split
  · exact ⟨rfl,rfl,rfl⟩
  · exact keptRefl d

theorem searchKept (d : Inode) (name : Name) (off rounds : Nat) : Kept d (searchFrom d name off rounds).1 := by
  induction rounds generalizing d off with
  | zero => exact keptRefl d
  | succ rounds ih =>
    simp only [searchFrom]
    split
    · split
      · exact keptRefl d
      · rename_i de _
        have added := deCacheAddKept d de.name de.inum off
        split
        · exact added
        · exact keptTrans added (ih _ _)
    · exact keptRefl d

theorem lookupKept (d : Inode) (name : Name) : Kept d (dirLookup d name).1 := by
  unfold dirLookup
  split
  · exact keptRefl d
  · dsimp only
    split
    · exact keptRefl d
    · exact searchKept ..

def removalEntries (d : Inode) (found : Option DirentData) : Nat :=
  match found with
  | none => 0
  | some x => if Inner d x then 2 else 1

theorem removeShape (d : Inode) (h : List Entry) (name : Name) :
    (dirRemoveEntry d h name).1.inum = d.inum ∧ (dirRemoveEntry d h name).1.deleting = d.deleting ∧
    (dirRemoveEntry d h name).2.2 = (dirLookup d name).2.map DirentData.inode ∧
    (dirRemoveEntry d h name).2.1.length = h.length + removalEntries d (dirLookup d name).2 := by
  have looked := lookupKept d name
  unfold dirRemoveEntry
  generalize dirLookup d name = r at looked ⊢
  obtain ⟨d₁,found⟩ := r
  cases found with
  | none => exact ⟨looked.inum,looked.deleting,rfl,rfl⟩
  | some x =>
    have dropped := keptTrans looked (deCacheDelKept d₁ name)
    simp only [removalEntries,Inner,← dropped.size]
    generalize deCacheDel d₁ name = d₂ at dropped
    by_cases inner : x.offset < d₂.size - sizeofDirent
    · simp only [if_pos inner]
      generalize (getDirent d₂ (d₂.size - sizeofDirent)).getD ⟨0,noName⟩ = last
      have moved := deCacheDelKept d₂ last.name
      have added := deCacheAddKept (addToLog (deCacheDel d₂ last.name) h [last] x.offset .dirAdd).1 last.name last.inum x.offset
      refine ⟨added.inum.trans (moved.inum.trans dropped.inum),added.deleting.trans (moved.deleting.trans dropped.deleting),rfl,?_⟩
      simp [itrunc,iupdate,addToLog,addToLoghdr]
    · simp only [if_neg inner]
      exact ⟨dropped.inum,dropped.deleting,rfl,by simp [itrunc,iupdate,addToLoghdr]⟩

theorem changeShape (d : Inode) (h : List Entry) (oldname newname : Name) :
    (dirChangeEntry d h oldname newname).2.1.length ≤ h.length + 1 := by
  unfold dirChangeEntry
  split
  · exact Nat.le_succ _
  · simp [addToLog,addToLoghdr]

theorem removalBound (d : Inode) (found : Option DirentData) : removalEntries d found ≤ 2 := by
  unfold removalEntries
  split
  · omega
  · split <;> omega

theorem unlinkShape (s : FS) (dir : Nat) (name : Name) : (mlfsPosixUnlink s dir name).2.1.length ≤ 3 := by
  obtain ⟨_,_,_,counted⟩ := removeShape (s.inode dir) [] name
  have bound := removalBound (s.inode dir) (dirLookup (s.inode dir) name).2
  unfold mlfsPosixUnlink
  generalize dirRemoveEntry (s.inode dir) [] name = r at counted
  obtain ⟨d,h,found⟩ := r
  simp only [List.length_nil,Nat.zero_add] at counted
  cases found with
  | none =>
    simp only
    omega
  | some ip =>
    simp only [addToLoghdr,List.length_append,List.length_singleton]
    omega

theorem createShape (s : FS) (hit : Option Nat) (dir : Nat) (name : Name) (type : Itype) (inum : Nat) :
    (mlfsObjectCreate s hit dir name type inum).2.length ≤ 4 := by
  unfold mlfsObjectCreate
  split
  · simp [createExisting,iupdate,addToLoghdr]
  · split
    · simp [createExisting,iupdate,addToLoghdr]
    · dsimp only
      rw [(addShape ..).2]
      split <;> simp [dirAddLinks,addToLog,iupdate,addToLoghdr]

section Numbered
variable {s : FS}

def Numbered (s : FS) : Prop := ∀ i, (s.inode i).inum = i

section
variable (numbered : Numbered s)
include numbered

theorem putNumbered (d : Inode) : Numbered (s.put d) := by
  intro i
  by_cases here : i = d.inum
  · rw [here,putSelf]
  · rw [putOther here]; exact numbered i

theorem iallocNumbered (d : Inode) : Numbered (ialloc s d) := putNumbered numbered d

theorem createNumbered (hit : Option Nat) (dir : Nat) (name : Name) (type : Itype) (inum : Nat) :
    Numbered (mlfsObjectCreate s hit dir name type inum).1 := by
  unfold mlfsObjectCreate
  split
  · exact putNumbered numbered _
  · split
    · exact putNumbered (putNumbered numbered _) _
    · dsimp only
      refine putNumbered ?_ _
      split
      · exact putNumbered (iallocNumbered (putNumbered numbered _) _) _
      · exact iallocNumbered (putNumbered numbered _) _

theorem unlinkNumbered (dir : Nat) (name : Name) : Numbered (mlfsPosixUnlink s dir name).1 := by
  unfold mlfsPosixUnlink
  split
  · exact putNumbered numbered _
  · exact putNumbered (putNumbered numbered _) _

theorem replaceNumbered (newDir : Nat) (newName : Name) : Numbered (replaceTarget s newDir newName).1 := by
  unfold replaceTarget
  split
  · exact putNumbered numbered _
  · exact putNumbered (putNumbered numbered _) _

theorem renameNumbered {oldDir oldName newDir newName r}
    (renamed : mlfsPosixRename s oldDir oldName newDir newName = some r) : Numbered r.1 := by
  have replaced := replaceNumbered numbered newDir newName
  simp only [mlfsPosixRename,Option.ite_none_left_eq_some] at renamed
  obtain ⟨_,renamed⟩ := renamed
  split at renamed
  · cases renamed
    unfold renameWithin
    split
    · exact putNumbered replaced _
    · exact putNumbered replaced _
  · cases renamed
    unfold renameAcross
    split
    · exact putNumbered replaced _
    · exact putNumbered (putNumbered replaced _) _

theorem stepNumbered {a t} (done : stepFS s a = some t) : Numbered t := by
  have ended {r : FS × List Entry × Bool} (before : Numbered r.1) (done : success (endTx r) = some t) : Numbered t := by
    obtain ⟨_,_,rfl⟩ := endTxSome done
    exact before
  cases a with
  | lookup dir name =>
    cases done
    exact putNumbered numbered _
  | create hit dir name inum =>
    simp only [stepFS,Option.ite_none_right_eq_some] at done
    exact ended (createNumbered numbered hit dir name _ inum) done.2
  | mkdir hit dir name inum =>
    simp only [stepFS,Option.ite_none_right_eq_some] at done
    exact ended (createNumbered numbered hit dir name _ inum) done.2
  | unlink dir name => exact ended (unlinkNumbered numbered dir name) done
  | rename oldDir oldName newDir newName =>
    obtain ⟨r,renamed,done⟩ := Option.bind_eq_some_iff.mp done
    exact ended (renameNumbered numbered renamed) done
  | restart =>
    cases done
    exact numbered

end

theorem reachNumbered {s : State} (reached : Reach step Any init s) : Numbered s.fs := by
  refine reachInvariant (fun s : State => Numbered s.fs) (show Numbered mkfs from mkfsWhole.inums) ?_ reached
  intro s a t numbered _ taken
  obtain ⟨fs,done,rfl⟩ := Option.map_eq_some_iff.mp taken
  exact stepNumbered numbered done

end Numbered

theorem alignedDone {ip limit i : Nat} (done : limit ≤ i) (rounds off : Nat) (h : List Entry) :
    addAligned ip limit rounds off i h = (off,h) := by
  cases rounds with
  | zero => rfl
  | succ rounds => exact if_neg (Nat.not_lt.mpr done)

theorem alignedOne {limit i : Nat} (short : limit - i ≤ maxIoSize) (ip rounds off : Nat) (h : List Entry) :
    (addAligned ip limit rounds off i h).2.length ≤ h.length + 1 := by
  cases rounds with
  | zero => exact Nat.le_succ _
  | succ rounds =>
    simp only [addAligned]
    split
    · rw [Nat.min_eq_left short,alignedDone (by omega)]
      simp [addToLoghdr]
    · exact Nat.le_succ _

theorem portionShape (ip size : Nat) (r : Nat × List Entry) : (addPortion ip size r).2.length ≤ r.2.length + 1 := by
  unfold addPortion
  split
  · simp [addToLoghdr]
  · exact Nat.le_succ _

theorem writeShape {n : Nat} (bounded : n ≤ maxWriteBytes) (ip off : Nat) : (mlfsFileWrite ip off n).length ≤ 3 := by
  have first := portionShape ip (portions off n).prepended (off,[])
  have short : n - (portions off n).appended - (portions off n).prepended ≤ maxIoSize := by
    simp only [maxWriteBytes,maxIoSize] at *
    omega
  have second := alignedOne short ip n (addPortion ip (portions off n).prepended (off,[])).1
    (addPortion ip (portions off n).prepended (off,[])).2
  have last := portionShape ip (portions off n).appended (addAligned ip (n - (portions off n).appended) n
    (addPortion ip (portions off n).prepended (off,[])).1 (portions off n).prepended
    (addPortion ip (portions off n).prepended (off,[])).2)
  simp only [List.length_nil] at first
  simp only [mlfsFileWrite]
  omega

section Rename
variable {s : FS} {oldDir newDir : Nat} {oldName newName : Name}

theorem replaceNone (missing : (dirLookup (s.inode newDir) newName).2 = none) :
    ∃ d, replaceTarget s newDir newName = (s.put d,[]) := by
  obtain ⟨_,_,removed,counted⟩ := removeShape (s.inode newDir) [] newName
  rw [missing] at removed counted
  unfold replaceTarget
  generalize dirRemoveEntry (s.inode newDir) [] newName = r at removed counted
  obtain ⟨d,h,found⟩ := r
  cases removed
  cases List.length_eq_zero_iff.mp counted
  exact ⟨d,rfl⟩

theorem replaceSome {x} (numbered : Numbered s) (found : (dirLookup (s.inode newDir) newName).2 = some x) :
    ∃ t h, replaceTarget s newDir newName = (t,h) ∧ h.length = removalEntries (s.inode newDir) (some x) + 1 ∧
    (t.inode x.inode).deleting = true ∧ (newDir ≠ x.inode → (t.inode newDir).deleting = (s.inode newDir).deleting) ∧
    ∀ i, i ≠ newDir → i ≠ x.inode → t.inode i = s.inode i := by
  obtain ⟨inum,alive,removed,counted⟩ := removeShape (s.inode newDir) [] newName
  have inum := inum.trans (numbered newDir)
  rw [found] at removed counted
  unfold replaceTarget
  generalize dirRemoveEntry (s.inode newDir) [] newName = r at inum alive removed counted
  obtain ⟨d,h,target⟩ := r
  cases removed
  have put := putNumbered numbered d
  refine ⟨_,_,rfl,?_,?_,fun other => ?_,fun i far other => ?_⟩
  · simp only [List.length_nil,Nat.zero_add] at counted
    simp [addToLoghdr,counted]
  · rw [ideallocSelf (put x.inode)]
  · rw [ideallocOther (put x.inode) other,putHere inum]
    exact alive
  · rw [ideallocOther (put x.inode) other,putOther (by rw [inum]; exact far)]

theorem withinShape (s : FS) (h : List Entry) (dir : Nat) (oldName newName : Name) :
    (renameWithin s h dir oldName newName).2.1.length ≤ h.length + 1 := by
  have changed := changeShape (s.inode dir) h oldName newName
  unfold renameWithin
  generalize dirChangeEntry (s.inode dir) h oldName newName = r at changed
  obtain ⟨d,h',found⟩ := r
  cases found with
  | none => exact changed
  | some ip => exact changed

def moveEntries (d : Inode) : Option DirentData → Nat
  | none => 0
  | some x => removalEntries d (some x) + 1

theorem acrossShape (s : FS) (h : List Entry) (oldDir : Nat) (oldName : Name) (newDir : Nat) (newName : Name) :
    (renameAcross s h oldDir oldName newDir newName).2.1.length = h.length +
      moveEntries (s.inode oldDir) (dirLookup (s.inode oldDir) oldName).2 := by
  obtain ⟨_,_,removed,counted⟩ := removeShape (s.inode oldDir) h oldName
  unfold renameAcross
  generalize dirRemoveEntry (s.inode oldDir) h oldName = r at removed counted
  generalize (dirLookup (s.inode oldDir) oldName).2 = found at removed counted
  obtain ⟨d,h',source⟩ := r
  cases found with
  | none =>
    cases removed
    exact counted
  | some x =>
    cases removed
    simp only [(addShape ..).2,moveEntries] at counted ⊢
    omega

theorem moveBound (d : Inode) (found : Option DirentData) : moveEntries d found ≤ 3 := by
  cases found with
  | none => exact Nat.zero_le _
  | some x => exact Nat.succ_le_succ (removalBound d (some x))

theorem renameMissing (missing : (dirLookup (s.inode newDir) newName).2 = none) : Fits s (.rename oldDir oldName newDir newName) := by
  obtain ⟨d,replaced⟩ := replaceNone missing
  intro h renamed
  simp only [recorded,mlfsPosixRename,replaced,Option.map_eq_some_iff,Option.ite_none_left_eq_some] at renamed
  obtain ⟨r,⟨_,renamed⟩,rfl⟩ := renamed
  split at renamed
  · cases renamed
    exact Nat.le_trans (withinShape ..) (by simp [gMaxBlocksPerOperation])
  · cases renamed
    rw [acrossShape]
    exact Nat.le_trans (Nat.add_le_add_left (moveBound ..) _) (by simp [gMaxBlocksPerOperation])

theorem renameWithinFits (numbered : Numbered s) : Fits s (.rename newDir oldName newDir newName) := by
  cases found : (dirLookup (s.inode newDir) newName).2 with
  | none => exact renameMissing found
  | some x =>
    obtain ⟨t,h₁,replaced,counted,_⟩ := replaceSome numbered found
    intro h renamed
    simp only [recorded,mlfsPosixRename,replaced,if_true,Option.map_eq_some_iff,Option.ite_none_left_eq_some] at renamed
    obtain ⟨r,⟨_,renamed⟩,rfl⟩ := renamed
    cases renamed
    have bound := withinShape t h₁ newDir oldName newName
    have few := removalBound (s.inode newDir) (some x)
    simp only [gMaxBlocksPerOperation]
    omega

theorem renameAcrossFits {x} (numbered : Numbered s) (apart : oldDir ≠ newDir)
    (found : (dirLookup (s.inode newDir) newName).2 = some x) :
    Fits s (.rename oldDir oldName newDir newName) ↔ ¬Overfull s (.rename oldDir oldName newDir newName) := by
  obtain ⟨t,h₁,replaced,counted,dead,parent,others⟩ := replaceSome numbered found
  by_cases crash : (t.inode oldDir).deleting = true ∨ (t.inode newDir).deleting = true
  · refine iff_of_true (fun h renamed => ?_) ?_
    · simp [recorded,mlfsPosixRename,replaced,crash] at renamed
    · rintro ⟨_,aliveOld,aliveNew,target,source,found',_,notNew,notOld,_⟩
      cases found.symm.trans found'
      rw [others oldDir apart notOld.symm,parent notNew.symm,aliveOld,aliveNew] at crash
      simp at crash
  · have notNew : x.inode ≠ newDir := fun same => crash (.inr (same ▸ dead))
    have notOld : x.inode ≠ oldDir := fun same => crash (.inl (same ▸ dead))
    have same := others oldDir apart notOld.symm
    have alive := not_or.mp crash
    rw [same,parent notNew.symm,Bool.not_eq_true,Bool.not_eq_true] at alive
    have header : recorded s (.rename oldDir oldName newDir newName) =
        some (renameAcross t h₁ oldDir oldName newDir newName).2.1 := by
      simp [recorded,mlfsPosixRename,replaced,crash,apart.symm]
    have length := acrossShape t h₁ oldDir oldName newDir newName
    rw [counted,same] at length
    simp only [Fits,header,Option.some.injEq,forall_eq',length,Overfull,found,alive.1,alive.2,apart,ne_eq,not_false_eq_true,true_and]
    cases source : (dirLookup (s.inode oldDir) oldName).2 with
    | none =>
      refine iff_of_true ?_ (by simp)
      have := removalBound (s.inode newDir) (some x)
      simp only [moveEntries,gMaxBlocksPerOperation]
      omega
    | some y =>
      simp only [Option.some.injEq,exists_and_left,exists_eq_left',notNew,notOld,not_false_eq_true,true_and,moveEntries,removalEntries,
        gMaxBlocksPerOperation]
      split <;> split <;> simp_all

end Rename

theorem callFits {s : FS} {c : Call} (numbered : Numbered s) : Fits s c ↔ ¬Overfull s c := by
  cases c with
  | create hit dir name inum =>
    refine iff_of_true (fun h done => ?_) id
    cases Option.some.inj done
    exact createShape ..
  | mkdir hit dir name inum =>
    refine iff_of_true (fun h done => ?_) id
    cases Option.some.inj done
    exact createShape ..
  | unlink dir name =>
    refine iff_of_true (fun h done => ?_) id
    cases Option.some.inj done
    exact Nat.le_trans (unlinkShape ..) (by decide)
  | rename oldDir oldName newDir newName =>
    by_cases within : oldDir = newDir
    · subst within
      exact iff_of_true (renameWithinFits numbered) fun full => full.1 rfl
    · cases found : (dirLookup (s.inode newDir) newName).2 with
      | none =>
        refine iff_of_true (renameMissing found) ?_
        rintro ⟨_,_,_,target,_,found',_⟩
        rw [found] at found'
        contradiction
      | some x => exact renameAcrossFits numbered within found
  | truncate ip length =>
    refine iff_of_true (fun h done => ?_) id
    cases Option.some.inj done
    simp [itrunc,iupdate,addToLoghdr,gMaxBlocksPerOperation]
  | fallocate ip offset len =>
    refine iff_of_true (fun h done => ?_) id
    cases Option.some.inj done
    unfold mlfsPosixFallocate
    split <;> simp [addToLoghdr,gMaxBlocksPerOperation]
  | write ip off n =>
    refine iff_of_true (fun h done => ?_) id
    simp only [recorded,Option.ite_none_left_eq_some] at done
    obtain ⟨bounded,done⟩ := done
    cases Option.some.inj done
    exact Nat.le_trans (writeShape (Nat.not_lt.mp bounded) ip off) (by decide)

def twoDirectories : List Action := [.mkdir none rootino (letter 'a') 2,.mkdir none rootino (letter 'b') 3,
  .create none 2 (letter 'x') 4,.create none 2 (letter 'y') 5,.create none 3 (letter 'z') 6]

theorem callFitsLast : ∃ s, Fits s (.rename 2 (letter 'y') 3 (letter 'z')) ∧
    (recorded s (.rename 2 (letter 'y') 3 (letter 'z'))).map List.length = some 4 := by
  obtain ⟨s,reached,four,last,lastOld⟩ : ∃ s, Reach step Any init s ∧
      (recorded s.fs (.rename 2 (letter 'y') 3 (letter 'z'))).map List.length = some 4 ∧
      ((dirLookup (s.fs.inode 3) (letter 'z')).2.map fun x => decide (Inner (s.fs.inode 3) x)) = some false ∧
      ((dirLookup (s.fs.inode 2) (letter 'y')).2.map fun x => decide (Inner (s.fs.inode 2) x)) = some false :=
    traceAny twoDirectories (by decide +kernel)
  refine ⟨s.fs,(callFits (reachNumbered reached)).mpr ?_,four⟩
  rintro ⟨_,_,_,target,source,found,foundOld,_,_,inner⟩
  rw [found,Option.map_some] at last
  rw [foundOld,Option.map_some] at lastOld
  rcases inner with inner | inner
  · exact of_decide_eq_false (Option.some.inj last) inner
  · exact of_decide_eq_false (Option.some.inj lastOld) inner

theorem renameOverflows : ¬∀ s c, Reach step Any init s → Fits s.fs c := by
  intro claim
  obtain ⟨s,reached,five⟩ : ∃ s, Reach step Any init s ∧ (recorded s.fs (.rename 2 (letter 'x') 3 (letter 'z'))).map List.length = some 5 :=
    traceAny twoDirectories (by decide +kernel)
  obtain ⟨h,renamed,length⟩ := Option.map_eq_some_iff.mp five
  have few := claim s (.rename 2 (letter 'x') 3 (letter 'z')) reached h renamed
  rw [length] at few
  exact absurd few (by decide)

end LineFS.Calls
