import LineFS.BatchSize

/-! The memcpy list against the build of `digest_file` without one. That build writes each piece to the
shared area when it has mapped it; the NIC records the piece, and the host writes it later. An
assertion that fails ends either of them. -/
namespace LineFS.MemcpyPlan
open Option (bind_assoc bind_fun_none bind_fun_some bind_map bind_some map_bind)
open Base Kernfs Replay MemcpyList BatchSize

variable {σ β : Type}

def mlfsWriteOpt (log disk : Nat → β) (blknr data size offset : Nat) : Option (Nat → β) :=
  if size = 0 then none else some (Copy.execute disk ⟨blknr * gBlockSizeBytes + offset,size,fun k => log (data + k)⟩)

/- The offset of a fresh buffer head is zero, and only an entry of a single block sets it. -/
def memcpyEntry (log disk : Nat → β) (m : Memcpy) : Option (Nat → β) :=
  mlfsWriteOpt log disk m.blkNr m.data m.size (if m.isSingleBlk then m.offsetInBlk else 0)

def memcpyWorker (log : Nat → β) (ms : List Memcpy) (disk : Nat → β) : Option (Nat → β) := ms.foldlM (memcpyEntry log) disk

structure Direct (σ β : Type) where
  space : σ
  ext : Nat → Option Nat
  disk : Nat → β

section Direct
variable (A : Allocator σ) (log : Nat → β)

def directBlocks : Nat → Direct σ β → Nat → Nat → Nat → Option (Direct σ β)
  | _, p, _, _, 0 => some p
  | 0, _, _, _, _ => none
  | rounds + 1, p, curOffset, data, left + 1 =>
    if curOffset % gBlockSizeBytes ≠ 0 then none
    else
      let m := mlfsExtGetBlocks A p.space p.ext (curOffset / gBlockSizeBytes) (left + 1)
      if m.len = 0 ∨ left + 1 < m.len then none
      else
        (mlfsWriteOpt log p.disk m.pblk data (m.len * gBlockSizeBytes) 0).bind fun disk =>
          directBlocks rounds ⟨m.space,m.ext,disk⟩ (curOffset + m.len * gBlockSizeBytes) (data + m.len * gBlockSizeBytes) (left + 1 - m.len)

def directPlace (space : σ) (ext : Nat → Option Nat) (disk : Nat → β) (offset length blknr : Nat) : Option (Direct σ β) :=
  let nrBlocks := getBlkCntFromLength length
  let data := blknr * gBlockSizeBytes
  let offsetInBlock := offset % gBlockSizeBytes
  if length < gBlockSizeBytes ∨ offsetInBlock ≠ 0 then
    let len := min length (gBlockSizeBytes - offsetInBlock)
    let m := mlfsExtGetBlocks A space ext (offset / gBlockSizeBytes) 1
    if m.len ≠ 1 then none
    else
      (mlfsWriteOpt log disk m.pblk (data + offsetInBlock) len offsetInBlock).bind fun disk =>
        directBlocks A log nrBlocks ⟨m.space,m.ext,disk⟩ (offset + len) (data + len) (nrBlocks - 1)
  else directBlocks A log nrBlocks ⟨space,ext,disk⟩ offset data nrBlocks

structure Written (σ β : Type) where
  fs : Fs σ
  disk : Nat → β

def directFile (w : Written σ β) (inum offset length blknr : Nat) : Option (Written σ β) :=
  match w.fs.inode inum with
  | none => none
  | some ino =>
    (directPlace A log w.fs.space ino.ext w.disk offset length blknr).map fun p =>
      ⟨w.fs.put inum { ino with size := max ino.size (offset + length), ext := p.ext } p.space,p.disk⟩

def directOp (area : Nat → Dinode) (w : Written σ β) : Op → Option (Written σ β)
  | .inode inum blknr => some { w with fs := digestInode A w.fs inum (area blknr) }
  | .file inum offset length blknr => directFile A log w inum offset length blknr
  | .unlink inum _ => some { w with fs := digestUnlink A w.fs inum }

end Direct

section Executes
variable {A : Allocator σ} {used : σ → Nat → Prop} {log disk : Nat → β}

theorem workerNil (log disk : Nat → β) : memcpyWorker log [] disk = some disk := rfl

theorem workerAppend (log : Nat → β) (ms ns : List Memcpy) (disk : Nat → β) :
    memcpyWorker log (ms ++ ns) disk = (memcpyWorker log ms disk).bind (memcpyWorker log ns) := List.foldlM_append

theorem workerSingle (log : Nat → β) (m : Memcpy) (disk : Nat → β) : memcpyWorker log [m] disk = memcpyEntry log disk m := by
  show (memcpyEntry log disk m).bind some = _
  exact bind_fun_some _

def Placed.execute (log disk : Nat → β) (p : Placed σ) : Option (Direct σ β) :=
  (memcpyWorker log p.memcpys disk).map fun x => ⟨p.space,p.ext,x⟩

def Digest.execute (log disk : Nat → β) (d : Digest σ) : Option (Written σ β) :=
  (memcpyWorker log d.memcpys disk).map fun x => ⟨d.fs,x⟩

theorem blocksCommute (A : Allocator σ) (log disk : Nat → β) (rounds : Nat) (p : Placed σ) (curOffset data left : Nat) :
    (Placed.execute log disk p).bind (fun w => directBlocks A log rounds w curOffset data left) =
      (digestBlocks A rounds p curOffset data left).bind (Placed.execute log disk) := by
  induction rounds generalizing p curOffset data left with
  | zero =>
    cases left with
    | zero => exact bind_fun_some _
    | succ left => exact bind_fun_none _
  | succ rounds ih =>
    cases left with
    | zero => exact bind_fun_some _
    | succ left =>
      have started : (Placed.execute log disk p).bind (fun w => directBlocks A log (rounds + 1) w curOffset data (left + 1)) =
          (memcpyWorker log p.memcpys disk).bind fun x => directBlocks A log (rounds + 1) ⟨p.space,p.ext,x⟩ curOffset data (left + 1) :=
        bind_map
      rw [started]
      simp only [directBlocks,digestBlocks]
      by_cases aligned : curOffset % gBlockSizeBytes ≠ 0
      · simp only [if_pos aligned]
        exact bind_fun_none _
      · simp only [if_neg aligned]
        generalize mlfsExtGetBlocks A p.space p.ext (curOffset / gBlockSizeBytes) (left + 1) = m
        by_cases bad : m.len = 0 ∨ left + 1 < m.len
        · simp only [if_pos bad]
          exact bind_fun_none _
        · have recorded : Placed.execute log disk ⟨m.space,m.ext,p.memcpys ++ [⟨false,m.pblk,data,m.len * gBlockSizeBytes,0⟩]⟩ =
              (memcpyWorker log p.memcpys disk).bind fun x =>
                (mlfsWriteOpt log x m.pblk data (m.len * gBlockSizeBytes) 0).map fun y => ⟨m.space,m.ext,y⟩ := by
            simp only [Placed.execute,workerAppend,map_bind]
            exact congrArg _ (funext fun x => congrArg _ (workerSingle log _ x))
          simp only [if_neg bad]
          rw [← ih,recorded,bind_assoc]
          simp only [bind_map,Function.comp_def]

theorem getOne (law : Lawful A used) (space : σ) (ext : Nat → Option Nat) (lblk : Nat) : (mlfsExtGetBlocks A space ext lblk 1).len = 1 := by
  unfold mlfsExtGetBlocks
  split
  · rename_i pblk mapped
    have run : runLength ext lblk pblk 1 = 1 := by simp [runLength,mapped]
    have len := law.extent space pblk 1 Nat.one_pos
    simp only [run]
    omega
  · rename_i hole
    have gap : gapLength ext lblk 1 = 1 := by simp [gapLength,hole]
    have count := law.counted space 1 Nat.one_pos
    simp only [gap]
    omega

theorem placeCommutes (law : Lawful A used) (log disk : Nat → β) (space : σ) (ext : Nat → Option Nat) (offset length blknr : Nat) :
    directPlace A log space ext disk offset length blknr = (placeFile A space ext offset length blknr).bind (Placed.execute log disk) := by
  have one := getOne law space ext (offset / gBlockSizeBytes)
  simp only [directPlace,placeFile]
  by_cases head : length < gBlockSizeBytes ∨ offset % gBlockSizeBytes ≠ 0
  · generalize mlfsExtGetBlocks A space ext (offset / gBlockSizeBytes) 1 = m at *
    rw [if_pos head,if_pos head,if_neg (not_not.mpr one),← blocksCommute]
    simp only [Placed.execute,workerSingle,memcpyEntry,if_true,bind_map,Function.comp_def]
  · rw [if_neg head,if_neg head,← blocksCommute]
    simp only [Placed.execute,workerNil,Option.map_some,bind_some]

theorem opCommutes (law : Lawful A used) (log disk : Nat → β) (area : Nat → Dinode) (d : Digest σ) (op : Op) :
    (Digest.execute log disk d).bind (fun w => directOp A log area w op) = (digestOp A area d op).bind (Digest.execute log disk) := by
  cases op with
  | inode inum blknr =>
    simp only [directOp,digestOp,Digest.execute,bind_some]
    cases memcpyWorker log d.memcpys disk <;> rfl
  | unlink inum blknr =>
    simp only [directOp,digestOp,Digest.execute,bind_some]
    cases memcpyWorker log d.memcpys disk <;> rfl
  | file inum offset length blknr =>
    simp only [directOp,digestOp,directFile,digestFile,Digest.execute,bind_map,Function.comp_def]
    cases d.fs.inode inum with
    | none => exact bind_fun_none _
    | some ino =>
      simp only [bind_map,Function.comp_def,workerAppend,placeCommutes law]
      cases memcpyWorker log d.memcpys disk with
      | none => simp
      | some x => simp only [Placed.execute,bind_some,map_bind,Option.map_map,Function.comp_def]

theorem runCommutes (law : Lawful A used) (log disk : Nat → β) (area : Nat → Dinode) (ops : List Op) (d : Digest σ) :
    (Digest.execute log disk d).bind (fun w => run (directOp A log area) w ops) =
      (run (digestOp A area) d ops).bind (Digest.execute log disk) := by
  induction ops generalizing d with
  | nil => exact bind_fun_some _
  | cons op ops ih =>
    simp only [run]
    rw [← bind_assoc,opCommutes law,bind_assoc,bind_assoc]
    exact congrArg _ (funext ih)

theorem planFaithful (law : Lawful A used) (fs : Fs σ) (table : VersionTable) (area : Nat → Dinode) (log disk : Nat → β)
    (hdrs : List Loghdr) (shaped : ∀ h ∈ hdrs, Shaped h) :
    (∀ d, run (digestOp A area) ⟨fs,[]⟩ (Range.coalesced table ⟨hdrs,area⟩) = some d → d.memcpys.length ≤ blocks hdrs) ∧
    run (directOp A log area) ⟨fs,disk⟩ (Range.coalesced table ⟨hdrs,area⟩) =
      (run (digestOp A area) ⟨fs,[]⟩ (Range.coalesced table ⟨hdrs,area⟩)).bind fun d =>
        (memcpyWorker log d.memcpys disk).map fun x => ⟨d.fs,x⟩ := by
  refine ⟨fun d digested => ?_,runCommutes law log disk area _ ⟨fs,[]⟩⟩
  calc d.memcpys.length ≤ (hdrs.map hdrEntries).sum := listsBound ⟨σ,A,used,fs,table,area,d,law,digested,rfl⟩
    _ ≤ blocks hdrs := List.sum_le_sum fun h mem => shapedBlocks (shaped h mem)

end Executes

def twoWrites : List Loghdr := [⟨10,[⟨.file,3,10,100,1⟩]⟩,⟨12,[⟨.file,3,4096,8192,1⟩]⟩]

def oneFile : Fs Nat := ⟨fun _ => some ⟨.file,0,false,emptyExt⟩,5⟩

theorem planFaithfulTwo : ∃ d, run (digestOp singles fun _ => ⟨.file,0⟩) ⟨oneFile,[]⟩
    (Range.coalesced (fun _ => 0) ⟨twoWrites,fun _ => ⟨.file,0⟩⟩) = some d ∧
    d.memcpys.length = 3 ∧ blocks twoWrites = 5 ∧
    run (directOp singles (id : Nat → Nat) fun _ => ⟨.file,0⟩) ⟨oneFile,fun _ => 0⟩
      (Range.coalesced (fun _ => 0) ⟨twoWrites,fun _ => ⟨.file,0⟩⟩) =
      (memcpyWorker id d.memcpys fun _ => 0).map fun x => ⟨d.fs,x⟩ := by
  have trace : (run (digestOp singles fun _ => ⟨.file,0⟩) ⟨oneFile,[]⟩ (Range.coalesced (fun _ => 0) ⟨twoWrites,fun _ => ⟨.file,0⟩⟩)).map
      (fun d => d.memcpys.length) = some 3 := by decide +kernel
  obtain ⟨d,digested,count⟩ := Option.map_eq_some_iff.mp trace
  have same := (planFaithful singlesLawful oneFile (fun _ => 0) (fun _ => ⟨.file,0⟩) id (fun _ => 0) twoWrites (by decide)).2
  rw [digested,Option.bind_some] at same
  exact ⟨d,digested,count,by decide,same⟩

end LineFS.MemcpyPlan
