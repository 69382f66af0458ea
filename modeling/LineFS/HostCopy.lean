import LineFS.Files
import LineFS.Replay
import LineFS.TreeRequests
import Mathlib.Logic.Function.Basic

/-! The copies of several LibFS on their way to the device. `build_memcpy_list` digests a range under
`g_publish_lock` and leaves a memcpy list behind; the lists of one LibFS are executed in order, at
their own pace. The allocator may hand out a freed block while a copy into it is still waiting. -/
namespace LineFS.HostCopy
open Base Kernfs Placement Files Replay Function

variable {σ β : Type} {A : Allocator σ} {used : σ → Nat → Prop}

def Holds (fs : Fs σ) (t : IType) (i l b : Nat) : Prop :=
  ∃ ino, fs.inode i = some ino ∧ ino.deleting = false ∧ ino.itype = t ∧ ino.ext l = some b

def Keeps (area : Nat → Dinode) (t : IType) (i l : Nat) : Op → Prop
  | .inode j blknr => j = i → t = .file → ¬ Cut (area blknr).size l
  | .file _ _ _ _ => True
  | .unlink j _ => j ≠ i

def Writes (i l : Nat) : Op → Prop
  | .file j offset length _ => j = i ∧ Touched offset length l
  | _ => False

def Stays (area : Nat → Dinode) (fs : Fs σ) (calls : List Op) (i l b : Nat) : Prop :=
  ∃ t, Holds fs t i l b ∧ ∀ op ∈ calls, Keeps area t i l op

def Leaked (used : σ → Nat → Prop) (fs : Fs σ) (b : Nat) : Prop :=
  used fs.space b ∧ ∀ i ino l, fs.inode i = some ino → ino.ext l ≠ some b

def Clear (used : σ → Nat → Prop) (area : Nat → Dinode) (fs : Fs σ) (calls : List Op) (b : Nat) : Prop :=
  (∃ i l, Stays area fs calls i l b ∧ ∀ op ∈ calls, ¬ Writes i l op) ∨ Leaked used fs b ∨
    ∀ op ∈ calls, ∀ i l, Writes i l op → ∃ c, c ≠ b ∧ Stays area fs calls i l c

def Logs : Op → Prop
  | .file _ offset length _ => Shaped offset length
  | _ => True

structure Turns (used : σ → Nat → Prop) (fs : Fs σ) (inum : Nat) (ino : Inode) (space : σ) : Prop where
  origin : ∀ l b, ino.ext l = some b → (∃ old, fs.inode inum = some old ∧ old.ext l = some b) ∨ ¬ used fs.space b
  freed : ∀ b, used fs.space b → used space b ∨
    ∃ old l, fs.inode inum = some old ∧ old.ext l = some b ∧ ino.ext l ≠ some b

section lawful
variable (law : Lawful A used)
include law

theorem freesSpare {bs : List Nat} {s : σ} {c : Nat} (spared : c ∉ bs) (was : used s c) : used (bs.foldl A.free s) c := by
  induction bs generalizing s with
  | nil => exact was
  | cons b bs ih =>
    have first : c ≠ b := fun same => spared (same ▸ (.head _))
    exact ih (fun mem => spared (.tail b mem)) (law.kept s b c was first)

theorem truncateFrees {s : σ} {ext : Nat → Option Nat} {b : Nat} (start last : Nat) (was : used s b) :
    used (mlfsExtTruncate A s ext start last).1 b ∨ ∃ l, (start ≤ l ∧ l ≤ last) ∧ ext l = some b := by
  by_cases mem : b ∈ (List.range' start (last + 1 - start)).filterMap ext
  · obtain ⟨l,within,mapped⟩ := List.mem_filterMap.mp mem
    rw [List.mem_range'_1] at within
    exact .inr ⟨l,by omega,mapped⟩
  · exact .inl (freesSpare law mem was)

theorem inodeTurns (fs : Fs σ) (inum : Nat) (src : Dinode) :
    ∃ ino space, digestInode A fs inum src = fs.put inum ino space ∧ Turns used fs inum ino space ∧
      ∀ l b, ino.ext l = some b → ∃ old, fs.inode inum = some old ∧ old.ext l = some b := by
  unfold digestInode
  dsimp only
  split
  · refine ⟨_,_,rfl,⟨?_,fun b was => ?_⟩,?_⟩
    · exact fun l b mapped => .inl (targetPart src (Option.ite_none_left_eq_some.mp mapped).2)
    · rcases truncateFrees law _ _ was with still | ⟨l,within,mapped⟩
      · exact .inl still
      · obtain ⟨old,found,mapped⟩ := targetPart src mapped
        exact .inr ⟨old,l,found,mapped,by simp only [mlfsExtTruncate,if_pos within]; simp⟩
    · exact fun l b mapped => targetPart src (Option.ite_none_left_eq_some.mp mapped).2
  · exact ⟨_,_,rfl,⟨fun l b mapped => .inl (targetPart src mapped),fun b was => .inl was⟩,
      fun l b mapped => targetPart src mapped⟩

theorem unlinkTurns (fs : Fs σ) (inum : Nat) :
    ∃ space, digestUnlink A fs inum = fs.put inum ⟨.free,0,true,emptyExt⟩ space ∧
      Turns used fs inum ⟨.free,0,true,emptyExt⟩ space := by
  refine ⟨_,rfl,⟨by simp [emptyExt],fun b was => ?_⟩⟩
  dsimp only
  split
  · rcases truncateFrees law _ _ was with still | ⟨l,_,mapped⟩
    · exact .inl still
    · rcases found : fs.inode inum with _ | old
      · simp [found,emptyExt] at mapped
      · rw [found] at mapped
        exact .inr ⟨old,l,rfl,mapped,by simp [emptyExt]⟩
  · exact .inl was

end lawful

theorem ownedTurn {fs : Fs σ} {inum : Nat} {ino : Inode} {space : σ} (h : Owned used fs)
    (part : ∀ l b, ino.ext l = some b → ∃ old, fs.inode inum = some old ∧ old.ext l = some b)
    (turns : Turns used fs inum ino space) : Owned used (fs.put inum ino space) := by
  refine ownedPart h part fun i x l b found mapped was => ?_
  refine (turns.freed b was).resolve_right fun ⟨old,k,oldFound,oldMapped,gone⟩ => ?_
  by_cases same : inum = i
  · subst same
    rw [putSame] at found
    cases found
    obtain ⟨old',found,before⟩ := part l b mapped
    have place := (h.owned inum inum old' old l k b found oldFound before oldMapped).2
    exact gone (place ▸ mapped)
  · rw [putOther same] at found
    exact same (h.owned inum i old x k l b oldFound found oldMapped mapped).1

def Reaches (m : Memcpy) (a : Nat) : Prop := m.dst ≤ a ∧ a < m.dst + m.size

structure Called (used : σ → Nat → Prop) (op : Op) (d d' : Digest σ) (ino : Inode) (space : σ)
    (ms : List Memcpy) : Prop where
  puts : d'.fs = d.fs.put op.inum ino space
  copies : d'.memcpys = d.memcpys ++ ms
  turns : Turns used d.fs op.inum ino space
  owned : Owned used d'.fs
  lands : ∀ m ∈ ms, ∀ a, Reaches m a → ∃ l, Writes op.inum l op ∧ ino.ext l = some (a / gBlockSizeBytes)

section calls
variable {area : Nat → Dinode} {d d' : Digest σ} {op : Op}

theorem fileCalled {inum offset length blknr : Nat} (taken : digestOp A area d (.file inum offset length blknr) = some d') :
    ∃ ino q, d.fs.inode inum = some ino ∧ placeFile A d.fs.space ino.ext offset length blknr = some q ∧
      d' = ⟨d.fs.put inum { ino with size := max ino.size (offset + length), ext := q.ext } q.space,
        d.memcpys ++ q.memcpys⟩ := by
  simp only [digestOp,digestFile,Option.map_eq_some_iff] at taken
  obtain ⟨r,placed,rfl⟩ := taken
  split at placed <;> try contradiction
  rename_i ino found
  obtain ⟨q,placed,rfl⟩ := Option.map_eq_some_iff.mp placed
  exact ⟨ino,q,found,‹_›,rfl⟩

theorem called (law : Lawful A used) (h : Owned used d.fs) (logs : Logs op) (taken : digestOp A area d op = some d') :
    ∃ ino space ms, Called used op d d' ino space ms := by
  cases op with
  | inode inum blknr =>
    cases taken
    obtain ⟨ino,space,puts,turns,part⟩ := inodeTurns law d.fs inum (area blknr)
    exact ⟨ino,space,[],puts,(List.append_nil _).symm,turns,puts ▸ ownedTurn h part turns,nofun⟩
  | file inum offset length blknr =>
    obtain ⟨ino,q,found,placed,rfl⟩ := fileCalled taken
    have places := filePlaced law logs placed
    refine ⟨_,_,q.memcpys,rfl,rfl,⟨fun l b mapped => ?_,fun b was => .inl (places.grows.marks b was)⟩,
      ownedGrown h found places.grows _,fun m mem a within => ?_⟩
    · exact (places.grows.adds l b mapped).imp (fun old => ⟨ino,found,old⟩) fun new => new.2.1
    · obtain ⟨pos,low,high,mapped,_⟩ := places.lands m mem a within.1 within.2
      exact ⟨_,⟨rfl,touchedInside logs low high⟩,mapped⟩
  | unlink inum blknr =>
    cases taken
    obtain ⟨space,puts,turns⟩ := unlinkTurns law d.fs inum
    exact ⟨_,space,[],puts,(List.append_nil _).symm,turns,puts ▸ ownedTurn h nofun turns,nofun⟩

theorem heldAfter (law : Lawful A used) {t : IType} {i l b : Nat} (logs : Logs op) (held : Holds d.fs t i l b)
    (keeps : Keeps area t i l op) (taken : digestOp A area d op = some d') : Holds d'.fs t i l b := by
  obtain ⟨ino,found,live,type,mapped⟩ := held
  cases op with
  | inode j blknr =>
    cases taken
    by_cases same : j = i
    · subst same
      have target : snapshotTarget (d.fs.inode j) (area blknr) = ino := by simp [snapshotTarget,found,live]
      simp only [digestInode,target]
      split
      · rename_i shrinks
        refine ⟨_,putSame,live,type,?_⟩
        have stays : ¬ Cut (area blknr).size l := keeps rfl (type.symm.trans shrinks.1)
        simp only [mlfsExtTruncate,startCut,stays,false_and,if_false]
        exact mapped
      · exact ⟨_,putSame,live,type,mapped⟩
    · obtain ⟨ext,space,put⟩ := digestInodePut A d.fs j (area blknr)
      exact ⟨ino,by rw [put,putOther same]; exact found,live,type,mapped⟩
  | file j offset length blknr =>
    obtain ⟨mine,q,here,placed,rfl⟩ := fileCalled taken
    by_cases same : j = i
    · subst same
      cases here.symm.trans found
      exact ⟨_,putSame,live,type,(filePlaced law logs placed).grows.keeps l b mapped⟩
    · exact ⟨ino,(putOther same).trans found,live,type,mapped⟩
  | unlink j blknr =>
    cases taken
    exact ⟨ino,(putOther keeps).trans found,live,type,mapped⟩

theorem leakedAfter {ino : Inode} {space : σ} {ms : List Memcpy} {b : Nat} (did : Called used op d d' ino space ms)
    (leaked : Leaked used d.fs b) : Leaked used d'.fs b := by
  rw [did.puts]
  refine ⟨(did.turns.freed b leaked.1).resolve_right fun ⟨old,l,found,mapped,_⟩ => leaked.2 _ old l found mapped,
    fun i x l found mapped => ?_⟩
  by_cases same : op.inum = i
  · subst same
    rw [putSame] at found
    cases found
    rcases did.turns.origin l b mapped with ⟨old,found,mapped⟩ | unused
    · exact leaked.2 _ old l found mapped
    · exact unused leaked.1
  · rw [putOther same] at found
    exact leaked.2 i x l found mapped

theorem clearAfter (law : Lawful A used) {ops : List Op} {ino : Inode} {space : σ} {ms : List Memcpy} {b : Nat}
    (logs : Logs op) (taken : digestOp A area d op = some d') (did : Called used op d d' ino space ms)
    (clear : Clear used area d.fs (op::ops) b) :
    Clear used area d'.fs ops b ∧ ∀ m ∈ ms, ∀ a, Reaches m a → a / gBlockSizeBytes ≠ b := by
  have here : d'.fs.inode op.inum = some ino := by rw [did.puts,putSame]
  have stays {i l c : Nat} : Stays area d.fs (op::ops) i l c → Stays area d'.fs ops i l c := fun ⟨t,held,keeps⟩ =>
    ⟨t,heldAfter law logs held (keeps op (.head _)) taken,fun o mem => keeps o (.tail op mem)⟩
  rcases clear with ⟨i,k,stay,apart⟩ | leaked | settled
  · refine ⟨.inl ⟨i,k,stays stay,fun o mem => apart o (.tail op mem)⟩,fun m mem a within same => ?_⟩
    obtain ⟨l,writes,mapped⟩ := did.lands m mem a within
    obtain ⟨_,⟨x,found,_,_,theirs⟩,_⟩ := stays stay
    rw [same] at mapped
    obtain ⟨rfl,rfl⟩ := did.owned.owned _ i ino x l k b here found mapped theirs
    exact apart op (.head _) writes
  · refine ⟨.inr (.inl (leakedAfter did leaked)),fun m mem a within same => ?_⟩
    obtain ⟨l,_,mapped⟩ := did.lands m mem a within
    exact (leakedAfter did leaked).2 _ ino l here (same ▸ mapped)
  · refine ⟨.inr (.inr fun o mem i l writes => ?_),fun m mem a within same => ?_⟩
    · obtain ⟨c,other,stay⟩ := settled o (.tail op mem) i l writes
      exact ⟨c,other,stays stay⟩
    · obtain ⟨l,writes,mapped⟩ := did.lands m mem a within
      obtain ⟨c,other,stay⟩ := settled op (.head _) _ l writes
      obtain ⟨_,⟨x,found,_,_,held⟩,_⟩ := stays stay
      cases here.symm.trans found
      exact other ((Option.some.inj (held.symm.trans mapped)).trans same)

theorem runClear (law : Lawful A used) {calls : List Op} (h : Owned used d.fs) (logs : ∀ op ∈ calls, Logs op)
    (ran : run (digestOp A area) d calls = some d') :
    Owned used d'.fs ∧ ∃ ms, d'.memcpys = d.memcpys ++ ms ∧
      ∀ b, Clear used area d.fs calls b → ∀ m ∈ ms, ∀ a, Reaches m a → a / gBlockSizeBytes ≠ b := by
  induction calls generalizing d with
  | nil =>
    cases ran
    exact ⟨h,[],(List.append_nil _).symm,nofun⟩
  | cons op ops ih =>
    obtain ⟨mid,taken,rest⟩ := Option.bind_eq_some_iff.mp ran
    have mine : Logs op := logs op (.head _)
    obtain ⟨ino,space,ns,did⟩ := called law h mine taken
    obtain ⟨owned,ms,copies,later⟩ := ih did.owned (fun o mem => logs o (.tail op mem)) rest
    refine ⟨owned,ns ++ ms,by rw [copies,did.copies,List.append_assoc],fun b clear m mem => ?_⟩
    obtain ⟨next,first⟩ := clearAfter law mine taken did clear
    exact (List.mem_append.mp mem).elim (first m) (later b next m)

end calls

instance (op : Op) : Decidable (Logs op) := by
  unfold Logs
  split <;> infer_instance

structure Published extends Range where
  logged : ∀ e ∈ toRange.entries, Logs e.op

structure Queue (β : Type) where
  lists : List (List (Copy β))
  batch : List (List (Copy β))
  sent : List (Copy β)

namespace Queue

def pending (q : Queue β) : List (Copy β) := q.sent ++ (q.batch.flatten ++ q.lists.flatten)
def idle (q : Queue β) : Bool := q.lists.isEmpty && q.batch.isEmpty && q.sent.isEmpty

end Queue

def addMemcpyListToBatch (batchMax : Nat) (q : Queue β) (list : List (Copy β)) : Option (Queue β) :=
  let batch := q.batch ++ [list]
  if batchMax < batch.length then none
  else if batch.length = batchMax then some { q with batch := [], sent := batch.flatten }
  else some { q with batch := batch }

def requestHostMemcpy (batchMax : Nat) (q : Queue β) : Option (Queue β) :=
  match q.sent,q.lists with
  | [],list::lists => addMemcpyListToBatch batchMax { q with lists := lists } list
  | _,_ => none

/- `issued` is the device on which every list is executed right after its digest. -/
structure State (σ β : Type) (n : Nat) where
  fs : Fs σ
  inodeVersionTable : VersionTable
  disk : Nat → β
  issued : Nat → β
  queue : Fin n → Queue β

def State.start {n : Nat} (fs : Fs σ) (table : VersionTable) (disk : Nat → β) : State σ β n :=
  ⟨fs,table,disk,disk,fun _ => ⟨[],[],[]⟩⟩

inductive Action (β : Type) (n : Nat) where
  | buildMemcpyList (p : Fin n) (r : Published) (log : Nat → β)
  | requestHostMemcpy (p : Fin n)
  | memcpyWorker (p : Fin n)

variable {n : Nat}

def buildMemcpyList (A : Allocator σ) (s : State σ β n) (p : Fin n) (r : Range) (log : Nat → β) : Option (State σ β n) :=
  (run (digestOp A r.area) ⟨s.fs,[]⟩ (r.coalesced s.inodeVersionTable)).map fun d =>
    let list := d.memcpys.map (Memcpy.copy log)
    { s with
      fs := d.fs
      inodeVersionTable := (r.replay s.inodeVersionTable).inodeVersionTable
      issued := Copy.executeAll list s.issued
      queue := Function.update s.queue p { s.queue p with lists := (s.queue p).lists ++ [list] } }

def memcpyWorker (s : State σ β n) (p : Fin n) : Option (State σ β n) :=
  match (s.queue p).sent with
  | [] => none
  | c::sent => some
    { s with disk := Copy.execute s.disk c, queue := Function.update s.queue p { s.queue p with sent := sent } }

def step (A : Allocator σ) (batchMax : Nat) (s : State σ β n) : Action β n → Option (State σ β n)
  | .buildMemcpyList p r log => buildMemcpyList A s p r.toRange log
  | .requestHostMemcpy p =>
    (requestHostMemcpy batchMax (s.queue p)).map fun q => { s with queue := Function.update s.queue p q }
  | .memcpyWorker p => memcpyWorker s p

def Unraced (A : Allocator σ) (used : σ → Nat → Prop) (s : State σ β n) : Action β n → Prop
  | .buildMemcpyList p r _ => (∀ q, q ≠ p → ∀ c ∈ (s.queue q).pending, ∀ a, c.Covers a →
      Clear used r.area s.fs (r.coalesced s.inodeVersionTable) (a / gBlockSizeBytes)) ∧
      ∀ q ∈ TreeRequests.ofOps A r.area ⟨s.fs,[]⟩ (r.coalesced s.inodeVersionTable), q.Fits
  | _ => True

theorem requestPending {batchMax : Nat} {q q' : Queue β} (taken : requestHostMemcpy batchMax q = some q') :
    q'.pending = q.pending := by
  obtain ⟨lists,batch,sent⟩ := q
  simp only [requestHostMemcpy] at taken
  split at taken <;> try contradiction
  rename_i list lists
  simp only [addMemcpyListToBatch] at taken
  split at taken <;> try contradiction
  split at taken <;> cases taken <;> simp [Queue.pending]

def State.pending (s : State σ β n) (p : Fin n) : List (Copy β) := (s.queue p).pending

structure Sound (used : σ → Nat → Prop) (s : State σ β n) : Prop where
  owned : Owned used s.fs
  agrees : Copy.Agrees s.pending s.disk s.issued

section steps
variable {s t : State σ β n}

theorem buildSound (law : Lawful A used) {p : Fin n} {r : Published} {log : Nat → β} (h : Sound used s)
    (fine : Unraced A used s (.buildMemcpyList p r log)) (taken : buildMemcpyList A s p r.toRange log = some t) :
    Sound used t := by
  obtain ⟨d,ran,rfl⟩ := Option.map_eq_some_iff.mp taken
  have logs : ∀ op ∈ r.coalesced s.inodeVersionTable, Logs op := fun op mem => by
    obtain ⟨e,known,rfl⟩ := coalescedFrom mem
    exact r.logged e known
  obtain ⟨owned,ms,copies,clear⟩ := runClear law h.owned logs ran
  have list : d.memcpys = ms := copies
  refine ⟨owned,Copy.agreesIssued (p := p) h.agrees ?_ (fun q other => ?_) fun q other c known e new a covers hit => ?_⟩
  · simp [State.pending,Queue.pending]
  · simp [State.pending,update_of_ne other]
  · obtain ⟨m,mem,rfl⟩ := List.mem_map.mp new
    exact clear _ (fine.1 q other c known a hit) m (list ▸ mem) a covers rfl

theorem workerSound {p : Fin n} (h : Sound used s) (taken : memcpyWorker s p = some t) : Sound used t := by
  unfold memcpyWorker at taken
  split at taken <;> try contradiction
  rename_i c sent full
  cases taken
  refine ⟨h.owned,Copy.agreesExecuted (p := p) h.agrees ?_ fun q other => ?_⟩
  · simp [State.pending,Queue.pending,full]
  · simp [State.pending,update_of_ne other]

theorem stepSound (law : Lawful A used) {batchMax : Nat} {a : Action β n} (h : Sound used s) (fine : Unraced A used s a)
    (taken : step A batchMax s a = some t) : Sound used t := by
  cases a with
  | buildMemcpyList p r log => exact buildSound law h fine taken
  | requestHostMemcpy p =>
    obtain ⟨q,requested,rfl⟩ := Option.map_eq_some_iff.mp taken
    have same : State.pending { s with queue := update s.queue p q } = s.pending := by
      funext i
      by_cases mine : i = p
      · subst mine
        simp [State.pending,requestPending requested]
      · simp [State.pending,update_of_ne mine]
    exact ⟨h.owned,same ▸ h.agrees⟩
  | memcpyWorker p => exact workerSound h taken

end steps

theorem startSound {fs : Fs σ} (owned : Owned used fs) (table : VersionTable) (disk : Nat → β) :
    Sound used (State.start fs table disk : State σ β n) :=
  ⟨owned,nofun,fun _ _ => rfl,fun _ _ ⟨_,mem,_⟩ => nomatch mem⟩

theorem idlePending {q : Queue β} (idle : q.idle = true) : q.pending = [] := by
  obtain ⟨lists,batch,sent⟩ := q
  simp_all [Queue.idle,Queue.pending]

def emptyFs : Fs (List Nat) := ⟨fun _ => none,[]⟩

theorem emptyOwned : Owned (fun inUse b => b ∈ inUse) emptyFs := ⟨nofun,nofun⟩

def creates (hdr inum : Nat) : Loghdr := ⟨hdr,[⟨.inodeCreate,inum,0,1,1⟩]⟩
def writes (hdr inum : Nat) : Loghdr := ⟨hdr,[⟨.file,inum,0,4096,1⟩]⟩
def unlinks (hdr inum : Nat) : Loghdr := ⟨hdr,[⟨.unlink,inum,0,1,1⟩]⟩

def newFile (inum : Nat) : Published :=
  ⟨⟨[creates 10 inum,writes 12 inum],fun _ => ⟨.file,0⟩⟩,by
    simp [Range.entries,Loghdr.logged,creates,writes,Entry.op,Logs,Shaped,gBlockSizeBytes]⟩

def overwrite (inum : Nat) : Published :=
  ⟨⟨[writes 10 inum],fun _ => ⟨.file,0⟩⟩,by
    simp [Range.entries,Loghdr.logged,writes,Entry.op,Logs,Shaped,gBlockSizeBytes]⟩

abbrev Two : Type := State (List Nat) UInt8 2

def blankStart : Two := .start emptyFs (fun _ => 0) fun _ => 0

def oneWaits : Two := (step topAllocator 1 blankStart (.buildMemcpyList 0 (newFile 5) fun _ => 0x61)).getD blankStart
def secondDigest : Action UInt8 2 := .buildMemcpyList 1 (newFile 6) fun _ => 0x62
def served : List (Action UInt8 2) := [.requestHostMemcpy 1,.memcpyWorker 1,.requestHostMemcpy 0,.memcpyWorker 0]

theorem waitingClear : Unraced topAllocator (fun inUse b => b ∈ inUse) oneWaits secondDigest := by
  refine ⟨fun q other c mem a covers => ?_,by decide +kernel⟩
  have pending : (oneWaits.queue 0).pending.map (fun c => (c.dst,c.len)) = [(4096,4096)] := by decide +kernel
  have calls : (newFile 6).coalesced oneWaits.inodeVersionTable = [.inode 6 11,.file 6 0 4096 13] := by decide +kernel
  have place : (oneWaits.fs.inode 5).map (fun ino => (ino.deleting,ino.itype,ino.ext 0)) =
      some (false,.file,some 1) := by decide +kernel
  obtain ⟨ino,found,is⟩ := Option.map_eq_some_iff.mp place
  simp only [Prod.mk.injEq] at is
  obtain rfl : q = 0 := by omega
  have range : (c.dst,c.len) ∈ [(4096,4096)] := pending ▸ List.mem_map_of_mem mem
  simp only [List.mem_singleton,Prod.mk.injEq] at range
  have block : a / gBlockSizeBytes = 1 := by
    simp only [Copy.Covers,gBlockSizeBytes] at *
    omega
  rw [block,calls]
  exact .inl ⟨5,0,⟨.file,⟨ino,found,is⟩,by simp [Keeps]⟩,by simp [Writes]⟩

def twoFiles : Published :=
  ⟨⟨[creates 10 7,writes 12 7,creates 14 5,writes 16 5],fun _ => ⟨.file,0⟩⟩,by
    simp [Range.entries,Loghdr.logged,creates,writes,Entry.op,Logs,Shaped,gBlockSizeBytes]⟩

def removal : Published :=
  ⟨⟨[unlinks 18 5,writes 20 7],fun _ => ⟨.file,0⟩⟩,by
    simp [Range.entries,Loghdr.logged,unlinks,writes,Entry.op,Logs,Shaped,gBlockSizeBytes]⟩

def firstDigests : List (Action UInt8 2) :=
  ([twoFiles,removal] ++ List.replicate 28 (overwrite 7)).map fun r => .buildMemcpyList 0 r fun _ => 0x61
def secondDigests : List (Action UInt8 2) :=
  (newFile 6::List.replicate 29 (overwrite 6)).map fun r => .buildMemcpyList 1 r fun _ => 0x62
def drains (p : Fin 2) (copies : Nat) : List (Action UInt8 2) :=
  List.replicate 30 (.requestHostMemcpy p) ++ List.replicate copies (.memcpyWorker p)

end LineFS.HostCopy
