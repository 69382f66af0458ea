import LineFS.HostCopy
import LineFS.ReadPath

/-! What a file reveals of other files. Several LibFS create, write, truncate, unlink and read files; a
publication digests the oldest entry of a log and executes its copies. Two runs of the same calls that
differ in bytes written to other files agree in inodes, trees and caches, and in the reads of a file if
every block it takes is written as a whole and no copy of its tree outlives its blocks. -/
namespace LineFS.Isolation
open Option (bind_eq_some_iff bind_some map_eq_some_iff map_some)
open Base Bitmap Kernfs Placement Files HostCopy Overlay ReadPath Function

variable {σ β : Type}

structure Cached where
  itype : IType
  size : Nat
  deleting : Bool
  ext : Nat → Option Nat
  fcache : Nat → Option FcacheBlock

structure Lib (β : Type) where
  icache : Nat → Option Cached
  log : Nat → β
  area : Nat → Dinode
  nextAvailHeader : Nat
  availVersion : Nat
  pending : List Op

structure Reading (β : Type) where
  inum : Nat
  off : Nat
  bytes : Option (List β)
  deriving DecidableEq

structure State (σ β : Type) where
  fs : Fs σ
  disk : Nat → β
  lib : Nat → Lib β
  reads : List (Reading β)

namespace Lib

def put (l : Lib β) (inum : Nat) (c : Cached) : Lib β := { l with icache := Function.update l.icache inum (some c) }

def placed (hdrBlkno : Nat) : Nat → List (Copy β) → List (Nat × Copy β)
  | _,[] => []
  | pos,e::es => (hdrBlkno + pos,e)::placed hdrBlkno (pos + entryBlocks e.len) es

def entry (inum : Nat) (p : Nat × Copy β) : Op := .file inum p.2.dst p.2.len p.1

def logged (l : Lib β) (op : Nat → Op) : Lib β :=
  { l with nextAvailHeader := l.nextAvailHeader + 2, pending := l.pending ++ [op (l.nextAvailHeader + 1)] }

def iupdate (l : Lib β) (inum : Nat) (c : Cached) : Lib β :=
  let l := l.put inum c
  { l.logged (.inode inum) with area := Function.update l.area (l.nextAvailHeader + 1) ⟨c.itype,c.size⟩ }

def icreate (l : Lib β) (inum : Nat) (itype : IType) : Option (Lib β) :=
  if (l.icache inum).all Cached.deleting then some (l.iupdate inum ⟨itype,0,false,emptyExt,fun _ => none⟩) else none

def iget (fs : Fs σ) (l : Lib β) (inum : Nat) : Option (Lib β) :=
  match l.icache inum with
  | some _ => none
  | none => (fs.inode inum).map fun ino => l.put inum ⟨ino.itype,ino.size,false,ino.ext,fun _ => none⟩

def view (l : Lib β) (c : Cached) : LibFS β := ⟨c.size,c.fcache,l.log,l.nextAvailHeader,l.availVersion⟩

def committed (l : Lib β) (inum : Nat) (c : Cached) (w : Copy β) (s : LibFS β) : Lib β :=
  { l.put inum { c with size := s.size, fcache := s.fcache } with
    log := s.log
    nextAvailHeader := s.nextAvailHeader
    pending := l.pending ++ (placed l.nextAvailHeader 1 (pieces w)).map (entry inum) }

def write (l : Lib β) (inum : Nat) (w : Copy β) : Option (Lib β) :=
  (l.icache inum).bind fun c => (mlfsFileWrite (l.view c) w).map (l.committed inum c w)

def itrunc (l : Lib β) (inum length : Nat) : Option (Lib β) :=
  (l.icache inum).bind fun c =>
    if c.deleting then none
    else some (l.iupdate inum { c with size := length, fcache := if length = 0 then fun _ => none else c.fcache })

def unlink (l : Lib β) (inum : Nat) : Option (Lib β) :=
  (l.icache inum).bind fun c =>
    if c.deleting then none
    else some ((l.put inum { c with itype := .free, size := 0, deleting := true }).logged (.unlink inum))

def sync (fs : Fs σ) (l : Lib β) : Lib β :=
  { l with
    icache := fun i => (l.icache i).map fun c =>
      if c.deleting then c else { c with ext := ((fs.inode i).map Inode.ext).getD emptyExt } }

end Lib

inductive Action (β : Type) where
  | create (k inum : Nat) (itype : IType)
  | iget (k inum : Nat)
  | write (k inum : Nat) (w : Copy β)
  | truncate (k inum length : Nat)
  | unlink (k inum : Nat)
  | publish (k : Nat)
  | sync (k : Nat)
  | read (k inum : Nat) (buf : Nat → β) (off n : Nat)

def State.setLib (s : State σ β) (k : Nat) (l : Lib β) : State σ β := { s with lib := Function.update s.lib k l }

section step
variable {A : Allocator σ} {used : σ → Nat → Prop} (law : Lawful A used)

def treeOf (s : State σ β) (c : Cached) : Published β :=
  ⟨c.size,c.ext,A.extentLen s.fs.space,law.extent s.fs.space,s.disk⟩

def answer (l : LibFS β) (pub : Published β) (buf : Nat → β) (off n : Nat) : Option (List β) :=
  (readi l pub buf off n).map fun r => (List.range r.1).map fun i => r.2 (off + i)

def publish (A : Allocator σ) (s : State σ β) (k : Nat) : Option (State σ β) :=
  match (s.lib k).pending with
  | [] => none
  | op::rest => (digestOp A (s.lib k).area ⟨s.fs,[]⟩ op).map fun d =>
    { s.setLib k { s.lib k with pending := rest } with
      fs := d.fs
      disk := diskOf (s.lib k).log s.disk d }

def step (s : State σ β) : Action β → Option (State σ β)
  | .create k inum itype => ((s.lib k).icreate inum itype).map (s.setLib k)
  | .iget k inum => ((s.lib k).iget s.fs inum).map (s.setLib k)
  | .write k inum w => ((s.lib k).write inum w).map (s.setLib k)
  | .truncate k inum length => ((s.lib k).itrunc inum length).map (s.setLib k)
  | .unlink k inum => ((s.lib k).unlink inum).map (s.setLib k)
  | .publish k => publish A s k
  | .sync k => some (s.setLib k ((s.lib k).sync s.fs))
  | .read k inum buf off n =>
    ((s.lib k).icache inum).map fun c =>
      { s with reads := s.reads ++ [⟨inum,off,answer ((s.lib k).view c) (treeOf law s c) buf off n⟩] }

end step

def init (fs : Fs σ) (disk log : Nat → β) : State σ β :=
  ⟨fs,disk,fun _ => ⟨fun _ => none,log,fun _ => ⟨.free,0⟩,2,1,[]⟩,[]⟩

inductive Alike (f : Nat) : Action β → Action β → Prop where
  | same (a : Action β) : Alike f a a
  | other {k inum dst len : Nat} {byte byte' : Nat → β} (differ : inum ≠ f) :
      Alike f (.write k inum ⟨dst,len,byte⟩) (.write k inum ⟨dst,len,byte'⟩)

def readsOf (f : Nat) (s : State σ β) : List (Reading β) := s.reads.filter fun r => r.inum = f

def mapped (fs : Fs σ) (f l : Nat) : Option Nat := (fs.inode f).bind fun ino => ino.ext l

def CoversNew (f : Nat) (fs : Fs σ) : List Op → Prop
  | .file inum offset length _::_ => inum = f → ∀ l < offset / gBlockSizeBytes + getBlkCntFromLength length,
      offset / gBlockSizeBytes ≤ l → mapped fs f l = none →
        offset ≤ l * gBlockSizeBytes ∧ (l + 1) * gBlockSizeBytes ≤ offset + length
  | _ => True

def TreeCurrent (f : Nat) (fs : Fs σ) (c : Option Cached) (off n : Nat) : Prop :=
  ∀ l < align (off + n) / gBlockSizeBytes, off / gBlockSizeBytes ≤ l →
    ∀ x ∈ c, ∀ b ∈ x.ext l, mapped fs f l = some b

def Sealed (A : Allocator σ) (f : Nat) (s : State σ β) : Action β → Prop
  | .publish k => CoversNew f s.fs (s.lib k).pending ∧
      ∀ q ∈ TreeRequests.ofOps A (s.lib k).area ⟨s.fs,[]⟩ ((s.lib k).pending.take 1), q.Fits
  | .read k inum _ off n => inum = f → TreeCurrent f s.fs ((s.lib k).icache f) off n
  | _ => True

instance (f : Nat) (fs : Fs σ) : (ops : List Op) → Decidable (CoversNew f fs ops)
  | [] => .isTrue trivial
  | .inode _ _::_ => .isTrue trivial
  | .unlink _ _::_ => .isTrue trivial
  | .file _ _ _ _::_ => by unfold CoversNew; infer_instance
instance (f : Nat) (fs : Fs σ) (c : Option Cached) (off n : Nat) : Decidable (TreeCurrent f fs c off n) := by
  unfold TreeCurrent; infer_instance
instance (A : Allocator σ) (f : Nat) (s : State σ β) (a) : Decidable (Sealed A f s a) := by cases a <;> unfold Sealed <;> infer_instance

def mirror (s : State σ β) (disk : Nat → β) (logs : Nat → Nat → β) (reads : List (Reading β)) : State σ β :=
  ⟨s.fs,disk,fun k => { s.lib k with log := logs k },reads⟩

def Shares (l : Lib β) (log : Nat → β) (start len : Nat) : Prop :=
  ∀ i < len, start + i < l.nextAvailHeader * gBlockSizeBytes ∧ log (start + i) = l.log (start + i)

def cachedLogs (c : Cached) (key : Nat) : List FcacheLog := ((c.fcache key).map FcacheBlock.logs).getD []

structure SharesFile (f : Nat) (l : Lib β) (log : Nat → β) : Prop where
  logs : ∀ op ∈ l.pending, Logs op
  entries : ∀ offset length blknr, Op.file f offset length blknr ∈ l.pending →
    Shares l log (blknr * gBlockSizeBytes + offset % gBlockSizeBytes) length
  cached : ∀ c key p, l.icache f = some c → p ∈ cachedLogs c key → Shares l log (p.addr * gBlockSizeBytes + p.offset) p.size

def SameBlocks (f : Nat) (fs : Fs σ) (disk disk' : Nat → β) : Prop :=
  ∀ l b o, mapped fs f l = some b → o < gBlockSizeBytes → disk' (b * gBlockSizeBytes + o) = disk (b * gBlockSizeBytes + o)

structure Agree (used : σ → Nat → Prop) (f : Nat) (s : State σ β) (disk : Nat → β) (logs : Nat → Nat → β)
    (reads : List (Reading β)) : Prop where
  owned : Owned used s.fs
  blocks : SameBlocks f s.fs s.disk disk
  libs : ∀ k, SharesFile f (s.lib k) (logs k)
  seen : reads.filter (fun r => r.inum = f) = readsOf f s

section libs
variable {f : Nat} {l m : Lib β} {log : Nat → β}

structure Carries (f : Nat) (l m : Lib β) : Prop where
  log : m.log = l.log
  next : l.nextAvailHeader ≤ m.nextAvailHeader
  pending : ∀ op ∈ m.pending, op ∈ l.pending ∨ op.isFile = false
  cached : ∀ c key p, m.icache f = some c → p ∈ cachedLogs c key → ∃ c', l.icache f = some c' ∧ p ∈ cachedLogs c' key

theorem carriesShare (h : SharesFile f l log) (carries : Carries f l m) : SharesFile f m log := by
  have kept {start len : Nat} (shares : Shares l log start len) : Shares m log start len := by
    intro i less
    obtain ⟨below,same⟩ := shares i less
    exact ⟨Nat.lt_of_lt_of_le below (Nat.mul_le_mul_right _ carries.next),carries.log ▸ same⟩
  refine ⟨fun op mem => ?_,fun offset length blknr mem => ?_,fun c key p here mem => ?_⟩
  · rcases carries.pending op mem with old | other
    · exact h.logs op old
    · cases op with
      | file => cases other
      | inode => trivial
      | unlink => trivial
  · rcases carries.pending _ mem with old | other
    · exact kept (h.entries offset length blknr old)
    · cases other
  · obtain ⟨c',there,mem⟩ := carries.cached c key p here mem
    exact kept (h.cached c' key p there mem)

theorem cachedNone {key : Nat} {p : FcacheLog} {c : Cached} (none : c.fcache = fun _ => none) : p ∉ cachedLogs c key := by
  rw [cachedLogs,none]
  exact List.not_mem_nil

variable {inum : Nat}

theorem putCached {c : Cached}
    (part : ∀ key p, p ∈ cachedLogs c key → ∃ c', l.icache inum = some c' ∧ p ∈ cachedLogs c' key) :
    ∀ x key p, (l.put inum c).icache f = some x → p ∈ cachedLogs x key → ∃ c', l.icache f = some c' ∧ p ∈ cachedLogs c' key := by
  intro x key p here mem
  by_cases same : f = inum
  · subst same
    simp only [Lib.put,update_self] at here
    cases here
    exact part key p mem
  · simp only [Lib.put,update_of_ne same] at here
    exact ⟨x,here,mem⟩

theorem loggedCarries {c : Cached} {op : Nat → Op} (other : ∀ b, (op b).isFile = false) (area : Nat → Dinode)
    (part : ∀ key p, p ∈ cachedLogs c key → ∃ c', l.icache inum = some c' ∧ p ∈ cachedLogs c' key) :
    Carries f l { (l.put inum c).logged op with area := area } := by
  refine ⟨rfl,Nat.le_add_right _ 2,fun o mem => ?_,putCached part⟩
  rcases memSnoc mem with old | rfl
  · exact .inl old
  · exact .inr (other _)

theorem createCarries {itype : IType} (taken : l.icreate inum itype = some m) : Carries f l m := by
  obtain ⟨_,rfl⟩ := ifTaken taken
  exact loggedCarries (fun _ => rfl) _ fun key p mem => absurd mem (cachedNone rfl)

theorem igetCarries {fs : Fs σ} (taken : l.iget fs inum = some m) : Carries f l m := by
  unfold Lib.iget at taken
  split at taken <;> try contradiction
  obtain ⟨ino,_,rfl⟩ := map_eq_some_iff.mp taken
  exact ⟨rfl,Nat.le_refl _,fun op mem => .inl mem,putCached fun key p mem => absurd mem (cachedNone rfl)⟩

theorem truncCarries {length : Nat} (taken : l.itrunc inum length = some m) : Carries f l m := by
  obtain ⟨c,here,taken⟩ := bind_eq_some_iff.mp taken
  obtain ⟨_,rfl⟩ := unlessTaken taken
  refine loggedCarries (fun _ => rfl) _ fun key p mem => ⟨c,here,?_⟩
  simp only [cachedLogs] at mem ⊢
  split at mem
  · exact nomatch mem
  · exact mem

theorem unlinkCarries (taken : l.unlink inum = some m) : Carries f l m := by
  obtain ⟨c,here,taken⟩ := bind_eq_some_iff.mp taken
  obtain ⟨_,rfl⟩ := unlessTaken taken
  exact loggedCarries (fun _ => rfl) _ fun key p mem => ⟨c,here,mem⟩

theorem syncCarries (fs : Fs σ) : Carries f l (l.sync fs) := by
  refine ⟨rfl,Nat.le_refl _,fun op mem => .inl mem,fun c key p here mem => ?_⟩
  obtain ⟨c',there,rfl⟩ := map_eq_some_iff.mp here
  refine ⟨c',there,?_⟩
  split at mem <;> exact mem

end libs

def image (p : Nat × Copy β) : Copy β := ⟨p.1 * gBlockSizeBytes + p.2.dst % gBlockSizeBytes,p.2.len,p.2.byte⟩

def images (hdrBlkno pos : Nat) (es : List (Copy β)) : List (Copy β) := (Lib.placed hdrBlkno pos es).map image

def SamePlace (e e' : Copy β) : Prop := e.dst = e'.dst ∧ e.len = e'.len

section writes
variable {s : LibFS β} {hdrBlkno pos : Nat} {e e' : Copy β} {es es' : List (Copy β)} {log : Nat → β}

theorem checkPart {version next : Nat} {b : FcacheBlock} {p : FcacheLog}
    (mem : p ∈ (checkLogInvalidation version next b).logs) : p ∈ b.logs := by
  simp only [checkLogInvalidation] at mem
  split at mem
  · cases mem
  · exact (List.mem_filter.mp mem).1

theorem placedWithin {p : Nat × Copy β} (mem : p ∈ Lib.placed hdrBlkno pos es) :
    p.2 ∈ es ∧ hdrBlkno + pos ≤ p.1 ∧ p.1 + entryBlocks p.2.len ≤ hdrBlkno + pos + (es.map fun e => entryBlocks e.len).sum := by
  induction es generalizing pos with
  | nil => exact nomatch mem
  | cons e es ih =>
    simp only [List.map_cons,List.sum_cons]
    rcases List.mem_cons.mp mem with rfl | later
    · exact ⟨.head _,Nat.le_refl _,by dsimp only; omega⟩
    · obtain ⟨listed,low,high⟩ := ih later
      exact ⟨.tail _ listed,by omega,by omega⟩

theorem imageWithin {p : Nat × Copy β} (shaped : Shaped p.2.dst p.2.len) : p.1 * gBlockSizeBytes ≤ (image p).dst ∧
    (image p).dst + (image p).len ≤ (p.1 + entryBlocks p.2.len) * gBlockSizeBytes := by
  refine ⟨Nat.le_add_right _ _,?_⟩
  simp only [image,entryBlocks]
  obtain ⟨_,small | whole⟩ := shaped
  · rw [if_pos small.1]
    simp only [gBlockSizeBytes] at *
    omega
  · have large : ¬p.2.len < gBlockSizeBytes := by
      simp only [gBlockSizeBytes] at *
      omega
    rw [if_neg large,whole.2,Nat.add_mul,Nat.div_mul_cancel (Nat.dvd_of_mod_eq_zero whole.1)]
    omega

theorem persistEffect (shaped : Shaped e.dst e.len) : let r := persistLogFile hdrBlkno (s,pos) e
    r.1.log = Copy.execute s.log (image (hdrBlkno + pos,e)) ∧ r.2 = pos + entryBlocks e.len ∧
    ∀ k, ∀ p ∈ rawLogs r.1 k, p ∈ rawLogs s k ∨ ∀ i < p.size, (image (hdrBlkno + pos,e)).Covers (p.addr * gBlockSizeBytes + p.offset + i) := by
  simp only [persistLogFile,entryBlocks]
  split
  · refine ⟨rfl,rfl,fun k p mem => ?_⟩
    simp only [persistSmall,rawLogs,putBlock] at mem
    split at mem
    · rename_i here
      rcases List.mem_cons.mp mem with rfl | old
      · refine .inr fun i less => ?_
        simp only [image,Copy.Covers] at less ⊢
        omega
      · refine .inl ?_
        rw [rawLogs,here]
        cases found : s.fcache (e.dst / gBlockSizeBytes) with
        | none =>
          rw [found] at old
          cases old
        | some b =>
          rw [found] at old
          exact checkPart old
    · exact .inl mem
  · rename_i large
    have whole : e.len % gBlockSizeBytes = 0 ∧ e.dst % gBlockSizeBytes = 0 := by
      unfold Shaped at shaped
      omega
    refine ⟨by simp only [persistLarge,image,whole.2,Nat.add_zero],rfl,fun k p mem => ?_⟩
    simp only [persistLarge,rawLogs,overwritten] at mem
    split at mem
    · rename_i here
      obtain rfl := List.mem_singleton.mp mem
      refine .inr fun i less => ?_
      have blocks := Nat.div_mul_cancel (Nat.dvd_of_mod_eq_zero whole.1)
      simp only [image,Copy.Covers,whole.2] at *
      simp only [gBlockSizeBytes] at *
      omega
    · exact .inl mem

theorem piecesEffect (shaped : ∀ e ∈ es, Shaped e.dst e.len) : let r := es.foldl (persistLogFile hdrBlkno) (s,pos)
    r.1.log = Copy.executeAll (images hdrBlkno pos es) s.log ∧
    ∀ k, ∀ p ∈ rawLogs r.1 k, p ∈ rawLogs s k ∨
      ∃ c ∈ images hdrBlkno pos es, ∀ i < p.size, c.Covers (p.addr * gBlockSizeBytes + p.offset + i) := by
  induction es generalizing s pos with
  | nil => exact ⟨rfl,fun k p mem => .inl mem⟩
  | cons e es ih =>
    obtain ⟨first,next,pieces⟩ := @persistEffect β s hdrBlkno pos e (shaped e (.head _))
    obtain ⟨log,later⟩ := @ih (persistLogFile hdrBlkno (s,pos) e).1 (persistLogFile hdrBlkno (s,pos) e).2
      fun d mem => shaped d (.tail _ mem)
    have rest : images hdrBlkno pos (e::es) = image (hdrBlkno + pos,e)::images hdrBlkno (persistLogFile hdrBlkno (s,pos) e).2 es := by
      rw [next]
      rfl
    rw [rest]
    refine ⟨log.trans (by rw [first]; rfl),fun k p mem => ?_⟩
    rcases later k p mem with old | ⟨c,listed,covers⟩
    · exact (pieces k p old).imp_right fun covers => ⟨_,.head _,covers⟩
    · exact .inr ⟨c,.tail _ listed,covers⟩

theorem persistSame (same : SamePlace e e') : ∃ log', persistLogFile hdrBlkno ({ s with log := log },pos) e' =
    ({ (persistLogFile hdrBlkno (s,pos) e).1 with log := log' },(persistLogFile hdrBlkno (s,pos) e).2) := by
  obtain ⟨start,count⟩ := same
  simp only [persistLogFile,← count]
  split
  · simp only [persistSmall,← start,← count]
    exact ⟨_,rfl⟩
  · simp only [persistLarge,← start,← count]
    exact ⟨_,rfl⟩

theorem foldSame (same : List.Forall₂ SamePlace es es') : ∃ log', es'.foldl (persistLogFile hdrBlkno) ({ s with log := log },pos) =
    ({ (es.foldl (persistLogFile hdrBlkno) (s,pos)).1 with log := log' },(es.foldl (persistLogFile hdrBlkno) (s,pos)).2) := by
  induction same generalizing s pos log with
  | nil => exact ⟨log,rfl⟩
  | @cons e e' es es' first _ ih =>
    obtain ⟨log₁,head⟩ := @persistSame β s hdrBlkno pos e e' log first
    rw [List.foldl_cons,List.foldl_cons,head]
    exact ih

theorem foldNext : (es.foldl (persistLogFile hdrBlkno) (s,pos)).1.nextAvailHeader = s.nextAvailHeader := by
  induction es generalizing s pos with
  | nil => rfl
  | cons e es ih =>
    refine (@ih (persistLogFile hdrBlkno (s,pos) e).1 (persistLogFile hdrBlkno (s,pos) e).2).trans ?_
    unfold persistLogFile
    split <;> rfl

theorem placedSame (inum : Nat) (same : List.Forall₂ SamePlace es es') :
    (Lib.placed hdrBlkno pos es').map (Lib.entry inum) = (Lib.placed hdrBlkno pos es).map (Lib.entry inum) := by
  induction same generalizing pos with
  | nil => rfl
  | @cons e e' es es' first _ ih =>
    simp only [Lib.placed,List.map_cons,Lib.entry,← first.1,← first.2,ih]

theorem addSame (same : List.Forall₂ SamePlace es es') (size : Nat) : es'.foldl addToLog size = es.foldl addToLog size := by
  induction same generalizing size with
  | nil => rfl
  | @cons e e' es es' first _ ih =>
    simp only [List.foldl_cons,addToLog,← first.1,← first.2,ih]

theorem piecesSame (dst len : Nat) (byte byte' : Nat → β) : List.Forall₂ SamePlace (pieces ⟨dst,len,byte⟩) (pieces ⟨dst,len,byte'⟩) := by
  simp only [pieces,List.filter_cons,List.filter_nil]
  split_ifs <;> simp [SamePlace]

structure Wrote (s t : LibFS β) (cs : List (Copy β)) : Prop where
  log : t.log = Copy.executeAll cs s.log
  next : s.nextAvailHeader ≤ t.nextAvailHeader
  behind : ∀ c ∈ cs, s.nextAvailHeader * gBlockSizeBytes ≤ c.dst ∧ c.dst + c.len ≤ t.nextAvailHeader * gBlockSizeBytes
  pieces : ∀ k, ∀ p ∈ rawLogs t k, p ∈ rawLogs s k ∨
    ∃ c ∈ cs, ∀ i < p.size, c.Covers (p.addr * gBlockSizeBytes + p.offset + i)

theorem writeEffect {t : LibFS β} {w : Copy β} (wrote : mlfsFileWrite s w = some t) :
    Wrote s t (images s.nextAvailHeader 1 (pieces w)) := by
  rw [mlfsFileWrite] at wrote
  split at wrote
  · cases wrote
  · split at wrote
    · rename_i empty
      cases wrote
      rw [List.isEmpty_iff.mp empty]
      exact ⟨rfl,Nat.le_refl _,fun c mem => absurd mem List.not_mem_nil,fun k p mem => .inl mem⟩
    · cases wrote
      obtain ⟨log,pieces'⟩ := @piecesEffect β
        { s with size := (pieces w).foldl addToLog s.size, nextAvailHeader := s.nextAvailHeader + writeBlocks w.dst w.len }
        s.nextAvailHeader 1 (pieces w) (piecesShaped w)
      have kept := @foldNext β
        { s with size := (pieces w).foldl addToLog s.size, nextAvailHeader := s.nextAvailHeader + writeBlocks w.dst w.len }
        s.nextAvailHeader 1 (pieces w)
      have blocks := piecesBlocks w
      refine ⟨log,by rw [kept]; exact Nat.le_add_right _ _,fun c mem => ?_,pieces'⟩
      obtain ⟨p,listed,rfl⟩ := List.mem_map.mp mem
      obtain ⟨piece,low,high⟩ := placedWithin listed
      obtain ⟨first,last⟩ := imageWithin (piecesShaped w _ piece)
      have start := Nat.mul_le_mul_right gBlockSizeBytes (show s.nextAvailHeader ≤ p.1 by omega)
      have stop := Nat.mul_le_mul_right gBlockSizeBytes (show p.1 + entryBlocks p.2.len ≤ s.nextAvailHeader + writeBlocks w.dst w.len by omega)
      rw [kept]
      exact ⟨Nat.le_trans start first,Nat.le_trans last stop⟩

theorem writeMirrored {t : LibFS β} {dst len : Nat} {byte : Nat → β} (byte' log : Nat → β) (wrote : mlfsFileWrite s ⟨dst,len,byte⟩ = some t) :
    mlfsFileWrite { s with log := log } ⟨dst,len,byte'⟩ =
      some { t with log := Copy.executeAll (images s.nextAvailHeader 1 (pieces ⟨dst,len,byte'⟩)) log } := by
  have same := piecesSame dst len byte byte'
  have some : ∃ log', mlfsFileWrite { s with log := log } ⟨dst,len,byte'⟩ = some { t with log := log' } := by
    have blank : (pieces ⟨dst,len,byte'⟩).isEmpty = (pieces ⟨dst,len,byte⟩).isEmpty := by
      rw [Bool.eq_iff_iff,piecesEmpty,piecesEmpty]
    simp only [mlfsFileWrite,addSame same] at wrote ⊢
    rw [blank]
    split at wrote
    · cases wrote
    · split at wrote
      · cases wrote
        rename_i short empty
        exact ⟨log,by rw [if_neg short,if_pos empty]⟩
      · cases wrote
        rename_i short filled
        obtain ⟨log',fold⟩ := @foldSame β
          { s with size := (pieces ⟨dst,len,byte⟩).foldl addToLog s.size, nextAvailHeader := s.nextAvailHeader + writeBlocks dst len }
          s.nextAvailHeader 1 _ _ log same
        exact ⟨log',by rw [if_neg short,if_neg filled]; exact congrArg (fun r => some r.1) fold⟩
  obtain ⟨log',there⟩ := some
  rw [there]
  congr 2
  exact (writeEffect there).log

end writes

section files
variable {f inum : Nat} {l m : Lib β} {c : Cached} {w : Copy β} {t : LibFS β} {log : Nat → β} {cs : List (Copy β)}

theorem behindMiss {bound a : Nat} (behind : ∀ d ∈ cs, bound ≤ d.dst) (below : a < bound) (mem : Nat → β) :
    Copy.executeAll cs mem a = mem a :=
  Copy.executeMiss fun d listed covers => by
    have first := behind d listed
    have start := covers.1
    omega

theorem committedShares (h : SharesFile f l log) (here : l.icache inum = some c)
    (wrote : Wrote (l.view c) t (images l.nextAvailHeader 1 (pieces w)))
    (behind : ∀ d ∈ cs, l.nextAvailHeader * gBlockSizeBytes ≤ d.dst)
    (same : inum = f → cs = images l.nextAvailHeader 1 (pieces w)) :
    SharesFile f (l.committed inum c w t) (Copy.executeAll cs log) := by
  have kept {start n : Nat} (shares : Shares l log start n) : Shares (l.committed inum c w t) (Copy.executeAll cs log) start n := by
    intro i less
    obtain ⟨below,agree⟩ := shares i less
    refine ⟨Nat.lt_of_lt_of_le below (Nat.mul_le_mul_right _ wrote.next),?_⟩
    rw [behindMiss behind below,agree]
    refine Eq.trans (Eq.symm ?_) (congrFun wrote.log _).symm
    exact behindMiss (fun d mem => (wrote.behind d mem).1) below _
  have filled {start n : Nat} {d : Copy β} (mine : inum = f) (listed : d ∈ images l.nextAvailHeader 1 (pieces w))
      (covers : ∀ i < n, d.Covers (start + i)) : Shares (l.committed inum c w t) (Copy.executeAll cs log) start n := by
    refine fun i less => ⟨Nat.lt_of_lt_of_le (covers i less).2 (wrote.behind d listed).2,?_⟩
    rw [same mine]
    exact (Copy.executeCovered ⟨d,listed,covers i less⟩).trans (congrFun wrote.log _).symm
  refine ⟨fun op mem => ?_,fun offset length blknr mem => ?_,fun x key p found mem => ?_⟩
  · rcases List.mem_append.mp mem with old | new
    · exact h.logs op old
    · obtain ⟨p,listed,rfl⟩ := List.mem_map.mp new
      exact piecesShaped w _ (placedWithin listed).1
  · rcases List.mem_append.mp mem with old | new
    · exact kept (h.entries offset length blknr old)
    · obtain ⟨⟨b,e⟩,listed,entry⟩ := List.mem_map.mp new
      simp only [Lib.entry,Op.file.injEq] at entry
      obtain ⟨rfl,rfl,rfl,rfl⟩ := entry
      refine filled rfl (List.mem_map_of_mem listed) fun i less => ?_
      simp only [image,Copy.Covers]
      omega
  · by_cases mine : inum = f
    · subst mine
      simp only [Lib.committed,Lib.put,update_self,Option.some.injEq] at found
      subst found
      rcases wrote.pieces key p mem with old | ⟨d,listed,covers⟩
      · exact kept (h.cached c key p here old)
      · exact filled rfl listed covers
    · simp only [Lib.committed,Lib.put,update_of_ne (Ne.symm mine)] at found
      exact kept (h.cached x key p found mem)

theorem writeShares {dst len : Nat} {byte byte' : Nat → β} (h : SharesFile f l log) (same : inum = f → byte = byte')
    (taken : l.write inum ⟨dst,len,byte⟩ = some m) :
    ∃ log', ({ l with log := log } : Lib β).write inum ⟨dst,len,byte'⟩ = some { m with log := log' } ∧ SharesFile f m log' := by
  obtain ⟨c,here,taken⟩ := bind_eq_some_iff.mp taken
  obtain ⟨t,wrote,rfl⟩ := map_eq_some_iff.mp taken
  have mirrored : mlfsFileWrite (({ l with log := log } : Lib β).view c) ⟨dst,len,byte'⟩ = _ := writeMirrored byte' log wrote
  have entries := @placedSame β l.nextAvailHeader 1 _ _ inum (piecesSame dst len byte byte')
  refine ⟨Copy.executeAll (images l.nextAvailHeader 1 (pieces ⟨dst,len,byte'⟩)) log,?_,?_⟩
  · simp only [Lib.write,here,mirrored,bind_some,map_some,Lib.committed,entries]
    rfl
  · refine committedShares h here (writeEffect wrote) (fun d mem => ((writeEffect mirrored).behind d mem).1) fun mine => ?_
    rw [same mine]

end files

section publish
variable {A : Allocator σ} {used : σ → Nat → Prop} {f : Nat} {fs : Fs σ} {disk disk' log log' : Nat → β}
  {area : Nat → Dinode} {d : Digest σ} {op : Op}

theorem mappedSome {l b : Nat} : mapped fs f l = some b ↔ ∃ ino, fs.inode f = some ino ∧ ino.ext l = some b := bind_eq_some_iff

theorem missBlocks {ms : List Memcpy} {fs' : Fs σ} (h : SameBlocks f fs disk disk') (copies : d.memcpys = ms)
    (part : ∀ l b, mapped fs' f l = some b → mapped fs f l = some b)
    (miss : ∀ m ∈ ms, ∀ a, Reaches m a → ∀ l, mapped fs' f l ≠ some (a / gBlockSizeBytes)) :
    SameBlocks f fs' (diskOf log disk d) (diskOf log' disk' d) := by
  intro l b o here small
  have outside (log : Nat → β) : ∀ c ∈ d.memcpys.map (Memcpy.copy log), ¬c.Covers (b * gBlockSizeBytes + o) := by
    intro c listed covers
    obtain ⟨m,known,rfl⟩ := List.mem_map.mp listed
    refine miss m (copies ▸ known) _ covers l ?_
    rwa [cellBlock small]
  rw [diskOf,diskOf,Copy.executeMiss (outside log'),Copy.executeMiss (outside log)]
  exact h l b o (part l b here) small

theorem ownBlocks {offset length blknr : Nat} (law : Lawful A used) (owned : Owned used fs) (shaped : Shaped offset length)
    (h : SameBlocks f fs disk disk') (covers : CoversNew f fs (.file f offset length blknr::[]))
    (bytes : ∀ i < length, log' (blknr * gBlockSizeBytes + offset % gBlockSizeBytes + i) =
      log (blknr * gBlockSizeBytes + offset % gBlockSizeBytes + i))
    (taken : digestOp A area ⟨fs,[]⟩ (.file f offset length blknr) = some d) :
    SameBlocks f d.fs (diskOf log disk d) (diskOf log' disk' d) := by
  obtain ⟨ino,q,found,placed,rfl⟩ := fileCalled taken
  have found : fs.inode f = some ino := found
  have places := filePlaced law shaped placed
  have inj := grownInjective owned found places.grows
  intro l b o here small
  have here : q.ext l = some b := by simpa [mapped] using here
  have block : (l * gBlockSizeBytes + o) / gBlockSizeBytes = l := cellBlock small
  have place : (l * gBlockSizeBytes + o) % gBlockSizeBytes = o := cellOffset small
  simp only [diskOf,List.nil_append]
  by_cases inside : offset ≤ l * gBlockSizeBytes + o ∧ l * gBlockSizeBytes + o < offset + length
  · have hit (log disk : Nat → β) := cellHit places log disk inj inside.1 inside.2 (by rw [block]; exact here)
    rw [place] at hit
    rw [hit,hit]
    exact bytes _ (by omega)
  · have miss (log disk : Nat → β) : Copy.executeAll (q.memcpys.map (Memcpy.copy log)) disk (b * gBlockSizeBytes + o) =
        disk (b * gBlockSizeBytes + o) := by
      refine cellMiss places log disk small fun pos low high there same => inside ?_
      have line := inj _ _ b there here
      have whole := Nat.div_add_mod pos gBlockSizeBytes
      rw [line,same,Nat.mul_comm] at whole
      exact whole ▸ ⟨low,high⟩
    rw [miss,miss]
    rcases places.grows.adds l b here with old | ⟨touched,free,_⟩
    · exact h l b o (mappedSome.mpr ⟨ino,found,old⟩) small
    · -- a new block is covered as a whole
      have none : mapped fs f l = none := by
        cases old : ino.ext l with
        | none => simp [mapped,found,old]
        | some b' =>
          cases (places.grows.keeps l b' old).symm.trans here
          exact absurd (owned.backed f ino l b found old) free
      have covered := covers rfl l touched.2 touched.1 none
      rw [Nat.add_mul] at covered
      exact absurd ⟨by omega,by omega⟩ inside

theorem digestSame (law : Lawful A used) (owned : Owned used fs) (logs : Logs op) (h : SameBlocks f fs disk disk')
    (covers : CoversNew f fs (op::[])) (bytes : ∀ offset length blknr, op = .file f offset length blknr → ∀ i < length,
      log' (blknr * gBlockSizeBytes + offset % gBlockSizeBytes + i) = log (blknr * gBlockSizeBytes + offset % gBlockSizeBytes + i))
    (taken : digestOp A area ⟨fs,[]⟩ op = some d) :
    Owned used d.fs ∧ SameBlocks f d.fs (diskOf log disk d) (diskOf log' disk' d) := by
  obtain ⟨ino,space,ms,did⟩ := called law owned logs taken
  have put : d.fs = fs.put op.inum ino space := did.puts
  refine ⟨did.owned,?_⟩
  by_cases mine : op.inum = f
  · cases op with
    | file inum offset length blknr =>
      obtain rfl : inum = f := mine
      exact ownBlocks law owned logs h covers (bytes offset length blknr rfl) taken
    | inode inum blknr =>
      obtain rfl : inum = f := mine
      cases taken
      obtain ⟨ino',space',puts,_,part⟩ := inodeTurns law fs inum (area blknr)
      refine missBlocks h rfl (fun l b there => ?_) nofun
      rw [puts] at there
      obtain ⟨x,found,there⟩ := mappedSome.mp there
      rw [putSame] at found
      cases found
      exact mappedSome.mpr (part l b there)
    | unlink inum blknr =>
      obtain rfl : inum = f := mine
      cases taken
      refine missBlocks h rfl (fun l b there => ?_) nofun
      simp [mapped,digestUnlink,emptyExt] at there
  · have same : d.fs.inode f = fs.inode f := by rw [put,putOther mine]
    refine missBlocks h did.copies (fun l b there => by rwa [mapped,same] at there) fun m mem a within l there => ?_
    obtain ⟨k,_,theirs⟩ := did.lands m mem a within
    obtain ⟨x,found,there⟩ := mappedSome.mp there
    have here : d.fs.inode op.inum = some ino := by rw [put,putSame]
    exact mine (did.owned.owned _ _ _ _ _ _ _ here found theirs there).1

end publish

section reads
variable {s : LibFS β} {pub : Published β} {log disk : Nat → β}

def SamePieces (s : LibFS β) (log : Nat → β) : Prop :=
  ∀ k, ∀ p ∈ rawLogs s k, ∀ i < p.size, log (p.addr * gBlockSizeBytes + p.offset + i) = s.log (p.addr * gBlockSizeBytes + p.offset + i)

def SameRange (pub : Published β) (disk : Nat → β) (first last : Nat) : Prop :=
  ∀ l, first ≤ l → l < last → ∀ b, pub.ext l = some b → ∀ o < gBlockSizeBytes,
    disk (b * gBlockSizeBytes + o) = pub.disk (b * gBlockSizeBytes + o)

theorem findPart {k : Nat} {p : FcacheLog} (mem : p ∈ fcacheFind s k) : p ∈ rawLogs s k := by
  rw [fcacheFind] at mem
  rw [rawLogs]
  cases found : s.fcache k with
  | none =>
    rw [found] at mem
    cases mem
  | some b =>
    rw [found] at mem
    exact checkPart mem

theorem patchAlike (pieces : SamePieces s log) {k : Nat} {p : FcacheLog} (mem : p ∈ fcacheFind s k) :
    Copy.Alike (patch { s with log := log } k p) (patch s k p) := ⟨rfl,rfl,pieces k p (findPart mem)⟩

theorem unalignedAlike (pieces : SamePieces s log) {off ioSize : Nat} (single : off % gBlockSizeBytes + ioSize ≤ gBlockSizeBytes)
    (range : SameRange pub disk (off / gBlockSizeBytes) (off / gBlockSizeBytes + 1)) : List.Forall₂ Copy.Alike
      (doUnalignedRead { s with log := log } { pub with disk := disk } off ioSize) (doUnalignedRead s pub off ioSize) := by
  have place := Nat.div_add_mod off gBlockSizeBytes
  rw [Nat.mul_comm] at place
  have inBlock : off - off / gBlockSizeBytes * gBlockSizeBytes = off % gBlockSizeBytes := by omega
  have key : off / gBlockSizeBytes * gBlockSizeBytes / gBlockSizeBytes = off / gBlockSizeBytes := Nat.mul_div_cancel _ (by decide)
  simp only [doUnalignedRead,inBlock,key]
  refine List.rel_append ?_ ?_
  · simp only [bmap]
    cases mapped : pub.ext (off / gBlockSizeBytes) with
    | none => exact .nil
    | some b =>
      refine .cons ⟨rfl,rfl,fun i (less : i < ioSize) => ?_⟩ .nil
      show disk (b * gBlockSizeBytes + off % gBlockSizeBytes + i) = pub.disk (b * gBlockSizeBytes + off % gBlockSizeBytes + i)
      rw [Nat.add_assoc]
      exact range _ (Nat.le_refl _) (Nat.lt_succ_self _) b mapped _ (by omega)
  · -- the part of a piece that meets the range
    refine List.rel_filterMap (R := fun p q => p = q ∧ p ∈ fcacheFind s (off / gBlockSizeBytes)) ?_
      (List.forall₂_same.mpr fun p mem => ⟨rfl,List.mem_reverse.mp mem⟩)
    rintro p _ ⟨rfl,mem⟩
    simp only [findIntersection]
    split
    · exact .none
    · refine .some ⟨rfl,rfl,fun i less => ?_⟩
      have here := pieces _ p (findPart mem) (max (off % gBlockSizeBytes) p.offset - p.offset + i) (by dsimp only at less; omega)
      have cell : p.addr * gBlockSizeBytes + p.offset + (max (off % gBlockSizeBytes) p.offset - p.offset + i) =
          p.addr * gBlockSizeBytes + max (off % gBlockSizeBytes) p.offset + i := by omega
      rwa [cell] at here

theorem searchAlike {off n first : Nat} (start : first = off / gBlockSizeBytes)
    (range : SameRange pub disk first (first + n)) (fuel : Nat) (m : Words) :
    List.Forall₂ Copy.Alike (globalSearch { pub with disk := disk } off n fuel m) (globalSearch pub off n fuel m) := by
  induction fuel generalizing m with
  | zero => exact .nil
  | succ fuel ih =>
    simp only [globalSearch]
    split
    · exact .nil
    · rename_i weight
      obtain ⟨more,high,_,_⟩ := searchTurn weight
      generalize findFirstBit m n = pos at *
      generalize findNextZeroBit m n pos = next at *
      have same : bmap { pub with disk := disk } (off / gBlockSizeBytes + pos) (next - pos) =
          bmap pub (off / gBlockSizeBytes + pos) (next - pos) := rfl
      rw [same]
      cases got : bmap pub (off / gBlockSizeBytes + pos) (next - pos) with
      | none => exact .nil
      | some r =>
        obtain ⟨b,count⟩ := r
        obtain ⟨_,short,mapped⟩ := bmapRun (by omega) got
        refine .cons ⟨rfl,rfl,fun i (less : i < count * gBlockSizeBytes) => ?_⟩ (ih _)
        have inside : i / gBlockSizeBytes < count := Nat.div_lt_of_lt_mul (by rwa [Nat.mul_comm])
        have low : first ≤ first + pos + i / gBlockSizeBytes := by rw [Nat.add_assoc]; exact Nat.le_add_right _ _
        have here := range (first + pos + i / gBlockSizeBytes) low (by omega) _ (start ▸ mapped _ inside)
          (i % gBlockSizeBytes) (Nat.mod_lt _ (by decide))
        have cell : (b + i / gBlockSizeBytes) * gBlockSizeBytes + i % gBlockSizeBytes = b * gBlockSizeBytes + i := by
          rw [Nat.add_mul,Nat.add_assoc,Nat.div_add_mod']
        rwa [cell] at here

theorem ioBitsSame (key n : Nat) (m : Words) : ioBits { s with log := log } key n m = ioBits s key n m := by
  induction n with
  | zero => rfl
  | succ n ih =>
    simp only [ioBits,ih]
    rfl

theorem alignedAlike (pieces : SamePieces s log) {off ioSize first : Nat} (start : first = off / gBlockSizeBytes)
    (range : SameRange pub disk first (first + ioSize / gBlockSizeBytes)) : List.Forall₂ Copy.Alike
      (doAlignedRead { s with log := log } { pub with disk := disk } off ioSize) (doAlignedRead s pub off ioSize) := by
  simp only [doAlignedRead,ioBitsSame]
  refine List.rel_append (searchAlike start range _ _) ?_
  refine List.rel_flatMap (R := fun i j => i = j) (List.forall₂_same.mpr fun _ _ => rfl) ?_
  rintro i _ rfl
  refine List.rel_map (R := fun p q => p = q ∧ p ∈ fcacheFind s (off / gBlockSizeBytes + i)) ?_
    (List.forall₂_same.mpr fun p mem => ⟨rfl,List.mem_reverse.mp mem⟩)
  rintro p _ ⟨rfl,mem⟩
  exact patchAlike pieces mem

theorem partAlike {size : Nat} {cs ds : List (Copy β)} (alike : 0 < size → List.Forall₂ Copy.Alike cs ds) :
    List.Forall₂ Copy.Alike (if size = 0 then [] else cs) (if size = 0 then [] else ds) := by
  split
  · exact .nil
  · exact alike (by omega)

theorem rangePart {first last start stop : Nat} (range : SameRange pub disk first last) (low : first ≤ start) (high : stop ≤ last) :
    SameRange pub disk start stop := fun l from_ upto => range l (Nat.le_trans low from_) (Nat.lt_of_lt_of_le upto high)

theorem unalignedPart (pieces : SamePieces s log) {off size first last : Nat} (range : SameRange pub disk first last)
    (inside : 0 < size → off % gBlockSizeBytes + size ≤ gBlockSizeBytes ∧ first ≤ off / gBlockSizeBytes ∧ off / gBlockSizeBytes < last) :
    List.Forall₂ Copy.Alike (if size = 0 then [] else doUnalignedRead { s with log := log } { pub with disk := disk } off size)
      (if size = 0 then [] else doUnalignedRead s pub off size) :=
  partAlike fun some => unalignedAlike pieces (inside some).1 (rangePart range (inside some).2.1 (inside some).2.2)

theorem readiSame (pieces : SamePieces s log) {off n : Nat}
    (range : SameRange pub disk (off / gBlockSizeBytes) (align (off + n) / gBlockSizeBytes))
    (buf : Nat → β) : readi { s with log := log } { pub with disk := disk } buf off n = readi s pub buf off n := by
  simp only [readi]
  split
  · rfl
  · have clipped : (if s.size < off + n then s.size - off else n) ≤ n := by split <;> omega
    generalize (if s.size < off + n then s.size - off else n) = size at *
    have shape := partsShape off size
    generalize parts off size = p at *
    obtain ⟨small,prepended,aligned,appended⟩ := p
    dsimp only at shape ⊢
    have stop := alignUp (off + n)
    congr 2
    refine Copy.executeAlike (List.rel_append (List.rel_append (List.rel_append (unalignedPart pieces range fun some => ?_)
      (unalignedPart pieces range fun some => ?_)) (partAlike fun some => alignedAlike pieces rfl
        (rangePart range (Nat.div_le_div_right (by omega)) ?_))) (unalignedPart pieces range fun some => ?_))
    all_goals
      simp only [gBlockSizeBytes] at *
      omega

end reads

section steps
variable {A : Allocator σ} {used : σ → Nat → Prop} {f k : Nat} {s s' : State σ β} {disk : Nat → β} {logs : Nat → Nat → β}
  {reads : List (Reading β)} {m : Lib β} {log : Nat → β}

theorem mirrorSet : (mirror s disk logs reads).setLib k { m with log := log } =
    mirror (s.setLib k m) disk (update logs k log) reads := by
  simp only [mirror,State.setLib,State.mk.injEq,true_and,and_true]
  funext j
  by_cases here : j = k
  · subst here
    simp only [update_self]
  · simp only [update_of_ne here]

theorem setAgree (h : Agree used f s disk logs reads) (shares : SharesFile f m log) :
    Agree used f (s.setLib k m) disk (update logs k log) reads := by
  refine ⟨h.owned,h.blocks,fun j => ?_,h.seen⟩
  by_cases here : j = k
  · subst here
    simp only [State.setLib,update_self]
    exact shares
  · simp only [State.setLib,update_of_ne here]
    exact h.libs j

theorem libAgree (k : Nat) (g g' : Lib β → Option (Lib β)) (h : Agree used f s disk logs reads)
    (shared : ∀ m, g (s.lib k) = some m → ∃ log, g' { s.lib k with log := logs k } = some { m with log := log } ∧ SharesFile f m log)
    (taken : (g (s.lib k)).map (s.setLib k) = some s') : ∃ logs',
      (g' ((mirror s disk logs reads).lib k)).map ((mirror s disk logs reads).setLib k) = some (mirror s' disk logs' reads) ∧
      Agree used f s' disk logs' reads := by
  obtain ⟨m,did,rfl⟩ := map_eq_some_iff.mp taken
  obtain ⟨log,there,shares⟩ := shared m did
  refine ⟨update logs k log,?_,setAgree h shares⟩
  show (g' { s.lib k with log := logs k }).map _ = _
  rw [there,map_some,mirrorSet]

variable {inum : Nat}

theorem createMirrored {l m : Lib β} {itype : IType} (taken : l.icreate inum itype = some m) :
    ({ l with log := log } : Lib β).icreate inum itype = some { m with log := log } := by
  unfold Lib.icreate at taken ⊢
  obtain ⟨free,rfl⟩ := ifTaken taken
  exact if_pos free

theorem igetMirrored {l m : Lib β} {fs : Fs σ} (taken : l.iget fs inum = some m) :
    ({ l with log := log } : Lib β).iget fs inum = some { m with log := log } := by
  unfold Lib.iget at taken ⊢
  split at taken <;> try contradiction
  rename_i absent
  obtain ⟨ino,found,rfl⟩ := map_eq_some_iff.mp taken
  simp only [absent,found]
  rfl

theorem truncMirrored {l m : Lib β} {length : Nat} (taken : l.itrunc inum length = some m) :
    ({ l with log := log } : Lib β).itrunc inum length = some { m with log := log } := by
  obtain ⟨c,here,taken⟩ := bind_eq_some_iff.mp taken
  obtain ⟨live,rfl⟩ := unlessTaken taken
  simp only [Lib.itrunc,here,bind_some,if_neg live]
  rfl

theorem unlinkMirrored {l m : Lib β} (taken : l.unlink inum = some m) :
    ({ l with log := log } : Lib β).unlink inum = some { m with log := log } := by
  obtain ⟨c,here,taken⟩ := bind_eq_some_iff.mp taken
  obtain ⟨live,rfl⟩ := unlessTaken taken
  simp only [Lib.unlink,here,bind_some,if_neg live]
  rfl

theorem publishAgree (law : Lawful A used) (h : Agree used f s disk logs reads) (covers : CoversNew f s.fs (s.lib k).pending)
    (taken : publish A s k = some s') : ∃ disk', publish A (mirror s disk logs reads) k = some (mirror s' disk' logs reads) ∧
      Agree used f s' disk' logs reads := by
  have shares := h.libs k
  unfold publish at taken ⊢
  split at taken <;> try contradiction
  rename_i op rest oldest
  obtain ⟨d,digested,rfl⟩ := map_eq_some_iff.mp taken
  have first : op ∈ (s.lib k).pending := oldest ▸ (.head _)
  have covers : CoversNew f s.fs (op::[]) := by
    rw [oldest] at covers
    cases op <;> exact covers
  obtain ⟨owned,blocks⟩ := digestSame law h.owned (shares.logs op first) h.blocks covers
    (fun offset length blknr same i less => (shares.entries offset length blknr (same ▸ first) i less).2) digested
  have carries : SharesFile f { s.lib k with pending := rest } (logs k) := by
    refine carriesShare shares ⟨rfl,Nat.le_refl _,fun o mem => .inl ?_,fun c key p here mem => ⟨c,here,mem⟩⟩
    rw [oldest]
    exact .tail op mem
  refine ⟨diskOf (logs k) disk d,?_,?_⟩
  · have there : ((mirror s disk logs reads).lib k).pending = op::rest := oldest
    have set := @mirrorSet σ β k s disk logs reads { s.lib k with pending := rest } (logs k)
    rw [update_eq_self] at set
    rw [there]
    show (digestOp A (s.lib k).area ⟨s.fs,[]⟩ op).map _ = _
    rw [digested,map_some]
    exact congrArg (fun t : State σ β => some { t with fs := d.fs, disk := diskOf (logs k) disk d }) set
  · have set := @setAgree σ β used f k s disk logs reads _ _ h carries
    rw [update_eq_self] at set
    exact ⟨owned,blocks,set.libs,set.seen⟩

theorem readAgree (law : Lawful A used) {off n : Nat} {buf : Nat → β} (h : Agree used f s disk logs reads)
    (current : inum = f → TreeCurrent f s.fs ((s.lib k).icache f) off n) (taken : step law s (.read k inum buf off n) = some s') :
    ∃ reads', step law (mirror s disk logs reads) (.read k inum buf off n) = some (mirror s' disk logs reads') ∧
      Agree used f s' disk logs reads' := by
  obtain ⟨c,here,rfl⟩ := map_eq_some_iff.mp taken
  have there : ((mirror s disk logs reads).lib k).icache inum = some c := here
  refine ⟨_,by simp only [step,there,map_some]; rfl,h.owned,h.blocks,h.libs,?_⟩
  have before : (mirror s disk logs reads).reads.filter (fun r => r.inum = f) = s.reads.filter fun r => r.inum = f := h.seen
  simp only [readsOf,List.filter_append,before]
  by_cases mine : inum = f
  · subst mine
    have pieces : SamePieces ((s.lib k).view c) (logs k) := fun key p mem i less => ((h.libs k).cached c key p here mem i less).2
    have range : SameRange (treeOf law s c) disk (off / gBlockSizeBytes) (align (off + n) / gBlockSizeBytes) :=
      fun l low high b there o small => h.blocks l b o (current rfl l high low c here b there) small
    have same : readi (((mirror s disk logs reads).lib k).view c) (treeOf law (mirror s disk logs reads) c) buf off n =
        readi ((s.lib k).view c) (treeOf law s c) buf off n := readiSame pieces range buf
    simp only [answer,same]
  · simp [mine]

theorem stepAgree (law : Lawful A used) {a b : Action β} (h : Agree used f s disk logs reads) (closed : Sealed A f s a) (alike : Alike f a b)
    (taken : step law s a = some s') : ∃ disk' logs' reads',
      step law (mirror s disk logs reads) b = some (mirror s' disk' logs' reads') ∧ Agree used f s' disk' logs' reads' := by
  have quiet (k : Nat) (g : Lib β → Option (Lib β)) (carries : ∀ m, g (s.lib k) = some m → Carries f (s.lib k) m)
      (mirrored : ∀ m, g (s.lib k) = some m → g { s.lib k with log := logs k } = some { m with log := logs k })
      (taken : (g (s.lib k)).map (s.setLib k) = some s') : ∃ disk' logs' reads',
        (g ((mirror s disk logs reads).lib k)).map ((mirror s disk logs reads).setLib k) = some (mirror s' disk' logs' reads') ∧
        Agree used f s' disk' logs' reads' := by
    obtain ⟨logs',there,agree⟩ := libAgree k g g h (fun m did => ⟨logs k,mirrored m did,carriesShare (h.libs k) (carries m did)⟩) taken
    exact ⟨disk,logs',reads,there,agree⟩
  have wrote (k inum dst len : Nat) (byte byte' : Nat → β) (same : inum = f → byte = byte')
      (taken : step law s (.write k inum ⟨dst,len,byte⟩) = some s') : ∃ disk' logs' reads',
        step law (mirror s disk logs reads) (.write k inum ⟨dst,len,byte'⟩) = some (mirror s' disk' logs' reads') ∧
        Agree used f s' disk' logs' reads' := by
    obtain ⟨logs',there,agree⟩ := libAgree k (fun l => l.write inum ⟨dst,len,byte⟩) (fun l => l.write inum ⟨dst,len,byte'⟩) h
      (fun m did => writeShares (h.libs k) same did) taken
    exact ⟨disk,logs',reads,there,agree⟩
  cases alike with
  | @other k inum dst len byte byte' differ => exact wrote k inum dst len byte byte' (fun mine => absurd mine differ) taken
  | same =>
    cases a with
    | create k inum itype => exact quiet k (fun l => l.icreate inum itype) (fun m => createCarries) (fun m => createMirrored) taken
    | iget k inum => exact quiet k (fun l => l.iget s.fs inum) (fun m => igetCarries) (fun m => igetMirrored) taken
    | write k inum w => exact wrote k inum w.dst w.len w.byte w.byte (fun _ => rfl) taken
    | truncate k inum length => exact quiet k (fun l => l.itrunc inum length) (fun m => truncCarries) (fun m => truncMirrored) taken
    | unlink k inum => exact quiet k (fun l => l.unlink inum) (fun m => unlinkCarries) (fun m => unlinkMirrored) taken
    | publish k =>
      obtain ⟨disk',there,agree⟩ := publishAgree law h closed.1 taken
      exact ⟨disk',logs,reads,there,agree⟩
    | sync k =>
      exact quiet k (fun l => some (l.sync s.fs)) (fun m did => Option.some.inj did ▸ syncCarries s.fs)
        (fun m did => Option.some.inj did ▸ rfl) taken
    | read k inum buf off n =>
      obtain ⟨reads',there,agree⟩ := readAgree law h closed taken
      exact ⟨disk,logs,reads',there,agree⟩

end steps

section runs
variable {A : Allocator σ} {used : σ → Nat → Prop} {f : Nat} {fs : Fs σ} {disk log : Nat → β} {calls calls' : List (Action β)} {s : State σ β}

theorem initAgree (owned : Owned used fs) (disk log : Nat → β) : Agree used f (init fs disk log) disk (fun _ => log) [] :=
  ⟨owned,fun _ _ _ _ _ => rfl,fun _ => ⟨nofun,nofun,nofun⟩,rfl⟩

end runs

def emptyFs : Fs (List Nat) := ⟨fun _ => none,[]⟩

theorem emptyOwned : Owned (fun inUse b => b ∈ inUse) emptyFs := ⟨nofun,nofun⟩

def fresh : State (List Nat) UInt8 := init emptyFs (fun _ => 0) fun _ => 0

def given (v : UInt8) : List (Action UInt8) :=
  [.create 1 1 .file,.write 1 1 ⟨0,4096,fun _ => v⟩,.publish 1,.publish 1,.unlink 1 1,.publish 1]

def reused (first : Copy UInt8) (v : UInt8) : List (Action UInt8) :=
  given v ++ ([.create 0 2 .file,.write 0 2 first,.publish 0,.publish 0,.write 0 2 ⟨100,1,fun _ => 4⟩,.publish 0,.sync 0,
    .read 0 2 (fun _ => 0) 98 4] : List (Action UInt8))

theorem reusedAlike (first : Copy UInt8) (v w : UInt8) : List.Forall₂ (Alike 2) (reused first v) (reused first w) :=
  .cons (.same _) (.cons (.other (by decide)) (List.forall₂_same.mpr fun a _ => .same a))

example : (run (step topLawful) fresh [.create 0 2 .file,.write 0 2 ⟨0,4096,fun _ => 3⟩,.publish 0,.publish 0,.iget 1 2,.truncate 0 2 0,
      .publish 0,.create 0 1 .file,.write 0 1 ⟨0,4096,fun _ => 7⟩,.publish 0,.publish 0,.read 1 2 (fun _ => 0) 98 2]).map (readsOf 2) =
    some [⟨2,98,some [7,7]⟩] := by decide +kernel

end LineFS.Isolation
