import LineFS.Base.Cover
import LineFS.Calls
import LineFS.Files
import LineFS.Log
import LineFS.Overlay
import LineFS.TreeRequests

/-! A log transaction from its header to the shared area. `compute_log_blocks` counts the
blocks of the entries, `persist_log_blocks` writes inode snapshots and payloads behind the
header and notes in `blocks` where they are, and a digest of the header finds them there. -/
namespace LineFS.Transaction
open Base Calls Placement
open Namespace hiding commitLogTx
open Dirent hiding State Action step commitLog
open Kernfs (Op)

variable {β : Type}

structure Logged (β : Type) where
  entry : Entry
  byte : Nat → β

structure IoVec (β : Type) where
  base : Nat → β
  size : Nat

inductive Kind where
  | inode
  | io
  | unsupported
  deriving DecidableEq, Repr

def kind : LogType → Kind
  | .unlink | .inodeCreate | .inodeUpdate => .inode
  | .dirAdd | .dirRename | .file => .io
  | .alloc => .unsupported

def ioVecs (tx : List (Logged β)) : List (IoVec β) :=
  tx.filterMap fun x => if kind x.entry.type = .io then some ⟨x.byte,x.entry.length⟩ else none

def computeLogBlocks : List Entry → List (IoVec β) → Option Nat
  | [], _ => some 0
  | e::es, vs =>
    match kind e.type, vs with
    | .inode, vs => (computeLogBlocks es vs).map (· + 1)
    | .io, v::vs => (computeLogBlocks es vs).map (· + entryBlocks v.size)
    | _, _ => none

structure LoghdrMeta where
  hdrBlkno : Nat
  nrLogBlocks : Nat
  nextAvailHeader : Nat
  deriving DecidableEq, Repr

structure Persisted (β : Type) where
  log : Nat → β
  pos : Nat
  blocks : List Nat

def persistLogInode (m : LoghdrMeta) (dinode : Nat → Nat → β) (e : Entry) (p : Persisted β) : Option (Persisted β) :=
  if p.pos + 1 ≤ m.nrLogBlocks ∧ m.hdrBlkno + p.pos < m.nextAvailHeader then
    some ⟨Copy.execute p.log ⟨(m.hdrBlkno + p.pos) * gBlockSizeBytes,sizeofDinode,dinode e.inodeNo⟩,p.pos + 1,p.blocks ++ [p.pos]⟩
  else none

def persistLogFile (m : LoghdrMeta) (e : Entry) (v : IoVec β) (p : Persisted β) : Option (Persisted β) :=
  if v.size < gBlockSizeBytes then
    let offsetInBlock := e.data % gBlockSizeBytes
    if offsetInBlock + v.size ≤ gBlockSizeBytes then
      some ⟨Copy.execute p.log ⟨(m.hdrBlkno + p.pos) * gBlockSizeBytes + offsetInBlock,v.size,v.base⟩,p.pos + 1,p.blocks ++ [p.pos]⟩
    else none
  else
    let nrLogblocks := v.size / gBlockSizeBytes
    if e.data % gBlockSizeBytes = 0 ∧ v.size % gBlockSizeBytes = 0 ∧ p.pos + nrLogblocks ≤ m.nrLogBlocks then
      some ⟨Copy.execute p.log ⟨(m.hdrBlkno + p.pos) * gBlockSizeBytes,v.size,v.base⟩,p.pos + nrLogblocks,p.blocks ++ [p.pos]⟩
    else none

def persistLogBlocks (m : LoghdrMeta) (dinode : Nat → Nat → β) : List Entry → List (IoVec β) → Persisted β → Option (Persisted β)
  | [], _, p => some p
  | e::es, vs, p =>
    match kind e.type, vs with
    | .inode, vs => (persistLogInode m dinode e p).bind (persistLogBlocks m dinode es vs)
    | .io, v::vs => (persistLogFile m e v p).bind (persistLogBlocks m dinode es vs)
    | _, _ => none

structure Committed (β : Type) where
  hdrBlkno : Nat
  nrLogBlocks : Nat
  blocks : List Nat
  log : Nat → β

-- `commit_log` up to the header: one more block is allocated for it.
def commitLog (l : Log.FsLog) (log : Nat → β) (dinode : Nat → Nat → β) (tx : List (Logged β)) : Option (Committed β) :=
  (computeLogBlocks (tx.map Logged.entry) (ioVecs tx)).bind fun n =>
    let r := Log.logAlloc l (n + 1)
    (persistLogBlocks ⟨r.2,n + 1,r.1.nextAvailHeader⟩ dinode (tx.map Logged.entry) (ioVecs tx) ⟨log,1,[]⟩).map fun p =>
      ⟨r.2,n + 1,p.blocks,p.log⟩

/- What `digest_each_log_entries` calls for an entry. `digest_allocate` is left out: no header
with such an entry gets into the log. -/
def digestEntry (hdrBlkno : Nat) (e : Entry) (blocks : Nat) : Option Op :=
  match e.type with
  | .inodeCreate | .inodeUpdate => some (.inode e.inodeNo (blocks + hdrBlkno))
  | .dirAdd | .dirRename | .file => some (.file e.inodeNo e.data e.length (blocks + hdrBlkno))
  | .unlink => some (.unlink e.inodeNo (blocks + hdrBlkno))
  | .alloc => none

/- The digest of a write puts its bytes at the cells of its positions and nowhere else, whatever the allocator
and the tree of the inode are, as long as the tree answers its requests as a map. -/
def Writes (log : Nat → β) (inum offset length blknr : Nat) (byte : Nat → β) : Prop :=
  ∀ (σ : Type) (A : Kernfs.Allocator σ) (used : σ → Nat → Prop), Kernfs.Lawful A used →
  ∀ (fs : Kernfs.Fs σ) (ino : Kernfs.Inode) (disk : Nat → β), fs.inode inum = some ino → Owned used fs →
  (∀ q ∈ TreeRequests.ofFile A fs.space ino.ext offset length, q.Fits) →
  (∀ q ∈ TreeRequests.ofFile A fs.space ino.ext offset length, q.Carried A) ∧
    ∃ fs' ms ino', Kernfs.digestFile A fs inum offset length blknr = some (fs',ms) ∧
    fs'.inode inum = some ino' ∧
    ino'.size = max ino.size (offset + length) ∧
    (∀ pos, offset ≤ pos → pos < offset + length → ∃ b, ino'.ext (pos / gBlockSizeBytes) = some b ∧
      Copy.executeAll (ms.map (Kernfs.Memcpy.copy log)) disk (b * gBlockSizeBytes + pos % gBlockSizeBytes) = byte (pos - offset)) ∧
    ∀ b o, o < gBlockSizeBytes → (∀ pos, offset ≤ pos → pos < offset + length → ino'.ext (pos / gBlockSizeBytes) = some b →
      pos % gBlockSizeBytes ≠ o) →
      Copy.executeAll (ms.map (Kernfs.Memcpy.copy log)) disk (b * gBlockSizeBytes + o) = disk (b * gBlockSizeBytes + o)

def Snapshot (log : Nat → β) (dinode : Nat → Nat → β) (inum blknr : Nat) : Prop :=
  ∀ k < sizeofDinode, log (blknr * gBlockSizeBytes + k) = dinode inum k

def Applies (log : Nat → β) (dinode : Nat → Nat → β) (x : Logged β) : Op → Prop
  | .inode inum blknr => inum = x.entry.inodeNo ∧ Snapshot log dinode inum blknr
  | .unlink inum blknr => inum = x.entry.inodeNo ∧ Snapshot log dinode inum blknr
  | .file inum offset length blknr => inum = x.entry.inodeNo ∧ offset = x.entry.data ∧ length = x.entry.length ∧
      Writes log inum offset length blknr x.byte

def blocksOf (e : Entry) : Nat := if kind e.type = .io then entryBlocks e.length else 1

def spans (tx : List (Logged β)) (blocks : List Nat) : List Stretch :=
  List.zipWith (fun x b => ⟨b,b + blocksOf x.entry - 1⟩) tx blocks

/- The transaction is committed, its blocks are those behind the header, each one once, and
every entry is applied as it was logged. -/
def RoundTrips (l : Log.FsLog) (log : Nat → β) (dinode : Nat → Nat → β) (tx : List (Logged β)) : Prop :=
  ∃ c, commitLog l log dinode tx = some c ∧
    (∀ b, cover (spans tx c.blocks) b = if 1 ≤ b ∧ b < c.nrLogBlocks then 1 else 0) ∧
    ∀ (i : Nat) (x : Logged β), tx[i]? = some x → ∃ b op, c.blocks[i]? = some b ∧
      digestEntry c.hdrBlkno x.entry b = some op ∧ Applies c.log dinode x op

def Sound (e : Entry) : Prop :=
  match kind e.type with
  | .inode => True
  | .io => Shaped e.data e.length
  | .unsupported => False
instance (e) : Decidable (Sound e) := by unfold Sound; split <;> infer_instance

section Layout
variable {tx : List (Logged β)} {m : LoghdrMeta} {dinode : Nat → Nat → β}

def total (tx : List (Logged β)) : Nat := (tx.map fun x => blocksOf x.entry).sum

def layout : Nat → List (Logged β) → List Nat
  | _, [] => []
  | pos, x::tx => pos::layout (pos + blocksOf x.entry) tx

def entryCopy (dinode : Nat → Nat → β) (hdrBlkno pos : Nat) (x : Logged β) : Copy β :=
  if kind x.entry.type = .io then ⟨(hdrBlkno + pos) * gBlockSizeBytes + x.entry.data % gBlockSizeBytes,x.entry.length,x.byte⟩
  else ⟨(hdrBlkno + pos) * gBlockSizeBytes,sizeofDinode,dinode x.entry.inodeNo⟩

def copies (dinode : Nat → Nat → β) (hdrBlkno : Nat) : Nat → List (Logged β) → List (Copy β)
  | _, [] => []
  | pos, x::tx => entryCopy dinode hdrBlkno pos x::copies dinode hdrBlkno (pos + blocksOf x.entry) tx

theorem blocksPositive (e : Entry) : 0 < blocksOf e := by
  unfold blocksOf entryBlocks
  split
  · split
    · exact Nat.one_pos
    · rename_i large
      exact Nat.div_pos (Nat.not_lt.mp large) (by decide)
  · exact Nat.one_pos

theorem ioVecsCons (x : Logged β) (tx : List (Logged β)) :
    ioVecs (x::tx) = if kind x.entry.type = .io then ⟨x.byte,x.entry.length⟩::ioVecs tx else ioVecs tx := by
  by_cases io : kind x.entry.type = .io
  · simp [ioVecs,io]
  · simp [ioVecs,io]

theorem totalCons (x : Logged β) (tx : List (Logged β)) : total (x::tx) = blocksOf x.entry + total tx := by simp [total]

theorem computeTotal (sound : ∀ x ∈ tx, Sound x.entry) : computeLogBlocks (tx.map Logged.entry) (ioVecs tx) = some (total tx) := by
  induction tx with
  | nil => rfl
  | cons x tx ih =>
    have head := sound x ((.head _) ..)
    have rest := ih fun y mem => sound y (.tail _ mem)
    cases type : kind x.entry.type with
    | inode => simp [computeLogBlocks,ioVecsCons,totalCons,blocksOf,type,rest,Nat.add_comm]
    | io => simp [computeLogBlocks,ioVecsCons,totalCons,blocksOf,type,rest,Nat.add_comm]
    | unsupported => simp [Sound,type] at head

theorem persistFileSound {e : Entry} (shaped : Shaped e.data e.length) (byte : Nat → β) (p : Persisted β)
    (room : p.pos + entryBlocks e.length ≤ m.nrLogBlocks) : persistLogFile m e ⟨byte,e.length⟩ p =
    some ⟨Copy.execute p.log ⟨(m.hdrBlkno + p.pos) * gBlockSizeBytes + e.data % gBlockSizeBytes,e.length,byte⟩,
      p.pos + entryBlocks e.length,p.blocks ++ [p.pos]⟩ := by
  unfold persistLogFile
  by_cases small : e.length < gBlockSizeBytes
  · have fits : e.data % gBlockSizeBytes + e.length ≤ gBlockSizeBytes := by
      unfold Shaped at shaped
      omega
    simp only [small,if_true,fits,entryBlocks]
  · have whole : e.data % gBlockSizeBytes = 0 ∧ e.length % gBlockSizeBytes = 0 := by
      unfold Shaped at shaped
      omega
    rw [entryBlocks,if_neg small] at room
    simp only [small,if_false,whole,room,and_self,if_true,entryBlocks,Nat.add_zero]

theorem persistLaid (sound : ∀ x ∈ tx, Sound x.entry) (dinode : Nat → Nat → β) (p : Persisted β) (room : p.pos + total tx ≤ m.nrLogBlocks)
    (allocated : m.hdrBlkno + m.nrLogBlocks ≤ m.nextAvailHeader) :
    persistLogBlocks m dinode (tx.map Logged.entry) (ioVecs tx) p =
      some ⟨Copy.executeAll (copies dinode m.hdrBlkno p.pos tx) p.log,p.pos + total tx,p.blocks ++ layout p.pos tx⟩ := by
  induction tx generalizing p with
  | nil => simp [persistLogBlocks,copies,layout,total,Copy.executeAll]
  | cons x tx ih =>
    have head := sound x ((.head _) ..)
    have rest := fun y mem => sound y (.tail x mem)
    rw [totalCons] at room
    have step : persistLogBlocks m dinode ((x::tx).map Logged.entry) (ioVecs (x::tx)) p =
        persistLogBlocks m dinode (tx.map Logged.entry) (ioVecs tx)
          ⟨Copy.execute p.log (entryCopy dinode m.hdrBlkno p.pos x),p.pos + blocksOf x.entry,p.blocks ++ [p.pos]⟩ := by
      cases type : kind x.entry.type with
      | inode =>
        have one : blocksOf x.entry = 1 := by simp [blocksOf,type]
        have good : p.pos + 1 ≤ m.nrLogBlocks ∧ m.hdrBlkno + p.pos < m.nextAvailHeader := by omega
        simp [persistLogBlocks,ioVecsCons,type,persistLogInode,good,entryCopy,one]
      | io =>
        simp only [Sound,type] at head
        simp only [blocksOf,type,if_true] at room
        have done := persistFileSound (m := m) head x.byte p (by omega)
        simp [persistLogBlocks,ioVecsCons,type,done,entryCopy,blocksOf]
      | unsupported => simp [Sound,type] at head
    rw [step,ih rest _ (by simp only; omega)]
    simp [copies,layout,totalCons,Copy.executeAll,Nat.add_assoc]

theorem copyInside {x : Logged β} (sound : Sound x.entry) (dinode : Nat → Nat → β) (hdrBlkno pos : Nat) :
    (hdrBlkno + pos) * gBlockSizeBytes ≤ (entryCopy dinode hdrBlkno pos x).dst ∧
    (entryCopy dinode hdrBlkno pos x).dst + (entryCopy dinode hdrBlkno pos x).len ≤
      (hdrBlkno + pos + blocksOf x.entry) * gBlockSizeBytes := by
  unfold entryCopy blocksOf
  split
  · rename_i io
    simp only [Sound,io] at sound
    refine ⟨Nat.le_add_right _ _,?_⟩
    by_cases small : x.entry.length < gBlockSizeBytes
    · rw [entryBlocks,if_pos small]
      simp only [Shaped,gBlockSizeBytes] at *
      omega
    · rw [entryBlocks,if_neg small]
      simp only [Shaped,gBlockSizeBytes] at *
      omega
  · refine ⟨Nat.le_refl _,?_⟩
    simp only [gBlockSizeBytes,sizeofDinode]
    omega

section
variable (sound : ∀ x ∈ tx, Sound x.entry)
include sound

theorem copiesAbove (dinode : Nat → Nat → β) (hdrBlkno pos : Nat) :
    ∀ c ∈ copies dinode hdrBlkno pos tx, (hdrBlkno + pos) * gBlockSizeBytes ≤ c.dst := by
  induction tx generalizing pos with
  | nil => exact fun c mem => nomatch mem
  | cons x tx ih =>
    intro c mem
    rcases List.mem_cons.mp mem with rfl | later
    · exact (copyInside (sound x ((.head _) ..)) dinode hdrBlkno pos).1
    · have above := ih (fun y mem => sound y (.tail _ mem)) (pos + blocksOf x.entry) c later
      refine Nat.le_trans (Nat.mul_le_mul_right _ ?_) above
      omega

theorem copiesRead (dinode : Nat → Nat → β) (hdrBlkno pos : Nat) (log : Nat → β)
    {i : Nat} {x : Logged β} (here : tx[i]? = some x) : ∃ b, (layout pos tx)[i]? = some b ∧
    ∀ k < (entryCopy dinode hdrBlkno b x).len,
      Copy.executeAll (copies dinode hdrBlkno pos tx) log ((entryCopy dinode hdrBlkno b x).dst + k) =
        (entryCopy dinode hdrBlkno b x).byte k := by
  induction tx generalizing pos log i with
  | nil => simp at here
  | cons y tx ih =>
    have rest := fun z mem => sound z (.tail y mem)
    cases i with
    | zero =>
      obtain rfl : y = x := Option.some.inj here
      refine ⟨pos,rfl,fun k inside => ?_⟩
      have bound := (copyInside (sound y ((.head _) ..)) dinode hdrBlkno pos).2
      have above := copiesAbove rest dinode hdrBlkno (pos + blocksOf y.entry)
      have miss : ∀ c ∈ copies dinode hdrBlkno (pos + blocksOf y.entry) tx,
          ¬c.Covers ((entryCopy dinode hdrBlkno pos y).dst + k) := by
        intro c mem covers
        have low := above c mem
        have first := covers.1
        rw [← Nat.add_assoc] at low
        omega
      refine (Copy.executeMiss miss).trans ?_
      simp only [Copy.execute]
      rw [if_pos ⟨Nat.le_add_right _ _,Nat.add_lt_add_left inside _⟩,Nat.add_sub_cancel_left]
    | succ i => exact ih rest (pos + blocksOf y.entry) _ here

theorem layoutCovers (pos b : Nat) :
    cover (spans tx (layout pos tx)) b = if pos ≤ b ∧ b < pos + total tx then 1 else 0 := by
  induction tx generalizing pos with
  | nil =>
    rw [if_neg (by simp [total])]
    rfl
  | cons x tx ih =>
    have some := blocksPositive x.entry
    have rest := ih (fun y mem => sound y (.tail _ mem)) (pos + blocksOf x.entry)
    simp only [spans,layout,List.zipWith_cons_cons,coverCons,totalCons] at rest ⊢
    rw [rest]
    split <;> split <;> split <;> omega

end

end Layout

section Digest
variable {log : Nat → β} {dinode : Nat → Nat → β} {tx : List (Logged β)}

theorem writesPlaced {offset length blknr : Nat} {byte : Nat → β} (shaped : Shaped offset length)
    (there : ∀ k < length, log (blknr * gBlockSizeBytes + offset % gBlockSizeBytes + k) = byte k) (inum : Nat) :
    Writes log inum offset length blknr byte := by
  intro σ A used law fs ino disk found owned fits
  obtain ⟨q,placed⟩ := Kernfs.placeSome law fs.space ino.ext offset length blknr
  have places := filePlaced law shaped placed
  have inj := grownInjective owned found places.grows
  refine ⟨fun q mem => TreeRequests.fitsCarried law (fits q mem),
    fs.put inum { ino with size := max ino.size (offset + length), ext := q.ext } q.space,q.memcpys,
    { ino with size := max ino.size (offset + length), ext := q.ext },
    by simp only [Kernfs.digestFile,found,placed,Option.map_some],Kernfs.putSame,rfl,fun pos low high => ?_,fun b o small other => ?_⟩
  · obtain ⟨b,mapped⟩ := places.whole _ (touchedInside shaped low high)
    refine ⟨b,mapped,(Files.cellHit places log disk inj low high mapped).trans ?_⟩
    exact there (pos - offset) (by omega)
  · exact Files.cellMiss places log disk small other

theorem soundApplies {x : Logged β} {hdrBlkno b : Nat} (sound : Sound x.entry)
    (there : ∀ k < (entryCopy dinode hdrBlkno b x).len,
      log ((entryCopy dinode hdrBlkno b x).dst + k) = (entryCopy dinode hdrBlkno b x).byte k) :
    ∃ op, digestEntry hdrBlkno x.entry b = some op ∧ Applies log dinode x op := by
  have snapshot (inode : kind x.entry.type = .inode) : Snapshot log dinode x.entry.inodeNo (b + hdrBlkno) := by
    simp only [entryCopy,inode,reduceCtorEq,if_false,Nat.add_comm hdrBlkno b] at there
    exact there
  have writes (io : kind x.entry.type = .io) :
      Writes log x.entry.inodeNo x.entry.data x.entry.length (b + hdrBlkno) x.byte := by
    simp only [Sound,io] at sound
    simp only [entryCopy,io,if_true,Nat.add_comm hdrBlkno b] at there
    exact writesPlaced sound there _
  unfold digestEntry
  cases type : x.entry.type with
  | inodeCreate => exact ⟨_,rfl,rfl,snapshot (by rw [type]; rfl)⟩
  | inodeUpdate => exact ⟨_,rfl,rfl,snapshot (by rw [type]; rfl)⟩
  | unlink => exact ⟨_,rfl,rfl,snapshot (by rw [type]; rfl)⟩
  | dirAdd => exact ⟨_,rfl,rfl,rfl,rfl,writes (by rw [type]; rfl)⟩
  | dirRename => exact ⟨_,rfl,rfl,rfl,rfl,writes (by rw [type]; rfl)⟩
  | file => exact ⟨_,rfl,rfl,rfl,rfl,writes (by rw [type]; rfl)⟩
  | alloc => simp [Sound,type,kind] at sound

theorem soundRoundTrips (sound : ∀ x ∈ tx, Sound x.entry) (l : Log.FsLog) (log : Nat → β) (dinode : Nat → Nat → β) :
    RoundTrips l log dinode tx := by
  have room : (1 : Nat) + total tx ≤ total tx + 1 := by omega
  have persisted := persistLaid (m := ⟨(Log.logAlloc l (total tx + 1)).2,total tx + 1,(Log.logAlloc l (total tx + 1)).1.nextAvailHeader⟩)
    sound dinode ⟨log,1,[]⟩ room (Nat.le_refl _)
  refine ⟨⟨(Log.logAlloc l (total tx + 1)).2,total tx + 1,layout 1 tx,
      Copy.executeAll (copies dinode (Log.logAlloc l (total tx + 1)).2 1 tx) log⟩,
    by simp only [commitLog,computeTotal sound,Option.bind_some,persisted,Option.map_some,List.nil_append],fun b => ?_,
    fun i x here => ?_⟩
  · rw [layoutCovers sound]
    simp only [Nat.add_comm 1]
  · obtain ⟨b,at_,there⟩ := copiesRead sound dinode (Log.logAlloc l (total tx + 1)).2 1 log here
    obtain ⟨op,digested,applies⟩ := soundApplies (sound x (List.mem_of_getElem? here)) there
    exact ⟨b,op,at_,digested,applies⟩

theorem unsupportedPanics {x : Logged β} (mem : x ∈ tx) (alloc : x.entry.type = .alloc) :
    computeLogBlocks (tx.map Logged.entry) (ioVecs tx) = none := by
  induction tx with
  | nil => exact nomatch mem
  | cons y tx ih =>
    rcases List.mem_cons.mp mem with rfl | later
    · simp [computeLogBlocks,alloc,kind]
    · have rest := ih later
      cases type : kind y.entry.type with
      | inode => simp [computeLogBlocks,ioVecsCons,type,rest]
      | io => simp [computeLogBlocks,ioVecsCons,type,rest]
      | unsupported => simp [computeLogBlocks,type]

end Digest

/- A directory as the operations leave it: its size and the offsets of its cached entries are
multiples of the size of an entry. -/
structure Even (d : Inode) : Prop where
  size : d.size % sizeofDirent = 0
  cached : ∀ name x, d.deCache name = some x → x.offset % sizeofDirent = 0

def SoundHdr (h : List Entry) : Prop := ∀ e ∈ h, Sound e

section Headers
variable {d : Inode} {h : List Entry} {name : Name} {off dir : Nat} {s : FS}

theorem soundDirent {type : LogType} {inum n : Nat} {des : List MlfsDirent} (io : type = .dirAdd ∨ type = .dirRename)
    (even : off % sizeofDirent = 0) (small : n = sizeofDirent ∨ off = 0 ∧ n = 2 * sizeofDirent) :
    SoundHdr (addToLoghdr [] type inum off n des) := by
  intro e mem
  have shaped : Shaped off n := by
    simp only [Shaped,gBlockSizeBytes,sizeofDirent] at *
    omega
  rcases io with rfl | rfl
  · cases List.mem_singleton.mp mem
    exact shaped
  · cases List.mem_singleton.mp mem
    exact shaped

theorem soundAppend {more : List Entry} (sound : SoundHdr h) (new : SoundHdr more) : SoundHdr (h ++ more) := by
  intro e mem
  rcases List.mem_append.mp mem with old | here
  · exact sound e old
  · exact new e here

theorem addAppends (type : LogType) (inum n : Nat) (des : List MlfsDirent) :
    addToLoghdr h type inum off n des = h ++ addToLoghdr [] type inum off n des := by
  simp [addToLoghdr]

theorem soundUpdated (sound : SoundHdr h) (d : Inode) : SoundHdr (iupdate d h) := by
  rw [iupdate,addAppends]
  refine soundAppend sound fun e mem => ?_
  cases List.mem_singleton.mp mem
  trivial

theorem evenAdd (even : Even d) (name : Name) (inode : Nat) (at_ : off % sizeofDirent = 0) : Even (deCacheAdd d name inode off) := by
  unfold deCacheAdd
  split
  · exact even
  · refine ⟨even.size,fun n x found => ?_⟩
    simp only at found
    split at found
    · cases found
      exact at_
    · exact even.cached n x found

theorem evenDel (even : Even d) (name : Name) : Even (deCacheDel d name) := by
  unfold deCacheDel
  split
  · refine ⟨even.size,fun n x found => ?_⟩
    simp only at found
    split at found
    · contradiction
    · exact even.cached n x found
  · exact even

theorem evenSearch (even : Even d) (name : Name) (at_ : off % sizeofDirent = 0) (rounds : Nat) :
    Even (searchFrom d name off rounds).1 ∧ ∀ x, (searchFrom d name off rounds).2 = some x → x.offset % sizeofDirent = 0 := by
  induction rounds generalizing d off with
  | zero => exact ⟨even,fun x found => by simp [searchFrom] at found⟩
  | succ rounds ih =>
    simp only [searchFrom]
    split
    · split
      · exact ⟨even,fun x found => by simp at found⟩
      · rename_i de _
        have added := evenAdd even de.name de.inum at_
        split
        · refine ⟨added,fun x found => ?_⟩
          cases found
          exact at_
        · exact ih added (by simp only [sizeofDirent] at *; omega)
    · exact ⟨even,fun x found => by simp at found⟩

theorem evenLookup (even : Even d) (name : Name) :
    Even (dirLookup d name).1 ∧ ∀ x, (dirLookup d name).2 = some x → x.offset % sizeofDirent = 0 := by
  unfold dirLookup
  split
  · rename_i found hit
    refine ⟨even,fun x same => ?_⟩
    cases same
    exact even.cached name _ hit
  · dsimp only
    split
    · exact ⟨even,fun x found => by simp at found⟩
    · exact evenSearch even name (by simp [sizeofDirent]) _

theorem evenLogged (even : Even d) (de : MlfsDirent) (at_ : off % sizeofDirent = 0) (type : LogType) :
    Even (addToLog d h [de] off type).1 := by
  refine ⟨?_,even.cached⟩
  have size := even.size
  simp only [addToLog,List.length_singleton,Nat.one_mul]
  split
  · simp only [sizeofDirent] at *
    omega
  · exact size

theorem soundLogged (sound : SoundHdr h) (d : Inode) (de : MlfsDirent) (at_ : off % sizeofDirent = 0) {type : LogType}
    (io : type = .dirAdd ∨ type = .dirRename) : SoundHdr (addToLog d h [de] off type).2 := by
  simp only [addToLog,List.length_singleton,Nat.one_mul]
  rw [addAppends]
  exact soundAppend sound (soundDirent io at_ (.inl rfl))

theorem evenRemove (even : Even d) (sound : SoundHdr h) (name : Name) :
    Even (dirRemoveEntry d h name).1 ∧ SoundHdr (dirRemoveEntry d h name).2.1 := by
  obtain ⟨looked,place⟩ := evenLookup even name
  unfold dirRemoveEntry
  generalize dirLookup d name = r at looked place
  obtain ⟨d₁,found⟩ := r
  cases found with
  | none => exact ⟨looked,sound⟩
  | some x =>
    have at_ := place x rfl
    have dropped := evenDel looked name
    simp only at looked dropped ⊢
    generalize deCacheDel d₁ name = d₂ at dropped ⊢
    have shrunk : (d₂.size - sizeofDirent) % sizeofDirent = 0 := by
      have size := dropped.size
      simp only [sizeofDirent] at *
      omega
    split
    · generalize (getDirent d₂ (d₂.size - sizeofDirent)).getD ⟨0,noName⟩ = last
      have moved := evenDel dropped last.name
      have logged := evenLogged (h := h) moved last at_ .dirAdd
      have added := evenAdd logged last.name last.inum at_
      exact ⟨⟨shrunk,added.cached⟩,soundUpdated (soundLogged sound _ last at_ (.inl rfl)) _⟩
    · exact ⟨⟨shrunk,dropped.cached⟩,soundUpdated sound _⟩

theorem evenChange (even : Even d) (sound : SoundHdr h) (oldname newname : Name) :
    SoundHdr (dirChangeEntry d h oldname newname).2.1 := by
  obtain ⟨_,place⟩ := evenLookup even oldname
  unfold dirChangeEntry
  generalize dirLookup d oldname = r at place
  obtain ⟨d₁,found⟩ := r
  cases found with
  | none => exact sound
  | some x => exact soundLogged sound _ _ (place x rfl) (.inr rfl)

theorem evenAddEntry (even : Even d) (sound : SoundHdr h) (name : Name) (ip : Nat) :
    SoundHdr (dirAddEntry d h name ip).2 := soundLogged sound d _ even.size (.inl rfl)

theorem evenPut {k : Nat} (new : Even d) (old : Even (s.inode k)) : Even ((s.put d).inode k) := by
  by_cases here : k = d.inum
  · rw [here,putSelf]; exact new
  · rw [putOther here]; exact old

theorem evenIdealloc {k : Nat} (old : Even (s.inode k)) (ip : Nat) : Even ((idealloc s ip).inode k) := by
  refine evenPut ⟨rfl,fun name x found => ?_⟩ old
  simp at found

theorem soundCreate (even : Even (s.inode dir)) (hit : Option Nat) (name : Name) (type : Itype) (inum : Nat) :
    SoundHdr (mlfsObjectCreate s hit dir name type inum).2 := by
  have none : SoundHdr [] := nofun
  unfold mlfsObjectCreate
  cases hit with
  | some ip => exact soundUpdated none _
  | none =>
    obtain ⟨looked,_⟩ := evenLookup even name
    generalize dirLookup (s.inode dir) name = r at looked
    obtain ⟨p,found⟩ := r
    cases found with
    | some x => exact soundUpdated none _
    | none =>
      have parent := evenPut looked even
      have created : SoundHdr (addToLoghdr [] .inodeCreate inum 0 sizeofDinode []) := by
        intro e mem
        cases List.mem_singleton.mp mem
        trivial
      have new : Even (icreate (s.put p) inum type) := ⟨rfl,fun n x found => by simp [icreate] at found⟩
      simp only at looked parent ⊢
      generalize s.put p = s₁ at parent new ⊢
      by_cases isDir : type = .dir
      · simp only [isDir,if_true] at new ⊢
        have linked : SoundHdr (dirAddLinks (icreate s₁ inum .dir) (addToLoghdr [] .inodeCreate inum 0 sizeofDinode []) inum dir).2 := by
          simp only [dirAddLinks,addToLog]
          rw [addAppends]
          exact soundAppend created (soundDirent (.inl rfl) rfl (.inr ⟨rfl,rfl⟩))
        have child : Even (dirAddLinks (icreate s₁ inum .dir) (addToLoghdr [] .inodeCreate inum 0 sizeofDinode []) inum dir).1 :=
          ⟨by simp [dirAddLinks,addToLog,icreate,sizeofDirent],new.cached⟩
        have both := evenPut child parent
        have counted : Even (addLink ((ialloc s₁ (dirAddLinks (icreate s₁ inum .dir)
            (addToLoghdr [] .inodeCreate inum 0 sizeofDinode []) inum dir).1).inode dir)) := ⟨both.size,both.cached⟩
        exact evenAddEntry (evenPut counted both) (soundUpdated linked _) name inum
      · simp only [isDir,if_false] at new ⊢
        exact evenAddEntry (evenPut new parent) created name inum

theorem soundReplace {k : Nat} (evenNew : Even (s.inode dir)) (even : Even (s.inode k)) (name : Name) :
    Even ((replaceTarget s dir name).1.inode k) ∧ SoundHdr (replaceTarget s dir name).2 := by
  have none : SoundHdr [] := nofun
  obtain ⟨removed,sound⟩ := evenRemove evenNew none name
  unfold replaceTarget
  generalize dirRemoveEntry (s.inode dir) [] name = r at removed sound
  obtain ⟨d,h,found⟩ := r
  cases found with
  | none => exact ⟨evenPut removed even,sound⟩
  | some ip =>
    refine ⟨evenIdealloc (evenPut removed even) ip,?_⟩
    simp only
    rw [addAppends]
    refine soundAppend sound fun e mem => ?_
    cases List.mem_singleton.mp mem
    trivial

theorem soundUnlink (even : Even (s.inode dir)) (name : Name) : SoundHdr (mlfsPosixUnlink s dir name).2.1 := by
  have replaced := (soundReplace even even name).2
  unfold mlfsPosixUnlink
  unfold replaceTarget at replaced
  generalize dirRemoveEntry (s.inode dir) [] name = r at replaced
  obtain ⟨d,h,found⟩ := r
  cases found with
  | none => exact replaced
  | some ip => exact replaced

theorem soundRename {oldDir newDir : Nat} {oldName newName : Name} {r} (evenOld : Even (s.inode oldDir)) (evenNew : Even (s.inode newDir))
    (renamed : mlfsPosixRename s oldDir oldName newDir newName = some r) : SoundHdr r.2.1 := by
  obtain ⟨new,sound⟩ := soundReplace evenNew evenNew newName
  obtain ⟨old,_⟩ := soundReplace evenNew evenOld newName
  simp only [mlfsPosixRename,Option.ite_none_left_eq_some] at renamed
  obtain ⟨_,renamed⟩ := renamed
  generalize replaceTarget s newDir newName = t at new old sound renamed
  split at renamed
  · cases renamed
    have changed := evenChange new sound oldName newName
    unfold renameWithin
    generalize dirChangeEntry (t.1.inode newDir) t.2 oldName newName = c at changed
    obtain ⟨d,h,found⟩ := c
    cases found with
    | none => exact changed
    | some ip => exact changed
  · cases renamed
    obtain ⟨removed,sound⟩ := evenRemove old sound oldName
    unfold renameAcross
    generalize dirRemoveEntry (t.1.inode oldDir) t.2 oldName = c at removed sound
    obtain ⟨d,h,found⟩ := c
    cases found with
    | none => exact sound
    | some ip => exact evenAddEntry (evenPut removed new) sound newName ip

theorem soundPortion {ip size : Nat} {r : Nat × List Entry} (sound : SoundHdr r.2) (shaped : 0 < size → Shaped r.1 size) :
    SoundHdr (addPortion ip size r).2 := by
  unfold addPortion
  split
  · rename_i some
    simp only
    rw [addAppends]
    refine soundAppend sound fun e mem => ?_
    cases List.mem_singleton.mp mem
    exact shaped some
  · exact sound

theorem soundAligned {ip limit i : Nat} (rounds : Nat) (sound : SoundHdr h) (aligned : off % gBlockSizeBytes = 0)
    (whole : (limit - i) % gBlockSizeBytes = 0) :
    (addAligned ip limit rounds off i h).1 % gBlockSizeBytes = 0 ∧ SoundHdr (addAligned ip limit rounds off i h).2 := by
  induction rounds generalizing off i h with
  | zero => exact ⟨aligned,sound⟩
  | succ rounds ih =>
    simp only [addAligned]
    split
    · rename_i more
      have piece : min (limit - i) maxIoSize % gBlockSizeBytes = 0 ∧ 0 < min (limit - i) maxIoSize := by
        simp only [maxIoSize,gBlockSizeBytes] at *
        omega
      refine ih ?_ ?_ ?_
      · rw [addAppends]
        refine soundAppend sound fun e mem => ?_
        cases List.mem_singleton.mp mem
        exact ⟨piece.2,.inr ⟨piece.1,aligned⟩⟩
      · simp only [gBlockSizeBytes] at *
        omega
      · simp only [gBlockSizeBytes] at *
        omega
    · exact ⟨aligned,sound⟩

theorem portionEnd (ip size : Nat) (r : Nat × List Entry) : (addPortion ip size r).1 = r.1 + size := by
  unfold addPortion
  split
  · rfl
  · omega

theorem soundWrite (ip off n : Nat) : SoundHdr (mlfsFileWrite ip off n) := by
  obtain ⟨parts,head,tail,shape⟩ := Overlay.portionsShape off n
  simp only [mlfsFileWrite]
  generalize portions off n = p at parts head tail shape ⊢
  have first : SoundHdr (addPortion ip p.prepended (off,[])).2 := by
    refine soundPortion (fun _ mem => by cases mem) fun some => ?_
    simp only [Shaped,gBlockSizeBytes] at *
    omega
  have start := portionEnd ip p.prepended (off,[])
  generalize addPortion ip p.prepended (off,[]) = r at first start ⊢
  rcases shape with ⟨noBody,noTail,_⟩ | ⟨aligned,whole⟩
  · rw [alignedDone (by omega),noTail]
    exact first
  · have body : (n - p.appended - p.prepended) % gBlockSizeBytes = 0 := by
      rw [show n - p.appended - p.prepended = p.aligned by omega]
      exact whole
    have lined : r.1 % gBlockSizeBytes = 0 := by rw [start]; exact aligned
    obtain ⟨finish,second⟩ := @soundAligned _ _ ip _ _ n first lined body
    refine soundPortion second fun some => ⟨some,.inl ⟨tail,?_⟩⟩
    rw [finish]
    omega

end Headers

theorem holdsEven {d : Inode} {h : List Entry} {es : List MlfsDirent} (holds : Holds d h es) : Even d := by
  refine ⟨by rw [holds.size]; exact Nat.mul_mod_left .., fun name x found => ?_⟩
  obtain ⟨i,_,place,_⟩ := (holds.cache name x.inode x.offset).mp found
  rw [place]
  exact Nat.mul_mod_left ..

def parents : Call → List Nat
  | .create _ dir _ _ => [dir]
  | .mkdir _ dir _ _ => [dir]
  | .unlink dir _ => [dir]
  | .rename oldDir _ newDir _ => [oldDir,newDir]
  | _ => []

def Allocates (s : FS) : Call → Prop
  | .fallocate ip offset len => offset = 0 ∧ (s.inode ip).size ≤ len
  | _ => False

theorem callSound {s : FS} {c : Call} {h : List Entry} (even : ∀ dir ∈ parents c, Even (s.inode dir)) (built : recorded s c = some h)
    (other : ¬Allocates s c) : SoundHdr h := by
  cases c with
  | create hit dir name inum =>
    cases built
    exact soundCreate (even dir (by simp [parents])) hit name _ inum
  | mkdir hit dir name inum =>
    cases built
    exact soundCreate (even dir (by simp [parents])) hit name _ inum
  | unlink dir name =>
    cases built
    exact soundUnlink (even dir (by simp [parents])) name
  | rename oldDir oldName newDir newName =>
    obtain ⟨r,renamed,rfl⟩ := Option.map_eq_some_iff.mp built
    exact soundRename (even oldDir (by simp [parents])) (even newDir (by simp [parents])) renamed
  | truncate ip length =>
    cases built
    exact soundUpdated (fun _ mem => absurd mem List.not_mem_nil) _
  | fallocate ip offset len =>
    cases built
    have refused : offset ≠ 0 ∨ len < (s.inode ip).size := by
      simp only [Allocates] at other
      omega
    rw [mlfsPosixFallocate,if_pos refused]
    exact fun _ mem => absurd mem List.not_mem_nil
  | write ip off n =>
    simp only [recorded,Option.ite_none_left_eq_some] at built
    cases built.2
    exact soundWrite ip off n

theorem callRoundTrips {s : FS} {c : Call} {tx : List (Logged β)} (even : ∀ dir ∈ parents c, Even (s.inode dir))
    (built : recorded s c = some (tx.map Logged.entry)) (l : Log.FsLog) (log : Nat → β) (dinode : Nat → Nat → β) :
    RoundTrips l log dinode tx ↔ ¬Allocates s c := by
  constructor
  · rintro ⟨committed,done,_⟩ allocates
    cases c with
    | fallocate ip offset len =>
      have recorded := Option.some.inj built
      rw [mlfsPosixFallocate,if_neg (by simp only [Allocates] at allocates; omega)] at recorded
      obtain ⟨x,rest,rfl⟩ : ∃ x rest, tx = x::rest := by
        cases tx with
        | nil => simp [addToLoghdr] at recorded
        | cons x rest => exact ⟨x,rest,rfl⟩
      have alloc : x.entry.type = .alloc := by
        have head := congrArg List.head? recorded
        simp only [addToLoghdr,List.nil_append,List.head?_cons,List.map_cons,Option.some.injEq] at head
        rw [← head]
      rw [commitLog,unsupportedPanics (List.mem_cons_self ..) alloc] at done
      contradiction
    | _ => exact allocates
  · intro other
    have sound := callSound even built other
    exact soundRoundTrips (fun x mem => sound _ (List.mem_map_of_mem mem)) l log dinode

def tagged (h : List Entry) : List (Logged Nat) := h.map fun e => ⟨e,fun k => e.inodeNo + k⟩

theorem taggedEntries (h : List Entry) : (tagged h).map Logged.entry = h := by
  rw [tagged,List.map_map]
  exact List.map_id h

theorem callRoundTripsMkdir : ∃ h, h.length = 4 ∧ RoundTrips (Log.initLog 0) (fun _ => 0) (fun inum _ => inum) (tagged h) := by
  have four : (mlfsObjectCreate mkfs none rootino (letter 'a') .dir 2).2.length = 4 := by decide +kernel
  refine ⟨_,four,(callRoundTrips (s := mkfs) (c := .mkdir none rootino (letter 'a') 2) (fun dir mem => ?_) ?_ ..).mpr id⟩
  · cases List.mem_singleton.mp mem
    exact holdsEven (mkfsWhole.dirs rootino _ (if_pos rfl)).2.2.2
  · rw [taggedEntries]
    rfl

/- `compute_log_blocks` does not know the entry of an allocation. -/
theorem fallocatePanics : ¬∀ s c (tx : List (Logged Nat)) l log dinode, Reach step Any init s →
    recorded s.fs c = some (tx.map Logged.entry) → RoundTrips l log dinode tx := by
  intro claim
  obtain ⟨s,reached,built⟩ : ∃ s, Reach step Any init s ∧ recorded s.fs (.fallocate 2 0 4096) = some [⟨.alloc,2,0,sizeofOffset,[]⟩] :=
    traceAny [.create none rootino (letter 'a') 2] (by decide +kernel)
  obtain ⟨c,done,_⟩ := claim s (.fallocate 2 0 4096) (tagged [⟨.alloc,2,0,sizeofOffset,[]⟩]) (Log.initLog 0) (fun _ => 0) (fun _ _ => 0)
    reached (by rw [built,taggedEntries])
  simp [commitLog,tagged,computeLogBlocks,kind] at done

end LineFS.Transaction
