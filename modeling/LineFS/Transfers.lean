import LineFS.Tiling

/-! The RDMA transfers of one prefetch request: the primary reads the blocks into a NIC buffer, replica 1
reads that buffer into one of its own and writes its copy to the log areas of its host and of the last
replica. Numbers are `uint64_t`; allocation succeeds and `COMPRESS_LOG` is off. -/
namespace LineFS.Transfers
open Base Prefetch

def word (x : Nat) : Nat := x % 2 ^ 64
def subWord (x y : Nat) : Nat := (x + 2 ^ 64 - y) % 2 ^ 64

/- A buffer of the NIC slab; an allocation lies inside the address space. -/
structure Buffer where
  addr : Nat
  size : Nat
  fits : addr + size ≤ 2 ^ 64

def slabBytes (bytes : Nat) : Nat := if bytes < 4096 then 4096 else bytes

def getSize (startBlknr endBlknr : Nat) : Nat :=
  word (word (subWord endBlknr startBlknr + 1) * gBlockSizeBytes)

inductive Far where
  | nvmLog (base : Nat)
  | dram (buffer : Buffer)

structure Transfer where
  buffer : Buffer
  near : Nat
  region : Far
  far : Nat
  len : Nat

structure Chain where
  persistNvmWithRdmaRead : Bool
  rctxSize : Nat
  libfsBase : Nat
  hostBase : Nat
  lastBase : Nat

def blkAddr (base blknr : Nat) : Nat := word (base + word (blknr * gBlockSizeBytes))

def readLog (buffer : Buffer) (region : Far) (far size : Nat) : List Transfer :=
  if size = 0 then [] else [⟨buffer,buffer.addr,region,far,size⟩]

/- Stage at the primary with its two assertions: the end of the range and the number
of blocks read. It hands `size` on. -/
def fetchLogFromLocalNvmBg (c : Chain) (logBuf : Buffer) (arg : PrefetchArg) : Option (List Transfer × Nat) :=
  let startBlknr := arg.prefetchStart
  let endBlknr := subWord (word (startBlknr + arg.nPrefetchBlk)) 1
  let size := getSize startBlknr endBlknr
  if endBlknr ≤ c.rctxSize ∧ size / gBlockSizeBytes = arg.nPrefetchBlk then
    some (readLog logBuf (.nvmLog c.libfsBase) (blkAddr c.libfsBase startBlknr) size,size)
  else none

def fetchLogFromPrimaryNicDramBg (logBuf remote : Buffer) (logSize : Nat) : List Transfer :=
  readLog logBuf (.dram remote) remote.addr logSize

/- The copy to a log area: the data and, where the persistence of NVM is forced by a
read, the last byte once more. -/
def copyLog (persistNvmWithRdmaRead : Bool) (base : Nat) (logBuf : Buffer) (startBlknr logSize : Nat) : List Transfer :=
  let remoteAddr := blkAddr base startBlknr
  ⟨logBuf,logBuf.addr,.nvmLog base,remoteAddr,logSize⟩ ::
    if persistNvmWithRdmaRead then
      [⟨logBuf,subWord (logBuf.addr + logSize) 1,.nvmLog base,subWord (remoteAddr + logSize) 1,1⟩]
    else []

def copyLogToLocalNvmBg (c : Chain) : Buffer → Nat → Nat → List Transfer := copyLog c.persistNvmWithRdmaRead c.hostBase
def copyLogToLastReplicaBg (c : Chain) : Buffer → Nat → Nat → List Transfer := copyLog c.persistNvmWithRdmaRead c.lastBase

def transfers (c : Chain) (primary replica : Buffer) (arg : PrefetchArg) : Option (List Transfer) :=
  (fetchLogFromLocalNvmBg c primary arg).map fun r =>
    r.1 ++ fetchLogFromPrimaryNicDramBg replica primary r.2 ++
      copyLogToLocalNvmBg c replica arg.prefetchStart r.2 ++ copyLogToLastReplicaBg c replica arg.prefetchStart r.2

def Buffer.Holds (b : Buffer) (a : Nat) : Prop := b.addr ≤ a ∧ a < b.addr + b.size

def Requested (arg : PrefetchArg) (base a : Nat) : Prop :=
  base + arg.prefetchStart * gBlockSizeBytes ≤ a ∧ a < base + (arg.prefetchStart + arg.nPrefetchBlk) * gBlockSizeBytes

def Far.Holds (arg : PrefetchArg) : Far → Nat → Prop
  | .nvmLog base => Requested arg base
  | .dram buffer => buffer.Holds

def Inside (arg : PrefetchArg) (t : Transfer) : Prop :=
  ∀ i < t.len, t.buffer.Holds (t.near + i) ∧ t.region.Holds arg (t.far + i)

structure Mapped (c : Chain) (arg : PrefetchArg) : Prop where
  libfs : c.libfsBase + (arg.prefetchStart + arg.nPrefetchBlk) * gBlockSizeBytes ≤ 2 ^ 64
  host : c.hostBase + (arg.prefetchStart + arg.nPrefetchBlk) * gBlockSizeBytes ≤ 2 ^ 64
  last : c.lastBase + (arg.prefetchStart + arg.nPrefetchBlk) * gBlockSizeBytes ≤ 2 ^ 64

/- Something is left to request: unrequested blocks, or transactions from before a
rotation that the request does not start over from. -/
def Unsynced (endBlknr : Nat) (p : PeerMeta) : Prop :=
  p.nUnsyncBlk ≠ 0 ∨ p.nUnsyncUptoEnd ≠ 0 ∧ ¬(endBlknr ≠ 0 ∧ endBlknr < p.localStart)

theorem calculatePositive {b e p fsync r} (h : calculatePrefetchMeta b e p fsync = some r) :
    0 < r.2.nPrefetchBlk ↔ Unsynced e p := by
  unfold calculatePrefetchMeta groupStart at h
  by_cases past : e ≠ 0 ∧ e < p.localStart
  · -- starting over forgets the transactions from before the rotation
    rw [if_pos past] at h
    cases h
    simp only [takeGroup,resetPrefetchMeta,Unsynced]
    exact ⟨fun positive => .inl (Nat.ne_of_gt positive),fun h => h.elim Nat.pos_of_ne_zero fun h => absurd past h.2⟩
  · rw [if_neg past] at h
    dsimp only at h
    split at h
    · obtain ⟨_,rfl⟩ := ifTaken h
      exact ⟨fun _ => .inr ⟨‹_›,past⟩,fun _ => Nat.succ_pos _⟩
    · have upto : p.nUnsyncUptoEnd = 0 := by simpa using ‹¬p.nUnsyncUptoEnd ≠ 0›
      cases h
      simp only [takeGroup,Unsynced]
      exact ⟨fun positive => .inl (Nat.ne_of_gt positive),fun h => h.elim Nat.pos_of_ne_zero fun h => absurd upto h.1⟩

theorem getSizeExact {start upto n : Nat} (read : getSize start upto / gBlockSizeBytes = n) :
    getSize start upto = n * gBlockSizeBytes := by
  simp only [getSize,word,subWord,gBlockSizeBytes] at *
  omega

variable {base : Nat} {b : Buffer} {arg : PrefetchArg}

theorem blkAddrExact {start n : Nat} (mapped : base + (start + n) * gBlockSizeBytes ≤ 2 ^ 64) (positive : 0 < n) :
    blkAddr base start = base + start * gBlockSizeBytes := by
  simp only [blkAddr,word,gBlockSizeBytes] at *
  omega

theorem slabHolds {bytes i : Nat} (alloc : b.size = slabBytes bytes) (inside : i < bytes) :
    b.Holds (b.addr + i) := by
  unfold slabBytes at alloc
  unfold Buffer.Holds
  split at alloc <;> omega

theorem blockRequested {i : Nat} (mapped : base + (arg.prefetchStart + arg.nPrefetchBlk) * gBlockSizeBytes ≤ 2 ^ 64)
    (inside : i < arg.nPrefetchBlk * gBlockSizeBytes) : Requested arg base (blkAddr base arg.prefetchStart + i) := by
  have positive : 0 < arg.nPrefetchBlk := Nat.pos_of_mul_pos_right (Nat.zero_lt_of_lt inside)
  rw [blkAddrExact mapped positive,Requested,Nat.add_mul]
  omega

theorem readInside {arg b far size} (region : Far) (alloc : b.size = slabBytes size)
    (held : ∀ i < size, region.Holds arg (far + i)) : ∀ t ∈ readLog b region far size, Inside arg t := by
  intro t listed
  unfold readLog at listed
  split at listed
  · cases listed
  · cases List.mem_singleton.mp listed
    exact fun i inside => ⟨slabHolds alloc inside,held i inside⟩

theorem lastByte {a size : Nat} (positive : 0 < size) (fits : a + size ≤ 2 ^ 64) :
    subWord (a + size) 1 = a + (size - 1) := by
  unfold subWord
  omega

theorem slabFits {bytes : Nat} (alloc : b.size = slabBytes bytes) : b.addr + bytes ≤ 2 ^ 64 := by
  have := b.fits
  unfold slabBytes at alloc
  split at alloc <;> omega

theorem requestedPositive {arg base a} (requested : Requested arg base a) : 0 < arg.nPrefetchBlk := by
  by_contra empty
  simp only [Requested,Nat.eq_zero_of_not_pos empty,Nat.add_zero] at requested
  omega

theorem lastInside (alloc : b.size = slabBytes (arg.nPrefetchBlk * gBlockSizeBytes))
    (mapped : base + (arg.prefetchStart + arg.nPrefetchBlk) * gBlockSizeBytes ≤ 2 ^ 64) (positive : 0 < arg.nPrefetchBlk) :
    b.Holds (subWord (b.addr + arg.nPrefetchBlk * gBlockSizeBytes) 1) ∧
    Requested arg base (subWord (blkAddr base arg.prefetchStart + arg.nPrefetchBlk * gBlockSizeBytes) 1) := by
  have bytes : 0 < arg.nPrefetchBlk * gBlockSizeBytes := Nat.mul_pos positive (by decide)
  have remote : blkAddr base arg.prefetchStart + arg.nPrefetchBlk * gBlockSizeBytes ≤ 2 ^ 64 := by
    rw [blkAddrExact mapped positive]
    rw [Nat.add_mul] at mapped
    omega
  rw [lastByte bytes (slabFits alloc),lastByte bytes remote]
  exact ⟨slabHolds alloc (Nat.sub_lt bytes Nat.one_pos),blockRequested mapped (Nat.sub_lt bytes Nat.one_pos)⟩

theorem copyInside (flag : Bool) (alloc : b.size = slabBytes (arg.nPrefetchBlk * gBlockSizeBytes))
    (mapped : base + (arg.prefetchStart + arg.nPrefetchBlk) * gBlockSizeBytes ≤ 2 ^ 64) :
    (∀ t ∈ copyLog flag base b arg.prefetchStart (arg.nPrefetchBlk * gBlockSizeBytes), Inside arg t) ↔
      (flag = false ∨ 0 < arg.nPrefetchBlk) := by
  have data : Inside arg ⟨b,b.addr,.nvmLog base,blkAddr base arg.prefetchStart,arg.nPrefetchBlk * gBlockSizeBytes⟩ :=
    fun i inside => ⟨slabHolds alloc inside,blockRequested mapped inside⟩
  cases flag with
  | false => simpa [copyLog] using data
  | true =>
    simp only [copyLog,if_true,List.forall_mem_cons,List.not_mem_nil,data,true_and,reduceCtorEq,false_or]
    constructor
    · exact fun inside => requestedPositive (inside.1 0 Nat.one_pos).2
    · refine fun positive => ⟨?_,nofun⟩
      intro i single
      rw [Nat.lt_one_iff.mp single,Nat.add_zero,Nat.add_zero]
      exact lastInside alloc mapped positive

theorem fetchExact {c b arg r} (h : fetchLogFromLocalNvmBg c b arg = some r) :
    r = (readLog b (.nvmLog c.libfsBase) (blkAddr c.libfsBase arg.prefetchStart) (arg.nPrefetchBlk * gBlockSizeBytes),
      arg.nPrefetchBlk * gBlockSizeBytes) := by
  unfold fetchLogFromLocalNvmBg at h
  dsimp only at h
  split at h
  · rw [getSizeExact (And.right ‹_›)] at h
    exact (Option.some.inj h).symm
  · cases h

theorem transfersInside {logBegin endBlknr p isFsync r} (c : Chain) (primary replica : Buffer) {ts : List Transfer}
    (computed : calculatePrefetchMeta logBegin endBlknr p isFsync = some r) (mapped : Mapped c r.2)
    (allocated : primary.size = slabBytes (r.2.nPrefetchBlk * gBlockSizeBytes) ∧
      replica.size = slabBytes (r.2.nPrefetchBlk * gBlockSizeBytes))
    (issued : transfers c primary replica r.2 = some ts) :
    (∀ t ∈ ts, Inside r.2 t) ↔ (c.persistNvmWithRdmaRead = false ∨ Unsynced endBlknr p) := by
  rw [← calculatePositive computed]
  obtain ⟨first,fetched,rfl⟩ := Option.map_eq_some_iff.mp issued
  cases fetchExact fetched
  have localCopy := copyInside c.persistNvmWithRdmaRead allocated.2 mapped.host
  have lastCopy := copyInside c.persistNvmWithRdmaRead allocated.2 mapped.last
  constructor
  · intro inside
    exact localCopy.mp fun t listed => inside t (by simp [copyLogToLocalNvmBg,listed])
  · intro safe t listed
    simp only [List.mem_append] at listed
    rcases listed with ((fetch | relay) | copy) | copy
    · exact readInside (.nvmLog _) allocated.1 (fun i inside => blockRequested mapped.libfs inside) t fetch
    · exact readInside (.dram _) allocated.2 (fun i inside => slabHolds allocated.1 inside) t relay
    · exact localCopy.mpr safe t copy
    · exact lastCopy.mpr safe t copy

def demoChain : Chain := ⟨true,gLogSize,2 ^ 30,2 ^ 31,2 ^ 32⟩
def demoBuffer (bytes : Nat) (fits : 4096 + bytes ≤ 2 ^ 64) : Buffer := ⟨4096,bytes,fits⟩

theorem transfersInsideTwo : ∃ ts, ts.length = 6 ∧
    transfers demoChain (demoBuffer 8192 (by decide)) (demoBuffer 8192 (by decide)) ⟨1,2,1,false,true⟩ = some ts ∧
    ∀ t ∈ ts, Inside ⟨1,2,1,false,true⟩ t := by
  have computed : calculatePrefetchMeta 1 0 ⟨1,2,1,0⟩ true = some (⟨3,0,0,0⟩,⟨1,2,1,false,true⟩) := rfl
  have mapped : Mapped demoChain ⟨1,2,1,false,true⟩ := ⟨by decide,by decide,by decide⟩
  refine ⟨_,?_,rfl,?_⟩
  · rfl
  · exact (transfersInside demoChain (demoBuffer 8192 (by decide)) (demoBuffer 8192 (by decide)) computed mapped ⟨rfl,rfl⟩ rfl).mpr
      (.inr (.inl (by decide)))

theorem emptyFsyncOutside : ¬∀ (c : Chain) (primary replica : Buffer) s r ts, Reach Tiling.step Any (Tiling.init 0) s →
    r ∈ s.computed → Mapped c r.arg → primary.size = slabBytes (r.arg.nPrefetchBlk * gBlockSizeBytes) →
    replica.size = slabBytes (r.arg.nPrefetchBlk * gBlockSizeBytes) →
    transfers c primary replica r.arg = some ts → ∀ t ∈ ts, Inside r.arg t := by
  intro always
  obtain ⟨s,reached,computed⟩ : ∃ s, Reach Tiling.step Any (Tiling.init 0) s ∧ s.computed = [⟨⟨1,0,0,false,true⟩,[]⟩] :=
    traceAny [.fsync] (by decide)
  have mapped : Mapped demoChain ⟨1,0,0,false,true⟩ := ⟨by decide,by decide,by decide⟩
  have inside := always demoChain (demoBuffer 4096 (by decide)) (demoBuffer 4096 (by decide)) s ⟨⟨1,0,0,false,true⟩,[]⟩ _
    reached (computed ▸ List.mem_singleton.mpr rfl) mapped rfl rfl rfl _ (.tail _ (.head _))
  exact absurd (requestedPositive (inside 0 Nat.one_pos).2) (Nat.lt_irrefl 0)

end LineFS.Transfers
