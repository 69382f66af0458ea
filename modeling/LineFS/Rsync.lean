import Mathlib.Data.List.Nodup
import LineFS.Log

/-! Replication of the host-only build. `create_rsync` turns a snapshot of what is not yet synchronised into
RDMA writes of contiguous block ranges; every pointer moves by walking the log headers. `start_rsync_session`
loads `end` of the log first and the counters later, with commits in between; what follows is one step. A
block of the log is seen as the log header it would be read as. -/
namespace LineFS.Rsync
open Option (bind_eq_bind bind_some map_eq_some_iff toList_none)
open List (append_nil getLastD_cons isChain_cons_cons mem_append mem_append_left mem_cons mem_filter mem_of_mem_filter)
open Base Log

def maxRdmaSge : Nat := 30

structure Header where
  nrLogBlocks : Nat
  inuse : Bool
  deriving DecidableEq, Repr

def nextLoghdrBlknr (current size start stop : Nat) : Nat :=
  if current + size - 1 = stop then start else current + size

structure Peer where
  localStart : Nat
  remoteStart : Nat
  remoteEnd : Nat
  startDigest : Nat
  startVersion : Nat
  availVersion : Nat
  nUnsync : Nat
  nUnsyncBlk : Nat
  nDigest : Nat
  deriving DecidableEq, Repr

structure Interval where
  start : Nat
  stop : Nat
  deriving DecidableEq, Repr

/- `rdma_meta_t` in blocks: where it writes in the peer's log, how many blocks, and the
blocks of the local log it gathers. -/
structure RdmaMeta where
  addr : Nat
  length : Nat
  sgeEntries : List Interval
  deriving DecidableEq, Repr

structure Session where
  stop : Nat
  localStart : Nat
  remoteStart : Nat
  remoteEnd : Nat
  nUnsync : Nat
  nUnsyncBlk : Nat
  nTosync : Nat
  nTosyncBlk : Nat
  intervals : List Interval
  intervalsStart : Nat
  intervalsBlk : Nat
  rdmaEntries : List RdmaMeta
  deriving DecidableEq, Repr

inductive Started where
  | busy
  | nothing
  | session (x : Session)
  deriving DecidableEq, Repr

def newSession (l : FsLog) (p : Peer) : Session :=
  ⟨l.logEnd,p.localStart,p.remoteStart,0,p.nUnsync,p.nUnsyncBlk,p.nUnsync,0,[],p.remoteStart,0,[]⟩

-- The blocks in use at the peer, after the assertion on the two pointers.
def nrUsedBlk (l : FsLog) (p : Peer) : Option Nat :=
  if p.availVersion = p.startVersion then
    if p.startDigest ≤ p.remoteStart then some (p.remoteStart - p.startDigest) else none
  else if p.remoteStart ≤ p.startDigest then some (l.size - p.startDigest + (p.remoteStart - l.begin)) else none

def startRsyncSession (l : FsLog) (p : Peer) (loadedEnd nBlk : Nat) : Option Started :=
  (nrUsedBlk l p).map fun used =>
    if l.size < used + p.nUnsyncBlk + l.begin then .busy
    else if p.nUnsyncBlk ≠ 0 ∧ nBlk ≤ p.nUnsyncBlk then .session { newSession l p with stop := loadedEnd }
    else .nothing

section pointers
variable (l : FsLog) (headers : Nat → Header)

/- A committed header of length zero keeps the loop where it is, any other one adds to the count, so the fuel
runs out only where the loop does not end. -/
def walk (stop start size : Nat) : Nat → Nat → Nat → Option Nat
  | 0, _, _ => none
  | fuel + 1, current, nrBlks =>
    let hdr := headers current
    if start + nrBlks + hdr.nrLogBlocks ≤ l.size ∧ nrBlks + hdr.nrLogBlocks ≤ size then
      if hdr.inuse then
        if nrBlks + hdr.nrLogBlocks = size then some size
        else walk stop start size fuel (nextLoghdrBlknr current hdr.nrLogBlocks l.begin stop) (nrBlks + hdr.nrLogBlocks)
      else if nrBlks = size then some size else none
    else some nrBlks

-- `lag` is an unsigned difference; it wraps, and wraps back in the sum.
def nrBlksBeforeWrap (stop start : Nat) (lag : Int) (size : Nat) : Option Nat :=
  if l.logEnd ≠ 0 ∧ l.logEnd ≤ start then some 0
  else if l.size < start + size then do
    let nrBlks ← walk l headers stop start size (size + 2) (start + lag).toNat 0
    if start = l.size ∧ nrBlks ≠ 0 then none else some nrBlks
  else some size

def moveLogPtr (stop ptr : Nat) (lag : Int) (size : Nat) : Option Nat :=
  if size = 0 then some ptr
  else do
    let before ← nrBlksBeforeWrap l headers stop ptr lag size
    some (if l.size < ptr + size then l.begin + (size - before) else ptr + size)

def rdmaAddSge (x : Session) (size : Nat) : Option Session :=
  if size = 0 then some x
  else if l.size < x.localStart + size - 1 then none
  else some { x with
    intervals := x.intervals ++ [⟨x.localStart,x.localStart + size - 1⟩]
    intervalsStart := if x.intervals = [] then x.remoteStart else x.intervalsStart
    intervalsBlk := x.intervalsBlk + size }

def rdmaFinalize (x : Session) : Option Session :=
  if x.intervals = [] then some x
  else if ∀ i ∈ x.intervals, i.stop ≤ l.size ∧ i.start ≤ i.stop then
    some { x with
      rdmaEntries := x.rdmaEntries ++ [⟨x.intervalsStart,x.intervalsBlk,x.intervals⟩]
      intervals := []
      intervalsBlk := 0 }
  else none

/- The two pointers after one interval; the remote one is moved first. -/
def movePtrs (x : Session) (localSize remoteSize interval size : Nat) : Option Session := do
  let lag : Int := x.localStart - x.remoteStart
  let y ←
    if remoteSize = interval ∧ interval < size then
      some { x with remoteEnd := x.remoteStart + interval - 1, remoteStart := l.begin }
    else (moveLogPtr l headers x.stop x.remoteStart lag interval).map fun r => { x with remoteStart := r }
  if localSize = interval ∧ interval < size then some { y with localStart := l.begin }
  else (moveLogPtr l headers y.stop y.localStart 0 interval).map fun r => { y with localStart := r }

def generateRound (x : Session) (size : Nat) : Option (Session × Nat) := do
  let localSize ← nrBlksBeforeWrap l headers x.stop x.localStart 0 size
  let remoteSize ← nrBlksBeforeWrap l headers x.stop x.remoteStart (x.localStart - x.remoteStart) size
  let interval := min localSize remoteSize
  let y ← rdmaAddSge l x interval
  let z ←
    if (remoteSize = interval ∧ interval < size ∧ interval ≠ 0) ∨ y.intervals.length = maxRdmaSge then rdmaFinalize l y
    else some y
  let w ← movePtrs l headers z localSize remoteSize interval size
  some ({ w with nTosyncBlk := w.nTosyncBlk + interval },size - interval)

def generateLoop : Nat → Session → Nat → Option Session
  | _, x, 0 => some x
  | 0, _, _ + 1 => none
  | fuel + 1, x, size + 1 => (generateRound l headers x (size + 1)).bind fun r => generateLoop fuel r.1 r.2

/- Three rounds in a row that ship nothing repeat one state, so the fuel runs out only where the loop does not
end. -/
def generateRsyncMsgs (x : Session) : Option Session := do
  let y ← generateLoop l headers (3 * x.nUnsyncBlk + 3) x x.nUnsyncBlk
  rdmaFinalize l y

-- `local_start` is reset when the log was rotated right behind what is synchronised.
def resetLocal (x : Session) : Session :=
  if x.stop ≠ 0 ∧ x.stop < x.localStart then { x with localStart := l.begin } else x

/- `create_rsync` from an established session on, log coalescing off. The peer's `local_start`
is that of the session. -/
def createRsync (p : Peer) (x : Session) : Option (Peer × Session) := do
  let x := resetLocal l x
  let localStart ← moveLogPtr l headers x.stop x.localStart 0 x.nUnsyncBlk
  let p := { p with localStart, nUnsyncBlk := p.nUnsyncBlk - x.nUnsyncBlk, nUnsync := p.nUnsync - x.nUnsync }
  let y ← generateRsyncMsgs l headers x
  if y.nUnsyncBlk = y.nTosyncBlk ∧ y.localStart = y.remoteStart ∧ y.intervals = [] then
    let p := { p with remoteStart := y.remoteStart }
    some (if y.remoteEnd ≠ 0 then { p with remoteEnd := y.remoteEnd, availVersion := p.availVersion + 1 } else p,y)
  else none

end pointers

/- A digest request on its way: `n_digest_req`, `start_digest`, the last block of the log
and the number of blocks. -/
structure Digest where
  count : Nat
  start : Nat
  stop : Nat
  nBlk : Nat
  deriving DecidableEq, Repr

/- The header walk of `digest_logs`; `rotated` comes out set when it jumps to the begin of the log. -/
def digestLogs (headers : Nat → Header) (start stop : Nat) : Nat → Nat → Bool → Option (Nat × Bool)
  | 0, current, rotated => some (current,rotated)
  | n + 1, current, rotated =>
    if (headers current).inuse then
      let next := nextLoghdrBlknr current (headers current).nrLogBlocks start stop
      digestLogs headers start stop n next (rotated || decide (next < current))
    else none

def makeDigestSegRequest (l : FsLog) : FsLog × Digest :=
  let l := if l.logEnd ≠ 0 ∧ l.logEnd < l.startBlk then
    { l with startBlk := l.begin, startVersion := l.startVersion + 1 } else l
  ({ l with startDigest := l.startBlk },⟨l.nDigest,l.startBlk,l.logEnd,l.nDigestBlks⟩)

def handleDigestResponse (l : FsLog) (d : Digest) (next : Nat) (rotated : Bool) : FsLog :=
  let l := if rotated then resetPublishMeta l else l
  { l with startBlk := next, startDigest := next, nDigest := l.nDigest - d.count, nDigestBlks := l.nDigestBlks - d.nBlk }

def updatePeerDigestState (p : Peer) (startDigest : Nat) (rotated : Bool) : Peer :=
  let rotated : Bool := rotated || decide (startDigest < p.startDigest)
  let p := { p with startDigest }
  if rotated then
    { p with startVersion := p.startVersion + 1, remoteEnd := if p.startVersion + 1 = p.availVersion then 0 else p.remoteEnd }
  else p

def written (m : RdmaMeta) : List (Nat × Nat) :=
  let gathered := m.sgeEntries.flatMap fun i => List.range' i.start (i.stop + 1 - i.start)
  gathered.zip (List.range' m.addr m.length)

def gathered : List Interval → Nat → Nat
  | [], _ => 0
  | i::is, k => if k < i.stop + 1 - i.start then i.start + k else gathered is (k - (i.stop + 1 - i.start))

def deliver (headers : Nat → Header) (remote : Nat → Header) (m : RdmaMeta) : Nat → Header := fun b =>
  if m.addr ≤ b ∧ b < m.addr + m.length then headers (gathered m.sgeEntries (b - m.addr)) else remote b

/- `pending` is the transaction whose caller waits in `log_alloc`, `asked` what digest requests hand to
`mlfs_do_rdigest`. `unsynced` lists the committed transactions that are not shipped, `shipped` those that the
peer has not reported digested; `reported` is the last one it reported. -/
structure State where
  log : FsLog
  headers : Nat → Header
  pending : Option Span
  unsynced : List Span
  peer : Peer
  remote : Nat → Header
  shipped : List Span
  reported : Span
  localDigest : Option Digest
  asked : List (Nat × Nat)
  peerDigest : Option Digest
  loadedEnd : Nat

def initPeer (l : FsLog) : Peer := ⟨l.begin,l.begin,0,l.begin,0,0,0,0,0⟩

def init (logSbBlk : Nat) (headers remote : Nat → Header) : State :=
  ⟨initLog logSbBlk,headers,none,[],initPeer (initLog logSbBlk),remote,[],⟨logSbBlk + 1,0,0⟩,none,[],none,0⟩

def State.synced (s : State) : Span := s.shipped.getLastD s.reported

def persist (headers : Nat → Header) (x : Span) (image : Nat → Header) : Nat → Header := fun b =>
  if b = x.start then ⟨x.len,true⟩ else if x.start ≤ b ∧ b < x.stop then image b else headers b

def updatePeerSyncState (p : Peer) (nrLogBlocks : Nat) : Peer :=
  { p with nUnsyncBlk := p.nUnsyncBlk + nrLogBlocks, nUnsync := p.nUnsync + 1 }

inductive Action where
  | alloc (nrBlocks : Nat)
  | ret (image : Nat → Header)
  | load
  | rsync (nBlk : Nat)
  | digest
  | digested
  | peerDigest
  | peerDigested

/- A transaction has its header and at least one block. `make_digest_seg_request_sync` replicates first, so a
digest request is made when everything it counts is shipped. -/
def step (s : State) : Action → Option State
  | .alloc n =>
    if s.pending = none ∧ 2 ≤ n ∧ n ≤ maxTransaction then
      let r := logAlloc s.log n
      some { s with log := r.1, pending := some ⟨r.2,n,r.1.availVersion⟩ }
    else none
  | .ret image =>
    match s.pending with
    | none => none
    | some x =>
      if LogFull s.log then none
      else some { s with
        log := commit s.log x.len
        headers := persist s.headers x image
        pending := none
        unsynced := s.unsynced ++ [x]
        peer := updatePeerSyncState s.peer x.len }
  | .load => some { s with loadedEnd := s.log.logEnd }
  | .rsync nBlk =>
    match startRsyncSession s.log s.peer s.loadedEnd nBlk with
    | some (.session x) =>
      (createRsync s.log s.headers s.peer x).map fun r =>
        { s with
          peer := { r.1 with nDigest := r.1.nDigest + r.2.nTosync }
          remote := r.2.rdmaEntries.foldl (deliver s.headers) s.remote
          unsynced := []
          shipped := s.shipped ++ s.unsynced }
    | _ => none
  | .digest =>
    if s.localDigest = none ∧ 0 < s.log.nDigest ∧ s.peerDigest = none ∧ s.log.nDigest ≤ s.peer.nDigest then
      let r := makeDigestSegRequest s.log
      some { s with
        log := r.1
        localDigest := some r.2
        peer := { s.peer with nDigest := s.peer.nDigest - r.2.count }
        asked := s.asked ++ [(r.2.count,r.2.nBlk)] }
    else none
  | .digested =>
    match s.localDigest with
    | none => none
    | some d => (digestLogs s.headers s.log.begin d.stop d.count d.start false).map fun r =>
        { s with log := handleDigestResponse s.log d r.1 r.2, localDigest := none }
  | .peerDigest =>
    match s.peerDigest, s.asked with
    | none, n::rest =>
      some { s with peerDigest := some ⟨n.1,s.peer.startDigest,s.peer.remoteEnd,n.2⟩, asked := rest }
    | _, _ => none
  | .peerDigested =>
    match s.peerDigest with
    | none => none
    | some d => (digestLogs s.remote s.log.begin d.stop d.count d.start false).map fun r =>
        { s with
          peer := updatePeerDigestState s.peer r.1 r.2
          shipped := s.shipped.drop d.count
          reported := (s.shipped.take d.count).getLastD s.reported
          peerDigest := none }

section rounds
variable {l : FsLog} {headers : Nat → Header} {stop start size n : Nat} {x : Session}

def Within (l : FsLog) (start size : Nat) : Prop := start + size ≤ l.size ∧ (l.logEnd = 0 ∨ start < l.logEnd)

theorem wrapWithin {lag} (fits : Within l start size) : nrBlksBeforeWrap l headers stop start lag size = some size := by
  obtain ⟨inside,mark⟩ := fits
  have early : ¬(l.logEnd ≠ 0 ∧ l.logEnd ≤ start) := by omega
  rw [nrBlksBeforeWrap,if_neg early,if_neg (Nat.not_lt.mpr inside)]

theorem moveWithin {lag} (fits : Within l start size) : moveLogPtr l headers stop start lag size = some (start + size) := by
  unfold moveLogPtr
  split
  · simp [*]
  · simp [wrapWithin fits,Nat.not_lt.mpr fits.1]

def holding (x : Session) (n : Nat) : Session :=
  { x with
    intervals := [⟨x.localStart,x.localStart + n - 1⟩]
    intervalsStart := x.remoteStart
    intervalsBlk := n }

def sent (x : Session) (n : Nat) : Session :=
  { x with
    intervals := []
    intervalsStart := x.remoteStart
    intervalsBlk := 0
    rdmaEntries := x.rdmaEntries ++ [⟨x.remoteStart,n,[⟨x.localStart,x.localStart + n - 1⟩]⟩] }

theorem addSge (empty : x.intervals = []) (none : x.intervalsBlk = 0) (some : 0 < n) (inside : x.localStart + n ≤ l.size) :
    rdmaAddSge l x n = .some (holding x n) := by
  have high : ¬l.size < x.localStart + n - 1 := by omega
  simp [rdmaAddSge,Nat.ne_of_gt some,high,empty,none,holding]

theorem finalizeHolding {y : Session} (held : y.intervals = [⟨start,start + n - 1⟩]) (some : 0 < n)
    (inside : start + n ≤ l.size) :
    rdmaFinalize l y = .some { y with
      intervals := [], intervalsBlk := 0,
      rdmaEntries := y.rdmaEntries ++ [⟨y.intervalsStart,y.intervalsBlk,[⟨start,start + n - 1⟩]⟩] } := by
  have ends : start + n - 1 ≤ l.size ∧ start ≤ start + n - 1 := by omega
  simp [rdmaFinalize,held,ends]

def whole (x : Session) (n : Nat) : Session :=
  { sent x n with
    localStart := x.localStart + n
    remoteStart := x.remoteStart + n
    nTosyncBlk := x.nTosyncBlk + n }

theorem roundWhole (empty : x.intervals = []) (none : x.intervalsBlk = 0) (some : 0 < n)
    (here : Within l x.localStart n) (there : Within l x.remoteStart n) :
    generateRound l headers x n = .some ({ holding x n with
      localStart := x.localStart + n, remoteStart := x.remoteStart + n, nTosyncBlk := x.nTosyncBlk + n },0) := by
  simp only [generateRound,wrapWithin here,wrapWithin there,bind_eq_bind,bind_some,Nat.min_self,
    addSge empty none some here.1]
  simp [movePtrs,holding,maxRdmaSge,moveWithin here,moveWithin there]

theorem loopWhole {fuel} (empty : x.intervals = []) (none : x.intervalsBlk = 0) (some : 0 < n)
    (here : Within l x.localStart n) (there : Within l x.remoteStart n) :
    (generateLoop l headers (fuel + 1) x n).bind (rdmaFinalize l) = .some (whole x n) := by
  obtain ⟨m,rfl⟩ : ∃ m, n = m + 1 := ⟨n - 1,by omega⟩
  simp only [generateLoop,roundWhole empty none some here there,bind_some]
  rw [finalizeHolding rfl some here.1]
  rfl

def rewound (x : Session) (begin n : Nat) : Session :=
  { sent x n with
    localStart := begin
    remoteStart := begin
    remoteEnd := x.remoteStart + n - 1
    nTosyncBlk := x.nTosyncBlk + n }

theorem roundRewound {r} (empty : x.intervals = []) (none : x.intervalsBlk = 0) (some : 0 < r) (more : r < n)
    (inside : x.localStart + r ≤ l.size)
    (here : nrBlksBeforeWrap l headers x.stop x.localStart 0 n = .some r)
    (there : nrBlksBeforeWrap l headers x.stop x.remoteStart (x.localStart - x.remoteStart) n = .some r) :
    generateRound l headers x n = .some (rewound x l.begin r,n - r) := by
  simp only [generateRound,here,there,bind_eq_bind,bind_some,Nat.min_self,addSge empty none some inside]
  rw [if_pos (.inl ⟨trivial,more,Nat.ne_of_gt some⟩),finalizeHolding rfl some inside]
  simp [movePtrs,more,rewound,sent,holding]

theorem roundSkip (some : 0 < n) (here : Within l x.localStart n) (few : x.intervals = [])
    (there : nrBlksBeforeWrap l headers x.stop x.remoteStart (x.localStart - x.remoteStart) n = .some 0) :
    generateRound l headers x n = .some ({ x with remoteStart := l.begin, remoteEnd := x.remoteStart - 1 },n) := by
  simp only [generateRound,wrapWithin here,there,bind_eq_bind,bind_some,Nat.min_zero,rdmaAddSge,
    if_pos]
  simp [movePtrs,moveLogPtr,few,maxRdmaSge,Nat.ne_of_gt some,some]

theorem generateAfter {z : Session} (first : generateRound l headers x x.nUnsyncBlk = .some (z,n))
    (amount : 0 < x.nUnsyncBlk) (empty : z.intervals = []) (none : z.intervalsBlk = 0) (some : 0 < n)
    (here : Within l z.localStart n) (there : Within l z.remoteStart n) :
    generateRsyncMsgs l headers x = .some (whole z n) := by
  obtain ⟨m,size⟩ : ∃ m, x.nUnsyncBlk = m + 1 := ⟨x.nUnsyncBlk - 1,by omega⟩
  have second := @loopWhole l headers n z (3 * (m + 1) + 1) empty none some here there
  rw [size] at first
  unfold generateRsyncMsgs
  rw [size,generateLoop,first]
  exact second

end rounds

section create
variable {l : FsLog} {headers : Nat → Header} {p : Peer}

theorem startEstablished {loadedEnd nBlk x} (h : startRsyncSession l p loadedEnd nBlk = some (.session x)) :
    x = { newSession l p with stop := loadedEnd } ∧ 0 < p.nUnsyncBlk ∧ ∃ used, nrUsedBlk l p = some used ∧
      used + p.nUnsyncBlk + l.begin ≤ l.size := by
  obtain ⟨used,known,h⟩ := map_eq_some_iff.mp h
  split at h
  · cases h
  rename_i room
  split at h
  · rename_i some
    cases h
    exact ⟨rfl,Nat.pos_of_ne_zero some.1,used,known,Nat.le_of_not_lt room⟩
  · cases h

theorem startLoaded {nBlk x} (h : startRsyncSession l p l.logEnd nBlk = some (.session x)) : x = newSession l p :=
  (startEstablished h).1

def piece (start n : Nat) : List RdmaMeta := if n = 0 then [] else [⟨start,n,[⟨start,start + n - 1⟩]⟩]

def moved (p : Peer) (stop mark : Nat) : Peer :=
  { p with
    localStart := stop
    remoteStart := stop
    nUnsync := 0
    nUnsyncBlk := 0
    remoteEnd := if mark = 0 then p.remoteEnd else mark
    availVersion := if mark = 0 then p.availVersion else p.availVersion + 1 }

theorem createOf {x y : Session} {stop mark : Nat} (opened : resetLocal l (newSession l p) = x)
    (pointer : moveLogPtr l headers l.logEnd x.localStart 0 p.nUnsyncBlk = some stop)
    (built : generateRsyncMsgs l headers x = some y)
    (all : y.nUnsyncBlk = y.nTosyncBlk) (here : y.localStart = stop) (there : y.remoteStart = stop)
    (empty : y.intervals = []) (rotated : y.remoteEnd = mark) :
    createRsync l headers p (newSession l p) = some (moved p stop mark,y) := by
  have fields : x.stop = l.logEnd ∧ x.nUnsyncBlk = p.nUnsyncBlk ∧ x.nUnsync = p.nUnsync := by
    rw [← opened]
    unfold resetLocal
    split <;> exact ⟨rfl,rfl,rfl⟩
  unfold createRsync
  simp only [opened,fields,pointer,built,bind_eq_bind,bind_some]
  rw [if_pos ⟨all,here.trans there.symm,empty⟩,there,rotated]
  by_cases zero : mark = 0 <;> simp [moved,zero]

theorem createWithin (same : p.remoteStart = p.localStart) (some : 0 < p.nUnsyncBlk)
    (fits : Within l p.localStart p.nUnsyncBlk) : ∃ y, createRsync l headers p (newSession l p) =
      .some (moved p (p.localStart + p.nUnsyncBlk) 0,y) ∧ y.nTosync = p.nUnsync ∧
      y.rdmaEntries = piece p.localStart p.nUnsyncBlk := by
  have kept : resetLocal l (newSession l p) = newSession l p :=
    if_neg (by have := fits.2; simp only [newSession]; omega)
  have there : Within l (newSession l p).remoteStart p.nUnsyncBlk := by simpa only [newSession,same] using fits
  have built := @loopWhole l headers p.nUnsyncBlk (newSession l p) (3 * p.nUnsyncBlk + 2) rfl rfl some fits there
  refine ⟨whole (newSession l p) p.nUnsyncBlk,createOf kept (moveWithin fits) built ?_ rfl ?_ rfl rfl,rfl,?_⟩
  · simp [whole,sent,newSession]
  · simp [whole,newSession,same]
  · simp [whole,sent,piece,newSession,same,Nat.ne_of_gt some]

theorem createRewound {r k : Nat} (same : p.remoteStart = p.localStart) (some : 0 < r) (more : 0 < k)
    (total : p.nUnsyncBlk = r + k) (last : p.localStart + r = l.logEnd + 1) (inside : l.logEnd < l.size)
    (past : l.size < p.localStart + p.nUnsyncBlk)
    (walked : nrBlksBeforeWrap l headers l.logEnd p.localStart 0 p.nUnsyncBlk = .some r) (fits : Within l l.begin k) :
    ∃ y, createRsync l headers p (newSession l p) = .some (moved p (l.begin + k) l.logEnd,y) ∧ y.nTosync = p.nUnsync ∧
      y.rdmaEntries = piece p.localStart r ++ piece l.begin k := by
  have kept : resetLocal l (newSession l p) = newSession l p := if_neg (by simp only [newSession]; omega)
  have rest : p.nUnsyncBlk - r = k := by omega
  have pointer : moveLogPtr l headers l.logEnd p.localStart 0 p.nUnsyncBlk = .some (l.begin + k) := by
    rw [moveLogPtr,if_neg (by omega),walked]
    simp [past,rest]
  have first : generateRound l headers (newSession l p) p.nUnsyncBlk =
      .some (rewound (newSession l p) l.begin r,k) := by
    rw [← rest]
    refine roundRewound rfl rfl some (by omega) (by simp only [newSession]; omega) walked ?_
    simpa only [newSession,same,Int.sub_self] using walked
  have built := generateAfter first (by simp only [newSession]; omega) rfl rfl more fits fits
  refine ⟨_,createOf kept pointer built ?_ rfl rfl rfl ?_,rfl,?_⟩
  · simp [whole,rewound,sent,newSession,total]
  · simp only [whole,rewound,sent,newSession,same]; omega
  · simp [whole,rewound,sent,newSession,piece,same,Nat.ne_of_gt some,Nat.ne_of_gt more]

def restarted (l : FsLog) (p : Peer) : Session := { newSession l p with localStart := l.begin }

theorem createSkipped (same : p.remoteStart = p.localStart) (some : 0 < p.nUnsyncBlk) (rotated : l.logEnd ≠ 0)
    (last : p.localStart = l.logEnd + 1) (fits : Within l l.begin p.nUnsyncBlk) :
    ∃ y, createRsync l headers p (newSession l p) = .some (moved p (l.begin + p.nUnsyncBlk) l.logEnd,y) ∧
      y.nTosync = p.nUnsync ∧ y.rdmaEntries = piece l.begin p.nUnsyncBlk := by
  have reset : resetLocal l (newSession l p) = restarted l p := if_pos ⟨rotated,by simp only [newSession]; omega⟩
  have there : nrBlksBeforeWrap l headers (restarted l p).stop (restarted l p).remoteStart
      ((restarted l p).localStart - (restarted l p).remoteStart) p.nUnsyncBlk = .some 0 :=
    if_pos ⟨rotated,by simp only [restarted,newSession]; omega⟩
  have skip := roundSkip some fits rfl there
  have built := generateAfter skip some rfl rfl some fits fits
  refine ⟨_,createOf reset (moveWithin fits) built ?_ rfl rfl rfl ?_,rfl,?_⟩
  · simp [whole,sent,restarted,newSession]
  · simp only [whole,sent,restarted,newSession,same]; omega
  · simp [whole,sent,restarted,newSession,piece,Nat.ne_of_gt some]

end create

section spans
variable {l : FsLog} {headers : Nat → Header} {lo hi mark : Nat} {x y : Span} {xs : List Span}

theorem nextSame (start : y.start = x.stop) (inside : x.stop ≠ mark + 1) (some : 0 < x.len) :
    nextLoghdrBlknr x.start x.len lo mark = y.start := by
  have other : x.start + x.len - 1 ≠ mark := by simp only [Span.stop] at inside; omega
  rw [nextLoghdrBlknr,if_neg other,start]
  rfl

theorem nextBegin (last : x.stop = mark + 1) : nextLoghdrBlknr x.start x.len lo mark = lo :=
  if_pos (by simp only [Span.stop] at last; omega)

def Linked (lo mark : Nat) (xs : List Span) : Prop :=
  xs.IsChain fun x y => nextLoghdrBlknr x.start x.len lo mark = y.start

def Headed (headers : Nat → Header) (xs : List Span) : Prop := ∀ x ∈ xs, headers x.start = ⟨x.len,true⟩

theorem linkedWrap (chain : (x::(xs ++ [y])).IsChain (Follows lo hi)) (same : (xs.getLastD x).lap = x.lap)
    (wrap : y.lap = x.lap + 1) (long : ∀ z ∈ x::xs, 0 < z.len) (last : (xs.getLastD x).stop = mark + 1) :
    Linked lo mark (x::(xs ++ [y])) := by
  induction xs generalizing x with
  | nil =>
    obtain ⟨follows,_⟩ := isChain_cons_cons.mp chain
    refine isChain_cons_cons.mpr ⟨?_,List.isChain_singleton y⟩
    rcases follows with ⟨lap,_⟩ | ⟨_,start,_⟩
    · omega
    · exact (nextBegin last).trans start.symm
  | cons z zs ih =>
    obtain ⟨follows,rest⟩ := isChain_cons_cons.mp chain
    rw [getLastD_cons] at same last
    have later : (z::zs).IsChain (Follows lo hi) := by
      rw [← List.cons_append] at chain
      exact chain.left_of_append.tail
    have lapLe := laidLapLe later (.head _)
    rcases follows with ⟨lap,start⟩ | ⟨lap,_⟩
    · have stopLe := laidStopLe later (.head _) (by omega)
      have zLong := long z (by simp)
      have inside : x.stop ≠ mark + 1 := by simp only [Span.stop] at *; omega
      exact isChain_cons_cons.mpr ⟨nextSame start inside (long x (.head _)),
        ih rest (by omega) (by omega) (fun w mem => long w (.tail _ mem)) last⟩
    · omega

theorem walkSpans {start size fuel nr} (linked : Linked l.begin mark (xs ++ [y])) (headed : Headed headers (xs ++ [y]))
    (room : start + nr + blocks xs ≤ l.size) (less : nr + blocks xs < size) (past : l.size < start + nr + blocks xs + y.len)
    (enough : xs.length < fuel) :
    walk l headers mark start size fuel (xs.headD y).start nr = some (nr + blocks xs) := by
  induction xs generalizing nr fuel with
  | nil =>
    obtain ⟨f,rfl⟩ : ∃ f, fuel = f + 1 := ⟨fuel - 1,by simp at enough; omega⟩
    have header := headed y (by simp)
    simp only [blocksNil,Nat.add_zero] at *
    simp only [walk,List.headD_nil,header]
    rw [if_neg (by omega)]
  | cons x xs ih =>
    obtain ⟨f,rfl⟩ : ∃ f, fuel = f + 1 := ⟨fuel - 1,by simp at enough; omega⟩
    have header := headed x (by simp)
    have next : nextLoghdrBlknr x.start x.len l.begin mark = (xs.headD y).start := by
      cases xs with
      | nil => exact (isChain_cons_cons.mp linked).1
      | cons z zs => exact (isChain_cons_cons.mp linked).1
    simp only [blocksCons] at *
    simp only [walk,List.headD_cons,header]
    rw [if_pos (by omega),if_pos trivial,if_neg (by omega),next,
      ih linked.tail (fun z mem => headed z (.tail _ mem)) (by omega) (by omega) (by omega)
        (by simp only [List.length_cons] at enough; omega),Nat.add_assoc]

end spans

def laid (s : State) : List Span := s.unsynced ++ s.pending.toList

def inLap (s : State) : List Span := s.unsynced.filter fun x => x.lap = s.synced.lap
def behind (s : State) : List Span := s.unsynced.filter fun x => x.lap ≠ s.synced.lap

/- The transactions that are not shipped cross the end of the log once at most, and those behind it end at or
before the first block not shipped. `end` is the last block before it, or zero or behind `local_start`. -/
def Marked (s : State) : Prop :=
  (∀ x ∈ behind s, x.lap = s.synced.lap + 1 ∧ x.stop ≤ s.peer.localStart) ∧
  if behind s = [] then s.log.logEnd = 0 ∨ s.peer.localStart < s.log.logEnd
  else s.log.logEnd + 1 = ((inLap s).getLastD s.synced).stop
deriving Decidable

/- No commit has set another `end` since it was loaded. -/
def Loaded (s : State) : Prop := s.loadedEnd = s.log.logEnd
deriving Decidable

def Proper (s : State) : Action → Prop
  | .rsync _ => Marked s ∧ Loaded s
  | _ => True
instance (s a) : Decidable (Proper s a) := by cases a <;> unfold Proper <;> infer_instance

/- A transaction is its header and at least one block behind it. -/
structure LongTail (l : FsLog) (c : Span) (xs : List Span) : Prop extends Tail l c xs where
  long : ∀ x ∈ xs, 2 ≤ x.len ∧ x.len ≤ maxTransaction

section tail
variable {l m : FsLog} {c d : Span} {xs ys : List Span} {n : Nat}

theorem longSame (h : LongTail l c xs) (same : SameTail l m) : LongTail m c xs := ⟨tailSame h.toTail same,h.long⟩

theorem longAlloc (h : LongTail l c xs) (long : 2 ≤ n) (small : n ≤ maxTransaction) :
    LongTail (logAlloc l n).1 c (xs ++ [⟨(logAlloc l n).2,n,(logAlloc l n).1.availVersion⟩]) := by
  refine ⟨tailAlloc h.toTail small,fun x mem => ?_⟩
  rcases memSnoc mem with old | rfl
  · exact h.long x old
  · exact ⟨long,small⟩

theorem longDrop (h : LongTail l c (xs ++ ys)) (low : l.begin ≤ d.start) (stop : d.stop = (xs.getLastD c).stop)
    (lap : d.lap = (xs.getLastD c).lap) : LongTail l d ys :=
  ⟨tailDrop h.toTail low stop lap,fun x mem => h.long x (List.mem_append_right _ mem)⟩

theorem longRest (h : LongTail l c (xs ++ ys)) : LongTail l (xs.getLastD c) ys :=
  ⟨tailRest h.toTail,fun x mem => h.long x (List.mem_append_right _ mem)⟩

end tail

/- The transactions follow one another from the last shipped one to the tail of the log; both pointers are
behind the last shipped one; a header is in the log unless a later transaction covers its block. -/
structure Synced (s : State) : Prop extends LongTail s.log s.synced (laid s) where
  here : s.peer.localStart = s.synced.stop
  there : s.peer.remoteStart = s.synced.stop
  counted : s.peer.nUnsyncBlk = blocks s.unsynced
  headed : ∀ x ∈ s.unsynced, (∀ y ∈ s.unsynced, y.start ≤ x.start → x.start < y.stop → y = x) →
    s.headers x.start = ⟨x.len,true⟩

theorem initSynced (logSbBlk headers remote) : Synced (init logSbBlk headers remote) := by
  refine ⟨⟨⟨?_,?_,?_,?_,rfl⟩,?_⟩,?_,?_,?_,?_⟩ <;>
    simp [init,laid,State.synced,initLog,initPeer,FsLog.begin,Span.stop,gLogSize]

section synced
variable {s : State}

theorem unsyncedChain (h : Synced s) : (s.synced::s.unsynced).IsChain (Follows s.log.begin s.log.size) := by
  have chain := h.chain
  rw [laid,← List.cons_append] at chain
  exact chain.left_of_append

theorem unsyncedLaid {x} (mem : x ∈ s.unsynced) : x ∈ laid s := mem_append_left _ mem

theorem splitLap (h : Synced s) : s.unsynced = inLap s ++ behind s := laidSplit (unsyncedChain h)

theorem inLapChain (h : Synced s) : (s.synced::inLap s).IsChain (Follows s.log.begin s.log.size) := by
  have chain := unsyncedChain h
  rw [splitLap h,← List.cons_append] at chain
  exact chain.left_of_append

theorem inLapLast : ((inLap s).getLastD s.synced).lap = s.synced.lap := by
  rcases mem_cons.mp (@lastMem s.synced (inLap s)) with same | mem
  · rw [same]
  · simpa using (mem_filter.mp mem).2

section
variable (h : Synced s)
include h

theorem inLapStop : ((inLap s).getLastD s.synced).stop = s.synced.stop + blocks (inLap s) :=
  laidOneLap (inLapChain h) inLapLast

theorem inLapInside : ((inLap s).getLastD s.synced).stop ≤ s.log.size := by
  refine (h.inside _ ?_).2
  rcases mem_cons.mp (@lastMem s.synced (inLap s)) with same | mem
  · rw [same]; exact .head _
  · exact .tail _ (unsyncedLaid (mem_of_mem_filter mem))

theorem behindChain :
    ((inLap s).getLastD s.synced::behind s).IsChain (Follows s.log.begin s.log.size) := by
  have chain := unsyncedChain h
  rw [splitLap h] at chain
  exact laidRest chain

theorem behindStop (marked : Marked s) (some : behind s ≠ []) :
    ∃ y ys, behind s = y::ys ∧ y.start = s.log.begin ∧ y.lap = s.synced.lap + 1 ∧
      s.log.size < s.synced.stop + blocks (inLap s) + y.len ∧
      ((behind s).getLastD s.synced).stop = s.log.begin + blocks (behind s) := by
  obtain ⟨y,ys,cons⟩ := List.exists_cons_of_ne_nil some
  have chain := behindChain h
  have laps := marked.1
  rw [cons] at chain laps
  obtain ⟨follows,rest⟩ := isChain_cons_cons.mp chain
  have lap := (laps y (.head _)).1
  have same : (ys.getLastD y).lap = y.lap := by rw [(laps _ lastMem).1,lap]
  have stop := laidOneLap rest same
  rw [Follows,inLapLast,inLapStop h] at follows
  rcases follows with ⟨other,_⟩ | ⟨_,start,past⟩
  · omega
  · refine ⟨y,ys,cons,start,lap,past,?_⟩
    rw [cons,getLastD_cons,stop,blocksCons,Span.stop,start]
    omega

theorem unsyncedApart (marked : Marked s) {x y} (left : x ∈ s.unsynced) (right : y ∈ s.unsynced)
    (low : y.start ≤ x.start) (high : x.start < y.stop) : y = x := by
  have lower : ∀ z ∈ s.unsynced, z.lap = s.synced.lap → s.synced.stop ≤ z.start := by
    intro z mem same
    have := laidFirst (unsyncedChain h) mem
    simp only [Before] at this
    omega
  have upper : ∀ z ∈ s.unsynced, z.lap ≠ s.synced.lap → z.lap = s.synced.lap + 1 ∧ z.stop ≤ s.synced.stop := by
    intro z mem other
    rw [← h.here]
    exact marked.1 z (mem_filter.mpr ⟨mem,by simpa using other⟩)
  have xLower := lower x left
  have xUpper := upper x left
  have yLower := lower y right
  have yUpper := upper y right
  have long := h.long x (unsyncedLaid left)
  rcases laidEither (unsyncedChain h).tail right left with same | before | before
  · exact same
  all_goals
    simp only [Before,Span.stop] at *
    omega

theorem unsyncedHeaded (marked : Marked s) : Headed s.headers s.unsynced := fun x mem =>
  h.headed x mem fun _ other low high => unsyncedApart h marked mem other low high

end

theorem lengthLeBlocks {xs : List Span} (long : ∀ x ∈ xs, 0 < x.len) : xs.length ≤ blocks xs := by
  induction xs with
  | nil => simp
  | cons x xs ih =>
    have first := long x (.head _)
    have rest := ih fun y mem => long y (.tail _ mem)
    rw [List.length_cons,blocksCons]
    omega

theorem countedSplit (h : Synced s) : s.peer.nUnsyncBlk = blocks (inLap s) + blocks (behind s) := by
  rw [h.counted,splitLap h,blocksAppend]

theorem walkInLap (h : Synced s) (marked : Marked s) (here : inLap s ≠ []) (there : behind s ≠ []) :
    nrBlksBeforeWrap s.log s.headers s.log.logEnd s.peer.localStart 0 s.peer.nUnsyncBlk = some (blocks (inLap s)) := by
  obtain ⟨x,xs,first⟩ := List.exists_cons_of_ne_nil here
  obtain ⟨y,ys,second,yStart,yLap,past,_⟩ := behindStop h marked there
  have mark := marked.2
  rw [if_neg there] at mark
  have whole : s.unsynced = (x::xs) ++ (y::ys) := by rw [splitLap h,first,second]
  have long : ∀ z ∈ s.unsynced, 2 ≤ z.len := fun z mem => (h.long z (unsyncedLaid mem)).1
  have headed := unsyncedHeaded h marked
  have chain := unsyncedChain h
  have total := countedSplit h
  have stop := inLapStop h
  have xLap : x.lap = s.synced.lap := by
    simpa using (mem_filter.mp (first ▸ (.head _) : x ∈ inLap s)).2
  have last := @inLapLast s
  rw [whole] at long headed chain
  rw [first] at mark stop total last past ⊢
  rw [second] at total
  rw [getLastD_cons] at mark stop last
  have xStart : x.start = s.synced.stop := by
    rcases (isChain_cons_cons.mp chain).1 with ⟨_,start⟩ | ⟨lap,_⟩
    · exact start
    · omega
  have cut : (x::xs) ++ (y::ys) = (x::(xs ++ [y])) ++ ys := by simp
  rw [cut] at chain headed
  have linked : Linked s.log.begin s.log.logEnd (x::(xs ++ [y])) :=
    linkedWrap chain.tail.left_of_append (last.trans xLap.symm) (by omega)
      (fun z mem => by have := long z (mem_append_left _ mem); omega) mark.symm
  have xLong := long x (by simp)
  have yLong := long y (by simp)
  have few := @lengthLeBlocks (x::xs) fun z mem => by have := long z (mem_append_left _ mem); omega
  have inside := (h.inside _ (.tail _ (unsyncedLaid (whole ▸ mem_append_left _
    (@lastMem x xs) : xs.getLastD x ∈ s.unsynced)))).2
  simp only [blocksCons] at *
  have local' := h.here
  have walked := @walkSpans s.log s.headers s.log.logEnd y (x::xs) s.peer.localStart s.peer.nUnsyncBlk
    (s.peer.nUnsyncBlk + 2) 0 linked (fun z mem => headed z (mem_append_left _ mem))
    (by simp only [blocksCons]; omega) (by simp only [blocksCons]; omega) (by simp only [blocksCons]; omega) (by omega)
  have current : ((s.peer.localStart : Int) + 0).toNat = ((x::xs).headD y).start := by simp [xStart,local']
  have early : ¬(s.log.logEnd ≠ 0 ∧ s.log.logEnd ≤ s.peer.localStart) := by omega
  rw [nrBlksBeforeWrap,if_neg early,if_pos (by omega),current,walked]
  have low : s.peer.localStart ≠ s.log.size := by omega
  simp [low]

theorem unsyncedStop (h : Synced s) (marked : Marked s) : (s.unsynced.getLastD s.synced).stop =
    if behind s = [] then s.synced.stop + blocks (inLap s) else s.log.begin + blocks (behind s) := by
  rw [splitLap h,lastAppend]
  split
  · rename_i none
    rw [none]
    exact inLapStop h
  · rename_i some
    obtain ⟨y,ys,cons,_,_,_,stop⟩ := behindStop h marked some
    rw [← stop,cons,getLastD_cons,getLastD_cons]

theorem behindWithin (h : Synced s) (marked : Marked s) (some : behind s ≠ []) :
    Within s.log s.log.begin (blocks (behind s)) ∧ s.log.logEnd ≠ 0 ∧ s.log.logEnd < s.log.size ∧ 0 < blocks (behind s) := by
  obtain ⟨y,ys,cons,start,lap,past,stop⟩ := behindStop h marked some
  have mark := marked.2
  rw [if_neg some,inLapStop h] at mark
  have last : (behind s).getLastD s.synced ∈ behind s := lastMemSome some
  have below := (marked.1 _ last).2
  have mem : y ∈ s.unsynced := mem_of_mem_filter (cons ▸ (.head _) : y ∈ behind s)
  have long := h.long y (unsyncedLaid mem)
  have bounds := h.bounds
  have inside := (h.inside _ (.tail _ (mem_append_left s.pending.toList (mem_of_mem_filter last)))).2
  have lastIn := inLapInside h
  have local' := h.here
  rw [inLapStop h] at lastIn
  have some' : 0 < blocks (behind s) := by rw [cons,blocksCons]; omega
  simp only [FsLog.begin,gLogSize,maxTransaction,Within] at *
  omega

def entries (s : State) : List RdmaMeta :=
  piece s.synced.stop (blocks (inLap s)) ++ piece s.log.begin (blocks (behind s))

theorem createMarked (h : Synced s) (marked : Marked s) (some : 0 < s.peer.nUnsyncBlk) :
    ∃ y, createRsync s.log s.headers s.peer (newSession s.log s.peer) =
      .some (moved s.peer (s.unsynced.getLastD s.synced).stop (if behind s = [] then 0 else s.log.logEnd),y) ∧
      y.nTosync = s.peer.nUnsync ∧ y.rdmaEntries = entries s := by
  have same : s.peer.remoteStart = s.peer.localStart := h.there.trans h.here.symm
  have total := countedSplit h
  rw [unsyncedStop h marked]
  by_cases none : behind s = []
  · have stop := inLapStop h
    have inside := inLapInside h
    have mark := marked.2
    rw [if_pos none] at mark
    rw [none,blocksNil,Nat.add_zero] at total
    have fits : Within s.log s.peer.localStart s.peer.nUnsyncBlk := ⟨by rw [h.here,total]; omega,mark⟩
    obtain ⟨y,made,counted,messages⟩ := @createWithin s.log s.headers s.peer same some fits
    refine ⟨y,?_,counted,?_⟩
    · rw [made,if_pos none,if_pos none,h.here,total]
    · rw [messages,entries,none,h.here,total]
      simp [piece]
  · obtain ⟨fits,rotated,inside,more⟩ := behindWithin h marked none
    have mark := marked.2
    rw [if_neg none,inLapStop h,← h.here] at mark
    rw [if_neg none,if_neg none]
    by_cases first : inLap s = []
    · rw [first,blocksNil] at total mark
      rw [Nat.zero_add] at total
      obtain ⟨y,made,counted,messages⟩ := @createSkipped s.log s.headers s.peer same some rotated mark.symm (total ▸ fits)
      refine ⟨y,by rw [made,total],counted,?_⟩
      rw [messages,entries,first,total]
      simp [piece]
    · have here : 0 < blocks (inLap s) := by
        obtain ⟨x,xs,cons⟩ := List.exists_cons_of_ne_nil first
        have mem : x ∈ s.unsynced := mem_of_mem_filter (cons ▸ (.head _) : x ∈ inLap s)
        have long := h.long x (unsyncedLaid mem)
        rw [cons,blocksCons]
        omega
      obtain ⟨y',_,cons,_,_,past,_⟩ := behindStop h marked none
      have beyond : s.log.size < s.peer.localStart + s.peer.nUnsyncBlk := by
        rw [total,h.here]
        rw [cons,blocksCons]
        omega
      obtain ⟨y,made,counted,messages⟩ := @createRewound s.log s.headers s.peer _ _ same here more total mark.symm inside
        beyond (walkInLap h marked first none) fits
      exact ⟨y,made,counted,by rw [messages,entries,h.here]⟩

end synced

theorem retExact {s t image} (h : step s (.ret image) = some t) : ∃ x, s.pending = some x ∧
    t = { s with
      log := commit s.log x.len
      headers := persist s.headers x image
      pending := none
      unsynced := s.unsynced ++ [x]
      peer := updatePeerSyncState s.peer x.len } := by
  simp only [step] at h
  split at h <;> try contradiction
  rename_i x held
  obtain ⟨_,rfl⟩ := unlessTaken h
  exact ⟨x,held,rfl⟩

theorem sessionLoaded {s nBlk x} (loaded : Loaded s) (h : startRsyncSession s.log s.peer s.loadedEnd nBlk = some (.session x)) :
    x = newSession s.log s.peer := startLoaded (loaded ▸ h)

theorem rsyncExact {s t nBlk} (loaded : Loaded s) (h : step s (.rsync nBlk) = some t) : ∃ p y,
    startRsyncSession s.log s.peer s.loadedEnd nBlk = some (.session (newSession s.log s.peer)) ∧
    createRsync s.log s.headers s.peer (newSession s.log s.peer) = some (p,y) ∧
    t = { s with
      peer := { p with nDigest := p.nDigest + y.nTosync }
      remote := y.rdmaEntries.foldl (deliver s.headers) s.remote
      unsynced := []
      shipped := s.shipped ++ s.unsynced } := by
  simp only [step] at h
  split at h <;> try contradiction
  rename_i x started
  cases sessionLoaded loaded started
  obtain ⟨⟨p,y⟩,made,rfl⟩ := map_eq_some_iff.mp h
  exact ⟨p,y,started,made,rfl⟩

theorem digestExact {s t} (h : step s .digest = some t) : 0 < s.log.nDigest ∧ s.log.nDigest ≤ s.peer.nDigest ∧
    t = { s with
      log := (makeDigestSegRequest s.log).1
      localDigest := some (makeDigestSegRequest s.log).2
      peer := { s.peer with nDigest := s.peer.nDigest - s.log.nDigest }
      asked := s.asked ++ [(s.log.nDigest,s.log.nDigestBlks)] } := by
  obtain ⟨idle,h⟩ := Option.ite_none_right_eq_some.mp h
  refine ⟨idle.2.1,idle.2.2.2,?_⟩
  rw [← Option.some.inj h]
  simp only [makeDigestSegRequest]
  split <;> rfl

theorem digestedExact {s t} (h : step s .digested = some t) : ∃ d next rotated,
    t = { s with log := handleDigestResponse s.log d next rotated, localDigest := none } := by
  simp only [step] at h
  split at h <;> try contradiction
  rename_i d held
  obtain ⟨⟨next,rotated⟩,_,rfl⟩ := map_eq_some_iff.mp h
  exact ⟨d,next,rotated,rfl⟩

theorem peerDigestExact {s t} (h : step s .peerDigest = some t) : ∃ n rest, s.peerDigest = none ∧ s.asked = n::rest ∧
    t = { s with peerDigest := some ⟨n.1,s.peer.startDigest,s.peer.remoteEnd,n.2⟩, asked := rest } := by
  simp only [step] at h
  split at h <;> try contradiction
  rename_i n rest idle asked
  exact ⟨n,rest,idle,asked,(Option.some.inj h).symm⟩

theorem peerDigestedExact {s t} (h : step s .peerDigested = some t) : ∃ d next rotated, s.peerDigest = some d ∧
    digestLogs s.remote s.log.begin d.stop d.count d.start false = some (next,rotated) ∧
    t = { s with
      peer := updatePeerDigestState s.peer next rotated
      shipped := s.shipped.drop d.count
      reported := (s.shipped.take d.count).getLastD s.reported
      peerDigest := none } := by
  simp only [step] at h
  split at h <;> try contradiction
  rename_i d held
  obtain ⟨⟨next,rotated⟩,walked,rfl⟩ := map_eq_some_iff.mp h
  exact ⟨d,next,rotated,held,walked,rfl⟩

theorem requestTail (l : FsLog) : SameTail l (makeDigestSegRequest l).1 := by
  unfold makeDigestSegRequest
  constructor <;> (simp only; split <;> rfl)

theorem responseTail (l : FsLog) (d next rotated) : SameTail l (handleDigestResponse l d next rotated) := by
  unfold handleDigestResponse resetPublishMeta
  constructor <;> (cases rotated <;> rfl)

@[simp] theorem updateLocal (p next rotated) : (updatePeerDigestState p next rotated).localStart = p.localStart := by
  unfold updatePeerDigestState; dsimp only; split <;> rfl
@[simp] theorem updateRemote (p next rotated) : (updatePeerDigestState p next rotated).remoteStart = p.remoteStart := by
  unfold updatePeerDigestState; dsimp only; split <;> rfl
@[simp] theorem updateAvail (p next rotated) : (updatePeerDigestState p next rotated).availVersion = p.availVersion := by
  unfold updatePeerDigestState; dsimp only; split <;> rfl
@[simp] theorem updateUnsync (p next rotated) : (updatePeerDigestState p next rotated).nUnsyncBlk = p.nUnsyncBlk := by
  unfold updatePeerDigestState; dsimp only; split <;> rfl

theorem syncedKept {s t : State} (h : Synced s) (tail : SameTail s.log t.log) (headers : t.headers = s.headers)
    (pending : t.pending = s.pending) (unsynced : t.unsynced = s.unsynced) (synced : t.synced = s.synced)
    (here : t.peer.localStart = s.peer.localStart) (there : t.peer.remoteStart = s.peer.remoteStart)
    (counted : t.peer.nUnsyncBlk = s.peer.nUnsyncBlk) : Synced t := by
  have same : laid t = laid s := by rw [laid,laid,unsynced,pending]
  constructor
  · rw [synced,same]; exact longSame h.toLongTail tail
  · rw [synced,here]; exact h.here
  · rw [synced,there]; exact h.there
  · rw [unsynced,counted]; exact h.counted
  · rw [unsynced,headers]; exact h.headed

theorem allocSynced {s t n} (before : Synced s) (h : step s (.alloc n) = some t) : Synced t := by
  obtain ⟨⟨idle,long,small⟩,rfl⟩ := ifTaken h
  have same : laid s = s.unsynced := by simp [laid,idle]
  refine ⟨?_,before.here,before.there,before.counted,before.headed⟩
  show LongTail _ s.synced (s.unsynced ++ [_])
  rw [← same]
  exact longAlloc before.toLongTail long small

theorem persistOutside {headers : Nat → Header} {x : Span} {image b} (out : ¬(x.start ≤ b ∧ b < x.stop))
    (some : 0 < x.len) : persist headers x image b = headers b := by
  have other : b ≠ x.start := by rintro rfl; exact out ⟨Nat.le_refl _,Nat.lt_add_of_pos_right some⟩
  rw [persist,if_neg other,if_neg out]

theorem retSynced {s t image} (before : Synced s) (h : step s (.ret image) = some t) : Synced t := by
  obtain ⟨x,held,rfl⟩ := retExact h
  have same : laid s = s.unsynced ++ [x] := by simp [laid,held]
  have long := before.long x (by simp [same])
  refine ⟨?_,before.here,before.there,?_,?_⟩
  · rw [laid,toList_none,append_nil,← same]
    exact longSame before.toLongTail ⟨rfl,rfl,rfl,rfl⟩
  · simp [updatePeerSyncState,before.counted]
  · intro y mem alone
    rcases memSnoc mem with old | rfl
    · by_cases hit : x.start ≤ y.start ∧ y.start < x.stop
      · cases alone x (by simp) hit.1 hit.2
        exact if_pos rfl
      · exact (persistOutside hit (by omega)).trans (before.headed y old fun z other => alone z (mem_append_left _ other))
    · exact if_pos rfl

theorem rsyncSynced {s t nBlk} (before : Synced s) (proper : Proper s (.rsync nBlk)) (h : step s (.rsync nBlk) = some t) : Synced t := by
  obtain ⟨marked,loaded⟩ := proper
  obtain ⟨p,y,started,made,rfl⟩ := rsyncExact loaded h
  obtain ⟨_,some,_⟩ := startEstablished started
  obtain ⟨y',exact,_,_⟩ := createMarked before marked some
  obtain ⟨rfl,rfl⟩ := Prod.mk.inj (Option.some.inj (exact.symm.trans made))
  have last : (s.shipped ++ s.unsynced).getLastD s.reported = s.unsynced.getLastD s.synced := lastAppend _ _
  refine ⟨?_,?_,?_,rfl,by simp⟩
  · show LongTail s.log ((s.shipped ++ s.unsynced).getLastD s.reported) s.pending.toList
    rw [last]
    exact longRest before.toLongTail
  · simp [moved,State.synced]
  · simp [moved,State.synced]

theorem stepSynced {s a t} (before : Synced s) (proper : Proper s a) (h : step s a = some t) : Synced t := by
  cases a with
  | alloc n => exact allocSynced before h
  | ret image => exact retSynced before h
  | load =>
    cases h
    exact syncedKept before ⟨rfl,rfl,rfl,rfl⟩ rfl rfl rfl rfl rfl rfl rfl
  | rsync nBlk => exact rsyncSynced before proper h
  | digest =>
    obtain ⟨_,_,rfl⟩ := digestExact h
    exact syncedKept before (requestTail s.log) rfl rfl rfl rfl rfl rfl rfl
  | digested =>
    obtain ⟨d,next,rotated,rfl⟩ := digestedExact h
    exact syncedKept before (responseTail s.log d next rotated) rfl rfl rfl rfl rfl rfl rfl
  | peerDigest =>
    obtain ⟨n,rest,_,_,rfl⟩ := peerDigestExact h
    exact syncedKept before ⟨rfl,rfl,rfl,rfl⟩ rfl rfl rfl rfl rfl rfl rfl
  | peerDigested =>
    obtain ⟨d,next,rotated,_,_,rfl⟩ := peerDigestedExact h
    refine syncedKept before ⟨rfl,rfl,rfl,rfl⟩ rfl rfl rfl ?_ (by simp) (by simp) (by simp)
    rw [State.synced,State.synced,← lastAppend,List.take_append_drop]

theorem reachSynced {logSbBlk headers remote s} (h : Reach step Proper (init logSbBlk headers remote) s) : Synced s :=
  reachInvariant Synced (initSynced logSbBlk headers remote) (fun _ _ _ => stepSynced) h

def logged (xs : List Span) : List (Nat × Nat) :=
  (xs.flatMap fun x => List.range' x.start x.len).map fun b => (b,b)

/- The blocks that are not shipped, each once, in log order and to the same block of the peer's log, and no
message has blocks of two laps. -/
structure Exact (s : State) (y : Session) : Prop where
  cover : y.rdmaEntries.flatMap written = logged s.unsynced
  once : (y.rdmaEntries.flatMap written).Nodup
  count : (y.rdmaEntries.map RdmaMeta.length).sum = s.peer.nUnsyncBlk
  apart : ∀ m ∈ y.rdmaEntries, ∃ lap, ∀ b ∈ written m, ∃ x ∈ s.unsynced, x.lap = lap ∧ x.start ≤ b.1 ∧ b.1 < x.stop

theorem writtenPiece (start n : Nat) : (piece start n).flatMap written = (List.range' start n).map fun b => (b,b) := by
  unfold piece
  split
  · simp [*]
  · rename_i some
    have length : start + n - 1 + 1 - start = n := by omega
    simp [written,length,List.zip_eq_zipWith]

theorem inRange {xs : List Span} {b : Nat} (mem : b ∈ xs.flatMap fun x => List.range' x.start x.len) :
    ∃ x ∈ xs, x.start ≤ b ∧ b < x.stop := by
  obtain ⟨x,here,inside⟩ := List.mem_flatMap.mp mem
  exact ⟨x,here,List.mem_range'_1.mp inside⟩

theorem inLapRange {s} (h : Synced s) :
    (inLap s).flatMap (fun x => List.range' x.start x.len) = List.range' s.synced.stop (blocks (inLap s)) :=
  laidRange (inLapChain h) inLapLast

theorem behindRange {s} (h : Synced s) (marked : Marked s) :
    (behind s).flatMap (fun x => List.range' x.start x.len) = List.range' s.log.begin (blocks (behind s)) := by
  by_cases none : behind s = []
  · rw [none]; rfl
  obtain ⟨y,ys,cons,start,lap,_⟩ := behindStop h marked none
  have chain := (behindChain h).tail
  have laps := marked.1
  rw [List.tail_cons,cons] at chain
  rw [cons] at laps
  have same : (ys.getLastD y).lap = y.lap := by rw [(laps _ lastMem).1,lap]
  rw [cons,List.flatMap_cons,laidRange chain same,blocksCons,Span.stop,start,List.range'_append_1]

theorem entriesExact {s y} (h : Synced s) (marked : Marked s) (messages : y.rdmaEntries = entries s) : Exact s y := by
  have cover : y.rdmaEntries.flatMap written =
      (List.range' s.synced.stop (blocks (inLap s)) ++ List.range' s.log.begin (blocks (behind s))).map fun b => (b,b) := by
    rw [messages,entries,List.flatMap_append,writtenPiece,writtenPiece,List.map_append]
  refine ⟨?_,?_,?_,?_⟩
  · rw [cover,logged,splitLap h,List.flatMap_append,inLapRange h,behindRange h marked]
  · rw [cover]
    refine List.Nodup.map (fun a b same => (Prod.mk.inj same).1) (List.nodup_append.mpr ⟨List.nodup_range',List.nodup_range',?_⟩)
    intro a left b right
    have low := (List.mem_range'_1.mp left).1
    have high := (List.mem_range'_1.mp right).2
    have some : behind s ≠ [] := by
      intro none
      rw [none,blocksNil] at right
      simp at right
    obtain ⟨_,_,_,_,_,_,stop⟩ := behindStop h marked some
    have below := (marked.1 _ (@lastMemSome s.synced _ some)).2
    rw [stop,h.here] at below
    omega
  · rw [messages,entries,countedSplit h]
    simp only [piece]
    split <;> split <;> simp [*]
  · intro m mem
    rw [messages,entries] at mem
    rcases mem_append.mp mem with first | second
    · refine ⟨s.synced.lap,fun b inside => ?_⟩
      have here : b ∈ (piece s.synced.stop (blocks (inLap s))).flatMap written := List.mem_flatMap.mpr ⟨m,first,inside⟩
      rw [writtenPiece,← inLapRange h] at here
      obtain ⟨c,range,rfl⟩ := List.mem_map.mp here
      obtain ⟨x,found,bounds⟩ := inRange range
      obtain ⟨old,lap⟩ := mem_filter.mp found
      exact ⟨x,old,by simpa using lap,bounds⟩
    · refine ⟨s.synced.lap + 1,fun b inside => ?_⟩
      have here : b ∈ (piece s.log.begin (blocks (behind s))).flatMap written := List.mem_flatMap.mpr ⟨m,second,inside⟩
      rw [writtenPiece,← behindRange h marked] at here
      obtain ⟨c,range,rfl⟩ := List.mem_map.mp here
      obtain ⟨x,found,bounds⟩ := inRange range
      exact ⟨x,mem_of_mem_filter found,(marked.1 x found).1,bounds⟩

theorem markedShipsExactly {logSbBlk headers remote s nBlk x} (h : Reach step Proper (init logSbBlk headers remote) s)
    (marked : Marked s) (loaded : Loaded s) (started : startRsyncSession s.log s.peer s.loadedEnd nBlk = some (.session x)) :
    ∃ p y, createRsync s.log s.headers s.peer x = some (p,y) ∧ Exact s y := by
  obtain ⟨_,some,_⟩ := startEstablished started
  cases sessionLoaded loaded started
  obtain ⟨y,made,_,messages⟩ := createMarked (reachSynced h) marked some
  exact ⟨_,y,made,entriesExact (reachSynced h) marked messages⟩

def blank : Nat → Header := fun _ => ⟨0,false⟩
def transaction (n : Nat) : List Action := [.alloc n,.ret blank]
def transactions (k n : Nat) : List Action := (List.replicate k (transaction n)).flatten

def wrapTrace : List Action :=
  transactions 30 4098 ++ ([.load,.rsync 0,.digest,.peerDigest,.digested,.peerDigested] : List Action) ++ transactions 2 4098 ++ [.load]

theorem markedShipsAcrossWrap : ∃ s x p y, startRsyncSession s.log s.peer s.loadedEnd 0 = some (.session x) ∧
    inLap s ≠ [] ∧ behind s ≠ [] ∧ createRsync s.log s.headers s.peer x = some (p,y) ∧ Exact s y := by
  obtain ⟨s,reached,marked,loaded,here,there,started⟩ : ∃ s, Reach step Proper (init 0 blank blank) s ∧
      Marked s ∧ Loaded s ∧ inLap s ≠ [] ∧ behind s ≠ [] ∧
      startRsyncSession s.log s.peer s.loadedEnd 0 = some (.session (newSession s.log s.peer)) :=
    traceReach wrapTrace (by decide +kernel)
  obtain ⟨p,y,made,exact⟩ := markedShipsExactly reached marked loaded started
  exact ⟨s,_,p,y,started,here,there,made,exact⟩

def clearedTrace : List Action :=
  transaction 2 ++ ([.load,.rsync 0,.digest,.peerDigest] : List Action) ++ transactions 31 4098 ++
  ([.alloc 4098,.digested,.peerDigested,.load,.rsync 0,.digest,.peerDigest,.digested,.peerDigested,.ret blank,.load] : List Action)

theorem clearedEndFails : ∃ s x, Reach step Any (init 0 blank blank) s ∧
    startRsyncSession s.log s.peer s.loadedEnd 0 = some (.session x) ∧ createRsync s.log s.headers s.peer x = none := by
  obtain ⟨s,reached,started,failed⟩ : ∃ s, Reach step Any (init 0 blank blank) s ∧
      startRsyncSession s.log s.peer s.loadedEnd 0 = some (.session (newSession s.log s.peer)) ∧
      createRsync s.log s.headers s.peer (newSession s.log s.peer) = none :=
    traceAny clearedTrace (by decide +kernel)
  exact ⟨s,_,reached,started,failed⟩

end LineFS.Rsync
