import LineFS.Rsync

/-! The flush of received log blocks in the host-only build. A replicate message tells the number of
blocks of the RDMA write and not their place. Each replica of the chain flushes from its own
`local_start`, forwards the blocks by a session of its own, and then moves `local_start`; a message is handled
to its end before the next one. -/
namespace LineFS.ReplicaFlush
open Base Log Rsync

section Streams
variable {α : Type} {next : Nat → α → Prop} {stop : α → Nat} {k : Nat} {x : α} {xs ys : List α}

def Stream (next : Nat → α → Prop) (stop : α → Nat) : Nat → List α → Prop
  | _, [] => True
  | k, x::xs => next k x ∧ Stream next stop (stop x) xs

def final (stop : α → Nat) (k : Nat) (xs : List α) : Nat := xs.foldl (fun _ x => stop x) k

@[simp] theorem finalAppend : final stop k (xs ++ ys) = final stop (final stop k xs) ys := List.foldl_append

theorem streamAppend : Stream next stop k (xs ++ ys) ↔ Stream next stop k xs ∧ Stream next stop (final stop k xs) ys := by
  induction xs generalizing k with
  | nil => exact (and_iff_right trivial).symm
  | cons x xs ih =>
    rw [List.cons_append,Stream,ih,Stream,and_assoc]
    rfl

theorem streamSnoc (before : Stream next stop k xs) (item : next (final stop k xs) x) : Stream next stop k (xs ++ [x]) :=
  streamAppend.mpr ⟨before,item,trivial⟩

end Streams

structure Message where
  write : RdmaMeta
  nLogBlks : Nat
  endBlknr : Nat
  deriving DecidableEq, Repr

structure Flush where
  localStart : Nat
  nLogBlks : Nat
  write : RdmaMeta
  deriving DecidableEq, Repr

structure Replica where
  log : FsLog
  headers : Nat → Header
  peer : Peer
  inbox : List Message
  flushes : List Flush

structure State where
  libfs : Rsync.State
  outbox : List RdmaMeta
  stop : Nat
  replicas : List Replica

def initReplica (logSbBlk : Nat) (headers : Nat → Header) : Replica :=
  ⟨initLog logSbBlk,headers,initPeer (initLog logSbBlk),[],[]⟩

def init (logSbBlk : Nat) (headers remote : Nat → Header) (replicas : List (Nat → Header)) : State :=
  ⟨Rsync.init logSbBlk headers remote,[],logSbBlk + 1,replicas.map (initReplica logSbBlk)⟩

-- `create_rsync` as KernFS calls it: the peer, the writes and the number of log headers, zero if there is nothing to ship.
def createRsyncForward (log : FsLog) (headers : Nat → Header) (p : Peer) : Option (Peer × List RdmaMeta × Nat) :=
  match startRsyncSession log p log.logEnd 0 with
  | some (.session x) => (createRsync log headers p x).map fun r => (r.1,r.2.rdmaEntries,r.2.nTosync)
  | some .nothing => some (p,[],0)
  | _ => none

/- `rpc_replicate_log_relay` asserts that there is one write at most. -/
def mlfsDoRsyncForward (log : FsLog) (headers : Nat → Header) (p : Peer) (rep : Message) : Option (Peer × List Message) :=
  (createRsyncForward log headers p).bind fun r =>
    if r.2.2 = 0 then some (r.1,[])
    else if r.2.1.length ≤ 1 then some ({ r.1 with nDigest := r.1.nDigest + r.2.2 },r.2.1.map fun m => { rep with write := m })
    else none

def advance (log : FsLog) (p : Peer) (nLogBlks : Nat) : Peer :=
  if log.size < p.localStart + nLogBlks then
    { p with localStart := log.begin + nLogBlks, availVersion := p.availVersion + 1 }
  else { p with localStart := p.localStart + nLogBlks }

/- `local_start` is read before the blocks are forwarded, and flushed from after it. -/
def handleReplicateMsg (lastInChain : Bool) (r : Replica) : Option (Replica × List Message) :=
  match r.inbox with
  | [] => none
  | rep::rest =>
    let peer := updatePeerSyncState r.peer rep.nLogBlks
    let localStart := peer.localStart
    let log := { r.log with logEnd := rep.endBlknr }
    let flushes := r.flushes ++ [⟨localStart,rep.nLogBlks,rep.write⟩]
    if lastInChain then some ({ r with log, peer := advance log peer rep.nLogBlks, inbox := rest, flushes },[])
    else (mlfsDoRsyncForward log r.headers peer rep).map fun o => ({ r with log, peer := o.1, inbox := rest, flushes },o.2)

def receive (headers : Nat → Header) (r : Replica) (rep : Message) : Replica :=
  { r with headers := deliver headers r.headers rep.write, inbox := r.inbox ++ [rep] }

def handleAt : Nat → List Replica → Option (List Replica)
  | _, [] => none
  | 0, [r] => (handleReplicateMsg true r).map fun o => [o.1]
  | 0, r::after::rest => (handleReplicateMsg false r).map fun o => o.1::o.2.foldl (receive r.headers) after::rest
  | i + 1, r::rest => (handleAt i rest).map fun rs => r::rs

def notified (startDigest : Nat) (rotated : Bool) (r : Replica) : Replica :=
  { r with peer := updatePeerDigestState r.peer startDigest rotated }

inductive Action where
  | libfs (a : Rsync.Action)
  | send
  | handle (i : Nat)
  | notify (i startDigest : Nat) (rotated : Bool)

def created (s : Rsync.State) : Rsync.Action → List RdmaMeta
  | .rsync nBlk =>
    match startRsyncSession s.log s.peer s.loadedEnd nBlk with
    | some (.session x) => ((createRsync s.log s.headers s.peer x).map fun r => r.2.rdmaEntries).getD []
    | _ => []
  | _ => []

/- `rpc_replicate_log_initiate` loads `end` when it sends a write, which may be later than its creation. -/
def step (s : State) : Action → Option State
  | .libfs a => (Rsync.step s.libfs a).map fun l => { s with libfs := l, outbox := s.outbox ++ created s.libfs a }
  | .send =>
    match s.outbox, s.replicas with
    | m::rest, r::rs =>
      some { s with
        outbox := rest
        stop := m.addr + m.length
        replicas := receive s.libfs.headers r ⟨m,m.length,s.libfs.log.logEnd⟩::rs }
    | _, _ => none
  | .handle i => (handleAt i s.replicas).map fun rs => { s with replicas := rs }
  | .notify i startDigest rotated => some { s with replicas := s.replicas.modify i (notified startDigest rotated) }

/- A message that goes on behind the one before it starts ahead of the `end` it carries, and one that starts a
lap is sent while `end` is the last block before. -/
def Fresh (stop addr endBlknr : Nat) : Prop := if addr = stop then endBlknr = 0 ∨ stop < endBlknr else endBlknr + 1 = stop
deriving Decidable

def Proper (s : State) : Action → Prop
  | .libfs a => Rsync.Proper s.libfs a
  | .send => ∀ m ∈ s.outbox.head?, Fresh s.stop m.addr s.libfs.log.logEnd
  | _ => True
instance (s a) : Decidable (Proper s a) := by cases a <;> unfold Proper <;> infer_instance

def Flush.Exact (f : Flush) : Prop := f.localStart = f.write.addr ∧ f.nLogBlks = f.write.length
instance (f : Flush) : Decidable f.Exact := by unfold Flush.Exact; infer_instance

def Laid (lo hi stop : Nat) (m : RdmaMeta) : Prop :=
  2 ≤ m.length ∧ (m.addr = stop ∧ stop + m.length ≤ hi ∨ m.addr = lo ∧ lo + 2 ≤ stop ∧ hi < stop + m.length ∧ lo + m.length ≤ hi)

def stopOf (m : RdmaMeta) : Nat := m.addr + m.length

def Arrives (lo hi stop : Nat) (rep : Message) : Prop :=
  rep.nLogBlks = rep.write.length ∧ Laid lo hi stop rep.write ∧ Fresh stop rep.write.addr rep.endBlknr

section Forward
variable {log : FsLog} {headers : Nat → Header} {p : Peer} {rep : Message}

theorem createArrived (arrives : Arrives log.begin log.size p.localStart rep) (fresh : rep.endBlknr = log.logEnd)
    (same : p.remoteStart = p.localStart) (amount : p.nUnsyncBlk = rep.nLogBlks) :
    ∃ mark y, createRsync log headers p (newSession log p) = some (moved p (stopOf rep.write) mark,y) ∧
      y.rdmaEntries = piece rep.write.addr rep.write.length ∧ y.nTosync = p.nUnsync := by
  obtain ⟨blks,⟨long,place⟩,mark⟩ := arrives
  rw [blks] at amount
  have some_ : 0 < p.nUnsyncBlk := by omega
  unfold Fresh at mark
  by_cases on : rep.write.addr = p.localStart
  · rw [if_pos on,fresh] at mark
    have fits : Within log p.localStart p.nUnsyncBlk := ⟨by omega,mark⟩
    obtain ⟨y,made,count,entries⟩ := @createWithin log headers p same some_ fits
    exact ⟨0,y,by rw [made,stopOf,on,amount],by rw [entries,on,amount],count⟩
  · rw [if_neg on,fresh] at mark
    obtain ⟨begins,below,_,inside⟩ := place.resolve_left fun h => on h.1
    have fits : Within log log.begin p.nUnsyncBlk := ⟨by omega,.inr (by omega)⟩
    obtain ⟨y,made,count,entries⟩ := @createSkipped log headers p same some_ (by omega) mark.symm fits
    exact ⟨log.logEnd,y,by rw [made,stopOf,begins,amount],by rw [entries,begins,amount],count⟩

theorem forwardArrived {o : Peer × List Message} (arrives : Arrives log.begin log.size p.localStart rep) (fresh : rep.endBlknr = log.logEnd)
    (same : p.remoteStart = p.localStart) (amount : p.nUnsyncBlk = rep.nLogBlks) (counted : 0 < p.nUnsync)
    (forwarded : mlfsDoRsyncForward log headers p rep = some o) :
    o.1.localStart = stopOf rep.write ∧ o.1.remoteStart = stopOf rep.write ∧ o.1.nUnsyncBlk = 0 ∧
      ∃ m, o.2 = [{ rep with write := m }] ∧ m.addr = rep.write.addr ∧ m.length = rep.write.length := by
  obtain ⟨r,created,sent⟩ := Option.bind_eq_some_iff.mp forwarded
  obtain ⟨mark,y,made,entries,nTosync⟩ := @createArrived log headers p rep arrives fresh same amount
  have long := arrives.2.1.1
  have blks := arrives.1
  unfold createRsyncForward at created
  split at created <;> try contradiction
  · rename_i x started
    cases startLoaded started
    rw [made,Option.map_some] at created
    cases created
    simp only [nTosync,if_neg (Nat.ne_of_gt counted),entries,piece,if_neg (show rep.write.length ≠ 0 by omega)] at sent
    cases sent
    exact ⟨rfl,rfl,rfl,_,rfl,rfl,rfl⟩
  · -- there is something to ship
    rename_i started
    obtain ⟨used,_,answer⟩ := Option.map_eq_some_iff.mp started
    split at answer <;> try contradiction
    rw [if_pos ⟨by omega,Nat.zero_le _⟩] at answer
    contradiction

theorem advanceArrived {n : Nat} (arrives : Arrives log.begin log.size p.localStart rep) (count : n = rep.nLogBlks) :
    (advance log p n).localStart = stopOf rep.write := by
  obtain ⟨blks,⟨_,place⟩,_⟩ := arrives
  unfold advance stopOf
  rcases place with ⟨on,inside⟩ | ⟨begins,_,past,_⟩
  · rw [if_neg (by omega)]
    simp only
    omega
  · rw [if_pos (by omega)]
    simp only
    omega

end Forward

/- The messages in the inbox go on from `local_start`, and every flush was exact unless its message started
a lap. -/
structure Tracks (logSbBlk : Nat) (r : Replica) : Prop where
  sb : r.log.logSbBlk = logSbBlk
  size : r.log.size = logSbBlk + gLogSize
  inbox : Stream (Arrives (logSbBlk + 1) (logSbBlk + gLogSize)) (fun rep => stopOf rep.write) r.peer.localStart r.inbox
  started : if r.flushes = [] then r.peer.localStart = logSbBlk + 1 else logSbBlk + 3 ≤ r.peer.localStart
  flushed : ∀ i f, r.flushes[i]? = some f → (f.Exact ↔ (f.write.addr = logSbBlk + 1 → i = 0))

def Relays (r : Replica) : Prop := r.peer.remoteStart = r.peer.localStart ∧ r.peer.nUnsyncBlk = 0

def arrived (r : Replica) : Nat := final (fun rep : Message => stopOf rep.write) r.peer.localStart r.inbox

def Chained (logSbBlk : Nat) : Nat → List Replica → Prop
  | _, [] => True
  | stop, r::rest => Tracks logSbBlk r ∧ arrived r = stop ∧ (rest ≠ [] → Relays r) ∧ Chained logSbBlk r.peer.localStart rest

section Handle
variable {logSbBlk stop : Nat} {r after : Replica} {rs rs' : List Replica} {headers : Nat → Header} {rep : Message}

theorem receiveTracks (h : Tracks logSbBlk r) (arrives : Arrives (logSbBlk + 1) (logSbBlk + gLogSize) (arrived r) rep) :
    Tracks logSbBlk (receive headers r rep) :=
  ⟨h.sb,h.size,streamSnoc h.inbox arrives,h.started,h.flushed⟩

theorem receiveArrived : arrived (receive headers r rep) = stopOf rep.write := by
  simp only [arrived,receive,finalAppend]
  rfl

theorem receiveChained (h : Chained logSbBlk stop (r::rs)) (arrives : Arrives (logSbBlk + 1) (logSbBlk + gLogSize) stop rep) :
    Chained logSbBlk (stopOf rep.write) (receive headers r rep::rs) :=
  ⟨receiveTracks h.1 (h.2.1 ▸ arrives),receiveArrived,h.2.2.1,h.2.2.2⟩

theorem flushExact (h : Tracks logSbBlk r) (arrives : Arrives (logSbBlk + 1) (logSbBlk + gLogSize) r.peer.localStart rep) :
    (Flush.Exact ⟨r.peer.localStart,rep.nLogBlks,rep.write⟩ ↔ (rep.write.addr = logSbBlk + 1 → r.flushes.length = 0)) := by
  obtain ⟨blks,⟨_,place⟩,_⟩ := arrives
  have started := h.started
  simp only [Flush.Exact,blks,and_true,List.length_eq_zero_iff]
  by_cases none_ : r.flushes = []
  · rw [if_pos none_] at started
    refine iff_of_true ?_ fun _ => none_
    rcases place with ⟨on,_⟩ | ⟨_,below,_⟩ <;> omega
  · rw [if_neg none_] at started
    simp only [none_,imp_false]
    omega

theorem handledTracks {rest : List Message} {p : Peer} (h : Tracks logSbBlk r) (front : r.inbox = rep::rest)
    (moved : p.localStart = stopOf rep.write) :
    Tracks logSbBlk { r with
      log := { r.log with logEnd := rep.endBlknr }, peer := p, inbox := rest,
      flushes := r.flushes ++ [⟨r.peer.localStart,rep.nLogBlks,rep.write⟩] } := by
  have inbox := h.inbox
  rw [front] at inbox
  obtain ⟨arrives,later⟩ := inbox
  refine ⟨h.sb,h.size,moved ▸ later,?_,fun i f at_ => ?_⟩
  · rw [if_neg (by simp)]
    have started := h.started
    obtain ⟨_,⟨long,place⟩,_⟩ := arrives
    simp only [moved,stopOf]
    split at started <;> omega
  · rcases Nat.lt_or_ge i r.flushes.length with old | new
    · rw [List.getElem?_append_left old] at at_
      exact h.flushed i f at_
    · rw [List.getElem?_append_right new,List.getElem?_singleton] at at_
      obtain ⟨last,rfl⟩ := ifTaken at_
      have same : i = r.flushes.length := by omega
      rw [same]
      exact flushExact h arrives

theorem handleArrived {rest : List Message} {p : Peer} {log : FsLog} {flushes : List Flush} (front : r.inbox = rep::rest)
    (moved : p.localStart = stopOf rep.write) : arrived { r with log, peer := p, inbox := rest, flushes } = arrived r := by
  simp only [arrived,front,moved]
  rfl

theorem lastChained {o : Replica × List Message} (h : Chained logSbBlk stop [r]) (handled : handleReplicateMsg true r = some o) :
    Chained logSbBlk stop [o.1] := by
  obtain ⟨tracks,received,_,_⟩ := h
  unfold handleReplicateMsg at handled
  split at handled <;> try contradiction
  rename_i rep rest front
  simp only [if_true] at handled
  cases handled
  have inbox := tracks.inbox
  rw [front] at inbox
  have arrives : Arrives r.log.begin r.log.size r.peer.localStart rep := by
    rw [FsLog.begin,tracks.sb,tracks.size]
    exact inbox.1
  have moved : (advance { r.log with logEnd := rep.endBlknr } (updatePeerSyncState r.peer rep.nLogBlks) rep.nLogBlks).localStart =
      stopOf rep.write := advanceArrived arrives rfl
  exact ⟨handledTracks tracks front moved,(handleArrived front moved).trans received,fun some_ => absurd rfl some_,trivial⟩

theorem relayChained {o : Replica × List Message} (h : Chained logSbBlk stop (r::after::rs)) (handled : handleReplicateMsg false r = some o) :
    Chained logSbBlk stop (o.1::o.2.foldl (receive headers) after::rs) := by
  obtain ⟨tracks,received,relays,rest_⟩ := h
  unfold handleReplicateMsg at handled
  split at handled <;> try contradiction
  rename_i rep rest front
  simp only [Bool.false_eq_true,if_false] at handled
  obtain ⟨out,forwarded,rfl⟩ := Option.map_eq_some_iff.mp handled
  have inbox := tracks.inbox
  rw [front] at inbox
  have arrives : Arrives r.log.begin r.log.size r.peer.localStart rep := by
    rw [FsLog.begin,tracks.sb,tracks.size]
    exact inbox.1
  obtain ⟨pointers,nothing⟩ := relays (by simp)
  have amount : (updatePeerSyncState r.peer rep.nLogBlks).nUnsyncBlk = rep.nLogBlks := by
    simp [updatePeerSyncState,nothing]
  obtain ⟨moved,remote,clear,m,sent,addr,length⟩ := @forwardArrived { r.log with logEnd := rep.endBlknr } r.headers
    (updatePeerSyncState r.peer rep.nLogBlks) rep out arrives rfl pointers amount (Nat.succ_pos _) forwarded
  have copied : Arrives (logSbBlk + 1) (logSbBlk + gLogSize) r.peer.localStart { rep with write := m } := by
    obtain ⟨blks,laid,fresh⟩ := inbox.1
    simp only [Arrives,Laid] at laid ⊢
    rw [addr,length]
    exact ⟨blks,laid,fresh⟩
  have place : stopOf m = stopOf rep.write := by rw [stopOf,stopOf,addr,length]
  have next : Chained logSbBlk (stopOf m) (receive headers after { rep with write := m }::rs) := receiveChained rest_ copied
  rw [place,← moved] at next
  refine ⟨handledTracks tracks front moved,(handleArrived front moved).trans received,fun _ => ⟨remote.trans moved.symm,clear⟩,?_⟩
  rw [sent]
  exact next

theorem handleChained {i : Nat} (h : Chained logSbBlk stop rs) (handled : handleAt i rs = some rs') : Chained logSbBlk stop rs' := by
  induction rs generalizing i stop rs' with
  | nil => cases i <;> contradiction
  | cons r rest ih =>
    cases i with
    | zero =>
      cases rest with
      | nil =>
        obtain ⟨o,done,rfl⟩ := Option.map_eq_some_iff.mp handled
        exact lastChained h done
      | cons after rest =>
        obtain ⟨o,done,rfl⟩ := Option.map_eq_some_iff.mp handled
        exact relayChained h done
    | succ i =>
      rw [handleAt] at handled
      obtain ⟨later,done,rfl⟩ := Option.map_eq_some_iff.mp handled
      have kept := ih h.2.2.2 done
      refine ⟨h.1,h.2.1,fun some_ => h.2.2.1 ?_,kept⟩
      rintro rfl
      cases i <;> contradiction

theorem notifiedChained {i startDigest : Nat} {rotated : Bool} (h : Chained logSbBlk stop rs) :
    Chained logSbBlk stop (rs.modify i (notified startDigest rotated)) := by
  induction rs generalizing i stop with
  | nil => simpa using h
  | cons r rest ih =>
    cases i with
    | zero =>
      obtain ⟨tracks,received,relays,later⟩ := h
      refine ⟨⟨tracks.sb,tracks.size,?_,?_,tracks.flushed⟩,?_,?_,?_⟩
      · simpa [notified] using tracks.inbox
      · simpa [notified] using tracks.started
      · simpa [notified,arrived] using received
      · simpa [notified,Relays] using relays
      · simpa [notified] using later
    | succ i =>
      rw [List.modify_succ_cons]
      refine ⟨h.1,h.2.1,fun some_ => h.2.2.1 ?_,ih h.2.2.2⟩
      rintro rfl
      exact some_ (by simp)

theorem chainedTracks (h : Chained logSbBlk stop rs) (mem : r ∈ rs) : Tracks logSbBlk r := by
  induction rs generalizing stop with
  | nil => exact nomatch mem
  | cons x rest ih =>
    rcases List.mem_cons.mp mem with rfl | later
    · exact h.1
    · exact ih h.2.2.2 later

end Handle

section Sender
variable {s t : Rsync.State}

theorem entriesLaid (h : Synced s) (marked : Marked s) :
    Stream (Laid s.log.begin s.log.size) stopOf s.synced.stop (entries s) ∧
      final stopOf s.synced.stop (entries s) = (s.unsynced.getLastD s.synced).stop := by
  have stop := inLapStop h
  have inside := inLapInside h
  have end_ := unsyncedStop h marked
  have long (xs : List Span) (sub : ∀ x ∈ xs, x ∈ s.unsynced) (some_ : blocks xs ≠ 0) : 2 ≤ blocks xs := by
    obtain ⟨x,rest,rfl⟩ := List.exists_cons_of_ne_nil (show xs ≠ [] from fun none_ => some_ (by rw [none_,blocksNil]))
    have first := (h.long x (unsyncedLaid (sub x (.head _)))).1
    rw [blocksCons]
    omega
  have longFirst := long (inLap s) fun x mem => List.mem_of_mem_filter mem
  have longSecond := long (behind s) fun x mem => List.mem_of_mem_filter mem
  have first : Stream (Laid s.log.begin s.log.size) stopOf s.synced.stop (piece s.synced.stop (blocks (inLap s))) ∧
      final stopOf s.synced.stop (piece s.synced.stop (blocks (inLap s))) = s.synced.stop + blocks (inLap s) := by
    unfold piece
    split
    · rename_i none_
      exact ⟨trivial,by rw [none_]; rfl⟩
    · rename_i some_
      exact ⟨⟨⟨longFirst some_,.inl ⟨rfl,by simp only; omega⟩⟩,trivial⟩,rfl⟩
  rw [entries,streamAppend,finalAppend,first.2,end_]
  by_cases none_ : behind s = []
  · rw [none_,blocksNil,if_pos rfl]
    exact ⟨⟨first.1,trivial⟩,rfl⟩
  · rw [if_neg none_]
    obtain ⟨y,ys,cons,_,_,past,ends⟩ := behindStop h marked none_
    obtain ⟨fits,_,_,some_⟩ := behindWithin h marked none_
    have below := (marked.1 _ (lastMemSome (c := s.synced) none_)).2
    have more := longSecond (Nat.ne_of_gt some_)
    rw [h.here,ends] at below
    have whole : y.len ≤ blocks (behind s) := by
      rw [cons,blocksCons]
      omega
    have second : piece s.log.begin (blocks (behind s)) =
        [⟨s.log.begin,blocks (behind s),[⟨s.log.begin,s.log.begin + blocks (behind s) - 1⟩]⟩] := if_neg (Nat.ne_of_gt some_)
    rw [second]
    refine ⟨⟨first.1,⟨more,.inr ⟨rfl,by omega,by simp only; omega,fits.1⟩⟩,trivial⟩,rfl⟩

theorem rsyncCreates {nBlk : Nat} (h : Synced s) (marked : Marked s) (loaded : Loaded s) (taken : Rsync.step s (.rsync nBlk) = some t) :
    created s (.rsync nBlk) = entries s ∧ t.peer.localStart = (s.unsynced.getLastD s.synced).stop ∧ t.log = s.log := by
  obtain ⟨p,y,started,made,rfl⟩ := rsyncExact loaded taken
  obtain ⟨_,some_,_⟩ := startEstablished started
  obtain ⟨z,exact_,_,writes⟩ := createMarked h marked some_
  obtain ⟨rfl,rfl⟩ := Prod.mk.inj (Option.some.inj (exact_.symm.trans made))
  refine ⟨?_,rfl,rfl⟩
  simp only [created,started,made,Option.map_some,Option.getD_some,writes]

theorem otherCreates {a : Rsync.Action} (other : ∀ nBlk, a ≠ .rsync nBlk) (taken : Rsync.step s a = some t) :
    created s a = [] ∧ t.peer.localStart = s.peer.localStart ∧ t.log.logSbBlk = s.log.logSbBlk := by
  cases a with
  | alloc n =>
    obtain ⟨_,rfl⟩ := ifTaken taken
    exact ⟨rfl,rfl,allocSbBlk _ _⟩
  | ret image =>
    obtain ⟨x,_,rfl⟩ := retExact taken
    exact ⟨rfl,rfl,rfl⟩
  | load =>
    cases taken
    exact ⟨rfl,rfl,rfl⟩
  | rsync nBlk => exact absurd rfl (other nBlk)
  | digest =>
    obtain ⟨_,_,rfl⟩ := digestExact taken
    exact ⟨rfl,rfl,(requestTail s.log).sb⟩
  | digested =>
    obtain ⟨d,next,rotated,rfl⟩ := digestedExact taken
    exact ⟨rfl,rfl,(responseTail s.log d next rotated).sb⟩
  | peerDigest =>
    obtain ⟨n,rest,_,_,rfl⟩ := peerDigestExact taken
    exact ⟨rfl,rfl,rfl⟩
  | peerDigested =>
    obtain ⟨d,next,rotated,_,_,rfl⟩ := peerDigestedExact taken
    exact ⟨rfl,updateLocal _ _ _,rfl⟩

end Sender

structure Kept (logSbBlk : Nat) (s : State) : Prop where
  synced : Synced s.libfs
  sb : s.libfs.log.logSbBlk = logSbBlk
  outbox : Stream (Laid (logSbBlk + 1) (logSbBlk + gLogSize)) stopOf s.stop s.outbox
  shipped : final stopOf s.stop s.outbox = s.libfs.peer.localStart
  chained : Chained logSbBlk s.stop s.replicas

section Runs
variable {logSbBlk : Nat} {s t : State}

theorem libfsKept {a : Rsync.Action} (h : Kept logSbBlk s) (proper : Rsync.Proper s.libfs a) (taken : step s (.libfs a) = some t) :
    Kept logSbBlk t := by
  obtain ⟨l,done,rfl⟩ := Option.map_eq_some_iff.mp taken
  have synced := stepSynced h.synced proper done
  by_cases session : ∃ nBlk, a = .rsync nBlk
  · obtain ⟨nBlk,rfl⟩ := session
    obtain ⟨writes,pointer,log⟩ := rsyncCreates h.synced proper.1 proper.2 done
    obtain ⟨laid,ends⟩ := entriesLaid h.synced proper.1
    have place : final stopOf s.stop s.outbox = s.libfs.synced.stop := h.shipped.trans h.synced.here
    have size := h.synced.bounds
    rw [h.sb] at size
    rw [FsLog.begin,h.sb,size,← place] at laid
    refine ⟨synced,(congrArg FsLog.logSbBlk log).trans h.sb,?_,?_,h.chained⟩
    · rw [writes]
      exact streamAppend.mpr ⟨h.outbox,laid⟩
    · rw [writes,finalAppend,place,ends]
      exact pointer.symm
  · obtain ⟨nothing,pointer,log⟩ := otherCreates (fun nBlk same => session ⟨nBlk,same⟩) done
    refine ⟨synced,log.trans h.sb,?_,?_,h.chained⟩
    · rw [nothing,List.append_nil]
      exact h.outbox
    · rw [nothing,List.append_nil]
      exact h.shipped.trans pointer.symm

theorem sendKept (h : Kept logSbBlk s) (proper : Proper s .send) (taken : step s .send = some t) : Kept logSbBlk t := by
  simp only [step] at taken
  split at taken <;> try contradiction
  rename_i m rest r rs waiting replicas
  cases taken
  have outbox := h.outbox
  have shipped := h.shipped
  have chained := h.chained
  rw [waiting] at outbox shipped
  rw [replicas] at chained
  have fresh := proper m (by rw [waiting]; rfl)
  have arrives : Arrives (logSbBlk + 1) (logSbBlk + gLogSize) s.stop ⟨m,m.length,s.libfs.log.logEnd⟩ := ⟨rfl,outbox.1,fresh⟩
  exact ⟨h.synced,h.sb,outbox.2,shipped,receiveChained chained arrives⟩

theorem stepKept {a : Action} (h : Kept logSbBlk s) (proper : Proper s a) (taken : step s a = some t) : Kept logSbBlk t := by
  cases a with
  | libfs a => exact libfsKept h proper taken
  | send => exact sendKept h proper taken
  | handle i =>
    obtain ⟨rs,done,rfl⟩ := Option.map_eq_some_iff.mp taken
    exact ⟨h.synced,h.sb,h.outbox,h.shipped,handleChained h.chained done⟩
  | notify i startDigest rotated =>
    cases taken
    exact ⟨h.synced,h.sb,h.outbox,h.shipped,notifiedChained h.chained⟩

theorem initChained (replicas : List (Nat → Header)) : Chained logSbBlk (logSbBlk + 1) (replicas.map (initReplica logSbBlk)) := by
  induction replicas with
  | nil => trivial
  | cons headers rest ih =>
    exact ⟨⟨rfl,rfl,trivial,rfl,fun i f at_ => by simp [initReplica] at at_⟩,rfl,fun _ => ⟨rfl,rfl⟩,ih⟩

theorem initKept (headers remote : Nat → Header) (replicas : List (Nat → Header)) : Kept logSbBlk (init logSbBlk headers remote replicas) :=
  ⟨initSynced logSbBlk headers remote,rfl,trivial,rfl,initChained replicas⟩

theorem reachKept {headers remote : Nat → Header} {replicas : List (Nat → Header)}
    (reached : Reach step Proper (init logSbBlk headers remote replicas) s) : Kept logSbBlk s :=
  reachInvariant (Kept logSbBlk) (initKept headers remote replicas) (fun _ _ _ => stepKept) reached

/- A flush is exactly the announced range unless the message, not being the first one, starts at the begin of
the log. -/
theorem flushesWhatWasWritten {headers remote : Nat → Header} {replicas : List (Nat → Header)} {r : Replica} {i : Nat} {f : Flush}
    (reached : Reach step Proper (init logSbBlk headers remote replicas) s) (mem : r ∈ s.replicas) (at_ : r.flushes[i]? = some f) :
    f.Exact ↔ (f.write.addr = logSbBlk + 1 → i = 0) :=
  (chainedTracks (reachKept reached).chained mem).flushed i f at_

end Runs

def relayed : List Action := [.send,.handle 0,.handle 1]

def oneLap : List Action :=
  (transactions 30 4098).map .libfs ++ [.libfs .load,.libfs (.rsync 0)] ++ relayed ++
    ([.libfs .digest,.libfs .peerDigest,.libfs .digested,.libfs .peerDigested,.notify 0 122941 false] : List Action) ++
    (transactions 2 4098).map .libfs ++ [.libfs .load,.libfs (.rsync 0)] ++ relayed

theorem flushesWhatWasWrittenSecond : ∃ s, Reach step Proper (init 0 blank blank [blank,blank]) s ∧ ∃ r ∈ s.replicas, ∃ f,
    r.flushes[1]? = some f ∧ f.nLogBlks = 4098 ∧ (f.Exact ↔ (f.write.addr = 0 + 1 → 1 = 0)) := by
  obtain ⟨s,reached,both⟩ : ∃ s, Reach step Proper (init 0 blank blank [blank,blank]) s ∧
      (s.replicas.map fun r => (r.flushes[1]?).map Flush.nLogBlks) = [some 4098,some 4098] :=
    traceReach oneLap (by decide +kernel)
  obtain ⟨r,rest,replicas,first,_⟩ := List.map_eq_cons_iff.mp both
  obtain ⟨f,at_,amount⟩ := Option.map_eq_some_iff.mp first
  have mem : r ∈ s.replicas := replicas ▸ List.mem_cons_self
  exact ⟨s,reached,r,mem,f,at_,amount,flushesWhatWasWritten reached mem at_⟩

theorem lapStartFlushedElsewhere : ∃ s, Reach step Proper (init 0 blank blank [blank,blank]) s ∧ s.replicas.length = 2 ∧
    ∀ r ∈ s.replicas, r.flushes[2]? = some ⟨127039,4098,⟨1,4098,[⟨1,4098⟩]⟩⟩ ∧ ¬Flush.Exact ⟨127039,4098,⟨1,4098,[⟨1,4098⟩]⟩⟩ := by
  obtain ⟨s,reached,two,same⟩ : ∃ s, Reach step Proper (init 0 blank blank [blank,blank]) s ∧
      (s.replicas.length = 2 ∧ ∀ r ∈ s.replicas, r.flushes[2]? = some ⟨127039,4098,⟨1,4098,[⟨1,4098⟩]⟩⟩) :=
    traceReach (oneLap ++ relayed) (by decide +kernel)
  exact ⟨s,reached,two,fun r mem => ⟨same r mem,by decide⟩⟩

end LineFS.ReplicaFlush
