import LineFS.Log
import LineFS.Prefetch

/-! One LibFS and the NIC of its primary: the committing thread, the requests that `request_log_fetch`
issues for it, the memcpy batch of the NIC and the publish acknowledgements that free log space. A
request carries, as a ghost, the transactions it takes. -/
namespace LineFS.Publish
open List (append_assoc append_nil cons_append flatMap_cons headD_cons length_append mem_append_left take_left)
open Base
open Log (DigestResponse Rotates handleDigestResponse responseTo laid Guarded)
open Prefetch (PeerMeta PrefetchArg updatePeerSyncState calculatePrefetchMeta groupStart takeGroup resetPrefetchMeta)

structure Request where
  arg : PrefetchArg
  txs : List Span
  deriving DecidableEq, Repr

structure BatchMeta where
  sgeCount : Nat
  digestStartBlknr : Nat
  nOrigLoghdrs : Nat
  nOrigBlks : Nat
  resetMeta : Bool
  deriving DecidableEq, Repr

def addMemcpyListToBatch (m : BatchMeta) (q : PrefetchArg) : BatchMeta :=
  let sgeCount := m.sgeCount + 1
  if sgeCount = 1 then ⟨sgeCount,q.prefetchStart,q.nPrefetch,q.nPrefetchBlk,q.resetMeta⟩
  else { m with sgeCount, nOrigLoghdrs := m.nOrigLoghdrs + q.nPrefetch, nOrigBlks := m.nOrigBlks + q.nPrefetchBlk,
                resetMeta := if m.resetMeta then m.resetMeta else q.resetMeta }

def batchMeta (b : List Request) : BatchMeta := b.foldl (fun m r => addMemcpyListToBatch m r.arg) ⟨0,0,0,0,false⟩
def BatchFull (b : List Request) : Prop := (batchMeta b).sgeCount = hostMemcpyBatchMax
deriving Decidable

def digestResponse (b : List Request) : DigestResponse :=
  ⟨(batchMeta b).digestStartBlknr,(batchMeta b).nOrigLoghdrs,(batchMeta b).nOrigBlks,(batchMeta b).resetMeta⟩

/- `owed`: `request_log_fetch` has not yet been called for the last transaction. `unreq` lists the committed
transactions that no request has taken. -/
structure State where
  fs : Log.State
  peer : PeerMeta
  owed : Bool
  unreq : List Span
  flight : List Request
  batch : List Request
  sent : List (List Request)
  deriving DecidableEq, Repr

def init (logSbBlk : Nat) : State := ⟨Log.init logSbBlk,⟨logSbBlk + 1,0,0,0⟩,false,[],[],[],[]⟩

inductive Action where
  | alloc (nrBlocks : Nat)
  | ret
  | request
  | arrive
  | ack
  deriving DecidableEq, Repr

def storeUptoEnd (p : PeerMeta) : PeerMeta := { p with nUnsyncUptoEnd := p.nUnsync }

def requestLogFetch (s : State) : Option State :=
  if logPrefetchThreshold < s.peer.nUnsyncBlk then
    (calculatePrefetchMeta s.fs.log.begin s.fs.log.logEnd s.peer false).map fun r =>
      { s with peer := r.1, owed := false, unreq := s.unreq.drop r.2.nPrefetch
               flight := s.flight ++ [⟨r.2,s.unreq.take r.2.nPrefetch⟩] }
  else some { s with owed := false }

def handled (fs : Log.State) (b : List Request) : Log.State :=
  let k := (b.flatMap Request.txs).length
  { fs with log := handleDigestResponse fs.log (digestResponse b)
            live := fs.live.drop k, cursor := (fs.live.take k).getLastD fs.cursor }

def step (s : State) : Action → Option State
  | .alloc n =>
    if s.owed then none
    else (Log.step s.fs (.alloc n)).map fun fs =>
      { s with fs, peer := if Rotates s.fs.log n then storeUptoEnd s.peer else s.peer }
  | .ret =>
    s.fs.pending.bind fun x => (Log.step s.fs .ret).map fun fs =>
      { s with fs, peer := updatePeerSyncState s.peer x.len, unreq := s.unreq ++ [x], owed := true }
  | .request => if s.owed then requestLogFetch s else none
  | .arrive =>
    match s.flight with
    | [] => none
    | r::rest =>
      if BatchFull (s.batch ++ [r]) then
        some { s with flight := rest, batch := [], sent := s.sent ++ [s.batch ++ [r]] }
      else some { s with flight := rest, batch := s.batch ++ [r] }
  | .ack =>
    match s.sent with
    | [] => none
    | b::rest => some { s with fs := handled s.fs b, sent := rest }

def Paced (s : State) : Action → Prop
  | .alloc n => Log.Paced s.fs (.alloc n)
  | _ => True
instance (s a) : Decidable (Paced s a) := by cases a <;> unfold Paced <;> infer_instance

theorem batchFold {rs : List Request} {m : BatchMeta} (started : 0 < m.sgeCount) :
    rs.foldl (fun m r => addMemcpyListToBatch m r.arg) m =
    ⟨m.sgeCount + rs.length,m.digestStartBlknr,m.nOrigLoghdrs + (rs.map fun r => r.arg.nPrefetch).sum,
      m.nOrigBlks + (rs.map fun r => r.arg.nPrefetchBlk).sum,m.resetMeta || rs.any fun r => r.arg.resetMeta⟩ := by
  induction rs generalizing m with
  | nil => simp
  | cons r rs ih =>
    have later : m.sgeCount + 1 ≠ 1 := by omega
    have added : addMemcpyListToBatch m r.arg = ⟨m.sgeCount + 1,m.digestStartBlknr,m.nOrigLoghdrs + r.arg.nPrefetch,
        m.nOrigBlks + r.arg.nPrefetchBlk,m.resetMeta || r.arg.resetMeta⟩ := by
      simp only [addMemcpyListToBatch,later,if_false]
      cases m.resetMeta <;> rfl
    rw [List.foldl_cons,added,ih (Nat.succ_pos _)]
    simp only [List.length_cons,List.map_cons,List.sum_cons,List.any_cons,Bool.or_assoc,Nat.add_assoc,Nat.add_comm 1]

theorem batchMetaCons (r rs) : batchMeta (r::rs) =
    ⟨rs.length + 1,r.arg.prefetchStart,((r::rs).map fun r => r.arg.nPrefetch).sum,
      ((r::rs).map fun r => r.arg.nPrefetchBlk).sum,(r::rs).any fun r => r.arg.resetMeta⟩ := by
  rw [batchMeta,List.foldl_cons,batchFold (by simp [addMemcpyListToBatch])]
  simp [addMemcpyListToBatch,Nat.add_comm]

theorem batchMetaCount (b) : (batchMeta b).sgeCount = b.length := by
  cases b with
  | nil => rfl
  | cons r rs => rw [batchMetaCons]; rfl

structure Group (c : Span) (r : Request) : Prop where
  taken : r.txs ≠ []
  oneLap : ∀ x ∈ r.txs, x.lap = (r.txs.getLastD c).lap
  start : r.arg.prefetchStart = (r.txs.headD c).start
  blks : r.arg.nPrefetchBlk = blocks r.txs
  count : r.arg.nPrefetch = r.txs.length
  reset : r.arg.resetMeta = true ↔ (r.txs.getLastD c).lap ≠ c.lap

theorem groupStop {lo hi c r} (group : Group c r) (chain : (c::r.txs).IsChain (Follows lo hi)) :
    r.arg.prefetchStart + r.arg.nPrefetchBlk = (r.txs.getLastD c).stop := by
  obtain ⟨x,xs,cons⟩ := List.exists_cons_of_ne_nil group.taken
  have lap := group.oneLap x (by simp [cons])
  rw [group.start,group.blks]
  rw [cons] at chain lap ⊢
  rw [List.getLastD_cons] at lap ⊢
  rw [laidOneLap (List.isChain_cons_cons.mp chain).2 lap.symm,blocksCons,headD_cons,Span.stop,Nat.add_assoc]

def Fits : Span → List Request → Prop
  | _,[] => True
  | c,r::rs => Group c r ∧ Fits (r.txs.getLastD c) rs

theorem fitsAppend {c rs qs} : Fits c (rs ++ qs) ↔ Fits c rs ∧ Fits ((rs.flatMap Request.txs).getLastD c) qs := by
  induction rs generalizing c with
  | nil => simp [Fits]
  | cons r rs ih => simp only [cons_append,Fits,ih,flatMap_cons,lastAppend,and_assoc]

theorem fitsCount {c rs} (h : Fits c rs) :
    (rs.map fun r => r.arg.nPrefetch).sum = (rs.flatMap Request.txs).length := by
  induction rs generalizing c with
  | nil => rfl
  | cons r rs ih => simp [h.1.count,ih h.2]

theorem fitsBlocks {c rs} (h : Fits c rs) :
    (rs.map fun r => r.arg.nPrefetchBlk).sum = blocks (rs.flatMap Request.txs) := by
  induction rs generalizing c with
  | nil => rfl
  | cons r rs ih => simp [h.1.blks,ih h.2]

theorem fitsReset {lo hi c rs} (h : Fits c rs) (chain : (c::rs.flatMap Request.txs).IsChain (Follows lo hi)) :
    rs.any (fun r => r.arg.resetMeta) = (rs.flatMap Request.txs).any fun x => x.lap ≠ c.lap := by
  induction rs generalizing c with
  | nil => rfl
  | cons r rs ih =>
    obtain ⟨group,rest⟩ := h
    rw [flatMap_cons] at chain ⊢
    rw [List.any_cons,List.any_append,ih rest (laidRest chain)]
    by_cases same : (r.txs.getLastD c).lap = c.lap
    · have calm : r.arg.resetMeta = false := by
        rw [Bool.eq_false_iff]
        exact fun asked => group.reset.mp asked same
      have quiet : r.txs.any (fun x => x.lap ≠ c.lap) = false := by
        rw [List.any_eq_false]
        intro x mem
        simpa using (group.oneLap x mem).trans same
      rw [calm,quiet,same]
    · have asked := group.reset.mpr same
      obtain ⟨x,mem⟩ := List.exists_mem_of_ne_nil _ group.taken
      have leaves : r.txs.any (fun x => x.lap ≠ c.lap) = true :=
        List.any_eq_true.mpr ⟨x,mem,decide_eq_true (group.oneLap x mem ▸ same)⟩
      rw [asked,leaves,Bool.true_or,Bool.true_or]

theorem digestResponseExact {s : Log.State} {b rest} (h : Log.Laid s) (some : b ≠ []) (fits : Fits s.cursor b)
    (front : s.live = b.flatMap Request.txs ++ rest) :
    digestResponse b = responseTo s (b.flatMap Request.txs).length := by
  have covered : s.live.take (b.flatMap Request.txs).length = b.flatMap Request.txs := by
    rw [front,take_left]
  have chain := Log.coveredChain h (k := (b.flatMap Request.txs).length)
  rw [covered] at chain
  have reset := fitsReset fits chain
  have count := fitsCount fits
  have blks := fitsBlocks fits
  match b with
  | r::rs =>
    obtain ⟨x,xs,taken⟩ := List.exists_cons_of_ne_nil fits.1.taken
    simp only [responseTo,covered,digestResponse,batchMetaCons,count,blks,reset,fits.1.start]
    simp only [flatMap_cons,taken,cons_append,headD_cons]

def unacked (s : State) : List Request := s.sent.flatten ++ s.batch ++ s.flight
def taken (s : State) : List Span := (unacked s).flatMap Request.txs
def lastTaken (s : State) : Span := (taken s).getLastD s.fs.cursor

structure Level (s : State) : Prop where
  lap : (lastTaken s).lap = s.fs.log.availVersion
  upto : s.peer.nUnsyncUptoEnd = 0

structure Rotated (s : State) (pre post : List Span) : Prop where
  split : s.unreq = pre ++ post
  lap : (lastTaken s).lap + 1 = s.fs.log.availVersion
  older : ∀ x ∈ pre, x.lap = (lastTaken s).lap
  newer : ∀ x ∈ post, x.lap = s.fs.log.availVersion
  endBlk : s.fs.log.logEnd + 1 = (pre.getLastD (lastTaken s)).stop
  isSet : s.fs.log.logEnd ≠ 0
  upto : pre ≠ [] → s.peer.nUnsyncUptoEnd = pre.length

structure Synced (s : State) : Prop where
  guard : Guarded s.fs
  line : s.fs.live = taken s ++ s.unreq
  fits : Fits s.fs.cursor (unacked s)
  filled : ∀ b ∈ s.sent, b ≠ []
  nUnsync : s.peer.nUnsync = s.unreq.length
  nUnsyncBlk : s.peer.nUnsyncBlk = blocks s.unreq
  localStart : s.peer.localStart = (lastTaken s).stop
  lens : ∀ x ∈ s.unreq ++ s.fs.pending.toList, 0 < x.len
  held : s.owed = true → s.fs.pending = none ∧ s.unreq ≠ []
  cleared : s.fs.log.startVersion = s.fs.log.availVersion → s.fs.log.logEnd = 0
  ended : s.fs.log.startVersion < s.fs.log.availVersion →
    ∀ x ∈ s.fs.cursor::s.fs.live, x.lap + 1 = s.fs.log.availVersion → x.stop ≤ s.fs.log.logEnd + 1
  place : Level s ∨ ∃ pre post, Rotated s pre post

theorem initSynced (logSbBlk : Nat) : Synced (init logSbBlk) := by
  refine ⟨Log.initGuarded logSbBlk,rfl,trivial,?_,rfl,rfl,rfl,?_,?_,fun _ => rfl,?_,.inl ⟨rfl,rfl⟩⟩
  all_goals simp [init,Log.init,Log.initLog]

theorem unreqChain {s} (h : Synced s) :
    (lastTaken s::(s.unreq ++ s.fs.pending.toList)).IsChain (Follows s.fs.log.begin s.fs.log.size) := by
  have chain := h.guard.chain
  rw [laid,h.line,append_assoc] at chain
  exact laidRest chain

theorem unreqLive {s x} (h : Synced s) (mem : x ∈ s.unreq) : x ∈ s.fs.live := by
  rw [h.line]; exact List.mem_append_right _ mem

theorem frontBatch {s b rest} (h : Synced s) (sent : s.sent = b::rest) :
    Fits s.fs.cursor b ∧ Fits ((b.flatMap Request.txs).getLastD s.fs.cursor) (unacked { s with sent := rest }) ∧
    taken s = b.flatMap Request.txs ++ taken { s with sent := rest } ∧
    s.fs.live = b.flatMap Request.txs ++ (taken { s with sent := rest } ++ s.unreq) := by
  have split : unacked s = b ++ unacked { s with sent := rest } := by simp [unacked,sent]
  have front : taken s = b.flatMap Request.txs ++ taken { s with sent := rest } := by
    rw [taken,split,List.flatMap_append]; rfl
  have fits := h.fits
  rw [split,fitsAppend] at fits
  exact ⟨fits.1,fits.2,front,by rw [h.line,front,append_assoc]⟩

theorem ackRefines {s b rest} (h : Synced s) (sent : s.sent = b::rest) :
    Log.step s.fs (.ack (b.flatMap Request.txs).length) = some (handled s.fs b) := by
  have some : b ≠ [] := h.filled b (by simp [sent])
  obtain ⟨fits,_,_,front⟩ := frontBatch h sent
  have response := digestResponseExact h.guard.toTail some fits front
  have bounds : 0 < (b.flatMap Request.txs).length ∧ (b.flatMap Request.txs).length ≤ s.fs.live.length := by
    refine ⟨?_,by rw [front,length_append]; exact Nat.le_add_right _ _⟩
    match b with
    | r::rs =>
      rw [flatMap_cons,length_append]
      exact Nat.add_pos_left (List.length_pos_iff.mpr fits.1.taken) _
  simp only [Log.step,if_pos bounds,handled,response]

theorem movedSynced {s flight batch sent} (h : Synced s) (same : sent.flatten ++ batch ++ flight = unacked s)
    (filled : ∀ b ∈ sent, b ≠ []) : Synced { s with flight, batch, sent } := by
  have takenSame : taken { s with flight, batch, sent } = taken s := congrArg (List.flatMap Request.txs) same
  have lastSame : lastTaken { s with flight, batch, sent } = lastTaken s := by rw [lastTaken,takenSame]; rfl
  refine ⟨h.guard,takenSame ▸ h.line,?_,filled,h.nUnsync,h.nUnsyncBlk,?_,h.lens,h.held,h.cleared,h.ended,?_⟩
  · exact (congrArg (Fits s.fs.cursor) same).mpr h.fits
  · rw [lastSame]; exact h.localStart
  · rcases h.place with ⟨lap,upto⟩ | ⟨pre,post,r⟩
    · exact .inl ⟨lastSame.symm ▸ lap,upto⟩
    · exact .inr ⟨pre,post,r.split,lastSame.symm ▸ r.lap,lastSame.symm ▸ r.older,r.newer,lastSame.symm ▸ r.endBlk,
        r.isSet,r.upto⟩

theorem arriveExact {s t} (taken : step s .arrive = some t) :
    ∃ flight batch sent, t = { s with flight, batch, sent } ∧ sent.flatten ++ batch ++ flight = unacked s ∧
    (∀ b ∈ sent, b ∈ s.sent ∨ b ≠ []) ∧ (s.batch.length < hostMemcpyBatchMax → batch.length < hostMemcpyBatchMax) := by
  simp only [step] at taken
  split at taken <;> try contradiction
  rename_i r rest flight
  split at taken
  · refine ⟨rest,[],s.sent ++ [s.batch ++ [r]],(Option.some.inj taken).symm,by simp [unacked,flight],?_,fun _ => by decide⟩
    intro b mem
    rcases memSnoc mem with old | rfl
    · exact .inl old
    · exact .inr (by simp)
  · rename_i more
    refine ⟨rest,s.batch ++ [r],s.sent,(Option.some.inj taken).symm,by simp [unacked,flight],fun b mem => .inl mem,?_⟩
    simp only [BatchFull,batchMetaCount,length_append,List.length_singleton] at more ⊢
    omega

theorem arriveSynced {s t} (h : Synced s) (taken : step s .arrive = some t) : Synced t := by
  obtain ⟨flight,batch,sent,rfl,same,some,_⟩ := arriveExact taken
  refine movedSynced h same (fun b mem => ?_)
  rcases some b mem with old | new
  · exact h.filled b old
  · exact new

theorem retSynced {s t} (h : Synced s) (taken : step s .ret = some t) : Synced t := by
  simp only [step,Option.bind_eq_some_iff,Option.map_eq_some_iff] at taken
  obtain ⟨x,pending,fs,returned,rfl⟩ := taken
  have guard := Log.stepGuarded (a := .ret) h.guard trivial returned
  obtain ⟨y,pendingAgain,_,rfl⟩ := Log.retExact returned
  cases pending.symm.trans pendingAgain
  have lap : x.lap = s.fs.log.availVersion := by
    have version := h.guard.version
    rwa [laid,pending,Option.toList_some,List.getLastD_concat] at version
  have lens := h.lens
  rw [pending,Option.toList_some] at lens
  refine ⟨guard,?_,h.fits,h.filled,?_,?_,h.localStart,?_,?_,h.cleared,?_,?_⟩
  · simp only [h.line,append_assoc]; rfl
  · simp [updatePeerSyncState,h.nUnsync]
  · simp [updatePeerSyncState,h.nUnsyncBlk]
  · simpa using lens
  · exact fun _ => ⟨rfl,by simp⟩
  · intro behind y mem old
    rw [← cons_append] at mem
    rcases memSnoc mem with before | rfl
    · exact h.ended behind y before old
    · simp only [Log.commit] at old
      omega
  · rcases h.place with level | ⟨pre,post,r⟩
    · exact .inl ⟨level.lap,level.upto⟩
    · refine .inr ⟨pre,post ++ [x],by simp [r.split],r.lap,r.older,?_,r.endBlk,r.isSet,r.upto⟩
      intro y mem
      rcases memSnoc mem with old | rfl
      · exact r.newer y old
      · exact lap

theorem evenLevel {s} (h : Synced s) (even : s.fs.log.availVersion = s.fs.log.startVersion) : Level s := by
  rcases h.place with level | ⟨pre,post,r⟩
  · exact level
  · have chain := h.guard.chain
    rw [laid,h.line,append_assoc,← cons_append] at chain
    have later : s.fs.cursor.lap ≤ (lastTaken s).lap := laidLapLe chain.left_of_append (.head _)
    have head := h.guard.headVersion
    have lap := r.lap
    omega

theorem rotateRotated {s n} (h : Synced s) (paced : Log.Paced s.fs (.alloc n)) (idle : s.fs.pending = none)
    (small : n ≤ maxTransaction) (rotates : Rotates s.fs.log n) :
    Rotated { s with fs := { s.fs with log := (Log.logAlloc s.fs.log n).1
                                       pending := some ⟨(Log.logAlloc s.fs.log n).2,n,(Log.logAlloc s.fs.log n).1.availVersion⟩ }
                     peer := storeUptoEnd s.peer } s.unreq [] := by
  have even := (paced rotates).1
  have chain := unreqChain h
  have version := h.guard.version
  have tail := h.guard.tail
  have bounds := h.guard.bounds
  rw [laid,idle,Option.toList_none,append_nil,h.line,lastAppend] at version tail
  rw [idle,Option.toList_none,append_nil] at chain
  have level := (evenLevel h even).lap
  have stop : (s.unreq.getLastD (lastTaken s)).stop = s.fs.log.nextAvailHeader := tail
  have far : 1 < s.fs.log.nextAvailHeader := by
    have behind : s.fs.log.size < s.fs.log.nextAvailHeader + n := rotates
    simp only [maxTransaction,gLogSize] at small bounds
    omega
  refine ⟨(append_nil _).symm,?_,?_,?_,?_,?_,fun _ => h.nUnsync⟩
  · simp only [Log.allocAvail,if_pos rotates]; exact congrArg (· + 1) level
  · intro x mem
    have above := laidFirst chain mem
    have below := laidLapLe chain (.tail _ mem)
    have latest : (s.unreq.getLastD (lastTaken s)).lap = s.fs.log.availVersion := version
    simp only [Before] at above
    show x.lap = (lastTaken s).lap
    omega
  · intro x mem; cases mem
  · simp only [Log.allocEnd,if_pos rotates]
    exact (Nat.sub_add_cancel (Nat.le_of_lt far)).trans stop.symm
  · simp only [Log.allocEnd,if_pos rotates]
    omega

theorem restartSynced {s} (h : Synced s) (startBlk startDigest nDigest nDigestBlks : Nat)
    (head : s.fs.log.startVersion < s.fs.log.availVersion → startBlk = s.fs.cursor.stop) :
    Synced { s with fs := { s.fs with log := { s.fs.log with startBlk, startDigest, nDigest, nDigestBlks } } } := by
  obtain ⟨⟨⟨chain,tail,version,inside,bounds⟩,_,headVersion,lead,room⟩,line,fits,filled,nUnsync,nUnsyncBlk,localStart,lens,held,
    cleared,ended,place⟩ := h
  refine ⟨⟨⟨chain,tail,version,inside,bounds⟩,head,headVersion,lead,room⟩,line,fits,filled,nUnsync,nUnsyncBlk,localStart,
    lens,held,cleared,ended,?_⟩
  rcases place with level | ⟨pre,post,r⟩
  · exact .inl { level with }
  · exact .inr ⟨pre,post,{ r with }⟩

theorem allocSynced {s n t} (h : Synced s) (paced : Log.Paced s.fs (.alloc n)) (taken : step s (.alloc n) = some t) :
    Synced t := by
  obtain ⟨free,taken⟩ := Option.ite_none_left_eq_some.mp taken
  obtain ⟨fs,allocated,rfl⟩ := Option.map_eq_some_iff.mp taken
  have guard := Log.stepGuarded h.guard paced allocated
  obtain ⟨⟨idle,positive,small⟩,rfl⟩ := ifTaken allocated
  have lens : ∀ x ∈ s.unreq ++ [⟨(Log.logAlloc s.fs.log n).2,n,(Log.logAlloc s.fs.log n).1.availVersion⟩], 0 < x.len := by
    have lens := h.lens
    rw [idle,Option.toList_none,append_nil] at lens
    intro x mem
    rcases memSnoc mem with old | rfl
    · exact lens x old
    · exact positive
  have ahead := Log.startLe h.guard
  by_cases rotates : Rotates s.fs.log n
  · simp only [if_pos rotates]
    refine ⟨guard,h.line,h.fits,h.filled,h.nUnsync,h.nUnsyncBlk,h.localStart,lens,?_,?_,?_,
      .inr ⟨s.unreq,[],rotateRotated h paced idle small rotates⟩⟩
    · exact fun owed => absurd owed free
    · simp only [Log.allocStartVersion,Log.allocAvail,if_pos rotates]
      omega
    · simp only [Log.allocAvail,Log.allocEnd,if_pos rotates]
      intro _ x mem lap
      have tail := h.guard.tail
      have version := h.guard.version
      have chain := h.guard.chain
      rw [laid,idle,Option.toList_none,append_nil] at tail version chain
      have stop := laidStopLe chain mem (by omega)
      omega
  · simp only [if_neg rotates]
    have avail : (Log.logAlloc s.fs.log n).1.availVersion = s.fs.log.availVersion := by
      rw [Log.allocAvail,if_neg rotates]
    have endSame : (Log.logAlloc s.fs.log n).1.logEnd = s.fs.log.logEnd := by rw [Log.allocEnd,if_neg rotates]
    refine ⟨guard,h.line,h.fits,h.filled,h.nUnsync,h.nUnsyncBlk,h.localStart,lens,?_,?_,?_,?_⟩
    · exact fun owed => absurd owed free
    · simpa only [Log.allocStartVersion,avail,endSame] using h.cleared
    · simpa only [Log.allocStartVersion,avail,endSame] using h.ended
    · rcases h.place with level | ⟨pre,post,r⟩
      · exact .inl ⟨level.lap.trans avail.symm,level.upto⟩
      · exact .inr ⟨pre,post,r.split,r.lap.trans avail.symm,r.older,fun x mem => (r.newer x mem).trans avail.symm,
          (congrArg (· + 1) endSame).trans r.endBlk,fun zero => r.isSet (endSame.symm.trans zero),r.upto⟩

structure Acked (s : State) (b : List Request) (t : State) : Prop where
  front : unacked s = b ++ unacked t
  live : s.fs.live = b.flatMap Request.txs ++ t.fs.live
  cursor : t.fs.cursor = (b.flatMap Request.txs).getLastD s.fs.cursor
  last : lastTaken t = lastTaken s
  avail : t.fs.log.availVersion = s.fs.log.availVersion

theorem ackAcked {s t} (h : Synced s) (acked : step s .ack = some t) :
    ∃ b rest, s.sent = b::rest ∧ t = { s with fs := handled s.fs b, sent := rest } ∧ Acked s b t := by
  simp only [step] at acked
  split at acked <;> try contradiction
  rename_i b rest sent
  cases acked
  obtain ⟨_,_,front,live⟩ := frontBatch h sent
  have cursor : (handled s.fs b).cursor = (b.flatMap Request.txs).getLastD s.fs.cursor := by
    simp only [handled]; rw [live,take_left]
  refine ⟨b,rest,sent,rfl,by simp [unacked,sent],?_,cursor,?_,Log.responseAvail _ _⟩
  · simp only [handled]; exact (List.take_append_drop _ s.fs.live).symm.trans (by rw [live,take_left])
  · rw [lastTaken,lastTaken,front,lastAppend,← cursor]; rfl

theorem ackSynced {s t} (h : Synced s) (acked : step s .ack = some t) : Synced t := by
  obtain ⟨b,rest,sent,rfl,_,live,cursor,last,avail⟩ := ackAcked h acked
  have guard := Log.stepGuarded (a := .ack _) h.guard trivial (ackRefines h sent)
  obtain ⟨_,fits,front,lined⟩ := frontBatch h sent
  have fewer : ∀ x ∈ (handled s.fs b).cursor::(handled s.fs b).live, x ∈ s.fs.cursor::s.fs.live := by
    intro x mem
    rw [live,← cons_append]
    rcases List.mem_cons.mp mem with rfl | behind
    · exact mem_append_left _ (cursor ▸ lastMem)
    · exact List.mem_append_right _ behind
  have versions : (handled s.fs b).log.startVersion < s.fs.log.availVersion →
      s.fs.log.startVersion < s.fs.log.availVersion ∧ (handled s.fs b).log.logEnd = s.fs.log.logEnd := by
    simp only [handled,Log.responseVersion,Log.responseEnd]
    split
    · intro behind
      exact ⟨by omega,if_neg (by omega)⟩
    · exact fun behind => ⟨behind,if_neg (fun both => absurd both.1 ‹_›)⟩
  refine ⟨guard,List.append_cancel_left (live.symm.trans lined),?_,?_,h.nUnsync,h.nUnsyncBlk,last ▸ h.localStart,h.lens,
    h.held,?_,?_,?_⟩
  · rw [cursor]; exact fits
  · exact fun b mem => h.filled b (sent ▸ .tail _ mem)
  · have cleared := h.cleared
    simp only [handled,Log.responseVersion,Log.responseEnd,Log.responseAvail]
    split
    · intro even
      exact if_pos ⟨by assumption,even⟩
    · exact fun even => (if_neg (fun both => absurd both.1 ‹_›)).trans (cleared even)
  · intro behind x mem lap
    obtain ⟨before,same⟩ := versions (behind.trans_eq avail)
    exact same ▸ h.ended before x (fewer x mem) (lap.trans avail)
  · rcases h.place with level | ⟨pre,post,r⟩
    · exact .inl ⟨last.symm ▸ level.lap.trans avail.symm,level.upto⟩
    · have behind : (handled s.fs b).log.startVersion < s.fs.log.availVersion := by
        have mem : (handled s.fs b).cursor ∈ s.fs.cursor::taken s := by
          rw [front,← cons_append]
          exact mem_append_left _ (cursor ▸ lastMem)
        have chain := h.guard.chain
        rw [laid,h.line,append_assoc,← cons_append] at chain
        have below := laidLapLe chain.left_of_append mem
        have lap : (lastTaken s).lap + 1 = s.fs.log.availVersion := r.lap
        rw [guard.headVersion]
        exact lap ▸ Nat.lt_succ_of_le below
      have same := (versions behind).2
      exact .inr ⟨pre,post,r.split,last.symm ▸ r.lap.trans avail.symm,last.symm ▸ r.older,
        fun x mem => (r.newer x mem).trans avail.symm,(congrArg (· + 1) same).trans (last.symm ▸ r.endBlk),
        fun zero => r.isSet (same.symm.trans zero),r.upto⟩

section Request
variable {s : State} {pre post g rest : List Span} {arg : PrefetchArg} {peer : PeerMeta} {fsync : Bool}

def took (s : State) (peer : PeerMeta) (arg : PrefetchArg) (g rest : List Span) : State :=
  { s with peer, owed := false, unreq := rest, flight := s.flight ++ [⟨arg,g⟩] }

theorem tookUnacked : unacked (took s peer arg g rest) = unacked s ++ [⟨arg,g⟩] := by simp [unacked,took]

theorem tookTaken : taken (took s peer arg g rest) = taken s ++ g := by
  rw [taken,tookUnacked,List.flatMap_append,List.flatMap_singleton]; rfl

theorem tookLast : lastTaken (took s peer arg g rest) = g.getLastD (lastTaken s) := by
  rw [lastTaken,tookTaken,lastAppend]; rfl

section
variable (h : Synced s)
include h

theorem tookSynced (split : s.unreq = g ++ rest) (group : Group (lastTaken s) ⟨arg,g⟩)
    (count : peer.nUnsync = rest.length) (blks : peer.nUnsyncBlk = blocks rest)
    (start : peer.localStart = (g.getLastD (lastTaken s)).stop)
    (place : Level (took s peer arg g rest) ∨ ∃ pre post, Rotated (took s peer arg g rest) pre post) :
    Synced (took s peer arg g rest) := by
  refine ⟨h.guard,?_,?_,h.filled,count,blks,?_,?_,?_,h.cleared,h.ended,place⟩
  · rw [tookTaken,append_assoc]
    exact h.line.trans (congrArg _ split)
  · rw [tookUnacked,fitsAppend]
    exact ⟨h.fits,group,trivial⟩
  · rw [tookLast]; exact start
  · intro x mem
    refine h.lens x ?_
    rw [split,append_assoc]
    exact List.mem_append_right _ mem
  · exact fun owed => absurd owed Bool.false_ne_true

theorem levelLaps (level : Level s) {x : Span} (mem : x ∈ s.unreq) : x.lap = s.fs.log.availVersion := by
  have chain := unreqChain h
  have above := laidFirst chain (mem_append_left _ mem)
  have below := (Log.lapsFrom h.guard (mem_append_left _ (unreqLive h mem))).2.1
  have lap := level.lap
  simp only [Before] at above
  omega

theorem calculateLevel (level : Level s) (some : s.unreq ≠ []) :
    calculatePrefetchMeta s.fs.log.begin s.fs.log.logEnd s.peer fsync =
    Option.some (takeGroup s.peer false fsync s.peer.nUnsyncBlk s.peer.nUnsync) := by
  have calm : ¬(s.fs.log.logEnd ≠ 0 ∧ s.fs.log.logEnd < s.peer.localStart) := by
    rintro ⟨isSet,beyond⟩
    obtain ⟨x,mem⟩ := List.exists_mem_of_ne_nil _ some
    have lap := levelLaps h level mem
    have ahead := Log.startLe h.guard
    have lead := h.guard.lead
    have head := h.guard.headVersion
    have behind : s.fs.log.startVersion < s.fs.log.availVersion :=
      Nat.lt_of_le_of_ne ahead (fun even => isSet (h.cleared even))
    have room := h.guard.room x (unreqLive h mem) (by omega)
    have last := h.ended behind s.fs.cursor (by simp) (by omega)
    have first := laidFirst (unreqChain h) (mem_append_left _ mem)
    have len := h.lens x (mem_append_left _ mem)
    have start := h.localStart
    have level := level.lap
    simp only [Before,Span.stop] at *
    omega
  simp only [calculatePrefetchMeta,groupStart,if_neg calm,level.upto,ne_eq,not_true_eq_false,if_false]

theorem calculateOlder {r} (rotated : Rotated s pre post) (some : pre ≠ [])
    (calculated : calculatePrefetchMeta s.fs.log.begin s.fs.log.logEnd s.peer fsync = Option.some r) :
    r = takeGroup s.peer false fsync (blocks pre) pre.length := by
  have chain := unreqChain h
  rw [rotated.split,append_assoc,← cons_append] at chain
  have last : (pre.getLastD (lastTaken s)).lap = (lastTaken s).lap := by
    have among : pre.getLastD (lastTaken s) ∈ lastTaken s::pre := lastMem
    rcases List.mem_cons.mp among with same | mem
    · rw [same]
    · exact rotated.older _ mem
  have stop := laidOneLap chain.left_of_append last
  have endBlk := rotated.endBlk
  have start := h.localStart
  obtain ⟨x,xs,cons⟩ := List.exists_cons_of_ne_nil some
  have len : 0 < x.len := h.lens x (by simp [rotated.split,cons])
  have positive : x.len ≤ blocks pre := by simp [cons]
  have calm : ¬(s.fs.log.logEnd ≠ 0 ∧ s.fs.log.logEnd < s.peer.localStart) := by omega
  have count : pre.length ≠ 0 := by simpa using some
  simp only [calculatePrefetchMeta,groupStart,if_neg calm,rotated.upto some,ne_eq,count,not_false_eq_true,if_true] at calculated
  split at calculated <;> try contradiction
  rw [← Option.some.inj calculated]
  congr 1
  omega

theorem calculateNewer (rotated : Rotated s [] post) :
    calculatePrefetchMeta s.fs.log.begin s.fs.log.logEnd s.peer fsync =
    some (takeGroup (resetPrefetchMeta s.fs.log.begin s.peer) true fsync s.peer.nUnsyncBlk s.peer.nUnsync) := by
  have endBlk : s.fs.log.logEnd + 1 = (lastTaken s).stop := rotated.endBlk
  have start := h.localStart
  have beyond : s.fs.log.logEnd ≠ 0 ∧ s.fs.log.logEnd < s.peer.localStart := ⟨rotated.isSet,by omega⟩
  simp [calculatePrefetchMeta,groupStart,if_pos beyond,resetPrefetchMeta]

theorem levelGroup (split : s.unreq = g ++ rest) (some : g ≠ []) (oneLap : ∀ x ∈ g, x.lap = (lastTaken s).lap) :
    Group (lastTaken s) ⟨⟨s.peer.localStart,blocks g,g.length,false,fsync⟩,g⟩ ∧
    s.peer.localStart + blocks g = (g.getLastD (lastTaken s)).stop := by
  have chain := unreqChain h
  rw [split,append_assoc,← cons_append] at chain
  obtain ⟨x,xs,cons⟩ := List.exists_cons_of_ne_nil some
  have stays : (g.getLastD (lastTaken s)).lap = (lastTaken s).lap := oneLap _ (lastMemSome some)
  refine ⟨⟨some,fun y here => (oneLap y here).trans stays.symm,?_,rfl,rfl,?_⟩,?_⟩
  · have first : Follows s.fs.log.begin s.fs.log.size (lastTaken s) x := by
      have chain := chain.left_of_append
      rw [cons] at chain
      exact (List.isChain_cons_cons.mp chain).1
    have lap := oneLap x (by simp [cons])
    rcases first with ⟨_,start⟩ | ⟨next,_⟩
    · simp only [cons,headD_cons]; exact h.localStart.trans start.symm
    · omega
  · simp only [ne_eq,stays,not_true_eq_false]; exact ⟨fun no => absurd no Bool.false_ne_true,False.elim⟩
  · rw [h.localStart,laidOneLap chain.left_of_append stays]

theorem newerGroup (rotated : Rotated s [] post) (some : post ≠ []) :
    Group (lastTaken s) ⟨⟨s.fs.log.begin,blocks post,post.length,true,fsync⟩,post⟩ ∧
    s.fs.log.begin + blocks post = (post.getLastD (lastTaken s)).stop := by
  have chain := unreqChain h
  rw [rotated.split,List.nil_append,← cons_append] at chain
  replace chain := chain.left_of_append
  have lap := rotated.lap
  obtain ⟨x,xs,cons⟩ := List.exists_cons_of_ne_nil some
  have last : (post.getLastD (lastTaken s)).lap = s.fs.log.availVersion := rotated.newer _ (lastMemSome some)
  have head := rotated.newer x (by simp [cons])
  rw [cons] at chain
  obtain ⟨first,behind⟩ := List.isChain_cons_cons.mp chain
  have start : x.start = s.fs.log.begin := by
    rcases first with ⟨same,_⟩ | ⟨_,start,_⟩
    · omega
    · exact start
  refine ⟨⟨some,fun y here => (rotated.newer y here).trans last.symm,?_,rfl,rfl,?_⟩,?_⟩
  · simp only [cons,headD_cons,start]
  · simp only [true_iff,last]; omega
  · rw [cons,List.getLastD_cons] at last ⊢
    rw [laidOneLap behind (last.trans head.symm),blocksCons,Span.stop,start,Nat.add_assoc]

theorem calculateTook {r} (waiting : s.unreq ≠ [])
    (calculated : calculatePrefetchMeta s.fs.log.begin s.fs.log.logEnd s.peer fsync = some r) :
    ∃ g rest, s.unreq = g ++ rest ∧ r.2.nPrefetch = g.length ∧ Group (lastTaken s) ⟨r.2,g⟩ ∧
    Synced (took s r.1 r.2 g rest) ∧ (rest = [] ∨ Rotated s g rest ∧ g ≠ []) := by
  rcases h.place with level | ⟨pre,post,rotated⟩
  · rw [calculateLevel h level waiting] at calculated
    cases calculated
    obtain ⟨group,stop⟩ := levelGroup h (append_nil _).symm waiting
      (fun x mem => (levelLaps h level mem).trans level.lap.symm)
    simp only [takeGroup,h.nUnsync,h.nUnsyncBlk]
    refine ⟨s.unreq,[],(append_nil _).symm,rfl,group,tookSynced h (append_nil _).symm group
      (Nat.sub_self _) (Nat.sub_self _) stop (.inl ⟨?_,level.upto⟩),.inl rfl⟩
    rw [tookLast]
    exact levelLaps h level (lastMemSome waiting)
  · by_cases none : pre = []
    · subst none
      rw [calculateNewer h rotated] at calculated
      cases calculated
      have same : s.unreq = post := rotated.split
      have more : post ≠ [] := same ▸ waiting
      obtain ⟨group,stop⟩ := newerGroup h rotated more
      simp only [takeGroup,resetPrefetchMeta,h.nUnsync,h.nUnsyncBlk,same]
      refine ⟨post,[],(append_nil _).symm,rfl,group,tookSynced h (same.trans (append_nil _).symm) group
        (Nat.sub_self _) (Nat.sub_self _) stop (.inl ⟨?_,rfl⟩),.inl rfl⟩
      rw [tookLast]
      exact rotated.newer _ (lastMemSome more)
    · cases calculateOlder h rotated none calculated
      obtain ⟨group,stop⟩ := levelGroup h rotated.split none rotated.older
      have last : (pre.getLastD (lastTaken s)).lap = (lastTaken s).lap := rotated.older _ (lastMemSome none)
      have count := h.nUnsync
      have blks := h.nUnsyncBlk
      rw [rotated.split,length_append] at count
      rw [rotated.split,blocksAppend] at blks
      simp only [takeGroup]
      refine ⟨pre,post,rotated.split,rfl,group,tookSynced h rotated.split group (by simp only; omega) (by simp only; omega)
        stop (.inr ⟨[],post,rfl,?_,?_,rotated.newer,?_,rotated.isSet,fun no => absurd rfl no⟩),.inr ⟨rotated,none⟩⟩
      · rw [tookLast,last]; exact rotated.lap
      · intro x mem; cases mem
      · rw [tookLast]; exact rotated.endBlk

theorem requestTook {t} (waiting : s.unreq ≠ []) (many : logPrefetchThreshold < s.peer.nUnsyncBlk)
    (requested : requestLogFetch s = some t) : Synced t ∧ ∃ peer arg g rest, t = took s peer arg g rest ∧
    s.unreq = g ++ rest ∧ (rest = [] ∨ Rotated s g rest ∧ g ≠ []) := by
  simp only [requestLogFetch,if_pos many] at requested
  obtain ⟨r,calculated,rfl⟩ := Option.map_eq_some_iff.mp requested
  obtain ⟨g,rest,split,count,_,synced,leaves⟩ := calculateTook h waiting calculated
  rw [split,count,take_left,List.drop_left]
  exact ⟨synced,_,_,_,_,rfl,rfl,leaves⟩

theorem requestCases {t} (requested : step s .request = some t) : s.owed = true ∧ s.unreq ≠ [] ∧
    (s.peer.nUnsyncBlk ≤ logPrefetchThreshold ∧ t = { s with owed := false } ∨
      requestLogFetch s = some t ∧ logPrefetchThreshold < s.peer.nUnsyncBlk) := by
  obtain ⟨owed,requested⟩ := Option.ite_none_right_eq_some.mp requested
  refine ⟨owed,(h.held owed).2,?_⟩
  by_cases many : logPrefetchThreshold < s.peer.nUnsyncBlk
  · exact .inr ⟨requested,many⟩
  · simp only [requestLogFetch,if_neg many] at requested
    exact .inl ⟨Nat.le_of_not_lt many,(Option.some.inj requested).symm⟩

theorem requestSynced {t} (requested : step s .request = some t) : Synced t := by
  obtain ⟨owed,some,⟨_,rfl⟩ | ⟨took,many⟩⟩ := requestCases h requested
  · refine { h with held := fun owed => absurd owed Bool.false_ne_true, place := ?_ }
    rcases h.place with level | ⟨pre,post,rotated⟩
    · exact .inl { level with }
    · exact .inr ⟨pre,post,{ rotated with }⟩
  · exact (requestTook h some many took).1

end

end Request

theorem stepSynced {s a t} (h : Synced s) (paced : Paced s a) (taken : step s a = some t) : Synced t := by
  cases a with
  | alloc n => exact allocSynced h paced taken
  | ret => exact retSynced h taken
  | request => exact requestSynced h taken
  | arrive => exact arriveSynced h taken
  | ack => exact ackSynced h taken

theorem pacedSynced {logSbBlk s} (reached : Reach step Paced (init logSbBlk) s) : Synced s :=
  reachInvariant Synced (initSynced logSbBlk) (fun _ _ _ => stepSynced) reached

theorem stepRefines {s a t} (h : Synced s) (paced : Paced s a) (taken : step s a = some t) :
    t.fs = s.fs ∨ ∃ b, Log.Paced s.fs b ∧ Log.step s.fs b = some t.fs := by
  cases a with
  | alloc n =>
    simp only [step] at taken
    split at taken <;> try contradiction
    obtain ⟨fs,allocated,rfl⟩ := Option.map_eq_some_iff.mp taken
    exact .inr ⟨.alloc n,paced,allocated⟩
  | ret =>
    simp only [step,Option.bind_eq_some_iff,Option.map_eq_some_iff] at taken
    obtain ⟨x,_,fs,returned,rfl⟩ := taken
    exact .inr ⟨.ret,trivial,returned⟩
  | request =>
    simp only [step,requestLogFetch] at taken
    split at taken <;> try contradiction
    split at taken
    · obtain ⟨r,_,rfl⟩ := Option.map_eq_some_iff.mp taken; exact .inl rfl
    · cases taken; exact .inl rfl
  | arrive =>
    simp only [step] at taken
    split at taken <;> try contradiction
    split at taken <;> cases taken <;> exact .inl rfl
  | ack =>
    simp only [step] at taken
    split at taken <;> try contradiction
    rename_i b rest sent
    cases taken
    exact .inr ⟨.ack _,trivial,ackRefines h sent⟩

theorem publishRefinesLog {logSbBlk s} (reached : Reach step Paced (init logSbBlk) s) :
    Reach Log.step Log.Paced (Log.init logSbBlk) s.fs := by
  induction reached with
  | start => exact .start
  | next before allowed taken ih =>
    rcases stepRefines (pacedSynced before) allowed taken with same | ⟨b,paced,logged⟩
    · rw [same]; exact ih
    · exact .next ih paced logged

end LineFS.Publish
