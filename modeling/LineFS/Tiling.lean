import LineFS.Publish

/-! All prefetch requests of one LibFS, plain and fsync, over the log they name. `calculate_prefetch_meta`
releases the locks under which `request_log_fetch` loads the counters, so an fsync computes again without
them. `log_alloc` rotates without the locks: it stores `n_unsync_upto_end` and then the end of the log. -/
namespace LineFS.Tiling
open Option (bind_some map_eq_some_iff map_some)
open List (append_assoc cons_append flatMap_cons mem_append_left mem_append_right)
open Base
open Log (FsLog Rotates)
open Prefetch (PeerMeta PrefetchArg calculatePrefetchMeta groupStart takeGroup resetPrefetchMeta updatePeerSyncState)
open Publish (Request Group Fits Synced unacked taken lastTaken digestResponse batchMetaCons handled storeUptoEnd)

/- The log a walker sees: a block belongs to the last transaction laid over it and
holds a committed header when that transaction starts there. -/
def loghdrAt (committed : List Span) (blk : Nat) : Option Span :=
  (committed.reverse.find? fun x => x.start ≤ blk ∧ blk < x.stop).filter fun x => x.start = blk

-- `build_loghdr_list`: the assertions on the bounds and the panic on a missing header are `none`.
def buildLoghdrList (loghdr : Nat → Option Span) : Nat → Nat → Nat → Option (List Span)
  | 0,p,bufExceed => if p = bufExceed then some [] else none
  | n + 1,p,bufExceed =>
    if p < bufExceed then
      (loghdr p).bind fun h => (buildLoghdrList loghdr n (p + h.len) bufExceed).map fun hs => h::hs
    else none

def Contiguous : Nat → List Span → Prop
  | _,[] => True
  | a,x::xs => x.start = a ∧ Contiguous x.stop xs

theorem walkContiguous {loghdr bufExceed a xs} (laid : Contiguous a xs)
    (found : ∀ x ∈ xs, loghdr x.start = some x ∧ 0 < x.len) (stop : a + blocks xs = bufExceed) :
    buildLoghdrList loghdr xs.length a bufExceed = some xs := by
  induction xs generalizing a with
  | nil => simpa [buildLoghdrList] using stop
  | cons x xs ih =>
    obtain ⟨rfl,rest⟩ := laid
    obtain ⟨header,long⟩ := found x (.head _)
    rw [blocksCons] at stop
    have walked := ih rest (fun y mem => found y (.tail _ mem)) (by simp only [Span.stop]; omega)
    rw [List.length_cons,buildLoghdrList,if_pos (by omega),header,bind_some]
    exact congrArg (Option.map _) walked

theorem loghdrKept {older live x} (apart : live.Pairwise Apart) (mem : x ∈ live) (long : 0 < x.len) :
    loghdrAt (older ++ live) x.start = some x := by
  have : Std.Symm Apart := ⟨fun _ _ => Apart.symm⟩
  have own : (decide (x.start ≤ x.start ∧ x.start < x.stop)) = true :=
    decide_eq_true ⟨Nat.le_refl _,Nat.lt_add_of_pos_right long⟩
  have seen : live.reverse.find? (fun y => decide (y.start ≤ x.start ∧ x.start < y.stop)) = some x := by
    cases found : live.reverse.find? (fun y => decide (y.start ≤ x.start ∧ x.start < y.stop)) with
    | none => exact absurd own (List.find?_eq_none.mp found x (List.mem_reverse.mpr mem))
    | some y =>
      have covers := List.find?_some found
      have there := List.mem_reverse.mp (List.mem_of_find?_eq_some found)
      by_cases same : x = y
      · rw [same]
      · have away := apart.forall mem there same
        have covers := of_decide_eq_true covers
        simp only [Apart,Span.stop] at covers away
        omega
  rw [loghdrAt,List.reverse_append,List.find?_append,seen]
  simp

structure Loaded where
  fetchStartBlknr : Nat
  nUnsyncBlks : Nat
  nUnsync : Nat
  nUnsyncUptoEnd : Nat
  endBlknr : Nat
  deriving DecidableEq, Repr

def load (s : Publish.State) : Loaded :=
  ⟨s.peer.localStart,s.peer.nUnsyncBlk,s.peer.nUnsync,s.peer.nUnsyncUptoEnd,s.fs.log.logEnd⟩

/- `calculate_prefetch_meta` on values loaded earlier: it computes from them and updates
the peer as it is now. -/
def calculateLoaded (logBegin : Nat) (a : Loaded) (p : PeerMeta) (isFsync : Bool) : Option (PeerMeta × PrefetchArg) :=
  let resetMeta := decide (a.endBlknr ≠ 0 ∧ a.endBlknr < a.fetchStartBlknr)
  let p := if resetMeta then resetPrefetchMeta logBegin p else p
  let start := if resetMeta then logBegin else a.fetchStartBlknr
  let upto := if resetMeta then 0 else a.nUnsyncUptoEnd
  let update (blks n : Nat) : PeerMeta × PrefetchArg :=
    ({ p with localStart := p.localStart + blks, nUnsyncBlk := p.nUnsyncBlk - blks, nUnsync := p.nUnsync - n },
     ⟨start,blks,n,resetMeta,isFsync⟩)
  if upto ≠ 0 then
    if a.endBlknr ≠ 0 ∧ start < a.endBlknr then some (update (a.endBlknr - start + 1) upto) else none
  else some (update a.nUnsyncBlks a.nUnsync)

theorem calculateLoadedFresh (logBegin : Nat) (s : Publish.State) (isFsync : Bool) :
    calculateLoaded logBegin (load s) s.peer isFsync = calculatePrefetchMeta logBegin s.fs.log.logEnd s.peer isFsync := by
  simp only [calculateLoaded,load,calculatePrefetchMeta,groupStart,takeGroup]
  by_cases reset : s.fs.log.logEnd ≠ 0 ∧ s.fs.log.logEnd < s.peer.localStart
  · simp only [reset,if_true,decide_true,resetPrefetchMeta,ne_eq,not_true_eq_false,if_false,not_false_eq_true,and_self]
  · simp only [reset,decide_false,Bool.false_eq_true,if_false]

/- `storing`: the size for which the thread inside `log_alloc` rotates, between its two stores. `retries`: the
fsync callers that compute again, with the values they have loaded. -/
structure State where
  pub : Publish.State
  storing : Option Nat
  retries : List (Option Loaded)
  committed : List Span
  computed : List Request
  deriving DecidableEq, Repr

def init (logSbBlk : Nat) : State := ⟨Publish.init logSbBlk,none,[],[],[]⟩

inductive Action where
  | store (nrBlocks : Nat)
  | alloc (nrBlocks : Nat)
  | ret
  | request
  | fsync
  | load (i : Nat)
  | retry (i : Nat)
  | arrive
  | ack
  deriving DecidableEq, Repr

def issue (s : State) (r : PeerMeta × PrefetchArg) : State :=
  let q : Request := ⟨r.2,s.pub.unreq.take r.2.nPrefetch⟩
  { s with pub := { s.pub with peer := r.1, unreq := s.pub.unreq.drop r.2.nPrefetch, flight := s.pub.flight ++ [q] }
           computed := s.computed ++ [q] }

def calculate (s : State) (isFsync : Bool) : Option (PeerMeta × PrefetchArg) :=
  calculatePrefetchMeta s.pub.fs.log.begin s.pub.fs.log.logEnd s.pub.peer isFsync

-- A transaction is a header block and at least one more.
def AllocReady (s : State) (nrBlocks : Nat) : Prop :=
  s.pub.owed = false ∧ s.pub.fs.pending = none ∧ 2 ≤ nrBlocks ∧ nrBlocks ≤ maxTransaction
deriving Decidable

def step (s : State) : Action → Option State
  | .store n =>
    if AllocReady s n ∧ s.storing = none ∧ Rotates s.pub.fs.log n then
      some { s with pub := { s.pub with peer := storeUptoEnd s.pub.peer }, storing := some n }
    else none
  | .alloc n =>
    if AllocReady s n ∧ s.storing = (if Rotates s.pub.fs.log n then some n else none) then
      (Log.step s.pub.fs (.alloc n)).map fun fs => { s with pub := { s.pub with fs }, storing := none }
    else none
  | .ret =>
    s.pub.fs.pending.bind fun x => (Publish.step s.pub .ret).map fun pub => { s with pub, committed := s.committed ++ [x] }
  | .request =>
    if s.pub.owed then
      if logPrefetchThreshold < s.pub.peer.nUnsyncBlk then
        (calculate s false).map fun r =>
          let t := issue s r
          { t with pub := { t.pub with owed := false } }
      else some { s with pub := { s.pub with owed := false } }
    else none
  | .fsync =>
    (calculate s true).map fun r =>
      { issue s r with retries := if r.2.nPrefetch < s.pub.peer.nUnsync then s.retries ++ [none] else s.retries }
  | .load i => if s.retries[i]? = some none then some { s with retries := s.retries.set i (some (load s.pub)) } else none
  | .retry i =>
    (s.retries[i]?.join).bind fun a => (calculateLoaded s.pub.fs.log.begin a s.pub.peer true).map fun r =>
      { issue s r with retries := if r.2.nPrefetch < a.nUnsync then s.retries.set i none else s.retries.eraseIdx i }
  | .arrive => (Publish.step s.pub .arrive).map fun pub => { s with pub }
  | .ack => (Publish.step s.pub .ack).map fun pub => { s with pub }

structure Names (logSbBlk : Nat) (r : Request) : Prop where
  count : r.arg.nPrefetch = r.txs.length
  blks : r.arg.nPrefetchBlk = blocks r.txs
  laid : Contiguous r.arg.prefetchStart r.txs
  inside : logSbBlk + 1 ≤ r.arg.prefetchStart ∧ r.arg.prefetchStart + r.arg.nPrefetchBlk ≤ logSbBlk + gLogSize

/- The requests take the committed transactions in order, each once. Until a request is acknowledged a walk over
its range reads the headers it takes. No assertion of `calculate_prefetch_meta` fails. -/
structure Tiled (logSbBlk : Nat) (s : State) : Prop where
  cover : s.committed = s.computed.flatMap Request.txs ++ s.pub.unreq
  names : ∀ r ∈ s.computed, Names logSbBlk r
  walks : ∀ r ∈ unacked s.pub, buildLoghdrList (loghdrAt s.committed) r.arg.nPrefetch r.arg.prefetchStart
    (r.arg.prefetchStart + r.arg.nPrefetchBlk) = some r.txs
  computes : s.storing = none → ∀ isFsync, (calculate s isFsync).isSome

def Idle (s : State) : Prop :=
  s.pub.peer.nUnsync = 0 ∧ s.pub.fs.log.logEnd ≠ 0 ∧ s.pub.fs.log.logEnd < s.pub.peer.localStart
deriving Decidable

/- No fsync computes while `log_alloc` is between its two stores, computes from values that have changed since,
or asks for nothing beyond the old end of the log. -/
def Calm (s : State) : Action → Prop
  | .store n => Log.Paced s.pub.fs (.alloc n)
  | .alloc n => Log.Paced s.pub.fs (.alloc n)
  | .fsync => s.storing = none ∧ ¬Idle s
  | .retry i => s.storing = none ∧ ¬Idle s ∧ s.retries[i]? = some (some (load s.pub))
  | _ => True
instance (s a) : Decidable (Calm s a) := by cases a <;> unfold Calm <;> infer_instance

def solid (rs : List Request) : List Request := rs.filter fun r => !r.txs.isEmpty

def Placed (c : Span) (r : Request) : Prop :=
  Group c r ∨ r.txs = [] ∧ r.arg.prefetchStart = c.stop ∧ r.arg.nPrefetchBlk = 0 ∧ r.arg.nPrefetch = 0 ∧ r.arg.resetMeta = false

def Lined : Span → List Request → Prop
  | _,[] => True
  | c,r::rs => Placed c r ∧ Lined (r.txs.getLastD c) rs

theorem linedAppend {c rs qs} : Lined c (rs ++ qs) ↔ Lined c rs ∧ Lined ((rs.flatMap Request.txs).getLastD c) qs := by
  induction rs generalizing c with
  | nil => simp [Lined]
  | cons r rs ih => simp only [cons_append,Lined,ih,flatMap_cons,lastAppend,and_assoc]

@[simp] theorem solidAppend (rs qs : List Request) : solid (rs ++ qs) = solid rs ++ solid qs := List.filter_append ..

theorem solidCons (r rs) : solid (r::rs) = if r.txs = [] then solid rs else r::solid rs := by
  cases empty : r.txs <;> simp [solid,empty]

theorem solidTxs (rs : List Request) : (solid rs).flatMap Request.txs = rs.flatMap Request.txs := by
  induction rs with
  | nil => rfl
  | cons r rs ih =>
    rw [solidCons,flatMap_cons]
    split
    · rename_i empty; rw [ih,empty,List.nil_append]
    · rw [flatMap_cons,ih]

theorem linedFits {c rs} (h : Lined c rs) : Fits c (solid rs) := by
  induction rs generalizing c with
  | nil => exact trivial
  | cons r rs ih =>
    have rest := ih h.2
    rw [solidCons]
    rcases h.1 with group | ⟨empty,_⟩
    · rw [if_neg group.taken]; exact ⟨group,rest⟩
    · rw [if_pos empty]; rw [empty] at rest; exact rest

theorem linedSums {c rs} (h : Lined c rs) :
    (rs.map fun r => r.arg.nPrefetch).sum = ((solid rs).map fun r => r.arg.nPrefetch).sum ∧
    (rs.map fun r => r.arg.nPrefetchBlk).sum = ((solid rs).map fun r => r.arg.nPrefetchBlk).sum ∧
    (rs.any fun r => r.arg.resetMeta) = (solid rs).any fun r => r.arg.resetMeta := by
  induction rs generalizing c with
  | nil => exact ⟨rfl,rfl,rfl⟩
  | cons r rs ih =>
    obtain ⟨count,blks,reset⟩ := ih h.2
    rw [solidCons]
    rcases h.1 with group | ⟨empty,_,noBlks,none,calm⟩
    · simp [if_neg group.taken,count,blks,reset]
    · simp [if_pos empty,noBlks,none,calm,count,blks,reset]

/- The peer without the requests for nothing and before a half-done rotation. -/
def view (s : State) : Publish.State :=
  { s.pub with peer := if s.storing = none then s.pub.peer else { s.pub.peer with nUnsyncUptoEnd := 0 }
               owed := false, flight := solid (unacked s.pub), batch := [], sent := [] }

structure Tiles (logSbBlk : Nat) (s : State) : Prop where
  synced : Synced (view s)
  lined : Lined s.pub.fs.cursor (unacked s.pub)
  filled : ∀ b ∈ s.pub.sent, b ≠ []
  stored : s.storing ≠ none → s.pub.peer.nUnsyncUptoEnd = s.pub.peer.nUnsync ∧ s.pub.owed = false ∧ s.pub.fs.pending = none
  base : s.pub.fs.log.logSbBlk = logSbBlk
  cover : s.committed = s.computed.flatMap Request.txs ++ s.pub.unreq
  names : ∀ r ∈ s.computed, Names logSbBlk r
  known : ∀ r ∈ unacked s.pub, r ∈ s.computed
  apart : s.pub.fs.live.Pairwise Apart
  kept : ∃ older, s.committed = older ++ s.pub.fs.live
  long : ∀ x ∈ Log.laid s.pub.fs, 2 ≤ x.len

@[simp] theorem viewFs (s) : (view s).fs = s.pub.fs := rfl
@[simp] theorem viewUnreq (s) : (view s).unreq = s.pub.unreq := rfl
@[simp] theorem viewUnacked (s) : unacked (view s) = solid (unacked s.pub) := by simp [unacked,view]
theorem viewTaken (s) : taken (view s) = taken s.pub := by rw [taken,viewUnacked,solidTxs]; rfl
theorem viewLast (s) : lastTaken (view s) = lastTaken s.pub := by rw [lastTaken,viewTaken]; rfl
theorem viewPeer {s : State} (settled : s.storing = none) : (view s).peer = s.pub.peer := if_pos settled

theorem initTiles (logSbBlk : Nat) : Tiles logSbBlk (init logSbBlk) :=
  ⟨Publish.initSynced logSbBlk,trivial,by simp [init,Publish.init],fun no => absurd rfl no,rfl,rfl,by simp [init],
    by simp [init,Publish.init,unacked],by simp [init,Publish.init,Log.init],⟨[],rfl⟩,
    by simp [init,Publish.init,Log.init,Log.laid]⟩

theorem unreqLive {logSbBlk s} (h : Tiles logSbBlk s) : s.pub.fs.live = taken s.pub ++ s.pub.unreq := by
  have line := h.synced.line
  rwa [viewTaken] at line

theorem olderBelow {logSbBlk s pre post} (h : Tiles logSbBlk s) (settled : s.storing = none)
    (rotated : Publish.Rotated (view s) pre post) (some : pre ≠ []) : s.pub.peer.localStart < s.pub.fs.log.logEnd := by
  have start := h.synced.localStart
  rw [viewPeer settled] at start
  have endBlk := rotated.endBlk
  rw [viewFs] at endBlk
  obtain ⟨x,xs,cons⟩ := List.exists_cons_of_ne_nil some
  have chain := Publish.unreqChain h.synced
  rw [rotated.split,append_assoc,← cons_append] at chain
  have stop := laidOneLap chain.left_of_append (rotated.older _ (lastMemSome some))
  have long : 2 ≤ x.len := by
    refine h.long x (mem_append_left _ ?_)
    rw [unreqLive h]
    exact mem_append_right _ (by rw [← viewUnreq,rotated.split,cons]; simp)
  have blks : x.len ≤ blocks pre := by simp [cons]
  omega

theorem tilesComputes {logSbBlk s} (h : Tiles logSbBlk s) (settled : s.storing = none) (isFsync : Bool) :
    (calculate s isFsync).isSome := by
  unfold calculate calculatePrefetchMeta groupStart
  by_cases reset : s.pub.fs.log.logEnd ≠ 0 ∧ s.pub.fs.log.logEnd < s.pub.peer.localStart
  · simp [if_pos reset,resetPrefetchMeta]
  · rw [if_neg reset]
    rcases h.synced.place with level | ⟨pre,post,rotated⟩
    · have none := level.upto
      rw [viewPeer settled] at none
      simp [none]
    · have some : pre ≠ [] := by
        rintro rfl
        have endBlk := rotated.endBlk
        have start := h.synced.localStart
        rw [viewPeer settled] at start
        rw [viewFs,List.getLastD_nil] at endBlk
        exact reset ⟨rotated.isSet,by omega⟩
      have both : s.pub.fs.log.logEnd ≠ 0 ∧ s.pub.peer.localStart < s.pub.fs.log.logEnd :=
        ⟨rotated.isSet,olderBelow h settled rotated some⟩
      simp only [if_pos both]
      split <;> rfl

theorem tilesTiled {logSbBlk s} (h : Tiles logSbBlk s) : Tiled logSbBlk s := by
  obtain ⟨older,kept⟩ := h.kept
  refine ⟨h.cover,h.names,?_,tilesComputes h⟩
  intro r mem
  have named := h.names r (h.known r mem)
  rw [named.count,kept]
  refine walkContiguous named.laid (fun x here => ?_) (by rw [named.blks])
  have live : x ∈ s.pub.fs.live := by
    rw [unreqLive h]
    exact mem_append_left _ (List.mem_flatMap.mpr ⟨r,mem,here⟩)
  have long := h.long x (mem_append_left _ live)
  exact ⟨loghdrKept h.apart live (by omega),by omega⟩

section Steps
variable {logSbBlk : Nat} {s t : State}

theorem contiguousLap {lo hi x xs} (chain : (x::xs).IsChain (Follows lo hi)) (lap : ∀ y ∈ xs, y.lap = x.lap) :
    Contiguous x.start (x::xs) := by
  induction xs generalizing x with
  | nil => exact ⟨rfl,trivial⟩
  | cons y ys ih =>
    obtain ⟨first,rest⟩ := List.isChain_cons_cons.mp chain
    have same := lap y (.head _)
    have below := ih rest (fun z mem => (lap z (.tail _ mem)).trans same.symm)
    rcases first with ⟨_,start⟩ | ⟨next,_⟩
    · exact ⟨rfl,start ▸ below⟩
    · omega

theorem placedNames {c r rest} (placed : Placed c r)
    (chain : (c::(r.txs ++ rest)).IsChain (Follows (logSbBlk + 1) (logSbBlk + gLogSize)))
    (inside : ∀ x ∈ c::r.txs, logSbBlk + 1 ≤ x.start ∧ x.stop ≤ logSbBlk + gLogSize) : Names logSbBlk r := by
  rw [← cons_append] at chain
  replace chain := chain.left_of_append
  rcases placed with group | ⟨empty,start,blks,count,_⟩
  · obtain ⟨x,xs,cons⟩ := List.exists_cons_of_ne_nil group.taken
    have stop := Publish.groupStop group chain
    have last := inside (r.txs.getLastD c) lastMem
    have first := inside x (by simp [cons])
    have start := group.start
    have lap := group.oneLap
    rw [cons] at chain start lap
    rw [List.headD_cons] at start
    refine ⟨group.count,group.blks,?_,by omega⟩
    rw [start,cons]
    exact contiguousLap (List.isChain_cons_cons.mp chain).2
      (fun y mem => (lap y (.tail _ mem)).trans (lap x (.head _)).symm)
  · have last := inside c (.head _)
    simp only [Span.stop] at last start
    refine ⟨by rw [count,empty]; rfl,by rw [blks,empty]; rfl,by rw [empty]; exact trivial,by omega⟩

section
variable (h : Tiles logSbBlk s)
include h

theorem calculateIdle (settled : s.storing = none) (useful : ¬Idle s) (waiting : s.pub.unreq = [])
    (isFsync : Bool) : calculate s isFsync = some (s.pub.peer,⟨s.pub.peer.localStart,0,0,false,isFsync⟩) := by
  have peer := viewPeer settled
  have count := h.synced.nUnsync
  have blks := h.synced.nUnsyncBlk
  have start := h.synced.localStart
  rw [viewUnreq,waiting,peer] at count blks
  rw [peer] at start
  have calm : ¬(s.pub.fs.log.logEnd ≠ 0 ∧ s.pub.fs.log.logEnd < s.pub.peer.localStart) :=
    fun beyond => useful ⟨count,beyond⟩
  have upto : s.pub.peer.nUnsyncUptoEnd = 0 := by
    rcases h.synced.place with level | ⟨pre,post,rotated⟩
    · exact peer ▸ level.upto
    · have empty := rotated.split
      rw [viewUnreq,waiting] at empty
      obtain ⟨rfl,_⟩ := List.append_eq_nil_iff.mp empty.symm
      have endBlk := rotated.endBlk
      rw [viewFs,List.getLastD_nil] at endBlk
      exact absurd ⟨rotated.isSet,show s.pub.fs.log.logEnd < _ by omega⟩ calm
  have nothing : takeGroup s.pub.peer false isFsync s.pub.peer.nUnsyncBlk s.pub.peer.nUnsync =
      takeGroup s.pub.peer false isFsync 0 0 := by rw [count,blks]; rfl
  simp only [calculate,calculatePrefetchMeta,groupStart,if_neg calm,upto,ne_eq,not_true_eq_false,if_false,nothing]
  rfl

theorem calculatePlaced {r isFsync} (settled : s.storing = none) (useful : ¬Idle s)
    (calculated : calculate s isFsync = some r) : ∃ g rest, s.pub.unreq = g ++ rest ∧ r.2.nPrefetch = g.length ∧
    Placed (lastTaken s.pub) ⟨r.2,g⟩ ∧
    Synced { view s with peer := r.1, unreq := rest, flight := solid (unacked s.pub ++ [⟨r.2,g⟩]) } := by
  have peer := viewPeer settled
  by_cases waiting : s.pub.unreq = []
  · rw [calculateIdle h settled useful waiting] at calculated
    cases calculated
    have start := h.synced.localStart
    rw [peer,viewLast] at start
    refine ⟨[],s.pub.unreq,rfl,rfl,.inr ⟨rfl,start,rfl,rfl,rfl⟩,?_⟩
    have same : solid (unacked s.pub ++ [⟨⟨s.pub.peer.localStart,0,0,false,isFsync⟩,[]⟩]) = solid (unacked s.pub) := by
      rw [solidAppend,solidCons,if_pos rfl]; exact List.append_nil _
    rw [same,← peer]
    exact h.synced
  · have found : calculatePrefetchMeta (view s).fs.log.begin (view s).fs.log.logEnd (view s).peer isFsync = some r := by
      rw [peer]; exact calculated
    obtain ⟨g,rest,split,count,group,next,_⟩ := Publish.calculateTook h.synced waiting found
    refine ⟨g,rest,split,count,.inl (viewLast s ▸ group),?_⟩
    rw [solidAppend,solidCons,if_neg group.taken]
    exact next

theorem issueTiles {r isFsync owed retries} (settled : s.storing = none) (useful : ¬Idle s)
    (calculated : calculate s isFsync = some r) :
    Tiles logSbBlk { issue s r with pub := { (issue s r).pub with owed }, retries } := by
  obtain ⟨g,rest,split,count,placed,next⟩ := calculatePlaced h settled useful calculated
  have taken : s.pub.unreq.take r.2.nPrefetch = g := by rw [split,count,List.take_left]
  have left : s.pub.unreq.drop r.2.nPrefetch = rest := by rw [split,count,List.drop_left]
  have more (owed : Bool) : unacked { s.pub with peer := r.1, owed, unreq := rest, flight := s.pub.flight ++ [⟨r.2,g⟩] } =
      unacked s.pub ++ [⟨r.2,g⟩] := by simp [unacked]
  have chain := Publish.unreqChain h.synced
  have inside := h.synced.guard.inside
  have bounds := h.synced.guard.bounds
  rw [viewFs] at inside bounds chain
  rw [viewLast,viewUnreq,split,append_assoc,bounds,FsLog.begin,h.base] at chain
  have named : Names logSbBlk ⟨r.2,g⟩ := by
    refine placedNames placed chain (fun x mem => ?_)
    have here : x ∈ s.pub.fs.cursor::Log.laid s.pub.fs := by
      rw [Log.laid,unreqLive h,split]
      rcases List.mem_cons.mp mem with rfl | here
      · have last : lastTaken s.pub ∈ s.pub.fs.cursor::Publish.taken s.pub := lastMem
        exact List.cons_subset_cons _ (by simp) last
      · simp [show x ∈ g from here]
    have := inside x here
    rwa [bounds,FsLog.begin,h.base] at this
  simp only [issue,taken,left]
  refine ⟨?_,?_,h.filled,fun no => absurd settled no,h.base,?_,?_,?_,h.apart,h.kept,h.long⟩
  · simp only [view,if_pos settled,more]
    exact next
  · simp only [more]
    exact linedAppend.mpr ⟨h.lined,placed,trivial⟩
  · rw [h.cover,split,List.flatMap_append,List.flatMap_singleton,append_assoc]
  · exact List.forall_mem_append.mpr ⟨h.names,List.forall_mem_singleton.mpr named⟩
  · simp only [more]
    intro q mem
    rcases List.mem_append.mp mem with old | new
    · exact mem_append_left _ (h.known q old)
    · exact mem_append_right _ new

theorem storeTiles {n} (paced : Log.Paced s.pub.fs (.alloc n)) (taken : step s (.store n) = some t) :
    Tiles logSbBlk t := by
  obtain ⟨ready,taken⟩ := Option.ite_none_right_eq_some.mp taken
  obtain ⟨⟨idle,pending,_⟩,settled,rotates⟩ := ready
  cases taken
  have level := Publish.evenLevel h.synced (paced rotates).1
  have upto := level.upto
  rw [viewPeer settled] at upto
  refine ⟨?_,h.lined,h.filled,fun _ => ⟨rfl,idle,pending⟩,h.base,h.cover,h.names,h.known,h.apart,h.kept,h.long⟩
  have same : view { s with pub := { s.pub with peer := storeUptoEnd s.pub.peer }, storing := some n } = view s := by
    simp only [view,settled,if_true,storeUptoEnd,reduceCtorEq,if_false]
    rw [← upto]
    rfl
  rw [same]
  exact h.synced

theorem allocTiles {n} (paced : Log.Paced s.pub.fs (.alloc n)) (taken : step s (.alloc n) = some t) :
    Tiles logSbBlk t := by
  simp only [step,Option.ite_none_right_eq_some,map_eq_some_iff] at taken
  obtain ⟨⟨⟨idle,pending,long,_⟩,storing⟩,fs,allocated,rfl⟩ := taken
  have stepped : Publish.step (view s) (.alloc n) = some (view { s with pub := { s.pub with fs }, storing := none }) := by
    have peer : (if Rotates s.pub.fs.log n then storeUptoEnd (view s).peer else (view s).peer) = s.pub.peer := by
      by_cases rotates : Rotates s.pub.fs.log n
      · rw [if_pos rotates] at storing
        have stored := (h.stored (by simp [storing])).1
        have upto : { s.pub.peer with nUnsyncUptoEnd := s.pub.peer.nUnsync } = s.pub.peer := by rw [← stored]
        simp only [if_pos rotates,view,storing,reduceCtorEq,if_false,storeUptoEnd,upto]
      · rw [if_neg rotates] at storing
        rw [if_neg rotates,viewPeer storing]
    have idleView : (view s).owed = false := rfl
    rw [Publish.step,idleView,if_neg Bool.false_ne_true,viewFs,allocated,map_some,peer]
    rfl
  have synced := Publish.allocSynced h.synced paced stepped
  have base := (Log.stepSbBlk allocated).trans h.base
  obtain ⟨_,rfl⟩ := ifTaken allocated
  refine ⟨synced,h.lined,h.filled,fun no => absurd rfl no,base,h.cover,h.names,h.known,h.apart,h.kept,?_⟩
  intro x mem
  rcases memSnoc mem with old | rfl
  · exact h.long x (mem_append_left _ old)
  · exact long

end

theorem unowedSynced {p : Publish.State} (h : Synced p) : Synced { p with owed := false } := by
  refine { h with held := fun owed => absurd owed Bool.false_ne_true, place := ?_ }
  rcases h.place with level | ⟨pre,post,rotated⟩
  · exact .inl { level with }
  · exact .inr ⟨pre,post,{ rotated with }⟩

section
variable (h : Tiles logSbBlk s)
include h

theorem retTiles (taken : step s .ret = some t) : Tiles logSbBlk t := by
  simp only [step,Option.bind_eq_some_iff,map_eq_some_iff] at taken
  obtain ⟨x,pending,pub,returned,rfl⟩ := taken
  have settled : s.storing = none := by
    by_contra storing
    rw [(h.stored storing).2.2] at pending
    contradiction
  simp only [Publish.step,Option.bind_eq_some_iff,map_eq_some_iff] at returned
  obtain ⟨y,again,fs,logged,rfl⟩ := returned
  cases pending.symm.trans again
  have stepped : Publish.step (view s) .ret = some { (view s) with fs, peer := updatePeerSyncState s.pub.peer x.len
                                                                   unreq := s.pub.unreq ++ [x], owed := true } := by
    simp only [Publish.step,viewFs,pending,bind_some,logged,map_some,viewPeer settled,viewUnreq]
  have synced := unowedSynced (Publish.retSynced h.synced stepped)
  have base := (Log.stepSbBlk logged).trans h.base
  obtain ⟨y,again,notFull,rfl⟩ := Log.retExact logged
  cases pending.symm.trans again
  obtain ⟨older,kept⟩ := h.kept
  refine ⟨?_,h.lined,h.filled,fun no => absurd settled no,base,?_,h.names,h.known,?_,⟨older,?_⟩,?_⟩
  · simp only [view,if_pos settled] at synced ⊢
    exact synced
  · simp only [h.cover,append_assoc]
  · refine List.pairwise_append.mpr ⟨h.apart,List.pairwise_singleton _ _,fun y mem z new => ?_⟩
    cases List.mem_singleton.mp new
    exact (Log.guardedApart h.synced.guard pending notFull mem).symm
  · simp only [kept,append_assoc]
  · have long := h.long
    simpa [Log.laid,pending] using long

theorem movedTiles {flight batch sent} (same : sent.flatten ++ batch ++ flight = unacked s.pub)
    (filled : ∀ b ∈ sent, b ≠ []) : Tiles logSbBlk { s with pub := { s.pub with flight, batch, sent } } := by
  have again : unacked { s.pub with flight, batch, sent } = unacked s.pub := same
  refine ⟨?_,again ▸ h.lined,filled,h.stored,h.base,h.cover,h.names,again ▸ h.known,h.apart,h.kept,h.long⟩
  simp only [view,again]
  exact h.synced

theorem owedSettled (owed : s.pub.owed = true) : s.storing = none := by
  by_contra storing
  rw [(h.stored storing).2.1] at owed
  contradiction

theorem manyUseful (settled : s.storing = none) (many : logPrefetchThreshold < s.pub.peer.nUnsyncBlk) :
    ¬Idle s := by
  intro idle
  have count := h.synced.nUnsync
  have blks := h.synced.nUnsyncBlk
  rw [viewPeer settled,viewUnreq] at count blks
  rw [idle.1] at count
  rw [List.eq_nil_of_length_eq_zero count.symm,blocksNil] at blks
  omega

theorem requestTiles (taken : step s .request = some t) : Tiles logSbBlk t := by
  obtain ⟨owed,taken⟩ := Option.ite_none_right_eq_some.mp taken
  have settled := owedSettled h owed
  split at taken
  · obtain ⟨r,calculated,rfl⟩ := map_eq_some_iff.mp taken
    exact issueTiles h settled (manyUseful h settled ‹_›) calculated
  · cases taken
    exact ⟨h.synced,h.lined,h.filled,fun no => absurd settled no,h.base,h.cover,h.names,h.known,h.apart,h.kept,h.long⟩

end

theorem ackStop {lo hi c b} (lined : Lined c b) (some : b ≠ []) (chain : (c::b.flatMap Request.txs).IsChain (Follows lo hi))
    (same : ((b.flatMap Request.txs).getLastD c).lap = c.lap) :
    (digestResponse b).digestStartBlknr + (digestResponse b).nDigestedBlks = ((b.flatMap Request.txs).getLastD c).stop := by
  have blks := (linedSums lined).2.1
  rw [Publish.fitsBlocks (linedFits lined),solidTxs] at blks
  rw [laidOneLap chain same]
  match b with
  | r::rs =>
    simp only [digestResponse,batchMetaCons,blks]
    congr 1
    rcases lined.1 with group | ⟨_,start,_⟩
    · obtain ⟨x,xs,cons⟩ := List.exists_cons_of_ne_nil group.taken
      rw [flatMap_cons,cons,cons_append] at chain same
      rw [List.getLastD_cons] at same
      obtain ⟨first,rest⟩ := List.isChain_cons_cons.mp chain
      have later := laidLapLe rest (.head _)
      rw [group.start,cons,List.headD_cons]
      rcases first with ⟨_,start⟩ | ⟨next,_⟩
      · exact start
      · omega
    · exact start

theorem digestResponseSolid {c b} (lined : Lined c b) : digestResponse (solid b) =
    { digestResponse b with digestStartBlknr := (digestResponse (solid b)).digestStartBlknr } := by
  obtain ⟨count,blks,reset⟩ := linedSums lined
  have sums (b : List Request) : digestResponse b = ⟨(digestResponse b).digestStartBlknr,(b.map fun r => r.arg.nPrefetch).sum,
      (b.map fun r => r.arg.nPrefetchBlk).sum,b.any fun r => r.arg.resetMeta⟩ := by
    cases b with
    | nil => rfl
    | cons r rs => simp only [digestResponse,batchMetaCons]
  rw [sums b,count,blks,reset]
  exact sums (solid b)

theorem handledSolid {fs c b} (lined : Lined c b) : handled fs b =
    { handled fs (solid b) with log := { (handled fs (solid b)).log with startBlk := (handled fs b).log.startBlk
                                                                         startDigest := (handled fs b).log.startDigest } } := by
  simp only [handled,solidTxs]
  rw [digestResponseSolid lined]
  rfl

section
variable (h : Tiles logSbBlk s)
include h

theorem ackHead {b after} (some : b ≠ []) (split : unacked s.pub = b ++ after)
    (behind : (handled s.pub.fs b).log.startVersion < s.pub.fs.log.availVersion) :
    (handled s.pub.fs b).log.startBlk = ((b.flatMap Request.txs).getLastD s.pub.fs.cursor).stop := by
  have lined := h.lined
  rw [split,linedAppend] at lined
  have chain := h.synced.guard.chain
  rw [viewFs,Log.laid,unreqLive h,taken,split,List.flatMap_append,append_assoc,append_assoc,← cons_append] at chain
  replace chain := chain.left_of_append
  have lead := h.synced.guard.lead
  rw [viewFs] at lead
  have calm : (digestResponse b).resetMeta = false := by
    rw [Bool.eq_false_iff]
    intro reset
    simp only [handled,Log.responseVersion,if_pos reset] at behind
    omega
  refine ackStop lined.1 some chain ?_
  have fits := linedFits lined.1
  have quiet := Publish.fitsReset fits (by rwa [solidTxs])
  rw [solidTxs,← (linedSums lined.1).2.2] at quiet
  obtain ⟨r,rs,rfl⟩ := List.exists_cons_of_ne_nil some
  simp only [digestResponse,batchMetaCons] at calm
  rw [calm] at quiet
  have among : ((r::rs).flatMap Request.txs).getLastD s.pub.fs.cursor ∈ s.pub.fs.cursor::(r::rs).flatMap Request.txs := lastMem
  rcases List.mem_cons.mp among with same | mem
  · rw [same]
  · simpa using List.any_eq_false.mp quiet.symm _ mem

theorem ackLive {b after} (split : unacked s.pub = b ++ after) :
    s.pub.fs.live = b.flatMap Request.txs ++ (handled s.pub.fs b).live ∧
    (handled s.pub.fs b).cursor = (b.flatMap Request.txs).getLastD s.pub.fs.cursor := by
  have live : s.pub.fs.live = b.flatMap Request.txs ++ (after.flatMap Request.txs ++ s.pub.unreq) := by
    rw [unreqLive h,taken,split,List.flatMap_append,append_assoc]
  simp only [handled]
  rw [live,List.drop_left,List.take_left]
  exact ⟨rfl,rfl⟩

theorem ackView {b rest after} (some : b ≠ []) (split : unacked s.pub = b ++ after)
    (left : rest.flatten ++ s.pub.batch ++ s.pub.flight = after) :
    Synced (view { s with pub := { s.pub with fs := handled s.pub.fs b, sent := rest } }) := by
  have lined := h.lined
  rw [split,linedAppend] at lined
  have flight : view { s with pub := { s.pub with fs := handled s.pub.fs b, sent := rest } } =
      { view s with fs := handled s.pub.fs b, flight := solid after } := by
    simp only [view,unacked,left]
  have head : (handled s.pub.fs (solid b)).log.startVersion < s.pub.fs.log.availVersion →
      (handled s.pub.fs b).log.startBlk = (handled s.pub.fs (solid b)).cursor.stop := by
    intro behind
    have cursor : (handled s.pub.fs b).cursor = (handled s.pub.fs (solid b)).cursor := by rw [handledSolid lined.1]
    have version : (handled s.pub.fs b).log.startVersion = (handled s.pub.fs (solid b)).log.startVersion := by
      rw [handledSolid lined.1]
    rw [← version] at behind
    rw [ackHead h some split behind,← (ackLive h split).2,cursor]
  rw [flight,handledSolid lined.1]
  by_cases none : solid b = []
  · have same : solid (unacked s.pub) = solid after := by rw [split,solidAppend,none,List.nil_append]
    rw [none] at head ⊢
    rw [← same]
    exact Publish.restartSynced h.synced _ _ _ _ head
  · have moved : Synced { view s with flight := solid after, batch := [], sent := [solid b] } :=
      Publish.movedSynced h.synced (by rw [viewUnacked,split,solidAppend]; simp) (by simpa using none)
    exact Publish.restartSynced (Publish.ackSynced moved rfl) _ _ _ _ 
      (fun behind => head (behind.trans_eq (Log.responseAvail _ _)))

theorem ackTiles (acked : step s .ack = some t) : Tiles logSbBlk t := by
  simp only [step,Publish.step,map_eq_some_iff] at acked
  obtain ⟨pub,acked,rfl⟩ := acked
  split at acked <;> try contradiction
  rename_i b rest sent
  cases acked
  have split : unacked s.pub = b ++ (rest.flatten ++ s.pub.batch ++ s.pub.flight) := by simp [unacked,sent]
  obtain ⟨live,cursor⟩ := ackLive h split
  have lined := h.lined
  rw [split,linedAppend] at lined
  obtain ⟨older,kept⟩ := h.kept
  refine ⟨ackView h (h.filled b (by simp [sent])) split rfl,cursor ▸ lined.2,?_,h.stored,?_,h.cover,h.names,?_,?_,
    ⟨older ++ b.flatMap Request.txs,?_⟩,?_⟩
  · exact fun c mem => h.filled c (sent ▸ .tail _ mem)
  · simpa [handled] using h.base
  · exact fun r mem => h.known r (split ▸ mem_append_right _ mem)
  · have apart := h.apart
    rw [live] at apart
    exact (List.pairwise_append.mp apart).2.1
  · rw [append_assoc,← live]; exact kept
  · intro x mem
    refine h.long x ?_
    rcases List.mem_append.mp mem with old | held
    · exact mem_append_left _ (live ▸ mem_append_right _ old)
    · exact mem_append_right _ held

end

theorem stepTiles {a} (h : Tiles logSbBlk s) (calm : Calm s a) (taken : step s a = some t) : Tiles logSbBlk t := by
  cases a with
  | store n => exact storeTiles h calm taken
  | alloc n => exact allocTiles h calm taken
  | ret => exact retTiles h taken
  | request => exact requestTiles h taken
  | fsync =>
    obtain ⟨r,calculated,rfl⟩ := map_eq_some_iff.mp taken
    exact issueTiles h calm.1 calm.2 calculated
  | load i =>
    obtain ⟨_,rfl⟩ := ifTaken taken
    exact ⟨h.synced,h.lined,h.filled,h.stored,h.base,h.cover,h.names,h.known,h.apart,h.kept,h.long⟩
  | retry i =>
    obtain ⟨settled,useful,fresh⟩ := calm
    simp only [step,fresh,Option.join_some,bind_some,map_eq_some_iff,calculateLoadedFresh] at taken
    obtain ⟨r,calculated,rfl⟩ := taken
    exact issueTiles h settled useful calculated
  | arrive =>
    obtain ⟨pub,arrived,rfl⟩ := map_eq_some_iff.mp taken
    obtain ⟨flight,batch,sent,rfl,same,filled,_⟩ := Publish.arriveExact arrived
    exact movedTiles h same (fun b mem => (filled b mem).elim (h.filled b) id)
  | ack => exact ackTiles h taken

end Steps

/- What a step of the requests does: it computes `rs`, and `log_alloc` returns with the spans `returned`. -/
structure Flow (s t : State) (a : Action) (rs : List Request) (returned : List Span) : Prop where
  computed : t.computed = s.computed ++ rs
  committed : t.committed = s.committed ++ returned
  unacked : unacked t.pub <:+ unacked s.pub ++ rs
  unreq : s.pub.unreq ++ returned = rs.flatMap Request.txs ++ t.pub.unreq
  live : a ≠ .ack → t.pub.fs.live = s.pub.fs.live ++ returned
  pending : t.pub.fs.pending ≠ none → (∃ n, a = .alloc n) ∨ s.pub.fs.pending ≠ none
  returns : returned = [] ∨ a = .ret ∧ ∃ x, returned = [x] ∧ s.pub.fs.pending = some x ∧ ¬Log.LogFull s.pub.fs.log
  asks : rs = [] ∧ a ≠ .fsync ∧ (∀ i, a ≠ .retry i) ∨
    (∃ q, rs = [q]) ∧ (a = .request ∨ a = .fsync ∨ ∃ i, a = .retry i)

section flow
variable {s t : State} {a : Action}

theorem issueFlow {r} {owed : Bool} {retries} (asks : a = .request ∨ a = .fsync ∨ ∃ i, a = .retry i) :
    Flow s { issue s r with pub := { (issue s r).pub with owed }, retries } a [⟨r.2,s.pub.unreq.take r.2.nPrefetch⟩] [] :=
  ⟨rfl,(List.append_nil _).symm,by simp [issue,unacked],by simp [issue],fun _ => (List.append_nil _).symm,.inr,.inl rfl,.inr ⟨⟨_,rfl⟩,asks⟩⟩

theorem plainFlow {pub : Publish.State} {storing retries} (unacked : unacked pub <:+ unacked s.pub) (unreq : pub.unreq = s.pub.unreq)
    (live : a ≠ .ack → pub.fs.live = s.pub.fs.live) (pending : pub.fs.pending ≠ none → (∃ n, a = .alloc n) ∨ s.pub.fs.pending ≠ none)
    (other : a ≠ .fsync ∧ ∀ i, a ≠ .retry i) : Flow s { s with pub, storing, retries } a [] [] :=
  ⟨(List.append_nil _).symm,(List.append_nil _).symm,by rwa [List.append_nil],by simp [unreq],by simpa using live,pending,.inl rfl,
    .inl ⟨rfl,other⟩⟩

theorem stepFlow (taken : step s a = some t) : ∃ rs returned, Flow s t a rs returned := by
  cases a with
  | store n =>
    obtain ⟨_,rfl⟩ := ifTaken taken
    exact ⟨[],[],plainFlow List.suffix_rfl rfl (fun _ => rfl) .inr (by simp)⟩
  | alloc n =>
    simp only [step,Option.ite_none_right_eq_some,map_eq_some_iff] at taken
    obtain ⟨_,fs,allocated,rfl⟩ := taken
    obtain ⟨_,rfl⟩ := ifTaken allocated
    exact ⟨[],[],plainFlow List.suffix_rfl rfl (fun _ => rfl) (fun _ => .inl ⟨n,rfl⟩) (by simp)⟩
  | ret =>
    simp only [step,Publish.step,Option.bind_eq_some_iff,map_eq_some_iff] at taken
    obtain ⟨x,pending,pub,⟨y,again,fs,logged,rfl⟩,rfl⟩ := taken
    cases pending.symm.trans again
    obtain ⟨z,third,notFull,rfl⟩ := Log.retExact logged
    cases pending.symm.trans third
    exact ⟨[],[x],(List.append_nil _).symm,rfl,by simp [unacked],rfl,fun _ => rfl,fun no => absurd rfl no,
      .inr ⟨rfl,x,rfl,pending,notFull⟩,.inl ⟨rfl,by simp⟩⟩
  | request =>
    simp only [step] at taken
    split at taken <;> try contradiction
    split at taken
    · obtain ⟨r,_,rfl⟩ := map_eq_some_iff.mp taken
      exact ⟨_,[],issueFlow (.inl rfl)⟩
    · cases taken
      exact ⟨[],[],plainFlow List.suffix_rfl rfl (fun _ => rfl) .inr (by simp)⟩
  | fsync =>
    obtain ⟨r,_,rfl⟩ := map_eq_some_iff.mp taken
    exact ⟨_,[],issueFlow (.inr (.inl rfl))⟩
  | load i =>
    obtain ⟨_,rfl⟩ := ifTaken taken
    exact ⟨[],[],plainFlow List.suffix_rfl rfl (fun _ => rfl) .inr (by simp)⟩
  | retry i =>
    simp only [step,Option.bind_eq_some_iff,map_eq_some_iff] at taken
    obtain ⟨_,_,r,_,rfl⟩ := taken
    exact ⟨_,[],issueFlow (.inr (.inr ⟨i,rfl⟩))⟩
  | arrive =>
    obtain ⟨pub,arrived,rfl⟩ := map_eq_some_iff.mp taken
    obtain ⟨flight,batch,sent,rfl,same,_⟩ := Publish.arriveExact arrived
    exact ⟨[],[],plainFlow (same ▸ List.suffix_rfl) rfl (fun _ => rfl) .inr (by simp)⟩
  | ack =>
    obtain ⟨pub,acked,rfl⟩ := map_eq_some_iff.mp taken
    simp only [Publish.step] at acked
    split at acked <;> try contradiction
    rename_i b rest sent
    cases acked
    exact ⟨[],[],plainFlow ⟨b,by simp [unacked,sent]⟩ rfl (fun no => absurd rfl no) .inr (by simp)⟩

end flow

def tx (n : Nat) : List Action := [.alloc n,.ret,.request]
def requested (n : Nat) : List Action := tx n ++ [.arrive]
def times (n : Nat) (as : List Action) : List Action := (List.replicate n as).flatten

def lap : List Action := times 25 (requested maxTransaction) ++ times 4 (tx 1024 ++ requested maxTransaction)

def bothSides : List Action :=
  requested maxTransaction ++ lap ++ ([.ack] : List Action) ++ tx 2 ++
    ([.store maxTransaction,.alloc maxTransaction,.ret,.fsync,.load 0,.retry 0,
    .request,.fsync,.arrive,.arrive] : List Action)

def idleFsync : List Action :=
  requested maxTransaction ++ lap ++ ([.ack,.store maxTransaction] : List Action) ++ requested maxTransaction ++ lap ++
  ([.fsync,.ack] : List Action) ++ tx 2 ++ ([.fsync] : List Action)

def misnamed (s : State) : Bool := s.computed.any fun r => r.txs.head?.any fun x => x.start ≠ r.arg.prefetchStart

end LineFS.Tiling
