import LineFS.Tiling

/-! The counters of outstanding work of one LibFS. `commit_log` adds a transaction to `n_unsync`
and `n_unsync_blk`, requests it, and only then adds it to `n_digest` and `n_digest_blks`, from which
acknowledgements subtract. A subtraction of more than a counter holds wraps it. -/
namespace LineFS.Counters
open Option (ite_none_right_eq_some map_eq_some_iff)
open Base
open Prefetch (PeerMeta PrefetchArg)
open Publish (Request digestResponse fitsCount fitsBlocks unacked)
open Tiling (Tiles Calm Lined Placed calculate calculateLoaded solidTxs linedFits linedSums)

/- `counting` is the transaction still to be added to `n_digest`, `counted` and `acked` those added and
acknowledged so far. -/
structure State where
  fs : Tiling.State
  nDigest : Nat
  nDigestBlks : Nat
  counting : Option Span
  counted : List Span
  acked : List Span
  deriving DecidableEq, Repr

def init (logSbBlk : Nat) : State := ⟨Tiling.init logSbBlk,0,0,none,[],[]⟩

inductive Action where
  | fs (a : Tiling.Action)
  | count
  deriving DecidableEq, Repr

def handleAck (s : State) (b : List Request) : State :=
  { s with nDigest := s.nDigest - (digestResponse b).nDigested
           nDigestBlks := s.nDigestBlks - (digestResponse b).nDigestedBlks
           acked := s.acked ++ b.flatMap Request.txs }

def advance (s : State) : Tiling.Action → State
  | .ret => { s with counting := s.fs.pub.fs.pending }
  | .ack => (s.fs.pub.sent.head?.map (handleAck s)).getD s
  | _ => s

def Allocates : Tiling.Action → Prop
  | .store _ | .alloc _ => True
  | _ => False
instance : (a : Tiling.Action) → Decidable (Allocates a)
  | .store _ | .alloc _ => isTrue trivial
  | .ret | .request | .fsync | .load _ | .retry _ | .arrive | .ack => isFalse not_false

def step (s : State) : Action → Option State
  | .fs a =>
    if Allocates a → s.counting = none then (Tiling.step s.fs a).map fun fs => { advance s a with fs }
    else none
  | .count =>
    match s.counting with
    | none => none
    | some x =>
      if s.fs.pub.owed then none
      else some { s with nDigest := s.nDigest + 1, nDigestBlks := s.nDigestBlks + x.len, counting := none
                         counted := s.counted ++ [x] }

def requested (s : State) : List Span := s.fs.computed.flatMap Request.txs

/- What is committed has been counted in `n_digest`, but for the transaction whose `commit_log` is at its last lines. -/
structure Conserved (s : State) : Prop where
  requests : requested s <+: s.fs.committed
  unsync : s.fs.pub.peer.nUnsync + (requested s).length = s.fs.committed.length
  unsyncBlk : s.fs.pub.peer.nUnsyncBlk + blocks (requested s) = blocks s.fs.committed
  acks : s.acked <+: s.fs.committed
  digest : s.nDigest + s.acked.length + s.counting.toList.length = s.fs.committed.length
  digestBlks : s.nDigestBlks + blocks s.acked + blocks s.counting.toList = blocks s.fs.committed

def Within (p : PeerMeta) (q : PrefetchArg) : Prop := q.nPrefetch ≤ p.nUnsync ∧ q.nPrefetchBlk ≤ p.nUnsyncBlk
deriving Decidable

def Pays (s : State) : Action → Prop
  | .fs .request => logPrefetchThreshold < s.fs.pub.peer.nUnsyncBlk → ∀ r ∈ calculate s.fs false, Within s.fs.pub.peer r.2
  | .fs .fsync => ∀ r ∈ calculate s.fs true, Within s.fs.pub.peer r.2
  | .fs (.retry i) => ∀ a ∈ s.fs.retries[i]?.join, ∀ r ∈ calculateLoaded s.fs.pub.fs.log.begin a s.fs.pub.peer true,
      Within s.fs.pub.peer r.2
  | .fs .ack => ∀ b ∈ s.fs.pub.sent.head?,
      (digestResponse b).nDigested ≤ s.nDigest ∧ (digestResponse b).nDigestedBlks ≤ s.nDigestBlks
  | _ => True

/- An acknowledgement waits until the transactions it covers have been counted. -/
def Timely (s : State) : Action → Prop
  | .fs .ack => ∀ b ∈ s.fs.pub.sent.head?, ∀ x ∈ s.counting, x ∉ b.flatMap Request.txs
  | .fs a => Calm s.fs a
  | .count => True
instance (s a) : Decidable (Timely s a) := by
  rcases a with (_ | _ | _ | _ | _ | _ | _ | _ | _) | _ <;> unfold Timely <;> infer_instance

theorem timelyCalm {s a} (h : Timely s (.fs a)) : Calm s.fs a := by
  cases a with
  | ack => trivial
  | _ => exact h

theorem placedAmounts {c r} (h : Placed c r) : r.arg.nPrefetch = r.txs.length ∧ r.arg.nPrefetchBlk = blocks r.txs := by
  rcases h with group | ⟨empty,_,noBlks,nothing,_⟩
  · exact ⟨group.count,group.blks⟩
  · rw [empty]; exact ⟨nothing,noBlks⟩

theorem ackAmounts {c b} (lined : Lined c b) : (digestResponse b).nDigested = (b.flatMap Request.txs).length ∧
    (digestResponse b).nDigestedBlks = blocks (b.flatMap Request.txs) := by
  obtain ⟨count,blks,_⟩ := linedSums lined
  rw [fitsCount (linedFits lined),solidTxs] at count
  rw [fitsBlocks (linedFits lined),solidTxs] at blks
  cases b with
  | nil => exact ⟨rfl,rfl⟩
  | cons r rs => simp only [digestResponse,Publish.batchMetaCons]; exact ⟨count,blks⟩

structure Counted (logSbBlk : Nat) (s : State) : Prop where
  tiles : Tiles logSbBlk s.fs
  committed : s.fs.committed = s.counted ++ s.counting.toList
  kept : s.fs.committed = s.acked ++ s.fs.pub.fs.live
  covered : s.acked <+: s.counted
  digest : s.nDigest + s.acked.length = s.counted.length
  digestBlks : s.nDigestBlks + blocks s.acked = blocks s.counted
  idle : s.fs.pub.fs.pending ≠ none → s.counting = none

theorem initCounted (logSbBlk : Nat) : Counted logSbBlk (init logSbBlk) :=
  ⟨Tiling.initTiles logSbBlk,rfl,rfl,List.nil_prefix,rfl,rfl,fun _ => rfl⟩

theorem countedConserved {logSbBlk s} (h : Counted logSbBlk s) : Conserved s := by
  have peer : (Tiling.view s.fs).peer.nUnsync = s.fs.pub.peer.nUnsync ∧
      (Tiling.view s.fs).peer.nUnsyncBlk = s.fs.pub.peer.nUnsyncBlk := by
    unfold Tiling.view; split <;> exact ⟨rfl,rfl⟩
  have count := h.tiles.synced.nUnsync
  have blks := h.tiles.synced.nUnsyncBlk
  rw [peer.1,Tiling.viewUnreq] at count
  rw [peer.2,Tiling.viewUnreq] at blks
  refine ⟨h.tiles.cover ▸ List.prefix_append _ _,?_,?_,h.kept ▸ List.prefix_append _ _,?_,?_⟩
  · rw [h.tiles.cover,List.length_append,count,Nat.add_comm]; rfl
  · rw [h.tiles.cover,blocksAppend,blks,Nat.add_comm]; rfl
  · rw [h.committed,List.length_append,h.digest]
  · rw [h.committed,blocksAppend,h.digestBlks]

theorem ackFront {logSbBlk s b rest} (h : Tiles logSbBlk s) (sent : s.pub.sent = b::rest) :
    Lined s.pub.fs.cursor b ∧ s.pub.fs.live = b.flatMap Request.txs ++ (Publish.handled s.pub.fs b).live := by
  have split : unacked s.pub = b ++ (rest.flatten ++ s.pub.batch ++ s.pub.flight) := by simp [unacked,sent]
  have lined := h.lined
  rw [split,Tiling.linedAppend] at lined
  exact ⟨lined.1,(Tiling.ackLive h split).1⟩

theorem ackCovered {logSbBlk s b rest} (h : Counted logSbBlk s) (timely : Timely s (.fs .ack))
    (sent : s.fs.pub.sent = b::rest) : s.acked ++ b.flatMap Request.txs <+: s.counted := by
  obtain ⟨_,live⟩ := ackFront h.tiles sent
  have all := h.committed
  rw [h.kept,live,← List.append_assoc] at all
  have whole : s.acked ++ b.flatMap Request.txs <+: s.counted ++ s.counting.toList := ⟨_,all⟩
  cases uncounted : s.counting with
  | none => simpa [uncounted] using whole
  | some x =>
    have absent := timely b (by simp [sent]) x uncounted
    rw [uncounted,Option.toList_some,List.prefix_concat_iff] at whole
    rcases whole with full | inside
    · -- The last transaction would be among those acknowledged before, which are counted.
      obtain ⟨more,split⟩ := h.covered
      rw [← split,List.append_assoc] at full
      have same := List.append_cancel_left full
      exact absurd (same ▸ List.mem_append_right more (.head _)) absent
    · exact inside

theorem ackTotals {logSbBlk s b rest} (h : Counted logSbBlk s) (timely : Timely s (.fs .ack)) (sent : s.fs.pub.sent = b::rest) :
    ∃ more, s.acked ++ b.flatMap Request.txs ++ more = s.counted ∧
    s.nDigest = (digestResponse b).nDigested + more.length ∧ s.nDigestBlks = (digestResponse b).nDigestedBlks + blocks more := by
  obtain ⟨count,blks⟩ := ackAmounts (ackFront h.tiles sent).1
  obtain ⟨more,split⟩ := ackCovered h timely sent
  have digest := h.digest
  have digestBlks := h.digestBlks
  rw [← split] at digest digestBlks
  simp only [List.length_append,blocksAppend] at digest digestBlks
  exact ⟨more,split,by omega,by omega⟩

theorem stepCounted {logSbBlk s a t} (h : Counted logSbBlk s) (timely : Timely s a) (taken : step s a = some t) :
    Counted logSbBlk t := by
  cases a with
  | count =>
    simp only [step] at taken
    split at taken <;> try contradiction
    rename_i x held
    obtain ⟨_,rfl⟩ := unlessTaken taken
    have committed := h.committed
    have digest := h.digest
    have blks := h.digestBlks
    refine ⟨h.tiles,?_,h.kept,h.covered.trans (List.prefix_append _ _),?_,?_,fun _ => rfl⟩
    · simpa [held] using committed
    · simp only [List.length_append,List.length_singleton]; omega
    · simp only [blocksAppend,blocksCons,blocksNil]; omega
  | fs a =>
    simp only [step,ite_none_right_eq_some,map_eq_some_iff] at taken
    obtain ⟨free,fs,moved,rfl⟩ := taken
    have tiles := Tiling.stepTiles h.tiles (timelyCalm timely) moved
    by_cases commits : a = .ret
    · subst commits
      simp only [Tiling.step,Option.bind_eq_some_iff,map_eq_some_iff] at moved
      obtain ⟨x,pending,pub,returned,rfl⟩ := moved
      simp only [Publish.step,Option.bind_eq_some_iff,map_eq_some_iff] at returned
      obtain ⟨y,again,log,logged,rfl⟩ := returned
      obtain ⟨z,third,_,rfl⟩ := Log.retExact logged
      cases pending.symm.trans third
      have none := h.idle (by simp [pending])
      have committed := h.committed
      rw [none,Option.toList_none,List.append_nil] at committed
      refine ⟨tiles,?_,?_,h.covered,h.digest,h.digestBlks,fun no => absurd rfl no⟩
      · simp [advance,pending,committed]
      · simp [advance,h.kept]
    · by_cases acks : a = .ack
      · subst acks
        obtain ⟨pub,acked,rfl⟩ := map_eq_some_iff.mp moved
        simp only [Publish.step] at acked
        split at acked <;> try contradiction
        rename_i b rest sent
        cases acked
        obtain ⟨lined,live⟩ := ackFront h.tiles sent
        obtain ⟨count,blks⟩ := ackAmounts lined
        obtain ⟨more,split,digest,digestBlks⟩ := ackTotals h timely sent
        simp only [advance,sent,List.head?_cons,Option.map_some,Option.getD_some,handleAck]
        refine ⟨tiles,h.committed,?_,⟨more,split⟩,?_,?_,h.idle⟩
        · rw [List.append_assoc,← live]; exact h.kept
        · simp only [← split,List.length_append]; omega
        · simp only [← split,blocksAppend]; omega
      · obtain ⟨rs,returned,flow⟩ := Tiling.stepFlow moved
        have none : returned = [] := flow.returns.resolve_right fun ret => commits ret.1
        have same : advance s a = s := by cases a <;> simp_all [advance]
        have committed := flow.committed
        have live := flow.live acks
        rw [none,List.append_nil] at committed live
        rw [same]
        refine ⟨tiles,committed.trans h.committed,?_,h.covered,h.digest,h.digestBlks,fun held => ?_⟩
        · rw [live]; exact committed.trans h.kept
        · rcases flow.pending held with ⟨n,rfl⟩ | before
          · exact free trivial
          · exact h.idle before

theorem calculateWithin {logSbBlk s isFsync r} (h : Tiles logSbBlk s) (settled : s.storing = none) (useful : ¬Tiling.Idle s)
    (calculated : calculate s isFsync = some r) : Within s.pub.peer r.2 := by
  obtain ⟨g,rest,split,_,placed,_⟩ := Tiling.calculatePlaced h settled useful calculated
  obtain ⟨count,blks⟩ := placedAmounts placed
  have nUnsync := h.synced.nUnsync
  have nUnsyncBlk := h.synced.nUnsyncBlk
  rw [Tiling.viewPeer settled,Tiling.viewUnreq,split] at nUnsync nUnsyncBlk
  rw [List.length_append] at nUnsync
  rw [blocksAppend] at nUnsyncBlk
  exact ⟨by simp only at count; omega,by simp only at blks; omega⟩

theorem stepPays {logSbBlk s a t} (h : Counted logSbBlk s) (timely : Timely s a) (taken : step s a = some t) : Pays s a := by
  cases a with
  | count => trivial
  | fs a =>
    simp only [step,ite_none_right_eq_some,map_eq_some_iff] at taken
    obtain ⟨_,fs,moved,_⟩ := taken
    cases a with
    | request =>
      intro many r calculated
      simp only [Tiling.step] at moved
      split at moved <;> try contradiction
      have settled := Tiling.owedSettled h.tiles ‹_›
      exact calculateWithin h.tiles settled (Tiling.manyUseful h.tiles settled many) calculated
    | fsync => exact fun r calculated => calculateWithin h.tiles timely.1 timely.2 calculated
    | retry i =>
      obtain ⟨settled,useful,fresh⟩ := timely
      intro a loaded r calculated
      rw [fresh] at loaded
      cases loaded
      exact calculateWithin h.tiles settled useful ((Tiling.calculateLoadedFresh ..).symm.trans calculated)
    | ack =>
      intro b front
      obtain ⟨rest,sent⟩ := List.head?_eq_some_iff.mp front
      obtain ⟨more,_,digest,digestBlks⟩ := ackTotals h timely sent
      exact ⟨by omega,by omega⟩
    | _ => trivial

theorem timelyCounted {logSbBlk s} (reached : Reach step Timely (init logSbBlk) s) : Counted logSbBlk s :=
  reachInvariant (Counted logSbBlk) (initCounted logSbBlk) (fun _ _ _ => stepCounted) reached

def uncounted (n : Nat) : List Action := [.fs (.alloc n),.fs .ret,.fs .request,.fs .arrive]
def committed (k n : Nat) : List Action := (List.replicate k (uncounted n ++ [.count])).flatten

end LineFS.Counters
