import LineFS.MemcpyList
import LineFS.Publish

/-! The memcpy batches of one LibFS on the nodes of its chain. A node sends the lists of the requests
once it holds `hostMemcpyBatchMax`, or when `publish_all_remains` runs on a thread of its own. A
send writes all entries into the slot of the LibFS in the buffer of the host. -/
namespace LineFS.BatchSize
open Base Kernfs Replay MemcpyList
open Log (FsLog DigestResponse Rotates LogFull logAlloc handleDigestResponse)
open Prefetch (PeerMeta PrefetchArg updatePeerSyncState calculatePrefetchMeta)
open Publish (BatchMeta addMemcpyListToBatch storeUptoEnd)

def gMemcpyMetaCnt : Nat := gLogSize

def hostMemcpyBufAddrs (bufStartAddr : Nat) : Nat → Nat
  | 0 => bufStartAddr
  | i + 1 => hostMemcpyBufAddrs bufStartAddr i + gMemcpyMetaCnt

def entryBlks (e : Entry) : Nat := if e.op.isFile then entryBlocks e.length else 1
def hdrBlocks (h : Loghdr) : Nat := (h.entries.map entryBlks).sum + 1
def blocks (hdrs : List Loghdr) : Nat := (hdrs.map hdrBlocks).sum

def Shaped (h : Loghdr) : Prop := ∀ e ∈ h.entries, e.length < gBlockSizeBytes ∨ e.length % gBlockSizeBytes = 0
deriving Decidable

structure Request where
  arg : PrefetchArg
  hdrs : List Loghdr
  deriving DecidableEq

/- `sge` has the lengths of the lists in the batch, `sends` what the calls of
`send_batched_memcpy_req_to_host` found there; `flushes` counts the open calls of `publish_all_remains`. -/
structure Node where
  next : Nat
  batch : BatchMeta
  sge : List Nat
  sending : Bool
  flushes : Nat
  sends : List (List Nat)
  deriving DecidableEq

structure State where
  log : FsLog
  pending : Option Loghdr
  owed : Bool
  peer : PeerMeta
  unreq : List Loghdr
  queue : List Request
  fsyncs : List Request
  issued : List Request
  nodes : List Node
  acks : List DigestResponse
  deriving DecidableEq

inductive Action where
  | alloc (entries : List Entry)
  | ret
  | request
  | fsync
  | drawPlain
  | drawFsync (i : Nat)
  | add (node entries : Nat)
  | sent (node : Nat)
  | publishAllRemains (node : Nat)
  | published (node : Nat)
  | ack

def requestLogFetch (s : State) (isFsync : Bool) : Option (State × Request) :=
  (calculatePrefetchMeta s.log.begin s.log.logEnd s.peer isFsync).map fun r =>
    ({ s with peer := r.1, unreq := s.unreq.drop r.2.nPrefetch },⟨r.2,s.unreq.take r.2.nPrefetch⟩)

def sendBatchedMemcpyReqToHost (d : Node) : Node := { d with sends := d.sends ++ [d.sge] }
def response (m : BatchMeta) : DigestResponse := ⟨m.digestStartBlknr,m.nOrigLoghdrs,m.nOrigBlks,m.resetMeta⟩
def resetSgeRdmaMeta (d : Node) : Node := { d with sge := [], batch := { d.batch with sgeCount := 0 } }

def acked (s : State) (i : Nat) (d : Node) : List DigestResponse := if i = 0 then s.acks ++ [response d.batch] else s.acks

def addList (d : Node) (r : Request) (n : Nat) : Node :=
  { d with next := d.next + 1, batch := addMemcpyListToBatch d.batch r.arg, sge := d.sge ++ [n] }

def step (s : State) : Action → Option State
  | .alloc entries =>
    let n := hdrBlocks ⟨0,entries⟩
    if s.pending = none ∧ s.owed = false ∧ n ≤ maxTransaction ∧ Shaped ⟨0,entries⟩ then
      let r := logAlloc s.log n
      some { s with log := r.1, pending := some ⟨r.2,entries⟩, peer := if Rotates s.log n then storeUptoEnd s.peer else s.peer }
    else none
  | .ret =>
    match s.pending with
    | none => none
    | some h =>
      if LogFull s.log then none
      else some { s with log := Log.commit s.log (hdrBlocks h), pending := none, owed := true,
                         peer := updatePeerSyncState s.peer (hdrBlocks h), unreq := s.unreq ++ [h] }
  | .request =>
    if s.owed then
      if logPrefetchThreshold < s.peer.nUnsyncBlk then
        (requestLogFetch s false).map fun r => { r.1 with owed := false, queue := s.queue ++ [r.2] }
      else some { s with owed := false }
    else none
  | .fsync => (requestLogFetch s true).map fun r => { r.1 with fsyncs := s.fsyncs ++ [r.2] }
  | .drawPlain =>
    match s.queue with
    | [] => none
    | r::rest => some { s with queue := rest, issued := s.issued ++ [r] }
  | .drawFsync i => s.fsyncs[i]?.map fun r => { s with fsyncs := s.fsyncs.eraseIdx i, issued := s.issued ++ [r] }
  | .add i n => do
    let d ← s.nodes[i]?
    let r ← s.issued[d.next]?
    if d.sending then none
    else
      let d := addList d r n
      if d.batch.sgeCount = hostMemcpyBatchMax then
        some { s with nodes := s.nodes.set i { sendBatchedMemcpyReqToHost d with sending := true }, acks := acked s i d }
      else some { s with nodes := s.nodes.set i d }
  | .sent i => do
    let d ← s.nodes[i]?
    if d.sending then some { s with nodes := s.nodes.set i { resetSgeRdmaMeta d with sending := false } } else none
  | .publishAllRemains i => do
    let d ← s.nodes[i]?
    some { s with nodes := s.nodes.set i { sendBatchedMemcpyReqToHost d with flushes := d.flushes + 1 }, acks := acked s i d }
  | .published i => do
    let d ← s.nodes[i]?
    if 0 < d.flushes then some { s with nodes := s.nodes.set i { resetSgeRdmaMeta d with flushes := d.flushes - 1 } } else none
  | .ack =>
    match s.acks with
    | [] => none
    | a::rest => some { s with log := handleDigestResponse s.log a, acks := rest }

def fresh : Node := ⟨0,⟨0,0,0,0,false⟩,[],false,0,[]⟩
def init (logSbBlk nodes : Nat) : State :=
  ⟨Log.initLog logSbBlk,none,false,⟨logSbBlk + 1,0,0,0⟩,[],[],[],[],List.replicate nodes fresh,[]⟩

def Built (s : State) : Action → Prop
  | .add i n => ∀ d r, s.nodes[i]? = some d → s.issued[d.next]? = some r → Lists r.hdrs n
  | _ => True

structure Fits (s : State) : Prop where
  lists : ∀ d ∈ s.nodes, d.batch.sgeCount ≤ hostMemcpyBatchMax
  entries : ∀ d ∈ s.nodes, ∀ sge ∈ d.sends, sge.sum ≤ gMemcpyMetaCnt
  slots : ∀ d ∈ s.nodes, ∀ sge ∈ d.sends, ∀ bufStartAddr libfsId,
    hostMemcpyBufAddrs bufStartAddr libfsId + sge.sum ≤ hostMemcpyBufAddrs bufStartAddr (libfsId + 1)

def perList : Nat := gMemcpyMetaCnt / hostMemcpyBatchMax

/- The committed blocks that no request has taken stay within the share of one list. -/
def Small (s : State) : Action → Prop
  | .alloc entries => blocks s.unreq + hdrBlocks ⟨0,entries⟩ ≤ perList
  | _ => True
instance (s a) : Decidable (Small s a) := by cases a <;> unfold Small <;> infer_instance

structure Sized (hdrs : List Loghdr) : Prop where
  shaped : ∀ h ∈ hdrs, Shaped h
  few : blocks hdrs ≤ perList

structure NodeSized (d : Node) : Prop where
  counted : d.sge.length = d.batch.sgeCount
  most : d.batch.sgeCount ≤ hostMemcpyBatchMax
  room : d.sending = false → d.batch.sgeCount < hostMemcpyBatchMax
  shares : ∀ n ∈ d.sge, n ≤ perList
  sends : ∀ sge ∈ d.sends, sge.length ≤ hostMemcpyBatchMax ∧ ∀ n ∈ sge, n ≤ perList

structure AllSized (s : State) : Prop where
  committed : Sized (s.unreq ++ s.pending.toList)
  requests : ∀ r ∈ s.queue ++ s.fsyncs ++ s.issued, Sized r.hdrs
  nodes : ∀ d ∈ s.nodes, NodeSized d

theorem sizedSublist {xs ys : List Loghdr} (sub : xs.Sublist ys) (h : Sized ys) : Sized xs :=
  ⟨fun x mem => h.shaped x (sub.subset mem),Nat.le_trans ((sub.map _).sum_le_sum fun _ _ => Nat.zero_le _) h.few⟩

theorem shapedCount {length : Nat} (shaped : length < gBlockSizeBytes ∨ length % gBlockSizeBytes = 0) :
    getBlkCntFromLength length = entryBlocks length := by
  unfold getBlkCntFromLength entryBlocks
  split
  · rfl
  · rw [if_neg (not_not.mpr (shaped.resolve_left ‹_›)),Nat.add_zero]

theorem shapedBlocks {h : Loghdr} (shaped : Shaped h) : hdrEntries h ≤ hdrBlocks h := by
  refine Nat.le_succ_of_le (List.sum_le_sum fun e mem => ?_)
  have count := shapedCount (shaped e mem)
  cases type : e.type <;> simp [Entry.op,type,opEntries,entryBlks,Op.isFile,count]

theorem sizedLists {hdrs : List Loghdr} {n : Nat} (h : Sized hdrs) (built : Lists hdrs n) : n ≤ perList := by
  calc n ≤ (hdrs.map hdrEntries).sum := listsBound built
    _ ≤ blocks hdrs := List.sum_le_sum fun x mem => shapedBlocks (h.shaped x mem)
    _ ≤ perList := h.few

theorem sizedFits {s : State} (h : AllSized s) : Fits s := by
  have entries : ∀ d ∈ s.nodes, ∀ sge ∈ d.sends, sge.sum ≤ gMemcpyMetaCnt := by
    intro d mem sge sent
    obtain ⟨short,shares⟩ := (h.nodes d mem).sends sge sent
    calc sge.sum ≤ sge.length * perList := by simpa using List.sum_le_card_nsmul sge perList shares
      _ ≤ hostMemcpyBatchMax * perList := Nat.mul_le_mul_right _ short
      _ ≤ gMemcpyMetaCnt := Nat.mul_div_le _ _
  exact ⟨fun d mem => (h.nodes d mem).most,entries,fun d mem sge sent _ _ => Nat.add_le_add_left (entries d mem sge sent) _⟩

theorem initSized (logSbBlk nodes : Nat) : AllSized (init logSbBlk nodes) := by
  refine ⟨⟨nofun,Nat.zero_le _⟩,nofun,fun d mem => ?_⟩
  cases List.eq_of_mem_replicate mem
  exact ⟨rfl,Nat.zero_le _,fun _ => by decide,nofun,nofun⟩

theorem addSized {d : Node} {n : Nat} (h : NodeSized d) (idle : d.sending = false) (r : Request) (share : n ≤ perList) :
    (addList d r n).sge.length = (addList d r n).batch.sgeCount ∧ (addList d r n).batch.sgeCount ≤ hostMemcpyBatchMax ∧
    ∀ m ∈ (addList d r n).sge, m ≤ perList := by
  have count : (addList d r n).batch.sgeCount = d.batch.sgeCount + 1 := by
    unfold addList addMemcpyListToBatch
    dsimp only
    split <;> rfl
  refine ⟨?_,count ▸ h.room idle,fun m mem => ?_⟩
  · rw [count,← h.counted]
    exact List.length_append
  · rcases memSnoc mem with old | rfl
    · exact h.shares m old
    · exact share

theorem sendSized {d : Node} (counted : d.sge.length = d.batch.sgeCount) (most : d.batch.sgeCount ≤ hostMemcpyBatchMax)
    (shares : ∀ n ∈ d.sge, n ≤ perList) (sends : ∀ sge ∈ d.sends, sge.length ≤ hostMemcpyBatchMax ∧ ∀ n ∈ sge, n ≤ perList) :
    ∀ sge ∈ (sendBatchedMemcpyReqToHost d).sends, sge.length ≤ hostMemcpyBatchMax ∧ ∀ n ∈ sge, n ≤ perList := by
  intro sge mem
  rcases memSnoc mem with old | rfl
  · exact sends sge old
  · exact ⟨counted ▸ most,shares⟩

theorem fetchSized {s : State} {isFsync : Bool} {r : State × Request} (h : AllSized s) (fetched : requestLogFetch s isFsync = some r) :
    Sized (r.1.unreq ++ s.pending.toList) ∧ Sized r.2.hdrs := by
  obtain ⟨q,-,rfl⟩ := Option.map_eq_some_iff.mp fetched
  exact ⟨sizedSublist ((List.drop_sublist _ _).append_right _) h.committed,
    sizedSublist ((List.take_sublist _ _).trans (List.sublist_append_left _ _)) h.committed⟩

theorem fetchKeeps {s : State} {isFsync : Bool} {r : State × Request} (fetched : requestLogFetch s isFsync = some r) :
    r.1.pending = s.pending ∧ (r.1.queue = s.queue ∧ r.1.fsyncs = s.fsyncs ∧ r.1.issued = s.issued) ∧ r.1.nodes = s.nodes := by
  obtain ⟨q,-,rfl⟩ := Option.map_eq_some_iff.mp fetched
  exact ⟨rfl,⟨rfl,rfl,rfl⟩,rfl⟩

section step
variable {s t : State}

section
variable (h : AllSized s)
include h

theorem allocSized {entries} (small : Small s (.alloc entries)) (taken : step s (.alloc entries) = some t) :
    AllSized t := by
  obtain ⟨allowed,rfl⟩ := ifTaken taken
  refine ⟨⟨fun x mem => ?_,?_⟩,h.requests,h.nodes⟩
  · rcases memSnoc mem with old | rfl
    · exact h.committed.shaped x (List.mem_append_left _ old)
    · exact allowed.2.2.2
  · have all : blocks s.unreq + hdrBlocks ⟨0,entries⟩ ≤ perList := small
    simpa [blocks,hdrBlocks] using all

theorem retSized (taken : step s .ret = some t) : AllSized t := by
  simp only [step] at taken
  split at taken <;> try contradiction
  rename_i x held
  obtain ⟨_,rfl⟩ := unlessTaken taken
  exact ⟨by simpa [held] using h.committed,h.requests,h.nodes⟩

theorem joinSized {isFsync : Bool} {r : State × Request} (fetched : requestLogFetch s isFsync = some r)
    (committed : t.unreq ++ t.pending.toList = r.1.unreq ++ s.pending.toList) (nodes : t.nodes = s.nodes)
    (lines : ∀ q ∈ t.queue ++ t.fsyncs ++ t.issued, q = r.2 ∨ q ∈ s.queue ++ s.fsyncs ++ s.issued) : AllSized t := by
  obtain ⟨rest,asked⟩ := fetchSized h fetched
  refine ⟨committed ▸ rest,fun q mem => ?_,nodes ▸ h.nodes⟩
  rcases lines q mem with rfl | old
  · exact asked
  · exact h.requests q old

theorem requestSized (taken : step s .request = some t) : AllSized t := by
  simp only [step] at taken
  split at taken <;> try contradiction
  split at taken
  · obtain ⟨r,fetched,rfl⟩ := Option.map_eq_some_iff.mp taken
    obtain ⟨pending,lines,nodes⟩ := fetchKeeps fetched
    refine joinSized h fetched (by rw [← pending]) nodes fun x mem => ?_
    simp only [List.mem_append,List.mem_singleton,lines] at mem ⊢
    tauto
  · cases taken
    exact ⟨h.committed,h.requests,h.nodes⟩

theorem fsyncSized (taken : step s .fsync = some t) : AllSized t := by
  obtain ⟨r,fetched,rfl⟩ := Option.map_eq_some_iff.mp taken
  obtain ⟨pending,lines,nodes⟩ := fetchKeeps fetched
  refine joinSized h fetched (by rw [← pending]) nodes fun x mem => ?_
  simp only [List.mem_append,List.mem_singleton,lines] at mem ⊢
  tauto

theorem drawPlainSized (taken : step s .drawPlain = some t) : AllSized t := by
  simp only [step] at taken
  split at taken <;> try contradiction
  rename_i r rest line
  cases taken
  refine ⟨h.committed,fun x mem => h.requests x ?_,h.nodes⟩
  simp only [List.mem_append,line,List.mem_cons] at mem ⊢
  tauto

theorem drawFsyncSized {i} (taken : step s (.drawFsync i) = some t) : AllSized t := by
  obtain ⟨r,found,rfl⟩ := Option.map_eq_some_iff.mp taken
  refine ⟨h.committed,fun x mem => h.requests x ?_,h.nodes⟩
  simp only [List.mem_append,List.mem_singleton] at mem ⊢
  rcases mem with (old | old) | (old | rfl)
  · exact .inl (.inl old)
  · exact .inl (.inr (List.mem_of_mem_eraseIdx old))
  · exact .inr old
  · exact .inl (.inr (List.mem_of_getElem? found))

end

theorem nodeSet {nodes : List Node} {i : Nat} {d : Node} (h : ∀ e ∈ nodes, NodeSized e) (new : NodeSized d) :
    ∀ e ∈ nodes.set i d, NodeSized e := by
  intro e mem
  rcases List.mem_or_eq_of_mem_set mem with old | rfl
  · exact h e old
  · exact new

theorem knownSized {i : Nat} {d : Node} (h : AllSized s) (found : s.nodes[i]? = some d) : NodeSized d :=
  h.nodes d (List.mem_of_getElem? found)

theorem resetSized {d e : Node} (h : NodeSized d) (batch : e.batch = (resetSgeRdmaMeta d).batch) (lists : e.sge = [])
    (sends : e.sends = d.sends) : NodeSized e := by
  have none : e.batch.sgeCount = 0 := by rw [batch]; rfl
  refine ⟨by rw [lists,none]; rfl,by rw [none]; exact Nat.zero_le _,fun _ => by rw [none]; decide,?_,sends ▸ h.sends⟩
  rw [lists]
  exact nofun

section
variable (h : AllSized s)
include h

theorem addedSized {i n} (built : Built s (.add i n)) (taken : step s (.add i n) = some t) : AllSized t := by
  obtain ⟨d,found,taken⟩ := Option.bind_eq_some_iff.mp taken
  obtain ⟨r,next,taken⟩ := Option.bind_eq_some_iff.mp taken
  split at taken <;> try contradiction
  rename_i idle
  have share : n ≤ perList := sizedLists (h.requests r (by simp [List.mem_of_getElem? next])) (built d r found next)
  obtain ⟨counted,most,shares⟩ := addSized (knownSized h found) (by simpa using idle) r share
  have sends := (knownSized h found).sends
  dsimp only at taken
  split at taken
  · cases taken
    exact ⟨h.committed,h.requests,nodeSet h.nodes ⟨counted,most,nofun,shares,sendSized counted most shares sends⟩⟩
  · rename_i more
    cases taken
    exact ⟨h.committed,h.requests,nodeSet h.nodes ⟨counted,most,fun _ => Nat.lt_of_le_of_ne most more,shares,sends⟩⟩

theorem sentSized {i} (taken : step s (.sent i) = some t) : AllSized t := by
  obtain ⟨d,found,taken⟩ := Option.bind_eq_some_iff.mp taken
  obtain ⟨_,rfl⟩ := ifTaken taken
  exact ⟨h.committed,h.requests,nodeSet h.nodes (resetSized (knownSized h found) rfl rfl rfl)⟩

theorem publishSized {i} (taken : step s (.publishAllRemains i) = some t) : AllSized t := by
  obtain ⟨d,found,taken⟩ := Option.bind_eq_some_iff.mp taken
  cases taken
  obtain ⟨counted,most,room,shares,sends⟩ := knownSized h found
  exact ⟨h.committed,h.requests,nodeSet h.nodes ⟨counted,most,room,shares,sendSized counted most shares sends⟩⟩

theorem publishedSized {i} (taken : step s (.published i) = some t) : AllSized t := by
  obtain ⟨d,found,taken⟩ := Option.bind_eq_some_iff.mp taken
  obtain ⟨_,rfl⟩ := ifTaken taken
  exact ⟨h.committed,h.requests,nodeSet h.nodes (resetSized (knownSized h found) rfl rfl rfl)⟩

theorem ackSized (taken : step s .ack = some t) : AllSized t := by
  simp only [step] at taken
  split at taken <;> try contradiction
  cases taken
  exact ⟨h.committed,h.requests,h.nodes⟩

theorem stepSized {a : Action} (built : Built s a) (small : Small s a) (taken : step s a = some t) : AllSized t := by
  cases a with
  | alloc entries => exact allocSized h small taken
  | ret => exact retSized h taken
  | request => exact requestSized h taken
  | fsync => exact fsyncSized h taken
  | drawPlain => exact drawPlainSized h taken
  | drawFsync i => exact drawFsyncSized h taken
  | add i n => exact addedSized h built taken
  | sent i => exact sentSized h taken
  | publishAllRemains i => exact publishSized h taken
  | published i => exact publishedSized h taken
  | ack => exact ackSized h taken

end

end step

theorem batchesFit {logSbBlk nodes : Nat} {s : State} (run : Reach step (fun s a => Built s a ∧ Small s a) (init logSbBlk nodes) s) : Fits s :=
  sizedFits (reachInvariant AllSized (initSized logSbBlk nodes) (fun _ _ _ h ok taken => stepSized h ok.1 ok.2 taken) run)

def Whole (s : State) : Action → Prop
  | .add i n => ∀ r ∈ (s.nodes[i]?.bind fun d => s.issued[d.next]?).toList,
      (∀ h ∈ r.hdrs, ∀ e ∈ h.entries, e.type = .file ∧ e.inodeNo = 7) ∧ n = (r.hdrs.map hdrEntries).sum
  | _ => True
instance (s a) : Decidable (Whole s a) := by cases a <;> unfold Whole <;> infer_instance

theorem wholeBuilt (s : State) (a : Action) (h : Whole s a) : Built s a := by
  cases a with
  | add i n =>
    intro d r found next
    obtain ⟨files,rfl⟩ := h r (by simp [found,next])
    exact listsWhole files
  | _ => trivial

def write (blks : Nat) : List Action := [.alloc [⟨.file,7,0,(blks - 1) * gBlockSizeBytes,1⟩],.ret,.request]
def largest : List Action := [.alloc [⟨.file,7,1,4095,1⟩,⟨.file,7,4096,4095 * 4096,2⟩,⟨.file,7,4096 * 4096,1,4097⟩],.ret,.request]

def pair (blks : Nat) : List Action := write blks ++ largest ++ [.drawPlain,.add 0 (blks + 4096)]
def pairs (n blks : Nat) : List Action := (List.replicate n (pair blks)).flatten

theorem batchesFitFull : ∃ s, (s.nodes.map fun d => d.sends.map List.sum) = [[128880],[],[]] ∧ Fits s := by
  obtain ⟨s,reached,sums⟩ : ∃ s, Reach step (fun s a => Whole s a ∧ Small s a) (init 0 3) s ∧
      (s.nodes.map fun d => d.sends.map List.sum) = [[128880],[],[]] :=
    traceReach (pairs hostMemcpyBatchMax 200) (by decide +kernel)
  exact ⟨s,sums,batchesFit (reachWeaken (fun s a ok => ⟨wholeBuilt s a ok.1,ok.2⟩) reached)⟩

def twoLaps : List Action :=
  pairs hostMemcpyBatchMax 200 ++ ([.sent 0,.ack] : List Action) ++ largest ++ ([.drawPlain,.add 0 4097] : List Action) ++ pairs 24 1024 ++
  write 1024 ++ largest ++ ([.drawPlain,.add 0 1023] : List Action) ++ largest ++ ([.drawPlain,.add 0 8194] : List Action) ++ pairs 3 1024

theorem batchLeavesSlot : ¬∀ logSbBlk nodes s, Reach step Built (init logSbBlk nodes) s → Fits s := by
  intro always
  obtain ⟨s,reached,sums⟩ : ∃ s, Reach step Whole (init 0 3) s ∧ (s.nodes.map fun d => d.sends.map List.sum) = [[128880,151554],[],[]] :=
    traceReach twoLaps (by decide +kernel)
  have fits := always 0 3 s (reachWeaken wholeBuilt reached)
  obtain ⟨d,rest,split,sent,-⟩ := List.map_eq_cons_iff.mp sums
  obtain ⟨sge,mem,large⟩ : ∃ sge ∈ d.sends, sge.sum = 151554 := List.mem_map.mp (sent ▸ by simp)
  have := fits.entries d (split ▸ List.mem_cons_self) sge mem
  rw [large] at this
  exact absurd this (by decide)

end LineFS.BatchSize
