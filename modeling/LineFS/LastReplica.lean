import LineFS.Rsync

/-! Digest requests at the last replica of the host-only build. A request may arrive before its blocks.
`wait_rsync_done` holds it back: it compares the end of the range with `local_start` and the lap of that end
with `avail_version`, which `handle_replicate_msg` stores one after the other, without a lock. -/
namespace LineFS.LastReplica
open Base Log Rsync

structure Request where
  digestBlkno : Nat
  endBlkno : Nat
  digestCount : Nat
  digestBlkCount : Nat
  lap : Nat
  deriving DecidableEq, Repr

def wrapAroundedBlknr (startBlknr blkCnt logStartBlknr logEndBlknr : Nat) : Nat :=
  startBlknr + blkCnt - 1 - (logEndBlknr - logStartBlknr + 1)

def waitFor (startBlkno startVersion : Nat) (r : Request) : Nat × Nat :=
  if r.endBlkno ≠ 0 ∧ r.endBlkno < r.digestBlkno + r.digestBlkCount - 1 then
    (wrapAroundedBlknr r.digestBlkno r.digestBlkCount startBlkno r.endBlkno,startVersion + 1)
  else (r.digestBlkno + r.digestBlkCount - 1,startVersion)

inductive Phase where
  | sent
  | waiting (digestEnd endVersion : Nat)
  | loaded (digestEnd endVersion rsyncStart : Nat)
  | digesting
  | digested (next : Nat) (rotated : Bool)
  deriving DecidableEq, Repr

/- A replicate message is the span of the log it ships; `flight` holds those on their way, `handled` those
that arrived, in the order in which the threads of the pool took them. `storing` counts the threads between
the two stores for a message that begins a lap. -/
structure State where
  logSbBlk : Nat
  libfs : Peer
  replica : Peer
  flight : List Span
  handled : List Span
  storing : Nat
  request : Option (Request × Phase)

def State.begin (s : State) : Nat := s.logSbBlk + 1
def State.size (s : State) : Nat := s.logSbBlk + gLogSize
def State.origin (s : State) : Span := ⟨s.begin,0,0⟩
def State.shipped (s : State) : List Span := s.handled ++ s.flight

def init (logSbBlk : Nat) : State :=
  ⟨logSbBlk,initPeer (initLog logSbBlk),initPeer (initLog logSbBlk),[],[],0,none⟩

inductive Action where
  | send (nLogBlks : Nat)
  | rotate (nLogBlks : Nat)
  | handle (i : Nat)
  | store
  | request (digestCount digestBlkCount : Nat)
  | arrive
  | loadStart
  | loadAvail
  | digest (headers : Nat → Header)
  | notify

def step (s : State) : Action → Option State
  | .send n =>
    if 0 < n ∧ s.libfs.remoteStart + n ≤ s.size then
      some { s with
        libfs := moved s.libfs (s.libfs.remoteStart + n) 0
        flight := s.flight ++ [⟨s.libfs.remoteStart,n,s.libfs.availVersion⟩] }
    else none
  | .rotate n =>
    if s.size < s.libfs.remoteStart + n ∧ s.begin + n ≤ s.size then
      some { s with
        libfs := moved s.libfs (s.begin + n) (s.libfs.remoteStart - 1)
        flight := s.flight ++ [⟨s.begin,n,s.libfs.availVersion + 1⟩] }
    else none
  | .handle i =>
    s.flight[i]?.map fun x =>
      if s.size < s.replica.localStart + x.len then
        { s with
          replica := { s.replica with localStart := s.begin + x.len }
          storing := s.storing + 1, flight := s.flight.eraseIdx i, handled := s.handled ++ [x] }
      else
        { s with
          replica := { s.replica with localStart := s.replica.localStart + x.len }
          flight := s.flight.eraseIdx i, handled := s.handled ++ [x] }
  | .store =>
    if 0 < s.storing then
      some { s with replica := { s.replica with availVersion := s.replica.availVersion + 1 }, storing := s.storing - 1 }
    else none
  | .request n k =>
    match s.request with
    | none => some { s with request := some (⟨s.libfs.startDigest,s.libfs.remoteEnd,n,k,s.libfs.startVersion⟩,.sent) }
    | some _ => none
  | .arrive =>
    match s.request with
    | some (r,.sent) =>
      let w := waitFor s.begin s.replica.startVersion r
      some { s with request := some (r,.waiting w.1 w.2) }
    | _ => none
  | .loadStart =>
    match s.request with
    | some (r,.waiting e v) => some { s with request := some (r,.loaded e v s.replica.localStart) }
    | _ => none
  | .loadAvail =>
    match s.request with
    | some (r,.loaded e v rsyncStart) =>
      if v = s.replica.availVersion ∧ e < rsyncStart ∨ v < s.replica.availVersion then
        some { s with request := some (r,.digesting) }
      else some { s with request := some (r,.waiting e v) }
    | _ => none
  | .digest headers =>
    match s.request with
    | some (r,.digesting) =>
      (digestLogs headers s.begin r.endBlkno r.digestCount r.digestBlkno false).map fun o =>
        { s with
          replica := updatePeerDigestState s.replica o.1 o.2
          request := some (r,.digested o.1 o.2) }
    | _ => none
  | .notify =>
    match s.request with
    | some (_,.digested next rotated) => some { s with libfs := updatePeerDigestState s.libfs next rotated, request := none }
    | _ => none

def blockOf (startBlkno : Nat) (r : Request) (i : Nat) : Nat × Nat :=
  if r.endBlkno ≠ 0 ∧ r.endBlkno < r.digestBlkno + i then
    (r.lap + 1,r.digestBlkno + i - (r.endBlkno - startBlkno + 1))
  else (r.lap,r.digestBlkno + i)

def Received (handled : List Span) (p : Nat × Nat) : Prop := ∃ x ∈ handled, x.lap = p.1 ∧ x.start ≤ p.2 ∧ p.2 < x.stop
deriving Decidable

def Sound (s : State) : Prop :=
  ∀ r, s.request = some (r,.digesting) → ∀ i < r.digestBlkCount, Received s.handled (blockOf s.begin r i)

def reading (s : State) : Bool :=
  match s.request with
  | some (_,.loaded _ _ _) => true
  | _ => false

/- LibFS begins a lap at the peer only when the peer has digested the lap before the current one to its end.
The messages are handled in the order sent, one after the other; one that begins a lap is not handled between
the two loads of `wait_rsync_done`. -/
def Steady (s : State) : Action → Prop
  | .rotate _ => s.libfs.startVersion = s.libfs.availVersion ∧
      ∀ q ∈ s.request, q.1.endBlkno = 0 → q.1.digestBlkno + q.1.digestBlkCount ≤ s.libfs.remoteStart
  | .handle i => i = 0 ∧ s.storing = 0 ∧ ∀ x ∈ s.flight.head?, s.size < s.replica.localStart + x.len → reading s = false
  | .send _ | .store | .request _ _ | .arrive | .loadStart | .loadAvail | .digest _ | .notify => True
instance (s a) : Decidable (Steady s a) := by cases a <;> unfold Steady <;> infer_instance

theorem handleExact {s t : State} (h : step s (.handle 0) = some t) : ∃ x rest, s.flight = x::rest ∧
    (s.size < s.replica.localStart + x.len ∧
      t = { s with
        replica := { s.replica with localStart := s.begin + x.len }
        storing := s.storing + 1, flight := rest, handled := s.handled ++ [x] } ∨
    s.replica.localStart + x.len ≤ s.size ∧
      t = { s with
        replica := { s.replica with localStart := s.replica.localStart + x.len }
        flight := rest, handled := s.handled ++ [x] }) := by
  obtain ⟨x,first,rfl⟩ := Option.map_eq_some_iff.mp h
  obtain ⟨rest,held⟩ := List.head?_eq_some_iff.mp (List.head?_eq_getElem?.trans first)
  refine ⟨x,rest,held,?_⟩
  split
  · exact .inl ⟨‹_›,by simp [held]⟩
  · exact .inr ⟨Nat.le_of_not_lt ‹_›,by simp [held]⟩

structure Shipped (s : State) : Prop where
  chain : (s.origin::s.shipped).IsChain (Follows s.begin s.size)
  inside : ∀ x ∈ s.origin::s.shipped, s.begin ≤ x.start ∧ x.stop ≤ s.size
  here : s.replica.localStart = (s.handled.getLastD s.origin).stop
  avail : s.replica.availVersion + s.storing = (s.handled.getLastD s.origin).lap
  there : s.libfs.remoteStart = (s.shipped.getLastD s.origin).stop
  version : s.libfs.availVersion = (s.shipped.getLastD s.origin).lap

def Marked (s : State) : Prop :=
  s.libfs.startVersion = s.libfs.availVersion ∧ s.libfs.remoteEnd = 0 ∨
  s.libfs.startVersion + 1 = s.libfs.availVersion ∧ s.begin ≤ s.libfs.remoteEnd ∧
    ∃ x ∈ s.origin::s.shipped, x.lap = s.libfs.startVersion ∧ x.stop = s.libfs.remoteEnd + 1

def Asked (s : State) (r : Request) : Prop :=
  r.lap = s.libfs.startVersion ∧ r.digestBlkno = s.libfs.startDigest ∧
  (r.endBlkno = 0 ∧ s.libfs.startVersion = s.libfs.availVersion ∨
   s.libfs.startVersion + 1 = s.libfs.availVersion ∧ ∃ x ∈ s.origin::s.shipped, x.lap = r.lap ∧
    (r.endBlkno = 0 ∧ r.digestBlkno + r.digestBlkCount ≤ x.stop ∨ s.begin ≤ r.endBlkno ∧ x.stop = r.endBlkno + 1))

def Level (s : State) : Prop :=
  s.replica.startVersion = s.libfs.startVersion ∧ s.replica.startDigest = s.libfs.startDigest

def Placed (s : State) (r : Request) : Phase → Prop
  | .sent => Level s
  | .waiting e v => Level s ∧ waitFor s.begin r.lap r = (e,v)
  | .loaded e v rsyncStart => Level s ∧ waitFor s.begin r.lap r = (e,v) ∧ rsyncStart ≤ s.replica.localStart
  | .digesting => Level s ∧ ∀ i < r.digestBlkCount, Received s.handled (blockOf s.begin r i)
  | .digested next rotated =>
    s.replica.startVersion = (updatePeerDigestState s.libfs next rotated).startVersion ∧
    s.replica.startDigest = (updatePeerDigestState s.libfs next rotated).startDigest ∧
    s.begin ≤ next ∧ (r.endBlkno = 0 → rotated = false ∧ r.digestBlkno ≤ next)

structure Kept (s : State) : Prop extends Shipped s where
  low : s.begin ≤ s.libfs.startDigest
  marked : Marked s
  idle : s.request = none → Level s
  asked : ∀ r p, s.request = some (r,p) → Asked s r ∧ Placed s r p

theorem initKept (logSbBlk : Nat) : Kept (init logSbBlk) := by
  refine { chain := ?_, inside := ?_, here := rfl, avail := rfl, there := rfl, version := rfl, low := ?_,
           marked := .inl ⟨rfl,rfl⟩, idle := fun _ => ⟨rfl,rfl⟩, asked := ?_ }
  · simp [init,State.shipped]
  · simp [init,State.shipped,State.origin,State.begin,State.size,Span.stop,gLogSize]
  · exact Nat.le_refl _
  · simp [init]

section received
variable {s : State} {x : Span} {b : Nat}

theorem handledChain (h : Shipped s) : (s.origin::s.handled).IsChain (Follows s.begin s.size) := by
  have chain := h.chain
  rw [State.shipped,← List.cons_append] at chain
  exact chain.left_of_append

theorem receivedBelow (h : Shipped s) (mem : x ∈ s.origin::s.handled) (low : s.begin ≤ b) (below : b < x.stop) :
    Received s.handled (x.lap,b) := by
  rcases laidBelow (handledChain h) mem low below with ⟨y,here,lap,start,stop⟩ | ⟨_,before⟩
  · rcases List.mem_cons.mp here with rfl | later
    · simp only [State.origin,Span.stop] at start stop
      omega
    · exact ⟨y,later,lap,start,stop⟩
  · simp only [State.origin] at before
    omega

theorem lapHandled (h : Shipped s) (mem : x ∈ s.origin::s.shipped) (ahead : x.lap < (s.handled.getLastD s.origin).lap) :
    x ∈ s.origin::s.handled := by
  rcases List.mem_cons.mp mem with rfl | later
  · exact .head _
  · rcases List.mem_append.mp later with done | flying
    · exact .tail _ done
    · have before := laidFirst (laidRest h.chain) flying
      simp only [Before] at before
      omega

theorem handledLap (h : Shipped s) : (s.handled.getLastD s.origin).lap ≤ s.libfs.availVersion := by
  rw [h.version]
  refine laidLapLe h.chain (List.mem_cons.mpr ?_)
  exact (List.mem_cons.mp (@lastMem s.origin s.handled)).imp id (List.mem_append_left s.flight)

theorem oldReceived (h : Kept s) {r : Request} {i : Nat} (asked : Asked s r) (counted : i < r.digestBlkCount)
    (ahead : r.lap < (s.handled.getLastD s.origin).lap) (within : ¬(r.endBlkno ≠ 0 ∧ r.endBlkno < r.digestBlkno + i)) :
    Received s.handled (r.lap,r.digestBlkno + i) := by
  obtain ⟨lap,blkno,kind⟩ := asked
  have low : s.begin ≤ r.digestBlkno := blkno ▸ h.low
  have high := handledLap h.toShipped
  rcases kind with ⟨_,level⟩ | ⟨_,x,mem,same,bound⟩
  · omega
  · have positive : 0 < s.begin := Nat.succ_pos _
    rw [← same]
    exact receivedBelow h.toShipped (lapHandled h.toShipped mem (same ▸ ahead)) (by omega) (by omega)

theorem passReceived (h : Kept s) {r : Request} {e v rsyncStart i : Nat} (asked : Asked s r)
    (range : waitFor s.begin r.lap r = (e,v)) (loaded : rsyncStart ≤ s.replica.localStart)
    (pass : v = s.replica.availVersion ∧ e < rsyncStart ∨ v < s.replica.availVersion) (counted : i < r.digestBlkCount) :
    Received s.handled (blockOf s.begin r i) := by
  have here := h.here
  have avail := h.avail
  have high := handledLap h.toShipped
  have low : s.begin ≤ r.digestBlkno := asked.2.1 ▸ h.low
  have lead : s.libfs.availVersion ≤ r.lap + 1 := by
    rw [asked.1]
    rcases h.marked with ⟨level,_⟩ | ⟨next,_⟩ <;> omega
  have mark : r.endBlkno ≠ 0 → s.begin ≤ r.endBlkno := by
    intro set
    rcases asked.2.2 with ⟨none,_⟩ | ⟨_,x,_,_,⟨none,_⟩ | ⟨above,_⟩⟩
    · exact absurd none set
    · exact absurd none set
    · exact above
  have current : ∀ b, (s.handled.getLastD s.origin).lap = v → s.begin ≤ b → b ≤ e → Received s.handled (v,b) := by
    intro b same start stop
    rw [← same]
    exact receivedBelow h.toShipped lastMem start (by omega)
  unfold waitFor at range
  unfold blockOf
  split at range
  · rename_i wraps
    obtain ⟨rfl,rfl⟩ := Prod.mk.inj range
    split
    · rename_i behind
      have above := mark behind.1
      refine current _ (by omega) ?_ ?_
      · omega
      · unfold wrapAroundedBlknr
        omega
    · rename_i within
      exact oldReceived h asked counted (by omega) within
  · rename_i straight
    obtain ⟨rfl,rfl⟩ := Prod.mk.inj range
    have within : ¬(r.endBlkno ≠ 0 ∧ r.endBlkno < r.digestBlkno + i) := by omega
    rw [if_neg within]
    by_cases same : (s.handled.getLastD s.origin).lap = r.lap
    · exact current _ same (by omega) (by omega)
    · exact oldReceived h asked counted (by omega) within

end received

theorem walkLow {headers : Nat → Header} {lo stop n current next : Nat} {turned rotated : Bool} (low : lo ≤ current)
    (walked : digestLogs headers lo stop n current turned = some (next,rotated)) :
    lo ≤ next ∧ (stop = 0 → 0 < lo → rotated = turned ∧ current ≤ next) := by
  induction n generalizing current turned with
  | zero =>
    obtain ⟨rfl,rfl⟩ := Prod.mk.inj (Option.some.inj walked)
    exact ⟨low,fun _ _ => ⟨rfl,Nat.le_refl _⟩⟩
  | succ n ih =>
    simp only [digestLogs] at walked
    split at walked <;> try contradiction
    have above : lo ≤ nextLoghdrBlknr current (headers current).nrLogBlocks lo stop := by
      unfold nextLoghdrBlknr
      split <;> omega
    obtain ⟨least,straight⟩ := ih above walked
    refine ⟨least,fun none positive => ?_⟩
    have onward : current ≤ nextLoghdrBlknr current (headers current).nrLogBlocks lo stop := by
      unfold nextLoghdrBlknr
      split <;> omega
    obtain ⟨same,rest⟩ := straight none positive
    rw [same,decide_eq_false (Nat.not_lt.mpr onward),Bool.or_false]
    exact ⟨rfl,Nat.le_trans onward rest⟩

section kept
variable {s t : State} {r : Request} {p : Phase}

variable {x : Span} {rest : List Span}

theorem shippedMore {q : Peer} : State.shipped { s with libfs := q, flight := s.flight ++ [x] } = s.shipped ++ [x] := by
  simp [State.shipped]

theorem shipMore (h : Shipped s) {q : Peer} (next : Follows s.begin s.size (s.shipped.getLastD s.origin) x)
    (inside : s.begin ≤ x.start ∧ x.stop ≤ s.size) (there : q.remoteStart = x.stop) (version : q.availVersion = x.lap) :
    Shipped { s with libfs := q, flight := s.flight ++ [x] } := by
  refine ⟨?_,?_,h.here,h.avail,?_,?_⟩
  · rw [shippedMore]
    exact laidSnoc h.chain next
  · rw [shippedMore]
    intro y mem
    rcases List.mem_cons.mp mem with rfl | later
    · exact h.inside _ (.head _)
    · rcases memSnoc later with old | rfl
      · exact h.inside y (.tail _ old)
      · exact inside
  · rw [shippedMore,lastAppend]
    exact there
  · rw [shippedMore,lastAppend]
    exact version

theorem updateVersion (q : Peer) (next rotated) : (updatePeerDigestState q next rotated).startVersion =
    if (rotated || decide (next < q.startDigest)) = true then q.startVersion + 1 else q.startVersion := by
  simp only [updatePeerDigestState]
  by_cases turned : (rotated || decide (next < q.startDigest)) = true
  · rw [if_pos turned,if_pos turned]
  · rw [if_neg turned,if_neg turned]

theorem updateDigest (q : Peer) (next rotated) : (updatePeerDigestState q next rotated).startDigest = next := by
  simp only [updatePeerDigestState]
  split <;> rfl

theorem placedSame (placed : Placed s r p) (sb : t.logSbBlk = s.logSbBlk) (version : t.libfs.startVersion = s.libfs.startVersion)
    (digest : t.libfs.startDigest = s.libfs.startDigest) (there : t.replica.startVersion = s.replica.startVersion)
    (here : t.replica.startDigest = s.replica.startDigest) (handled : s.handled ⊆ t.handled)
    (start : (∃ e v n, p = .loaded e v n) → s.replica.localStart ≤ t.replica.localStart) : Placed t r p := by
  have begin : t.begin = s.begin := congrArg (· + 1) sb
  have level : Level t ↔ Level s := by rw [Level,Level,version,digest,there,here]
  cases p with
  | sent => exact level.mpr placed
  | waiting e v => exact ⟨level.mpr placed.1,begin ▸ placed.2⟩
  | loaded e v n => exact ⟨level.mpr placed.1,begin ▸ placed.2.1,Nat.le_trans placed.2.2 (start ⟨e,v,n,rfl⟩)⟩
  | digesting =>
    refine ⟨level.mpr placed.1,fun i counted => ?_⟩
    obtain ⟨x,mem,found⟩ := placed.2 i counted
    rw [begin]
    exact ⟨x,handled mem,found⟩
  | digested next rotated =>
    obtain ⟨first,second,rest⟩ := placed
    rw [updateVersion] at first
    rw [updateDigest] at second
    refine ⟨?_,?_,begin ▸ rest⟩
    · rw [updateVersion,there,version,digest,first]
    · rw [updateDigest,here,second]

theorem moreShipped {y : Span} (mem : y ∈ s.origin::s.shipped) {q : Peer} :
    y ∈ s.origin::State.shipped { s with libfs := q, flight := s.flight ++ [x] } := by
  rw [shippedMore]
  exact List.mem_cons.mpr ((List.mem_cons.mp mem).imp id (List.mem_append_left _))

theorem sendKept {n} (h : Kept s) (taken : step s (.send n) = some t) : Kept t := by
  obtain ⟨⟨positive,fits⟩,rfl⟩ := ifTaken taken
  have begun : s.begin ≤ s.libfs.remoteStart := by
    rw [h.there]
    exact Nat.le_trans (h.inside _ lastMem).1 (Nat.le_add_right _ _)
  have shipped : Shipped { s with
      libfs := moved s.libfs (s.libfs.remoteStart + n) 0
      flight := s.flight ++ [⟨s.libfs.remoteStart,n,s.libfs.availVersion⟩] } :=
    shipMore h.toShipped (.inl ⟨h.version,h.there⟩) ⟨begun,fits⟩ rfl rfl
  refine { toShipped := shipped, low := h.low, marked := ?_, idle := h.idle, asked := fun r p held => ?_ }
  · refine h.marked.imp id fun ⟨next,set,x,mem,found⟩ => ⟨next,set,x,moreShipped mem,found⟩
  · obtain ⟨⟨lap,blkno,kind⟩,placed⟩ := h.asked r p held
    refine ⟨⟨lap,blkno,kind.imp id fun ⟨next,x,mem,found⟩ => ⟨next,x,moreShipped mem,found⟩⟩,?_⟩
    exact placedSame placed rfl rfl rfl rfl rfl (List.Subset.refl _) fun _ => Nat.le_refl _

theorem rotateKept {n} (h : Kept s) (steady : Steady s (.rotate n)) (taken : step s (.rotate n) = some t) : Kept t := by
  obtain ⟨⟨full,fits⟩,rfl⟩ := ifTaken taken
  obtain ⟨level,ranges⟩ := steady
  have above : s.begin ≤ s.libfs.remoteStart - 1 := by omega
  have set : s.libfs.remoteStart - 1 ≠ 0 := by
    simp only [State.begin] at above
    omega
  have stop : (s.shipped.getLastD s.origin).stop = s.libfs.remoteStart - 1 + 1 := by
    rw [← h.there]
    omega
  have avail : (moved s.libfs (s.begin + n) (s.libfs.remoteStart - 1)).availVersion = s.libfs.availVersion + 1 := if_neg set
  have mark : (moved s.libfs (s.begin + n) (s.libfs.remoteStart - 1)).remoteEnd = s.libfs.remoteStart - 1 := if_neg set
  have shipped : Shipped { s with
      libfs := moved s.libfs (s.begin + n) (s.libfs.remoteStart - 1)
      flight := s.flight ++ [⟨s.begin,n,s.libfs.availVersion + 1⟩] } :=
    shipMore h.toShipped (.inr ⟨congrArg (· + 1) h.version,rfl,h.there ▸ full⟩) ⟨Nat.le_refl _,fits⟩ rfl avail
  refine { toShipped := shipped, low := h.low, marked := .inr ⟨?_,?_,_,moreShipped (s := s) lastMem,?_,?_⟩, idle := h.idle,
           asked := fun r p held => ?_ }
  · rw [avail]
    exact congrArg (· + 1) level
  · rw [mark]
    exact above
  · rw [← h.version]
    exact level.symm
  · rw [mark]
    exact stop
  · obtain ⟨⟨lap,blkno,kind⟩,placed⟩ := h.asked r p held
    refine ⟨⟨lap,blkno,.inr ⟨by rw [avail]; exact congrArg (· + 1) level,_,moreShipped (s := s) lastMem,?_,.inl ?_⟩⟩,?_⟩
    · rw [← h.version,lap]
      exact level.symm
    · rcases kind with ⟨none,_⟩ | ⟨next,_⟩
      · refine ⟨none,?_⟩
        rw [← h.there]
        exact ranges _ held none
      · omega
    · exact placedSame placed rfl rfl rfl rfl rfl (List.Subset.refl _) fun _ => Nat.le_refl _

theorem handleShipped (h : Shipped s) (held : s.flight = x::rest) (idle : s.storing = 0) :
    (s.size < s.replica.localStart + x.len → s.begin + x.len = x.stop ∧ s.replica.availVersion + 1 = x.lap) ∧
    (s.replica.localStart + x.len ≤ s.size → s.replica.localStart + x.len = x.stop ∧ s.replica.availVersion = x.lap) := by
  have here := h.here
  have avail := h.avail
  rw [idle,Nat.add_zero] at avail
  have next := laidRest h.chain
  rw [held] at next
  have inside := h.inside x (.tail _ (List.mem_append_right _ (by rw [held]; exact .head _)))
  rcases (List.isChain_cons_cons.mp next).1 with ⟨lap,start⟩ | ⟨lap,start,full⟩
  · simp only [Span.stop] at *
    exact ⟨fun wraps => by omega,fun _ => ⟨by omega,by omega⟩⟩
  · rw [← here] at full
    exact ⟨fun _ => ⟨by rw [Span.stop,start],by omega⟩,fun fits => by omega⟩

theorem handledShipped (h : Shipped s) {q : Peer} {storing : Nat} (held : s.flight = x::rest)
    (start : q.localStart = x.stop) (avail : q.availVersion + storing = x.lap) :
    Shipped { s with replica := q, storing, flight := rest, handled := s.handled ++ [x] } ∧
    State.shipped { s with replica := q, storing, flight := rest, handled := s.handled ++ [x] } = s.shipped := by
  have spans : State.shipped { s with replica := q, storing, flight := rest, handled := s.handled ++ [x] } = s.shipped := by
    simp [State.shipped,held]
  refine ⟨⟨?_,?_,?_,?_,?_,?_⟩,spans⟩
  · rw [spans]; exact h.chain
  · rw [spans]; exact h.inside
  · simpa using start
  · simpa using avail
  · rw [spans]; exact h.there
  · rw [spans]; exact h.version

section
variable (h : Kept s)
include h

theorem handledKept {q : Peer} {storing : Nat} (held : s.flight = x::rest)
    (start : q.localStart = x.stop) (avail : q.availVersion + storing = x.lap)
    (version : q.startVersion = s.replica.startVersion) (digest : q.startDigest = s.replica.startDigest)
    (later : reading s = true → s.replica.localStart ≤ q.localStart) :
    Kept { s with replica := q, storing, flight := rest, handled := s.handled ++ [x] } := by
  obtain ⟨shipped,spans⟩ := handledShipped h.toShipped held start avail
  refine { toShipped := shipped, low := h.low, marked := ?_, idle := fun none => ?_, asked := fun r p asked => ?_ }
  · unfold Marked
    rw [spans]
    exact h.marked
  · obtain ⟨first,second⟩ := h.idle none
    exact ⟨version.trans first,digest.trans second⟩
  · obtain ⟨kind,placed⟩ := h.asked r p asked
    refine ⟨?_,placedSame placed rfl rfl rfl version digest (List.subset_append_left _ _) ?_⟩
    · unfold Asked
      rw [spans]
      exact kind
    · rintro ⟨e,v,n,rfl⟩
      exact later (by rw [reading]; simp only [show s.request = some (r,.loaded e v n) from asked])

theorem handleKept {i} (steady : Steady s (.handle i)) (taken : step s (.handle i) = some t) : Kept t := by
  obtain ⟨rfl,idle,apart⟩ := steady
  obtain ⟨x,rest,held,⟨wraps,rfl⟩ | ⟨fits,rfl⟩⟩ := handleExact taken
  · obtain ⟨stop,lap⟩ := (handleShipped h.toShipped held idle).1 wraps
    refine handledKept h held stop (by rw [idle]; exact lap) rfl rfl fun between => ?_
    rw [apart x (by rw [held]; rfl) wraps] at between
    cases between
  · obtain ⟨stop,lap⟩ := (handleShipped h.toShipped held idle).2 fits
    refine handledKept h held stop ?_ rfl rfl fun _ => Nat.le_add_right _ _
    rw [idle]
    exact lap

theorem storeKept (taken : step s .store = some t) : Kept t := by
  obtain ⟨half,rfl⟩ := ifTaken taken
  have avail : s.replica.availVersion + 1 + (s.storing - 1) = _ := Eq.trans (by omega) h.avail
  refine { h with avail := avail, asked := fun r p held => ?_ }
  obtain ⟨kind,placed⟩ := h.asked r p held
  exact ⟨kind,placedSame placed rfl rfl rfl rfl rfl (List.Subset.refl _) fun _ => Nat.le_refl _⟩

theorem phaseKept (asked : Asked s r) (placed : Placed s r p) : Kept { s with request := some (r,p) } := by
  refine { h with idle := fun none => (by cases none), asked := fun r' p' held => ?_ }
  obtain ⟨rfl,rfl⟩ := Prod.mk.inj (Option.some.inj held)
  exact ⟨asked,placedSame placed rfl rfl rfl rfl rfl (List.Subset.refl _) fun _ => Nat.le_refl _⟩

theorem requestKept {n k} (taken : step s (.request n k) = some t) : Kept t := by
  simp only [step] at taken
  split at taken <;> try contradiction
  rename_i none
  cases taken
  refine phaseKept h ⟨rfl,rfl,?_⟩ (h.idle none)
  rcases h.marked with ⟨level,zero⟩ | ⟨next,set,x,mem,lap,stop⟩
  · exact .inl ⟨zero,level⟩
  · exact .inr ⟨next,x,mem,lap,.inr ⟨set,stop⟩⟩

theorem arriveKept (taken : step s .arrive = some t) : Kept t := by
  simp only [step] at taken
  split at taken <;> try contradiction
  rename_i r held
  cases taken
  obtain ⟨asked,placed⟩ := h.asked r _ held
  refine phaseKept h asked ⟨placed,?_⟩
  rw [placed.1,asked.1]

theorem loadStartKept (taken : step s .loadStart = some t) : Kept t := by
  simp only [step] at taken
  split at taken <;> try contradiction
  rename_i r e v held
  cases taken
  obtain ⟨asked,placed⟩ := h.asked r _ held
  exact phaseKept h asked ⟨placed.1,placed.2,Nat.le_refl _⟩

theorem loadAvailKept (taken : step s .loadAvail = some t) : Kept t := by
  simp only [step] at taken
  split at taken <;> try contradiction
  rename_i r e v rsyncStart held
  split at taken <;> cases taken
  · obtain ⟨asked,level,range,loaded⟩ := h.asked r _ held
    exact phaseKept h asked ⟨level,fun i counted => passReceived h asked range loaded (by assumption) counted⟩
  · obtain ⟨asked,level,range,_⟩ := h.asked r _ held
    exact phaseKept h asked ⟨level,range⟩

theorem digestKept {headers} (taken : step s (.digest headers) = some t) : Kept t := by
  simp only [step] at taken
  split at taken <;> try contradiction
  rename_i r held
  obtain ⟨⟨next,rotated⟩,walked,rfl⟩ := Option.map_eq_some_iff.mp taken
  obtain ⟨asked,level,_⟩ := h.asked r _ held
  have start : s.begin ≤ r.digestBlkno := asked.2.1 ▸ h.low
  obtain ⟨low,straight⟩ := walkLow start walked
  refine { h with here := ?_, avail := ?_, idle := fun none => (by cases none), asked := fun r' p' same => ?_ }
  · rw [updateLocal]
    exact h.here
  · rw [updateAvail]
    exact h.avail
  · obtain ⟨rfl,rfl⟩ := Prod.mk.inj (Option.some.inj same)
    refine ⟨asked,?_,?_,low,fun none => straight none (Nat.succ_pos _)⟩
    · rw [updateVersion,updateVersion,level.1,level.2]
    · rw [updateDigest,updateDigest]

theorem notifyKept (taken : step s .notify = some t) : Kept t := by
  simp only [step] at taken
  split at taken <;> try contradiction
  rename_i r next rotated held
  cases taken
  obtain ⟨⟨lap,blkno,kind⟩,version,digest,low,straight⟩ := h.asked r _ held
  refine { h with there := ?_, version := ?_, low := ?_, marked := ?_, idle := fun _ => ⟨version,digest⟩, asked := by simp }
  · rw [updateRemote]
    exact h.there
  · rw [updateAvail]
    exact h.version
  · rw [updateDigest]
    exact low
  · by_cases turned : (rotated || decide (next < s.libfs.startDigest)) = true
    · -- Only a request with a marker turns, and then the lap behind the marker is the current one.
      have ahead : s.libfs.startVersion + 1 = s.libfs.availVersion := by
        rcases kind with ⟨none,_⟩ | ⟨ahead,_⟩
        · obtain ⟨rfl,onward⟩ := straight none
          rw [Bool.false_or,decide_eq_true_eq] at turned
          omega
        · exact ahead
      refine .inl ⟨?_,?_⟩
      · rw [updateVersion,if_pos turned,updateAvail]
        exact ahead
      · simp only [updatePeerDigestState]
        rw [if_pos turned]
        exact if_pos ahead
    · have same : updatePeerDigestState s.libfs next rotated = { s.libfs with startDigest := next } := by
        simp only [updatePeerDigestState]
        rw [if_neg turned]
      rw [same]
      exact h.marked

end

theorem stepKept {a} (h : Kept s) (steady : Steady s a) (taken : step s a = some t) : Kept t := by
  cases a with
  | send n => exact sendKept h taken
  | rotate n => exact rotateKept h steady taken
  | handle i => exact handleKept h steady taken
  | store => exact storeKept h taken
  | request n k => exact requestKept h taken
  | arrive => exact arriveKept h taken
  | loadStart => exact loadStartKept h taken
  | loadAvail => exact loadAvailKept h taken
  | digest headers => exact digestKept h taken
  | notify => exact notifyKept h taken

end kept

theorem digestsReceived {logSbBlk s} (run : Reach step Steady (init logSbBlk) s) : Sound s := by
  have kept := reachInvariant Kept (initKept logSbBlk) (fun _ _ _ => stepKept) run
  intro r held
  exact (kept.asked r _ held).2.2

def firstDigested : List Action :=
  [.send 122940,.handle 0,.request 30 122940,.arrive,.loadStart,.loadAvail,.digest fun _ => ⟨4098,true⟩,.notify,
   .send 4098,.handle 0,.rotate 4098]

def through (s : State) : Bool := s.request.any fun q => q.2 = .digesting && q.1.endBlkno = 127038 && q.1.digestBlkCount = 8196

def acrossEnd : List Action :=
  firstDigested ++ [.request 2 8196,.arrive,.loadStart,.loadAvail,.handle 0,.store,.loadStart,.loadAvail]

theorem digestsReceivedAcross : ∃ s, Reach step Steady (init 0) s ∧ through s = true ∧ Sound s := by
  obtain ⟨s,reached,passed⟩ : ∃ s, Reach step Steady (init 0) s ∧ through s = true :=
    traceReach acrossEnd (by decide +kernel)
  exact ⟨s,reached,passed,digestsReceived reached⟩

def tornLoads : List Action :=
  firstDigested ++ [.send 4098,.request 3 12294,.arrive,.loadStart,.handle 0,.store,.loadAvail]

def early (s : State) : Bool := s.request.any fun q =>
  q.2 = .digesting && decide (0 < q.1.digestBlkCount) &&
    !decide (Received s.handled (blockOf s.begin q.1 (q.1.digestBlkCount - 1)))

theorem digestsUnreceived : ¬∀ logSbBlk s, Reach step Any (init logSbBlk) s → Sound s := by
  intro sound
  obtain ⟨s,reached,wrong⟩ : ∃ s, Reach step Any (init 0) s ∧ early s = true := traceAny tornLoads (by decide +kernel)
  simp only [early,Option.any_eq_true,Bool.and_eq_true,Bool.not_eq_true',decide_eq_true_eq,decide_eq_false_iff_not] at wrong
  obtain ⟨⟨r,p⟩,held,⟨rfl,counted⟩,missing⟩ := wrong
  exact missing (sound 0 s reached r held _ (Nat.sub_lt counted Nat.one_pos))

end LineFS.LastReplica
