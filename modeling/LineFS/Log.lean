import LineFS.Base.Run
import LineFS.Base.Ring
import LineFS.Config

/-! The LibFS update log of the NIC-offload build: `log_alloc` moves the tail and then spins while the log
is full, `handle_digest_response` moves the head. `commit_log` holds the log lock across `log_alloc`, so at
most one caller waits. One acknowledgement covers the oldest committed transactions. -/
namespace LineFS.Log
open Base

structure FsLog where
  logSbBlk : Nat
  size : Nat
  nextAvailHeader : Nat
  availVersion : Nat
  startBlk : Nat
  startVersion : Nat
  logEnd : Nat
  startDigest : Nat
  nDigest : Nat
  nDigestBlks : Nat
  deriving DecidableEq, Repr

def FsLog.begin (l : FsLog) : Nat := l.logSbBlk + 1

def initLog (logSbBlk : Nat) : FsLog :=
  ⟨logSbBlk,logSbBlk + gLogSize,logSbBlk + 1,0,logSbBlk + 1,0,0,logSbBlk + 1,0,0⟩

def Rotates (l : FsLog) (nrBlocks : Nat) : Prop := l.size < l.nextAvailHeader + nrBlocks
deriving Decidable

def rotate (l : FsLog) : FsLog :=
  { l with logEnd := l.nextAvailHeader - 1, nextAvailHeader := l.begin, availVersion := l.availVersion + 1 }

def logAlloc (l : FsLog) (nrBlocks : Nat) : FsLog × Nat :=
  let l := if Rotates l nrBlocks then rotate l else l
  ({ l with nextAvailHeader := l.nextAvailHeader + nrBlocks },l.nextAvailHeader)

def LogFull (l : FsLog) : Prop := l.startVersion < l.availVersion ∧ l.startBlk < l.nextAvailHeader
deriving Decidable

structure DigestResponse where
  digestStartBlknr : Nat
  nDigested : Nat
  nDigestedBlks : Nat
  resetMeta : Bool
  deriving DecidableEq, Repr

def resetPublishMeta (l : FsLog) : FsLog :=
  let startVersion := l.startVersion + 1
  { l with startVersion, logEnd := if startVersion = l.availVersion then 0 else l.logEnd }

def handleDigestResponse (l : FsLog) (r : DigestResponse) : FsLog :=
  let l := if r.resetMeta then resetPublishMeta l else l
  let nextHdr := r.digestStartBlknr + r.nDigestedBlks
  { l with startBlk := nextHdr, startDigest := nextHdr, nDigest := l.nDigest - r.nDigested,
           nDigestBlks := l.nDigestBlks - r.nDigestedBlks }

-- `commit_log` accounts the transaction once `log_alloc` has returned its blocks.
def commit (l : FsLog) (nrBlocks : Nat) : FsLog :=
  { l with nDigest := l.nDigest + 1, nDigestBlks := l.nDigestBlks + nrBlocks }

structure State where
  log : FsLog
  pending : Option Span
  live : List Span
  cursor : Span
  deriving DecidableEq, Repr

def init (logSbBlk : Nat) : State := ⟨initLog logSbBlk,none,[],⟨logSbBlk + 1,0,0⟩⟩

def responseTo (s : State) (k : Nat) : DigestResponse :=
  let covered := s.live.take k
  ⟨(covered.headD s.cursor).start,covered.length,blocks covered,covered.any fun x => x.lap ≠ s.cursor.lap⟩

inductive Action where
  | alloc (nrBlocks : Nat)
  | ret
  | ack (k : Nat)
  deriving DecidableEq, Repr

def step (s : State) : Action → Option State
  | .alloc n =>
    if s.pending = none ∧ 0 < n ∧ n ≤ maxTransaction then
      let r := logAlloc s.log n
      some { s with log := r.1, pending := some ⟨r.2,n,r.1.availVersion⟩ }
    else none
  | .ret =>
    match s.pending with
    | none => none
    | some x =>
      if LogFull s.log then none
      else some { s with log := commit s.log x.len, pending := none, live := s.live ++ [x] }
  | .ack k =>
    if 0 < k ∧ k ≤ s.live.length then
      some { s with log := handleDigestResponse s.log (responseTo s k)
                    live := s.live.drop k, cursor := (s.live.take k).getLastD s.cursor }
    else none

@[simp] theorem responseSbBlk (l r) : (handleDigestResponse l r).logSbBlk = l.logSbBlk := by
  unfold handleDigestResponse resetPublishMeta; split <;> rfl
@[simp] theorem responseSize (l r) : (handleDigestResponse l r).size = l.size := by
  unfold handleDigestResponse resetPublishMeta; split <;> rfl
@[simp] theorem responseNext (l r) : (handleDigestResponse l r).nextAvailHeader = l.nextAvailHeader := by
  unfold handleDigestResponse resetPublishMeta; split <;> rfl
@[simp] theorem responseAvail (l r) : (handleDigestResponse l r).availVersion = l.availVersion := by
  unfold handleDigestResponse resetPublishMeta; split <;> rfl
@[simp] theorem responseStart (l r) :
    (handleDigestResponse l r).startBlk = r.digestStartBlknr + r.nDigestedBlks := rfl
@[simp] theorem responseVersion (l r) :
    (handleDigestResponse l r).startVersion = if r.resetMeta then l.startVersion + 1 else l.startVersion := by
  unfold handleDigestResponse resetPublishMeta; split <;> rfl
theorem responseEnd (l r) : (handleDigestResponse l r).logEnd =
    if r.resetMeta = true ∧ l.startVersion + 1 = l.availVersion then 0 else l.logEnd := by
  unfold handleDigestResponse resetPublishMeta
  cases r.resetMeta <;> simp

@[simp] theorem allocSbBlk (l n) : (logAlloc l n).1.logSbBlk = l.logSbBlk := by
  unfold logAlloc rotate; split <;> rfl
@[simp] theorem allocSize (l n) : (logAlloc l n).1.size = l.size := by
  unfold logAlloc rotate; split <;> rfl
@[simp] theorem allocStart (l n) : (logAlloc l n).1.startBlk = l.startBlk := by
  unfold logAlloc rotate; split <;> rfl
@[simp] theorem allocStartVersion (l n) : (logAlloc l n).1.startVersion = l.startVersion := by
  unfold logAlloc rotate; split <;> rfl
theorem allocAvail (l n) : (logAlloc l n).1.availVersion =
    if Rotates l n then l.availVersion + 1 else l.availVersion := by
  unfold logAlloc rotate; split <;> rfl
theorem allocEnd (l n) : (logAlloc l n).1.logEnd = if Rotates l n then l.nextAvailHeader - 1 else l.logEnd := by
  unfold logAlloc rotate; split <;> rfl

theorem allocSpan (l : FsLog) (n : Nat) (small : l.begin + n ≤ l.size) (old : Span)
    (stop : old.stop = l.nextAvailHeader) (lap : old.lap = l.availVersion) (begun : l.begin ≤ old.stop) :
    let x : Span := ⟨(logAlloc l n).2,n,(logAlloc l n).1.availVersion⟩
    Follows l.begin l.size old x ∧ x.stop = (logAlloc l n).1.nextAvailHeader ∧
    l.begin ≤ x.start ∧ x.stop ≤ l.size := by
  by_cases full : Rotates l n
  · simp only [logAlloc,if_pos full,rotate]
    refine ⟨.inr ⟨by simp only [lap],rfl,?_⟩,rfl,Nat.le_refl _,small⟩
    rw [stop]
    exact full
  · simp only [logAlloc,if_neg full]
    refine ⟨.inl ⟨lap.symm,stop.symm⟩,rfl,stop ▸ begun,Nat.le_of_not_lt full⟩

theorem retExact {s t} (h : step s .ret = some t) : ∃ x, s.pending = some x ∧ ¬LogFull s.log ∧
    t = { s with log := commit s.log x.len, pending := none, live := s.live ++ [x] } := by
  simp only [step] at h
  split at h <;> try contradiction
  rename_i x held
  obtain ⟨_,rfl⟩ := unlessTaken h
  exact ⟨x,held,by assumption,rfl⟩

structure SameTail (l m : FsLog) : Prop where
  sb : m.logSbBlk = l.logSbBlk
  size : m.size = l.size
  next : m.nextAvailHeader = l.nextAvailHeader
  avail : m.availVersion = l.availVersion

/- From the position `c` on, the spans `xs` follow each other up to the tail of the log. -/
structure Tail (l : FsLog) (c : Span) (xs : List Span) : Prop where
  chain : (c::xs).IsChain (Follows l.begin l.size)
  tail : (xs.getLastD c).stop = l.nextAvailHeader
  version : (xs.getLastD c).lap = l.availVersion
  inside : ∀ x ∈ c::xs, l.begin ≤ x.start ∧ x.stop ≤ l.size
  bounds : l.size = l.logSbBlk + gLogSize

section tail
variable {l m : FsLog} {c d x : Span} {xs ys : List Span} {n : Nat}

theorem tailSame (h : Tail l c xs) (same : SameTail l m) : Tail m c xs := by
  have begin : m.begin = l.begin := congrArg (· + 1) same.sb
  refine ⟨?_,?_,?_,?_,?_⟩
  · rw [begin,same.size]; exact h.chain
  · rw [same.next]; exact h.tail
  · rw [same.avail]; exact h.version
  · rw [begin,same.size]; exact h.inside
  · rw [same.sb,same.size]; exact h.bounds

theorem tailLaps (h : Tail l c xs) (mem : x ∈ c::xs) : c.lap ≤ x.lap ∧ x.lap ≤ l.availVersion := by
  refine ⟨?_,h.version ▸ laidLapLe h.chain mem⟩
  rcases List.mem_cons.mp mem with rfl | later
  · exact Nat.le_refl _
  · have before := laidFirst h.chain later
    simp only [Before] at before
    omega

theorem tailAlloc (h : Tail l c xs) (small : n ≤ maxTransaction) :
    Tail (logAlloc l n).1 c (xs ++ [⟨(logAlloc l n).2,n,(logAlloc l n).1.availVersion⟩]) := by
  have begun : l.begin ≤ (xs.getLastD c).stop := Nat.le_trans (h.inside _ lastMem).1 (Nat.le_add_right _ _)
  have fits : l.begin + n ≤ l.size := by
    have := h.bounds
    simp only [FsLog.begin,gLogSize,maxTransaction] at *
    omega
  obtain ⟨next,stop,low,high⟩ := allocSpan l n fits _ h.tail h.version begun
  refine ⟨?_,?_,?_,fun x mem => ?_,?_⟩
  · simpa only [FsLog.begin,allocSbBlk,allocSize] using laidSnoc h.chain next
  · simpa using stop
  · simp
  · simp only [FsLog.begin,allocSbBlk,allocSize]
    rw [← List.cons_append] at mem
    rcases memSnoc mem with old | rfl
    · exact h.inside x old
    · exact ⟨low,high⟩
  · rw [allocSize,allocSbBlk]
    exact h.bounds

theorem tailDrop (h : Tail l c (xs ++ ys)) (low : l.begin ≤ d.start) (stop : d.stop = (xs.getLastD c).stop)
    (lap : d.lap = (xs.getLastD c).lap) : Tail l d ys := by
  obtain ⟨sameStop,sameLap⟩ := @lastAlike _ ys _ stop lap
  refine ⟨laidAlike stop lap (laidRest h.chain),?_,?_,fun x mem => ?_,h.bounds⟩
  · rw [sameStop,← lastAppend]
    exact h.tail
  · rw [sameLap,← lastAppend]
    exact h.version
  · rcases List.mem_cons.mp mem with rfl | later
    · have inside := h.inside (xs.getLastD c) (List.cons_subset_cons _ (List.subset_append_left _ _) lastMem)
      exact ⟨low,stop ▸ inside.2⟩
    · exact h.inside x (.tail _ (List.mem_append_right _ later))

theorem tailRest (h : Tail l c (xs ++ ys)) : Tail l (xs.getLastD c) ys :=
  tailDrop h (h.inside _ (List.cons_subset_cons _ (List.subset_append_left _ _) lastMem)).1 rfl rfl

end tail

def laid (s : State) : List Span := s.live ++ s.pending.toList

abbrev Laid (s : State) : Prop := Tail s.log s.cursor (laid s)

theorem initLaid (logSbBlk : Nat) : Laid (init logSbBlk) := by
  refine ⟨?_,rfl,rfl,?_,rfl⟩
  · simp [init,laid]
  · simp [init,laid,initLog,FsLog.begin,Span.stop,gLogSize]

theorem stepLaid {s a t} (before : Laid s) (h : step s a = some t) : Laid t := by
  cases a with
  | alloc n =>
    obtain ⟨⟨idle,_,small⟩,rfl⟩ := ifTaken h
    simpa [Laid,laid,idle] using tailAlloc before small
  | ret =>
    obtain ⟨x,held,_,rfl⟩ := retExact h
    simpa [Laid,laid,held] using tailSame before (m := commit s.log x.len) ⟨rfl,rfl,rfl,rfl⟩
  | ack k =>
    obtain ⟨_,rfl⟩ := ifTaken h
    have same : laid s = s.live.take k ++ (s.live.drop k ++ s.pending.toList) := by
      rw [← List.append_assoc,List.take_append_drop]; rfl
    rw [Laid,same] at before
    exact tailSame (tailRest before) ⟨by simp,by simp,by simp,by simp⟩

theorem stepSbBlk {s a t} (h : step s a = some t) : t.log.logSbBlk = s.log.logSbBlk := by
  cases a with
  | alloc n => obtain ⟨_,rfl⟩ := ifTaken h; simp
  | ret => obtain ⟨x,_,_,rfl⟩ := retExact h; rfl
  | ack k => obtain ⟨_,rfl⟩ := ifTaken h; simp

/- The log rotates only when the last rotation has been acknowledged, which is the assertion that `log_alloc`
carries commented out, and `start_blk` stands at the end of the last acknowledged transaction. -/
def Paced (s : State) : Action → Prop
  | .alloc n => Rotates s.log n → s.log.availVersion = s.log.startVersion ∧ s.log.startBlk = s.cursor.stop
  | .ret => True
  | .ack _ => True
instance (s a) : Decidable (Paced s a) := by cases a <;> unfold Paced <;> infer_instance

structure Guarded (s : State) : Prop extends Tail s.log s.cursor (laid s) where
  head : s.log.startVersion < s.log.availVersion → s.log.startBlk = s.cursor.stop
  headVersion : s.log.startVersion = s.cursor.lap
  lead : s.log.availVersion ≤ s.log.startVersion + 1
  room : ∀ x ∈ s.live, x.lap = s.log.startVersion + 1 → x.stop ≤ s.cursor.stop

theorem initGuarded (logSbBlk : Nat) : Guarded (init logSbBlk) :=
  ⟨initLaid logSbBlk,fun _ => rfl,rfl,Nat.zero_le _,by simp [init]⟩

theorem lapsFrom {s x} (h : Guarded s) (mem : x ∈ laid s) :
    s.log.startVersion ≤ x.lap ∧ x.lap ≤ s.log.availVersion ∧
    (x.lap = s.log.startVersion → s.cursor.stop ≤ x.start) := by
  have first := laidFirst h.chain mem
  have last := laidLapLe h.chain (.tail _ mem)
  have := h.version
  have := h.headVersion
  simp only [Before] at first
  omega

theorem startLe {s} (h : Guarded s) : s.log.startVersion ≤ s.log.availVersion := by
  have above := laidLapLe h.chain (.head _)
  rw [h.version] at above
  exact h.headVersion ▸ above

theorem coveredChain {s k} (h : Laid s) : (s.cursor::s.live.take k).IsChain (Follows s.log.begin s.log.size) := by
  have chain := h.chain
  rw [laid,← List.take_append_drop k s.live,List.append_assoc,← List.cons_append] at chain
  exact chain.left_of_append

theorem coveredMem {s k x} (mem : x ∈ s.cursor::s.live.take k) : x ∈ s.cursor::laid s :=
  List.cons_subset_cons _ (fun _ here => List.mem_append_left _ (List.mem_of_mem_take here)) mem

theorem responseLap {s k} (h : Guarded s) :
    (handleDigestResponse s.log (responseTo s k)).startVersion = ((s.live.take k).getLastD s.cursor).lap := by
  have chain := coveredChain h.toTail (k := k)
  have last : (s.live.take k).getLastD s.cursor ∈ s.cursor::s.live.take k := lastMem
  have below := laidLapLe h.chain (coveredMem last)
  have above := laidLapLe chain (.head _)
  have reset : (responseTo s k).resetMeta = true ↔ ((s.live.take k).getLastD s.cursor).lap ≠ s.cursor.lap := by
    simp only [responseTo,List.any_eq_true,decide_eq_true_eq]
    constructor
    · rintro ⟨x,mem,other⟩
      have := laidLapLe chain (.tail _ mem)
      have first := laidFirst chain mem
      simp only [Before] at first
      omega
    · intro other
      rcases List.mem_cons.mp last with same | mem
      · exact absurd (congrArg Span.lap same) other
      · exact ⟨_,mem,other⟩
  have version := h.version
  have head := h.headVersion
  have lead := h.lead
  rw [responseVersion]
  split
  · have := reset.mp ‹_›; omega
  · have := mt reset.mpr ‹_›; omega

theorem responseStop {s k} (h : Laid s) (positive : 0 < k) (some : k ≤ s.live.length)
    (same : ((s.live.take k).getLastD s.cursor).lap = s.cursor.lap) :
    (handleDigestResponse s.log (responseTo s k)).startBlk = ((s.live.take k).getLastD s.cursor).stop := by
  have chain := coveredChain h (k := k)
  rw [laidOneLap chain same,responseStart]
  simp only [responseTo]
  cases covered : s.live.take k with
  | nil =>
    have := congrArg List.length covered
    simp only [List.length_take,List.length_nil] at this
    omega
  | cons x xs =>
    rw [covered] at chain same
    obtain ⟨first,rest⟩ := List.isChain_cons_cons.mp chain
    have later := laidLapLe rest (.head _)
    rw [List.getLastD_cons] at same
    rcases first with ⟨_,start⟩ | ⟨lap,_⟩
    · rw [List.headD_cons,start]
    · omega

theorem stepGuarded {s a t} (before : Guarded s) (paced : Paced s a) (h : step s a = some t) : Guarded t := by
  have laidNext := stepLaid before.toTail h
  cases a with
  | alloc n =>
    obtain ⟨⟨idle,_,_⟩,rfl⟩ := ifTaken h
    simp only [Paced] at paced
    have lead := before.lead
    refine ⟨laidNext,?_,?_,?_,?_⟩
    · simp only [allocStartVersion,allocStart,allocAvail]
      split
      · exact fun _ => (paced ‹_›).2
      · exact before.head
    · simpa using before.headVersion
    · simp only [allocStartVersion,allocAvail]
      split
      · have := (paced ‹_›).1; omega
      · exact lead
    · simpa using before.room
  | ret =>
    obtain ⟨x,held,notFull,rfl⟩ := retExact h
    refine ⟨laidNext,before.head,before.headVersion,before.lead,?_⟩
    intro y mem lap
    rcases memSnoc mem with old | rfl
    · exact before.room y old lap
    · have stop := before.tail
      have version := before.version
      have head := before.head
      rw [laid,held,Option.toList_some,List.getLastD_concat] at stop version
      simp only [LogFull] at notFull
      simp only [commit] at lap ⊢
      omega
  | ack k =>
    obtain ⟨⟨positive,some⟩,rfl⟩ := ifTaken h
    have version := responseLap before (k := k)
    have head := responseStop before.toTail positive some
    have oldVersion := before.headVersion
    have lead := before.lead
    have last := coveredMem (s := s) (k := k) lastMem
    have within := laidLapLe before.chain last
    rw [before.version] at within
    have above := laidLapLe (coveredChain before.toTail (k := k)) (.head _)
    have forward : ((s.live.take k).getLastD s.cursor).lap = s.cursor.lap →
        s.cursor.stop ≤ ((s.live.take k).getLastD s.cursor).stop := by
      intro lap
      rw [laidOneLap (coveredChain before.toTail) lap]
      exact Nat.le_add_right _ _
    refine ⟨laidNext,?_,version,?_,?_⟩
    · simp only [version,responseAvail]
      exact fun behind => head (by omega)
    · simp only [version,responseAvail]
      omega
    · intro x mem lap
      have older := List.mem_of_mem_drop mem
      have room := before.room x older
      have laps := lapsFrom before (List.mem_append_left _ older)
      simp only [version] at lap ⊢
      omega

theorem pacedGuarded {logSbBlk s} (run : Reach step Paced (init logSbBlk) s) : Guarded s :=
  reachInvariant Guarded (initGuarded logSbBlk) (fun _ _ _ => stepGuarded) run

theorem reachSbBlk {ok logSbBlk s} (run : Reach step ok (init logSbBlk) s) : s.log.logSbBlk = logSbBlk :=
  reachInvariant (fun s => s.log.logSbBlk = logSbBlk) rfl
    (fun _ _ _ same _ taken => (stepSbBlk taken).trans same) run

theorem guardedApart {s x y} (h : Guarded s) (held : s.pending = some x) (notFull : ¬LogFull s.log) (mem : y ∈ s.live) :
    Apart x y := by
  have same : laid s = s.live ++ [x] := by simp [laid,held]
  have chain := h.chain
  have stop := h.tail
  have version := h.version
  rw [same,List.getLastD_concat] at stop version
  rw [same,← List.cons_append] at chain
  have order := laidLast chain (.tail _ mem)
  have laps := lapsFrom h (List.mem_append_left _ mem)
  have lead := h.lead
  have head := h.head
  simp only [Before,LogFull,Apart] at *
  omega

def Free (logSbBlk : Nat) (s : State) (x : Span) : Prop :=
  logSbBlk + 1 ≤ x.start ∧ x.stop ≤ logSbBlk + gLogSize ∧ ∀ y ∈ s.live, Apart x y
deriving Decidable

theorem pacedAllocFree {logSbBlk s t x} (run : Reach step Paced (init logSbBlk) s)
    (held : s.pending = some x) (returned : step s .ret = some t) : Free logSbBlk s x := by
  have guarded := pacedGuarded run
  have base := reachSbBlk run
  obtain ⟨y,heldAgain,notFull,_⟩ := retExact returned
  cases Option.some.inj (held.symm.trans heldAgain)
  have inside := guarded.inside x (by simp [laid,held])
  rw [FsLog.begin,guarded.bounds,base] at inside
  exact ⟨inside.1,inside.2,fun y mem => guardedApart guarded held notFull mem⟩

def lapOf (n : Nat) : List Action := (List.replicate n [.alloc maxTransaction,.ret]).flatten
def returning (s : State) : Bool := (step s .ret).isSome && s.log.availVersion = 1

theorem pacedAllocFreeRotated : ∃ s t x, s.pending = some x ∧ step s .ret = some t ∧
    s.log.availVersion = 1 ∧ Free 0 s x := by
  obtain ⟨s,reached,good⟩ : ∃ s, Reach step Paced (init 0) s ∧ returning s = true :=
    traceReach (lapOf 31 ++ [.ack 20,.alloc maxTransaction]) (by decide +kernel)
  simp only [returning,Bool.and_eq_true,Option.isSome_iff_exists,decide_eq_true_eq] at good
  obtain ⟨⟨t,returned⟩,rotated⟩ := good
  obtain ⟨x,held,_,_⟩ := retExact returned
  exact ⟨s,t,x,held,returned,rotated,pacedAllocFree reached held returned⟩

def twoRotations : List Action := lapOf 31 ++ [.ack 31] ++ lapOf 31 ++ [.alloc maxTransaction]

def overwritten (s : State) : Bool :=
  match s.pending with
  | some x => (step s .ret).isSome && !decide (Free 0 s x)
  | none => false

theorem allocOverwritesUnpublished : ¬∀ logSbBlk s t x, Reach step Any (init logSbBlk) s →
    s.pending = some x → step s .ret = some t → Free logSbBlk s x := by
  intro claim
  obtain ⟨s,reached,bad⟩ : ∃ s, Reach step Any (init 0) s ∧ overwritten s = true :=
    traceAny twoRotations (by decide +kernel)
  unfold overwritten at bad
  split at bad <;> try contradiction
  rename_i x held
  simp only [Bool.and_eq_true,Option.isSome_iff_exists,Bool.not_eq_true',decide_eq_false_iff_not] at bad
  obtain ⟨⟨t,returned⟩,notFree⟩ := bad
  exact notFree (claim 0 s t x reached held returned)

end LineFS.Log
