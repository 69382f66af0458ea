import LineFS.PeerLog

/-! The head of the log in the host-only build. A digest request names the first header, the number of
headers and the end marker; `digest_logs` walks them, and the response moves `start_blk` behind them. The
head crosses the end of the log in the walk, when a header ends at the marker, or at the next request, when
it stands behind the marker. -/
namespace LineFS.DigestHead
open List (append_assoc cons_append getLastD_cons isChain_cons_cons mem_append_left mem_cons mem_of_mem_take)
open Base Log Rsync

/- `live` lists the committed transactions that are not digested, oldest first, each with
the lap of the log it lies in. -/
structure State where
  log : FsLog
  headers : Nat → Header
  pending : Option Span
  live : List Span
  request : Option Digest

def init (logSbBlk : Nat) (headers : Nat → Header) : State := ⟨initLog logSbBlk,headers,none,[],none⟩

inductive Action where
  | alloc (nrBlocks : Nat)
  | ret (image : Nat → Header)
  | request (percent : Nat)
  | respond

def digestReq (l : FsLog) (percent : Nat) : Nat := percent * l.nDigest / 100

/- A request is sent when none is in flight and there is something to digest. `digest_logs`
panics at a block that is no committed header. -/
def step (s : State) : Action → Option State
  | .alloc n =>
    if s.pending = none ∧ 2 ≤ n ∧ n ≤ maxTransaction then
      let r := logAlloc s.log n
      some { s with log := r.1, pending := some ⟨r.2,n,r.1.availVersion⟩ }
    else none
  | .ret image =>
    match s.pending with
    | none => none
    | some x =>
      if LogFull s.log then none
      else some { s with
        log := commit s.log x.len
        headers := persist s.headers x image
        pending := none
        live := s.live ++ [x] }
  | .request percent =>
    if s.request = none ∧ percent ≤ 100 ∧ 0 < digestReq s.log percent then
      let r := makeDigestSegRequest s.log
      some { s with log := r.1, request := some { r.2 with count := digestReq s.log percent } }
    else none
  | .respond =>
    match s.request with
    | none => none
    | some d => (digestLogs s.headers s.log.begin d.stop d.count d.start false).map fun r =>
        { s with
          log := Rsync.handleDigestResponse s.log d r.1 r.2
          live := s.live.drop d.count
          request := none }

def visited (headers : Nat → Header) (start stop : Nat) : Nat → Nat → List (Nat × Header)
  | 0, _ => []
  | n + 1, current => (current,headers current)::
      visited headers start stop n (nextLoghdrBlknr current (headers current).nrLogBlocks start stop)

def Designates (l : FsLog) (x : Span) : Prop := l.startBlk = x.start ∧ l.startVersion = x.lap
deriving Decidable

/- The head designates the first transaction that is not digested, or stands right behind the marker when
that one is the first of the next lap; the walk of a request reads the headers of the oldest ones. -/
structure Exact (s : State) : Prop where
  place : ∀ x ∈ s.live.head?, Designates s.log x ∨
    x.lap = s.log.startVersion + 1 ∧ x.start = s.log.begin ∧ s.log.startBlk = s.log.logEnd + 1
  corrected : ∀ d ∈ s.request, ∀ x ∈ s.live.head?, Designates s.log x
  walk : ∀ d ∈ s.request, 0 < d.count ∧ d.count ≤ s.live.length ∧
    visited s.headers s.log.begin d.stop d.count d.start = (s.live.take d.count).map fun x => (x.start,⟨x.len,true⟩)

/- The log rotates only when the head is in the lap of the tail. When a request is made there, the head is
not behind the marker, and no transaction of the request ends at the marker. -/
def Fresh (s : State) : Action → Prop
  | .alloc n => Rotates s.log n → s.log.startVersion = s.log.availVersion
  | .request percent =>
    (s.log.startVersion = s.log.availVersion → s.log.logEnd = 0 ∨ s.log.startBlk ≤ s.log.logEnd) ∧
    (s.log.startVersion = s.log.availVersion ∨ s.log.logEnd < s.log.startBlk →
      ∀ x ∈ s.live.take (digestReq s.log percent), x.stop ≠ s.log.logEnd + 1)
  | .ret _ | .respond => True
instance (s a) : Decidable (Fresh s a) := by cases a <;> unfold Fresh <;> infer_instance

section tail
variable {l : FsLog} {c y : Span} {ys : List Span}

theorem tailWrap (h : LongTail l c (y::ys)) (lap : y.lap ≠ c.lap) : LongTail l ⟨l.begin,0,c.lap + 1⟩ (y::ys) := by
  obtain ⟨follows,rest⟩ := isChain_cons_cons.mp h.chain
  rcases follows with ⟨same,_⟩ | ⟨next,start,_⟩
  · exact absurd same lap
  refine ⟨⟨isChain_cons_cons.mpr ⟨.inl ⟨next,start⟩,rest⟩,?_,?_,fun x mem => ?_,h.bounds⟩,h.long⟩
  · have := h.tail
    rwa [getLastD_cons] at this ⊢
  · have := h.version
    rwa [getLastD_cons] at this ⊢
  · rcases mem_cons.mp mem with rfl | later
    · have bounds := h.bounds
      simp only [FsLog.begin,Span.stop,gLogSize] at *
      omega
    · exact h.inside x (.tail _ later)

end tail

def State.head (s : State) : Span := ⟨s.log.startBlk,0,s.log.startVersion⟩
def laid (s : State) : List Span := s.live ++ s.pending.toList

structure Turning (s : State) : Prop where
  turned : (s.head::laid s).IsChain (Turned s.log.logEnd)
  far : s.log.size < s.log.logEnd + 1 + maxTransaction
  room : ∀ x ∈ s.live, x.lap = s.log.availVersion → x.stop ≤ s.log.startBlk

structure Flight (s : State) (d : Digest) : Prop where
  start : d.start = s.log.startBlk
  positive : 0 < d.count
  count : d.count ≤ s.live.length
  first : ∀ x ∈ s.live.head?, Designates s.log x
  range : (∀ x ∈ s.live.take d.count, x.lap = s.log.startVersion ∧ x.stop ≠ d.stop + 1) ∨
    s.log.startVersion ≠ s.log.availVersion ∧ d.stop = s.log.logEnd ∧ s.log.startBlk ≤ s.log.logEnd

structure Kept (s : State) : Prop where
  tail : LongTail s.log s.head (laid s)
  headed : Headed s.headers s.live
  count : s.log.nDigest = s.live.length
  lead : s.log.availVersion ≤ s.log.startVersion + 1
  turning : s.log.startVersion ≠ s.log.availVersion → Turning s
  flight : ∀ d, s.request = some d → Flight s d

theorem initKept (logSbBlk headers) : Kept (init logSbBlk headers) where
  tail := by
    refine ⟨⟨?_,?_,?_,?_,rfl⟩,?_⟩ <;> simp [init,laid,State.head,initLog,FsLog.begin,Span.stop,gLogSize]
  headed := by simp [init,Headed]
  count := rfl
  lead := Nat.zero_le _
  turning := fun other => absurd rfl other
  flight := by simp [init]

section kept
variable {s t : State} {x y : Span}

theorem liveLaid (mem : x ∈ s.live) : x ∈ laid s := mem_append_left _ mem

theorem liveHead (h : x ∈ s.live.head?) : ∃ rest, laid s = x::rest := by
  cases held : s.live with
  | nil => simp [held] at h
  | cons y ys =>
    rw [held] at h
    cases h
    exact ⟨ys ++ s.pending.toList,by rw [laid,held,cons_append]⟩

theorem liveSide (h : Kept s) (mem : x ∈ s.live) : x.lap = s.log.startVersion ∨
    x.lap = s.log.availVersion ∧ s.log.availVersion = s.log.startVersion + 1 := by
  obtain ⟨low,high⟩ := tailLaps h.tail.toTail (.tail _ (liveLaid mem))
  have lead := h.lead
  simp only [State.head] at low
  omega

def allocated (s : State) (n : Nat) : State :=
  { s with log := (logAlloc s.log n).1, pending := some ⟨(logAlloc s.log n).2,n,(logAlloc s.log n).1.availVersion⟩ }

@[simp] theorem allocatedHead (n) : (allocated s n).head = s.head := by simp [allocated,State.head]

theorem allocatedLaid {n} (idle : s.pending = none) :
    laid (allocated s n) = laid s ++ [⟨(logAlloc s.log n).2,n,(logAlloc s.log n).1.availVersion⟩] := by
  simp [laid,idle,allocated]

theorem rotateTurning {n} (h : Kept s) (idle : s.pending = none) (small : n ≤ maxTransaction) (full : Rotates s.log n)
    (level : s.log.startVersion = s.log.availVersion) : Turning (allocated s n) := by
  have laps : ∀ z ∈ s.head::laid s, z.lap = s.log.availVersion := by
    intro z mem
    obtain ⟨low,high⟩ := tailLaps h.tail.toTail mem
    exact Nat.le_antisymm high (level ▸ low)
  have begun : 0 < s.log.nextAvailHeader := by
    rw [← h.tail.tail]
    have := (h.tail.inside _ lastMem).1
    simp only [FsLog.begin,Span.stop] at *
    omega
  have mark : (allocated s n).log.logEnd + 1 = s.log.nextAvailHeader := by
    show (logAlloc s.log n).1.logEnd + 1 = _
    rw [allocEnd,if_pos full,Nat.sub_add_cancel begun]
  refine ⟨?_,?_,fun x mem lap => ?_⟩
  · rw [allocatedHead,allocatedLaid idle]
    refine laidSnoc (turnedOneLap fun x left y right => (laps y right).trans (laps x left).symm) fun _ => ?_
    rw [mark]
    exact h.tail.tail
  · rw [mark]
    show (logAlloc s.log n).1.size < _
    rw [allocSize]
    exact Nat.lt_of_lt_of_le full (Nat.add_le_add_left small _)
  · replace lap : x.lap = (logAlloc s.log n).1.availVersion := lap
    rw [allocAvail,if_pos full,laps x (.tail _ (liveLaid mem))] at lap
    omega

theorem extendTurning {n} (h : Kept s) (idle : s.pending = none) (fits : ¬Rotates s.log n) (turning : Turning s) :
    Turning (allocated s n) := by
  have mark : (allocated s n).log.logEnd = s.log.logEnd := by
    show (logAlloc s.log n).1.logEnd = _
    rw [allocEnd,if_neg fits]
  have avail : (allocated s n).log.availVersion = s.log.availVersion := by
    show (logAlloc s.log n).1.availVersion = _
    rw [allocAvail,if_neg fits]
  refine ⟨?_,?_,?_⟩
  · rw [allocatedHead,allocatedLaid idle,mark]
    refine laidSnoc turning.turned fun other => absurd ?_ other
    exact avail.trans h.tail.version.symm
  · rw [mark]
    show (logAlloc s.log n).1.size < _
    rw [allocSize]
    exact turning.far
  · rw [avail]
    show ∀ x ∈ s.live, _ → x.stop ≤ (logAlloc s.log n).1.startBlk
    rw [allocStart]
    exact turning.room

theorem allocFlight {n d} (flight : Flight s d) (fresh : Fresh s (.alloc n)) : Flight (allocated s n) d := by
  have start : (allocated s n).log.startBlk = s.log.startBlk := allocStart _ _
  have version : (allocated s n).log.startVersion = s.log.startVersion := allocStartVersion _ _
  refine ⟨by rw [start]; exact flight.start,flight.positive,flight.count,?_,?_⟩
  · intro x mem
    rw [Designates,start,version]
    exact flight.first x mem
  · rw [start,version]
    refine flight.range.imp id fun ⟨other,stop,before⟩ => ?_
    have fits : ¬Rotates s.log n := fun full => other (fresh full)
    have mark : (allocated s n).log.logEnd = s.log.logEnd := (allocEnd _ _).trans (if_neg fits)
    have avail : (allocated s n).log.availVersion = s.log.availVersion := (allocAvail _ _).trans (if_neg fits)
    rw [mark,avail]
    exact ⟨other,stop,before⟩

theorem allocKept {n} (h : Kept s) (fresh : Fresh s (.alloc n)) (taken : step s (.alloc n) = some t) : Kept t := by
  obtain ⟨⟨idle,long,small⟩,rfl⟩ := ifTaken taken
  show Kept (allocated s n)
  have version : (allocated s n).log.startVersion = s.log.startVersion := allocStartVersion _ _
  have avail : (allocated s n).log.availVersion = _ := allocAvail s.log n
  refine ⟨?_,h.headed,?_,?_,fun other => ?_,fun d held => allocFlight (h.flight d held) fresh⟩
  · rw [allocatedHead,allocatedLaid idle]
    exact longAlloc h.tail long small
  · have same : (allocated s n).log.nDigest = s.log.nDigest := by
      show (logAlloc s.log n).1.nDigest = _
      unfold logAlloc rotate
      split <;> rfl
    exact same.trans h.count
  · rw [version,avail]
    split
    · rename_i full
      rw [fresh full]
    · exact h.lead
  · by_cases full : Rotates s.log n
    · exact rotateTurning h idle small full (fresh full)
    · rw [version,avail,if_neg full] at other
      exact extendTurning h idle full (h.turning other)

theorem pendingApart (h : Kept s) (held : s.pending = some x) (notFull : ¬LogFull s.log) (mem : y ∈ s.live) :
    ¬(x.start ≤ y.start ∧ y.start < x.stop) := by
  have spans : laid s = s.live ++ [x] := by simp [laid,held]
  have chain := h.tail.chain
  have stop := h.tail.tail
  have version := h.tail.version
  rw [spans,lastAppend] at stop version
  rw [spans] at chain
  have order : Before y x := laidLast (List.IsChain.tail chain) mem
  have first : Before s.head y := laidFirst chain (mem_append_left _ mem)
  have long := h.tail.long y (liveLaid mem)
  have lead := h.lead
  replace stop : x.stop = s.log.nextAvailHeader := stop
  replace version : x.lap = s.log.availVersion := version
  simp only [Before,State.head,LogFull,Span.stop] at *
  omega

theorem retKept {image} (h : Kept s) (taken : step s (.ret image) = some t) : Kept t := by
  simp only [step] at taken
  split at taken <;> try contradiction
  rename_i x held
  obtain ⟨notFull,rfl⟩ := unlessTaken taken
  have spans : laid s = s.live ++ [x] := by simp [laid,held]
  have same : ∀ u : State, u.live = s.live ++ [x] → u.pending = none → laid u = laid s := by
    intro u live idle
    rw [laid,live,idle,Option.toList_none,List.append_nil,spans]
  have long := h.tail.long x (by rw [spans]; simp)
  refine ⟨?_,?_,?_,h.lead,fun other => ?_,fun d flying => ?_⟩
  · rw [same _ rfl rfl]
    exact longSame h.tail ⟨rfl,rfl,rfl,rfl⟩
  · intro y mem
    rcases memSnoc mem with old | rfl
    · exact (persistOutside (pendingApart h held notFull old) (by omega)).trans (h.headed y old)
    · exact if_pos rfl
  · show s.log.nDigest + 1 = (s.live ++ [x]).length
    rw [h.count,List.length_append,List.length_singleton]
  · obtain ⟨turned,far,room⟩ := h.turning other
    refine ⟨by rw [same _ rfl rfl]; exact turned,far,fun y mem lap => ?_⟩
    rcases memSnoc mem with old | rfl
    · exact room y old lap
    · have stop := h.tail.tail
      rw [spans,lastAppend] at stop
      have lead : s.log.startVersion < s.log.availVersion := by
        have := (tailLaps h.tail.toTail (.head _)).2
        exact Nat.lt_of_le_of_ne this other
      have below : s.log.nextAvailHeader ≤ s.log.startBlk := Nat.le_of_not_lt fun above => notFull ⟨lead,above⟩
      exact stop ▸ below
  · obtain ⟨start,positive,count,first,range⟩ := h.flight d flying
    have more : s.live ≠ [] := by rintro none; rw [none,List.length_nil] at count; omega
    refine ⟨start,positive,by simp only [List.length_append]; omega,?_,?_⟩
    · show ∀ y ∈ (s.live ++ [x]).head?, Designates s.log y
      rwa [List.head?_append_of_ne_nil _ more]
    · show (∀ y ∈ (s.live ++ [x]).take d.count, _) ∨ _
      rwa [List.take_append_of_le_length count]

theorem designated (h : Kept s) (first : x ∈ s.live.head?) (lap : x.lap = s.log.startVersion) : Designates s.log x := by
  obtain ⟨rest,spans⟩ := liveHead first
  have chain := h.tail.chain
  rw [spans] at chain
  rcases (isChain_cons_cons.mp chain).1 with ⟨_,start⟩ | ⟨other,_⟩
  · exact ⟨start.symm,lap.symm⟩
  · exact absurd (other.symm.trans lap) (Nat.succ_ne_self _)

theorem openBound (h : Kept s) (ahead : s.log.startVersion ≠ s.log.availVersion) (mem : x ∈ s.head::laid s)
    (lap : x.lap = s.log.startVersion) : x.stop ≤ s.log.logEnd + 1 := by
  refine turnedBound h.tail.chain (h.turning ahead).turned ?_ mem lap
  rw [h.tail.version]
  exact Ne.symm ahead

theorem requestBehind {l : FsLog} (behind : l.logEnd ≠ 0 ∧ l.logEnd < l.startBlk) : makeDigestSegRequest l =
    ({ l with startBlk := l.begin, startVersion := l.startVersion + 1, startDigest := l.begin },
      ⟨l.nDigest,l.begin,l.logEnd,l.nDigestBlks⟩) := by
  simp only [makeDigestSegRequest]
  rw [if_pos behind]

theorem requestAhead {l : FsLog} (ahead : ¬(l.logEnd ≠ 0 ∧ l.logEnd < l.startBlk)) : makeDigestSegRequest l =
    ({ l with startDigest := l.startBlk },⟨l.nDigest,l.startBlk,l.logEnd,l.nDigestBlks⟩) := by
  simp only [makeDigestSegRequest]
  rw [if_neg ahead]

theorem digestReqLe (h : Kept s) {percent} (most : percent ≤ 100) : digestReq s.log percent ≤ s.live.length := by
  rw [← h.count]
  exact Nat.div_le_of_le_mul (Nat.mul_le_mul_right _ most)

theorem behindKept {percent} (h : Kept s) (fresh : Fresh s (.request percent)) (most : percent ≤ 100)
    (positive : 0 < digestReq s.log percent) (behind : s.log.logEnd ≠ 0 ∧ s.log.logEnd < s.log.startBlk) :
    Kept { s with
      log := (makeDigestSegRequest s.log).1
      request := some { (makeDigestSegRequest s.log).2 with count := digestReq s.log percent } } := by
  have ahead : s.log.startVersion ≠ s.log.availVersion := fun level => by
    have := fresh.1 level
    omega
  have count := digestReqLe h most
  have lead := h.lead
  obtain ⟨y,rest,live⟩ : ∃ y rest, s.live = y::rest := List.exists_cons_of_length_pos (Nat.lt_of_lt_of_le positive count)
  have spans : laid s = y::(rest ++ s.pending.toList) := by rw [laid,live,cons_append]
  have tail := h.tail
  rw [spans] at tail
  have other : y.lap ≠ s.head.lap := by
    intro lap
    have bound := openBound h ahead (by rw [spans]; simp) lap
    have long := tail.long y (.head _)
    rcases (isChain_cons_cons.mp tail.chain).1 with ⟨_,start⟩ | ⟨next,_⟩
    · simp only [State.head,Span.stop] at *
      omega
    · omega
  have wrapped := tailWrap tail other
  have level : s.log.startVersion + 1 = s.log.availVersion := by
    have := (tailLaps wrapped.toTail (.head _)).2
    simp only [State.head] at this
    omega
  have laps : ∀ x ∈ s.live, x.lap = s.log.startVersion + 1 := by
    intro x mem
    have := tailLaps wrapped.toTail (.tail _ (by rw [← spans]; exact liveLaid mem))
    simp only [State.head] at this
    omega
  rw [requestBehind behind]
  refine ⟨?_,h.headed,h.count,?_,fun open_ => absurd level open_,fun d flying => ?_⟩
  · show LongTail _ ⟨s.log.begin,0,s.log.startVersion + 1⟩ (laid s)
    rw [spans]
    exact longSame wrapped ⟨rfl,rfl,rfl,rfl⟩
  · show s.log.availVersion ≤ s.log.startVersion + 1 + 1
    omega
  · cases flying
    refine ⟨rfl,positive,count,fun x first => ?_,.inl fun x mem => ⟨laps x (mem_of_mem_take mem),fresh.2 (.inr behind.2) x mem⟩⟩
    replace first : x ∈ s.live.head? := first
    rw [live] at first
    cases first
    rcases (isChain_cons_cons.mp tail.chain).1 with ⟨same,_⟩ | ⟨next,start,_⟩
    · exact absurd same other
    · exact ⟨start.symm,next.symm⟩

theorem aheadFirst {percent} (h : Kept s) (fresh : Fresh s (.request percent))
    (ahead : ¬(s.log.logEnd ≠ 0 ∧ s.log.logEnd < s.log.startBlk)) :
    (∀ x ∈ s.live.head?, Designates s.log x) ∧
    ((∀ x ∈ s.live.take (digestReq s.log percent), x.lap = s.log.startVersion ∧ x.stop ≠ s.log.logEnd + 1) ∨
      s.log.startVersion ≠ s.log.availVersion ∧ s.log.startBlk ≤ s.log.logEnd) := by
  by_cases level : s.log.startVersion = s.log.availVersion
  · have laps : ∀ x ∈ s.live, x.lap = s.log.startVersion := fun x mem => by
      have := liveSide h mem
      omega
    refine ⟨fun x first => designated h first (laps x (List.mem_of_mem_head? first)),.inl fun x mem => ?_⟩
    exact ⟨laps x (mem_of_mem_take mem),fresh.2 (.inl level) x mem⟩
  · obtain ⟨turned,far,_⟩ := h.turning level
    have bounds := h.tail.bounds
    have before : s.log.startBlk ≤ s.log.logEnd := by
      simp only [gLogSize,maxTransaction] at far bounds
      omega
    refine ⟨fun x first => designated h first ?_,.inr ⟨level,before⟩⟩
    obtain ⟨rest,spans⟩ := liveHead first
    rw [spans] at turned
    by_contra lap
    have stop := (isChain_cons_cons.mp turned).1 lap
    simp only [State.head,Span.stop] at stop
    omega

theorem aheadKept {percent} (h : Kept s) (fresh : Fresh s (.request percent)) (most : percent ≤ 100)
    (positive : 0 < digestReq s.log percent) (ahead : ¬(s.log.logEnd ≠ 0 ∧ s.log.logEnd < s.log.startBlk)) :
    Kept { s with
      log := (makeDigestSegRequest s.log).1
      request := some { (makeDigestSegRequest s.log).2 with count := digestReq s.log percent } } := by
  have count := digestReqLe h most
  obtain ⟨first,range⟩ := aheadFirst h fresh ahead
  rw [requestAhead ahead]
  refine ⟨longSame h.tail ⟨rfl,rfl,rfl,rfl⟩,h.headed,h.count,h.lead,fun other => ?_,fun d flying => ?_⟩
  · obtain ⟨turned,far,room⟩ := h.turning other
    exact ⟨turned,far,room⟩
  · cases flying
    exact ⟨rfl,positive,count,first,range.imp id fun ⟨other,before⟩ => ⟨other,rfl,before⟩⟩

theorem requestKept {percent} (h : Kept s) (fresh : Fresh s (.request percent)) (taken : step s (.request percent) = some t) :
    Kept t := by
  obtain ⟨⟨_,most,positive⟩,rfl⟩ := ifTaken taken
  by_cases behind : s.log.logEnd ≠ 0 ∧ s.log.logEnd < s.log.startBlk
  · exact behindKept h fresh most positive behind
  · exact aheadKept h fresh most positive behind

end kept

section walk
variable {headers : Nat → Header} {lo hi mark : Nat} {x : Span} {xs : List Span}

theorem linkedTurned (chain : xs.IsChain (Follows lo hi)) (turned : xs.IsChain (Turned mark)) (long : ∀ x ∈ xs, 0 < x.len)
    (inside : ∀ x ∈ xs, ∀ y ∈ xs, y.lap = x.lap → x.stop ≤ y.start → x.stop ≠ mark + 1) : Linked lo mark xs := by
  induction xs with
  | nil => exact List.isChain_nil
  | cons x xs ih =>
    have rest := ih chain.tail turned.tail (fun y mem => long y (.tail _ mem))
      (fun y left z right => inside y (.tail _ left) z (.tail _ right))
    cases xs with
    | nil => exact List.isChain_singleton x
    | cons y ys =>
      refine isChain_cons_cons.mpr ⟨?_,rest⟩
      rcases (isChain_cons_cons.mp chain).1 with ⟨lap,start⟩ | ⟨lap,start,_⟩
      · exact nextSame start (inside x (by simp) y (by simp) lap (Nat.le_of_eq start.symm)) (long x (.head _))
      · rw [nextBegin ((isChain_cons_cons.mp turned).1 (by omega)),start]

theorem visitedSpans (linked : Linked lo mark (x::xs)) (headed : Headed headers (x::xs)) :
    visited headers lo mark (xs.length + 1) x.start = (x::xs).map fun z => (z.start,⟨z.len,true⟩) := by
  induction xs generalizing x with
  | nil => simp [visited,headed x (by simp)]
  | cons y ys ih =>
    obtain ⟨next,rest⟩ := isChain_cons_cons.mp linked
    rw [List.length_cons,visited,headed x (.head _),List.map_cons]
    simp only [next]
    rw [ih rest (fun z mem => headed z (.tail _ mem))]

end walk

section response
variable {s t : State} {d : Digest} {x : Span}

theorem takenChain (h : Kept s) (n : Nat) : (s.head::s.live.take n).IsChain (Follows s.log.begin s.log.size) ∧
    LongTail s.log s.head (s.live.take n ++ (s.live.drop n ++ s.pending.toList)) := by
  have tail := h.tail
  rw [laid,← List.take_append_drop n s.live,append_assoc] at tail
  have chain := tail.chain
  rw [← cons_append] at chain
  exact ⟨chain.left_of_append,tail⟩

theorem takenTurned (h : Kept s) (ahead : s.log.startVersion ≠ s.log.availVersion) (n : Nat) :
    (s.head::s.live.take n).IsChain (Turned s.log.logEnd) := by
  have turned := (h.turning ahead).turned
  rw [laid,← List.take_append_drop n s.live,append_assoc,← cons_append] at turned
  exact turned.left_of_append

theorem takenSome (flight : Flight s d) : ∃ x xs, s.live.take d.count = x::xs ∧ xs.length + 1 = d.count ∧
    Designates s.log x := by
  have length : (s.live.take d.count).length = d.count := by rw [List.length_take]; exact Nat.min_eq_left flight.count
  have positive := flight.positive
  cases taken : s.live.take d.count with
  | nil => rw [taken,List.length_nil] at length; omega
  | cons x xs =>
    refine ⟨x,xs,rfl,by rw [← length,taken,List.length_cons],flight.first x ?_⟩
    have first := congrArg List.head? taken
    rw [List.head?_take,if_neg (by omega)] at first
    exact first

section
variable (h : Kept s)
include h

theorem takenLong {n} (mem : x ∈ s.live.take n) : 2 ≤ x.len ∧ x.len ≤ maxTransaction :=
  h.tail.long x (liveLaid (mem_of_mem_take mem))

theorem openLap (ahead : s.log.startVersion ≠ s.log.availVersion) (before : s.log.startBlk ≤ s.log.logEnd)
    (mem : x ∈ s.live) (stop : s.log.logEnd + 1 ≤ x.stop) : x.lap = s.log.startVersion := by
  rcases liveSide h mem with lap | ⟨lap,_⟩
  · exact lap
  · have := (h.turning ahead).room x mem lap
    omega

theorem flightLinked (flight : Flight s d) : Linked s.log.begin d.stop (s.live.take d.count) := by
  have chain := (takenChain h d.count).1.tail
  have long : ∀ x ∈ s.live.take d.count, 0 < x.len := fun x mem => by
    have := takenLong h mem
    omega
  rcases flight.range with flat | ⟨ahead,stop,before⟩
  · exact linkedOneLap chain (fun x left y right => (flat x left).1.trans (flat y right).1.symm) (fun x mem => (flat x mem).2) long
  · rw [stop]
    refine linkedTurned chain (takenTurned h ahead d.count).tail long fun x left y right lap order last => ?_
    have past : s.log.logEnd + 1 ≤ y.stop := by
      rw [← last]
      exact Nat.le_trans order (Nat.le_add_right _ _)
    have version := openLap h ahead before (mem_of_mem_take right) past
    have bound := openBound h ahead (.tail _ (liveLaid (mem_of_mem_take right))) version
    have some := long y right
    simp only [Span.stop] at *
    omega

theorem flightHeaded (d : Digest) : Headed s.headers (s.live.take d.count) :=
  fun x mem => h.headed x (mem_of_mem_take mem)

theorem keptExact : Exact s where
  place := by
    intro x first
    obtain ⟨rest,spans⟩ := liveHead first
    have chain := h.tail.chain
    rw [spans] at chain
    rcases (isChain_cons_cons.mp chain).1 with ⟨lap,start⟩ | ⟨lap,start,_⟩
    · exact .inl ⟨start.symm,lap.symm⟩
    · have high := (tailLaps h.tail.toTail (.tail _ (by rw [spans]; exact .head _))).2
      simp only [State.head] at lap
      have turned := (h.turning (by omega)).turned
      rw [spans] at turned
      exact .inr ⟨lap,start,(isChain_cons_cons.mp turned).1 (by simp only [State.head]; omega)⟩
  corrected := fun d held => (h.flight d held).first
  walk := by
    intro d held
    have flight := h.flight d held
    obtain ⟨x,xs,taken,length,designates⟩ := takenSome flight
    have linked := flightLinked h flight
    have headed := flightHeaded h d
    refine ⟨flight.positive,flight.count,?_⟩
    rw [taken] at linked headed ⊢
    rw [flight.start,designates.1,← length]
    exact visitedSpans linked headed

theorem turnsMarker (ahead : s.log.startVersion ≠ s.log.availVersion) {n} (mem : x ∈ s.live.take n) :
    Turns s.log.begin s.log.logEnd x ↔ x.stop = s.log.logEnd + 1 := by
  have long := takenLong h mem
  constructor
  · intro turns
    by_contra inside
    exact notTurns inside (by omega) turns
  · intro last
    refine turnsLast last ?_
    have far := (h.turning ahead).far
    have bounds := h.tail.bounds
    simp only [FsLog.begin,Span.stop,gLogSize,maxTransaction] at *
    omega

theorem crossedTurns (ahead : s.log.startVersion ≠ s.log.availVersion) (before : s.log.startBlk ≤ s.log.logEnd)
    {n} (last : (s.live.take n).getLastD s.head ∈ s.live) :
    let z := (s.live.take n).getLastD s.head
    let turns := (s.live.take n).any fun x => decide (Turns s.log.begin s.log.logEnd x)
    if z.stop = s.log.logEnd + 1 then turns = true ∧ z.lap = s.log.startVersion
    else z.lap = s.log.startVersion + turns.toNat := by
  intro z turns
  have turnsIff : turns = true ↔ ∃ x ∈ s.live.take n, x.stop = s.log.logEnd + 1 := by
    rw [List.any_eq_true]
    refine exists_congr fun x => and_congr_right fun mem => ?_
    rw [decide_eq_true_eq]
    exact turnsMarker h ahead mem
  have chain := (takenChain h n).1
  have covered : z ∈ s.live.take n ∨ z = s.head := (mem_cons.mp lastMem).symm
  split
  · rename_i stop
    refine ⟨turnsIff.mpr ⟨z,covered.resolve_right fun same => ?_,stop⟩,openLap h ahead before last (Nat.le_of_eq stop.symm)⟩
    rw [same] at stop
    simp only [State.head,Span.stop] at stop
    omega
  · rename_i stop
    rcases liveSide h last with lap | ⟨lap,next⟩
    · -- Whatever of the lap ends at the marker ends behind the last transaction covered.
      have still : ¬turns = true := by
        rw [turnsIff]
        rintro ⟨x,mem,marked⟩
        have same := openLap h ahead before (mem_of_mem_take mem) (Nat.le_of_eq marked.symm)
        have most := laidStopLe chain (.tail _ mem) (same.trans lap.symm)
        have bound := openBound h ahead (.tail _ (liveLaid last)) lap
        exact stop (Nat.le_antisymm bound (marked ▸ most))
      rw [Bool.eq_false_of_not_eq_true still]
      exact lap
    · obtain ⟨x,mem,marked⟩ := turnedAt (takenTurned h ahead n) (fun same => ahead (same.symm.trans lap))
      have inside : x ∈ s.live.take n := (mem_cons.mp mem).resolve_left fun same => by
        rw [same] at marked
        simp only [State.head,Span.stop] at marked
        omega
      rw [turnsIff.mpr ⟨x,inside,marked⟩]
      exact lap.trans next

theorem walked (flight : Flight s d) {next rotated}
    (walk : digestLogs s.headers s.log.begin d.stop d.count d.start false = some (next,rotated)) :
    let z := (s.live.take d.count).getLastD s.head
    next = z.stop ∧ z.lap = s.log.startVersion + rotated.toNat ∨
    next = s.log.begin ∧ rotated = true ∧ z.lap = s.log.startVersion ∧ z.stop = s.log.logEnd + 1 ∧
      s.log.startVersion ≠ s.log.availVersion := by
  obtain ⟨x,xs,taken,length,designates⟩ := takenSome flight
  have linked := flightLinked h flight
  have headed := flightHeaded h d
  have last : xs.getLastD x ∈ s.live.take d.count := by rw [taken]; exact lastMem
  have long := takenLong h last
  rw [taken] at linked headed
  rw [flight.start,designates.1,← length,digestSpans linked headed,Bool.false_or,← taken] at walk
  obtain ⟨rfl,rfl⟩ := Prod.mk.inj (Option.some.inj walk)
  rw [taken,getLastD_cons,← taken]
  rcases flight.range with flat | ⟨ahead,stop,before⟩
  · have still : (s.live.take d.count).any (fun z => decide (Turns s.log.begin d.stop z)) = false := by
      rw [List.any_eq_false]
      intro z mem
      have := takenLong h mem
      simpa using notTurns (flat z mem).2 (by omega)
    rw [still]
    exact .inl ⟨nextStop (flat _ last).2 (by omega),(flat _ last).1⟩
  · have end_ : (s.live.take d.count).getLastD s.head = xs.getLastD x := by rw [taken,getLastD_cons]
    have crossed := crossedTurns h ahead before (show (s.live.take d.count).getLastD s.head ∈ s.live by
      rw [end_]; exact mem_of_mem_take last)
    rw [end_] at crossed
    rw [stop]
    dsimp only at crossed
    split at crossed
    · rename_i marked
      exact .inr ⟨nextBegin marked,crossed.1,crossed.2,marked,ahead⟩
    · rename_i inside
      exact .inl ⟨nextStop inside (by omega),crossed⟩

end

section responded
variable {next : Nat} {rotated : Bool}

@[simp] theorem respondedAvail : (Rsync.handleDigestResponse s.log d next rotated).availVersion = s.log.availVersion := by
  cases rotated <;> rfl
@[simp] theorem respondedVersion :
    (Rsync.handleDigestResponse s.log d next rotated).startVersion = s.log.startVersion + rotated.toNat := by
  cases rotated <;> rfl
@[simp] theorem respondedCount : (Rsync.handleDigestResponse s.log d next rotated).nDigest = s.log.nDigest - d.count := by
  cases rotated <;> rfl

theorem movedTurning (h : Kept s) (ahead : s.log.startVersion ≠ s.log.availVersion)
    (lap : ((s.live.take d.count).getLastD s.head).lap = s.log.startVersion) :
    Turning { s with
      log := Rsync.handleDigestResponse s.log d ((s.live.take d.count).getLastD s.head).stop false
      live := s.live.drop d.count
      request := none } := by
  obtain ⟨turned,far,room⟩ := h.turning ahead
  rw [laid,← List.take_append_drop d.count s.live,append_assoc] at turned
  refine ⟨?_,far,fun x mem avail => ?_⟩
  · refine turnedAlike ?_ ?_ (laidRest turned)
    · rfl
    · exact lap.symm
  · refine Nat.le_trans (room x (List.mem_of_mem_drop mem) avail) ?_
    show s.log.startBlk ≤ ((s.live.take d.count).getLastD s.head).stop
    rcases mem_cons.mp (@lastMem s.head (s.live.take d.count)) with same | later
    · rw [same]
      exact Nat.le_refl _
    · have first := laidFirst (takenChain h d.count).1 later
      simp only [Before,State.head,Span.stop] at *
      omega

theorem wrappedTail (h : Kept s) (ahead : s.log.startVersion ≠ s.log.availVersion)
    (lap : ((s.live.take d.count).getLastD s.head).lap = s.log.startVersion)
    (stop : ((s.live.take d.count).getLastD s.head).stop = s.log.logEnd + 1) :
    LongTail s.log ⟨s.log.begin,0,s.log.startVersion + 1⟩ (s.live.drop d.count ++ s.pending.toList) := by
  have whole := (takenChain h d.count).2
  have moved := longRest whole
  cases rest : s.live.drop d.count ++ s.pending.toList with
  | nil =>
    have version := moved.version
    rw [rest] at version
    exact absurd (lap.symm.trans version) ahead
  | cons y ys =>
    rw [rest] at moved
    rw [← lap]
    refine tailWrap moved fun same => ?_
    have mem : y ∈ laid s := by
      rw [laid,← List.take_append_drop d.count s.live,append_assoc,rest]
      simp
    have bound := openBound h ahead (.tail _ mem) (same.trans lap)
    have long := moved.long y (.head _)
    rcases (isChain_cons_cons.mp moved.chain).1 with ⟨_,start⟩ | ⟨other,_⟩
    · simp only [Span.stop] at *
      omega
    · omega

theorem respondKept (h : Kept s) (taken : step s .respond = some t) : Kept t := by
  simp only [step] at taken
  split at taken <;> try contradiction
  rename_i d held
  obtain ⟨⟨next,rotated⟩,walk,rfl⟩ := Option.map_eq_some_iff.mp taken
  have flight := h.flight d held
  have whole := (takenChain h d.count).2
  have reported := walked h flight walk
  have lead := h.lead
  refine ⟨?_,fun x mem => h.headed x (List.mem_of_mem_drop mem),?_,?_,fun other => ?_,by simp⟩
  · show LongTail _ ⟨next,0,(Rsync.handleDigestResponse s.log d next rotated).startVersion⟩ (s.live.drop d.count ++ s.pending.toList)
    refine longSame ?_ (responseTail s.log d next rotated)
    rw [respondedVersion]
    rcases reported with ⟨rfl,lap⟩ | ⟨rfl,rfl,lap,stop,ahead⟩
    · have inside := whole.inside _ (mem_cons.mpr ((mem_cons.mp lastMem).imp id (mem_append_left _)))
      exact longDrop whole (Nat.le_trans inside.1 (Nat.le_add_right _ _)) rfl lap.symm
    · exact wrappedTail h ahead lap stop
  · rw [respondedCount,h.count,List.length_drop]
  · simp only [respondedAvail,respondedVersion]
    omega
  · simp only [respondedAvail,respondedVersion] at other
    have high := (tailLaps whole.toTail (mem_cons.mpr ((mem_cons.mp lastMem).imp id (mem_append_left _)))).2
    rcases reported with ⟨rfl,lap⟩ | ⟨_,rfl,_,_,ahead⟩
    · cases rotated with
      | false => exact movedTurning h other lap
      | true =>
        simp only [Bool.toNat_true] at lap other
        omega
    · simp only [Bool.toNat_true] at other
      have low := (tailLaps h.tail.toTail (.head _)).2
      simp only [State.head] at low
      omega

end responded

end response

def committed (sizes : List Nat) : List Action := sizes.flatMap fun n => [.alloc n,.ret blank]
def digested : List Action := [.request 100,.respond]

def crossing (s : State) : Bool := s.request.any fun d => d.count = 2 && d.stop = 127038 && s.log.availVersion = 1

def staleMarker : List Action :=
  (List.replicate 31 maxTransaction ++ (maxTransaction - 1)::List.replicate 30 maxTransaction ++ [4]).flatMap
    (fun n => committed [n] ++ digested) ++ committed [4] ++ [.request 100]

def astray (s : State) : Bool := s.request.isSome && s.live.head?.any fun x => !decide (Designates s.log x)

end LineFS.DigestHead
