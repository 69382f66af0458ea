import LineFS.Log
import LineFS.Overlay

/-! The pieces of the log that the file cache points at, over whole runs of the update log.
`check_log_invalidation` decides from `avail_version` and `next_avail_header` which pieces are out of
date; `log_alloc` moves both before it waits for room. Readers check at any time. -/
namespace LineFS.Invalidation
open Base Log Overlay

structure Patch where
  log : FcacheLog
  tx : Span
  deriving DecidableEq, Repr

structure Cached where
  logVersion : Nat
  patches : List Patch
  deriving DecidableEq, Repr

def Cached.check (l : FsLog) (c : Cached) : Cached :=
  let patches := if 1 < l.availVersion - c.logVersion then []
    else c.patches.filter fun p => !outdated l.availVersion l.nextAvailHeader p.log
  ⟨if patches = [] then 0 else c.logVersion,patches⟩

inductive Kind where
  | file
  | dir
  | whole
  deriving DecidableEq, Repr

structure Piece where
  key : Nat
  pos : Nat
  offset : Nat
  size : Nat
  kind : Kind
  deriving DecidableEq, Repr

structure State where
  log : Log.State
  handed : List Span
  writing : Option Span
  fcache : Nat → Option Cached

def init (logSbBlk : Nat) : State := ⟨Log.init logSbBlk,[],none,fun _ => none⟩

def replaced (e : Piece) (patches : List Patch) : List Patch :=
  match e.kind with
  | .file => patches
  | .dir => patches.eraseP fun p => p.log.offset = e.offset ∧ p.log.size ≤ e.size
  | .whole => []

def persistPiece (l : FsLog) (tx : Span) (e : Piece) (old : Option Cached) : Cached :=
  let before := replaced e ((old.map (Cached.check l)).getD ⟨0,[]⟩).patches
  ⟨l.availVersion,⟨⟨tx.start + e.pos,e.offset,e.size,l.availVersion⟩,tx⟩::before⟩

def setBlock (fcache : Nat → Option Cached) (key : Nat) (c : Option Cached) : Nat → Option Cached :=
  fun k => if k = key then c else fcache k

inductive Action where
  | alloc (nrBlocks : Nat)
  | ret
  | persist (e : Piece)
  | finish
  | check (key : Nat)
  | ack (k : Nat)
  deriving DecidableEq, Repr

def step (s : State) : Action → Option State
  | .alloc n => if s.writing = none then (Log.step s.log (.alloc n)).map fun log => { s with log } else none
  | .ret => (Log.step s.log .ret).map fun log =>
      { s with log, handed := s.handed ++ s.log.pending.toList, writing := s.log.pending }
  | .persist e =>
    match s.writing with
    | none => none
    | some tx =>
      if 0 < e.pos ∧ e.pos < tx.len then
        some { s with fcache := setBlock s.fcache e.key (some (persistPiece s.log.log tx e (s.fcache e.key))) }
      else none
  | .finish => if s.writing.isSome then some { s with writing := none } else none
  | .check key => some { s with fcache := setBlock s.fcache key ((s.fcache key).map (Cached.check s.log.log)) }
  | .ack k =>
    if ∀ x ∈ s.writing, x ∉ s.log.live.take k then (Log.step s.log (.ack k)).map fun log => { s with log }
    else none

theorem replacedMem {e patches p} (mem : p ∈ replaced e patches) : p ∈ patches := by
  unfold replaced at mem
  split at mem
  · exact mem
  · exact List.mem_of_mem_eraseP mem
  · contradiction

theorem checkMem {l c p} : p ∈ (Cached.check l c).patches ↔
    p ∈ c.patches ∧ ¬1 < l.availVersion - c.logVersion ∧ ¬1 < l.availVersion - p.log.version ∧
    ¬(l.availVersion - p.log.version = 1 ∧ p.log.addr < l.nextAvailHeader) := by
  by_cases far : 1 < l.availVersion - c.logVersion
  · simp [Cached.check,far]
  · simp only [Cached.check,far,if_false,List.mem_filter,outdated,Bool.not_eq_true',Bool.or_eq_false_iff,
      decide_eq_false_iff_not,Bool.and_eq_false_imp,beq_iff_eq]
    tauto

theorem checkVersion {l c p} (mem : p ∈ (Cached.check l c).patches) : (Cached.check l c).logVersion = c.logVersion := by
  have some : (Cached.check l c).patches ≠ [] := List.ne_nil_of_mem mem
  exact if_neg some

def history (s : State) : Log.State := { s.log with live := s.handed, cursor := ⟨s.log.log.begin,0,0⟩ }

def Kept (s : State) (c : Cached) (p : Patch) : Prop := p ∈ (c.check s.log.log).patches
deriving Decidable

structure Exact (s : State) (c : Cached) (p : Patch) : Prop where
  own : p.tx ∈ s.handed ∧ p.tx.start < p.log.addr ∧ p.log.addr < p.tx.stop
  fresh : Kept s c p → ∀ older later, laid (history s) = older ++ p.tx::later →
    ∀ y ∈ later, ¬(y.start ≤ p.log.addr ∧ p.log.addr < y.stop)
  whole : p.tx ∈ s.log.live → Kept s c p

def Orderly (s : State) : Action → Prop
  | .alloc n => Paced s.log (.alloc n)
  | _ => True
instance (s a) : Decidable (Orderly s a) := by cases a <;> unfold Orderly <;> infer_instance

structure Origin (handed : List Span) (c : Cached) (p : Patch) : Prop where
  mem : p.tx ∈ handed
  low : p.tx.start < p.log.addr
  high : p.log.addr < p.tx.stop
  version : p.log.version = p.tx.lap
  newest : p.log.version ≤ c.logVersion

structure Covered (s : State) : Prop where
  past : Laid (history s)
  guarded : Guarded s.log
  writing : ∀ x ∈ s.writing, s.log.pending = none ∧ x ∈ s.handed ∧ x.lap = s.log.log.availVersion
  origin : ∀ key c, s.fcache key = some c → ∀ p ∈ c.patches, Origin s.handed c p

theorem initCovered (logSbBlk : Nat) : Covered (init logSbBlk) :=
  ⟨initLaid logSbBlk,initGuarded logSbBlk,by simp [init],by simp [init]⟩

theorem originCheck {handed l c p} (h : ∀ q ∈ c.patches, Origin handed c q) (mem : p ∈ (Cached.check l c).patches) :
    Origin handed (Cached.check l c) p := by
  have old := h p (checkMem.mp mem).1
  exact ⟨old.mem,old.low,old.high,old.version,checkVersion mem ▸ old.newest⟩

theorem originPersist {handed l tx e old} (mem : tx ∈ handed) (lap : l.availVersion = tx.lap)
    (low : 0 < e.pos) (high : e.pos < tx.len) (h : ∀ c, old = some c → ∀ q ∈ c.patches, Origin handed c q)
    (below : ∀ x ∈ handed, x.lap ≤ l.availVersion) :
    ∀ p ∈ (persistPiece l tx e old).patches, Origin handed (persistPiece l tx e old) p := by
  intro p here
  rcases List.mem_cons.mp here with rfl | before
  · exact ⟨mem,Nat.lt_add_of_pos_right low,Nat.add_lt_add_left high _,lap,Nat.le_refl _⟩
  · cases old with
    | none => exact absurd (replacedMem before) List.not_mem_nil
    | some c =>
      have origin := originCheck (h c rfl) (replacedMem before)
      exact ⟨origin.mem,origin.low,origin.high,origin.version,origin.version ▸ below _ origin.mem⟩

theorem handedLap {s x} (h : Laid (history s)) (mem : x ∈ s.handed) : x.lap ≤ s.log.log.availVersion := by
  have below := laidLapLe h.chain (.tail _ (List.mem_append_left _ mem))
  rwa [h.version] at below

theorem stepCovered {s a t} (before : Covered s) (orderly : Orderly s a) (h : step s a = some t) : Covered t := by
  obtain ⟨past,guarded,writing,origin⟩ := before
  cases a with
  | alloc n =>
    simp only [step,Option.ite_none_right_eq_some,Option.map_eq_some_iff] at h
    obtain ⟨idle,log,taken,rfl⟩ := h
    have next := stepGuarded guarded (a := .alloc n) orderly taken
    refine ⟨?_,next,by simp [idle],origin⟩
    obtain ⟨⟨idle,positive,small⟩,rfl⟩ := ifTaken taken
    refine stepLaid (a := .alloc n) past ?_
    simp [history,Log.step,idle,positive,small,FsLog.begin]
  | ret =>
    obtain ⟨log,taken,rfl⟩ := Option.map_eq_some_iff.mp h
    have next := stepGuarded guarded (a := .ret) trivial taken
    obtain ⟨x,held,notFull,rfl⟩ := retExact taken
    have version := past.version
    rw [laid,history,held,Option.toList_some,List.getLastD_concat] at version
    refine ⟨?_,next,?_,?_⟩
    · refine stepLaid (a := .ret) past ?_
      simp [history,Log.step,held,notFull,commit,FsLog.begin]
    · intro y new
      cases held.symm.trans new
      exact ⟨rfl,by simp [held],version⟩
    · intro key c held p mem
      have old := origin key c held p mem
      exact ⟨List.mem_append_left _ old.mem,old.low,old.high,old.version,old.newest⟩
  | persist e =>
    simp only [step] at h
    split at h <;> try contradiction
    rename_i tx held
    obtain ⟨⟨low,high⟩,rfl⟩ := ifTaken h
    obtain ⟨_,mem,lap⟩ := writing tx held
    refine ⟨past,guarded,writing,?_⟩
    intro key c found p here
    simp only [setBlock] at found
    split at found
    · cases found
      exact originPersist mem lap.symm low high (fun c old => origin e.key c old) (fun x => handedLap past) p here
    · exact origin key c found p here
  | finish =>
    obtain ⟨_,rfl⟩ := ifTaken h
    exact ⟨past,guarded,by simp,origin⟩
  | check key =>
    cases h
    refine ⟨past,guarded,writing,?_⟩
    intro k c found p here
    simp only [setBlock] at found
    split at found
    · obtain ⟨old,held,rfl⟩ := Option.map_eq_some_iff.mp found
      exact originCheck (origin key old held) here
    · exact origin k c found p here
  | ack k =>
    simp only [step,Option.ite_none_right_eq_some,Option.map_eq_some_iff] at h
    obtain ⟨_,log,taken,rfl⟩ := h
    have next := stepGuarded guarded (a := .ack k) trivial taken
    obtain ⟨_,rfl⟩ := ifTaken taken
    obtain ⟨chain,tail,version,inside,bounds⟩ := past
    refine ⟨⟨?_,?_,?_,?_,?_⟩,next,by simpa using writing,origin⟩
    · simpa [history,laid,FsLog.begin] using chain
    · simpa [history,laid,FsLog.begin] using tail
    · simpa [history,laid,FsLog.begin] using version
    · simpa [history,laid,FsLog.begin] using inside
    · simpa [history] using bounds

theorem orderlyCovered {logSbBlk s} (run : Reach step Orderly (init logSbBlk) s) : Covered s :=
  reachInvariant Covered (initCovered logSbBlk) (fun _ _ _ => stepCovered) run

theorem keptFresh {s c p} (h : Covered s) (o : Origin s.handed c p) (kept : Kept s c p) (older later : List Span)
    (order : laid (history s) = older ++ p.tx::later) :
    ∀ y ∈ later, ¬(y.start ≤ p.log.addr ∧ p.log.addr < y.stop) := by
  intro y mem covers
  have chain := h.past.chain
  have tail := h.past.tail
  have version := h.past.version
  have here : y ∈ (history s).cursor::laid (history s) := by simp [order,mem]
  have lap := laidLapLe chain here
  have stop := laidStopLe chain here
  rw [order,← List.cons_append] at chain
  have after : Before p.tx y :=
    (List.pairwise_cons.mp (List.pairwise_append.mp (laidPairwise chain)).2.1).1 y mem
  obtain ⟨_,_,near,notBelow⟩ := checkMem.mp kept
  have own := o.version
  have high := o.high
  have now : (history s).log = s.log.log := rfl
  rw [now] at tail version
  simp only [Before] at after
  omega

theorem liveKept {s c p} (h : Covered s) (o : Origin s.handed c p) (mem : p ∈ c.patches) (live : p.tx ∈ s.log.live)
    (room : ¬LogFull s.log.log) : Kept s c p := by
  have laps := lapsFrom h.guarded (List.mem_append_left _ live)
  have lead := h.guarded.lead
  have head := h.guarded.head
  have own := o.version
  have low := o.low
  have newest := o.newest
  refine checkMem.mpr ⟨mem,by omega,by omega,?_⟩
  simp only [LogFull] at room
  omega

def commits (n : Nat) : List Action := (List.replicate n [.alloc maxTransaction,.ret,.finish]).flatten
def patched : List Action := [.alloc maxTransaction,.ret,.persist ⟨0,1,0,100,.file⟩,.finish]

def probe (s : State) (good : Cached → Patch → Bool) : Bool :=
  match s.fcache 0 with
  | some c => c.patches.any (good c)
  | none => false

theorem probeExact {s good} (h : probe s good = true) :
    ∃ c p, s.fcache 0 = some c ∧ p ∈ c.patches ∧ good c p = true := by
  unfold probe at h
  split at h <;> try contradiction
  rename_i c held
  obtain ⟨p,mem,good⟩ := List.any_eq_true.mp h
  exact ⟨c,p,held,mem,good⟩

end LineFS.Invalidation
