import LineFS.Base.Ring
import LineFS.Base.Run
import LineFS.Kernfs

/-! The flush of the log at the host of the last replica. Requests are copied into the log and published by
memcpy batches; `memcpy_worker` stores the log block of the last byte copied. From that block and the range
of an fsync, neither with its lap, `persist_log_worker` computes what to flush. -/
namespace LineFS.PersistLog
open Base Kernfs

structure PersistLogArg where
  logAreaBeginBlknr : Nat
  logAreaEndBlknr : Nat
  startBlknr : Nat
  nLogBlks : Nat

def persistLogWorker (digestEndBlknr : Nat) (a : PersistLogArg) : Option (List (Nat × Nat)) :=
  let logEndBlknr := a.startBlknr + a.nLogBlks - 1
  if digestEndBlknr < a.startBlknr then some [(digestEndBlknr + 1,logEndBlknr - digestEndBlknr)]
  else if a.startBlknr < digestEndBlknr then
    some [(a.logAreaBeginBlknr,logEndBlknr - a.logAreaBeginBlknr + 1),(digestEndBlknr + 1,a.logAreaEndBlknr - digestEndBlknr)]
  else none

def endBlknr (m : Memcpy) : Nat := (m.data + m.size - 1) / gBlockSizeBytes

def Inside (x : Span) (m : Memcpy) : Prop := 0 < m.size ∧ x.start < m.data / gBlockSizeBytes ∧ endBlknr m < x.stop
deriving Decidable

/- Where `digest_end_blknrs` comes from: it is zero at first, and a batch without entries stores what a pointer
that was never set leads to. -/
inductive Origin where
  | unset
  | request (i : Nat)
  | garbage
  deriving DecidableEq, Repr

structure Call where
  flushed : Option (List (Nat × Nat))
  due : List Span
  deriving DecidableEq, Repr

structure State where
  logSbBlk : Nat
  requests : List Span
  copied : List Nat
  published : Nat
  digestEndBlknr : Nat
  origin : Origin
  calls : List Call
  deriving DecidableEq, Repr

def State.begin (s : State) : Nat := s.logSbBlk + 1
def State.size (s : State) : Nat := s.logSbBlk + gLogSize
def State.first (s : State) : Span := ⟨s.begin,0,0⟩
def State.lastRequest (s : State) : Span := s.requests.getLastD s.first

def init (logSbBlk : Nat) : State := ⟨logSbBlk,[],[],0,0,.unset,[]⟩

inductive Action where
  | issue (nLogBlks : Nat)
  | rotate (nLogBlks : Nat)
  | copy (i : Nat)
  | execute (count : Nat) (list : List Memcpy) (garbage : Nat)
  | persist (i : Nat)

def owner (s : State) (count : Nat) (m : Memcpy) : Option Nat :=
  (List.range' s.published count).find? fun i => (s.requests[i]?).any fun x => decide (Inside x m)

def due (s : State) (i : Nat) : List Span :=
  ((List.range (i + 1)).filter fun j => decide (j ∈ s.copied) && decide (s.published ≤ j)).filterMap fun j => s.requests[j]?

/- A copy never overwrites a block that was copied and not published. A batch publishes the next requests. -/
def step (s : State) : Action → Option State
  | .issue n =>
    if 0 < n ∧ s.lastRequest.stop + n ≤ s.size then
      some { s with requests := s.requests ++ [⟨s.lastRequest.stop,n,s.lastRequest.lap⟩] }
    else none
  | .rotate n =>
    if s.size < s.lastRequest.stop + n ∧ s.begin + n ≤ s.size then
      some { s with requests := s.requests ++ [⟨s.begin,n,s.lastRequest.lap + 1⟩] }
    else none
  | .copy i =>
    match s.requests[i]? with
    | none => none
    | some x =>
      if i ∉ s.copied ∧ ∀ j ∈ s.copied, s.published ≤ j → ∀ y ∈ s.requests[j]?, Apart y x then some { s with copied := i::s.copied }
      else none
  | .execute count list garbage =>
    if s.published + count ≤ s.requests.length ∧ (∀ j ∈ List.range' s.published count, j ∈ s.copied) ∧
        ∀ m ∈ list, (owner s count m).isSome then
      match list.getLast? with
      | none => some { s with published := s.published + count, digestEndBlknr := garbage, origin := .garbage }
      | some m =>
        some { s with
          published := s.published + count
          digestEndBlknr := endBlknr m
          origin := ((owner s count m).map Origin.request).getD .garbage }
    else none
  | .persist i =>
    match s.requests[i]? with
    | none => none
    | some x =>
      if i ∈ s.copied then
        some { s with calls := s.calls ++ [⟨persistLogWorker s.digestEndBlknr ⟨s.begin,s.size,x.start,x.len⟩,due s i⟩] }
      else none

def Covers (c : Call) : Prop :=
  ∃ ranges, c.flushed = some ranges ∧ ∀ x ∈ c.due, ∀ b, x.start ≤ b → b < x.stop → ∃ r ∈ ranges, r.1 ≤ b ∧ b < r.1 + r.2

/- When an fsync is flushed, the last entry published is of the same lap; or of a later one, but not of the
block where the fsync starts; or of the lap before, at a block behind that one. -/
def Ordered (s : State) : Action → Prop
  | .execute _ list _ => list ≠ []
  | .persist i => ∀ x ∈ s.requests[i]?,
    match s.origin with
    | .unset => x.lap = 0
    | .request j => ∀ y ∈ s.requests[j]?, y.lap = x.lap ∨ x.lap < y.lap ∧ s.digestEndBlknr ≠ x.start ∨
        y.lap + 1 = x.lap ∧ x.start < s.digestEndBlknr
    | .garbage => False
  | _ => True

instance (s : State) : (a : Action) → Decidable (Ordered s a)
  | .execute _ _ _ => inferInstanceAs (Decidable (_ ≠ _))
  | .persist _ => by unfold Ordered; cases s.origin <;> infer_instance
  | .issue _ | .rotate _ | .copy _ => inferInstanceAs (Decidable True)

def Marked (s : State) : Prop :=
  match s.origin with
  | .unset => s.digestEndBlknr = 0
  | .request j => j < s.published ∧ ∃ y, s.requests[j]? = some y ∧ y.start < s.digestEndBlknr ∧ s.digestEndBlknr < y.stop
  | .garbage => True

structure Kept (s : State) : Prop where
  laid : (s.first::s.requests).IsChain (Follows s.begin s.size)
  within : ∀ x ∈ s.requests, s.begin ≤ x.start ∧ 0 < x.len ∧ x.stop ≤ s.size
  published : s.published ≤ s.requests.length
  marked : Marked s
  calls : ∀ c ∈ s.calls, Covers c

section Flushes
variable {s : State} {x y z : Span} {i j : Nat}

theorem requestsBefore (h : Kept s) (less : i < j) (at_ : s.requests[i]? = some x) (at' : s.requests[j]? = some y) : Before x y := by
  have ordered := (List.pairwise_cons.mp (laidPairwise h.laid)).2
  obtain ⟨small,rfl⟩ := List.getElem?_eq_some_iff.mp at_
  obtain ⟨big,rfl⟩ := List.getElem?_eq_some_iff.mp at'
  exact List.pairwise_iff_getElem.mp ordered i j small big less

theorem requestsUpto (h : Kept s) (upto : i ≤ j) (at_ : s.requests[i]? = some x) (at' : s.requests[j]? = some y) :
    x.lap < y.lap ∨ x.lap = y.lap ∧ x.start ≤ y.start ∧ x.stop ≤ y.stop := by
  rcases Nat.lt_or_eq_of_le upto with less | rfl
  · have before := requestsBefore h less at_ at'
    simp only [Before,Span.stop] at *
    omega
  · rw [at_] at at'
    cases at'
    exact .inr ⟨rfl,Nat.le_refl _,Nat.le_refl _⟩

theorem requestWithin (h : Kept s) (at_ : s.requests[i]? = some x) : s.begin ≤ x.start ∧ 0 < x.len ∧ x.stop ≤ s.size :=
  h.within x (List.mem_of_getElem? at_)

theorem dueMem : z ∈ due s i ↔ ∃ j ≤ i, j ∈ s.copied ∧ s.published ≤ j ∧ s.requests[j]? = some z := by
  simp only [due,List.mem_filterMap,List.mem_filter,List.mem_range,Bool.and_eq_true,decide_eq_true_eq]
  constructor
  · rintro ⟨j,⟨upto,copied,left⟩,at_⟩
    exact ⟨j,Nat.le_of_lt_succ upto,copied,left,at_⟩
  · rintro ⟨j,upto,copied,left,at_⟩
    exact ⟨j,⟨Nat.lt_succ_of_le upto,copied,left⟩,at_⟩

abbrev Persists (s : State) (x : Span) (i : Nat) : Prop :=
  Covers ⟨persistLogWorker s.digestEndBlknr ⟨s.begin,s.size,x.start,x.len⟩,due s i⟩

section covers
variable (h : Kept s) (at_ : s.requests[i]? = some x)
include h at_

theorem unsetCovers (zero : s.digestEndBlknr = 0) (lap : x.lap = 0) : Persists s x i := by
  obtain ⟨low,some_,_⟩ := requestWithin h at_
  have least : 1 ≤ s.begin := Nat.le_add_left 1 _
  refine ⟨_,if_pos (by simp only; omega),fun z mem b from_ upto => ⟨_,List.mem_singleton_self _,?_⟩⟩
  obtain ⟨j,before,_,_,at'⟩ := dueMem.mp mem
  have order := requestsUpto h before at' at_
  have start := (requestWithin h at').1
  simp only [Span.stop] at *
  omega

variable (done : j < s.published) (at' : s.requests[j]? = some y)
include done at'

theorem sameCovers (behind : y.start < s.digestEndBlknr) (inside : s.digestEndBlknr < y.stop) (lap : y.lap = x.lap) : Persists s x i := by
  have some_ := (requestWithin h at_).2.1
  by_cases later : i ≤ j
  · -- the request of the fsync is published, and the entry is not in its first block
    have order := requestsUpto h later at_ at'
    have past : x.start < s.digestEndBlknr := by omega
    refine ⟨_,(if_neg (Nat.not_lt.mpr (Nat.le_of_lt past))).trans (if_pos past),fun z mem => ?_⟩
    obtain ⟨k,upto,_,left,_⟩ := dueMem.mp mem
    omega
  · have order := requestsBefore h (Nat.not_le.mp later) at' at_
    have ahead : s.digestEndBlknr < x.start := by
      simp only [Before,Span.stop] at *
      omega
    refine ⟨_,if_pos ahead,fun z mem b from_ upto => ⟨_,List.mem_singleton_self _,?_⟩⟩
    obtain ⟨k,before,_,left,at''⟩ := dueMem.mp mem
    have first := requestsBefore h (Nat.lt_of_lt_of_le done left) at' at''
    have last := requestsUpto h before at'' at_
    simp only [Before,Span.stop] at *
    omega

theorem laterCovers (lap : x.lap < y.lap) (other : s.digestEndBlknr ≠ x.start) : Persists s x i := by
  have less : i < j := by
    by_contra upto
    have order := requestsUpto h (Nat.not_lt.mp upto) at' at_
    omega
  have none_ : due s i = [] := by
    refine List.eq_nil_iff_forall_not_mem.mpr fun z mem => ?_
    obtain ⟨k,upto,_,left,_⟩ := dueMem.mp mem
    omega
  rcases Nat.lt_or_gt_of_ne other with ahead | past
  · exact ⟨_,if_pos ahead,fun z mem => absurd (none_ ▸ mem) List.not_mem_nil⟩
  · exact ⟨_,(if_neg (Nat.not_lt.mpr (Nat.le_of_lt past))).trans (if_pos past),fun z mem => absurd (none_ ▸ mem) List.not_mem_nil⟩

theorem earlierCovers (inside : s.digestEndBlknr < y.stop) (lap : y.lap + 1 = x.lap) (past : x.start < s.digestEndBlknr) : Persists s x i := by
  obtain ⟨low,some_,_⟩ := requestWithin h at_
  refine ⟨_,(if_neg (Nat.not_lt.mpr (Nat.le_of_lt past))).trans (if_pos past),fun z mem b from_ upto => ?_⟩
  obtain ⟨k,before,_,left,at''⟩ := dueMem.mp mem
  have first := requestsBefore h (Nat.lt_of_lt_of_le done left) at' at''
  have last := requestsUpto h before at'' at_
  obtain ⟨start,_,stop⟩ := requestWithin h at''
  by_cases new : z.lap = x.lap
  · refine ⟨_,.head _,?_⟩
    simp only [Span.stop] at *
    omega
  · refine ⟨_,.tail _ (List.mem_singleton_self _),?_⟩
    simp only [Before,Span.stop] at *
    omega

end covers

theorem persistCovers (h : Kept s) (ordered : Ordered s (.persist i)) (at_ : s.requests[i]? = some x) :
    Persists s x i := by
  have marked := h.marked
  have place := ordered x at_
  simp only [Marked] at marked
  cases origin : s.origin with
  | unset =>
    rw [origin] at marked place
    exact unsetCovers h at_ marked place
  | request j =>
    rw [origin] at marked place
    obtain ⟨done,y,at',behind,inside⟩ := marked
    rcases place y at' with same | ⟨later,other⟩ | ⟨earlier,past⟩
    · exact sameCovers h at_ done at' behind inside same
    · exact laterCovers h at_ done at' later other
    · exact earlierCovers h at_ done at' inside earlier past
  | garbage =>
    rw [origin] at place
    exact place.elim

end Flushes

section Steps
variable {s t : State}

theorem lastStops (h : Kept s) : s.lastRequest.stop ≤ s.size ∧ s.begin ≤ s.lastRequest.stop := by
  have listed : s.lastRequest ∈ s.first::s.requests := lastMem
  rcases List.mem_cons.mp listed with first | mem
  · rw [first]
    simp only [State.first,Span.stop,State.begin,State.size,gLogSize]
    omega
  · obtain ⟨low,_,high⟩ := h.within _ mem
    simp only [State.lastRequest,Span.stop] at *
    omega

theorem requestKept (h : Kept s) {x : Span} (follows : Follows s.begin s.size s.lastRequest x) (low : s.begin ≤ x.start) (some_ : 0 < x.len)
    (high : x.stop ≤ s.size) : Kept { s with requests := s.requests ++ [x] } := by
  refine ⟨laidSnoc h.laid follows,fun y mem => ?_,?_,?_,h.calls⟩
  · rcases memSnoc mem with old | rfl
    · exact h.within y old
    · exact ⟨low,some_,high⟩
  · exact Nat.le_trans h.published (by simp)
  · have marked := h.marked
    simp only [Marked] at marked ⊢
    cases origin : s.origin with
    | unset =>
      rw [origin] at marked
      exact marked
    | request j =>
      rw [origin] at marked
      obtain ⟨done,y,at_,place⟩ := marked
      exact ⟨done,y,(List.getElem?_append_left (List.getElem?_eq_some_iff.mp at_).1).trans at_,place⟩
    | garbage => trivial

theorem ownerInside {count i : Nat} {m : Memcpy} (found : owner s count m = some i) :
    s.published ≤ i ∧ i < s.published + count ∧ ∃ x, s.requests[i]? = some x ∧ Inside x m := by
  have place := List.mem_range'_1.mp (List.mem_of_find?_eq_some found)
  have holds := List.find?_some found
  simp only [Option.any_eq_true] at holds
  obtain ⟨x,at_,inside⟩ := holds
  exact ⟨place.1,place.2,x,at_,of_decide_eq_true inside⟩

theorem insideEnd {x : Span} {m : Memcpy} (inside : Inside x m) : x.start < endBlknr m ∧ endBlknr m < x.stop := by
  obtain ⟨some_,start,stop⟩ := inside
  refine ⟨?_,stop⟩
  simp only [endBlknr,gBlockSizeBytes] at *
  omega

theorem executeKept (h : Kept s) {count : Nat} {list : List Memcpy} {garbage : Nat} (some_ : list ≠ [])
    (taken : step s (.execute count list garbage) = some t) : Kept t := by
  obtain ⟨ready,taken⟩ := Option.ite_none_right_eq_some.mp taken
  obtain ⟨known,_,owned⟩ := ready
  cases last : list.getLast? with
  | none => exact absurd (List.getLast?_eq_none_iff.mp last) some_
  | some m =>
    rw [last] at taken
    cases taken
    obtain ⟨i,found⟩ := Option.isSome_iff_exists.mp (owned m (List.mem_of_getLast? last))
    obtain ⟨_,less,x,at_,inside⟩ := ownerInside found
    have ends := insideEnd inside
    refine ⟨h.laid,h.within,known,?_,h.calls⟩
    simp only [Marked,found,Option.map_some,Option.getD_some]
    exact ⟨less,x,at_,ends⟩

theorem stepKept {a : Action} (h : Kept s) (ordered : Ordered s a) (taken : step s a = some t) : Kept t := by
  have last := lastStops h
  cases a with
  | issue n =>
    obtain ⟨fits,rfl⟩ := ifTaken taken
    exact requestKept h (.inl ⟨rfl,rfl⟩) last.2 fits.1 fits.2
  | rotate n =>
    obtain ⟨wraps,rfl⟩ := ifTaken taken
    exact requestKept h (.inr ⟨rfl,rfl,wraps.1⟩) (Nat.le_refl _) (by simp only; omega) wraps.2
  | copy i =>
    simp only [step] at taken
    split at taken <;> try contradiction
    obtain ⟨_,rfl⟩ := ifTaken taken
    exact ⟨h.laid,h.within,h.published,h.marked,h.calls⟩
  | execute count list garbage => exact executeKept h ordered taken
  | persist i =>
    simp only [step] at taken
    split at taken <;> try contradiction
    rename_i x at_
    obtain ⟨_,rfl⟩ := ifTaken taken
    refine ⟨h.laid,h.within,h.published,h.marked,fun c mem => ?_⟩
    rcases memSnoc mem with old | rfl
    · exact h.calls c old
    · exact persistCovers h ordered at_

theorem initKept (logSbBlk : Nat) : Kept (init logSbBlk) :=
  ⟨List.isChain_singleton _,nofun,Nat.le_refl _,rfl,nofun⟩

theorem flushCoversFsync {logSbBlk : Nat} (reached : Reach step Ordered (init logSbBlk) s) : ∀ c ∈ s.calls, Covers c :=
  (reachInvariant Kept (initKept logSbBlk) (fun _ _ _ kept ordered taken => stepKept kept ordered taken) reached).calls

end Steps

def sent (i n : Nat) : List Action := [.issue n,.copy i]
def wrapped (i n : Nat) : List Action := [.rotate n,.copy i]

def lapOf (first count : Nat) : List Action := (List.range' first count).flatMap fun i => sent i 4097

def wholeRequest (start : Nat) : Memcpy := ⟨false,5,(start + 1) * 4096,4096 * 4096,0⟩

def twoRequests : List Action := sent 0 4097 ++ sent 1 4097 ++ ([.execute 1 [wholeRequest 1] 0,.persist 1] : List Action)

theorem flushCoversFsyncTwo : ∃ s, Reach step Ordered (init 0) s ∧ s.calls = [⟨some [(4098,4097)],[⟨4098,4097,0⟩]⟩] ∧
    ∀ c ∈ s.calls, Covers c := by
  obtain ⟨s,reached,is⟩ : ∃ s, Reach step Ordered (init 0) s ∧ s.calls = [⟨some [(4098,4097)],[⟨4098,4097,0⟩]⟩] :=
    traceReach twoRequests (by decide +kernel)
  exact ⟨s,reached,is,flushCoversFsync reached⟩

def oneLap : List Action :=
  lapOf 0 31 ++ ([.execute 30 [wholeRequest 1] 0,.execute 1 [wholeRequest 122911] 0] : List Action) ++ wrapped 31 4097 ++ lapOf 32 29

/- An fsync that starts at the block of the last entry fails the assertion, and one that starts behind it leaves out all of
the lap before it. -/
theorem unusedTailHidesLap :
    (∃ s c, run step (init 0) (oneLap ++ sent 61 4096 ++ sent 62 2 ++ [.persist 62]) = some s ∧ s.calls = [c] ∧ c.flushed = none) ∧
    ∃ s c, run step (init 0) (oneLap ++ sent 61 4097 ++ sent 62 2 ++ [.persist 62]) = some s ∧ s.calls = [c] ∧
      c.flushed = some [(127008,2)] ∧ ⟨1,4097,1⟩ ∈ c.due ∧ ¬Covers c := by
  constructor
  · have trace : (run step (init 0) (oneLap ++ sent 61 4096 ++ sent 62 2 ++ [.persist 62])).map
        (fun s => s.calls.map fun c => c.flushed) = some [none] := by decide +kernel
    obtain ⟨s,ran,is⟩ := Option.map_eq_some_iff.mp trace
    obtain ⟨c,one,flushed⟩ := List.map_eq_singleton_iff.mp is
    exact ⟨s,c,ran,one,flushed⟩
  · have trace : (run step (init 0) (oneLap ++ sent 61 4097 ++ sent 62 2 ++ [.persist 62])).map
        (fun s => s.calls.map fun c => (c.flushed,decide (⟨1,4097,1⟩ ∈ c.due))) = some [(some [(127008,2)],true)] := by decide +kernel
    obtain ⟨s,ran,is⟩ := Option.map_eq_some_iff.mp trace
    obtain ⟨c,one,both⟩ := List.map_eq_singleton_iff.mp is
    obtain ⟨flushed,listed⟩ := Prod.mk.inj both
    have mem := of_decide_eq_true listed
    refine ⟨s,c,ran,one,flushed,mem,?_⟩
    rintro ⟨ranges,same,all⟩
    cases Option.some.inj (flushed.symm.trans same)
    obtain ⟨r,known,low,_⟩ := all _ mem 1 (Nat.le_refl _) (by decide)
    cases List.mem_singleton.mp known
    exact absurd low (by decide)

end LineFS.PersistLog
