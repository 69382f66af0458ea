import LineFS.Publish

/-! Whether a full log drains. The memcpy batch of the primary is sent only when it is full, and a
request is issued only above the prefetch threshold, so `log_alloc` may wait for an acknowledgement
that nothing will trigger. With transactions up to `drainMax` blocks this never happens. -/
namespace LineFS.Drain
open Base Publish
open Log (Rotates LogFull laid)

structure Stuck (s : State) : Prop where
  waits : s.fs.pending ≠ none
  full : LogFull s.fs.log
  noneSent : s.sent = []
  noneInFlight : s.flight = []
  partialBatch : ¬BatchFull s.batch
  below : s.peer.nUnsyncBlk ≤ logPrefetchThreshold

def stuck (s : State) : Bool :=
  s.fs.pending ≠ none ∧ LogFull s.fs.log ∧ s.sent = [] ∧ s.flight = [] ∧ ¬BatchFull s.batch ∧
  s.peer.nUnsyncBlk ≤ logPrefetchThreshold

theorem stuckIff {s} : stuck s = true ↔ Stuck s := by
  simp only [stuck,decide_eq_true_eq]
  exact ⟨fun ⟨a,b,c,d,e,f⟩ => ⟨a,b,c,d,e,f⟩,fun ⟨a,b,c,d,e,f⟩ => ⟨a,b,c,d,e,f⟩⟩

def drainMax : Nat := 3168

def Bounded (limit : Nat) (s : State) (a : Action) : Prop :=
  Paced s a ∧ match a with
    | .alloc n => n ≤ limit
    | _ => True
instance (l s) : (a : Action) → Decidable (Bounded l s a)
  | .alloc n => inferInstanceAs (Decidable (Paced s (.alloc n) ∧ n ≤ l))
  | .ret | .request | .arrive | .ack => inferInstanceAs (Decidable (Paced s _ ∧ True))

def slack (s : State) : Nat := if s.owed then drainMax else 0
def fresh (s : State) : List Span := s.unreq.filter fun x => x.lap == s.fs.log.availVersion

def allowance (c : Span) : List Span → Nat
  | [] => logPrefetchThreshold
  | y::_ =>
    if y.lap = c.lap then logPrefetchThreshold
    else if y.len ≤ logPrefetchThreshold then logPrefetchThreshold + drainMax else drainMax

structure Weighed (s : State) : Prop where
  synced : Synced s
  lens : ∀ x ∈ laid s.fs, x.len ≤ drainMax
  tails : ∀ rs qs, unacked s = rs ++ qs →
    blocks (qs.flatMap Request.txs) + max logPrefetchThreshold (blocks s.unreq - slack s) ≤
    qs.length * (logPrefetchThreshold + drainMax) +
    allowance ((rs.flatMap Request.txs).getLastD s.fs.cursor) (qs.flatMap Request.txs ++ s.unreq)
  newer : (∃ x ∈ s.unreq, x.lap ≠ s.fs.log.availVersion) →
    (s.owed = false → blocks (fresh s) ≤ logPrefetchThreshold) ∧ blocks (fresh s) ≤ allowance (lastTaken s) (fresh s)
  short : s.batch.length < hostMemcpyBatchMax

theorem initWeighed (logSbBlk : Nat) : Weighed (init logSbBlk) := by
  refine ⟨initSynced logSbBlk,?_,?_,?_,?_⟩
  · simp [laid,init,Log.init]
  · intro rs qs split
    obtain ⟨rfl,rfl⟩ := List.append_eq_nil_iff.mp split.symm
    simp [init,slack,allowance]
  · simp [init]
  · simp [init,hostMemcpyBatchMax]

theorem thresholdLe (c xs) : logPrefetchThreshold ≤ allowance c xs := by
  unfold allowance
  split
  · exact Nat.le_refl _
  · split
    · exact Nat.le_refl _
    · split
      · exact Nat.le_add_right _ _
      · decide

theorem allowanceAppend {c xs} (some : xs ≠ []) (ys) : allowance c (xs ++ ys) = allowance c xs := by
  obtain ⟨x,xs,rfl⟩ := List.exists_cons_of_ne_nil some
  rfl

theorem allowanceLap {c d : Span} (same : c.lap = d.lap) (xs) : allowance c xs = allowance d xs := by
  cases xs with
  | nil => rfl
  | cons x xs => simp only [allowance,same]

theorem allowanceSnoc {c x : Span} {xs} (few : blocks xs ≤ logPrefetchThreshold) (len : x.len ≤ drainMax)
    (next : ∀ y ∈ xs ++ [x], y.lap ≠ c.lap) : blocks (xs ++ [x]) ≤ allowance c (xs ++ [x]) := by
  cases xs with
  | nil =>
    have lap := next x (by simp)
    simp only [List.nil_append,allowance,if_neg lap,blocksCons,blocksNil]
    split <;> omega
  | cons y ys =>
    have lap := next y (by simp)
    have short : y.len ≤ logPrefetchThreshold := by
      rw [blocksCons] at few
      omega
    simp only [List.cons_append,allowance,if_neg lap,if_pos short]
    simp only [blocksCons,blocksAppend,blocksNil] at few ⊢
    omega

theorem oldLast {s} (h : Synced s) (old : ∃ x ∈ s.unreq, x.lap ≠ s.fs.log.availVersion) :
    (lastTaken s).lap ≠ s.fs.log.availVersion := by
  obtain ⟨x,mem,lap⟩ := old
  have above := laidFirst (unreqChain h) (List.mem_append_left _ mem)
  have below := (Log.lapsFrom h.guard (List.mem_append_left _ (unreqLive h mem))).2.1
  simp only [Before] at above
  omega

theorem filterBlocks (p : Span → Bool) (xs) : blocks (xs.filter p) ≤ blocks xs := by
  induction xs with
  | nil => simp
  | cons x xs ih =>
    rw [List.filter_cons]
    split <;> simp only [blocksCons] <;> omega

theorem retWeighed {s t} (h : Weighed s) (taken : step s .ret = some t) : Weighed t := by
  have synced := retSynced h.synced taken
  simp only [step,Option.bind_eq_some_iff,Option.map_eq_some_iff] at taken
  obtain ⟨x,pending,fs,returned,rfl⟩ := taken
  obtain ⟨y,pendingAgain,_,rfl⟩ := Log.retExact returned
  cases pending.symm.trans pendingAgain
  have whole : laid s.fs = s.fs.live ++ [x] := by simp [laid,pending]
  have lens := h.lens
  rw [whole] at lens
  have len := lens x (by simp)
  have idle : s.owed = false := by
    rw [Bool.eq_false_iff]
    intro owed
    rw [(h.synced.held owed).1] at pending
    contradiction
  have lap : x.lap = s.fs.log.availVersion := by
    have version := h.synced.guard.version
    rwa [whole,List.getLastD_concat] at version
  refine ⟨synced,by simpa [laid] using lens,?_,?_,h.short⟩
  · intro rs qs split
    have before := h.tails rs qs split
    simp only [slack,idle,Bool.false_eq_true,if_false,if_true,blocksAppend,blocksCons,blocksNil] at before ⊢
    by_cases none : qs.flatMap Request.txs ++ s.unreq = []
    · have low := thresholdLe ((rs.flatMap Request.txs).getLastD s.fs.cursor) (qs.flatMap Request.txs ++ (s.unreq ++ [x]))
      obtain ⟨first,second⟩ := List.append_eq_nil_iff.mp none
      simp only [first,second,blocksNil] at before low ⊢
      omega
    · rw [← List.append_assoc,allowanceAppend none]
      omega
  · intro old
    have older : ∃ y ∈ s.unreq, y.lap ≠ s.fs.log.availVersion := by
      obtain ⟨y,mem,other⟩ := old
      rcases memSnoc mem with before | rfl
      · exact ⟨y,before,other⟩
      · exact absurd lap other
    have freshNext : fresh { s with fs := { s.fs with log := Log.commit s.fs.log x.len, pending := none, live := s.fs.live ++ [x] }
                                    peer := Prefetch.updatePeerSyncState s.peer x.len, unreq := s.unreq ++ [x]
                                    owed := true } = fresh s ++ [x] := by
      simp [fresh,lap,Log.commit]
    refine ⟨fun no => absurd no.symm Bool.false_ne_true,?_⟩
    rw [freshNext]
    refine allowanceSnoc ((h.newer older).1 idle) len (fun y mem => ?_)
    have current : y.lap = s.fs.log.availVersion := by
      rcases memSnoc mem with before | rfl
      · simpa using (List.mem_filter.mp before).2
      · exact lap
    exact fun same => oldLast h.synced older (same.symm.trans current)

theorem allocWeighed {s n t} (h : Weighed s) (allowed : Bounded drainMax s (.alloc n)) (taken : step s (.alloc n) = some t) :
    Weighed t := by
  have synced := allocSynced h.synced allowed.1 taken
  obtain ⟨free,taken⟩ := Option.ite_none_left_eq_some.mp taken
  obtain ⟨fs,allocated,rfl⟩ := Option.map_eq_some_iff.mp taken
  obtain ⟨⟨idle,_,_⟩,rfl⟩ := ifTaken allocated
  refine ⟨synced,?_,h.tails,?_,h.short⟩
  · have lens := h.lens
    rw [laid,idle,Option.toList_none,List.append_nil] at lens
    intro x mem
    rcases memSnoc mem with old | rfl
    · exact lens x old
    · exact allowed.2
  · by_cases rotates : Rotates s.fs.log n
    · -- Nothing that is unrequested stands in the lap that has just begun.
      have none : ∀ x ∈ s.unreq, ¬(x.lap == s.fs.log.availVersion + 1) = true := by
        intro x mem
        have below := (Log.lapsFrom h.synced.guard (List.mem_append_left _ (unreqLive h.synced mem))).2.1
        simp only [beq_iff_eq]
        omega
      simp only [fresh,Log.allocAvail,if_pos rotates,List.filter_eq_nil_iff.mpr none,blocksNil]
      exact fun _ => ⟨fun _ => Nat.zero_le _,Nat.zero_le _⟩
    · have newer := h.newer
      simp only [fresh,Log.allocAvail,if_neg rotates]
      exact newer

theorem ackWeighed {s t} (h : Weighed s) (acked : step s .ack = some t) : Weighed t := by
  have synced := ackSynced h.synced acked
  obtain ⟨b,rest,sent,rfl,front,live,cursor,last,avail⟩ := ackAcked h.synced acked
  refine ⟨synced,?_,?_,?_,h.short⟩
  · intro x mem
    refine h.lens x ?_
    rw [laid,live,List.append_assoc]
    exact List.mem_append_right _ mem
  · intro rs qs split
    have before := h.tails (b ++ rs) qs (by rw [front,split,List.append_assoc])
    rw [List.flatMap_append,lastAppend,← cursor] at before
    exact before
  · have newer := h.newer
    have same : (handled s.fs b).log.availVersion = s.fs.log.availVersion := avail
    simp only [fresh,last,same]
    exact newer

theorem arriveWeighed {s t} (h : Weighed s) (taken : step s .arrive = some t) : Weighed t := by
  have synced := arriveSynced h.synced taken
  obtain ⟨flight,batch,sent,rfl,same,_,short⟩ := arriveExact taken
  have last : lastTaken { s with flight, batch, sent } = lastTaken s :=
    congrArg (fun rs : List Request => (rs.flatMap Request.txs).getLastD s.fs.cursor) same
  refine ⟨synced,h.lens,fun rs qs split => h.tails rs qs (same.symm.trans split),?_,short h.short⟩
  rw [last]
  exact h.newer

theorem takenAllowance {s g rest} (h : Weighed s) (split : s.unreq = g ++ rest)
    (taken : rest = [] ∨ Rotated s g rest ∧ g ≠ []) : blocks rest ≤ allowance (g.getLastD (lastTaken s)) rest := by
  rcases taken with rfl | ⟨rotated,some⟩
  · exact Nat.zero_le _
  · have last : (g.getLastD (lastTaken s)).lap = (lastTaken s).lap := rotated.older _ (lastMemSome some)
    obtain ⟨x,mem⟩ := List.exists_mem_of_ne_nil _ some
    have lap := rotated.lap
    have old : ∀ y ∈ g, y.lap ≠ s.fs.log.availVersion := fun y here => by
      have := rotated.older y here
      omega
    have same : fresh s = rest := by
      rw [fresh,split,List.filter_append,List.filter_eq_nil_iff.mpr (by simpa using old),List.nil_append]
      exact List.filter_eq_self.mpr (by simpa using rotated.newer)
    have bound := (h.newer ⟨x,by simp [split,mem],old x mem⟩).2
    rw [same] at bound
    rwa [allowanceLap last]

theorem requestWeighed {s t} (h : Weighed s) (requested : step s .request = some t) : Weighed t := by
  have synced := requestSynced h.synced requested
  obtain ⟨owed,waiting,⟨few,rfl⟩ | ⟨asked,many⟩⟩ := requestCases h.synced requested
  · rw [h.synced.nUnsyncBlk] at few
    have part := filterBlocks (fun x => x.lap == s.fs.log.availVersion) s.unreq
    refine ⟨synced,h.lens,?_,?_,h.short⟩
    · intro rs qs split
      have before := h.tails rs qs split
      simp only [slack,Bool.false_eq_true,if_false]
      omega
    · exact fun _ => ⟨fun _ => part.trans few,(part.trans few).trans (thresholdLe _ _)⟩
  · obtain ⟨_,peer,arg,g,rest,rfl,split,leaves⟩ := requestTook h.synced waiting many asked
    have total : blocks s.unreq = blocks g + blocks rest := by rw [split,blocksAppend]
    refine ⟨synced,h.lens,?_,?_,h.short⟩
    · intro rs qs line
      rw [tookUnacked] at line
      rcases List.eq_nil_or_concat qs with rfl | ⟨front,last,rfl⟩
      · rw [List.append_nil] at line
        have stands : (rs.flatMap Request.txs).getLastD s.fs.cursor = g.getLastD (lastTaken s) := by
          rw [← line,List.flatMap_append,lastAppend,List.flatMap_singleton]; rfl
        have behind := takenAllowance h split leaves
        simp only [took,slack,List.flatMap_nil,blocksNil,List.nil_append,List.length_nil,stands]
        have low := thresholdLe (g.getLastD (lastTaken s)) rest
        simp only [Bool.false_eq_true,if_false]
        omega
      · rw [List.concat_eq_append,← List.append_assoc] at line
        obtain ⟨before,same⟩ := List.append_inj' line rfl
        cases List.singleton_inj.mp same
        have weighed := h.tails rs front before
        simp only [slack,owed,if_true] at weighed
        simp only [took,slack,List.concat_eq_append,List.flatMap_append,List.flatMap_singleton,blocksAppend,List.length_append,
          List.length_singleton,List.append_assoc,Nat.succ_mul,Bool.false_eq_true,if_false]
        rw [← split]
        omega
    · intro old
      obtain ⟨x,mem,lap⟩ := old
      rcases leaves with rfl | ⟨rotated,_⟩
      · cases mem
      · exact absurd (rotated.newer x mem) lap

theorem stepWeighed {s a t} (h : Weighed s) (allowed : Bounded drainMax s a) (taken : step s a = some t) : Weighed t := by
  cases a with
  | alloc n => exact allocWeighed h allowed taken
  | ret => exact retWeighed h taken
  | request => exact requestWeighed h taken
  | arrive => exact arriveWeighed h taken
  | ack => exact ackWeighed h taken

theorem fullBlocks {s : Log.State} {x m} (h : Log.Guarded s) (pending : s.pending = some x) (full : LogFull s.log)
    (lens : ∀ y ∈ laid s, y.len ≤ m) : gLogSize < blocks s.live + m + m ∧
    ∀ y ys, s.live = y::ys → y.lap ≠ s.cursor.lap → gLogSize < blocks s.live + m + y.len := by
  have whole : laid s = s.live ++ [x] := by simp [laid,pending]
  obtain ⟨⟨chain,tail,version,inside,bounds⟩,head,headVersion,lead,_⟩ := h
  rw [whole] at chain tail version lens
  rw [List.getLastD_concat] at tail version
  have len := lens x (by simp)
  have start := head full.1
  have behind := full.1
  have beyond := full.2
  refine ⟨?_,?_⟩
  · have laps := laidTwoLaps chain (by rw [List.getLastD_concat]; omega) lens
    rw [List.getLastD_concat,blocksAppend,blocksCons,blocksNil] at laps
    simp only [Log.FsLog.begin] at *
    omega
  · intro y ys front other
    rw [front,List.cons_append] at chain
    obtain ⟨first,rest⟩ := List.isChain_cons_cons.mp chain
    rcases first with ⟨same,_⟩ | ⟨next,begin,unused⟩
    · exact absurd same other
    · have stop := laidOneLap rest (by rw [List.getLastD_concat]; omega)
      rw [List.getLastD_concat,blocksAppend,blocksCons,blocksNil] at stop
      rw [front,blocksCons]
      simp only [Span.stop,Log.FsLog.begin] at *
      omega

theorem boundedDrains {logSbBlk s} (reached : Reach step (Bounded drainMax) (init logSbBlk) s) : ¬Stuck s := by
  intro stuck
  have h := reachInvariant Weighed (initWeighed logSbBlk) (fun _ _ _ => stepWeighed) reached
  obtain ⟨x,pending⟩ := Option.ne_none_iff_exists'.mp stuck.waits
  have idle : s.owed = false := by
    rw [Bool.eq_false_iff]
    exact fun owed => stuck.waits (h.synced.held owed).1
  have whole : unacked s = s.batch := by simp [unacked,stuck.noneSent,stuck.noneInFlight]
  have live : s.fs.live = s.batch.flatMap Request.txs ++ s.unreq := by rw [h.synced.line,taken,whole]
  have held := h.tails [] s.batch (by rw [whole]; rfl)
  rw [List.flatMap_nil,← live] at held
  have total : blocks s.fs.live = blocks (s.batch.flatMap Request.txs) + blocks s.unreq := by rw [live,blocksAppend]
  have short : s.batch.length * (logPrefetchThreshold + drainMax) ≤ 29 * (logPrefetchThreshold + drainMax) :=
    Nat.mul_le_mul_right _ (Nat.le_of_lt_succ h.short)
  obtain ⟨lap,next⟩ := fullBlocks h.synced.guard pending stuck.full h.lens
  simp only [slack,idle,Bool.false_eq_true,if_false,List.getLastD_nil] at held
  cases front : s.fs.live with
  | nil =>
    simp only [front,blocksNil,gLogSize,drainMax] at lap
    omega
  | cons y ys =>
    have len := h.lens y (by simp [laid,front])
    rw [front,allowance] at held
    by_cases same : y.lap = s.fs.cursor.lap
    · rw [if_pos same] at held
      simp only [gLogSize,drainMax,logPrefetchThreshold] at *
      omega
    · have room := next y ys front same
      rw [if_neg same] at held
      split at held <;> simp only [gLogSize,drainMax,logPrefetchThreshold] at * <;> omega

def tx (n : Nat) : List Action := [.alloc n,.ret,.request]
def requested (n : Nat) : List Action := tx n ++ [.arrive]
def times (n : Nat) (as : List Action) : List Action := (List.replicate n as).flatten

def bounded : List Action := times 30 (requested drainMax) ++ [.ack] ++ times 12 (requested drainMax)

theorem boundedDrainsFull : ∃ s, Reach step (Bounded drainMax) (init 0) s ∧ s.fs.log.availVersion = 1 ∧
    s.batch.length = 12 ∧ ¬Stuck s := by
  obtain ⟨s,reached,seen⟩ : ∃ s, Reach step (Bounded drainMax) (init 0) s ∧ s.fs.log.availVersion = 1 ∧
      s.batch.length = 12 := traceReach bounded (by decide +kernel)
  exact ⟨s,reached,seen.1,seen.2,boundedDrains reached⟩

def sharp : List Action :=
  times 30 (requested 2168) ++ ([.ack] : List Action) ++ times 28 (requested 2168) ++ requested 2157 ++ tx 2 ++
  requested (drainMax + 1) ++ ([.ack] : List Action) ++ requested (drainMax + 1) ++
  times 28 (tx logPrefetchThreshold ++ requested (drainMax + 1)) ++ tx logPrefetchThreshold ++ ([.alloc (drainMax + 1)] : List Action)

theorem drainMaxSharp : ∃ s, Reach step (Bounded (drainMax + 1)) (init 0) s ∧ Stuck s := by
  obtain ⟨s,reached,held⟩ : ∃ s, Reach step (Bounded (drainMax + 1)) (init 0) s ∧ stuck s = true :=
    traceReach sharp (by decide +kernel)
  exact ⟨s,reached,stuckIff.mp held⟩

def filled : List Action :=
  times 25 (tx logPrefetchThreshold ++ requested maxTransaction) ++ tx logPrefetchThreshold ++ [.alloc maxTransaction]

theorem fullLogNeverDrains : ¬∀ logSbBlk s, Reach step Any (init logSbBlk) s → ¬Stuck s := by
  intro claim
  obtain ⟨s,reached,held⟩ : ∃ s, Reach step Any (init 0) s ∧ stuck s = true := traceAny filled (by decide +kernel)
  exact claim 0 s reached (stuckIff.mp held)

end LineFS.Drain
