import LineFS.Rsync

/-! The peer's log under replication of the host-only build. `start_rsync_session` tests whether the blocks
of a session fit; `update_peer_digest_state` moves the digest side when the peer reports what the header
walk of its `digest_logs` covered. -/
namespace LineFS.Rsync
open List (append_nil getLastD_cons isChain_cons_cons mem_append mem_append_left mem_cons mem_filter mem_of_mem_drop mem_of_mem_take tail_cons)
open Base Log

/- Blocks behind a rotation go to the peer only when the peer's last rotation is digested and they end before
its digest pointer; while a rotation is not digested, a digest starts before the last block of the old lap. -/
def Roomy (s : State) : Action → Prop
  | .rsync _ => Marked s ∧ (behind s ≠ [] →
      s.peer.availVersion = s.peer.startVersion ∧ s.log.begin + blocks (behind s) ≤ s.peer.startDigest) ∧ Loaded s
  | .peerDigest => s.peer.availVersion ≠ s.peer.startVersion → s.peer.startDigest ≤ s.peer.remoteEnd
  | _ => True
instance (s) : (a : Action) → Decidable (Roomy s a)
  | .rsync _ => inferInstanceAs (Decidable (Marked s ∧ (_ → _ ∧ _) ∧ Loaded s))
  | .peerDigest => inferInstanceAs (Decidable (_ ≠ _ → _ ≤ _))
  | .alloc _ | .ret _ | .load | .digest | .digested | .peerDigested => isTrue trivial

theorem roomyProper {s a} (h : Roomy s a) : Proper s a := by
  cases a with
  | load => trivial
  | rsync nBlk => exact ⟨h.1,h.2.2⟩
  | alloc n => trivial
  | ret image => trivial
  | digest => trivial
  | digested => trivial
  | peerDigest => trivial
  | peerDigested => trivial

section walk
variable {headers : Nat → Header} {lo hi mark : Nat} {x : Span} {xs : List Span}

theorem nextStop (inside : x.stop ≠ mark + 1) (some : 0 < x.len) : nextLoghdrBlknr x.start x.len lo mark = x.stop :=
  if_neg (by simp only [Span.stop] at inside; omega)

theorem linkedOneLap (chain : xs.IsChain (Follows lo hi)) (same : ∀ x ∈ xs, ∀ y ∈ xs, x.lap = y.lap)
    (inside : ∀ x ∈ xs, x.stop ≠ mark + 1) (some : ∀ x ∈ xs, 0 < x.len) : Linked lo mark xs := by
  induction xs with
  | nil => exact List.isChain_nil
  | cons x xs ih =>
    have rest := ih chain.tail (fun y left z right => same y (.tail _ left) z (.tail _ right))
      (fun y mem => inside y (.tail _ mem)) (fun y mem => some y (.tail _ mem))
    cases xs with
    | nil => exact List.isChain_singleton x
    | cons y ys =>
      have lap := same y (by simp) x (by simp)
      refine isChain_cons_cons.mpr ⟨?_,rest⟩
      rcases (isChain_cons_cons.mp chain).1 with ⟨_,start⟩ | ⟨other,_⟩
      · exact nextSame start (inside x (.head _)) (some x (.head _))
      · omega

def Turns (lo mark : Nat) (x : Span) : Prop := nextLoghdrBlknr x.start x.len lo mark < x.start
instance (lo mark x) : Decidable (Turns lo mark x) := by unfold Turns; infer_instance

theorem turnsLast (last : x.stop = mark + 1) (above : lo < x.start) : Turns lo mark x := by
  rw [Turns,nextBegin last]
  exact above

theorem notTurns (inside : x.stop ≠ mark + 1) (some : 0 < x.len) : ¬Turns lo mark x := by
  rw [Turns,nextStop inside some]
  simp only [Span.stop]
  omega

theorem digestSpans {rotated} (linked : Linked lo mark (x::xs)) (headed : Headed headers (x::xs)) :
    digestLogs headers lo mark (xs.length + 1) x.start rotated =
      some (nextLoghdrBlknr (xs.getLastD x).start (xs.getLastD x).len lo mark,
        rotated || (x::xs).any fun z => decide (Turns lo mark z)) := by
  induction xs generalizing x rotated with
  | nil => simp [digestLogs,headed x (by simp),Turns]
  | cons y ys ih =>
    obtain ⟨next,rest⟩ := isChain_cons_cons.mp linked
    rw [List.length_cons,digestLogs]
    simp only [headed x (.head _),if_true,next]
    rw [ih rest (fun z mem => headed z (.tail _ mem)),getLastD_cons]
    simp [Turns,next,Bool.or_assoc]

end walk

def Beyond (shipped : List Span) (reported : Span) (mark startDigest : Nat) : Prop :=
  mark + 1 = ((shipped.filter fun x => x.lap = reported.lap).getLastD reported).stop ∧
  ∀ x ∈ shipped, x.lap ≠ reported.lap → x.stop ≤ startDigest

def Placed (s : State) : Prop :=
  s.peer.startDigest = s.reported.stop ∧ s.peer.startVersion = s.reported.lap ∧ s.synced.lap ≤ s.reported.lap + 1 ∨
  s.peer.startDigest = s.log.begin ∧ s.peer.startVersion = s.reported.lap + 1 ∧ s.synced.lap = s.reported.lap + 1 ∧
    ∀ x ∈ s.shipped, x.lap = s.reported.lap + 1

/- A digest request at the peer was made before the rotation of the peer's log that may have
happened since, or after it and with its mark. -/
def Asked (s : State) (d : Digest) : Prop :=
  d.start = s.peer.startDigest ∧ 0 < d.count ∧
  (d.stop = 0 ∧ (∀ x ∈ s.shipped.take d.count, x.lap = s.peer.startVersion) ∨
   s.peer.startVersion ≠ s.peer.availVersion ∧ d.stop = s.peer.remoteEnd ∧ s.peer.startDigest ≤ s.peer.remoteEnd)

structure Tracked (s : State) : Prop extends Synced s where
  past : (s.reported::s.shipped).IsChain (Follows s.log.begin s.log.size)
  insidePast : ∀ x ∈ s.reported::s.shipped, s.log.begin ≤ x.start ∧ x.stop ≤ s.log.size
  longPast : ∀ x ∈ s.shipped, 2 ≤ x.len ∧ x.len ≤ maxTransaction
  headedPast : Headed s.remote s.shipped
  avail : s.peer.availVersion = s.synced.lap
  placed : Placed s
  level : s.peer.startVersion = s.peer.availVersion → s.peer.remoteEnd = 0
  ahead : s.peer.startVersion ≠ s.peer.availVersion → Beyond s.shipped s.reported s.peer.remoteEnd s.peer.startDigest
  flight : ∀ d, s.peerDigest = some d → Asked s d
  some : ∀ n ∈ s.asked, 0 < n.1
  waiting : s.peer.nUnsync = s.unsynced.length
  count : s.peer.nDigest + (s.asked.map Prod.fst).sum + (s.peerDigest.elim 0 Digest.count) = s.shipped.length

theorem initTracked (logSbBlk headers remote) : Tracked (init logSbBlk headers remote) where
  toSynced := initSynced logSbBlk headers remote
  past := by simp [init]
  insidePast := by simp [init,initLog,FsLog.begin,Span.stop,gLogSize]
  longPast := by simp [init]
  headedPast := by simp [init,Headed]
  avail := rfl
  placed := .inl ⟨rfl,rfl,Nat.le_succ _⟩
  level := fun _ => rfl
  ahead := fun other => absurd rfl other
  flight := by simp [init]
  some := by simp [init]
  waiting := rfl
  count := rfl

section tracked
variable {s : State}

theorem shippedLaps (h : Tracked s) {x} (mem : x ∈ s.shipped) : s.reported.lap ≤ x.lap ∧ x.lap ≤ s.synced.lap := by
  have first := laidFirst h.past mem
  have last := laidLapLe h.past (.tail _ mem)
  simp only [Before] at first
  exact ⟨by omega,last⟩

theorem shippedLevel (h : Tracked s) (level : s.peer.availVersion = s.peer.startVersion) {x} (mem : x ∈ s.shipped) :
    s.peer.startDigest ≤ x.start ∧ x.stop ≤ s.peer.remoteStart ∧ x.lap = s.synced.lap := by
  have laps := shippedLaps h mem
  have first := laidFirst h.past mem
  have avail := h.avail
  have there := h.there
  have lap : x.lap = s.synced.lap := by
    rcases h.placed with ⟨_,version,_⟩ | ⟨_,_,synced,all⟩
    · omega
    · rw [all x mem,synced]
  have stop := laidStopLe h.past (.tail _ mem) lap
  have begin := (h.insidePast x (.tail _ mem)).1
  refine ⟨?_,by rw [there]; exact stop,lap⟩
  rcases h.placed with ⟨start,version,_⟩ | ⟨start,_,_⟩
  · simp only [Before] at first
    omega
  · omega

theorem shippedAhead (h : Tracked s) (ahead : s.peer.availVersion ≠ s.peer.startVersion) :
    s.peer.startDigest = s.reported.stop ∧ s.peer.startVersion = s.reported.lap ∧ s.synced.lap = s.reported.lap + 1 ∧
    s.peer.remoteStart ≤ s.peer.startDigest ∧
    ∀ x ∈ s.shipped, x.lap = s.reported.lap ∧ s.peer.startDigest ≤ x.start ∨
      x.lap = s.synced.lap ∧ x.stop ≤ s.peer.remoteStart := by
  have avail := h.avail
  rcases h.placed with ⟨start,version,lead⟩ | ⟨_,version,synced,_⟩
  · have low : s.reported.lap ≤ s.synced.lap := laidLapLe h.past (.head _)
    have lap : s.synced.lap = s.reported.lap + 1 := by omega
    have mem : s.synced ∈ s.shipped := by
      rcases mem_cons.mp (@lastMem s.reported s.shipped) with same | mem
      · have : s.synced.lap = s.reported.lap := congrArg Span.lap same
        omega
      · exact mem
    have below := (h.ahead (Ne.symm ahead)).2 s.synced mem (by omega)
    refine ⟨start,version,lap,by rw [h.there]; exact below,fun x here => ?_⟩
    have laps := shippedLaps h here
    by_cases old : x.lap = s.reported.lap
    · have first := laidFirst h.past here
      simp only [Before] at first
      exact .inl ⟨old,by omega⟩
    · have same : x.lap = s.synced.lap := by omega
      have stop := laidStopLe h.past (.tail _ here) same
      exact .inr ⟨same,by rw [h.there]; exact stop⟩
  · omega

theorem assertionsHold (h : Tracked s) : ∃ used, nrUsedBlk s.log s.peer = .some used := by
  unfold nrUsedBlk
  by_cases level : s.peer.availVersion = s.peer.startVersion
  · have order : s.peer.startDigest ≤ s.peer.remoteStart := by
      rw [h.there]
      rcases mem_cons.mp (@lastMem s.reported s.shipped) with same | mem
      · rcases h.placed with ⟨start,_,_⟩ | ⟨_,_,synced,_⟩
        · rw [start,← same]; exact Nat.le_refl _
        · have : s.synced.lap = s.reported.lap := congrArg Span.lap same
          omega
      · have low := (shippedLevel h level mem).1
        exact Nat.le_trans low (Nat.le_add_right _ _)
    exact ⟨_,by rw [if_pos level,if_pos order]⟩
  · obtain ⟨_,_,_,order,_⟩ := shippedAhead h level
    exact ⟨_,by rw [if_neg level,if_pos order]⟩

theorem sessionApart (h : Tracked s) {nBlk x} (roomy : Roomy s (.rsync nBlk))
    (started : startRsyncSession s.log s.peer s.loadedEnd nBlk = .some (.session x)) {z} (mem : z ∈ s.shipped) :
    (s.synced.stop + blocks (inLap s) ≤ z.start ∨ z.stop ≤ s.synced.stop) ∧
    (behind s = [] ∨ s.log.begin + blocks (behind s) ≤ z.start) := by
  obtain ⟨_,_,used,known,room⟩ := startEstablished started
  have total := countedSplit h.toSynced
  have there := h.there
  have begin := (h.insidePast z (.tail _ mem)).1
  by_cases level : s.peer.availVersion = s.peer.startVersion
  · obtain ⟨low,high,_⟩ := shippedLevel h level mem
    refine ⟨.inr (by omega),?_⟩
    by_cases none : behind s = []
    · exact .inl none
    · exact .inr (Nat.le_trans (roomy.2.1 none).2 low)
  · have none : behind s = [] := by
      by_contra some
      exact level (roomy.2.1 some).1
    refine ⟨?_,.inl none⟩
    obtain ⟨start,_,_,order,sides⟩ := shippedAhead h level
    rcases sides z mem with ⟨_,low⟩ | ⟨_,high⟩
    · left
      rw [nrUsedBlk,if_neg level,if_pos order] at known
      cases known
      have inside := (h.insidePast s.reported (.head _)).2
      have lower := (h.inside s.synced (.head _)).1
      have stop : s.synced.stop = s.synced.start + s.synced.len := rfl
      rw [none,blocksNil] at total
      omega
    · exact .inr (by omega)

theorem deliverPiece {headers remote : Nat → Header} {start n b : Nat} : (piece start n).foldl (deliver headers) remote b =
    if start ≤ b ∧ b < start + n then headers b else remote b := by
  unfold piece
  split
  · rename_i none
    simp [none,show ¬(start ≤ b ∧ b < start) by omega]
  · simp only [List.foldl_cons,List.foldl_nil,deliver]
    split
    · rename_i inside
      have short : b - start < start + n - 1 + 1 - start := by omega
      rw [gathered,if_pos short,Nat.add_sub_cancel' inside.1]
    · rfl

theorem deliverEntries {b : Nat} : (entries s).foldl (deliver s.headers) s.remote b =
    if s.synced.stop ≤ b ∧ b < s.synced.stop + blocks (inLap s) ∨ s.log.begin ≤ b ∧ b < s.log.begin + blocks (behind s)
    then s.headers b else s.remote b := by
  rw [entries,List.foldl_append,deliverPiece,deliverPiece]
  by_cases first : s.synced.stop ≤ b ∧ b < s.synced.stop + blocks (inLap s) <;>
    by_cases second : s.log.begin ≤ b ∧ b < s.log.begin + blocks (behind s) <;> simp [first,second]

theorem landed (h : Synced s) (marked : Marked s) {x} (mem : x ∈ s.unsynced) :
    s.synced.stop ≤ x.start ∧ x.start < s.synced.stop + blocks (inLap s) ∨
    s.log.begin ≤ x.start ∧ x.start < s.log.begin + blocks (behind s) := by
  have long := h.long x (unsyncedLaid mem)
  have here : x.start ∈ List.range' x.start x.len := List.mem_range'_1.mpr ⟨Nat.le_refl _,by omega⟩
  rw [splitLap h] at mem
  rcases mem_append.mp mem with first | second
  · have range : x.start ∈ (inLap s).flatMap fun y => List.range' y.start y.len := List.mem_flatMap.mpr ⟨x,first,here⟩
    rw [inLapRange h] at range
    exact .inl (List.mem_range'_1.mp range)
  · have range : x.start ∈ (behind s).flatMap fun y => List.range' y.start y.len := List.mem_flatMap.mpr ⟨x,second,here⟩
    rw [behindRange h marked] at range
    exact .inr (List.mem_range'_1.mp range)

theorem unsyncedLap (h : Synced s) (marked : Marked s) :
    (s.unsynced.getLastD s.synced).lap = if behind s = [] then s.synced.lap else s.synced.lap + 1 := by
  rw [splitLap h,lastAppend]
  split
  · rename_i none
    rw [none]
    exact inLapLast
  · rename_i some
    exact (marked.1 _ (lastMemSome some)).1

theorem unsyncedOneLap (h : Synced s) (none : behind s = []) {x} (mem : x ∈ s.unsynced) : x.lap = s.synced.lap := by
  rw [splitLap h,none,append_nil] at mem
  simpa using (mem_filter.mp mem).2

theorem beyondWithin (h : Tracked s) {nBlk x} (none : behind s = [])
    (started : startRsyncSession s.log s.peer s.loadedEnd nBlk = .some (.session x))
    (ahead : s.peer.startVersion ≠ s.peer.availVersion) :
    Beyond (s.shipped ++ s.unsynced) s.reported s.peer.remoteEnd s.peer.startDigest := by
  obtain ⟨start,version,lap,order,sides⟩ := shippedAhead h (Ne.symm ahead)
  obtain ⟨mark,below⟩ := h.ahead ahead
  have added : s.unsynced.filter (fun x => x.lap = s.reported.lap) = [] := by
    refine List.filter_eq_nil_iff.mpr fun x mem => ?_
    have := unsyncedOneLap h.toSynced none mem
    simp only [decide_eq_true_eq]
    omega
  refine ⟨by rw [List.filter_append,added,append_nil]; exact mark,fun x mem other => ?_⟩
  rcases mem_append.mp mem with old | new
  · exact below x old other
  · obtain ⟨_,_,used,known,room⟩ := startEstablished started
    rw [nrUsedBlk,if_neg (Ne.symm ahead),if_pos order] at known
    cases known
    have total := countedSplit h.toSynced
    have whole := splitLap h.toSynced
    rw [none,blocksNil] at total
    rw [none,append_nil] at whole
    have stop := laidStopLe (inLapChain h.toSynced) (.tail _ (whole ▸ new))
      (by rw [inLapLast]; exact unsyncedOneLap h.toSynced none new)
    rw [inLapStop h.toSynced] at stop
    have inside := (h.insidePast s.reported (.head _)).2
    have there := h.there
    have lower := (h.inside s.synced (.head _)).1
    have size : s.synced.stop = s.synced.start + s.synced.len := rfl
    omega

theorem beyondCross (h : Tracked s) {nBlk} (roomy : Roomy s (.rsync nBlk)) (some : behind s ≠ []) :
    s.peer.startDigest = s.reported.stop ∧ s.peer.startVersion = s.reported.lap ∧ s.synced.lap = s.reported.lap ∧
    Beyond (s.shipped ++ s.unsynced) s.reported s.log.logEnd s.peer.startDigest := by
  obtain ⟨level,room⟩ := roomy.2.1 some
  obtain ⟨y,ys,cons,_,_,_,stop⟩ := behindStop h.toSynced roomy.1 some
  have more := (behindWithin h.toSynced roomy.1 some).2.2.2
  have avail := h.avail
  have mark := roomy.1.2
  rw [if_neg some] at mark
  rcases h.placed with ⟨start,version,_⟩ | ⟨start,_⟩
  · have lap : s.synced.lap = s.reported.lap := by omega
    refine ⟨start,version,lap,?_,fun x mem other => ?_⟩
    · have shipped : s.shipped.filter (fun x => x.lap = s.reported.lap) = s.shipped :=
        List.filter_eq_self.mpr fun x mem => by
          have := shippedLaps h mem
          simp only [decide_eq_true_eq]
          omega
      have unsynced : s.unsynced.filter (fun x => x.lap = s.reported.lap) = inLap s := by rw [inLap,lap]
      rw [List.filter_append,shipped,unsynced,lastAppend]
      exact mark
    · rcases mem_append.mp mem with old | new
      · have := shippedLaps h old
        omega
      · have here : x ∈ behind s := mem_filter.mpr ⟨new,by simpa [lap] using other⟩
        have last := @lastMemSome s.synced _ some
        have same : x.lap = ((behind s).getLastD s.synced).lap := by
          rw [(roomy.1.1 x here).1,(roomy.1.1 _ last).1]
        have chain := behindChain h.toSynced
        have same' : x.lap = ((behind s).getLastD ((inLap s).getLastD s.synced)).lap := by
          rw [same,cons,getLastD_cons,getLastD_cons]
        have below := laidStopLe chain (.tail _ here) same'
        rw [cons,getLastD_cons] at below stop
        rw [cons] at room
        omega
  · omega

def mark (s : State) : Nat := if behind s = [] then 0 else s.log.logEnd

def sessionDone (s : State) : State :=
  { s with
    peer := { moved s.peer (s.unsynced.getLastD s.synced).stop (mark s) with nDigest := s.peer.nDigest + s.peer.nUnsync }
    remote := (entries s).foldl (deliver s.headers) s.remote
    unsynced := []
    shipped := s.shipped ++ s.unsynced }

theorem rsyncDone {t nBlk} (h : Synced s) (marked : Marked s) (loaded : Loaded s) (taken : step s (.rsync nBlk) = .some t) :
    startRsyncSession s.log s.peer s.loadedEnd nBlk = .some (.session (newSession s.log s.peer)) ∧ t = sessionDone s := by
  obtain ⟨p,y,started,made,rfl⟩ := rsyncExact loaded taken
  obtain ⟨_,amount,_⟩ := startEstablished started
  obtain ⟨y',exact,counted,messages⟩ := createMarked h marked amount
  obtain ⟨rfl,rfl⟩ := Prod.mk.inj (Option.some.inj (exact.symm.trans made))
  refine ⟨started,?_⟩
  rw [messages,counted]
  rfl

theorem doneSynced : (sessionDone s).synced = s.unsynced.getLastD s.synced := lastAppend _ _

theorem doneHeaded (h : Tracked s) {nBlk x} (roomy : Roomy s (.rsync nBlk))
    (started : startRsyncSession s.log s.peer s.loadedEnd nBlk = .some (.session x)) :
    Headed (sessionDone s).remote (s.shipped ++ s.unsynced) := by
  intro x mem
  show (entries s).foldl (deliver s.headers) s.remote x.start = _
  rw [deliverEntries]
  rcases mem_append.mp mem with old | new
  · obtain ⟨first,second⟩ := sessionApart h roomy started old
    have long := h.longPast x old
    have out : ¬(s.synced.stop ≤ x.start ∧ x.start < s.synced.stop + blocks (inLap s) ∨
        s.log.begin ≤ x.start ∧ x.start < s.log.begin + blocks (behind s)) := by
      have below : blocks (behind s) = 0 ∨ s.log.begin + blocks (behind s) ≤ x.start :=
        second.imp (fun none => by rw [none]; rfl) id
      clear second
      simp only [Span.stop] at first ⊢
      omega
    rw [if_neg out]
    exact h.headedPast x old
  · rw [if_pos (landed h.toSynced roomy.1 new)]
    exact unsyncedHeaded h.toSynced roomy.1 x new

theorem markZero (h : Synced s) (marked : Marked s) : mark s = 0 ↔ behind s = [] := by
  unfold mark
  split
  · simp [*]
  · rename_i some
    simp [some,(behindWithin h marked some).2.1]

theorem doneAvail (h : Tracked s) (marked : Marked s) : (sessionDone s).peer.availVersion = (sessionDone s).synced.lap := by
  rw [doneSynced,unsyncedLap h.toSynced marked,← h.avail]
  show (if mark s = 0 then _ else _) = _
  simp only [markZero h.toSynced marked]

theorem donePlaced (h : Tracked s) {nBlk} (roomy : Roomy s (.rsync nBlk)) : Placed (sessionDone s) := by
  have lap := unsyncedLap h.toSynced roomy.1
  unfold Placed
  rw [doneSynced,lap]
  by_cases none : behind s = []
  · rw [if_pos none]
    refine h.placed.imp id fun ⟨start,version,synced,all⟩ => ⟨start,version,synced,fun x mem => ?_⟩
    rcases mem_append.mp mem with old | new
    · exact all x old
    · rw [unsyncedOneLap h.toSynced none new]
      exact synced
  · obtain ⟨start,version,same,_⟩ := beyondCross h roomy none
    rw [if_neg none]
    exact .inl ⟨start,version,by rw [same]; exact Nat.le_refl _⟩

theorem doneBeyond (h : Tracked s) {nBlk x} (roomy : Roomy s (.rsync nBlk))
    (started : startRsyncSession s.log s.peer s.loadedEnd nBlk = .some (.session x)) :
    ((sessionDone s).peer.startVersion = (sessionDone s).peer.availVersion → (sessionDone s).peer.remoteEnd = 0) ∧
    ((sessionDone s).peer.startVersion ≠ (sessionDone s).peer.availVersion →
      Beyond (s.shipped ++ s.unsynced) s.reported (sessionDone s).peer.remoteEnd s.peer.startDigest) := by
  by_cases none : behind s = []
  · have zero := (markZero h.toSynced roomy.1).mpr none
    have avail : (sessionDone s).peer.availVersion = s.peer.availVersion := if_pos zero
    have stop : (sessionDone s).peer.remoteEnd = s.peer.remoteEnd := if_pos zero
    rw [avail,stop]
    exact ⟨h.level,beyondWithin h none started⟩
  · have zero := mt (markZero h.toSynced roomy.1).mp none
    have avail : (sessionDone s).peer.availVersion = s.peer.availVersion + 1 := if_neg zero
    have stop : (sessionDone s).peer.remoteEnd = s.log.logEnd := (if_neg zero).trans (if_neg none)
    have level := (roomy.2.1 none).1
    rw [avail,stop,level]
    refine ⟨fun same => ?_,fun _ => (beyondCross h roomy none).2.2.2⟩
    exact absurd same (Nat.ne_of_lt (Nat.lt_succ_self _))

theorem doneAsked (h : Tracked s) {nBlk d} (roomy : Roomy s (.rsync nBlk)) (flight : s.peerDigest = .some d) :
    Asked (sessionDone s) d := by
  obtain ⟨start,positive,kind⟩ := h.flight d flight
  have few : d.count ≤ s.shipped.length := by
    have := h.count
    rw [flight,Option.elim_some] at this
    omega
  refine ⟨start,positive,?_⟩
  rcases kind with ⟨stop,laps⟩ | ⟨ahead,stop,before⟩
  · refine .inl ⟨stop,fun x mem => laps x ?_⟩
    rwa [show (sessionDone s).shipped = s.shipped ++ s.unsynced from rfl,List.take_append_of_le_length few] at mem
  · have none : behind s = [] := by
      by_contra some
      exact ahead (roomy.2.1 some).1.symm
    have zero := (markZero h.toSynced roomy.1).mpr none
    have avail : (sessionDone s).peer.availVersion = s.peer.availVersion := if_pos zero
    have same : (sessionDone s).peer.remoteEnd = s.peer.remoteEnd := if_pos zero
    exact .inr ⟨by rw [avail]; exact ahead,by rw [same]; exact stop,by rw [same]; exact before⟩

theorem rsyncTracked {t nBlk} (h : Tracked s) (roomy : Roomy s (.rsync nBlk)) (taken : step s (.rsync nBlk) = .some t) :
    Tracked t := by
  have synced := rsyncSynced h.toSynced ⟨roomy.1,roomy.2.2⟩ taken
  obtain ⟨started,rfl⟩ := rsyncDone h.toSynced roomy.1 roomy.2.2 taken
  refine { toSynced := synced, past := laidAppend h.past (unsyncedChain h.toSynced), insidePast := ?_, longPast := ?_,
           headedPast := doneHeaded h roomy started, avail := doneAvail h roomy.1, placed := donePlaced h roomy,
           level := (doneBeyond h roomy started).1, ahead := (doneBeyond h roomy started).2,
           flight := fun d flight => doneAsked h roomy flight, some := h.some, waiting := rfl, count := ?_ }
  · intro x mem
    rcases mem_cons.mp mem with rfl | mem
    · exact h.insidePast _ (.head _)
    · rcases mem_append.mp mem with old | new
      · exact h.insidePast x (.tail _ old)
      · exact h.inside x (.tail _ (unsyncedLaid new))
  · intro x mem
    rcases mem_append.mp mem with old | new
    · exact h.longPast x old
    · exact h.long x (unsyncedLaid new)
  · have count := h.count
    have waiting := h.waiting
    show s.peer.nDigest + s.peer.nUnsync + (s.asked.map Prod.fst).sum + (s.peerDigest.elim 0 Digest.count) =
      (s.shipped ++ s.unsynced).length
    rw [List.length_append]
    omega

section notification
variable {d : Digest}

theorem coveredChain (h : Tracked s) (n : Nat) :
    (s.reported::s.shipped.take n).IsChain (Follows s.log.begin s.log.size) ∧
    ((s.shipped.take n).getLastD s.reported::s.shipped.drop n).IsChain (Follows s.log.begin s.log.size) := by
  have chain := h.past
  rw [← List.take_append_drop n s.shipped] at chain
  refine ⟨?_,laidRest chain⟩
  rw [← List.cons_append] at chain
  exact chain.left_of_append

theorem coveredSome (h : Tracked s) (flight : s.peerDigest = .some d) : ∃ x xs, s.shipped.take d.count = x::xs ∧
    xs.length + 1 = d.count := by
  have positive := (h.flight d flight).2.1
  have count := h.count
  rw [flight,Option.elim_some] at count
  have length : (s.shipped.take d.count).length = d.count := by rw [List.length_take]; omega
  cases taken : s.shipped.take d.count with
  | nil => rw [taken,List.length_nil] at length; omega
  | cons x xs => exact ⟨x,xs,rfl,by rw [← length,taken,List.length_cons]⟩

theorem coveredLong (h : Tracked s) {x n} (mem : x ∈ s.shipped.take n) : 0 < x.len := by
  have := h.longPast x (mem_of_mem_take mem)
  omega

theorem levelReport (h : Tracked s) (flight : s.peerDigest = .some d) (stop : d.stop = 0)
    (laps : ∀ x ∈ s.shipped.take d.count, x.lap = s.peer.startVersion) {next rotated}
    (walked : digestLogs s.remote s.log.begin d.stop d.count d.start false = .some (next,rotated)) :
    next = ((s.shipped.take d.count).getLastD s.reported).stop ∧ rotated = false := by
  obtain ⟨x,xs,taken,length⟩ := coveredSome h flight
  obtain ⟨chain,_⟩ := coveredChain h d.count
  have long : ∀ z ∈ s.shipped.take d.count, 0 < z.len := fun z => coveredLong h
  have inside : ∀ z ∈ s.shipped.take d.count, z.stop ≠ 0 + 1 := by
    intro z mem
    have := (h.insidePast z (.tail _ (mem_of_mem_take mem))).1
    have := long z mem
    simp only [FsLog.begin,Span.stop] at *
    omega
  have headed : Headed s.remote (s.shipped.take d.count) := fun z mem => h.headedPast z (mem_of_mem_take mem)
  rw [taken] at laps chain long inside headed ⊢
  have linked := linkedOneLap chain.tail (fun y left z right => (laps y left).trans (laps z right).symm) inside long
  have first : d.start = x.start := by
    rw [(h.flight d flight).1]
    have follows := (isChain_cons_cons.mp chain).1
    have lap := laps x (.head _)
    rcases h.placed with ⟨start,version,_⟩ | ⟨start,version,_⟩
    · rcases follows with ⟨_,here⟩ | ⟨other,_⟩
      · rw [start,here]
      · omega
    · rcases follows with ⟨other,_⟩ | ⟨_,here,_⟩
      · omega
      · rw [start,here]
  rw [stop,first,← length,digestSpans linked headed] at walked
  obtain ⟨rfl,rfl⟩ := Prod.mk.inj (Option.some.inj walked)
  rw [getLastD_cons]
  refine ⟨nextStop (inside _ lastMem) (long _ lastMem),?_⟩
  rw [Bool.false_or,List.any_eq_false]
  intro z mem
  simpa using notTurns (inside z mem) (long z mem)

structure Open (s : State) (x : Span) (xs : List Span) (y : Span) (ys : List Span) : Prop where
  shipped : s.shipped = (x::xs) ++ (y::ys)
  old : ∀ z ∈ x::xs, z.lap = s.reported.lap
  new : ∀ z ∈ y::ys, z.lap = s.reported.lap + 1 ∧ z.stop ≤ s.peer.startDigest
  last : (xs.getLastD x).stop = s.peer.remoteEnd + 1
  start : x.start = s.peer.startDigest
  above : s.log.begin < (xs.getLastD x).start

theorem openAhead (h : Tracked s) (ahead : s.peer.startVersion ≠ s.peer.availVersion)
    (before : s.peer.startDigest ≤ s.peer.remoteEnd) : ∃ x xs y ys, Open s x xs y ys := by
  obtain ⟨start,version,lap,_,_⟩ := shippedAhead h (Ne.symm ahead)
  obtain ⟨mark,below⟩ := h.ahead ahead
  have split := laidSplit h.past
  have chain := h.past
  generalize oldEq : s.shipped.filter (fun x => x.lap = s.reported.lap) = old at mark split
  generalize newEq : s.shipped.filter (fun x => x.lap ≠ s.reported.lap) = new at split
  have oldLap : ∀ z ∈ old, z.lap = s.reported.lap := by
    intro z mem
    rw [← oldEq] at mem
    simpa using (mem_filter.mp mem).2
  have newLap : ∀ z ∈ new, z ∈ s.shipped ∧ z.lap ≠ s.reported.lap := by
    intro z mem
    rw [← newEq] at mem
    simpa using mem_filter.mp mem
  obtain ⟨x,xs,rfl⟩ : ∃ x xs, old = x::xs := by
    refine List.exists_cons_of_ne_nil fun none => ?_
    rw [none,List.getLastD_nil] at mark
    omega
  obtain ⟨y,ys,rfl⟩ : ∃ y ys, new = y::ys := by
    refine List.exists_cons_of_ne_nil fun none => ?_
    have : s.synced.lap = s.reported.lap := by
      rw [State.synced,split,none,append_nil]
      exact oldLap _ (by rw [getLastD_cons]; exact lastMem)
    omega
  have yLong := h.longPast y (newLap y (.head _)).1
  have xLong := h.longPast (xs.getLastD x) (by rw [split]; exact mem_append_left _ lastMem)
  have bounds := h.bounds
  rw [split] at chain
  have follows : Follows s.log.begin s.log.size (xs.getLastD x) y := by
    have rest := laidRest chain
    rw [getLastD_cons] at rest
    exact (isChain_cons_cons.mp rest).1
  rw [getLastD_cons] at mark
  refine ⟨x,xs,y,ys,split,oldLap,fun z mem => ?_,mark.symm,?_,?_⟩
  · have laps := shippedLaps h (newLap z mem).1
    have other := (newLap z mem).2
    exact ⟨by omega,below z (newLap z mem).1 other⟩
  · have first := (isChain_cons_cons.mp chain).1
    have same := oldLap x (.head _)
    rcases first with ⟨_,here⟩ | ⟨other,_⟩
    · rw [start,here]
    · omega
  · have lapX := oldLap _ (@lastMem x xs)
    have lapY := (newLap y (.head _)).2
    rcases follows with ⟨other,_⟩ | ⟨_,_,full⟩
    · omega
    · simp only [Span.stop,FsLog.begin,gLogSize,maxTransaction] at *
      omega

theorem openLinked (h : Tracked s) {x xs y ys} (shape : Open s x xs y ys)
    (before : s.peer.startDigest ≤ s.peer.remoteEnd) : Linked s.log.begin s.peer.remoteEnd s.shipped := by
  have chain := h.past.tail
  have long : ∀ z ∈ s.shipped, 0 < z.len := fun z mem => by have := h.longPast z mem; omega
  rw [tail_cons,shape.shipped] at chain
  rw [shape.shipped] at long ⊢
  obtain ⟨left,right⟩ := List.isChain_split.mp chain
  refine List.isChain_split.mpr ⟨?_,?_⟩
  · refine linkedWrap left ?_ ?_ (fun z mem => long z (mem_append_left _ mem)) shape.last
    · rw [shape.old _ lastMem,shape.old x (.head _)]
    · rw [(shape.new y (.head _)).1,shape.old x (.head _)]
  · refine linkedOneLap right (fun a first b second => ?_) (fun z mem => ?_) fun z mem => long z (List.mem_append_right _ mem)
    · rw [(shape.new a first).1,(shape.new b second).1]
    · have := (shape.new z mem).2
      omega

theorem openBelow (h : Tracked s) {x xs y ys} (shape : Open s x xs y ys) {z} (mem : z ∈ x::xs) :
    z.stop ≤ s.peer.remoteEnd + 1 := by
  have chain := h.past.tail
  rw [tail_cons,shape.shipped] at chain
  have stop := laidStopLe chain.left_of_append mem (by rw [shape.old z mem,shape.old _ lastMem])
  rwa [shape.last] at stop

theorem openLast (h : Tracked s) {x xs y ys} (shape : Open s x xs y ys) {z} (mem : z ∈ x::xs)
    (stop : z.stop = s.peer.remoteEnd + 1) : z = xs.getLastD x := by
  have chain := h.past.tail
  rw [tail_cons,shape.shipped] at chain
  have lap := shape.old z mem
  have lapLast := shape.old _ (@lastMem x xs)
  have last := shape.last
  have zLong := h.longPast z (by rw [shape.shipped]; exact mem_append_left _ mem)
  have wLong := h.longPast (xs.getLastD x) (by rw [shape.shipped]; exact mem_append_left _ lastMem)
  rcases laidEither chain.left_of_append mem (@lastMem x xs) with same | before | before
  · exact same
  all_goals
    simp only [Before,Span.stop] at *
    omega

theorem aheadReport (h : Tracked s) (flight : s.peerDigest = .some d) (stop : d.stop = s.peer.remoteEnd)
    (before : s.peer.startDigest ≤ s.peer.remoteEnd) {x xs y ys} (shape : Open s x xs y ys) {next rotated}
    (walked : digestLogs s.remote s.log.begin d.stop d.count d.start false = .some (next,rotated)) :
    let last := (s.shipped.take d.count).getLastD s.reported
    last.lap = s.reported.lap ∧ last.stop ≠ s.peer.remoteEnd + 1 ∧ next = last.stop ∧ rotated = false ∨
    last.lap = s.reported.lap ∧ last.stop = s.peer.remoteEnd + 1 ∧ next = s.log.begin ∧ rotated = true ∨
    last.lap = s.reported.lap + 1 ∧ next = last.stop ∧ rotated = true := by
  obtain ⟨a,as,taken,length⟩ := coveredSome h flight
  have linked := (openLinked h shape before).take d.count
  have headed : Headed s.remote (s.shipped.take d.count) := fun z mem => h.headedPast z (mem_of_mem_take mem)
  have long : ∀ z ∈ s.shipped.take d.count, 0 < z.len := fun z => coveredLong h
  have first : d.start = a.start := by
    have same : a = x := by
      rw [shape.shipped,← length,List.cons_append,List.take_succ_cons] at taken
      exact (List.cons.inj taken).1.symm
    rw [(h.flight d flight).1,same,shape.start]
  have member : ∀ z ∈ s.shipped.take d.count, z ∈ x::xs ∨ z ∈ y::ys := fun z mem =>
    mem_append.mp (shape.shipped ▸ mem_of_mem_take mem)
  obtain ⟨chain,after⟩ := coveredChain h d.count
  have parts := List.take_append_drop d.count s.shipped
  rw [taken] at linked headed long chain after parts member ⊢
  rw [getLastD_cons] at after ⊢
  rw [stop,first,← length,digestSpans linked headed] at walked
  obtain ⟨rfl,rfl⟩ := Prod.mk.inj (Option.some.inj walked)
  rw [Bool.false_or]
  rcases member _ (@lastMem a as) with old | new
  · have lap := shape.old _ old
    by_cases mark : (as.getLastD a).stop = s.peer.remoteEnd + 1
    · refine .inr (.inl ⟨lap,mark,nextBegin mark,List.any_eq_true.mpr ⟨_,lastMem,?_⟩⟩)
      have above := shape.above
      rw [← openLast h shape old mark] at above
      simpa using turnsLast mark above
    · refine .inl ⟨lap,mark,nextStop mark (long _ lastMem),List.any_eq_false.mpr fun z mem => ?_⟩
      have below := openBelow h shape old
      have low := laidFirst chain mem
      have high := laidLapLe chain (.tail _ mem)
      rw [getLastD_cons] at high
      have stopLe := laidStopLe chain (.tail _ mem) (by
        rw [getLastD_cons]
        simp only [Before] at low
        omega)
      rw [getLastD_cons] at stopLe
      have inside : z.stop ≠ s.peer.remoteEnd + 1 := by omega
      simpa using notTurns inside (long z mem)
  · obtain ⟨lap,low⟩ := shape.new _ new
    have inside : (as.getLastD a).stop ≠ s.peer.remoteEnd + 1 := by omega
    refine .inr (.inr ⟨lap,nextStop inside (long _ lastMem),List.any_eq_true.mpr ⟨xs.getLastD x,?_,?_⟩⟩)
    · have mem : xs.getLastD x ∈ (a::as) ++ s.shipped.drop d.count := by
        rw [parts,shape.shipped]
        exact mem_append_left _ lastMem
      rcases mem_append.mp mem with covered | rest
      · exact covered
      · have later := laidFirst after rest
        have oldLap := shape.old _ (@lastMem x xs)
        simp only [Before] at later
        omega
    · simpa using turnsLast shape.last shape.above

theorem updatePlain {p : Peer} {next : Nat} (order : p.startDigest ≤ next) :
    updatePeerDigestState p next false = { p with startDigest := next } := by
  simp [updatePeerDigestState,Nat.not_lt.mpr order]

theorem updateRotated {p : Peer} {next : Nat} (last : p.startVersion + 1 = p.availVersion) :
    updatePeerDigestState p next true =
      { p with startDigest := next, startVersion := p.startVersion + 1, remoteEnd := 0 } := by
  simp [updatePeerDigestState,last]

def reportDone (s : State) (n : Nat) (p : Peer) : State :=
  { s with
    peer := p
    shipped := s.shipped.drop n
    reported := (s.shipped.take n).getLastD s.reported
    peerDigest := none }

theorem reportSynced {n p} : (reportDone s n p).synced = s.synced := by
  rw [State.synced,State.synced,reportDone,← lastAppend,List.take_append_drop]

theorem reportTracked (h : Tracked s) (flight : s.peerDigest = .some d) {p} (synced : Synced (reportDone s d.count p))
    (avail : p.availVersion = s.peer.availVersion) (waiting : p.nUnsync = s.peer.nUnsync)
    (digest : p.nDigest = s.peer.nDigest) (placed : Placed (reportDone s d.count p))
    (level : p.startVersion = p.availVersion → p.remoteEnd = 0)
    (ahead : p.startVersion ≠ p.availVersion → Beyond (s.shipped.drop d.count)
      ((s.shipped.take d.count).getLastD s.reported) p.remoteEnd p.startDigest) : Tracked (reportDone s d.count p) := by
  refine { toSynced := synced, past := (coveredChain h d.count).2, insidePast := fun x mem => ?_,
           longPast := fun x mem => h.longPast x (mem_of_mem_drop mem),
           headedPast := fun x mem => h.headedPast x (mem_of_mem_drop mem),
           avail := by rw [reportSynced,← h.avail]; exact avail, placed := placed, level := level, ahead := ahead,
           flight := fun _ held => (nomatch held), some := h.some, waiting := waiting.trans h.waiting, count := ?_ }
  · refine h.insidePast x ?_
    rcases mem_cons.mp mem with rfl | rest
    · exact List.cons_subset_cons _ (List.take_subset _ _) lastMem
    · exact .tail _ (mem_of_mem_drop rest)
  · have count := h.count
    rw [flight,Option.elim_some] at count
    show p.nDigest + (s.asked.map Prod.fst).sum + 0 = (s.shipped.drop d.count).length
    rw [List.length_drop,digest]
    omega

theorem versionLead (h : Tracked s) : s.synced.lap = s.peer.startVersion ∨ s.synced.lap = s.peer.startVersion + 1 := by
  have low : s.reported.lap ≤ s.synced.lap := laidLapLe h.past (.head _)
  rcases h.placed with ⟨_,version,lead⟩ | ⟨_,version,lead,_⟩ <;> omega

theorem plainTracked (h : Tracked s) (flight : s.peerDigest = .some d)
    (laps : ∀ x ∈ s.shipped.take d.count, x.lap = s.peer.startVersion) {next}
    (here : next = ((s.shipped.take d.count).getLastD s.reported).stop)
    (synced : Synced (reportDone s d.count (updatePeerDigestState s.peer next false))) :
    Tracked (reportDone s d.count (updatePeerDigestState s.peer next false)) := by
  obtain ⟨a,as,taken,_⟩ := coveredSome h flight
  have mem : (s.shipped.take d.count).getLastD s.reported ∈ s.shipped.take d.count := lastMemSome (by simp [taken])
  generalize lastEq : (s.shipped.take d.count).getLastD s.reported = last at here mem
  have lap := laps last mem
  have order : s.peer.startDigest ≤ next := by
    have first := laidFirst h.past (mem_of_mem_take mem)
    have begin := (h.insidePast last (.tail _ (mem_of_mem_take mem))).1
    rcases h.placed with ⟨start,version,_⟩ | ⟨start,_⟩ <;> (simp only [Before,Span.stop] at *; omega)
  rw [updatePlain order] at synced ⊢
  refine reportTracked h flight synced rfl rfl rfl (.inl ⟨?_,?_,?_⟩) h.level fun ahead => ?_
  · show next = ((s.shipped.take d.count).getLastD s.reported).stop
    rw [lastEq,here]
  · show s.peer.startVersion = ((s.shipped.take d.count).getLastD s.reported).lap
    rw [lastEq,lap]
  · rw [reportSynced]
    show s.synced.lap ≤ ((s.shipped.take d.count).getLastD s.reported).lap + 1
    rw [lastEq]
    have := versionLead h
    omega
  · obtain ⟨mark,below⟩ := h.ahead ahead
    obtain ⟨_,version,_⟩ := shippedAhead h (Ne.symm ahead)
    have same : last.lap = s.reported.lap := lap.trans version
    rw [← List.take_append_drop d.count s.shipped,List.filter_append,lastAppend] at mark
    have covered : (s.shipped.take d.count).filter (fun x => x.lap = s.reported.lap) = s.shipped.take d.count :=
      List.filter_eq_self.mpr fun x here => by simpa [version] using laps x here
    rw [covered,lastEq] at mark
    refine ⟨by rw [lastEq,same]; exact mark,fun x rest other => ?_⟩
    rw [lastEq,same] at other
    exact Nat.le_trans (below x (mem_of_mem_drop rest) other) order

theorem rotatedTracked (h : Tracked s) (flight : s.peerDigest = .some d) {x xs y ys} (shape : Open s x xs y ys) {next}
    (ahead : s.peer.startVersion ≠ s.peer.availVersion)
    (report : let last := (s.shipped.take d.count).getLastD s.reported
      last.lap = s.reported.lap ∧ last.stop = s.peer.remoteEnd + 1 ∧ next = s.log.begin ∨
      last.lap = s.reported.lap + 1 ∧ next = last.stop)
    (synced : Synced (reportDone s d.count (updatePeerDigestState s.peer next true))) :
    Tracked (reportDone s d.count (updatePeerDigestState s.peer next true)) := by
  obtain ⟨_,version,lap,_⟩ := shippedAhead h (Ne.symm ahead)
  have avail := h.avail
  have after := (coveredChain h d.count).2
  have closed : s.peer.startVersion + 1 = s.peer.availVersion := by omega
  rw [updateRotated closed] at synced ⊢
  refine reportTracked h flight synced rfl rfl rfl ?_ (fun _ => rfl) fun other => absurd closed other
  unfold Placed
  rw [reportSynced]
  generalize lastEq : (s.shipped.take d.count).getLastD s.reported = last at report after
  rcases report with ⟨old,stop,here⟩ | ⟨new,here⟩
  · refine .inr ⟨here,?_,?_,fun z rest => ?_⟩
    · show s.peer.startVersion + 1 = ((s.shipped.take d.count).getLastD s.reported).lap + 1
      rw [lastEq,old,version]
    · show s.synced.lap = ((s.shipped.take d.count).getLastD s.reported).lap + 1
      rw [lastEq,old,lap]
    · show z.lap = ((s.shipped.take d.count).getLastD s.reported).lap + 1
      rw [lastEq,old]
      have later := laidFirst after rest
      have long := h.longPast z (mem_of_mem_drop rest)
      rcases mem_append.mp (shape.shipped ▸ mem_of_mem_drop rest : z ∈ (x::xs) ++ (y::ys)) with first | second
      · have same := shape.old z first
        have below := openBelow h shape first
        simp only [Before,Span.stop] at *
        omega
      · exact (shape.new z second).1
  · refine .inl ⟨?_,?_,?_⟩
    · show next = ((s.shipped.take d.count).getLastD s.reported).stop
      rw [lastEq,here]
    · show s.peer.startVersion + 1 = ((s.shipped.take d.count).getLastD s.reported).lap
      rw [lastEq,new,version]
    · show s.synced.lap ≤ ((s.shipped.take d.count).getLastD s.reported).lap + 1
      rw [lastEq]
      omega

theorem peerDigestedTracked {t} (h : Tracked s) (taken : step s .peerDigested = .some t) : Tracked t := by
  have synced := stepSynced h.toSynced (show Proper s .peerDigested from trivial) taken
  obtain ⟨d,next,rotated,flight,walked,rfl⟩ := peerDigestedExact taken
  obtain ⟨_,_,⟨stop,laps⟩ | ⟨ahead,stop,before⟩⟩ := h.flight d flight
  · obtain ⟨here,rfl⟩ := levelReport h flight stop laps walked
    exact plainTracked h flight laps here synced
  · obtain ⟨x,xs,y,ys,shape⟩ := openAhead h ahead before
    rcases aheadReport h flight stop before shape walked with ⟨lap,_,here,rfl⟩ | ⟨lap,mark,here,rfl⟩ | ⟨lap,here,rfl⟩
    · obtain ⟨_,version,_⟩ := shippedAhead h (Ne.symm ahead)
      refine plainTracked h flight (fun z mem => ?_) here synced
      have low := laidFirst h.past (mem_of_mem_take mem)
      have high := laidLapLe (coveredChain h d.count).1 (.tail _ mem)
      simp only [Before] at low
      omega
    · exact rotatedTracked h flight shape ahead (.inl ⟨lap,mark,here⟩) synced
    · exact rotatedTracked h flight shape ahead (.inr ⟨lap,here⟩) synced

end notification

theorem trackedKept {t : State} (h : Tracked s) (synced : Synced t) (begin : t.log.begin = s.log.begin) (size : t.log.size = s.log.size)
    (shipped : t.shipped = s.shipped) (reported : t.reported = s.reported) (remote : t.remote = s.remote)
    (start : t.peer.startDigest = s.peer.startDigest) (version : t.peer.startVersion = s.peer.startVersion)
    (avail : t.peer.availVersion = s.peer.availVersion) (stop : t.peer.remoteEnd = s.peer.remoteEnd)
    (waiting : t.peer.nUnsync = t.unsynced.length) (some : ∀ n ∈ t.asked, 0 < n.1)
    (flight : ∀ d, t.peerDigest = .some d → Asked t d)
    (count : t.peer.nDigest + (t.asked.map Prod.fst).sum + (t.peerDigest.elim 0 Digest.count) = t.shipped.length) :
    Tracked t := by
  have same : t.synced = s.synced := by rw [State.synced,State.synced,shipped,reported]
  refine { toSynced := synced, past := ?_, insidePast := ?_, longPast := ?_, headedPast := ?_, avail := ?_, placed := ?_,
           level := ?_, ahead := ?_, flight := flight, some := some, waiting := waiting, count := count }
  · rw [shipped,reported,begin,size]; exact h.past
  · rw [shipped,reported,begin,size]; exact h.insidePast
  · rw [shipped]; exact h.longPast
  · rw [shipped,remote]; exact h.headedPast
  · rw [same,avail]; exact h.avail
  · unfold Placed
    rw [same,shipped,reported,start,version,begin]
    exact h.placed
  · rw [version,avail,stop]; exact h.level
  · rw [version,avail,stop,shipped,reported,start]; exact h.ahead

theorem askedKept {t : State} {d} (asked : Asked s d) (shipped : t.shipped = s.shipped) (peer : t.peer.startDigest = s.peer.startDigest ∧
    t.peer.startVersion = s.peer.startVersion ∧ t.peer.availVersion = s.peer.availVersion ∧ t.peer.remoteEnd = s.peer.remoteEnd) :
    Asked t d := by
  obtain ⟨start,version,avail,stop⟩ := peer
  unfold Asked
  rw [shipped,start,version,avail,stop]
  exact asked

end tracked

theorem digestTracked {s t} (h : Tracked s) (synced : Synced t) (taken : step s .digest = some t) : Tracked t := by
  obtain ⟨positive,enough,rfl⟩ := digestExact taken
  have tail := requestTail s.log
  refine trackedKept h synced (congrArg (· + 1) tail.sb) tail.size rfl rfl rfl rfl rfl rfl rfl h.waiting ?_
    (fun d flight => askedKept (h.flight d flight) rfl ⟨rfl,rfl,rfl,rfl⟩) ?_
  · intro n mem
    rcases memSnoc mem with old | rfl
    · exact h.some n old
    · exact positive
  · have count := h.count
    simp only [List.map_append,List.sum_append,List.map_cons,List.map_nil,List.sum_cons,List.sum_nil]
    omega

theorem peerDigestTracked {s t} (h : Tracked s) (roomy : Roomy s .peerDigest) (synced : Synced t)
    (taken : step s .peerDigest = some t) : Tracked t := by
  obtain ⟨n,rest,idle,asked,rfl⟩ := peerDigestExact taken
  have positive := h.some
  have count := h.count
  rw [asked] at positive count
  rw [idle] at count
  refine trackedKept h synced rfl rfl rfl rfl rfl rfl rfl rfl rfl h.waiting
    (fun m mem => positive m (.tail _ mem)) (fun d flight => ?_) ?_
  · cases flight
    refine ⟨rfl,positive n (.head _),?_⟩
    by_cases level : s.peer.availVersion = s.peer.startVersion
    · refine .inl ⟨h.level level.symm,fun x mem => ?_⟩
      rw [(shippedLevel h level (mem_of_mem_take mem)).2.2,← h.avail,level]
    · exact .inr ⟨Ne.symm level,rfl,roomy level⟩
  · simp only [List.map_cons,List.sum_cons,Option.elim_none,Option.elim_some] at count ⊢
    omega

theorem stepTracked {s a t} (h : Tracked s) (roomy : Roomy s a) (taken : step s a = some t) : Tracked t := by
  have synced := stepSynced h.toSynced (roomyProper roomy) taken
  cases a with
  | alloc n =>
    obtain ⟨_,rfl⟩ := ifTaken taken
    exact trackedKept h synced (by simp [FsLog.begin]) (by simp) rfl rfl rfl rfl rfl rfl rfl h.waiting h.some
      (fun d flight => askedKept (h.flight d flight) rfl ⟨rfl,rfl,rfl,rfl⟩) h.count
  | ret image =>
    obtain ⟨x,_,rfl⟩ := retExact taken
    exact trackedKept h synced rfl rfl rfl rfl rfl rfl rfl rfl rfl (by simp [updatePeerSyncState,h.waiting]) h.some
      (fun d flight => askedKept (h.flight d flight) rfl ⟨rfl,rfl,rfl,rfl⟩) h.count
  | load =>
    cases taken
    exact trackedKept h synced rfl rfl rfl rfl rfl rfl rfl rfl rfl h.waiting h.some
      (fun d flight => askedKept (h.flight d flight) rfl ⟨rfl,rfl,rfl,rfl⟩) h.count
  | rsync nBlk => exact rsyncTracked h roomy taken
  | digest => exact digestTracked h synced taken
  | digested =>
    obtain ⟨d,next,rotated,rfl⟩ := digestedExact taken
    have tail := responseTail s.log d next rotated
    exact trackedKept h synced (congrArg (· + 1) tail.sb) tail.size rfl rfl rfl rfl rfl rfl rfl h.waiting h.some
      (fun d flight => askedKept (h.flight d flight) rfl ⟨rfl,rfl,rfl,rfl⟩) h.count
  | peerDigest => exact peerDigestTracked h roomy synced taken
  | peerDigested => exact peerDigestedTracked h taken

theorem reachTracked {logSbBlk headers remote s} (h : Reach step Roomy (init logSbBlk headers remote) s) : Tracked s :=
  reachInvariant Tracked (initTracked logSbBlk headers remote) (fun _ _ _ => stepTracked) h

def Clear (s : State) (y : Session) : Prop :=
  ∀ m ∈ y.rdmaEntries, ∀ z ∈ s.shipped, m.addr + m.length ≤ z.start ∨ z.stop ≤ m.addr

theorem pieceShape {start n m} (mem : m ∈ piece start n) : m.addr = start ∧ m.length = n := by
  unfold piece at mem
  split at mem
  · cases mem
  · cases List.mem_singleton.mp mem
    exact ⟨rfl,rfl⟩

theorem roomyNeverOverwrites {logSbBlk headers remote s} (h : Reach step Roomy (init logSbBlk headers remote) s) (nBlk : Nat) :
    startRsyncSession s.log s.peer s.loadedEnd nBlk ≠ none ∧
    ∀ x, Roomy s (.rsync nBlk) → startRsyncSession s.log s.peer s.loadedEnd nBlk = some (.session x) →
      ∃ p y, createRsync s.log s.headers s.peer x = some (p,y) ∧ Clear s y := by
  have tracked := reachTracked h
  refine ⟨?_,fun x roomy started => ?_⟩
  · obtain ⟨used,known⟩ := assertionsHold tracked
    simp [startRsyncSession,known]
  · obtain ⟨_,amount,_⟩ := startEstablished started
    cases sessionLoaded roomy.2.2 started
    obtain ⟨y,made,_,messages⟩ := createMarked tracked.toSynced roomy.1 amount
    refine ⟨_,y,made,fun m mem z shipped => ?_⟩
    obtain ⟨first,second⟩ := sessionApart tracked roomy started shipped
    rw [messages,entries] at mem
    rcases List.mem_append.mp mem with left | right
    · obtain ⟨addr,length⟩ := pieceShape left
      rwa [addr,length]
    · obtain ⟨addr,length⟩ := pieceShape right
      rw [addr,length]
      rcases second with none | below
      · rw [none] at right
        cases right
      · exact .inl below

def roomyTrace : List Action := wrapTrace ++ ([.rsync 0,.digest,.peerDigest,.digested] : List Action) ++ transaction 2 ++ [.load]

theorem roomyNeverOverwritesAhead : ∃ s x p y, s.peer.availVersion ≠ s.peer.startVersion ∧ s.shipped.length = 2 ∧
    startRsyncSession s.log s.peer s.loadedEnd 0 = some (.session x) ∧ createRsync s.log s.headers s.peer x = some (p,y) ∧ Clear s y := by
  obtain ⟨s,reached,roomy,ahead,length,started⟩ : ∃ s, Reach step Roomy (init 0 blank blank) s ∧
      Roomy s (.rsync 0) ∧ s.peer.availVersion ≠ s.peer.startVersion ∧ s.shipped.length = 2 ∧
      startRsyncSession s.log s.peer s.loadedEnd 0 = some (.session (newSession s.log s.peer)) :=
    traceReach roomyTrace (by decide +kernel)
  obtain ⟨p,y,made,clear⟩ := (roomyNeverOverwrites reached 0).2 _ roomy started
  exact ⟨s,_,p,y,ahead,length,started,made,clear⟩

def overwriteTrace : List Action :=
  transaction 100 ++ ([.load,.rsync 0,.digest,.peerDigest,.digested,.peerDigested] : List Action) ++ transactions 30 4098 ++ transaction 4000 ++
  ([.load,.rsync 0,.digest,.peerDigest,.digested] : List Action) ++ transaction 4098 ++ [.load]

theorem rotationOverwrites : ∃ s t x p y, Reach step Any (init 0 blank blank) s ∧
    startRsyncSession s.log s.peer s.loadedEnd 0 = some (.session x) ∧ createRsync s.log s.headers s.peer x = some (p,y) ∧ ¬Clear s y ∧
    step s (.rsync 0) = some t ∧ startRsyncSession t.log t.peer t.loadedEnd 0 = none := by
  obtain ⟨s,reached,holds⟩ : ∃ s, Reach step Any (init 0 blank blank) s ∧
      (decide (startRsyncSession s.log s.peer s.loadedEnd 0 = some (.session (newSession s.log s.peer))) &&
      ((createRsync s.log s.headers s.peer (newSession s.log s.peer)).any fun r =>
      r.2.rdmaEntries.any fun m => s.shipped.any fun z => decide (z.start < m.addr + m.length ∧ m.addr < z.stop)) &&
      ((step s (.rsync 0)).any fun t => decide (startRsyncSession t.log t.peer t.loadedEnd 0 = none))) = true :=
    traceAny overwriteTrace (by decide +kernel)
  simp only [Bool.and_eq_true,decide_eq_true_eq,Option.any_eq_true,List.any_eq_true] at holds
  obtain ⟨⟨started,⟨p,y⟩,made,m,mem,z,shipped,low,high⟩,t,taken,failed⟩ := holds
  refine ⟨s,t,_,p,y,reached,started,made,fun clear => ?_,taken,failed⟩
  rcases clear m mem z shipped with before | after <;> omega

end LineFS.Rsync
