import LineFS.CopyLog

/-! Interleavings of `set_log_persisted_bit`, the inline check in `copy_log_to_last_replica_bg` and the
polling loop in `manage_fsync_ack`, for one LibFS. Each sequence number is a process: its copy completes, it
reads `log_persisted_bitmap_start_seqn` outside the lock, and later acts on the bitmap. A failed check
starts over. -/
namespace LineFS.FsyncAck
open Base Bitmap CopyLog

inductive Phase where
  | copying
  | copied
  | fetched (startSeqn : Nat)
  | counted (startSeqn : Nat)
  | shifted
  | finished
  deriving DecidableEq, Repr

structure State where
  rctx : Rctx
  phase : Nat → Phase

def init : State := ⟨initRctx,fun _ => .copying⟩
def move (s : State) (q : Nat) (p : Phase) : Nat → Phase := fun r => if r = q then p else s.phase r

inductive Action where
  | complete (seqn : Nat)
  | fetch (seqn : Nat)
  | record (seqn : Nat)
  | count (seqn : Nat)
  | shift (seqn : Nat)
  | send (seqn : Nat)
  deriving DecidableEq, Repr

def step (fsync : Nat → Bool) (s : State) : Action → Option State
  | .complete q => if 1 ≤ q ∧ s.phase q = .copying then some { s with phase := move s q .copied } else none
  | .fetch q => if s.phase q = .copied then some { s with phase := move s q (.fetched s.rctx.startSeqn) } else none
  | .record q =>
    match s.phase q with
    | .fetched a =>
      if fsync q then none
      else (setLogPersistedBit s.rctx a q).map fun rctx => ⟨rctx,move s q .finished⟩
    | _ => none
  | .count q =>
    match s.phase q with
    | .fetched a =>
      if fsync q then some { s with phase := move s q (if AllSet s.rctx a q then .counted a else .copied) }
      else none
    | _ => none
  | .shift q =>
    match s.phase q with
    | .counted a => some ⟨shiftBehind s.rctx a q,move s q .shifted⟩
    | _ => none
  | .send q => if s.phase q = .shifted then some { s with phase := move s q .finished } else none

def fetchedStart : Phase → Option Nat
  | .fetched a => some a
  | _ => none

/- A number is recorded inside the array, and the shift of a check does not read behind it. -/
def Within (s : State) : Action → Prop
  | .record q => ∀ a ∈ fetchedStart (s.phase q), q < a + copyNextBitmapSizeInBit
  | .count q => ∀ a ∈ fetchedStart (s.phase q), q + 8 < a + copyNextBitmapSizeInBit
  | _ => True
instance (s a) : Decidable (Within s a) := by cases a <;> unfold Within <;> infer_instance

variable {fsync : Nat → Bool} {s t : State} {q : Nat}

theorem recordExact (h : step fsync s (.record q) = some t) : ∃ a rctx, s.phase q = .fetched a ∧
    fsync q = false ∧ setLogPersistedBit s.rctx a q = some rctx ∧ t = ⟨rctx,move s q .finished⟩ := by
  simp only [step] at h
  split at h <;> try contradiction
  rename_i a phase
  split at h <;> try contradiction
  rename_i plain
  obtain ⟨rctx,set,last⟩ := Option.map_eq_some_iff.mp h
  exact ⟨a,rctx,phase,Bool.eq_false_iff.mpr plain,set,last.symm⟩

theorem countExact (h : step fsync s (.count q) = some t) : ∃ a, s.phase q = .fetched a ∧ fsync q = true ∧
    t = { s with phase := move s q (if AllSet s.rctx a q then .counted a else .copied) } := by
  simp only [step] at h
  split at h <;> try contradiction
  rename_i a phase
  obtain ⟨_,rfl⟩ := ifTaken h
  exact ⟨a,phase,by assumption,rfl⟩

theorem shiftExact (h : step fsync s (.shift q) = some t) : ∃ a, s.phase q = .counted a ∧
    t = ⟨shiftBehind s.rctx a q,move s q .shifted⟩ := by
  simp only [step] at h
  split at h <;> try contradiction
  rename_i a phase
  exact ⟨a,phase,(Option.some.inj h).symm⟩

def Recorded (fsync : Nat → Bool) (s : State) (q : Nat) : Prop := fsync q = false ∧ s.phase q = .finished

structure Owned (fsync : Nat → Bool) (s : State) (own : Nat → Nat) : Prop where
  recorded : ∀ i, persisted s.rctx i = true → Recorded fsync s (own i)
  low : ∀ i, persisted s.rctx i = true → s.rctx.startSeqn ≤ own i
  high : ∀ i, persisted s.rctx i = true → own i ≤ s.rctx.startSeqn + i
  distinct : ∀ i j, persisted s.rctx i = true → persisted s.rctx j = true → own i = own j → i = j

theorem ownersFill {own : Nat → Nat} (owned : Owned fsync s own) {n : Nat}
    (full : ∀ i < n, persisted s.rctx i = true) (v : Nat)
    (low : s.rctx.startSeqn ≤ v) (high : v < s.rctx.startSeqn + n) : ∃ i < n, own i = v := by
  have inside : (Finset.range n).image own ⊆ Finset.Ico s.rctx.startSeqn (s.rctx.startSeqn + n) := by
    intro w mem
    obtain ⟨i,small,rfl⟩ := Finset.mem_image.mp mem
    have below := Finset.mem_range.mp small
    have bound := owned.high i (full i below)
    exact Finset.mem_Ico.mpr ⟨owned.low i (full i below),by omega⟩
  have size : ((Finset.range n).image own).card = n := by
    rw [Finset.card_image_of_injOn,Finset.card_range]
    intro i mi j mj same
    exact owned.distinct i j (full i (by simpa using mi)) (full j (by simpa using mj)) same
  have all := Finset.eq_of_subset_of_card_le inside (by rw [size,Nat.card_Ico]; omega)
  have mem : v ∈ (Finset.range n).image own := all ▸ Finset.mem_Ico.mpr ⟨low,high⟩
  obtain ⟨i,small,same⟩ := Finset.mem_image.mp mem
  exact ⟨i,Finset.mem_range.mp small,same⟩

structure Inv (fsync : Nat → Bool) (s : State) : Prop where
  owned : ∃ own, Owned fsync s own
  started : ∀ q, s.phase q ≠ .copying → 1 ≤ q
  passed : ∀ q, 1 ≤ q → q < s.rctx.startSeqn → s.phase q = .shifted ∨ s.phase q = .finished
  fetched : ∀ q a, s.phase q = .fetched a → a ≤ s.rctx.startSeqn
  counted : ∀ q a, s.phase q = .counted a → fsync q = true ∧ a = s.rctx.startSeqn ∧ s.rctx.startSeqn ≤ q ∧
    q + 8 < s.rctx.startSeqn + copyNextBitmapSizeInBit ∧ ∀ i < q - s.rctx.startSeqn, persisted s.rctx i = true
  behind : ∀ q, s.phase q = .shifted ∨ fsync q = true ∧ s.phase q = .finished → q < s.rctx.startSeqn

theorem initInv (fsync : Nat → Bool) : Inv fsync init := by
  refine ⟨⟨id,?_⟩,?_,?_,?_,?_,?_⟩
  · constructor <;> simp [init]
  all_goals simp [init,initRctx]
  omega

@[simp] theorem moveSelf (s q p) : move s q p q = p := by simp [move]
theorem moveOther {r p} (other : r ≠ q) : move s q p r = s.phase r := by simp [move,other]

theorem ahead (inv : Inv fsync s) (positive : 1 ≤ q) (early : s.phase q ≠ .shifted) (running : s.phase q ≠ .finished) :
    s.rctx.startSeqn ≤ q := by
  by_contra below
  rcases inv.passed q positive (Nat.lt_of_not_le below) with same | same
  · exact early same
  · exact running same

theorem copyingKept {a : Action} {r : Nat} (h : step fsync s a = some t) (other : ∀ q, a ≠ .complete q) :
    t.phase r = .copying ↔ s.phase r = .copying := by
  have moved {q p} (before : s.phase q ≠ .copying) (after : p ≠ .copying) : move s q p r = .copying ↔ s.phase r = .copying := by
    by_cases same : r = q
    · subst same
      rw [moveSelf]
      exact ⟨fun eq => absurd eq after,fun eq => absurd eq before⟩
    · rw [moveOther same]
  cases a with
  | complete q => exact absurd rfl (other q)
  | fetch q =>
    obtain ⟨phase,rfl⟩ := ifTaken h
    exact moved (by simp [phase]) nofun
  | record q =>
    obtain ⟨_,_,phase,_,_,rfl⟩ := recordExact h
    exact moved (by simp [phase]) nofun
  | count q =>
    obtain ⟨_,phase,_,rfl⟩ := countExact h
    exact moved (by simp [phase]) (by split <;> nofun)
  | shift q =>
    obtain ⟨_,phase,rfl⟩ := shiftExact h
    exact moved (by simp [phase]) nofun
  | send q =>
    obtain ⟨phase,rfl⟩ := ifTaken h
    exact moved (by simp [phase]) nofun

theorem moveInv {p} (inv : Inv fsync s) (running : s.phase q ≠ .finished) (positive : 1 ≤ q)
    (passed : s.rctx.startSeqn ≤ q ∨ p = .finished)
    (fetched : ∀ a, p = .fetched a → a ≤ s.rctx.startSeqn)
    (counted : ∀ a, p = .counted a → fsync q = true ∧ a = s.rctx.startSeqn ∧ s.rctx.startSeqn ≤ q ∧
      q + 8 < s.rctx.startSeqn + copyNextBitmapSizeInBit ∧ ∀ i < q - s.rctx.startSeqn, persisted s.rctx i = true)
    (behind : p = .shifted ∨ fsync q = true ∧ p = .finished → q < s.rctx.startSeqn) :
    Inv fsync { s with phase := move s q p } := by
  obtain ⟨own,owned⟩ := inv.owned
  refine ⟨⟨own,?_,owned.low,owned.high,owned.distinct⟩,?_,?_,?_,?_,?_⟩
  · intro i set
    have before := owned.recorded i set
    have other : own i ≠ q := fun same => running (same ▸ before.2)
    exact ⟨before.1,(moveOther other).trans before.2⟩
  all_goals intro r
  all_goals by_cases same : r = q
  all_goals first
    | subst r; simp only [moveSelf]
    | simp only [moveOther same]
  · exact fun _ => positive
  · exact inv.started r
  · intro _ below
    rcases passed with low | done
    · omega
    · exact .inr done
  · exact inv.passed r
  · exact fetched
  · exact inv.fetched r
  · exact counted
  · exact inv.counted r
  · exact behind
  · exact inv.behind r

theorem countedAll {a} (inv : Inv fsync s) (kind : fsync q = true) (ready : s.rctx.startSeqn ≤ q)
    (old : a ≤ s.rctx.startSeqn) (near : q + 8 < a + copyNextBitmapSizeInBit) (full : AllSet s.rctx a q) :
    a = s.rctx.startSeqn ∧ ∀ i < q - s.rctx.startSeqn, persisted s.rctx i = true := by
  obtain ⟨own,owned⟩ := inv.owned
  obtain ⟨below,bits⟩ := (allSetBits (by omega)).mp full
  have current : a = s.rctx.startSeqn := by
    by_contra older
    obtain ⟨i,small,same⟩ := ownersFill owned bits q ready (by omega)
    have plain := (owned.recorded i (bits i small)).1
    rw [same,kind] at plain
    contradiction
  subst a
  exact ⟨rfl,bits⟩

theorem recordInv {a rctx} (inv : Inv fsync s) (phase : s.phase q = .fetched a) (plain : fsync q = false)
    (near : q < a + copyNextBitmapSizeInBit) (set : setLogPersistedBit s.rctx a q = some rctx) :
    Inv fsync ⟨rctx,move s q .finished⟩ := by
  obtain ⟨own,owned⟩ := inv.owned
  obtain ⟨low,bitmap,rfl,bits⟩ := setBit near set
  have old := inv.fetched q a phase
  have ready := ahead inv (inv.started q (by simp [phase])) (by simp [phase]) (by simp [phase])
  have notOwner (i : Nat) (was : persisted s.rctx i = true) : own i ≠ q := by
    intro same
    have done := (owned.recorded i was).2
    rw [same,phase] at done
    contradiction
  have moved : Inv fsync { s with phase := move s q .finished } :=
    moveInv inv (by simp [phase]) (inv.started q (by simp [phase])) (.inr rfl) (by simp) (by simp) (by simp [plain])
  have new {i : Nat} (set : persisted { s.rctx with bitmap } i = true) (clear : ¬persisted s.rctx i = true) : i = q - a := by
    simpa [bits,clear] using set
  refine ⟨⟨fun i => if persisted s.rctx i = true then own i else q,?_,?_,?_,?_⟩,
    moved.started,moved.passed,moved.fetched,?_,moved.behind⟩
  · intro i _
    split
    · rename_i was
      have before := owned.recorded i was
      exact ⟨before.1,(moveOther (notOwner i was)).trans before.2⟩
    · exact ⟨plain,moveSelf s q .finished⟩
  · intro i _
    split
    · exact owned.low i ‹_›
    · exact ready
  · intro i set
    split
    · exact owned.high i ‹_›
    · have place := new set ‹_›
      simp only
      omega
  · intro i j si sj same
    split at same <;> split at same
    · exact owned.distinct i j ‹_› ‹_› same
    · exact absurd same (notOwner i ‹_›)
    · exact absurd same.symm (notOwner j ‹_›)
    · exact (new si ‹_›).trans (new sj ‹_›).symm
  · intro r b held
    obtain ⟨kind,current,low,room,full⟩ := moved.counted r b held
    exact ⟨kind,current,low,room,fun i below => by simp [bits,full i below]⟩

theorem recordedBelow {own : Nat → Nat} (owned : Owned fsync s own)
    (full : ∀ i < q - s.rctx.startSeqn, persisted s.rctx i = true) {r : Nat} (low : s.rctx.startSeqn ≤ r) (below : r < q) :
    Recorded fsync s r := by
  obtain ⟨i,small,rfl⟩ := ownersFill owned full r low (by omega)
  exact owned.recorded i (full i small)

theorem recordedOther {r : Nat} (kind : fsync q = true) (done : Recorded fsync s r) : r ≠ q := by
  rintro rfl
  exact absurd (kind.symm.trans done.1) (by decide)

def shiftedFrom (start q i : Nat) : Nat := if i < 64 * ((q - start + 1 + 8 + 63) / 64) then i + (q - start + 1) else i

theorem shiftedCame {r : Rctx} {a i : Nat} (near : q + 8 < a + copyNextBitmapSizeInBit) (low : a ≤ q)
    (set : persisted (shiftBehind r a q) i = true) :
    persisted r (shiftedFrom a q i) = true ∧ q - a ≤ shiftedFrom a q i ∧
      shiftedFrom a q i ≤ i + (q - a + 1) ∧ (i < 64 * ((q - a + 1 + 8 + 63) / 64) → i < 8) := by
  rw [shiftBit near low] at set
  unfold shiftedFrom
  split at set
  · rename_i inside
    rw [Bool.and_eq_true,decide_eq_true_iff] at set
    rw [if_pos inside]
    exact ⟨set.2,by omega,by omega,fun _ => set.1⟩
  · rename_i outside
    rw [if_neg outside]
    exact ⟨set,by omega,by omega,fun below => absurd below outside⟩

theorem shiftOwned {own : Nat → Nat} (owned : Owned fsync s own) (kind : fsync q = true) (ready : s.rctx.startSeqn ≤ q)
    (room : q + 8 < s.rctx.startSeqn + copyNextBitmapSizeInBit) (full : ∀ i < q - s.rctx.startSeqn, persisted s.rctx i = true) :
    Owned fsync ⟨shiftBehind s.rctx s.rctx.startSeqn q,move s q .shifted⟩ fun i => own (shiftedFrom s.rctx.startSeqn q i) := by
  have above (i : Nat) (beyond : q - s.rctx.startSeqn ≤ i) (set : persisted s.rctx i = true) : q < own i := by
    by_contra le
    have other := recordedOther kind (owned.recorded i set)
    obtain ⟨j,small,same⟩ := ownersFill owned full (own i) (owned.low i set) (by omega)
    have := owned.distinct j i (full j small) set same
    omega
  have came {i : Nat} := shiftedCame (r := s.rctx) (i := i) room ready
  refine ⟨fun i set => ?_,fun i set => above _ (came set).2.1 (came set).1,fun i set => ?_,fun i j si sj same => ?_⟩
  · have before := owned.recorded _ (came set).1
    exact ⟨before.1,(moveOther (recordedOther kind before)).trans before.2⟩
  · have bound := owned.high _ (came set).1
    have place := (came set).2.2.1
    simp only [shiftStart]
    omega
  · have origins := owned.distinct _ _ (came si).1 (came sj).1 same
    have first := (came si).2.2.2
    have second := (came sj).2.2.2
    simp only [shiftedFrom] at origins
    split at origins <;> split at origins <;> omega

theorem shiftInv {a} (inv : Inv fsync s) (phase : s.phase q = .counted a) :
    Inv fsync ⟨shiftBehind s.rctx a q,move s q .shifted⟩ := by
  obtain ⟨own,owned⟩ := inv.owned
  obtain ⟨kind,rfl,ready,room,full⟩ := inv.counted q a phase
  have moved (r : Nat) (other : r ≠ q) : move s q .shifted r = s.phase r := moveOther other
  refine ⟨⟨_,shiftOwned owned kind ready room full⟩,?_,?_,?_,?_,?_⟩
  · intro r begun
    by_cases same : r = q
    · exact inv.started r (by simp [same,phase])
    · exact inv.started r (by simpa only [moved r same] using begun)
  · intro r positive below
    by_cases same : r = q
    · exact .inl (by simp [same])
    · simp only [moved r same]
      by_cases early : r < s.rctx.startSeqn
      · exact inv.passed r positive early
      · exact .inr (recordedBelow owned full (by omega) (by simp only [shiftStart] at below; omega)).2
  · intro r b held
    have other : r ≠ q := by rintro rfl; simp at held
    have := inv.fetched r b (by simpa only [moved r other] using held)
    simp only [shiftStart]
    omega
  · intro r b held
    have other : r ≠ q := by rintro rfl; simp at held
    obtain ⟨kind',_,ready',_,full'⟩ := inv.counted r b (by simpa only [moved r other] using held)
    rcases Nat.lt_or_gt_of_ne other with lower | higher
    · exact absurd rfl (recordedOther kind' (recordedBelow owned full ready' lower))
    · exact absurd rfl (recordedOther kind (recordedBelow owned full' ready higher))
  · intro r done
    by_cases same : r = q
    · simp only [shiftStart]; omega
    · have := inv.behind r (by simpa only [moved r same] using done)
      simp only [shiftStart]
      omega

theorem stepInv {a} (inv : Inv fsync s) (within : Within s a) (h : step fsync s a = some t) : Inv fsync t := by
  cases a with
  | complete q =>
    obtain ⟨⟨positive,phase⟩,rfl⟩ := ifTaken h
    have ready := ahead inv positive (by simp [phase]) (by simp [phase])
    exact moveInv inv (by simp [phase]) positive (.inl ready) (by simp) (by simp) (by simp)
  | fetch q =>
    obtain ⟨phase,rfl⟩ := ifTaken h
    have positive := inv.started q (by simp [phase])
    have ready := ahead inv positive (by simp [phase]) (by simp [phase])
    refine moveInv inv (by simp [phase]) positive (.inl ready) ?_ (by simp) (by simp)
    intro a same
    cases same
    exact Nat.le_refl _
  | record q =>
    obtain ⟨a,rctx,phase,plain,set,rfl⟩ := recordExact h
    exact recordInv inv phase plain (within a (by simp [phase,fetchedStart])) set
  | count q =>
    obtain ⟨a,phase,kind,rfl⟩ := countExact h
    have positive := inv.started q (by simp [phase])
    have ready := ahead inv positive (by simp [phase]) (by simp [phase])
    have room := within a (by simp [phase,fetchedStart])
    refine moveInv inv (by simp [phase]) positive (.inl ready) ?_ ?_ ?_
    · intro b same
      split at same <;> cases same
    · intro b same
      split at same <;> cases same
      rename_i full
      obtain ⟨current,bits⟩ := countedAll inv kind ready (inv.fetched q a phase) room full
      exact ⟨kind,current,ready,current ▸ room,bits⟩
    · intro done
      split at done <;> simp at done
  | shift q =>
    obtain ⟨a,phase,rfl⟩ := shiftExact h
    exact shiftInv inv phase
  | send q =>
    obtain ⟨phase,rfl⟩ := ifTaken h
    have behind := inv.behind q (.inl phase)
    exact moveInv inv (by simp [phase]) (inv.started q (by simp [phase])) (.inr rfl) (by simp) (by simp) (fun _ => behind)

theorem reachInv (run : Reach (step fsync) Within init s) : Inv fsync s :=
  reachInvariant (Inv fsync) (initInv fsync) (fun _ _ _ => stepInv) run

def outOfOrder : List Action :=
  [.complete 3,.fetch 3,.count 3,.complete 2,.fetch 2,.complete 1,.fetch 1,.record 2,.record 1,
   .fetch 3,.count 3,.shift 3]

theorem moveAgain (s : State) (q p p') : move { s with phase := move s q p } q p' = move s q p' := by
  funext r
  by_cases same : r = q <;> simp [move,same]

theorem fetchReach (positive : 1 ≤ q) (copying : s.phase q = .copying) :
    Reach (step fsync) Any s { s with phase := move s q (.fetched s.rctx.startSeqn) } := by
  have completed : Reach (step fsync) Any s { s with phase := move s q .copied } :=
    .next (a := .complete q) .start trivial (by simp [step,positive,copying])
  exact .next (a := .fetch q) completed trivial (by simp [step,moveAgain])

theorem recordReach {rctx : Rctx} (positive : 1 ≤ q) (copying : s.phase q = .copying) (plain : fsync q = false)
    (set : setLogPersistedBit s.rctx s.rctx.startSeqn q = some rctx) : Reach (step fsync) Any s ⟨rctx,move s q .finished⟩ :=
  .next (a := .record q) (fetchReach positive copying) trivial (by simp [step,plain,set,moveAgain])

theorem shiftReach (positive : 1 ≤ q) (copying : s.phase q = .copying) (kind : fsync q = true)
    (full : AllSet s.rctx s.rctx.startSeqn q) :
    Reach (step fsync) Any s ⟨shiftBehind s.rctx s.rctx.startSeqn q,move s q .shifted⟩ := by
  have counted : Reach (step fsync) Any s { s with phase := move s q (.counted s.rctx.startSeqn) } :=
    .next (a := .count q) (fetchReach positive copying) trivial (by simp [step,kind,full,moveAgain])
  exact .next (a := .shift q) counted trivial (by simp [step,moveAgain])

def afterFull (q : Nat) : Bool := q = copyNextBitmapSizeInBit + 2

theorem fillReach (n : Nat) (room : n ≤ copyNextBitmapSizeInBit) : ∃ s, Reach (step afterFull) Any init s ∧ s.rctx.startSeqn = 1 ∧
    (∀ i < n, persisted s.rctx i = true) ∧ ∀ q, n < q → s.phase q = .copying := by
  induction n with
  | zero => exact ⟨init,.start,rfl,by simp,fun _ _ => rfl⟩
  | succ n ih =>
    obtain ⟨s,reached,start,full,copying⟩ := ih (by omega)
    have set : setLogPersistedBit s.rctx s.rctx.startSeqn (n + 1) = some { s.rctx with bitmap := bitmapSet s.rctx.bitmap n 1 } := by
      have small : n < copyNextBitmapSizeInBit := room
      simp [setLogPersistedBit,start,small,Nat.le_of_lt small]
    obtain ⟨_,_,same,bits⟩ := setBit (by omega) set
    cases same
    refine ⟨_,reachTrans reached (recordReach (by omega) (copying _ (by omega)) (by simp [afterFull]; omega) set),start,?_,?_⟩
    · intro i below
      rw [bits,start]
      rcases Nat.lt_succ_iff_lt_or_eq.mp below with old | rfl
      · simp [full i old]
      · simp
    · intro q above
      exact (moveOther (by omega)).trans (copying q (by omega))

end LineFS.FsyncAck
