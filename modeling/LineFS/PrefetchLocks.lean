import LineFS.Base.Mutex
import LineFS.Prefetch

/-! The two locks of the prefetch counters. `request_log_fetch` takes both and `calculate_prefetch_meta`
releases them before it sends the request; for a second request of an fsync the former goes back to
the label `retry` behind the acquisitions. Rotations touch the counters without a lock. -/
namespace LineFS.PrefetchLocks
open Base Prefetch

inductive Lock where
  | rsyncN
  | rsyncAddr
  deriving DecidableEq, Repr

inductive After where
  | nothing
  | send (arg : PrefetchArg) (again : Bool)
  deriving DecidableEq, Repr

inductive Place where
  | idle
  | updatePeerSyncState (nrLogBlocks : Nat)
  | add (nrLogBlocks : Nat)
  | added
  | requestLogFetch (isFsync : Bool)
  | lockAddr (isFsync : Bool)
  | retry (isFsync : Bool)
  | calculatePrefetchMeta (isFsync : Bool) (seen : PeerMeta) (endBlknr : Nat)
  | unlockAddr (after : After)
  | unlockN (after : After)
  | sendLogPrefetchRequest (arg : PrefetchArg) (again : Bool)
  deriving DecidableEq, Repr

def Place.holds : Place → Lock → Prop
  | .add _, .rsyncN | .added, .rsyncN | .lockAddr _, .rsyncN | .unlockN _, .rsyncN => True
  | .retry _, _ | .calculatePrefetchMeta _ _ _, _ | .unlockAddr _, _ => True
  | _, _ => False

def Place.inSection : Place → Bool
  | .retry _ | .calculatePrefetchMeta _ _ _ => true
  | _ => false

structure State (τ : Type) where
  locks : Locks Lock τ
  place : τ → Place
  peer : PeerMeta
  logEnd : Nat
  sent : List PrefetchArg

inductive Action (τ : Type) where
  | commit (t : τ) (nrLogBlocks : Nat)
  | fsync (t : τ)
  | go (t : τ)
  | rotate (logEnd : Nat)
  | clearEnd

section Model
variable {τ : Type} [DecidableEq τ]

def init (logBegin : Nat) : State τ := ⟨.free,fun _ => .idle,⟨logBegin,0,0,0⟩,0,[]⟩

def State.to (s : State τ) (t : τ) (p : Place) : State τ := { s with place := Function.update s.place t p }

/- The counters are changed by what was loaded before; local_start only if the group starts over. -/
def subtract (logBegin : Nat) (p : PeerMeta) (arg : PrefetchArg) : PeerMeta :=
  let p := if arg.resetMeta then resetPrefetchMeta logBegin p else p
  { p with localStart := p.localStart + arg.nPrefetchBlk, nUnsyncBlk := p.nUnsyncBlk - arg.nPrefetchBlk,
           nUnsync := p.nUnsync - arg.nPrefetch }

def go (logBegin : Nat) (s : State τ) (t : τ) : Option (State τ) :=
  match s.place t with
  | .idle => none
  | .updatePeerSyncState n => (s.locks.acquire .rsyncN t).map fun ls => { s with locks := ls }.to t (.add n)
  | .add n => some ({ s with peer := updatePeerSyncState s.peer n }.to t .added)
  | .added => some ({ s with locks := s.locks.release .rsyncN t }.to t (.requestLogFetch false))
  | .requestLogFetch f => (s.locks.acquire .rsyncN t).map fun ls => { s with locks := ls }.to t (.lockAddr f)
  | .lockAddr f => (s.locks.acquire .rsyncAddr t).map fun ls => { s with locks := ls }.to t (.retry f)
  | .retry f =>
    if f = true ∨ logPrefetchThreshold < s.peer.nUnsyncBlk then some (s.to t (.calculatePrefetchMeta f s.peer s.logEnd))
    else some (s.to t (.unlockAddr .nothing))
  | .calculatePrefetchMeta f seen e =>
    (Prefetch.calculatePrefetchMeta logBegin e seen f).map fun r =>
      { s with peer := subtract logBegin s.peer r.2 }.to t
        (.unlockAddr (.send r.2 (f && decide (r.2.nPrefetch < seen.nUnsync))))
  | .unlockAddr a => some ({ s with locks := s.locks.release .rsyncAddr t }.to t (.unlockN a))
  | .unlockN a =>
    some ({ s with locks := s.locks.release .rsyncN t }.to t
      (match a with
        | .nothing => .idle
        | .send arg again => .sendLogPrefetchRequest arg again))
  | .sendLogPrefetchRequest arg again =>
    some ({ s with sent := s.sent ++ [arg] }.to t (if again then .retry true else .idle))

def step (logBegin : Nat) (s : State τ) : Action τ → Option (State τ)
  | .commit t n => if s.place t = .idle then some (s.to t (.updatePeerSyncState n)) else none
  | .fsync t => if s.place t = .idle then some (s.to t (.requestLogFetch true)) else none
  | .go t => go logBegin s t
  | .rotate e => some { s with peer := { s.peer with nUnsyncUptoEnd := s.peer.nUnsync }, logEnd := e }
  | .clearEnd => some { s with logEnd := 0 }

/- One request takes everything: no header is left from before a rotation, or all are, or the group
starts over at the begin of the log. -/
def Whole (p : PeerMeta) (endBlknr : Nat) : Prop :=
  p.nUnsyncUptoEnd = 0 ∨ p.nUnsync ≤ p.nUnsyncUptoEnd ∨ endBlknr ≠ 0 ∧ endBlknr < p.localStart
deriving Decidable

def Allowed (s : State τ) : Action τ → Prop
  | .go t => s.place t = .retry true → Whole s.peer s.logEnd
  | _ => True

instance (s : State τ) (a) : Decidable (Allowed s a) := by cases a <;> unfold Allowed <;> infer_instance

def Place.single : Place → Prop
  | .calculatePrefetchMeta f seen e => f = true → Whole seen e
  | .unlockAddr (.send _ again) | .unlockN (.send _ again) | .sendLogPrefetchRequest _ again => again = false
  | _ => True

structure Inv (s : State τ) : Prop where
  disciplined : Disciplined Place.holds s.locks s.place
  single : ∀ t, (s.place t).single

variable {logBegin : Nat} {s s' : State τ} {t : τ} {p : Place}

theorem wholeTakesAll {e : Nat} {seen : PeerMeta} {f : Bool} {r : PeerMeta × PrefetchArg} (whole : Whole seen e)
    (done : Prefetch.calculatePrefetchMeta logBegin e seen f = some r) : seen.nUnsync ≤ r.2.nPrefetch := by
  simp only [Prefetch.calculatePrefetchMeta,groupStart] at done
  by_cases reset : e ≠ 0 ∧ e < seen.localStart
  · simp only [reset,not_false_eq_true,and_self,if_true,resetPrefetchMeta,ne_eq] at done
    cases done
    exact Nat.le_refl _
  · simp only [if_neg reset] at done
    split at done
    · rename_i left
      obtain ⟨_,rfl⟩ := ifTaken done
      rcases whole with none_ | all | past
      · exact absurd none_ left
      · exact all
      · exact absurd past reset
    · cases done
      exact Nat.le_refl _

theorem singleTo (single : ∀ u, (s.place u).single) (here : p.single) : ∀ u, ((s.to t p).place u).single := by
  intro u
  rcases eq_or_ne u t with rfl | other
  · simpa [State.to] using here
  · simpa [State.to,other] using single u

theorem goInv (inv : Inv s) (allowed : Allowed s (.go t)) (taken : go logBegin s t = some s') : Inv s' := by
  obtain ⟨ok,single⟩ := inv
  have here := single t
  unfold go at taken
  cases at_ : s.place t
  case idle => simp [at_] at taken
  case updatePeerSyncState n | requestLogFetch f | lockAddr f =>
    simp only [at_] at taken
    obtain ⟨ls,locked,rfl⟩ := Option.map_eq_some_iff.mp taken
    refine ⟨disciplinedAcquire ok locked fun k => ?_,singleTo single trivial⟩
    cases k <;> simp [Place.holds,at_]
  case add n =>
    simp only [at_] at taken
    cases taken
    refine ⟨disciplinedMove ok fun k => ?_,singleTo single trivial⟩
    cases k <;> simp [Place.holds,at_]
  case added =>
    simp only [at_] at taken
    cases taken
    refine ⟨disciplinedRelease ok (by simp [Place.holds,at_]) fun k => ?_,singleTo single trivial⟩
    cases k <;> simp [Place.holds,at_]
  case retry f =>
    simp only [at_] at taken
    split at taken
    all_goals cases taken
    · refine ⟨disciplinedMove ok fun k => ?_,singleTo single fun fsync => allowed (fsync ▸ at_)⟩
      simp [Place.holds,at_]
    · refine ⟨disciplinedMove ok fun k => ?_,singleTo single trivial⟩
      simp [Place.holds,at_]
  case calculatePrefetchMeta f seen e =>
    simp only [at_] at taken here
    obtain ⟨r,done,rfl⟩ := Option.map_eq_some_iff.mp taken
    refine ⟨disciplinedMove ok fun k => ?_,singleTo single ?_⟩
    · simp [Place.holds,at_]
    · cases f with
      | false => rfl
      | true =>
        have all := wholeTakesAll (here rfl) done
        simp [Place.single,all]
  case unlockAddr a =>
    simp only [at_] at taken here
    cases taken
    refine ⟨disciplinedRelease ok (by simp [Place.holds,at_]) fun k => ?_,singleTo single ?_⟩
    · cases k <;> simp [Place.holds,at_]
    · cases a <;> exact here
  case unlockN a =>
    simp only [at_] at taken here
    cases taken
    refine ⟨disciplinedRelease ok (by simp [Place.holds,at_]) fun k => ?_,singleTo single ?_⟩
    · cases a <;> cases k <;> simp [Place.holds,at_]
    · cases a <;> exact here
  case sendLogPrefetchRequest arg again =>
    simp only [at_] at taken here
    cases taken
    cases here
    refine ⟨disciplinedMove ok fun k => ?_,singleTo single trivial⟩
    simp [Place.holds,at_]

theorem stepInv {a : Action τ} (inv : Inv s) (allowed : Allowed s a) (taken : step logBegin s a = some s') : Inv s' := by
  cases a
  case go t => exact goInv inv allowed taken
  case commit t n | fsync t =>
    obtain ⟨idle,rfl⟩ := ifTaken taken
    exact ⟨disciplinedMove inv.disciplined fun k => by simp [Place.holds,idle],singleTo inv.single trivial⟩
  case rotate e | clearEnd =>
    cases taken
    exact ⟨inv.disciplined,inv.single⟩

omit [DecidableEq τ] in
theorem initInv : Inv (init logBegin : State τ) :=
  ⟨disciplinedFree fun _ held => held,fun _ => trivial⟩

/- A thread between the loads and the update of the counters has both locks, and each acquisition is released
once, by the thread that made it. -/
theorem wholeLocked (reached : Reach (step logBegin) Allowed (init logBegin : State τ) s) :
    (∀ t, (s.place t).inSection = true → ∀ l, s.locks.owner l = some t) ∧
      ∀ l, Paired none (s.locks.history l) (s.locks.owner l) := by
  have inv := reachInvariant Inv initInv (fun _ _ _ inv allowed taken => stepInv inv allowed taken) reached
  refine ⟨fun t inside l => (inv.disciplined.owned l t).mpr ?_,inv.disciplined.paired⟩
  cases at_ : s.place t
  case retry | calculatePrefetchMeta => trivial
  all_goals simp [at_,Place.inSection] at inside

end Model

inductive Thread where
  | first
  | second
  deriving DecidableEq, Repr

def committed (t : Thread) (n : Nat) : List (Action Thread) := .commit t n::List.replicate 8 (.go t)
def requested (t : Thread) (n : Nat) : List (Action Thread) := .commit t n::List.replicate 10 (.go t)
def fsynced (t : Thread) : List (Action Thread) := .fsync t::List.replicate 7 (.go t)

-- Requests up to seven blocks before the end of the log.
def nearEnd : List (Action Thread) := (List.replicate 31 (requested .first 4098)).flatten ++ requested .first 4026

def entered (t : Thread) : List (Action Thread) := [.fsync t,.go t,.go t]

theorem wholeLockedRotated : ∃ s : State Thread, Reach (step 1) Allowed (init 1) s ∧ s.logEnd = 131064 ∧
    s.sent.getLast? = some ⟨1,8,1,true,true⟩ ∧ s.place .second = .calculatePrefetchMeta true ⟨9,0,0,0⟩ 131064 ∧
    ∀ l, s.locks.owner l = some .second := by
  obtain ⟨s,reached,is⟩ : ∃ s, Reach (step 1) Allowed (init 1) s ∧ s.logEnd = 131064 ∧
      s.sent.getLast? = some ⟨1,8,1,true,true⟩ ∧ s.place .second = .calculatePrefetchMeta true ⟨9,0,0,0⟩ 131064 :=
    traceReach (nearEnd ++ .rotate 131064::committed .first 8 ++ fsynced .first ++
      entered .second ++ [.go .second]) (by decide +kernel)
  exact ⟨s,reached,is.1,is.2.1,is.2.2,(wholeLocked reached).1 .second (by rw [is.2.2]; rfl)⟩

def aroundRotation : List (Action Thread) :=
  nearEnd ++ committed .first 3 ++ committed .first 2 ++ .rotate 131069::committed .first 5

/- At the second load of its counters the fsync has no lock, and another fsync is in the section with it. -/
theorem retryUnlocked : ∃ s : State Thread, Reach (step 1) Any (init 1) s ∧ s.place .first = .retry true ∧
    s.place .second = .retry true ∧ s.locks.owner .rsyncN = some .second ∧ s.locks.owner .rsyncAddr = some .second := by
  exact traceAny (aroundRotation ++ fsynced .first ++ entered .second) (by decide +kernel)

end LineFS.PrefetchLocks
