import LineFS.Base.Pool
import LineFS.Base.Run
import Mathlib.Data.List.Perm.Basic
import Mathlib.Data.List.ReduceOption

/-! The thread pool of `concurrency/thpool.c`, on which the NIC pipeline and the digest run. Workers
are interchangeable: a state counts those at each place of `thread_do`. A step is what a thread does
under one lock; `bsem_wait` does not take `rwmutex`, which a push and a pull hold while they post. -/
namespace LineFS.ThreadPool
open List (append_assoc length_append length_cons length_nil length_singleton)
open Option (bind_eq_some_iff map_eq_some_iff toList_none toList_some)
open Base

/- Who holds `rwmutex` and has yet to post. -/
inductive Holder (α : Type) where
  | nobody
  | push
  | pull (job : α)
  deriving DecidableEq, Repr

/- Workers are before the test of `bsem_wait`, asleep in it, behind it, behind `num_threads_working++`, or run what
they pulled. A caller of `thpool_wait` is the number of jobs added before its call; `testing` has loaded a queue
length of zero and holds `thcount_lock`. The ghosts `pulled` and `done` list the jobs as they were taken and completed. -/
structure State (α : Type) where
  queue : List α
  v : Nat
  rwmutex : Holder α
  waiting : Nat
  asleep : Nat
  awake : Nat
  counted : Nat
  running : List (Option α)
  working : Nat
  called : List Nat
  testing : Option Nat
  sleeping : List Nat
  pulled : List α
  done : List α
  deriving DecidableEq, Repr

def init (α : Type) (threads : Nat) : State α := ⟨[],0,.nobody,threads,0,0,0,[],0,[],none,[],[],[]⟩

/- `wake` and `wakeWaiter` are returns of `pthread_cond_wait` that no signal caused. -/
inductive Action (α : Type) where
  | push (x : α)
  | post
  | test
  | count
  | pull
  | finish (i who : Nat)
  | wake
  | call
  | check (i : Nat)
  | decide
  | wakeWaiter (who : Nat)
  deriving DecidableEq, Repr

section Model
variable {α : Type}

-- `atomic_set_bit` of a pool that does not sleep sets bit 1.
def bsemPost (noSleep : Bool) (s : State α) : State α :=
  if noSleep then { s with v := s.v ||| 2 }
  else if s.asleep = 0 then { s with v := 1 }
  else { s with v := 1, asleep := s.asleep - 1, waiting := s.waiting + 1 }

-- `cmpxchg` returns the old value, and stores 0 only where it was 1.
def bsemWait (noSleep : Bool) (s : State α) : Option (State α) :=
  if s.waiting = 0 then none
  else if noSleep then
    if s.v = 0 then none
    else some { s with v := if s.v = 1 then 0 else s.v, waiting := s.waiting - 1, awake := s.awake + 1 }
  else if s.v = 1 then some { s with v := 0, waiting := s.waiting - 1, awake := s.awake + 1 }
  else some { s with waiting := s.waiting - 1, asleep := s.asleep + 1 }

def jobqueuePull (s : State α) : Option (State α) :=
  if s.counted = 0 then none
  else match s.rwmutex,s.queue with
    | .nobody,[] => some { s with counted := s.counted - 1, running := s.running ++ [none] }
    | .nobody,[x] =>
      some { s with queue := [], counted := s.counted - 1, running := s.running ++ [some x], pulled := s.pulled ++ [x] }
    | .nobody,x::rest => some { s with queue := rest, counted := s.counted - 1, rwmutex := .pull x, pulled := s.pulled ++ [x] }
    | _,_ => none

def wakeWaiter (s : State α) (who : Nat) : Option (State α) :=
  s.sleeping[who]?.map fun n => { s with sleeping := s.sleeping.eraseIdx who, called := s.called ++ [n] }

def State.jobDone (s : State α) (i : Nat) (job : Option α) : State α :=
  { s with working := s.working - 1, running := s.running.eraseIdx i, waiting := s.waiting + 1, done := s.done ++ job.toList }

def step (noSleep : Bool) (s : State α) : Action α → Option (State α)
  | .push x =>
    match s.rwmutex with
    | .nobody => some { s with queue := s.queue ++ [x], rwmutex := .push }
    | _ => none
  | .post =>
    match s.rwmutex with
    | .nobody => none
    | .push => some { bsemPost noSleep s with rwmutex := .nobody }
    | .pull x => some { bsemPost noSleep s with rwmutex := .nobody, running := s.running ++ [some x] }
  | .test => bsemWait noSleep s
  | .count =>
    if s.awake = 0 ∨ s.testing ≠ none then none
    else some { s with awake := s.awake - 1, counted := s.counted + 1, working := s.working + 1 }
  | .pull => jobqueuePull s
  | .finish i who =>
    s.running[i]?.bind fun job =>
      if s.testing ≠ none then none
      else if s.working - 1 ≠ 0 ∨ s.sleeping = [] then some (s.jobDone i job)
      else wakeWaiter (s.jobDone i job) who
  | .wake => if s.asleep = 0 then none else some { s with asleep := s.asleep - 1, waiting := s.waiting + 1 }
  | .call => some { s with called := s.called ++ [s.pulled.length + s.queue.length] }
  | .check i =>
    s.called[i]?.bind fun n =>
      if s.testing ≠ none then none
      else if s.queue = [] then some { s with called := s.called.eraseIdx i, testing := some n }
      else some { s with called := s.called.eraseIdx i, sleeping := s.sleeping ++ [n] }
  | .decide =>
    s.testing.map fun n =>
      if s.working = 0 then { s with testing := none } else { s with testing := none, sleeping := s.sleeping ++ [n] }
  | .wakeWaiter who => wakeWaiter s who

/- `thpool_wait` is called by one thread at a time. -/
def Single (s : State α) : Action α → Prop
  | .call => s.called = [] ∧ s.testing = none ∧ s.sleeping = []
  | _ => True

instance (s : State α) (a) : Decidable (Single s a) := by cases a <;> unfold Single <;> infer_instance

end Model

section Invariant
variable {α : Type} {noSleep single : Bool} {threads : Nat} {s t : State α}

def Holder.job : Holder α → List α
  | .pull x => [x]
  | _ => []

def State.jobs (s : State α) : List α := s.rwmutex.job ++ s.running.reduceOption

/- A job in the queue is announced: its post is due, the semaphore is open, or a worker is on its way to the queue;
and not everybody sleeps while the semaphore is open. A caller that is the only one sleeps for a reason. -/
structure Kept (noSleep single : Bool) (threads : Nat) (s : State α) : Prop where
  places : s.waiting + s.asleep + s.awake + s.counted + s.rwmutex.job.length + s.running.length = threads ∧
    s.working = s.counted + s.rwmutex.job.length + s.running.length
  mode : if noSleep then s.asleep = 0 else s.v ≤ 1
  jobs : s.pulled.Perm (s.done ++ s.jobs)
  pool : ∃ p, Reach (Pool.step threads) Any (Pool.empty,[]) (p,s.done) ∧ p.queue = s.queue ∧ p.running.Perm s.jobs
  pending : ∀ n ∈ s.called ++ s.sleeping, n ≤ s.pulled.length + s.queue.length
  tested : ∀ n ∈ s.testing, n ≤ s.pulled.length
  announced : s.queue ≠ [] → s.rwmutex ≠ .nobody ∨ s.v ≠ 0 ∨ 0 < s.awake + s.counted
  roused : s.v ≠ 0 → s.asleep < threads
  alone : single = true → s.called.length + s.testing.toList.length + s.sleeping.length ≤ 1
  heard : single = true → s.sleeping ≠ [] → s.queue ≠ [] ∨ 0 < s.working

theorem initKept : Kept noSleep single threads (init α threads) where
  places := ⟨rfl,rfl⟩
  mode := by split <;> simp [init]
  jobs := .nil
  pool := ⟨Pool.empty,.start,rfl,.nil⟩
  pending := nofun
  tested := nofun
  announced some := absurd rfl some
  roused := nofun
  alone _ := Nat.zero_le 1
  heard _ some := absurd rfl some

def State.taken (s : State α) (x : α) (rest : List α) (holder : Holder α) (job : List (Option α)) : State α :=
  { s with queue := rest, counted := s.counted - 1, rwmutex := holder, running := s.running ++ job, pulled := s.pulled ++ [x] }

section kept
variable (h : Kept noSleep single threads s)
include h

theorem pushKept {x : α} (taken : step noSleep s (.push x) = some t) : Kept noSleep single threads t := by
  simp only [step] at taken
  split at taken <;> cases taken
  rename_i free
  have job : s.rwmutex.job = Holder.push.job := by rw [free]; rfl
  have same : s.jobs = ({ s with queue := s.queue ++ [x], rwmutex := .push } : State α).jobs := by rw [State.jobs,job]; rfl
  obtain ⟨p,reached,queue,running⟩ := h.pool
  exact { h with
    places := job ▸ h.places
    jobs := same ▸ h.jobs
    pool := ⟨p.add x,.next reached trivial (a := .add x) rfl,by simp [Pool.add,queue],same ▸ running⟩
    pending := fun n mem => Nat.le_trans (h.pending n mem) (by simp)
    announced := fun _ => .inl nofun
    heard := fun _ _ => .inl (by simp) }

theorem bsemPostKept (staffed : 0 < threads) :
    Kept noSleep single threads (bsemPost noSleep s) ∧ (bsemPost noSleep s).v ≠ 0 := by
  have places := h.places
  have mode := h.mode
  unfold bsemPost
  split
  · have opened : s.v ||| 2 ≠ 0 := fun zero => by simp at zero
    exact ⟨{ h with mode := by simp_all, announced := fun _ => .inr (.inl opened), roused := fun _ => by simp_all },opened⟩
  · split
    · exact ⟨{ h with mode := by simp_all, announced := fun _ => .inr (.inl nofun), roused := fun _ => by simp_all },nofun⟩
    · exact ⟨{ h with
        places := by simp only; omega
        mode := by simp_all
        announced := fun _ => .inr (.inl nofun)
        roused := fun _ => by simp only; omega },nofun⟩

theorem releaseKept (job : List (Option α)) (opened : s.v ≠ 0) (same : s.rwmutex.job = job.reduceOption)
    (length : s.rwmutex.job.length = job.length) :
    Kept noSleep single threads { s with rwmutex := .nobody, running := s.running ++ job } := by
  have jobs : s.jobs.Perm ({ s with rwmutex := .nobody, running := s.running ++ job } : State α).jobs := by
    rw [State.jobs,State.jobs,same,List.reduceOption_append]
    exact List.perm_append_comm
  obtain ⟨p,reached,queue,running⟩ := h.pool
  have places := h.places
  exact { h with
    places := by simp only [Holder.job,length_append,length_nil] at *; omega
    jobs := h.jobs.trans (jobs.append_left _)
    pool := ⟨p,reached,queue,running.trans jobs⟩
    announced := fun _ => .inr (.inl opened) }

theorem postKept (staffed : 0 < threads) (taken : step noSleep s .post = some t) : Kept noSleep single threads t := by
  obtain ⟨posted,opened⟩ := bsemPostKept h staffed
  have same : (bsemPost noSleep s).rwmutex = s.rwmutex ∧ (bsemPost noSleep s).running = s.running := by
    unfold bsemPost
    split <;> try split
    all_goals exact ⟨rfl,rfl⟩
  simp only [step] at taken
  split at taken <;> cases taken
  · rename_i held
    simpa [same.2] using releaseKept posted [] opened (by rw [same.1,held]; rfl) (by rw [same.1,held]; rfl)
  · rename_i x held
    rw [← same.2]
    exact releaseKept posted [some x] opened (by simp [same.1,held,Holder.job]) (by simp [same.1,held,Holder.job])

theorem testKept (taken : step noSleep s .test = some t) : Kept noSleep single threads t := by
  have places := h.places
  have mode := h.mode
  simp only [step,bsemWait] at taken
  split at taken <;> try contradiction
  split at taken
  · obtain ⟨_,rfl⟩ := unlessTaken taken
    exact { h with
      places := by simp only; omega
      mode := by simp_all
      announced := fun _ => .inr (.inr (by simp only; omega))
      roused := fun _ => by simp_all; omega }
  · rw [if_neg (by assumption)] at mode
    split at taken <;> cases taken
    · exact { h with
        places := by simp only; omega
        mode := by simp_all
        announced := fun _ => .inr (.inr (by simp only; omega))
        roused := nofun }
    · exact { h with
        places := by simp only; omega
        mode := by simp_all
        roused := fun opened => by simp only at opened; omega }

theorem countKept (taken : step noSleep s .count = some t) : Kept noSleep single threads t := by
  have places := h.places
  obtain ⟨_,rfl⟩ := unlessTaken taken
  exact { h with
    places := by simp only; omega
    announced := fun some => (h.announced some).imp id (Or.imp id fun _ => by simp only; omega)
    heard := fun _ _ => .inr (Nat.succ_pos _) }

theorem takenKept {x : α} {rest : List α} (holder : Holder α) (job : List (Option α)) (counted : s.counted ≠ 0)
    (free : s.rwmutex = .nobody) (front : s.queue = x::rest) (one : holder.job.length + job.length = 1)
    (same : holder.job ++ job.reduceOption = [x]) (more : rest ≠ [] → holder ≠ .nobody) :
    Kept noSleep single threads (s.taken x rest holder job) := by
  have old : s.jobs = s.running.reduceOption := by rw [State.jobs,free]; rfl
  have moved : (s.jobs ++ [x]).Perm (s.taken x rest holder job).jobs := by
    rw [old,← same,← append_assoc,State.jobs,State.taken,List.reduceOption_append,← append_assoc]
    exact List.perm_append_comm.append_right _
  have places := h.places
  simp only [free,Holder.job,length_nil] at places
  obtain ⟨p,reached,queue,running⟩ := h.pool
  have room : p.running.length < threads := by
    rw [running.length_eq,old]
    have := List.reduceOption_length_le s.running
    omega
  have pulls : Pool.step threads (p,s.done) .pull = some (⟨rest,p.running ++ [x]⟩,s.done) := by
    simp [Pool.step,Pool.pull,queue,front,room]
  exact { h with
    places := by simp only [State.taken,length_append]; omega
    jobs := (h.jobs.append_right [x]).trans (by rw [append_assoc]; exact moved.append_left _)
    pool := ⟨_,.next reached trivial pulls,rfl,(running.append_right [x]).trans moved⟩
    pending := fun n mem => by
      have before := h.pending n mem
      simp only [State.taken,front,length_append,length_cons,length_nil] at before ⊢
      omega
    tested := fun n mem => Nat.le_trans (h.tested n mem) (by simp [State.taken])
    announced := fun some => .inl (more some)
    heard := fun _ _ => .inr (by simp only [State.taken]; omega) }

theorem pullKept (taken : step noSleep s .pull = some t) : Kept noSleep single threads t := by
  have places := h.places
  simp only [step,jobqueuePull] at taken
  split at taken <;> try contradiction
  split at taken <;> cases taken
  · rename_i empty
    have same : (s.running ++ [none]).reduceOption = s.running.reduceOption := by simp [List.reduceOption_append]
    exact { h with
      places := by simp only [length_append,length_singleton]; omega
      jobs := by simpa only [State.jobs,same] using h.jobs
      pool := by simpa only [State.jobs,same] using h.pool
      announced := fun some => absurd empty some }
  · rename_i x free front
    exact takenKept h s.rwmutex [some x] (by assumption) free front (by simp [free,Holder.job]) (by simp [free,Holder.job])
      fun some => absurd rfl some
  · rename_i x rest _ free front
    simpa [State.taken] using takenKept h (.pull x) [] (by assumption) free front rfl rfl nofun

theorem jobDoneKept {i : Nat} {job : Option α} (at_ : s.running[i]? = some job)
    (woken : single = true → s.sleeping ≠ [] → s.working - 1 ≠ 0) : Kept noSleep single threads (s.jobDone i job) := by
  obtain ⟨inside,found⟩ := List.getElem?_eq_some_iff.mp at_
  have jobs : s.jobs.Perm (job.toList ++ (s.jobDone i job).jobs) := by
    have moved := (List.getElem_cons_eraseIdx_perm inside).symm.filterMap id
    refine (moved.append_left _).trans ?_
    rw [found]
    cases job with
    | none => exact .refl _
    | some x => exact List.perm_middle
  have places := h.places
  have less := List.length_eraseIdx_of_lt inside
  exact { h with
    places := by simp only [State.jobDone]; omega
    jobs := h.jobs.trans (by rw [State.jobDone,append_assoc]; exact jobs.append_left _)
    pool := by
      obtain ⟨p,reached,queue,running⟩ := h.pool
      cases job with
      | none => exact ⟨p,by simpa [State.jobDone] using reached,queue,running.trans jobs⟩
      | some x =>
        have mem : x ∈ p.running := (running.trans jobs).mem_iff.mpr (.head _)
        obtain ⟨k,low,rfl⟩ := List.mem_iff_getElem.mp mem
        refine ⟨{ p with running := p.running.eraseIdx k },.next reached trivial (a := .finish k) ?_,queue,?_⟩
        · simp [Pool.step,Pool.finish,low,State.jobDone]
        · exact (List.perm_cons _).mp ((List.getElem_cons_eraseIdx_perm low).trans (running.trans jobs))
    heard := fun one some => .inr (Nat.pos_of_ne_zero (woken one some)) }

theorem wakeWaiterKept (who : Nat) (taken : wakeWaiter s who = some t) : Kept noSleep single threads t := by
  obtain ⟨n,at_,rfl⟩ := map_eq_some_iff.mp taken
  obtain ⟨inside,found⟩ := List.getElem?_eq_some_iff.mp at_
  have less := List.length_eraseIdx_of_lt inside
  exact { h with
    pending := fun m mem => h.pending m (by grind [List.mem_of_mem_eraseIdx])
    alone := fun one => by
      have before := h.alone one
      simp only [length_append,length_singleton] at *
      omega
    heard := fun one _ => h.heard one (List.ne_nil_of_length_pos (by omega)) }

theorem finishKept {i who : Nat} (taken : step noSleep s (.finish i who) = some t) : Kept noSleep single threads t := by
  obtain ⟨job,at_,taken⟩ := bind_eq_some_iff.mp taken
  split at taken <;> try contradiction
  split at taken
  · cases taken
    exact jobDoneKept h at_ fun _ asleep => (by assumption : _ ∨ _).resolve_right asleep
  · obtain ⟨n,asleep,rfl⟩ := map_eq_some_iff.mp taken
    have kept := wakeWaiterKept h who (map_eq_some_iff.mpr ⟨n,asleep,rfl⟩)
    -- the signal and the end of the job change different fields
    refine jobDoneKept kept at_ fun one some => ?_
    have alone := kept.alone one
    have more := List.length_pos_of_ne_nil some
    simp only [length_append,length_singleton] at alone more
    omega

theorem wakeKept (taken : step noSleep s .wake = some t) : Kept noSleep single threads t := by
  have places := h.places
  have mode := h.mode
  obtain ⟨_,rfl⟩ := unlessTaken taken
  exact { h with
    places := by simp only; omega
    mode := by split at mode <;> simp_all
    roused := fun opened => by have := h.roused opened; simp only; omega }

theorem callKept (allowed : single = true → Single s .call) (taken : step noSleep s .call = some t) :
    Kept noSleep single threads t := by
  cases taken
  exact { h with
    pending := fun n mem => by
      have old := h.pending n
      simp only [List.mem_append,List.mem_singleton] at mem old
      grind
    alone := fun one => by
      obtain ⟨called,testing,sleeping⟩ := allowed one
      simp [called,testing,sleeping] }

theorem checkKept {i : Nat} (taken : step noSleep s (.check i) = some t) : Kept noSleep single threads t := by
  obtain ⟨n,at_,found⟩ := bind_eq_some_iff.mp taken
  obtain ⟨nobody,tested⟩ := Option.ite_none_left_eq_some.mp found
  simp only [ne_eq,Decidable.not_not] at nobody
  obtain ⟨inside,found⟩ := List.getElem?_eq_some_iff.mp at_
  have less := List.length_eraseIdx_of_lt inside
  have low := h.pending n (List.mem_append_left _ (found ▸ List.getElem_mem inside))
  have rest (m : Nat) (mem : m ∈ s.called.eraseIdx i ++ s.sleeping) : m ≤ s.pulled.length + s.queue.length :=
    h.pending m (by grind [List.mem_of_mem_eraseIdx])
  have alone := h.alone
  simp only [nobody,toList_none,length_nil] at alone
  split at tested <;> cases tested
  · rename_i empty
    rw [empty] at low
    exact { h with
      pending := rest
      tested := fun m mem => by cases mem; exact low
      alone := fun one => by have := alone one; simp only [toList_some,length_singleton]; omega }
  · rename_i some
    exact { h with
      pending := fun m mem => by grind
      alone := fun one => by
        have := alone one
        simp only [nobody,toList_none,length_nil,length_append,length_singleton]
        omega
      heard := fun _ _ => .inl some }

theorem decideKept (taken : step noSleep s .decide = some t) : Kept noSleep single threads t := by
  obtain ⟨n,testing,rfl⟩ := map_eq_some_iff.mp taken
  have alone := h.alone
  simp only [testing,toList_some,length_singleton] at alone
  split
  · exact { h with
      tested := nofun
      alone := fun one => by have := alone one; simp only [toList_none,length_nil]; omega }
  · rename_i busy
    exact { h with
      pending := fun m mem => by
        have old := h.pending m
        have low := h.tested n testing
        simp only [List.mem_append,List.mem_singleton] at mem old
        grind
      tested := nofun
      alone := fun one => by
        have := alone one
        simp only [toList_none,length_nil,length_append,length_singleton]
        omega
      heard := fun _ _ => .inr (Nat.pos_of_ne_zero busy) }

theorem stepKept {a : Action α} (staffed : 0 < threads) (allowed : single = true → Single s a)
    (taken : step noSleep s a = some t) : Kept noSleep single threads t := by
  cases a with
  | push x => exact pushKept h taken
  | post => exact postKept h staffed taken
  | test => exact testKept h taken
  | count => exact countKept h taken
  | pull => exact pullKept h taken
  | finish i who => exact finishKept h taken
  | wake => exact wakeKept h taken
  | call => exact callKept h allowed taken
  | check i => exact checkKept h taken
  | decide => exact decideKept h taken
  | wakeWaiter who => exact wakeWaiterKept h who taken

end kept

theorem reachedKept (single : Bool) {ok : State α → Action α → Prop} (staffed : 0 < threads)
    (allowed : single = true → ∀ s a, ok s a → Single s a) (reached : Reach (step noSleep) ok (init α threads) s) :
    Kept noSleep single threads s :=
  reachInvariant (Kept noSleep single threads) initKept
    (fun s a _ h okay taken => stepKept h staffed (fun one => allowed one s a okay) taken) reached

theorem jobsDone (h : Kept noSleep single threads s) (zero : s.working = 0) : s.pulled.Perm s.done := by
  have places := h.places
  have none : s.jobs = [] := by
    rw [State.jobs,List.eq_nil_of_length_eq_zero (by omega : s.rwmutex.job.length = 0),
      List.eq_nil_of_length_eq_zero (by omega : s.running.length = 0)]
    rfl
  simpa [none] using h.jobs

theorem poolRefined (staffed : 0 < threads) (reached : Reach (step noSleep) Any (init α threads) s) :
    ∃ p, Reach (Pool.step threads) Any (Pool.empty,[]) (p,s.done) ∧ p.queue = s.queue ∧ p.running.Perm s.jobs :=
  (reachedKept false staffed nofun reached).pool

theorem poolRefinedPulled : ∃ s, Reach (step false) Any (init Nat 2) s ∧ s.jobs = [7] ∧
    ∃ p, Reach (Pool.step 2) Any (Pool.empty,[]) (p,s.done) ∧ p.queue = s.queue ∧ p.running.Perm s.jobs := by
  obtain ⟨s,reached,seen⟩ : ∃ s, Reach (step false) Any (init Nat 2) s ∧ s.jobs = [7] :=
    traceAny [.push 7,.post,.test,.count,.pull] (by decide)
  exact ⟨s,reached,seen,poolRefined (by decide) reached⟩

/- `thpool_wait` returns in no other state than this. -/
theorem waitReturnsDone {n : Nat} (staffed : 0 < threads) (reached : Reach (step noSleep) Any (init α threads) s)
    (testing : s.testing = some n) (idle : s.working = 0) : n ≤ s.pulled.length ∧ s.pulled.Perm s.done := by
  have kept := reachedKept false staffed nofun reached
  exact ⟨kept.tested n testing,jobsDone kept idle⟩

theorem waitReturnsDoneOne : ∃ s, Reach (step true) Any (init Nat 1) s ∧ s.done = [7] ∧ 1 ≤ s.pulled.length ∧ s.pulled.Perm s.done := by
  obtain ⟨s,reached,seen⟩ : ∃ s, Reach (step true) Any (init Nat 1) s ∧ s.testing = some 1 ∧ s.working = 0 ∧
      s.done = [7] := traceAny [.push 7,.post,.call,.test,.count,.pull,.finish 0 0,.check 0] (by decide)
  exact ⟨s,reached,seen.2.2,waitReturnsDone (by decide) reached seen.1 seen.2.1⟩

end Invariant

section Progress
variable {α : Type} {threads : Nat} {s t : State α}

def Holder.load : Holder α → Nat
  | .nobody => 0
  | .push => 8
  | .pull _ => 12

/- What is left to do before the pool rests. -/
def State.load (s : State α) : Nat :=
  6 * s.v + 8 * s.queue.length + s.rwmutex.load + s.waiting + 6 * s.awake + 5 * s.counted + 4 * s.running.length +
    2 * s.called.length + s.testing.toList.length

/- The steps of threads in the pool, without the returns of `pthread_cond_wait` that no signal caused. -/
def Action.inside : Action α → Bool
  | .push _ | .wake | .call | .wakeWaiter _ => false
  | _ => true

theorem insideLoad {a : Action α} (inside : a.inside = true) (taken : step false s a = some t) : t.load < s.load := by
  cases a with
  | push | wake | call | wakeWaiter => contradiction
  | post =>
    simp only [step,bsemPost,Bool.false_eq_true,if_false] at taken
    split at taken <;> cases taken <;> rename_i held <;> split <;>
      simp only [State.load,held,Holder.load,length_append,length_singleton] <;> omega
  | test =>
    simp only [step,bsemWait,Bool.false_eq_true,if_false] at taken
    split at taken <;> try contradiction
    split at taken <;> cases taken <;> simp only [State.load] <;> omega
  | count =>
    obtain ⟨_,rfl⟩ := unlessTaken taken
    simp only [State.load]
    omega
  | pull =>
    simp only [step,jobqueuePull] at taken
    split at taken <;> try contradiction
    split at taken <;> cases taken <;> rename_i free front <;>
      simp only [State.load,free,front,Holder.load,length_append,length_cons,length_nil] <;> omega
  | finish i who =>
    obtain ⟨job,at_,taken⟩ := bind_eq_some_iff.mp taken
    have less := List.length_eraseIdx_of_lt (List.getElem?_eq_some_iff.mp at_).1
    have some := (List.getElem?_eq_some_iff.mp at_).1
    split at taken <;> try contradiction
    split at taken
    · cases taken
      simp only [State.load,State.jobDone]
      omega
    · obtain ⟨n,_,rfl⟩ := map_eq_some_iff.mp taken
      simp only [State.load,State.jobDone,length_append,length_singleton]
      omega
  | check i =>
    obtain ⟨n,at_,taken⟩ := bind_eq_some_iff.mp taken
    have less := List.length_eraseIdx_of_lt (List.getElem?_eq_some_iff.mp at_).1
    have some := (List.getElem?_eq_some_iff.mp at_).1
    split at taken <;> try contradiction
    rename_i nobody
    simp only [ne_eq,Decidable.not_not] at nobody
    split at taken <;> cases taken <;> simp only [State.load,nobody,toList_some,toList_none,length_singleton,length_nil] <;> omega
  | decide =>
    obtain ⟨n,testing,rfl⟩ := map_eq_some_iff.mp taken
    split <;> simp [State.load,testing]

theorem insideBounded {as : List (Action α)} (inside : ∀ a ∈ as, a.inside = true) (ran : run (step false) s as = some t) :
    as.length ≤ s.load := by
  induction as generalizing s with
  | nil => exact Nat.zero_le _
  | cons a as ih =>
    obtain ⟨u,taken,rest⟩ := bind_eq_some_iff.mp ran
    have first := insideLoad (inside a (.head _)) taken
    have later := ih (fun b mem => inside b (.tail a mem)) rest
    simp only [length_cons]
    omega

/- No thread of the pool can go on. -/
def Resting (s : State α) : Prop := ∀ a, a.inside = true → step false s a = none

theorem restingPlaces (rest : Resting s) : s.rwmutex = .nobody ∧ s.waiting = 0 ∧ s.awake = 0 ∧ s.counted = 0 ∧ s.running = [] ∧
    s.called = [] ∧ s.testing = none := by
  have free : s.rwmutex = .nobody := by
    have stuck := rest .post rfl
    simp only [step] at stuck
    split at stuck <;> first | assumption | cases stuck
  have untested : s.testing = none := by simpa [step] using rest .decide rfl
  have waiting : s.waiting = 0 := by
    have stuck := rest .test rfl
    simp only [step,bsemWait,Bool.false_eq_true,if_false] at stuck
    split at stuck
    · assumption
    · split at stuck <;> cases stuck
  have awake : s.awake = 0 := by simpa [step,untested] using rest .count rfl
  have counted : s.counted = 0 := by
    have stuck := rest .pull rfl
    simp only [step,jobqueuePull,free] at stuck
    split at stuck
    · assumption
    · match queue : s.queue with
      | [] | [_] | _::_::_ => simp [queue] at stuck
  refine ⟨free,waiting,awake,counted,?_,?_,untested⟩
  · match running : s.running with
    | [] => rfl
    | job::_ =>
      have stuck := rest (.finish 0 0) rfl
      simp only [step,running,List.getElem?_cons_zero,Option.bind_some,untested,ne_eq,not_true_eq_false,if_false,
        wakeWaiter,State.jobDone] at stuck
      split at stuck
      · cases stuck
      · rename_i asleep
        simp only [not_or] at asleep
        simp [asleep.2] at stuck
  · match called : s.called with
    | [] => rfl
    | n::_ =>
      have stuck := rest (.check 0) rfl
      simp only [step,called,List.getElem?_cons_zero,Option.bind_some,untested,ne_eq,not_true_eq_false,if_false] at stuck
      split at stuck <;> cases stuck

/- In any order of its threads, a pool comes to rest after at most `load` steps when nothing is added, and then every
job is done and nobody waits in vain. -/
theorem poolSettles (staffed : 0 < threads) (reached : Reach (step false) Single (init α threads) s) :
    (∀ as t, (∀ a ∈ as, a.inside = true) → run (step false) s as = some t → as.length ≤ s.load) ∧
    (Resting s → s.queue = [] ∧ s.pulled.Perm s.done ∧ s.called = [] ∧ s.testing = none ∧ s.sleeping = []) := by
  have kept := reachedKept true staffed (fun _ _ _ => id) reached
  refine ⟨fun _ _ => insideBounded,fun rest => ?_⟩
  obtain ⟨free,waiting,awake,counted,running,called,testing⟩ := restingPlaces rest
  have places := kept.places
  simp only [free,running,Holder.job,List.length_nil] at places
  have empty : s.queue = [] := by
    by_contra some
    rcases kept.announced some with held | opened | coming
    · exact held free
    · have := kept.roused opened
      omega
    · omega
  refine ⟨empty,jobsDone kept (by omega),called,testing,?_⟩
  by_contra some
  rcases kept.heard rfl some with more | busy
  · exact more empty
  · omega

theorem poolSettlesAsleep : ∃ s, Reach (step false) Single (init Nat 1) s ∧ s.sleeping = [1] ∧
    (∀ as t, (∀ a ∈ as, a.inside = true) → run (step false) s as = some t → as.length ≤ s.load) ∧
    (Resting s → s.queue = [] ∧ s.pulled.Perm s.done ∧ s.called = [] ∧ s.testing = none ∧ s.sleeping = []) := by
  obtain ⟨s,reached,seen⟩ : ∃ s, Reach (step false) Single (init Nat 1) s ∧ s.sleeping = [1] :=
    traceReach [.push 7,.post,.call,.test,.count,.pull,.check 0,.decide] (by decide)
  exact ⟨s,reached,seen,poolSettles (by decide) reached⟩

end Progress
end LineFS.ThreadPool
