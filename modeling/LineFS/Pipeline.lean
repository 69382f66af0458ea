import LineFS.Base.Run
import LineFS.Base.Pool
import LineFS.Config

/-! The publishing pipeline of one LibFS. Plain requests pass the prefetch and coalesce pools, fsync
requests are fetched and coalesced by the fsync thread. Both meet in the header-building pool, which feeds
`build_memcpy_list` and, through `fetch_loghdr` messages, one replica after the other. A request is its
fetch sequence number. -/
namespace LineFS.Pipeline
open Option (map_eq_some_iff)
open Base

structure Replica where
  inbox : List Nat
  fetch : Pool Nat
  memcpy : Pool Nat
  digested : List Nat
  deriving DecidableEq, Repr

structure State where
  drawn : Nat
  postPlain : Option Nat
  postFsync : List Nat
  bg : List Nat
  io : List Nat
  prefetch : Pool Nat
  coalesce : Pool Nat
  fsync : Pool Nat
  build : Pool Nat
  memcpy : Pool Nat
  digested : List Nat
  replica : Nat → Replica

def init : State := ⟨0,none,[],[],[],.empty,.empty,.empty,.empty,.empty,[],fun _ => ⟨[],.empty,.empty,[]⟩⟩

inductive Stage where
  | prefetch | coalesce | fsync | build | memcpy
  | fetchAt (r : Nat) | memcpyAt (r : Nat)
  deriving DecidableEq, Repr

inductive Action where
  | draw (isFsync : Bool)
  | postPlain
  | postFsync (i : Nat)
  | recvBg
  | recvIo
  | recvAt (r : Nat)
  | pull (stage : Stage)
  | finish (stage : Stage) (i : Nat)
  deriving DecidableEq, Repr

def atReplica (s : State) (r : Nat) (f : Replica → Replica) : Nat → Replica :=
  fun q => if q = r then f (s.replica q) else s.replica q

def deliver (n : Nat) (s : State) (r x : Nat) : Nat → Replica :=
  if r < n then atReplica s r fun q => { q with inbox := q.inbox ++ [x] } else s.replica

def pullStage (s : State) : Stage → Option State
  | .prefetch => (s.prefetch.pull threadNumLogPrefetch).map fun p => { s with prefetch := p }
  | .coalesce => (s.coalesce.pull threadNumCoalesce).map fun p => { s with coalesce := p }
  | .fsync => (s.fsync.pull threadNumFsync).map fun p => { s with fsync := p }
  | .build => (s.build.pull threadNumLoghdrBuild).map fun p => { s with build := p }
  | .memcpy => (s.memcpy.pull threadNumBuildMemcpyList).map fun p => { s with memcpy := p }
  | .fetchAt r => ((s.replica r).fetch.pull threadNumLoghdrFetch).map fun p =>
      { s with replica := atReplica s r fun q => { q with fetch := p } }
  | .memcpyAt r => ((s.replica r).memcpy.pull threadNumBuildMemcpyList).map fun p =>
      { s with replica := atReplica s r fun q => { q with memcpy := p } }

/- What a finished job hands on: `coalesce_log` runs on the fsync thread itself, and
the job of a memcpy pool is done when `digest_logs` has run. -/
def finishStage (n : Nat) (s : State) (i : Nat) : Stage → Option State
  | .prefetch => (s.prefetch.finish i).map fun j => { s with prefetch := j.2, coalesce := s.coalesce.add j.1 }
  | .coalesce => (s.coalesce.finish i).map fun j => { s with coalesce := j.2, build := s.build.add j.1 }
  | .fsync => (s.fsync.finish i).map fun j => { s with fsync := j.2, build := s.build.add j.1 }
  | .build => (s.build.finish i).map fun j =>
      { s with build := j.2, memcpy := s.memcpy.add j.1, replica := deliver n s 0 j.1 }
  | .memcpy => (s.memcpy.finish i).map fun j => { s with memcpy := j.2, digested := s.digested ++ [j.1] }
  | .fetchAt r => ((s.replica r).fetch.finish i).map fun j =>
      let s := { s with replica := atReplica s r fun q => { q with fetch := j.2, memcpy := q.memcpy.add j.1 } }
      { s with replica := deliver n s (r + 1) j.1 }
  | .memcpyAt r => ((s.replica r).memcpy.finish i).map fun j =>
      { s with replica := atReplica s r fun q => { q with memcpy := j.2, digested := q.digested ++ [j.1] } }

/- `n` is the number of replicas. The background thread draws its next number only
after it has posted the last one. -/
def step (n : Nat) (s : State) : Action → Option State
  | .draw false =>
    if s.postPlain = none then some { s with drawn := s.drawn + 1, postPlain := some (s.drawn + 1) } else none
  | .draw true => some { s with drawn := s.drawn + 1, postFsync := s.postFsync ++ [s.drawn + 1] }
  | .postPlain => s.postPlain.map fun x => { s with postPlain := none, bg := s.bg ++ [x] }
  | .postFsync i => s.postFsync[i]?.map fun x => { s with postFsync := s.postFsync.eraseIdx i, io := s.io ++ [x] }
  | .recvBg => s.bg.head?.map fun x => { s with bg := s.bg.tail, prefetch := s.prefetch.add x }
  | .recvIo => s.io.head?.map fun x => { s with io := s.io.tail, fsync := s.fsync.add x }
  | .recvAt r => (s.replica r).inbox.head?.map fun x =>
      { s with replica := atReplica s r fun q => { q with inbox := q.inbox.tail, fetch := q.fetch.add x } }
  | .pull stage => pullStage s stage
  | .finish stage i => finishStage n s i stage

def InOrder (digested : List Nat) : Prop :=
  ∀ k m : Nat, 1 ≤ m → digested[k]? = some (m + 1) → ∃ j : Nat, j < k ∧ digested[j]? = some m

structure PublishOrder (n : Nat) (s : State) : Prop where
  primary : InOrder s.digested
  replicas : ∀ r < n, InOrder (s.replica r).digested

theorem rangeInOrder {digested : List Nat} (rest : List Nat) (m : Nat) (h : digested ++ rest = List.range' 1 m) : InOrder digested := by
  have numbered {k q : Nat} (found : digested[k]? = some q) : q = k + 1 := by
    have below := (List.getElem?_eq_some_iff.mp found).1
    have whole : (digested ++ rest)[k]? = some q := (List.getElem?_append_left below).trans found
    rw [h] at whole
    obtain ⟨_,value⟩ := List.getElem?_eq_some_iff.mp whole
    simp only [List.getElem_range',Nat.one_mul] at value
    omega
  intro k q positive found
  have here := numbered found
  have below := (List.getElem?_eq_some_iff.mp found).1
  obtain ⟨v,before⟩ : ∃ v, digested[k - 1]? = some v := ⟨_,List.getElem?_eq_getElem (by omega)⟩
  have value := numbered before
  exact ⟨k - 1,by omega,before.trans (congrArg some (by omega))⟩

def plainLine (s : State) : List Nat := s.coalesce.jobs ++ s.prefetch.jobs ++ s.bg ++ s.postPlain.toList
def fsyncLine (s : State) : List Nat := s.fsync.jobs ++ s.io ++ s.postFsync
def built (s : State) : List Nat := s.digested ++ s.memcpy.jobs
def fetched (q : Replica) : List Nat := q.digested ++ q.memcpy.jobs
def arrived (q : Replica) : List Nat := fetched q ++ q.fetch.jobs ++ q.inbox
def feed (s : State) : Nat → List Nat
  | 0 => built s
  | r+1 => fetched (s.replica r)

/- An fsync draws its number only when no plain request is upstream of the header-building
pool and no other fsync is about to post, and a plain request only when no fsync is
upstream of that pool. -/
def Separated (s : State) : Action → Prop
  | .draw true => plainLine s ++ s.postFsync = []
  | .draw false => fsyncLine s = []
  | _ => True
instance (s a) : Decidable (Separated s a) := by
  rcases a with (_ | _) | _ | _ | _ | _ | _ | _ | _ <;> unfold Separated <;> infer_instance

structure Single (s : State) : Prop where
  prefetch : s.prefetch.running.length ≤ 1
  coalesce : s.coalesce.running.length ≤ 1
  fsync : s.fsync.running.length ≤ 1
  build : s.build.running.length ≤ 1
  memcpy : s.memcpy.running.length ≤ 1
  fetchAt : ∀ r, (s.replica r).fetch.running.length ≤ 1
  memcpyAt : ∀ r, (s.replica r).memcpy.running.length ≤ 1

structure Lined (n : Nat) (s : State) : Prop where
  line : built s ++ s.build.jobs ++ plainLine s ++ fsyncLine s = List.range' 1 s.drawn
  alone : fsyncLine s = [] ∨ plainLine s = []
  posting : s.postFsync.length ≤ 1
  chained : ∀ r < n, arrived (s.replica r) = feed s r
  single : Single s

theorem initLined (n : Nat) : Lined n init :=
  ⟨rfl,.inl rfl,Nat.zero_le 1,fun r _ => by cases r <;> rfl,by constructor <;> simp [init,Pool.empty]⟩

theorem atReplicaSame {β : Type} {s r f} (g : Replica → β) (same : g (f (s.replica r)) = g (s.replica r)) (q : Nat) :
    g (atReplica s r f q) = g (s.replica q) := by
  by_cases here : q = r
  · subst q; simp only [atReplica,if_true]; exact same
  · simp only [atReplica,if_neg here]

theorem atReplicaBound {s r f} (g : Replica → Nat) (small : g (f (s.replica r)) ≤ 1) (others : ∀ q, g (s.replica q) ≤ 1)
    (q : Nat) : g (atReplica s r f q) ≤ 1 := by
  by_cases here : q = r
  · subst q; simp only [atReplica,if_true]; exact small
  · simp only [atReplica,if_neg here]; exact others q

theorem deliverSame {β : Type} {n s r x} (g : Replica → β)
    (same : ∀ q, g { q with inbox := q.inbox ++ [x] } = g q) (q : Nat) : g (deliver n s r x q) = g (s.replica q) := by
  unfold deliver
  split
  · exact atReplicaSame g (same _) q
  · rfl

theorem deliverArrived {n s r x q} (inside : q < n) :
    arrived (deliver n s r x q) = arrived (s.replica q) ++ if q = r then [x] else [] := by
  by_cases here : q = r
  · subst q; simp [deliver,inside,atReplica,arrived,fetched]
  · unfold deliver
    split <;> simp [atReplica,here]

theorem linedPublishOrder {n s} (h : Lined n s) : PublishOrder n s := by
  have fed (r : Nat) (inside : r < n) : ∃ rest, arrived (s.replica r) ++ rest = List.range' 1 s.drawn := by
    induction r with
    | zero =>
      refine ⟨s.build.jobs ++ plainLine s ++ fsyncLine s,?_⟩
      rw [h.chained 0 inside,feed,← h.line]
      simp
    | succ r ih =>
      obtain ⟨rest,whole⟩ := ih (by omega)
      refine ⟨(s.replica r).fetch.jobs ++ (s.replica r).inbox ++ rest,?_⟩
      rw [h.chained (r + 1) inside,feed,← whole,arrived]
      simp
  refine ⟨?_,?_⟩
  · refine rangeInOrder (s.memcpy.jobs ++ s.build.jobs ++ plainLine s ++ fsyncLine s) s.drawn ?_
    rw [← h.line,built]
    simp
  · intro r inside
    obtain ⟨rest,whole⟩ := fed r inside
    refine rangeInOrder ((s.replica r).memcpy.jobs ++ (s.replica r).fetch.jobs ++ (s.replica r).inbox ++ rest) s.drawn ?_
    rw [← whole,arrived,fetched]
    simp

theorem keptLined {n s t} (h : Lined n s) (drawn : t.drawn = s.drawn) (ready : built t = built s)
    (build : t.build.jobs = s.build.jobs) (plain : plainLine t = plainLine s) (fsync : fsyncLine t = fsyncLine s)
    (posting : t.postFsync.length ≤ 1)
    (arrives : ∀ r, arrived (t.replica r) = arrived (s.replica r))
    (fetches : ∀ r, fetched (t.replica r) = fetched (s.replica r)) (single : Single t) : Lined n t := by
  refine ⟨?_,?_,posting,?_,single⟩
  · rw [ready,build,plain,fsync,drawn]; exact h.line
  · rw [plain,fsync]; exact h.alone
  · intro r inside
    have before := h.chained r inside
    rw [arrives]
    cases r with
    | zero => rw [before,feed,feed,ready]
    | succ r => rw [before,feed,feed,fetches]

/- A step of one replica that moves a request between its queues. -/
theorem replicaLined {n s r f} (h : Lined n s) (arrives : arrived (f (s.replica r)) = arrived (s.replica r))
    (fetches : fetched (f (s.replica r)) = fetched (s.replica r)) (fetch : (f (s.replica r)).fetch.running.length ≤ 1)
    (memcpy : (f (s.replica r)).memcpy.running.length ≤ 1) : Lined n { s with replica := atReplica s r f } :=
  keptLined h rfl rfl rfl rfl rfl h.posting (atReplicaSame arrived arrives) (atReplicaSame fetched fetches)
    { h.single with
      fetchAt := atReplicaBound (fun q => q.fetch.running.length) fetch h.single.fetchAt
      memcpyAt := atReplicaBound (fun q => q.memcpy.running.length) memcpy h.single.memcpyAt }

theorem pullLined {n s stage t} (h : Lined n s) (pulled : pullStage s stage = some t) : Lined n t := by
  have single := h.single
  cases stage <;> obtain ⟨p,found,rfl⟩ := map_eq_some_iff.mp pulled <;> obtain ⟨jobs,small⟩ := Pool.pullExact found
  case prefetch =>
    exact keptLined h rfl rfl rfl (by simp [plainLine,jobs]) rfl h.posting (fun _ => rfl) (fun _ => rfl)
      { single with prefetch := small }
  case coalesce =>
    exact keptLined h rfl rfl rfl (by simp [plainLine,jobs]) rfl h.posting (fun _ => rfl) (fun _ => rfl)
      { single with coalesce := small }
  case fsync =>
    exact keptLined h rfl rfl rfl rfl (by simp [fsyncLine,jobs]) h.posting (fun _ => rfl) (fun _ => rfl)
      { single with fsync := small }
  case build =>
    exact keptLined h rfl rfl jobs rfl rfl h.posting (fun _ => rfl) (fun _ => rfl) { single with build := small }
  case memcpy =>
    exact keptLined h rfl (by simp [built,jobs]) rfl rfl rfl h.posting (fun _ => rfl) (fun _ => rfl) { single with memcpy := small }
  case fetchAt r =>
    exact replicaLined h (by simp [arrived,fetched,jobs]) (by simp [fetched]) small (single.memcpyAt r)
  case memcpyAt r =>
    exact replicaLined h (by simp [arrived,fetched,jobs]) (by simp [fetched,jobs]) (single.fetchAt r) small

theorem deliverSingle {n s r x} (single : Single s) : Single { s with replica := deliver n s r x } :=
  { single with
    fetchAt := fun q => by rw [deliverSame (fun q => q.fetch.running.length) (fun _ => rfl) q]; exact single.fetchAt q
    memcpyAt := fun q => by rw [deliverSame (fun q => q.memcpy.running.length) (fun _ => rfl) q]; exact single.memcpyAt q }

theorem fetchLined {n s r x p} (h : Lined n s) (jobs : (s.replica r).fetch.jobs = x::p.jobs) (idle : p.running = []) :
    let t := { s with replica := atReplica s r fun q => { q with fetch := p, memcpy := q.memcpy.add x } }
    Lined n { t with replica := deliver n t (r + 1) x } := by
  intro t
  have single := h.single
  have arrives : ∀ q, arrived (t.replica q) = arrived (s.replica q) :=
    atReplicaSame arrived (by simp [arrived,fetched,jobs])
  have fetches (q : Nat) : fetched (t.replica q) = fetched (s.replica q) ++ if q = r then [x] else [] := by
    by_cases here : q = r
    · subst q; simp [t,atReplica,fetched]
    · simp [t,atReplica,here]
  refine ⟨h.line,h.alone,h.posting,?_,?_⟩
  · intro q inside
    rw [deliverArrived inside,arrives,h.chained q inside]
    cases q with
    | zero => simp [feed,built,t]
    | succ q =>
      simp only [feed,Nat.add_right_cancel_iff]
      rw [deliverSame fetched (fun _ => rfl) q,fetches]
  · exact deliverSingle { single with
      fetchAt := atReplicaBound (fun q => q.fetch.running.length) (by simp [idle]) single.fetchAt
      memcpyAt := atReplicaBound (fun q => q.memcpy.running.length) (single.memcpyAt r) single.memcpyAt }

theorem fsyncLined {n s x p} (h : Lined n s) (jobs : s.fsync.jobs = x::p.jobs) (idle : p.running = []) :
    Lined n { s with fsync := p, build := s.build.add x } := by
  have split : fsyncLine s = x::(p.jobs ++ s.io ++ s.postFsync) := by simp [fsyncLine,jobs]
  have empty : plainLine s = [] := by
    rcases h.alone with none | empty
    · rw [split] at none; contradiction
    · exact empty
  refine ⟨?_,.inr empty,h.posting,h.chained,{ h.single with fsync := by simp [idle] }⟩
  have line := h.line
  rw [split,empty] at line
  rw [show plainLine { s with fsync := p, build := s.build.add x } = [] from empty,← line]
  simp [built,fsyncLine]

theorem buildLined {n s x p} (h : Lined n s) (jobs : s.build.jobs = x::p.jobs) (idle : p.running = []) :
    Lined n { s with build := p, memcpy := s.memcpy.add x, replica := deliver n s 0 x } := by
  refine ⟨?_,h.alone,h.posting,?_,?_⟩
  · rw [← h.line]; simp [built,plainLine,fsyncLine,jobs]
  · intro r inside
    rw [deliverArrived inside,h.chained r inside]
    cases r with
    | zero => simp [feed,built]
    | succ r => simp only [feed,Nat.succ_ne_zero,if_false,List.append_nil]; exact (deliverSame fetched (fun _ => rfl) r).symm
  · exact { deliverSingle h.single with build := by simp [idle] }

theorem finishLined {n s i stage t} (h : Lined n s) (finished : finishStage n s i stage = some t) : Lined n t := by
  have single := h.single
  cases stage <;> obtain ⟨⟨x,p⟩,found,rfl⟩ := map_eq_some_iff.mp finished
  case prefetch =>
    obtain ⟨jobs,idle⟩ := Pool.finishSingle single.prefetch found
    exact keptLined h rfl rfl rfl (by simp [plainLine,jobs]) rfl h.posting (fun _ => rfl) (fun _ => rfl)
      { single with prefetch := by simp [idle] }
  case coalesce =>
    obtain ⟨jobs,idle⟩ := Pool.finishSingle single.coalesce found
    refine ⟨?_,?_,h.posting,h.chained,{ single with coalesce := by simp [idle] }⟩
    · rw [← h.line]; simp [built,plainLine,fsyncLine,jobs]
    · rcases h.alone with none | empty
      · exact .inl none
      · simp [plainLine,jobs] at empty
  case fsync =>
    obtain ⟨jobs,idle⟩ := Pool.finishSingle single.fsync found
    exact fsyncLined h jobs idle
  case build =>
    obtain ⟨jobs,idle⟩ := Pool.finishSingle single.build found
    exact buildLined h jobs idle
  case memcpy =>
    obtain ⟨jobs,idle⟩ := Pool.finishSingle single.memcpy found
    exact keptLined h rfl (by simp [built,jobs]) rfl rfl rfl h.posting (fun _ => rfl) (fun _ => rfl)
      { single with memcpy := by simp [idle] }
  case fetchAt r =>
    obtain ⟨jobs,idle⟩ := Pool.finishSingle (single.fetchAt r) found
    exact fetchLined h jobs idle
  case memcpyAt r =>
    obtain ⟨jobs,idle⟩ := Pool.finishSingle (single.memcpyAt r) found
    exact replicaLined h (by simp [arrived,fetched,jobs]) (by simp [fetched,jobs]) (single.fetchAt r) (by simp [idle])

theorem drawLined {n s b t} (h : Lined n s) (apart : Separated s (.draw b)) (drawn : step n s (.draw b) = some t) :
    Lined n t := by
  have next : List.range' 1 (s.drawn + 1) = List.range' 1 s.drawn ++ [s.drawn + 1] := by
    rw [List.range'_concat]; simp [Nat.add_comm]
  cases b with
  | false =>
    obtain ⟨free,rfl⟩ := ifTaken drawn
    have none : fsyncLine s = [] := apart
    refine ⟨?_,.inl none,h.posting,h.chained,{ h.single with }⟩
    have line := h.line
    rw [none] at line
    rw [show fsyncLine { s with drawn := s.drawn + 1, postPlain := some (s.drawn + 1) } = [] from none,next,← line]
    simp [built,plainLine,free]
  | true =>
    cases drawn
    obtain ⟨plain,free⟩ := List.append_eq_nil_iff.mp apart
    refine ⟨?_,.inr plain,by simp [free],h.chained,{ h.single with }⟩
    rw [next,← h.line]
    simp [built,plainLine,fsyncLine]

theorem stepLined {n s a t} (h : Lined n s) (apart : Separated s a) (taken : step n s a = some t) : Lined n t := by
  have single := h.single
  cases a with
  | draw b => exact drawLined h apart taken
  | pull stage => exact pullLined h taken
  | finish stage i => exact finishLined h taken
  | postPlain =>
    obtain ⟨x,found,rfl⟩ := map_eq_some_iff.mp taken
    exact keptLined h rfl rfl rfl (by simp [plainLine,found]) rfl h.posting (fun _ => rfl) (fun _ => rfl) { single with }
  | postFsync i =>
    obtain ⟨x,found,rfl⟩ := map_eq_some_iff.mp taken
    have short := h.posting
    refine keptLined h rfl rfl rfl rfl ?_ ((List.length_eraseIdx_le ..).trans short) (fun _ => rfl) (fun _ => rfl) { single with }
    match posts : s.postFsync,short with
    | [],_ => simp [posts] at found
    | [y],_ =>
      cases i with
      | zero => simp [fsyncLine,posts] at found ⊢; exact found.symm
      | succ i => simp [posts] at found
  | recvBg =>
    obtain ⟨x,found,rfl⟩ := map_eq_some_iff.mp taken
    obtain ⟨rest,queued⟩ := List.head?_eq_some_iff.mp found
    exact keptLined h rfl rfl rfl (by simp [plainLine,queued]) rfl h.posting (fun _ => rfl) (fun _ => rfl) { single with }
  | recvIo =>
    obtain ⟨x,found,rfl⟩ := map_eq_some_iff.mp taken
    obtain ⟨rest,queued⟩ := List.head?_eq_some_iff.mp found
    exact keptLined h rfl rfl rfl rfl (by simp [fsyncLine,queued]) h.posting (fun _ => rfl) (fun _ => rfl) { single with }
  | recvAt r =>
    obtain ⟨x,found,rfl⟩ := map_eq_some_iff.mp taken
    obtain ⟨rest,queued⟩ := List.head?_eq_some_iff.mp found
    exact replicaLined h (by simp [arrived,fetched,queued]) rfl (single.fetchAt r) (single.memcpyAt r)

theorem separatedPublishOrder {n s} (reached : Reach (step n) Separated init s) : PublishOrder n s :=
  linedPublishOrder (reachInvariant (Lined n) (initLined n) (fun _ _ _ h apart taken => stepLined h apart taken) reached)

def publishTrace : List Action :=
  [.draw false,.postPlain,.recvBg,.pull .prefetch,.finish .prefetch 0,.pull .coalesce,.finish .coalesce 0,
    .draw true,.postFsync 0,.recvIo,.pull .fsync,.finish .fsync 0,
    .pull .build,.finish .build 0,.pull .build,.finish .build 0,
    .pull .memcpy,.finish .memcpy 0,.pull .memcpy,.finish .memcpy 0,
    .recvAt 0,.recvAt 0,.pull (.fetchAt 0),.finish (.fetchAt 0) 0,.pull (.fetchAt 0),.finish (.fetchAt 0) 0,
    .pull (.memcpyAt 0),.finish (.memcpyAt 0) 0,.pull (.memcpyAt 0),.finish (.memcpyAt 0) 0]

theorem separatedPublishOrderTwo : ∃ s, Reach (step 2) Separated init s ∧ s.digested = [1,2] ∧
    (s.replica 0).digested = [1,2] ∧ (s.replica 1).inbox = [1,2] ∧ PublishOrder 2 s := by
  obtain ⟨s,reached,seen⟩ : ∃ s, Reach (step 2) Separated init s ∧ s.digested = [1,2] ∧
      (s.replica 0).digested = [1,2] ∧ (s.replica 1).inbox = [1,2] := traceReach publishTrace (by decide +kernel)
  exact ⟨s,reached,seen.1,seen.2.1,seen.2.2,separatedPublishOrder reached⟩

/- The fsync's number 2 goes through the fsync thread while number 1 still waits for
the prefetch pool. -/
theorem fsyncPublishedFirst : ∃ s, Reach (step 2) Any init s ∧ s.digested = [2] ∧ ¬ PublishOrder 2 s := by
  obtain ⟨s,reached,seen⟩ : ∃ s, Reach (step 2) Any init s ∧ s.digested = [2] :=
    traceAny [.draw false,.postPlain,.recvBg,.draw true,.postFsync 0,.recvIo,
      .pull .fsync,.finish .fsync 0,.pull .build,.finish .build 0,.pull .memcpy,.finish .memcpy 0] (by decide +kernel)
  refine ⟨s,reached,seen,fun order => ?_⟩
  obtain ⟨j,earlier,_⟩ := order.primary 0 1 (by decide) (by rw [seen]; rfl)
  exact Nat.not_lt_zero j earlier

end LineFS.Pipeline
