import LineFS.Base.Pool
import LineFS.Tiling

/-! Fetch sequence numbers of one LibFS. `calculate_prefetch_meta` fixes what a request names; its number is
drawn later, by the background thread of `thread_pool_log_prefetch_req` for plain requests and by the caller
itself for fsync. -/
namespace LineFS.FetchSeqn
open List (append_assoc append_nil length_append mem_append)
open Option (map_eq_some_iff)
open Base
open Publish (Request)
open Tiling (Calm Tiles Names Contiguous Flow issue issueFlow load stepFlow)

/- A request is known by its place among those computed. As a ghost, `upto` counts the transactions committed
when an fsync computes its last request; other requests promise nothing. -/
structure Ticket where
  place : Nat
  upto : Nat
  deriving DecidableEq

/- `handing`: the plain request of the committing thread, on its way to the pool. `issued`: the requests in the
order of their numbers. -/
structure State where
  fs : Tiling.State
  handing : Option Ticket
  pool : Pool Ticket
  fsyncs : List Ticket
  issued : List Ticket

def init (logSbBlk : Nat) : State := ⟨Tiling.init logSbBlk,none,.empty,[],[]⟩

inductive Action where
  | fs (a : Tiling.Action)
  | hand
  | pull
  | drawPlain (i : Nat)
  | drawFsync (i : Nat)
  deriving DecidableEq

-- The steps of the thread that commits, which hands its plain request over first.
def Commits : Tiling.Action → Prop
  | .store _ | .alloc _ | .ret | .request => True
  | _ => False
instance : (a : Tiling.Action) → Decidable (Commits a)
  | .store _ | .alloc _ | .ret | .request => isTrue trivial
  | .fsync | .load _ | .retry _ | .arrive | .ack => isFalse not_false

-- SmartNIC fetches in the order of the numbers: it takes the oldest request in flight when its number is next.
def Ready (s : State) (a : Tiling.Action) : Prop :=
  let next := s.fs.computed.length - s.fs.pub.flight.length
  (Commits a → s.handing = none) ∧ (a = .arrive → s.issued[next]?.map Ticket.place = some next)
deriving Decidable

/- A pass of an fsync that leaves nothing is its last: it ends the wait of the caller. -/
def ticketed (s : State) (fs : Tiling.State) : Tiling.Action → State
  | .request => { s with fs, handing := if s.fs.computed.length < fs.computed.length then some ⟨s.fs.computed.length,0⟩ else none }
  | .fsync => { s with fs, fsyncs := s.fsyncs ++ [⟨s.fs.computed.length,
      if s.fs.retries.length < fs.retries.length then 0 else s.fs.committed.length⟩] }
  | .retry _ => { s with fs, fsyncs := s.fsyncs ++ [⟨s.fs.computed.length,
      if fs.retries.length < s.fs.retries.length then s.fs.committed.length else 0⟩] }
  | _ => { s with fs }

/- `send_log_prefetch_msg` draws `++g_fetch_seqn`: the number of a request is one more than its place in `issued`.
The second pass of an fsync may also come before the number of its first, which the source does not do. -/
def step (s : State) : Action → Option State
  | .fs a => if Ready s a then (Tiling.step s.fs a).map fun fs => ticketed s fs a else none
  | .hand => s.handing.map fun r => { s with handing := none, pool := s.pool.add r }
  | .pull => (s.pool.pull 1).map fun pool => { s with pool }
  | .drawPlain i => (s.pool.finish i).map fun r => { s with pool := r.2, issued := s.issued ++ [r.1] }
  | .drawFsync i => s.fsyncs[i]?.map fun r => { s with fsyncs := s.fsyncs.eraseIdx i, issued := s.issued ++ [r] }

def Names (s : State) (r : Ticket) (x : Span) : Prop :=
  ∃ q ∈ s.fs.computed[r.place]?, q.arg.prefetchStart ≤ x.start ∧ x.stop ≤ q.arg.prefetchStart + q.arg.nPrefetchBlk

/- Requests computed earlier have smaller numbers, and the requests up to the number of an fsync name the blocks
of every transaction committed before it. -/
structure LogOrder (s : State) : Prop where
  ordered : ∀ (k : Nat) (r : Ticket), s.issued[k]? = some r → ∀ p < r.place, ∃ j < k, ∃ q, s.issued[j]? = some q ∧ q.place = p
  covered : ∀ (k : Nat) (r : Ticket), s.issued[k]? = some r → ∀ x ∈ s.fs.committed.take r.upto,
    ∃ j ≤ k, ∃ q, s.issued[j]? = some q ∧ Names s q x

def waiting (s : State) : List Ticket := s.pool.jobs ++ s.handing.toList ++ s.fsyncs

/- An fsync computes a request only when no computed request waits for its number, and a plain request is
computed only when no fsync does. -/
def Undisturbed (s : State) : Action → Prop
  | .fs a => Calm s.fs a ∧ match a with
    | .request => s.fsyncs = []
    | .fsync | .retry _ => waiting s = []
    | _ => True
  | _ => True
instance (s a) : Decidable (Undisturbed s a) := by
  rcases a with (_ | _ | _ | _ | _ | _ | _ | _ | _) | _ | _ | _ | _ <;> unfold Undisturbed <;> infer_instance

def Kept (fs : Tiling.State) (r : Ticket) : Prop :=
  r.upto ≤ fs.committed.length ∧ fs.committed.take r.upto <+: (fs.computed.take (r.place + 1)).flatMap Request.txs

structure InLine (logSbBlk : Nat) (s : State) : Prop where
  tiles : Tiles logSbBlk s.fs
  line : (s.issued ++ waiting s).map Ticket.place = List.range s.fs.computed.length
  kept : ∀ r ∈ s.issued ++ waiting s, Kept s.fs r
  single : s.pool.running.length ≤ 1
  alone : s.fsyncs = [] ∨ s.pool.jobs = [] ∧ s.handing = none ∧ s.fsyncs.length = 1

theorem initInLine (logSbBlk : Nat) : InLine logSbBlk (init logSbBlk) :=
  ⟨Tiling.initTiles logSbBlk,rfl,by simp [init,waiting,Pool.jobs,Pool.empty],Nat.zero_le _,.inl rfl⟩

section Line
variable {logSbBlk : Nat} {s t : State} {fs : Tiling.State} {rs : List Request} {returned : List Span} {r : Ticket}

theorem placeSmall (h : InLine logSbBlk s) (mem : r ∈ s.issued ++ waiting s) : r.place < s.fs.computed.length :=
  List.mem_range.mp (h.line ▸ List.mem_map_of_mem mem)

theorem keptGrows {a} (flow : Flow s.fs fs a rs returned) (small : r.place < s.fs.computed.length) (kept : Kept s.fs r) : Kept fs r := by
  unfold Kept
  rw [flow.committed,flow.computed,List.take_append_of_le_length kept.1,List.take_append_of_le_length small,length_append]
  exact ⟨Nat.le_add_right_of_le kept.1,kept.2⟩

theorem keptNothing (place : Nat) : Kept fs ⟨place,0⟩ := ⟨Nat.zero_le _,by simp⟩

theorem keptWhole {a q} (tiles : Tiles logSbBlk fs) (flow : Flow s.fs fs a [q] []) (whole : fs.pub.unreq = []) :
    Kept fs ⟨s.fs.computed.length,s.fs.committed.length⟩ := by
  have cover := tiles.cover
  have committed := flow.committed
  rw [whole,append_nil] at cover
  rw [append_nil] at committed
  refine ⟨by rw [committed],[],?_⟩
  rw [append_nil,← committed,List.take_length,cover,List.take_of_length_le (by simp [flow.computed])]

section
variable (h : InLine logSbBlk s)
include h

section
variable (tiles : Tiles logSbBlk fs)
include tiles

-- A request that joins the end of the line.
theorem joinLine {a q} (flow : Flow s.fs fs a [q] returned)
    (last : waiting { t with fs } = waiting s ++ [r]) (issued : t.issued = s.issued) (place : r.place = s.fs.computed.length)
    (kept : Kept fs r) (single : t.pool.running.length ≤ 1)
    (alone : t.fsyncs = [] ∨ t.pool.jobs = [] ∧ t.handing = none ∧ t.fsyncs.length = 1) : InLine logSbBlk { t with fs } := by
  refine ⟨tiles,?_,?_,single,alone⟩
  · rw [last,issued,← append_assoc,List.map_append,h.line,flow.computed,length_append,List.length_singleton,List.range_succ,
      List.map_singleton,place]
  · intro p mem
    rw [last,issued,← append_assoc] at mem
    rcases memSnoc mem with old | rfl
    · exact keptGrows flow (placeSmall h old) (h.kept p old)
    · exact kept

theorem sameLine {a} (flow : Flow s.fs fs a [] returned) : InLine logSbBlk { s with fs } := by
  refine ⟨tiles,?_,fun p mem => keptGrows flow (placeSmall h mem) (h.kept p mem),h.single,h.alone⟩
  rw [flow.computed,append_nil]
  exact h.line

theorem requestInLine {returned} (flow : Flow s.fs fs .request rs returned)
    (idle : s.handing = none) (calm : s.fsyncs = []) : InLine logSbBlk (ticketed s fs .request) := by
  rcases flow.asks with ⟨rfl,_⟩ | ⟨⟨q,rfl⟩,_⟩
  · have same : ticketed s fs .request = { s with fs } := by simp [ticketed,flow.computed,idle]
    exact same ▸ sameLine h tiles flow
  · have more : ticketed s fs .request = { s with fs, handing := some ⟨s.fs.computed.length,0⟩ } := by
      simp [ticketed,flow.computed]
    rw [more]
    exact joinLine (t := { s with handing := some ⟨s.fs.computed.length,0⟩ }) h tiles flow (by simp [waiting,idle,calm]) rfl rfl
      (keptNothing _) h.single (.inl calm)

theorem fsyncInLine {a} (flow : Flow s.fs fs a rs returned)
    (asks : a = .fsync ∨ ∃ i, a = .retry i) (calm : waiting s = []) (place : r.place = s.fs.computed.length) (kept : Kept fs r) :
    InLine logSbBlk { s with fs, fsyncs := s.fsyncs ++ [r] } := by
  obtain ⟨jobs,handing,fsyncs⟩ : s.pool.jobs = [] ∧ s.handing = none ∧ s.fsyncs = [] := by simpa [waiting] using calm
  rcases flow.asks with ⟨rfl,other,others⟩ | ⟨⟨q,rfl⟩,_⟩
  · rcases asks with rfl | ⟨i,rfl⟩
    · exact absurd rfl other
    · exact absurd rfl (others i)
  · exact joinLine (t := { s with fsyncs := s.fsyncs ++ [r] }) h tiles flow (by simp [waiting]) rfl place kept h.single
      (.inr ⟨jobs,handing,by simp [fsyncs]⟩)

end

end

-- What remains behind the last pass of an fsync: `n_prefetch` is not below `n_unsync`.
theorem lastPass {arg : Prefetch.PeerMeta × Prefetch.PrefetchArg} (h : Tiles logSbBlk s.fs) (settled : s.fs.storing = none)
    (last : ¬arg.2.nPrefetch < s.fs.pub.peer.nUnsync) : (issue s.fs arg).pub.unreq = [] := by
  have count := h.synced.nUnsync
  rw [Tiling.viewPeer settled,Tiling.viewUnreq] at count
  exact List.drop_eq_nil_of_le (by omega)

theorem fsInLine {a} (h : InLine logSbBlk s) (calm : Undisturbed s (.fs a)) (taken : step s (.fs a) = some t) : InLine logSbBlk t := by
  simp only [step,Option.ite_none_right_eq_some,map_eq_some_iff] at taken
  obtain ⟨ready,fs,moved,rfl⟩ := taken
  have tiles := Tiling.stepTiles h.tiles calm.1 moved
  obtain ⟨rs,returned,flow⟩ := stepFlow moved
  cases a with
  | request => exact requestInLine h tiles flow (ready.1 trivial) calm.2
  | fsync =>
    refine fsyncInLine h tiles flow (.inl rfl) calm.2 rfl ?_
    obtain ⟨r,_,rfl⟩ := map_eq_some_iff.mp moved
    by_cases more : r.2.nPrefetch < s.fs.pub.peer.nUnsync
    · simpa [more] using keptNothing _
    · simp only [more,if_false,Nat.lt_irrefl] at tiles ⊢
      exact keptWhole tiles (issueFlow (.inr (.inl rfl))) (lastPass h.tiles calm.1.1 more)
  | retry i =>
    refine fsyncInLine h tiles flow (.inr ⟨i,rfl⟩) calm.2 rfl ?_
    obtain ⟨settled,_,fresh⟩ := calm.1
    simp only [Tiling.step,fresh,Option.join_some,Option.bind_some,map_eq_some_iff] at moved
    obtain ⟨r,_,rfl⟩ := moved
    have inside := (List.getElem?_eq_some_iff.mp fresh).1
    by_cases more : r.2.nPrefetch < (load s.fs.pub).nUnsync
    · simpa [more] using keptNothing _
    · have fewer : s.fs.retries.length - 1 < s.fs.retries.length := by omega
      simp only [more,if_false,List.length_eraseIdx,inside,if_true,fewer] at tiles ⊢
      exact keptWhole tiles (issueFlow (.inr (.inr ⟨i,rfl⟩))) (lastPass h.tiles settled more)
  | store n | alloc n | ret | load i | arrive | ack =>
    rcases flow.asks with ⟨rfl,_⟩ | ⟨_,asks⟩
    · exact sameLine h tiles flow
    · simp at asks

theorem stepInLine {a} (h : InLine logSbBlk s) (calm : Undisturbed s a) (taken : step s a = some t) : InLine logSbBlk t := by
  cases a with
  | fs a => exact fsInLine h calm taken
  | hand =>
    obtain ⟨r,held,rfl⟩ := map_eq_some_iff.mp taken
    have none : s.fsyncs = [] := by
      rcases h.alone with empty | ⟨_,idle,_⟩
      · exact empty
      · rw [idle] at held; contradiction
    have same : waiting { s with handing := Option.none, pool := s.pool.add r } = waiting s := by simp [waiting,held]
    exact ⟨h.tiles,by rw [same]; exact h.line,by rw [same]; exact h.kept,h.single,.inl none⟩
  | pull =>
    obtain ⟨pool,pulled,rfl⟩ := map_eq_some_iff.mp taken
    obtain ⟨jobs,single⟩ := Pool.pullExact pulled
    have same : waiting { s with pool } = waiting s := by simp [waiting,jobs]
    exact ⟨h.tiles,by rw [same]; exact h.line,by rw [same]; exact h.kept,single,by rw [jobs]; exact h.alone⟩
  | drawPlain i =>
    obtain ⟨⟨r,pool⟩,finished,rfl⟩ := map_eq_some_iff.mp taken
    obtain ⟨jobs,idle⟩ := Pool.finishSingle h.single finished
    have same : s.issued ++ [r] ++ waiting { s with pool, issued := s.issued ++ [r] } = s.issued ++ waiting s := by simp [waiting,jobs]
    refine ⟨h.tiles,by rw [same]; exact h.line,by rw [same]; exact h.kept,by simp [idle],?_⟩
    rcases h.alone with empty | ⟨nothing,_⟩
    · exact .inl empty
    · rw [jobs] at nothing; contradiction
  | drawFsync i =>
    obtain ⟨r,found,rfl⟩ := map_eq_some_iff.mp taken
    obtain ⟨jobs,handing,one⟩ : s.pool.jobs = [] ∧ s.handing = none ∧ s.fsyncs.length = 1 := by
      rcases h.alone with empty | alone
      · simp [empty] at found
      · exact alone
    obtain ⟨q,only⟩ := List.length_eq_one_iff.mp one
    obtain ⟨rfl,rfl⟩ : i = 0 ∧ r = q := by
      rw [only] at found
      cases i with
      | zero => exact ⟨rfl,(Option.some.inj found).symm⟩
      | succ i => simp at found
    have same : s.issued ++ [r] ++ waiting { s with fsyncs := s.fsyncs.eraseIdx 0, issued := s.issued ++ [r] } = s.issued ++ waiting s := by
      simp [waiting,jobs,handing,only]
    exact ⟨h.tiles,by rw [same]; exact h.line,by rw [same]; exact h.kept,h.single,.inl (by simp [only])⟩

theorem reachInLine (reached : Reach step Undisturbed (init logSbBlk) s) : InLine logSbBlk s :=
  reachInvariant (InLine logSbBlk) (initInLine logSbBlk) (fun _ _ _ => stepInLine) reached

theorem issuedPlace (h : InLine logSbBlk s) {k : Nat} (found : s.issued[k]? = some r) : r.place = k := by
  have inside := (List.getElem?_eq_some_iff.mp found).1
  have place : ((s.issued ++ waiting s).map Ticket.place)[k]? = some r.place := by
    rw [List.getElem?_map,List.getElem?_append_left inside,found]
    rfl
  rw [h.line] at place
  obtain ⟨_,same⟩ := List.getElem?_eq_some_iff.mp place
  rw [List.getElem_range] at same
  exact same.symm

end Line

theorem contiguousInside {a xs} {x : Span} (laid : Contiguous a xs) (mem : x ∈ xs) : a ≤ x.start ∧ x.stop ≤ a + blocks xs := by
  induction xs generalizing a with
  | nil => cases mem
  | cons y ys ih =>
    obtain ⟨rfl,rest⟩ := laid
    rw [blocksCons]
    rcases List.mem_cons.mp mem with rfl | later
    · exact ⟨Nat.le_refl _,by simp only [Span.stop]; omega⟩
    · have inside := ih rest later
      simp only [Span.stop] at inside ⊢
      omega

def committed (n : Nat) : List Action := [.fs (.alloc n),.fs .ret,.fs .request]
def requested (n : Nat) : List Action := committed n ++ [.hand,.pull,.drawPlain 0,.fs .arrive]
def times (n : Nat) (as : List Action) : List Action := (List.replicate n as).flatten

-- One lap of plain requests, a rotation and an fsync that computes twice.
def bothSides : List Action :=
  times 26 (requested maxTransaction) ++ times 4 (committed 1024 ++ requested maxTransaction) ++ ([.fs .ack] : List Action) ++
  committed 2 ++ ([.fs (.store maxTransaction),.fs (.alloc maxTransaction),.fs .ret,.fs .fsync,.drawFsync 0,.fs (.load 0),
    .fs (.retry 0),.drawFsync 0] : List Action)

def overtaken : List Action := committed 1025 ++ ([.hand] : List Action) ++ committed 2 ++ ([.fs .fsync,.drawFsync 0] : List Action)

end LineFS.FetchSeqn
