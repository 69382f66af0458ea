import LineFS.Base.Pool
import LineFS.FsyncAck

/-! The copy stage of replica 1 with its thread pools, for one LibFS. The thread that copied a request to
the last replica checks the bitmap for an fsync; a failed check and every bit to be set become tasks of a
pool of two threads. -/
namespace LineFS.AckStage
open Base CopyLog

inductive Kind where
  | plain
  | rotation
  | fsync
  deriving DecidableEq

def manageFsyncAckThNum : Nat := 2

structure State where
  fs : FsyncAck.State
  fetched : List Nat
  localPool : Pool Nat
  lastPool : Pool Nat
  direct : List Nat
  checking : List Nat
  ackPool : Pool Nat
  localDone : List Nat

inductive Action where
  | fetch (seqn : Nat)
  | pullLocal
  | copyLocal (i : Nat)
  | pullLast
  | copyLast (i : Nat)
  | copyDirect (seqn : Nat)
  | pullAck
  | ack (a : FsyncAck.Action)

def init : State := ⟨FsyncAck.init,[],.empty,.empty,[],[],.empty,[]⟩

section machine
variable (kind : Nat → Kind)

def acks (q : Nat) : Bool := kind q = .fsync

def copied (s : State) (q : Nat) : Option State :=
  (FsyncAck.step (acks kind) s.fs (.complete q)).map fun fs =>
    if kind q = .fsync then { s with fs, checking := q::s.checking } else { s with fs, ackPool := s.ackPool.add q }

def leave (s : State) (q : Nat) : State :=
  { s with checking := s.checking.filter (· ≠ q), ackPool := { s.ackPool with running := s.ackPool.running.erase q } }

def acted (s : State) : FsyncAck.Action → State
  | .count q =>
    if q ∈ s.checking ∧ s.fs.phase q = .copied then { s with checking := s.checking.filter (· ≠ q), ackPool := s.ackPool.add q }
    else s
  | .record q | .send q => leave s q
  | _ => s

def seqnOf : FsyncAck.Action → Nat
  | .complete q | .fetch q | .record q | .count q | .shift q | .send q => q

def Active (s : State) (q : Nat) : Prop := q ∈ s.checking ∨ q ∈ s.ackPool.running
deriving Decidable

def step (nLocal nLast : Nat) (s : State) : Action → Option State
  | .fetch q =>
    if 1 ≤ q ∧ q ∉ s.fetched then
      let s := { s with fetched := q::s.fetched, localPool := s.localPool.add q }
      some (if kind q = .plain then { s with lastPool := s.lastPool.add q } else { s with direct := q::s.direct })
    else none
  | .pullLocal => (s.localPool.pull nLocal).map fun localPool => { s with localPool }
  | .copyLocal i => (s.localPool.finish i).map fun (q,localPool) => { s with localPool, localDone := q::s.localDone }
  | .pullLast => (s.lastPool.pull nLast).map fun lastPool => { s with lastPool }
  | .copyLast i => (s.lastPool.finish i).bind fun (q,lastPool) => copied kind { s with lastPool } q
  | .copyDirect q => if q ∈ s.direct then copied kind { s with direct := s.direct.filter (· ≠ q) } q else none
  | .pullAck => (s.ackPool.pull manageFsyncAckThNum).map fun ackPool => { s with ackPool }
  | .ack (.complete _) => none
  | .ack a =>
    if Active s (seqnOf a) then (FsyncAck.step (acks kind) s.fs a).map fun fs => acted { s with fs } a else none

end machine

section steps
variable {kind : Nat → Kind} {nLocal nLast : Nat} {s t : State}

theorem copiedExact {q : Nat} (taken : copied kind s q = some t) :
    1 ≤ q ∧ s.fs.phase q = .copying ∧ ∃ fs, fs = { s.fs with phase := FsyncAck.move s.fs q .copied } ∧
      FsyncAck.step (acks kind) s.fs (.complete q) = some fs ∧
      t = if kind q = .fsync then { s with fs, checking := q::s.checking } else { s with fs, ackPool := s.ackPool.add q } := by
  obtain ⟨fs,complete,rfl⟩ := Option.map_eq_some_iff.mp taken
  obtain ⟨⟨positive,phase⟩,rfl⟩ := ifTaken complete
  exact ⟨positive,phase,_,rfl,complete,rfl⟩

def Copies (s : State) : Action → Nat → Prop
  | .copyLast i,q => s.lastPool.running[i]? = some q
  | .copyDirect r,q => r = q
  | _,_ => False

inductive Effect (kind : Nat → Kind) (s : State) (a : Action) (t : State) : Prop where
  | quiet (fs : t.fs = s.fs) (checking : t.checking = s.checking) (jobs : t.ackPool.jobs = s.ackPool.jobs)
      (localDone : s.localDone ⊆ t.localDone)
  | copied (q : Nat) (base : State) (fs : base.fs = s.fs) (checking : base.checking = s.checking) (pool : base.ackPool = s.ackPool)
      (localDone : base.localDone = s.localDone) (source : Copies s a q) (taken : AckStage.copied kind base q = some t)
  | acted (b : FsyncAck.Action) (same : a = .ack b) (fs : FsyncAck.State) (active : Active s (seqnOf b)) (other : ∀ q, b ≠ .complete q)
      (taken : FsyncAck.step (acks kind) s.fs b = some fs) (last : t = AckStage.acted { s with fs } b)

theorem stepEffect {a : Action} (taken : step kind nLocal nLast s a = some t) : Effect kind s a t := by
  cases a with
  | fetch q =>
    obtain ⟨_,rfl⟩ := ifTaken taken
    split <;> exact .quiet rfl rfl rfl fun _ => id
  | pullLocal =>
    obtain ⟨pool,_,rfl⟩ := Option.map_eq_some_iff.mp taken
    exact .quiet rfl rfl rfl fun _ => id
  | copyLocal i =>
    obtain ⟨⟨q,pool⟩,_,rfl⟩ := Option.map_eq_some_iff.mp taken
    exact .quiet rfl rfl rfl fun _ => List.mem_cons_of_mem q
  | pullLast =>
    obtain ⟨pool,_,rfl⟩ := Option.map_eq_some_iff.mp taken
    exact .quiet rfl rfl rfl fun _ => id
  | copyLast i =>
    obtain ⟨⟨q,pool⟩,finished,taken⟩ := Option.bind_eq_some_iff.mp taken
    obtain ⟨r,found,same⟩ := Option.map_eq_some_iff.mp finished
    cases same
    exact .copied q { s with lastPool := ⟨s.lastPool.queue,s.lastPool.running.eraseIdx i⟩ } rfl rfl rfl rfl found taken
  | copyDirect q =>
    simp only [step] at taken
    split at taken <;> try contradiction
    exact .copied q { s with direct := s.direct.filter (· ≠ q) } rfl rfl rfl rfl rfl taken
  | pullAck =>
    obtain ⟨pool,pulled,rfl⟩ := Option.map_eq_some_iff.mp taken
    exact .quiet rfl rfl (Pool.pullExact pulled).1 fun _ => id
  | ack a =>
    cases a with
    | complete q => contradiction
    | _ =>
      obtain ⟨active,taken⟩ := Option.ite_none_right_eq_some.mp taken
      obtain ⟨fs,moved,rfl⟩ := Option.map_eq_some_iff.mp taken
      exact .acted _ rfl fs active nofun moved rfl

theorem actedSame (s : State) (a : FsyncAck.Action) : (acted s a).fs = s.fs ∧ (acted s a).localDone = s.localDone := by
  cases a with
  | count q =>
    simp only [acted]
    split <;> exact ⟨rfl,rfl⟩
  | _ => exact ⟨rfl,rfl⟩

end steps

def Local (s : State) : Action → Prop
  | .copyLast i => ∀ q ∈ s.lastPool.running[i]?, q ∈ s.localDone
  | .copyDirect q => q ∈ s.localDone
  | _ => True
instance (s a) : Decidable (Local s a) := by cases a <;> unfold Local <;> infer_instance

def Within (s : State) : Action → Prop
  | .ack a => FsyncAck.Within s.fs a
  | _ => True
instance (s a) : Decidable (Within s a) := by cases a <;> unfold Within <;> infer_instance

theorem localCopies {s : State} {a : Action} {q : Nat} (first : Local s a) (copies : Copies s a q) : q ∈ s.localDone := by
  cases a with
  | copyLast i => exact first q copies
  | copyDirect r => exact copies ▸ first
  | _ => exact copies.elim

section steps
variable {kind : Nat → Kind} {nLocal nLast : Nat} {s t : State}

theorem stepRequests {a : Action} (inv : FsyncAck.Inv (acks kind) s.fs) (within : Within s a) (taken : step kind nLocal nLast s a = some t) :
    FsyncAck.Inv (acks kind) t.fs := by
  cases stepEffect taken with
  | quiet fs => exact fs ▸ inv
  | copied q base fs _ _ _ _ taken =>
    obtain ⟨_,_,fs',_,complete,rfl⟩ := copiedExact taken
    rw [fs] at complete
    have after := FsyncAck.stepInv (a := .complete q) inv trivial complete
    split <;> exact after
  | acted b same fs _ _ moved last =>
    subst same
    have kept : t.fs = fs := last ▸ (actedSame { s with fs } b).1
    exact kept ▸ FsyncAck.stepInv inv within moved

theorem phaseCopying {a : Action} {q : Nat} (taken : step kind nLocal nLast s a = some t) (left : t.fs.phase q ≠ .copying) :
    s.fs.phase q ≠ .copying ∨ Copies s a q := by
  cases stepEffect taken with
  | quiet fs => exact .inl (fs ▸ left)
  | copied r base fs _ _ _ source copied =>
    obtain ⟨_,_,fs',rfl,_,rfl⟩ := copiedExact copied
    by_cases same : q = r
    · exact .inr (same ▸ source)
    · refine .inl fun copying => left ?_
      split <;> exact (FsyncAck.moveOther same).trans (fs ▸ copying)
  | acted b _ fs _ other moved last =>
    have same : t.fs = fs := last ▸ (actedSame { s with fs } b).1
    exact .inl fun copying => left (same ▸ (FsyncAck.copyingKept moved other).mpr copying)

theorem localKept {a : Action} (before : ∀ q, s.fs.phase q ≠ .copying → q ∈ s.localDone) (first : Local s a)
    (taken : step kind nLocal nLast s a = some t) : ∀ q, t.fs.phase q ≠ .copying → q ∈ t.localDone := by
  intro q left
  have grows : s.localDone ⊆ t.localDone := by
    cases stepEffect taken with
    | quiet _ _ _ localDone => exact localDone
    | copied r base _ _ _ localDone _ copied =>
      obtain ⟨_,_,fs',_,_,rfl⟩ := copiedExact copied
      rw [← localDone]
      split <;> exact fun _ => id
    | acted b _ fs _ _ _ last =>
      have same : t.localDone = s.localDone := last ▸ (actedSame { s with fs } b).2
      exact same ▸ fun _ => id
  rcases phaseCopying taken left with early | copies
  · exact grows (before q early)
  · exact grows (localCopies first copies)

end steps

def second (q : Nat) : Kind := if q = 2 then .fsync else .plain

def first (q : Nat) : Kind := if q = 1 then .fsync else .plain

def InLoop : FsyncAck.Phase → Prop
  | .copied | .fetched _ => True
  | _ => False
instance (p) : Decidable (InLoop p) := by cases p <;> unfold InLoop <;> infer_instance

def Spins (kind : Nat → Kind) (s : State) (f : Nat) : Prop :=
  kind f = .fsync ∧ InLoop (s.fs.phase f) ∧ ¬AllSet s.fs.rctx s.fs.rctx.startSeqn f
deriving Decidable

/- Every thread of the pool spins and a task of a lower request waits in the queue: it would
set a bit or acknowledge an earlier fsync. -/
def Deadlock (kind : Nat → Kind) (s : State) : Prop :=
  s.ackPool.running.length = manageFsyncAckThNum ∧ (∀ f ∈ s.ackPool.running, Spins kind s f) ∧
    ∃ x ∈ s.ackPool.queue, ∃ f ∈ s.ackPool.running, x < f
deriving Decidable

def Entered (s : State) (q : Nat) : Prop := s.fs.phase q ≠ .copying ∧ q ∉ s.checking
instance (s q) : Decidable (Entered s q) := by unfold Entered; infer_instance

def Fails (s : State) (q : Nat) : Prop := ∀ a ∈ FsyncAck.fetchedStart (s.fs.phase q), ¬AllSet s.fs.rctx a q
instance (s q) : Decidable (Fails s q) := by unfold Fails; infer_instance

/- An fsync that fails its first check finds no fsync in the pool, or only lower ones and every
lower request has been there before it. -/
def Admitted (kind : Nat → Kind) (s : State) (q : Nat) : Prop :=
  (∀ g ∈ s.ackPool.jobs, kind g ≠ .fsync) ∨ (∀ g ∈ s.ackPool.jobs, kind g = .fsync → g < q) ∧ ∀ y < q, 1 ≤ y → Entered s y
instance (kind s q) : Decidable (Admitted kind s q) := by unfold Admitted; infer_instance

def InTurn (kind : Nat → Kind) (s : State) : Action → Prop
  | .ack (.count q) => q ∈ s.checking → Fails s q → Admitted kind s q
  | _ => True
instance (kind s a) : Decidable (InTurn kind s a) := by
  rcases a with _ | _ | _ | _ | _ | _ | _ | (_ | _ | _ | _ | _ | _) <;> unfold InTurn <;> infer_instance

def Orderly (kind : Nat → Kind) (entered : Nat → Prop) : Bool → List Nat → Prop
  | _,[] => True
  | seen,f::rest =>
    (kind f = .fsync → (∀ g ∈ rest, kind g = .fsync → f < g) ∧
      (seen = true → (∀ y < f, 1 ≤ y → entered y) ∧ ∀ x ∈ rest, f < x)) ∧
    Orderly kind entered (seen || kind f = .fsync) rest

section orderly
variable {kind : Nat → Kind} {entered later : Nat → Prop} {l m : List Nat} {seen : Bool} {x : Nat}

theorem orderlyMono (grows : ∀ y, entered y → later y) (h : Orderly kind entered seen l) : Orderly kind later seen l := by
  induction l generalizing seen with
  | nil => trivial
  | cons f rest ih =>
    obtain ⟨own,rest_⟩ := h
    refine ⟨fun fsync => ⟨(own fsync).1,fun first => ?_⟩,ih rest_⟩
    obtain ⟨settled,above⟩ := (own fsync).2 first
    exact ⟨fun y below positive => grows y (settled y below positive),above⟩

theorem orderlySublist {more : Bool} (part : m.Sublist l) (fewer : more = true → seen = true) (h : Orderly kind entered seen l) :
    Orderly kind entered more m := by
  induction part generalizing seen more with
  | slnil => trivial
  | cons f _ ih => exact ih (fun one => by simp [fewer one]) h.2
  | cons_cons f sub ih =>
    obtain ⟨own,rest⟩ := h
    refine ⟨fun fsync => ⟨fun g mem => (own fsync).1 g (sub.subset mem),fun first => ?_⟩,ih (fun one => ?_) rest⟩
    · obtain ⟨settled,above⟩ := (own fsync).2 (fewer first)
      exact ⟨settled,fun y mem => above y (sub.subset mem)⟩
    · rcases Bool.or_eq_true_iff.mp one with first | own
      · simp [fewer first]
      · simp [own]

theorem orderlyAdd (positive : 1 ≤ x) (fresh : ¬entered x) (all : ∀ f ∈ l, entered f)
    (rises : kind x = .fsync → (∀ f ∈ l, kind f = .fsync → f < x) ∧
      ((seen = true ∨ ∃ f ∈ l, kind f = .fsync) → ∀ y < x, 1 ≤ y → entered y))
    (h : Orderly kind entered seen l) : Orderly kind entered seen (l ++ [x]) := by
  induction l generalizing seen with
  | nil => exact ⟨fun fsync => ⟨nofun,fun first => ⟨(rises fsync).2 (.inl first),nofun⟩⟩,trivial⟩
  | cons f rest ih =>
    obtain ⟨own,rest_⟩ := h
    refine ⟨fun fsync => ⟨fun g mem kind_ => ?_,fun first => ?_⟩,ih (fun g mem => all g (.tail f mem)) (fun fsync => ?_) rest_⟩
    · rcases memSnoc mem with old | rfl
      · exact (own fsync).1 g old kind_
      · exact (rises kind_).1 f (.head _) fsync
    · obtain ⟨settled,above⟩ := (own fsync).2 first
      refine ⟨settled,fun y mem => ?_⟩
      rcases List.mem_append.mp mem with old | new
      · exact above y old
      · cases List.mem_singleton.mp new
        rcases Nat.lt_trichotomy f x with less | same | more
        · exact less
        · exact absurd (same ▸ all f (.head _)) fresh
        · exact absurd (settled x more positive) fresh
    · obtain ⟨higher,settled⟩ := rises fsync
      refine ⟨fun g mem => higher g (.tail f mem),fun some_ => settled ?_⟩
      rcases some_ with first | ⟨g,mem,kind_⟩
      · rcases Bool.or_eq_true_iff.mp first with before | own
        · exact .inl before
        · exact .inr ⟨f,.head _,of_decide_eq_true own⟩
      · exact .inr ⟨g,.tail f mem,kind_⟩

end orderly

structure Kept (kind : Nat → Kind) (s : State) : Prop where
  checks : ∀ q ∈ s.checking, 1 ≤ q ∧ s.fs.phase q ≠ .copying
  jobs : ∀ q ∈ s.ackPool.jobs, Entered s q
  orderly : Orderly kind (Entered s) false s.ackPool.jobs

section steps
variable {kind : Nat → Kind} {nLocal nLast : Nat} {s t : State}

theorem addKept {q : Nat} (h : Kept kind s) (positive : 1 ≤ q) (fresh : ¬Entered s q) (grows : ∀ y, Entered s y → Entered t y)
    (own : Entered t q) (checks : ∀ q ∈ t.checking, 1 ≤ q ∧ t.fs.phase q ≠ .copying) (pool : t.ackPool = s.ackPool.add q)
    (admitted : kind q = .fsync → Admitted kind s q) : Kept kind t := by
  have rises : kind q = .fsync → (∀ f ∈ s.ackPool.jobs, kind f = .fsync → f < q) ∧
      ((false = true ∨ ∃ f ∈ s.ackPool.jobs, kind f = .fsync) → ∀ y < q, 1 ≤ y → Entered s y) := by
    intro fsync
    rcases admitted fsync with alone | ⟨higher,settled⟩
    · refine ⟨fun f mem kind_ => absurd kind_ (alone f mem),fun some_ => ?_⟩
      rcases some_ with impossible | ⟨f,mem,kind_⟩
      · contradiction
      · exact absurd kind_ (alone f mem)
    · exact ⟨higher,fun _ => settled⟩
  refine ⟨checks,fun f mem => ?_,?_⟩
  · rw [pool,Pool.jobsAdd] at mem
    rcases memSnoc mem with old | rfl
    · exact grows f (h.jobs f old)
    · exact own
  · rw [pool,Pool.jobsAdd]
    exact orderlyMono grows (orderlyAdd positive fresh h.jobs rises h.orderly)

theorem copiedKept {q : Nat} (h : Kept kind s) (taken : copied kind s q = some t) : Kept kind t := by
  obtain ⟨positive,copying,fs,rfl,_,rfl⟩ := copiedExact taken
  have fresh : ¬Entered s q := fun entered => entered.1 copying
  have moved {y : Nat} (other : y ≠ q) : FsyncAck.move s.fs q .copied y = s.fs.phase y := FsyncAck.moveOther other
  have stays {y : Nat} (left : s.fs.phase y ≠ .copying) : FsyncAck.move s.fs q .copied y ≠ .copying := by
    by_cases same : y = q
    · rw [same,FsyncAck.moveSelf]
      nofun
    · rwa [moved same]
  split
  · have others {y : Nat} (left : s.fs.phase y ≠ .copying) : y ≠ q := fun same => left (same ▸ copying)
    have grows : ∀ y, Entered s y → Entered { s with fs := { s.fs with phase := FsyncAck.move s.fs q .copied }, checking := q::s.checking } y :=
      fun y entered => ⟨stays entered.1,fun mem => (List.mem_cons.mp mem).elim (others entered.1) entered.2⟩
    refine ⟨fun y mem => ?_,fun y mem => grows y (h.jobs y mem),orderlyMono grows h.orderly⟩
    rcases List.mem_cons.mp mem with rfl | old
    · exact ⟨positive,by simp⟩
    · exact ⟨(h.checks y old).1,stays (h.checks y old).2⟩
  · rename_i other
    exact addKept h positive fresh (fun y entered => ⟨stays entered.1,entered.2⟩)
      ⟨by simp,fun mem => (h.checks q mem).2 copying⟩ (fun y mem => ⟨(h.checks y mem).1,stays (h.checks y mem).2⟩)
        rfl fun fsync => absurd fsync other

theorem actedKept {a : FsyncAck.Action} {fs : FsyncAck.State} (h : Kept kind s) (turn : InTurn kind s (.ack a)) (other : ∀ q, a ≠ .complete q)
    (taken : FsyncAck.step (acks kind) s.fs a = some fs) : Kept kind (acted { s with fs } a) := by
  have copying (y : Nat) : fs.phase y ≠ .copying ↔ s.fs.phase y ≠ .copying := not_congr (FsyncAck.copyingKept taken other)
  have plain : Kept kind { s with fs } :=
    ⟨fun q mem => ⟨(h.checks q mem).1,(copying q).mpr (h.checks q mem).2⟩,fun q mem => ⟨(copying q).mpr (h.jobs q mem).1,(h.jobs q mem).2⟩,
      orderlyMono (fun y entered => ⟨(copying y).mpr entered.1,entered.2⟩) h.orderly⟩
  have left (q : Nat) : Kept kind (leave { s with fs } q) := by
    have fewer : (leave { s with fs } q).ackPool.jobs.Sublist s.ackPool.jobs := List.erase_sublist.append (List.Sublist.refl _)
    have grows : ∀ y, Entered { s with fs } y → Entered (leave { s with fs } q) y :=
      fun y entered => ⟨entered.1,fun mem => entered.2 (List.mem_of_mem_filter mem)⟩
    exact ⟨fun y mem => plain.checks y (List.mem_of_mem_filter mem),fun y mem => grows y (plain.jobs y (fewer.subset mem)),
      orderlyMono grows (orderlySublist fewer id plain.orderly)⟩
  cases a with
  | complete q => exact absurd rfl (other q)
  | fetch q => exact plain
  | shift q => exact plain
  | record q => exact left q
  | send q => exact left q
  | count q =>
    simp only [acted]
    split
    · rename_i failed
      have checking : q ∈ s.checking := failed.1
      have fails : Fails s q := by
        obtain ⟨a,phase,_,rfl⟩ := FsyncAck.countExact taken
        have again : FsyncAck.move s.fs q (if AllSet s.fs.rctx a q then .counted a else .copied) q = .copied := failed.2
        rw [FsyncAck.moveSelf] at again
        rintro b start set
        rw [phase] at start
        cases Option.mem_some.mp start
        rw [if_pos set] at again
        contradiction
      refine addKept h (h.checks q checking).1 (fun entered => entered.2 checking)
        (fun y entered => ⟨(copying y).mpr entered.1,fun mem => entered.2 (List.mem_of_mem_filter mem)⟩)
        ⟨(copying q).mpr (h.checks q checking).2,fun mem => ?_⟩ (fun y mem => plain.checks y (List.mem_of_mem_filter mem))
          rfl fun _ => turn checking fails
      simpa using (List.mem_filter.mp mem).2
    · exact plain

theorem stepKept {a : Action} (h : Kept kind s) (turn : InTurn kind s a) (taken : step kind nLocal nLast s a = some t) : Kept kind t := by
  cases stepEffect taken with
  | quiet fs checking jobs _ =>
    have entered (y : Nat) : Entered t y ↔ Entered s y := by unfold Entered; rw [fs,checking]
    refine ⟨?_,?_,?_⟩
    · rw [fs,checking]
      exact h.checks
    · rw [jobs]
      exact fun q mem => (entered q).mpr (h.jobs q mem)
    · rw [jobs]
      exact orderlyMono (fun y => (entered y).mpr) h.orderly
  | copied q base fs checking pool _ _ copied =>
    have entered (y : Nat) : Entered base y ↔ Entered s y := by unfold Entered; rw [fs,checking]
    refine copiedKept ⟨?_,?_,?_⟩ copied
    · rw [fs,checking]
      exact h.checks
    · rw [pool]
      exact fun q mem => (entered q).mpr (h.jobs q mem)
    · rw [pool]
      exact orderlyMono (fun y => (entered y).mpr) h.orderly
  | acted b same fs _ other moved last =>
    subst same
    exact last ▸ actedKept h turn other moved

theorem initKept (kind : Nat → Kind) : Kept kind init := ⟨nofun,nofun,trivial⟩

theorem noDeadlock (reached : Reach (step kind nLocal nLast) (InTurn kind) init s) : ¬Deadlock kind s := by
  rintro ⟨full,spins,x,waits,f,runs,lower⟩
  have kept : Kept kind s := reachInvariant (Kept kind) (initKept kind) (fun _ _ _ h => stepKept h) reached
  obtain ⟨a,b,two⟩ := List.length_eq_two.mp full
  rw [two] at spins runs
  have first := (spins a (by simp)).1
  have second := (spins b (by simp)).1
  have order := kept.orderly
  rw [Pool.jobs,two] at order
  obtain ⟨oldest,newer,_⟩ := order
  have rises : a < b := (oldest first).1 b (by simp) second
  have above : b < x := ((newer second).2 (by simp [first])).2 x waits
  rcases List.mem_cons.mp runs with same | last
  · omega
  · have same := List.mem_singleton.mp last
    omega

end steps

def behindOne (q : Nat) : Kind := if q = 1 then .plain else .fsync

theorem noDeadlockTwo : ∃ s, Reach (step behindOne 1 1) (InTurn behindOne) init s ∧
    s.ackPool.running = [1,2] ∧ ¬Deadlock behindOne s := by
  obtain ⟨s,reached,running⟩ : ∃ s, Reach (step behindOne 1 1) (InTurn behindOne) init s ∧ s.ackPool.running = [1,2] :=
    traceReach [.fetch 1,.fetch 2,.fetch 3,.pullLast,.copyLast 0,.copyDirect 2,.ack (.fetch 2),.ack (.count 2),.copyDirect 3,.ack (.fetch 3),
        .ack (.count 3),.pullAck,.pullAck] (by decide +kernel)
  exact ⟨s,reached,running,noDeadlock reached⟩

theorem twoFsyncsDeadlock : ¬∀ s, Reach (step behindOne 1 1) Any init s →
    ¬Deadlock behindOne s := by
  intro claim
  obtain ⟨s,reached,stuck⟩ : ∃ s, Reach (step behindOne 1 1) Any init s ∧ Deadlock behindOne s :=
    traceAny [.fetch 1,.fetch 2,.fetch 3,.copyDirect 2,.ack (.fetch 2),.ack (.count 2),.copyDirect 3,.ack (.fetch 3),.ack (.count 3),
        .pullAck,.pullAck,.pullLast,.copyLast 0] (by decide +kernel)
  exact claim s reached stuck

end LineFS.AckStage
