import LineFS.FetchSeqn
import Mathlib.Data.List.Flatten

/-! The replicas of one LibFS. A replica's NIC writes the log range of a request at the same block numbers
into the replica's log and adds the request's memcpy list to the batch. The primary frees log space when its
own host has executed a batch. -/
namespace LineFS.Replica
open Base
open Log (LogFull)
open Publish (Request unacked)
open Tiling (Contiguous)

/- The batch holds the requests from `sent` up to `joined`; the host has executed those below `done` and the
first `part` entries of the next. -/
structure Node where
  copied : List Nat
  joined : Nat
  sent : Nat
  done : Nat
  part : Nat
  deriving DecidableEq, Repr

structure State where
  lib : FetchSeqn.State
  nodes : List Node

def init (logSbBlk n : Nat) : State := ⟨FetchSeqn.init logSbBlk,List.replicate n ⟨[],0,0,0,0⟩⟩

/- Each entry of a memcpy list reads a block of the request's log range, given by its distance from the start. -/
abbrev Lists := Nat → (q : Request) → List (Fin q.arg.nPrefetchBlk)

inductive Action where
  | lib (a : FetchSeqn.Action)
  | copy (r j : Nat)
  | join (r : Nat)
  | execute (r : Nat)
  deriving DecidableEq

-- The request with the `j`th number, and how many requests LibFS has seen acknowledged.
def numbered (s : State) (j : Nat) : Option Request := s.lib.issued[j]?.bind fun r => s.lib.fs.computed[r.place]?
def acked (s : State) : Nat := s.lib.fs.computed.length - (unacked s.lib.fs.pub).length

def copyLog (numbers : Nat) (v : Node) (j : Nat) : Option Node :=
  if j < numbers ∧ j ∉ v.copied then some { v with copied := j::v.copied } else none

def requestHostMemcpy (v : Node) : Option Node :=
  if v.joined ∈ v.copied then
    let joined := v.joined + 1
    some { v with joined, sent := if joined - v.sent = hostMemcpyBatchMax then joined else v.sent }
  else none

def memcpyWorker (entries : Nat) (v : Node) : Option Node :=
  if v.done < v.sent then
    if v.part < entries then some { v with part := v.part + 1 } else some { v with done := v.done + 1, part := 0 }
  else none

def atNode (s : State) (r : Nat) (f : Node → Option Node) : Option State :=
  s.nodes[r]?.bind fun v => (f v).map fun w => { s with nodes := s.nodes.set r w }

def step (lists : Lists) (s : State) : Action → Option State
  | .lib a => (FetchSeqn.step s.lib a).map fun lib => { s with lib }
  | .copy r j => atNode s r fun v => copyLog s.lib.issued.length v j
  | .join r => atNode s r requestHostMemcpy
  | .execute r => atNode s r fun v => (numbered s v.done).bind fun q => memcpyWorker (lists r q).length v

def Executed (v : Node) (i k : Nat) : Prop := i < v.done ∨ i = v.done ∧ k < v.part
deriving Decidable

/- The copy of request `j` to replica `r` overwrites no block that an entry of an
earlier request has still to read. -/
def CopySafe (lists : Lists) (s : State) (r j : Nat) : Prop :=
  ∀ v, s.nodes[r]? = some v → ∀ q, numbered s j = some q → ∀ i < j, ∀ p, numbered s i = some p →
  ∀ k (e : Fin p.arg.nPrefetchBlk), (lists r p)[k]? = some e →
  q.arg.prefetchStart ≤ p.arg.prefetchStart + e → p.arg.prefetchStart + e < q.arg.prefetchStart + q.arg.nPrefetchBlk →
  Executed v i k

/- Requests name the log in order and are numbered in it, and `log_alloc` returns only when every replica's
host has executed the lists of all acknowledged requests. -/
def Trailing (s : State) : Action → Prop
  | .lib a => FetchSeqn.Undisturbed s.lib a ∧ (a = .fs .ret → ∀ v ∈ s.nodes, acked s ≤ v.done)
  | _ => True
instance (s a) : Decidable (Trailing s a) := by cases a <;> unfold Trailing <;> infer_instance

theorem contiguousCovers {a b xs} (laid : Contiguous a xs) (low : a ≤ b) (high : b < a + blocks xs) :
    ∃ x ∈ xs, x.start ≤ b ∧ b < x.stop := by
  induction xs generalizing a with
  | nil => simp at high; omega
  | cons x xs ih =>
    obtain ⟨rfl,rest⟩ := laid
    by_cases here : b < x.stop
    · exact ⟨x,.head _,low,here⟩
    · rw [blocksCons] at high
      obtain ⟨y,mem,inside⟩ := ih rest (Nat.le_of_not_lt here) (by simp only [Span.stop]; omega)
      exact ⟨y,.tail _ mem,inside⟩

def Ordered (numbers : Nat) (v : Node) : Prop :=
  v.done ≤ v.sent ∧ v.sent ≤ v.joined ∧ (∀ j ∈ v.copied, j < numbers) ∧ v.joined ≤ numbers

def remaining (lib : FetchSeqn.State) (v : Node) : List Span := (lib.fs.computed.drop v.done).flatMap Request.txs ++ lib.fs.pub.unreq

structure Lagging (logSbBlk : Nat) (s : State) : Prop where
  inLine : FetchSeqn.InLine logSbBlk s.lib
  line : unacked s.lib.fs.pub <:+ s.lib.fs.computed
  ordered : ∀ v ∈ s.nodes, Ordered s.lib.issued.length v
  apart : ∀ v ∈ s.nodes, (remaining s.lib v).Pairwise Apart

section Steps
variable {logSbBlk : Nat} {s t : State} {lists : Lists}

theorem initLagging (logSbBlk n : Nat) : Lagging logSbBlk (init logSbBlk n) := by
  refine ⟨FetchSeqn.initInLine logSbBlk,List.suffix_rfl,?_,?_⟩
  · intro v mem
    cases List.eq_of_mem_replicate mem
    simp [Ordered]
  · intro v mem
    cases List.eq_of_mem_replicate mem
    exact .nil

theorem numberedPlace (h : Lagging logSbBlk s) {j q} (found : numbered s j = some q) : s.lib.fs.computed[j]? = some q := by
  obtain ⟨r,issued,computed⟩ := Option.bind_eq_some_iff.mp found
  exact FetchSeqn.issuedPlace h.inLine issued ▸ computed

theorem issuedFew (h : FetchSeqn.InLine logSbBlk s.lib) : s.lib.issued.length ≤ s.lib.fs.computed.length := by
  have line := congrArg List.length h.line
  simp only [List.length_map,List.length_append,List.length_range] at line
  omega

theorem nodeLagging {r f} (h : Lagging logSbBlk s) (taken : atNode s r f = some t)
    (kept : ∀ v w, f v = some w → Ordered s.lib.issued.length v → v.done ≤ w.done ∧ Ordered s.lib.issued.length w) :
    Lagging logSbBlk t := by
  simp only [atNode,Option.bind_eq_some_iff,Option.map_eq_some_iff] at taken
  obtain ⟨v,found,w,stepped,rfl⟩ := taken
  have mem := List.mem_of_getElem? found
  obtain ⟨further,ordered⟩ := kept v w stepped (h.ordered v mem)
  refine ⟨h.inLine,h.line,?_,?_⟩
  · intro u among
    rcases List.mem_or_eq_of_mem_set among with old | rfl
    · exact h.ordered u old
    · exact ordered
  · intro u among
    rcases List.mem_or_eq_of_mem_set among with old | rfl
    · exact h.apart u old
    · exact (h.apart v mem).sublist (((List.drop_sublist_drop_left _ further).flatMap _).append_right _)

-- The transaction that `log_alloc` returns lies apart from all that some replica has still to execute.
theorem returnedApart {v : Node} {x} (h : Lagging logSbBlk s) (executed : acked s ≤ v.done) (pending : s.lib.fs.pub.fs.pending = some x)
    (notFull : ¬LogFull s.lib.fs.pub.fs.log) : ∀ y ∈ remaining s.lib v, Apart y x := by
  intro y among
  have live : y ∈ s.lib.fs.pub.fs.live := by
    rw [Tiling.unreqLive h.inLine.tiles,Publish.taken,List.suffix_iff_eq_drop.mp h.line]
    have fewer := (List.drop_sublist_drop_left s.lib.fs.computed executed).flatMap Request.txs
    exact (fewer.append_right _).subset among
  exact (Log.guardedApart h.inLine.tiles.synced.guard pending notFull live).symm

theorem flowRemaining {fs a rs returned} {v : Node} (flow : Tiling.Flow s.lib.fs fs a rs returned)
    (old : v.done ≤ s.lib.fs.computed.length) :
    (fs.computed.drop v.done).flatMap Request.txs ++ fs.pub.unreq = remaining s.lib v ++ returned := by
  rw [flow.computed,List.drop_append_of_le_length old,List.flatMap_append,List.append_assoc,← flow.unreq,remaining,List.append_assoc]

section
variable (h : Lagging logSbBlk s)
include h

theorem fsLagging {a} (allowed : Trailing s (.lib (.fs a))) (taken : step lists s (.lib (.fs a)) = some t) :
    Lagging logSbBlk t := by
  obtain ⟨lib,moved,rfl⟩ := Option.map_eq_some_iff.mp taken
  have inLine := FetchSeqn.stepInLine h.inLine allowed.1 moved
  simp only [FetchSeqn.step,Option.ite_none_right_eq_some,Option.map_eq_some_iff] at moved
  obtain ⟨_,fs,moved,rfl⟩ := moved
  obtain ⟨rs,returned,flow⟩ := Tiling.stepFlow moved
  have same : (FetchSeqn.ticketed s.lib fs a).fs = fs ∧ (FetchSeqn.ticketed s.lib fs a).issued = s.lib.issued := by
    cases a <;> exact ⟨rfl,rfl⟩
  refine ⟨inLine,?_,by simp only [same.2]; exact h.ordered,fun v mem => ?_⟩
  · simp only [same.1]
    rw [flow.computed]
    exact flow.unacked.trans ((List.suffix_append_inj_of_length_eq rfl).mpr ⟨h.line,rfl⟩)
  · obtain ⟨done,sent,_,joined⟩ := h.ordered v mem
    simp only [remaining,same.1]
    rw [flowRemaining flow ((done.trans (sent.trans joined)).trans (issuedFew h.inLine))]
    rcases flow.returns with rfl | ⟨rfl,x,rfl,pending,notFull⟩
    · rw [List.append_nil]
      exact h.apart v mem
    · refine List.pairwise_append.mpr ⟨h.apart v mem,List.pairwise_singleton _ _,fun y among z last => ?_⟩
      cases List.mem_singleton.mp last
      exact returnedApart h (allowed.2 rfl v mem) pending notFull y among

theorem drawLagging {lib : FetchSeqn.State} (inLine : FetchSeqn.InLine logSbBlk lib)
    (fs : lib.fs = s.lib.fs) (more : s.lib.issued.length ≤ lib.issued.length) : Lagging logSbBlk { s with lib } := by
  refine ⟨inLine,by simp only [fs]; exact h.line,fun v mem => ?_,by simp only [remaining,fs]; exact h.apart⟩
  obtain ⟨done,sent,copied,joined⟩ := h.ordered v mem
  exact ⟨done,sent,fun j here => Nat.lt_of_lt_of_le (copied j here) more,joined.trans more⟩

theorem libLagging {a} (allowed : Trailing s (.lib a)) (taken : step lists s (.lib a) = some t) :
    Lagging logSbBlk t := by
  obtain ⟨lib,moved,rfl⟩ := Option.map_eq_some_iff.mp taken
  have inLine := FetchSeqn.stepInLine h.inLine allowed.1 moved
  cases a with
  | fs a => exact fsLagging h allowed taken
  | hand | pull | drawPlain i | drawFsync i =>
    obtain ⟨r,_,rfl⟩ := Option.map_eq_some_iff.mp moved
    exact drawLagging h inLine rfl (by simp)

end

theorem stepLagging {a} (h : Lagging logSbBlk s) (allowed : Trailing s a) (taken : step lists s a = some t) : Lagging logSbBlk t := by
  cases a with
  | lib a => exact libLagging h allowed taken
  | copy r j =>
    refine nodeLagging h taken (fun v w copied ⟨done,sent,known,joined⟩ => ?_)
    obtain ⟨new,rfl⟩ := ifTaken copied
    refine ⟨Nat.le_refl _,done,sent,fun i mem => ?_,joined⟩
    rcases List.mem_cons.mp mem with rfl | old
    · exact new.1
    · exact known i old
  | join r =>
    refine nodeLagging h taken (fun v w joins ⟨done,sent,known,joined⟩ => ?_)
    obtain ⟨copied,rfl⟩ := ifTaken joins
    have bound := known _ copied
    simp only [Ordered]
    split <;> exact ⟨Nat.le_refl _,by omega,by omega,known,bound⟩
  | execute r =>
    refine nodeLagging h taken (fun v w executes ⟨done,sent,known,joined⟩ => ?_)
    simp only [Option.bind_eq_some_iff] at executes
    obtain ⟨q,_,worked⟩ := executes
    unfold memcpyWorker at worked
    split at worked <;> try contradiction
    split at worked <;> cases worked
    · exact ⟨Nat.le_refl _,done,sent,known,joined⟩
    · exact ⟨Nat.le_succ _,by assumption,sent,known,joined⟩

end Steps

def firstBlock : Lists := fun _ q => if some : 0 < q.arg.nPrefetchBlk then [⟨0,some⟩] else []

def eachOf (n : Nat) (f : Nat → List Action) : List Action := (List.range n).flatMap f
def requested : List Action := (FetchSeqn.requested maxTransaction).map .lib
def rotates : List Action := [.lib (.fs (.store maxTransaction))]
def synced : List Action := (FetchSeqn.committed 2).map .lib ++ [.lib (.fs .fsync),.lib (.drawFsync 0)]

def rotated (executed : Nat) : List Action :=
  eachOf 31 (fun _ => requested) ++ eachOf 31 (fun j => [.copy 0 j]) ++ eachOf 30 (fun _ => [.join 0]) ++
  eachOf executed (fun _ => [.execute 0,.execute 0]) ++ [.lib (.fs .ack)] ++ rotates ++ requested ++ synced

def copying (s : State) : Bool := (step firstBlock s (.copy 0 31)).isSome

def overwrites (s : State) : Bool :=
  copying s ∧ (s.nodes[0]?.map fun v => (v.done,v.part)) = some (0,0) ∧
  ((numbered s 0).map fun q => (q.arg.prefetchStart,q.arg.nPrefetchBlk)) = some (1,4098) ∧
  ((numbered s 31).map fun q => (q.arg.prefetchStart,q.arg.nPrefetchBlk)) = some (1,4098)

end LineFS.Replica
