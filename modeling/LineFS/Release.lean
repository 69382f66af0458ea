import LineFS.Base.Precedence
import LineFS.Base.Run
import LineFS.Config

/-! Who releases the NIC buffers of a request. The stages of the primary, replica 1 and the last replica are
short programs: they allocate and use buffers, post further stages, set and await flags and free. Their
points run in every order that the programs, posts and flags allow. -/
namespace LineFS.Release
open List (mem_append mem_cons mem_singleton nodup_nil)
open Base

inductive Node where
  | primary | replica | last
  deriving DecidableEq, Repr

inductive Buf where
  | logBuf (x : Node)
  | loghdrBuf (x : Node)
  | fetchLogDone
  | fetchLoghdrDone (x : Node)
  | memcpyList (x : Node)
  deriving DecidableEq, Repr

/- `copyDone` is the item that `dequeue_copy_done_item` waits for, `copyLogDone` the flag
between the two copies of a log buffer. -/
inductive Flag where
  | fetchLogDone
  | fetchLoghdrDone (x : Node)
  | copyDone (x : Node)
  | copyLogDone
  deriving DecidableEq, Repr

inductive Stage where
  | fetchLogFromLocalNvm
  | coalesceLog
  | compressLog
  | fetchLogFromPrimaryNicDram
  | copyLogToLocalNvm
  | copyLogToLastReplica
  | freeLogBuf
  | buildLoghdrList
  | fetchLoghdrs (x : Node)
  | buildMemcpyList (x : Node)
  | requestHostMemcpy (x : Node)
  | endPipeline (x : Node)
  deriving DecidableEq, Repr

/- `use` is the end of a use, by a local stage or by an RDMA read of the next node. `add` puts
the memcpy list into the batch and sends a full one; `sync` is the return of that send. -/
inductive Instr where
  | alloc (b : Buf)
  | use (b : Buf)
  | free (b : Buf)
  | post (s : Stage)
  | set (f : Flag)
  | wait (f : Flag)
  | add (x : Node)
  | sync (x : Node)
  deriving DecidableEq, Repr

def program : Stage → List Instr
  | .fetchLogFromLocalNvm => [.alloc (.logBuf .primary),.use (.logBuf .primary),.post .coalesceLog]
  | .coalesceLog => [.alloc .fetchLogDone,.post .buildLoghdrList,.post .compressLog]
  | .compressLog => [.post .fetchLogFromPrimaryNicDram]
  | .fetchLogFromPrimaryNicDram =>
    [.alloc (.logBuf .replica),.use (.logBuf .primary),.use (.logBuf .replica),.set .fetchLogDone,
     .post .copyLogToLastReplica,.post .copyLogToLocalNvm]
  | .copyLogToLocalNvm => [.use (.logBuf .replica),.set (.copyDone .replica),.set .copyLogDone]
  | .copyLogToLastReplica => [.use (.logBuf .replica),.set (.copyDone .last),.post .freeLogBuf]
  | .freeLogBuf => [.wait .copyLogDone,.free (.logBuf .replica)]
  | .buildLoghdrList =>
    [.alloc (.loghdrBuf .primary),.use (.logBuf .primary),.use (.loghdrBuf .primary),.alloc (.fetchLoghdrDone .primary),
     .post (.buildMemcpyList .primary),.post (.fetchLoghdrs .replica)]
  | .fetchLoghdrs .primary => []
  | .fetchLoghdrs .replica =>
    [.alloc (.loghdrBuf .replica),.use (.loghdrBuf .primary),.use (.loghdrBuf .replica),.set (.fetchLoghdrDone .primary),
     .alloc (.fetchLoghdrDone .replica),.post (.buildMemcpyList .replica),.post (.fetchLoghdrs .last)]
  | .fetchLoghdrs .last =>
    [.alloc (.loghdrBuf .last),.use (.loghdrBuf .replica),.use (.loghdrBuf .last),.set (.fetchLoghdrDone .replica),
     .post (.buildMemcpyList .last)]
  | .buildMemcpyList x => [.alloc (.memcpyList x),.use (.loghdrBuf x),.use (.memcpyList x),.post (.requestHostMemcpy x)]
  | .requestHostMemcpy .primary => [.add .primary,.sync .primary,.post (.endPipeline .primary)]
  | .requestHostMemcpy .replica => [.wait (.copyDone .replica),.add .replica,.sync .replica,.post (.endPipeline .replica)]
  | .requestHostMemcpy .last => [.wait (.copyDone .last),.add .last,.sync .last,.free (.loghdrBuf .last)]
  | .endPipeline .primary =>
    [.wait (.fetchLoghdrDone .primary),.free (.loghdrBuf .primary),.free (.fetchLoghdrDone .primary),
     .wait .fetchLogDone,.free (.logBuf .primary),.free .fetchLogDone]
  | .endPipeline .replica => [.wait (.fetchLoghdrDone .replica),.free (.loghdrBuf .replica),.free (.fetchLoghdrDone .replica)]
  | .endPipeline .last => []

abbrev Point : Type := Stage × Nat

def instr (p : Point) : Option Instr := (program p.1)[p.2]?

def nodes : List Node := [.primary,.replica,.last]
def stages : List Stage :=
  ([.fetchLogFromLocalNvm,.coalesceLog,.compressLog,.fetchLogFromPrimaryNicDram,.copyLogToLocalNvm,.copyLogToLastReplica,
   .freeLogBuf,.buildLoghdrList] : List Stage) ++ nodes.map Stage.fetchLoghdrs ++ nodes.map Stage.buildMemcpyList ++
  nodes.map Stage.requestHostMemcpy ++ nodes.map Stage.endPipeline
def points : List Point := stages.flatMap fun s => (List.range (program s).length).map fun i => (s,i)
def those (i : Instr) : List Point := points.filter fun p => instr p = some i

/- The point before it or the post of its stage, and the point that sets the flag it waits for. -/
def needs (p : Point) : List Point :=
  (match p.2 with
    | 0 => those (.post p.1)
    | i + 1 => [(p.1,i)]) ++
  match instr p with
  | some (.wait f) => those (.set f)
  | _ => []

-- The worker of a node takes the requests in the order of their numbers, one after the other.
def turn (n : Nat) : Point → List (Nat × Point)
  | (.requestHostMemcpy x,0) => if n = 0 then [] else [(n - 1,.requestHostMemcpy x,(program (.requestHostMemcpy x)).length - 1)]
  | _ => []

inductive Phase where
  | waiting | copied | freed
  deriving DecidableEq, Repr

/- It waits until the host has copied, frees the lists that the batch holds by then and resets the batch. -/
structure Call where
  worker : Bool
  lists : List Nat
  phase : Phase
  deriving DecidableEq, Repr

structure Batch where
  sge : List Nat
  calls : List Call
  copied : List Nat
  freed : List Nat
  deriving DecidableEq, Repr

structure State where
  issued : Nat
  done : List (Nat × Point)
  batch : Node → Batch

def State.put (s : State) (x : Node) (b : Batch) : State := { s with batch := fun y => if y = x then b else s.batch y }

inductive Action where
  | issue
  | run (n : Nat) (p : Point)
  | publishAllRemains (x : Node)
  | copied (x : Node) (call : Nat)
  | free (x : Node) (call : Nat)
  | reset (x : Node) (call : Nat)
  deriving DecidableEq, Repr

def Ready (s : State) (n : Nat) (p : Point) : Prop :=
  n < s.issued ∧ p ∈ points ∧ (n,p) ∉ s.done ∧ (∀ q ∈ needs p, (n,q) ∈ s.done) ∧ ∀ q ∈ turn n p, q ∈ s.done
deriving Decidable

def sendBatchedMemcpyReqToHost (worker : Bool) (b : Batch) : Batch := { b with calls := b.calls ++ [⟨worker,b.sge,.waiting⟩] }

def addMemcpyListToBatch (batchMax n : Nat) (b : Batch) : Batch :=
  let b := { b with sge := b.sge ++ [n] }
  if b.sge.length = batchMax then sendBatchedMemcpyReqToHost true b else b

def step (batchMax : Nat) (s : State) : Action → Option State
  | .issue => some { s with issued := s.issued + 1 }
  | .run n p =>
    if Ready s n p then
      let t := { s with done := (n,p)::s.done }
      match instr p with
      | some (.add x) => some (t.put x (addMemcpyListToBatch batchMax n (s.batch x)))
      | some (.sync x) => if (s.batch x).calls.any Call.worker then none else some t
      | _ => some t
    else none
  | .publishAllRemains x => some (s.put x (sendBatchedMemcpyReqToHost false (s.batch x)))
  | .copied x i =>
    (s.batch x).calls[i]?.bind fun c =>
      if c.phase = .waiting then
        some (s.put x { s.batch x with calls := (s.batch x).calls.set i { c with phase := .copied }, copied := (s.batch x).copied ++ c.lists })
      else none
  | .free x i =>
    (s.batch x).calls[i]?.bind fun c =>
      if c.phase = .copied then
        some (s.put x
          { s.batch x with calls := (s.batch x).calls.set i { c with phase := .freed }, freed := (s.batch x).freed ++ (s.batch x).sge })
      else none
  | .reset x i =>
    (s.batch x).calls[i]?.bind fun c =>
      if c.phase = .freed then some (s.put x { s.batch x with calls := (s.batch x).calls.eraseIdx i, sge := [] }) else none

def init : State := ⟨0,[],fun _ => ⟨[],[],[],[]⟩⟩

def frees (s : State) (n : Nat) : Buf → Nat
  | .memcpyList x => (s.batch x).freed.count n
  | b => s.done.countP fun g => g.1 = n ∧ instr g.2 = some (.free b)

def flagOf : Buf → Option Flag
  | .fetchLogDone => some .fetchLogDone
  | .fetchLoghdrDone x => some (.fetchLoghdrDone x)
  | _ => none

def users (b : Buf) : List Point :=
  those (.alloc b) ++ those (.use b) ++ (flagOf b).toList.flatMap fun f => those (.set f) ++ those (.wait f)

def buffers : List Buf := points.filterMap fun p =>
  match instr p with
  | some (.alloc b) => some b
  | _ => none

def Quiet (batchMax : Nat) (s : State) : Prop :=
  ∀ a, a ≠ .issue → (∀ x, a ≠ .publishAllRemains x) → step batchMax s a = none

/- A buffer is freed once at most and not before its uses have ended, sends included. When nothing can go on
and no list waits in a batch, every buffer has been freed. -/
structure Released (batchMax : Nat) (s : State) : Prop where
  once : ∀ n b, frees s n b ≤ 1
  used : ∀ n b, 0 < frees s n b → ∀ p ∈ users b, (n,p) ∈ s.done
  sent : ∀ n x, 0 < frees s n (.memcpyList x) → n ∈ (s.batch x).copied ∧
    ∀ c ∈ (s.batch x).calls, c.phase = .waiting → n ∉ c.lists
  all : Quiet batchMax s → (∀ x, (s.batch x).sge = []) → ∀ n < s.issued, ∀ b ∈ buffers, frees s n b = 1

def Alone (s : State) : Action → Prop
  | .run _ p => ∀ x, instr p = some (.add x) → (s.batch x).calls = []
  | .publishAllRemains x => (s.batch x).calls = []
  | _ => True

theorem everyNode (x : Node) : x ∈ nodes := by cases x <;> decide

instance (s) : (a : Action) → Decidable (Alone s a)
  | .run _ p => decidable_of_iff (∀ x ∈ nodes, instr p = some (.add x) → (s.batch x).calls = []) ⟨fun h x => h x (everyNode x),fun h x _ => h x⟩
  | .publishAllRemains _ => inferInstanceAs (Decidable (_ = _))
  | .issue | .copied _ _ | .free _ _ | .reset _ _ => .isTrue trivial

def addPoint (x : Node) : Point := (.requestHostMemcpy x,if x = .primary then 0 else 1)

theorem pointsSorted : Topological needs [] points := by decide +kernel

theorem addsOnce (x : Node) : those (.add x) = [addPoint x] := by cases x <;> decide +kernel

theorem freesOnce (b : Buf) : (those (.free b)).length ≤ 1 := by
  rcases b with x | x | _ | x | x <;> (try cases x) <;> decide +kernel

theorem freesAfterUsers (b : Buf) : ∀ p ∈ those (.free b), ∀ q ∈ users b, q ∈ ancestors needs points.reverse p := by
  rcases b with x | x | _ | x | x <;> (try cases x) <;> decide +kernel

theorem addsAfterUsers (x : Node) : ∀ q ∈ users (.memcpyList x), q ∈ ancestors needs points.reverse (addPoint x) := by
  cases x <;> decide +kernel

theorem buffersFreed : ∀ b ∈ buffers, those (.free b) ≠ [] ∨ ∃ x ∈ nodes, b = .memcpyList x := by decide +kernel

theorem addPointKnown (x : Node) : addPoint x ∈ points := by cases x <;> decide +kernel

theorem memThose {p : Point} {i : Instr} : p ∈ those i ↔ p ∈ points ∧ instr p = some i := by simp [those]

theorem instrAdd {p : Point} {x : Node} (known : p ∈ points) : instr p = some (.add x) ↔ p = addPoint x := by
  have same : p ∈ those (.add x) ↔ p = addPoint x := by rw [addsOnce,mem_singleton]
  rw [← same,memThose]
  exact ⟨fun h => ⟨known,h⟩,And.right⟩

@[simp] theorem putBatch (s : State) (x y : Node) (b : Batch) : (s.put x b).batch y = if y = x then b else s.batch y := rfl
@[simp] theorem putDone (s : State) (x : Node) (b : Batch) : (s.put x b).done = s.done := rfl
structure Kept (done : List (Nat × Point)) (x : Node) (b : Batch) : Prop where
  single : b.calls = [] ∨ ∃ c, b.calls = [c] ∧ c.lists = b.sge
  shipped : ∀ c ∈ b.calls, c.phase ≠ .waiting → ∀ n ∈ b.sge, n ∈ b.copied
  emptied : ∀ c ∈ b.calls, c.phase = .freed → ∀ n ∈ b.sge, n ∈ b.freed
  held : (∀ c ∈ b.calls, c.phase ≠ .freed) → (b.freed ++ b.sge).Nodup
  once : b.freed.Nodup
  added : ∀ n, (n,addPoint x) ∈ done ↔ n ∈ b.freed ∨ n ∈ b.sge
  copied : ∀ n ∈ b.freed, n ∈ b.copied

structure Inv (s : State) : Prop where
  once : s.done.Nodup
  known : ∀ g ∈ s.done, g.1 < s.issued ∧ g.2 ∈ points
  closed : ∀ n, Closed needs fun p => (n,p) ∈ s.done
  kept : ∀ x, Kept s.done x (s.batch x)

section kept
variable {done : List (Nat × Point)} {x : Node} {b : Batch} (h : Kept done x b)
include h

theorem keptOther {n : Nat} {p : Point} (other : p ≠ addPoint x) : Kept ((n,p)::done) x b := by
  refine { h with added := fun m => ?_ }
  rw [← h.added m,mem_cons]
  exact or_iff_right fun same => other (Prod.mk.inj same).2.symm

theorem keptSend (worker : Bool) (idle : b.calls = []) : Kept done x (sendBatchedMemcpyReqToHost worker b) := by
  have nodup : (b.freed ++ b.sge).Nodup := h.held (by simp [idle])
  refine { h with single := .inr ⟨_,by simp [sendBatchedMemcpyReqToHost,idle]; rfl,rfl⟩, shipped := ?_, emptied := ?_, held := fun _ => nodup }
  · intro c mem later
    simp only [sendBatchedMemcpyReqToHost,idle,List.nil_append,mem_singleton] at mem
    exact absurd (mem ▸ rfl) later
  · intro c mem freed
    simp only [sendBatchedMemcpyReqToHost,idle,List.nil_append,mem_singleton] at mem
    rw [mem] at freed
    cases freed

theorem keptAdd {n : Nat} (batchMax : Nat) (idle : b.calls = []) (fresh : (n,addPoint x) ∉ done) :
    Kept ((n,addPoint x)::done) x (addMemcpyListToBatch batchMax n b) := by
  have new : n ∉ b.freed ++ b.sge := by
    rw [mem_append,← h.added n]
    exact fresh
  have nodup : (b.freed ++ (b.sge ++ [n])).Nodup := by
    rw [← List.append_assoc]
    exact (h.held (by simp [idle])).append (List.nodup_singleton n) (by simpa using new)
  have grown : Kept ((n,addPoint x)::done) x { b with sge := b.sge ++ [n] } := by
    refine { single := .inl idle, shipped := by simp [idle], emptied := by simp [idle], held := fun _ => nodup, once := h.once,
             added := fun m => ?_, copied := h.copied }
    simp only [mem_cons,Prod.mk.injEq,and_true,h.added m,mem_append,List.not_mem_nil,or_false]
    tauto
  unfold addMemcpyListToBatch
  dsimp only
  split
  · exact keptSend grown true idle
  · exact grown

variable {i : Nat} {c : Call} (found : b.calls[i]? = some c)
include found

theorem keptCall : i = 0 ∧ b.calls = [c] ∧ c.lists = b.sge := by
  rcases h.single with none | ⟨d,one,lists⟩
  · simp [none] at found
  · rw [one] at found
    cases i with
    | zero => cases found; exact ⟨rfl,one,lists⟩
    | succ i => simp at found

theorem keptCopied (waiting : c.phase = .waiting) :
    Kept done x { b with calls := b.calls.set i { c with phase := .copied }, copied := b.copied ++ c.lists } := by
  obtain ⟨rfl,one,lists⟩ := keptCall h found
  have nodup : (b.freed ++ b.sge).Nodup := h.held (by simp [one,waiting])
  simp only [one,List.set_cons_zero]
  refine { single := .inr ⟨_,rfl,lists⟩, shipped := ?_, emptied := ?_, held := fun _ => nodup, once := h.once, added := h.added, copied := ?_ }
  · intro d mem _ n held
    rw [lists]
    exact List.mem_append_right _ held
  · intro d mem freed
    cases mem_singleton.mp mem
    cases freed
  · exact fun n mem => List.mem_append_left _ (h.copied n mem)

theorem keptFree (copied : c.phase = .copied) :
    Kept done x { b with calls := b.calls.set i { c with phase := .freed }, freed := b.freed ++ b.sge } := by
  obtain ⟨rfl,one,lists⟩ := keptCall h found
  have nodup : (b.freed ++ b.sge).Nodup := h.held (by simp [one,copied])
  have shipped : ∀ n ∈ b.sge, n ∈ b.copied := h.shipped c (by simp [one]) (by simp [copied])
  simp only [one,List.set_cons_zero]
  refine { single := .inr ⟨_,rfl,lists⟩, shipped := fun _ _ _ => shipped, emptied := fun _ _ _ n held => List.mem_append_right _ held,
           held := fun none => absurd rfl (none _ (mem_singleton.mpr rfl)), once := nodup, added := fun n => ?_, copied := ?_ }
  · rw [h.added n,mem_append,or_assoc,or_self]
  · intro n mem
    exact (mem_append.mp mem).elim (h.copied n) (shipped n)

theorem keptReset (freed : c.phase = .freed) : Kept done x { b with calls := b.calls.eraseIdx i, sge := [] } := by
  obtain ⟨rfl,one,lists⟩ := keptCall h found
  have emptied : ∀ n ∈ b.sge, n ∈ b.freed := h.emptied c (by simp [one]) freed
  simp only [one,List.eraseIdx_cons_zero]
  refine { single := .inl rfl, shipped := nofun, emptied := nofun, held := fun _ => by simpa using h.once, once := h.once,
           added := fun n => ?_, copied := h.copied }
  rw [h.added n]
  exact ⟨fun h => .inl (h.elim id (emptied n)),fun h => .inl (h.resolve_right List.not_mem_nil)⟩

end kept

theorem keptPut {s : State} {x : Node} {b : Batch} (h : ∀ y, Kept s.done y (s.batch y)) (new : Kept s.done x b) (y : Node) :
    Kept (s.put x b).done y ((s.put x b).batch y) := by
  simp only [putBatch,putDone]
  split
  · rename_i same
    exact same ▸ new
  · exact h y

theorem initInv : Inv init := by
  refine ⟨nodup_nil,nofun,nofun,fun x => ?_⟩
  exact ⟨.inl rfl,nofun,nofun,fun _ => nodup_nil,nodup_nil,fun n => by simp [init],nofun⟩

theorem runInv {s : State} {n : Nat} {p : Point} (h : Inv s) (ready : Ready s n p) {batch : Node → Batch}
    (kept : ∀ x, Kept ((n,p)::s.done) x (batch x)) : Inv ⟨s.issued,(n,p)::s.done,batch⟩ := by
  obtain ⟨issued,point,fresh,needed,-⟩ := ready
  refine ⟨List.nodup_cons.mpr ⟨fresh,h.once⟩,List.forall_mem_cons.mpr ⟨⟨issued,point⟩,h.known⟩,fun m q ran r need => ?_,kept⟩
  rcases mem_cons.mp ran with same | old
  · obtain ⟨rfl,rfl⟩ := Prod.mk.inj same
    exact .tail _ (needed r need)
  · exact .tail _ (h.closed m q old r need)

theorem stepInv {batchMax : Nat} {s t : State} {a : Action} (h : Inv s) (alone : Alone s a) (taken : step batchMax s a = some t) : Inv t := by
  cases a with
  | issue =>
    cases taken
    exact ⟨h.once,fun g mem => ⟨Nat.lt_succ_of_lt (h.known g mem).1,(h.known g mem).2⟩,h.closed,h.kept⟩
  | run n p =>
    obtain ⟨ready,taken⟩ := Option.ite_none_right_eq_some.mp taken
    have plain (none : ∀ x, instr p ≠ some (.add x)) : Inv ⟨s.issued,(n,p)::s.done,s.batch⟩ :=
      runInv h ready fun x => keptOther (h.kept x) fun same => none x ((instrAdd ready.2.1).mpr same)
    split at taken
    · rename_i x add
      cases taken
      obtain rfl := (instrAdd ready.2.1).mp add
      refine runInv h ready fun y => ?_
      dsimp only
      split
      · rename_i same
        exact same ▸ keptAdd (h.kept x) batchMax (alone x add) ready.2.2.1
      · rename_i other
        exact keptOther (h.kept y) fun same => other (Stage.requestHostMemcpy.inj (congrArg Prod.fst same)).symm
    · rename_i x sync
      obtain ⟨_,rfl⟩ := unlessTaken taken
      exact plain fun y => by simp [sync]
    · rename_i notAdd _
      cases taken
      exact plain notAdd
  | publishAllRemains x =>
    cases taken
    exact ⟨h.once,h.known,h.closed,keptPut h.kept (keptSend (h.kept x) false alone)⟩
  | copied x i =>
    obtain ⟨c,found,taken⟩ := Option.bind_eq_some_iff.mp taken
    obtain ⟨_,rfl⟩ := ifTaken taken
    exact ⟨h.once,h.known,h.closed,keptPut h.kept (keptCopied (h.kept x) found ‹_›)⟩
  | free x i =>
    obtain ⟨c,found,taken⟩ := Option.bind_eq_some_iff.mp taken
    obtain ⟨_,rfl⟩ := ifTaken taken
    exact ⟨h.once,h.known,h.closed,keptPut h.kept (keptFree (h.kept x) found ‹_›)⟩
  | reset x i =>
    obtain ⟨c,found,taken⟩ := Option.bind_eq_some_iff.mp taken
    obtain ⟨_,rfl⟩ := ifTaken taken
    exact ⟨h.once,h.known,h.closed,keptPut h.kept (keptReset (h.kept x) found ‹_›)⟩

theorem lastPoint (x : Node) : (Stage.requestHostMemcpy x,(program (.requestHostMemcpy x)).length - 1) ∈ points := by
  cases x <;> decide +kernel

theorem turnBefore {n : Nat} {p : Point} {q : Nat × Point} (mem : q ∈ turn n p) : 0 < n ∧ q.1 = n - 1 ∧ q.2 ∈ points := by
  unfold turn at mem
  split at mem
  · rename_i x
    split at mem
    · cases mem
    · cases mem_singleton.mp mem
      exact ⟨Nat.pos_of_ne_zero ‹_›,rfl,lastPoint x⟩
  · cases mem

def freeing (n : Nat) (b : Buf) (g : Nat × Point) : Bool := g.1 = n ∧ instr g.2 = some (.free b)

section inv
variable {s : State} (h : Inv s)
include h

theorem freeingPoint {n : Nat} {b : Buf} {g : Nat × Point} (mem : g ∈ s.done) (yes : freeing n b g = true) :
    g.1 = n ∧ g.2 ∈ those (.free b) := by
  obtain ⟨rfl,frees⟩ : g.1 = n ∧ instr g.2 = some (.free b) := by simpa [freeing] using yes
  exact ⟨rfl,memThose.mpr ⟨(h.known g mem).2,frees⟩⟩

theorem freeingOnce (n : Nat) (b : Buf) : s.done.countP (freeing n b) ≤ 1 := by
  cases one : those (.free b) with
  | nil =>
    have never : s.done.countP (freeing n b) = 0 := by
      refine List.countP_eq_zero.mpr fun g mem yes => ?_
      have frees := (freeingPoint h mem yes).2
      simp [one] at frees
    omega
  | cons p rest =>
    have alone : rest = [] := by
      have := freesOnce b
      rw [one,List.length_cons] at this
      exact List.length_eq_zero_iff.mp (by omega)
    calc s.done.countP (freeing n b) ≤ s.done.countP (· == (n,p)) := by
          refine List.countP_mono_left fun g mem yes => ?_
          obtain ⟨rfl,frees⟩ := freeingPoint h mem yes
          rw [one,alone,mem_singleton] at frees
          simp [← frees]
      _ ≤ 1 := List.nodup_iff_count_le_one.mp h.once (n,p)

theorem freedAfterUsers {n : Nat} {b : Buf} (freed : 0 < s.done.countP (freeing n b)) : ∀ p ∈ users b, (n,p) ∈ s.done := by
  obtain ⟨g,mem,yes⟩ := List.countP_pos_iff.mp freed
  obtain ⟨rfl,frees⟩ := freeingPoint h mem yes
  exact fun p uses => ancestorsDone (h.closed g.1) mem (freesAfterUsers b g.2 frees p uses)

theorem listAfterUsers {n : Nat} {x : Node} (freed : 0 < (s.batch x).freed.count n) : ∀ p ∈ users (.memcpyList x), (n,p) ∈ s.done := by
  have added : (n,addPoint x) ∈ s.done := ((h.kept x).added n).mpr (.inl (List.count_pos_iff.mp freed))
  exact fun p uses => ancestorsDone (h.closed n) added (addsAfterUsers x p uses)

variable {batchMax : Nat} (quiet : Quiet batchMax s)
include quiet

theorem quietCalls (x : Node) : (s.batch x).calls = [] := by
  rcases (h.kept x).single with none | ⟨c,one,-⟩
  · exact none
  · have copied := quiet (.copied x 0) nofun nofun
    have free := quiet (.free x 0) nofun nofun
    have reset := quiet (.reset x 0) nofun nofun
    simp only [step,one,List.getElem?_cons_zero,Option.bind_some,ite_eq_right_iff,reduceCtorEq,imp_false] at copied free reset
    cases phase : c.phase with
    | waiting => exact absurd phase copied
    | copied => exact absurd phase free
    | freed => exact absurd phase reset

theorem quietDone (n : Nat) (issued : n < s.issued) : ∀ p ∈ points, (n,p) ∈ s.done := by
  have stuck (n : Nat) (issued : n < s.issued) (turns : ∀ p, ∀ q ∈ turn n p, q ∈ s.done) : ∀ p ∈ points, (n,p) ∈ s.done := by
    refine stuckDone pointsSorted nofun fun p point needed => ?_
    by_contra fresh
    have ready : Ready s n p := ⟨issued,point,fresh,needed,turns p⟩
    have refused := quiet (.run n p) nofun nofun
    simp only [step,if_pos ready] at refused
    split at refused
    · cases refused
    · rw [quietCalls h quiet] at refused
      cases refused
    · cases refused
  induction n with
  | zero => exact stuck 0 issued fun p q mem => absurd (turnBefore mem).1 (Nat.lt_irrefl 0)
  | succ n ih =>
    refine stuck (n + 1) issued fun p q mem => ?_
    obtain ⟨-,before,point⟩ := turnBefore mem
    have ran := ih (Nat.lt_of_succ_lt issued) q.2 point
    rw [Nat.add_sub_cancel] at before
    rwa [← before] at ran

end inv

theorem aloneReleased {batchMax : Nat} {s : State} (run : Reach (step batchMax) Alone init s) : Released batchMax s := by
  have h : Inv s := reachInvariant Inv initInv (fun _ _ _ before ok taken => stepInv before ok taken) run
  refine ⟨fun n b => ?_,fun n b => ?_,fun n x freed => ?_,fun quiet empty n issued b mem => ?_⟩
  · cases b with
    | memcpyList x => exact List.nodup_iff_count_le_one.mp (h.kept x).once n
    | _ => exact freeingOnce h n _
  · cases b with
    | memcpyList x => exact listAfterUsers h
    | _ => exact freedAfterUsers h
  · have mem : n ∈ (s.batch x).freed := List.count_pos_iff.mp freed
    refine ⟨(h.kept x).copied n mem,fun c call waiting held => ?_⟩
    rcases (h.kept x).single with none | ⟨d,one,lists⟩
    · simp [none] at call
    · rw [one,List.mem_singleton] at call
      subst call
      have apart := (h.kept x).held (by simp [one,waiting])
      exact (List.nodup_append.mp apart).2.2 n mem n (lists ▸ held) rfl
  · have done := quietDone h quiet n issued
    have some (b : Buf) (somewhere : those (.free b) ≠ []) : s.done.countP (freeing n b) = 1 := by
      obtain ⟨p,frees⟩ := List.exists_mem_of_ne_nil _ somewhere
      have ran := done p (memThose.mp frees).1
      have positive : 0 < s.done.countP (freeing n b) :=
        List.countP_pos_iff.mpr ⟨(n,p),ran,by simp [freeing,(memThose.mp frees).2]⟩
      exact Nat.le_antisymm (freeingOnce h n b) positive
    cases b with
    | memcpyList x =>
      have freed := (((h.kept x).added n).mp (done _ (addPointKnown x))).resolve_right (by simp [empty x])
      exact Nat.le_antisymm (List.nodup_iff_count_le_one.mp (h.kept x).once n) (List.count_pos_iff.mpr freed)
    | _ => exact some _ ((buffersFreed _ mem).resolve_right nofun)

def whole (n : Nat) : List Action := points.map (.run n)
def flush (x : Node) : List Action := [.publishAllRemains x,.copied x 0,.free x 0,.reset x 0]

theorem aloneReleasedFlushed : ∃ s, (∀ b ∈ buffers, frees s 0 b = 1) ∧ Released hostMemcpyBatchMax s := by
  obtain ⟨s,reached,freed⟩ : ∃ s, Reach (step hostMemcpyBatchMax) Alone init s ∧ (∀ b ∈ buffers, frees s 0 b = 1) :=
    traceReach (.issue::whole 0 ++ nodes.flatMap flush) (by decide +kernel)
  exact ⟨s,freed,aloneReleased reached⟩

def batched (n : Nat) : List Action :=
  [.fetchLogFromLocalNvm,.coalesceLog,.buildLoghdrList,.buildMemcpyList .primary,.requestHostMemcpy .primary].flatMap fun st =>
    (List.range (program st).length).map fun i => .run n (st,i)

def lateList : List Action :=
  ([.issue,.issue] : List Action) ++ batched 0 ++ [Action.publishAllRemains .primary] ++ batched 1 ++
    ([.copied .primary 0,.free .primary 0] : List Action)

/- The second list joins the batch while a flush waits for the host, and is freed with it; without a flush the
list of a single request stays allocated. -/
theorem listFreedUnsent : (¬∀ s, Reach (step hostMemcpyBatchMax) Any init s → Released hostMemcpyBatchMax s) ∧
    ∃ s, Reach (step hostMemcpyBatchMax) Any init s ∧ (∀ p ∈ points, (0,p) ∈ s.done) ∧ (∀ x ∈ nodes, (s.batch x).calls = []) ∧
      ∀ x ∈ nodes, frees s 0 (.memcpyList x) = 0 := by
  constructor
  · intro always
    obtain ⟨s,reached,freed,copied⟩ : ∃ s, Reach (step hostMemcpyBatchMax) Any init s ∧ (s.batch .primary).freed = [0,1] ∧
        (s.batch .primary).copied = [0] := traceAny lateList (by decide +kernel)
    have sent := ((always s reached).sent 1 .primary (by simp [frees,freed])).1
    simp [copied] at sent
  · exact traceAny (.issue::whole 0) (by decide +kernel)

end LineFS.Release
