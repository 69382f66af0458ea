import LineFS.Base.Run
import Mathlib.Logic.Function.Basic
import Mathlib.Tactic.Linarith

/-! Work requests of one connection. A 64-bit counter hands out ids of 32 bits, completions raise
`last_send_compl`, and a waiter compares its id with it around the circle of 32 bits. One-sided
operations draw and post under `wr_lock`; a message draws its id first and posts it later. -/
namespace LineFS.Verbs
open Base

def maxSendQueueSize : Nat := 50
def uint32Max : UInt32 := 4294967295

def cmpCounters (a b : UInt32) : Int :=
  if a = b then 0
  else if a - b < uint32Max / 2 then 1
  else -1

-- The difference is returned as a signed number of 32 bits.
def diffCounters (a b : UInt32) : Int := (if b ≤ a then a - b else b - a).toBitVec.toInt

structure Conn where
  lastSend : UInt64
  lastSendCompl : UInt64
  deriving DecidableEq, Repr

namespace Conn

def currentWrId (c : Conn) : UInt32 := c.lastSend.toUInt32

def nextWrId (c : Conn) : UInt32 × Conn := ((c.lastSend + 1).toUInt32,{ c with lastSend := c.lastSend + 1 })

def updateCompletions (c : Conn) (wrId : UInt64) : Conn :=
  if wrId ≤ c.lastSendCompl then c else { c with lastSendCompl := wrId }

def spins (c : Conn) (wrId : UInt32) : Bool := 0 < cmpCounters wrId c.lastSendCompl.toUInt32

def limited (c : Conn) (wrId : UInt32) : Bool := maxSendQueueSize ≤ diffCounters wrId c.lastSendCompl.toUInt32

end Conn

section counters
variable {a b : UInt32}

theorem cmpPositive (low : b.toNat < a.toNat) (near : a.toNat - b.toNat < 2147483647) : cmpCounters a b = 1 := by
  have differ : a ≠ b := fun same => by simp [same] at low
  have less : a - b < uint32Max / 2 := by
    rw [UInt32.lt_iff_toNat_lt,UInt32.toNat_sub_of_le _ _ (UInt32.le_iff_toNat_le.mpr (Nat.le_of_lt low))]
    exact near
  rw [cmpCounters,if_neg differ,if_pos less]

theorem cmpNotPositive (high : a.toNat ≤ b.toNat) (near : b.toNat - a.toNat ≤ 2147483649) : cmpCounters a b ≤ 0 := by
  rw [cmpCounters]
  split
  · decide
  · rename_i differ
    have other : a.toNat ≠ b.toNat := fun same => differ (UInt32.toNat_inj.mp same)
    rw [if_neg]
    · decide
    · rw [UInt32.lt_iff_toNat_lt,UInt32.toNat_sub,Nat.not_lt]
      have half : (uint32Max / 2).toNat = 2147483647 := rfl
      have small := b.toNat_lt
      rw [half]
      omega

theorem diffExact (high : b.toNat ≤ a.toNat) (near : a.toNat - b.toNat < 2147483648) : diffCounters a b = a.toNat - b.toNat := by
  rw [diffCounters,if_pos (UInt32.le_iff_toNat_le.mpr high)]
  have value : (a - b).toBitVec.toNat = a.toNat - b.toNat := UInt32.toNat_sub_of_le _ _ (UInt32.le_iff_toNat_le.mpr high)
  rw [BitVec.toInt_eq_toNat_of_lt (by rw [value]; omega),value]
  omega

theorem cmpBehind (far : a.toNat + 2147483649 < b.toNat) : cmpCounters a b = 1 := by
  have differ : a ≠ b := fun same => by simp [same] at far
  have less : a - b < uint32Max / 2 := by
    rw [UInt32.lt_iff_toNat_lt,UInt32.toNat_sub]
    have half : (uint32Max / 2).toNat = 2147483647 := rfl
    have small := b.toNat_lt
    rw [half]
    omega
  rw [cmpCounters,if_neg differ,if_pos less]

end counters

def drawIds : Nat → Conn → List UInt32 × Conn
  | 0,c => ([],c)
  | k+1,c => (c.nextWrId.1::(drawIds k c.nextWrId.2).1,(drawIds k c.nextWrId.2).2)

/- `drawn` is the message whose id is drawn and that is not posted, `sq` the requests not completed. -/
structure Queue where
  conn : Conn
  drawn : Option UInt32
  sq : List UInt32
  completed : List UInt32
  deriving DecidableEq, Repr

namespace Queue

def init : Queue := ⟨⟨0,0⟩,none,[],[]⟩

inductive Action where
  | operation (count : Nat)
  | draw
  | post
  | complete
  deriving DecidableEq, Repr

def step (s : Queue) : Action → Option Queue
  | .operation count =>
    if count = 0 ∨ s.drawn ≠ none ∨ s.conn.limited s.conn.currentWrId then none
    else
      let r := drawIds count s.conn
      some { s with conn := r.2, sq := s.sq ++ r.1 }
  | .draw =>
    if s.drawn ≠ none then none
    else some { s with conn := s.conn.nextWrId.2, drawn := some s.conn.nextWrId.1 }
  | .post =>
    s.drawn.bind fun wrId => if s.conn.limited wrId then none else some { s with drawn := none, sq := s.sq ++ [wrId] }
  | .complete =>
    match s.sq with
    | [] => none
    | wrId::rest => some { s with conn := s.conn.updateCompletions wrId.toUInt64, sq := rest, completed := s.completed ++ [wrId] }

def Bounded (s : Queue) : Action → Prop
  | .operation count => s.sq.length + count < maxSendQueueSize
  | .post => s.sq.length + 1 < maxSendQueueSize
  | _ => True
instance (s : Queue) (a : Action) : Decidable (Bounded s a) := by
  cases a <;> simp only [Bounded] <;> infer_instance

def outstanding (s : Queue) : Nat := s.sq.length + s.drawn.toList.length

/- A waiter of a completed request does not spin, and the rate limiter delays if and only if the send queue is
used up. -/
structure Exact (s : Queue) : Prop where
  returns : ∀ wrId ∈ s.completed, s.conn.spins wrId = false
  limits : s.conn.limited s.conn.currentWrId = true ↔ maxSendQueueSize ≤ s.outstanding

def ids (n : Nat) : List UInt32 := (List.range n).map fun i => UInt32.ofNat (i + 1)

structure Counted (n : Nat) (s : Queue) : Prop where
  issued : s.completed ++ s.sq ++ s.drawn.toList = ids n
  send : s.conn.lastSend = UInt64.ofNat n
  compl : s.conn.lastSendCompl.toNat = min s.completed.length 4294967295
  fits : s.sq.length < maxSendQueueSize

theorem idsAppend (n k : Nat) : ids (n + k) = ids n ++ (List.range k).map fun i => UInt32.ofNat (n + i + 1) := by
  simp only [ids,List.range_add,List.map_append,List.map_map]
  rfl

theorem nextExact {c : Conn} {n : Nat} (send : c.lastSend = UInt64.ofNat n) :
    c.nextWrId.1 = UInt32.ofNat (n + 1) ∧ c.nextWrId.2 = { c with lastSend := UInt64.ofNat (n + 1) } := by
  have sum : c.lastSend + 1 = UInt64.ofNat (n + 1) := by rw [send]; simp
  simp [Conn.nextWrId,sum]

theorem drawExact {c : Conn} {n : Nat} (k : Nat) (send : c.lastSend = UInt64.ofNat n) :
    drawIds k c = ((List.range k).map fun i => UInt32.ofNat (n + i + 1),{ c with lastSend := UInt64.ofNat (n + k) }) := by
  induction k generalizing c n with
  | zero => simp [drawIds,← send]
  | succ k ih =>
    obtain ⟨first,next⟩ := nextExact send
    have rest := @ih c.nextWrId.2 (n + 1) (by rw [next])
    rw [drawIds,rest,first,next,List.range_succ_eq_map,List.map_cons,List.map_map,Nat.add_assoc n 1 k,Nat.add_comm 1 k]
    refine Prod.ext (congrArg (List.cons _) (List.map_congr_left fun i _ => ?_)) rfl
    show UInt32.ofNat (n + 1 + i + 1) = UInt32.ofNat (n + (i + 1) + 1)
    rw [Nat.add_right_comm n 1 i,Nat.add_assoc n i 1]

theorem idSmall {n : Nat} (small : n < 4294967296) : (UInt32.ofNat n).toNat = n := by
  simp [Nat.mod_eq_of_lt small]

section counted
variable {n : Nat} {s t : Queue} (h : Counted n s)
include h

theorem countedTotal : n = s.completed.length + s.outstanding := by
  have lengths := congrArg List.length h.issued
  simp only [List.length_append,ids,List.length_map,List.length_range] at lengths
  simp only [outstanding]
  omega

theorem issuedId {i : Nat} {wrId : UInt32} (here : (s.completed ++ s.sq)[i]? = some wrId) : wrId = UInt32.ofNat (i + 1) := by
  have inside : i < (s.completed ++ s.sq).length := (List.getElem?_eq_some_iff.mp here).1
  have whole : (ids n)[i]? = some wrId := by
    rw [← h.issued,List.getElem?_append_left inside]
    exact here
  simp only [ids,List.getElem?_map,Option.map_eq_some_iff] at whole
  obtain ⟨j,listed,rfl⟩ := whole
  rw [← (List.getElem?_eq_some_iff.mp listed).2,List.getElem_range]

theorem completedId {i : Nat} {wrId : UInt32} (here : s.completed[i]? = some wrId) : wrId = UInt32.ofNat (i + 1) :=
  issuedId h (by rw [List.getElem?_append_left (List.getElem?_eq_some_iff.mp here).1]; exact here)

theorem oldestId {wrId : UInt32} {rest : List UInt32} (oldest : s.sq = wrId::rest) :
    wrId = UInt32.ofNat (s.completed.length + 1) := by
  refine issuedId h ?_
  rw [List.getElem?_append_right (Nat.le_refl _),Nat.sub_self,oldest]
  rfl

theorem operationCounted {count : Nat} (bounded : s.sq.length + count < maxSendQueueSize)
    (taken : step s (.operation count) = some t) : Counted (n + count) t := by
  obtain ⟨free,taken⟩ := Option.ite_none_left_eq_some.mp taken
  have none : s.drawn = none := by
    by_contra some
    exact free (.inr (.inl some))
  have issued := h.issued
  rw [none,Option.toList_none,List.append_nil] at issued
  cases taken
  rw [drawExact count h.send]
  refine ⟨?_,rfl,h.compl,?_⟩
  · simp only [none,Option.toList_none,List.append_nil]
    rw [← List.append_assoc,issued,idsAppend]
  · simpa using bounded

theorem drawCounted (taken : step s .draw = some t) : Counted (n + 1) t := by
  obtain ⟨free,taken⟩ := Option.ite_none_left_eq_some.mp taken
  have none : s.drawn = none := not_not.mp free
  have issued := h.issued
  rw [none,Option.toList_none,List.append_nil] at issued
  obtain ⟨first,next⟩ := nextExact h.send
  cases taken
  rw [first,next]
  refine ⟨?_,rfl,h.compl,h.fits⟩
  simp only [Option.toList_some]
  rw [issued,idsAppend]
  rfl

theorem postCounted (bounded : s.sq.length + 1 < maxSendQueueSize) (taken : step s .post = some t) : Counted n t := by
  obtain ⟨wrId,waiting,taken⟩ := Option.bind_eq_some_iff.mp taken
  split at taken <;> try contradiction
  have issued := h.issued
  rw [waiting,Option.toList_some] at issued
  cases taken
  refine ⟨?_,h.send,h.compl,?_⟩
  · simp only [Option.toList_none,List.append_nil]
    rw [← List.append_assoc,issued]
  · simpa using bounded

theorem completeCounted (taken : step s .complete = some t) : Counted n t := by
  simp only [step] at taken
  split at taken <;> try contradiction
  rename_i wrId rest oldest
  have issued := h.issued
  have fits := h.fits
  have first := oldestId h oldest
  rw [oldest] at issued fits
  cases taken
  have compl := h.compl
  refine ⟨?_,?_,?_,Nat.lt_of_succ_lt fits⟩
  · rw [← issued]
    simp
  · simp only [Conn.updateCompletions]
    split <;> exact h.send
  · have id : wrId.toUInt64.toNat = (s.completed.length + 1) % 4294967296 := by rw [first]; simp
    simp only [Conn.updateCompletions,UInt64.le_iff_toNat_le,id,List.length_append,List.length_singleton]
    split
    · rename_i late
      omega
    · rename_i early
      rw [id]
      omega

end counted

theorem reachCounted {s : Queue} (h : Reach step Bounded init s) : ∃ n, Counted n s := by
  refine reachInvariant (fun s => ∃ n, Counted n s) ⟨0,rfl,rfl,rfl,by decide⟩ (fun t a r ⟨n,h⟩ bounded taken => ?_) h
  cases a with
  | operation count => exact ⟨_,operationCounted h bounded taken⟩
  | draw => exact ⟨_,drawCounted h taken⟩
  | post => exact ⟨_,postCounted h bounded taken⟩
  | complete => exact ⟨_,completeCounted h taken⟩

theorem spinsIff {c : Conn} {wrId : UInt32} : c.spins wrId = false ↔ cmpCounters wrId c.lastSendCompl.toUInt32 ≤ 0 := by
  simp [Conn.spins]

theorem limitedIff {n : Nat} {s : Queue} (h : Counted n s) (small : n < 4294967296) :
    s.conn.limited s.conn.currentWrId = true ↔ maxSendQueueSize ≤ s.outstanding := by
  have all := countedTotal h
  have fits := h.fits
  have one : s.drawn.toList.length ≤ 1 := by cases s.drawn <;> simp
  have compl : s.conn.lastSendCompl.toUInt32.toNat = s.completed.length := by
    rw [UInt64.toNat_toUInt32,h.compl]
    omega
  have current : s.conn.currentWrId.toNat = n := by
    rw [Conn.currentWrId,h.send,UInt64.toNat_toUInt32,UInt64.toNat_ofNat']
    omega
  have near : n - s.completed.length ≤ 50 := by
    simp only [maxSendQueueSize] at fits
    simp only [outstanding] at all
    omega
  have diff := @diffExact s.conn.currentWrId s.conn.lastSendCompl.toUInt32 (by omega) (by omega)
  simp only [Conn.limited,diff,current,compl,decide_eq_true_eq,maxSendQueueSize]
  omega

theorem countedExact {n : Nat} {s : Queue} (h : Counted n s) (early : s.completed.length ≤ 2147483650) : Exact s := by
  have all := countedTotal h
  have fits := h.fits
  have one : s.drawn.toList.length ≤ 1 := by cases s.drawn <;> simp
  refine ⟨fun wrId done => spinsIff.mpr ?_,limitedIff h ?_⟩
  · have compl : s.conn.lastSendCompl.toUInt32.toNat = s.completed.length := by
      rw [UInt64.toNat_toUInt32,h.compl]
      omega
    obtain ⟨i,here⟩ := List.mem_iff_getElem?.mp done
    have inside : i < s.completed.length := (List.getElem?_eq_some_iff.mp here).1
    have id : wrId.toNat = i + 1 := by
      rw [completedId h here]
      exact idSmall (by omega)
    exact cmpNotPositive (by omega) (by omega)
  · simp only [maxSendQueueSize] at fits
    simp only [outstanding] at all
    omega

theorem countedLate {n : Nat} {s : Queue} (h : Counted n s) (late : 2147483650 < s.completed.length) : ¬Exact s := by
  intro exact_
  have first : s.completed[0]? = some 1 := by
    have here : s.completed[0]? = some (s.completed[0]) := List.getElem?_eq_getElem (by omega)
    rw [here,completedId h here]
    rfl
  have returned := spinsIff.mp (exact_.returns 1 (List.mem_of_getElem? first))
  have behind := @cmpBehind 1 s.conn.lastSendCompl.toUInt32 (by
    rw [UInt64.toNat_toUInt32,h.compl]
    have one : (1 : UInt32).toNat = 1 := rfl
    omega)
  omega

theorem waitsExactIff {s : Queue} (h : Reach step Bounded init s) : Exact s ↔ s.completed.length ≤ 2147483650 := by
  obtain ⟨n,counted⟩ := reachCounted h
  refine ⟨fun exact_ => ?_,countedExact counted⟩
  by_contra late
  exact countedLate counted (by omega) exact_

def mixed : List Action := [.draw,.post,.operation 2,.complete,.draw,.complete]

theorem waitsExactMixed : ∃ s, Reach step Bounded init s ∧ s.completed = [1,2] ∧ s.outstanding = 2 ∧ Exact s := by
  obtain ⟨s,reached,done,left⟩ : ∃ s, Reach step Bounded init s ∧ s.completed = [1,2] ∧ s.outstanding = 2 :=
    traceReach mixed (by decide +kernel)
  exact ⟨s,reached,done,left,(waitsExactIff reached).mpr (by rw [done]; decide)⟩

theorem roundsReach (m : Nat) (small : m ≤ 4294967296) :
    ∃ s, Reach step Bounded init s ∧ s.completed.length = m ∧ s.sq = [] ∧ s.drawn = none := by
  induction m with
  | zero => exact ⟨init,.start,rfl,rfl,rfl⟩
  | succ m ih =>
    obtain ⟨s,reached,length,empty,none⟩ := ih (by omega)
    obtain ⟨n,counted⟩ := reachCounted reached
    have all := countedTotal counted
    have idle : s.outstanding = 0 := by rw [outstanding,empty,none]; rfl
    have free : s.conn.limited s.conn.currentWrId = false := by
      rw [Bool.eq_false_iff]
      intro delayed
      have full := (limitedIff counted (by omega)).mp delayed
      rw [idle] at full
      exact absurd full (by decide)
    have posted : step s (.operation 1) = some { s with conn := s.conn.nextWrId.2, sq := [s.conn.nextWrId.1] } := by
      simp [step,none,free,drawIds,empty]
    have bounded : Bounded s (.operation 1) := by
      show s.sq.length + 1 < maxSendQueueSize
      rw [empty]
      decide
    refine ⟨_,.next (.next reached bounded posted) (show Bounded _ .complete from trivial) rfl,?_,rfl,none⟩
    simp [length]

theorem wrappedWaitSpins : ¬∀ s, Reach step Bounded init s → Exact s := by
  intro claim
  obtain ⟨s,reached,length,_,_⟩ := roundsReach 4294967296 (Nat.le_refl _)
  obtain ⟨n,counted⟩ := reachCounted reached
  have here : s.completed[4294967295]? = some s.completed[4294967295] := List.getElem?_eq_getElem (by omega)
  have id : s.completed[4294967295] = 0 := (completedId counted here).trans (by decide)
  have compl : s.conn.lastSendCompl = 4294967295 := by
    rw [← UInt64.toNat_inj,counted.compl,length]
    rfl
  have returned := (claim s reached).returns 0 (List.mem_of_getElem? (here.trans (congrArg some id)))
  rw [Conn.spins,compl] at returned
  exact absurd returned (by decide)

end Queue

/- A call waits at the rate limiter with the id it read there and the length of its chain, has drawn the id of a
message, or has returned an id. -/
inductive Phase where
  | idle
  | waiting (curWrId : UInt32) (count : Nat)
  | drawn (wrId : UInt32)
  | returned (wrId : UInt32)
  deriving DecidableEq, Repr

structure Request where
  wrId : UInt32
  call : Nat
  deriving DecidableEq, Repr

/- `sq` has the requests of all threads in the order they were posted, of which the first `done` are completed. -/
structure Sends where
  conn : Conn
  calls : Nat
  phase : Nat → Phase
  sq : List Request
  done : Nat

namespace Sends

def init : Sends := ⟨⟨0,0⟩,0,fun _ => .idle,[],0⟩

inductive Action where
  | enter (count : Nat)
  | operation (call : Nat)
  | draw
  | post (call : Nat)
  | complete
  deriving DecidableEq, Repr

def setPhase (s : Sends) (call : Nat) (p : Phase) : Sends := { s with phase := Function.update s.phase call p }

def step (s : Sends) : Action → Option Sends
  | .enter count =>
    if count = 0 then none
    else some { s.setPhase s.calls (.waiting s.conn.currentWrId count) with calls := s.calls + 1 }
  | .operation call =>
    match s.phase call with
    | .waiting curWrId count =>
      if s.conn.limited curWrId then none
      else
        let r := drawIds count s.conn
        r.1.head?.map fun head =>
          { s.setPhase call (.returned head) with conn := r.2, sq := s.sq ++ r.1.map fun wrId => ⟨wrId,call⟩ }
    | _ => none
  | .draw => some { s.setPhase s.calls (.drawn s.conn.nextWrId.1) with conn := s.conn.nextWrId.2, calls := s.calls + 1 }
  | .post call =>
    match s.phase call with
    | .drawn wrId =>
      if s.conn.limited wrId then none else some { s.setPhase call (.returned wrId) with sq := s.sq ++ [⟨wrId,call⟩] }
    | _ => none
  | .complete => s.sq[s.done]?.map fun q => { s with conn := s.conn.updateCompletions q.wrId.toUInt64, done := s.done + 1 }

def NeverEarly (s : Sends) : Prop :=
  ∀ call wrId, s.phase call = .returned wrId → s.conn.spins wrId = false →
    ∀ i q, s.sq[i]? = some q → q.call = call → i < s.done

-- The next id has not wrapped and is less than half the circle ahead of the completions.
def Roomy (c : Conn) : Prop := c.lastSend.toNat + 1 < 4294967296 ∧ c.lastSend.toNat + 1 - c.lastSendCompl.toNat < 2147483647
deriving Decidable

def isDrawn : Phase → Option UInt32
  | .drawn wrId => some wrId
  | _ => none

/- No chains, and ids are posted in the order they were drawn. -/
def InOrder (s : Sends) : Action → Prop
  | .enter count => count = 1
  | .operation _ => Roomy s.conn ∧ ∀ c < s.calls, isDrawn (s.phase c) = none
  | .draw => Roomy s.conn
  | .post call => ∀ c < s.calls, ∀ wrId ∈ isDrawn (s.phase call), ∀ other ∈ isDrawn (s.phase c), wrId ≤ other
  | .complete => True
instance (s : Sends) : (a : Action) → Decidable (InOrder s a)
  | .enter _ => inferInstanceAs (Decidable (_ = _))
  | .operation _ => inferInstanceAs (Decidable (_ ∧ _))
  | .draw => inferInstanceAs (Decidable (Roomy _))
  | .post _ => @Nat.decidableBallLT _ _ fun _ _ => @Option.decidableForallMem _ _ (fun _ => @Option.decidableForallMem _ _ _ _) _
  | .complete => .isTrue trivial

structure Ordered (s : Sends) : Prop where
  fresh : ∀ c, s.calls ≤ c → s.phase c = .idle
  small : s.conn.lastSend.toNat < 4294967296
  near : s.conn.lastSend.toNat - s.done < 2147483647
  compl : s.conn.lastSendCompl.toNat = s.done
  posted : s.done ≤ s.sq.length ∧ s.sq.length ≤ s.conn.lastSend.toNat
  single : ∀ c cur count, s.phase c = .waiting cur count → count = 1
  place : ∀ i q, s.sq[i]? = some q → q.wrId.toNat = i + 1 ∧ s.phase q.call = .returned q.wrId
  range : ∀ c wrId, s.phase c = .drawn wrId → s.sq.length < wrId.toNat ∧ wrId.toNat ≤ s.conn.lastSend.toNat
  apart : ∀ c d wrId, s.phase c = .drawn wrId → s.phase d = .drawn wrId → c = d
  whole : ∀ k, s.sq.length < k → k ≤ s.conn.lastSend.toNat → ∃ c wrId, s.phase c = .drawn wrId ∧ wrId.toNat = k

theorem orderedNeverEarly {s : Sends} (h : Ordered s) : NeverEarly s := by
  intro call wrId returned ends i q here mine
  obtain ⟨place,phase⟩ := h.place i q here
  rw [mine,returned] at phase
  have id : wrId.toNat = i + 1 := by rw [Phase.returned.inj phase]; exact place
  have listed : i < s.sq.length := (List.getElem?_eq_some_iff.mp here).1
  by_contra late
  have compl : s.conn.lastSendCompl.toUInt32.toNat = s.done := by
    have done := h.posted
    have small := h.small
    rw [UInt64.toNat_toUInt32,h.compl]
    omega
  have ahead := @cmpPositive wrId s.conn.lastSendCompl.toUInt32 (by omega) (by
    have posted := h.posted
    have near := h.near
    omega)
  rw [Conn.spins,ahead] at ends
  exact absurd ends (by decide)

theorem phaseSet (s : Sends) (call : Nat) (p : Phase) (c : Nat) : (s.setPhase call p).phase c = if c = call then p else s.phase c :=
  Function.update_apply ..

theorem nextRoomy {c : Conn} (roomy : Roomy c) : c.nextWrId.1.toNat = c.lastSend.toNat + 1 ∧
    c.nextWrId.2.lastSend.toNat = c.lastSend.toNat + 1 ∧ c.nextWrId.2.lastSendCompl = c.lastSendCompl := by
  have one : (1 : UInt64).toNat = 1 := rfl
  have small := roomy.1
  simp only [Conn.nextWrId,UInt64.toNat_toUInt32,UInt64.toNat_add,one]
  refine ⟨?_,?_,trivial⟩ <;> omega

section steps
variable {s t : Sends} (h : Ordered s)
include h

theorem freshStarted (p : Phase) {c : Nat} (later : s.calls + 1 ≤ c) : (s.setPhase s.calls p).phase c = .idle := by
  rw [phaseSet,if_neg (Nat.ne_of_gt later)]
  exact h.fresh c (Nat.le_of_succ_le later)

theorem placeStarted (p : Phase) {i : Nat} {q : Request} (here : s.sq[i]? = some q) :
    q.wrId.toNat = i + 1 ∧ (s.setPhase s.calls p).phase q.call = .returned q.wrId := by
  obtain ⟨id,phase⟩ := h.place i q here
  refine ⟨id,?_⟩
  rw [phaseSet,if_neg,phase]
  intro same
  rw [same,h.fresh s.calls (Nat.le_refl _)] at phase
  cases phase

theorem enterOrdered {count : Nat} (single : count = 1) (taken : step s (.enter count) = some t) : Ordered t := by
  obtain ⟨_,rfl⟩ := unlessTaken taken
  have idle := h.fresh s.calls (Nat.le_refl _)
  have drawn {c : Nat} {wrId : UInt32} : (s.setPhase s.calls (.waiting s.conn.currentWrId count)).phase c = .drawn wrId ↔
      s.phase c = .drawn wrId := by
    rw [phaseSet]
    split
    · rename_i same
      simp [same,idle]
    · rfl
  refine ⟨fun c later => freshStarted h _ later,h.small,h.near,h.compl,h.posted,fun c cur k here => ?_,
    fun i q here => placeStarted h _ here,fun c wrId here => h.range c wrId (drawn.mp here),
    fun c d wrId here there => h.apart c d wrId (drawn.mp here) (drawn.mp there),fun k low high => ?_⟩
  · rw [phaseSet] at here
    split at here
    · cases here
      exact single
    · exact h.single c cur k here
  · obtain ⟨c,wrId,here,id⟩ := h.whole k low high
    exact ⟨c,wrId,drawn.mpr here,id⟩

theorem drawOrdered (roomy : Roomy s.conn) (taken : step s .draw = some t) : Ordered t := by
  cases taken
  obtain ⟨id,send,compl⟩ := nextRoomy roomy
  have idle := h.fresh s.calls (Nat.le_refl _)
  have posted := h.posted
  have near := roomy.2
  have last : s.conn.lastSendCompl.toNat = (s.setPhase s.calls (.drawn s.conn.nextWrId.1)).done := h.compl
  have drawn {c : Nat} {wrId : UInt32} : (s.setPhase s.calls (.drawn s.conn.nextWrId.1)).phase c = .drawn wrId ↔
      c = s.calls ∧ wrId = s.conn.nextWrId.1 ∨ s.phase c = .drawn wrId := by
    rw [phaseSet]
    split
    · rename_i same
      simp [same,idle,eq_comm]
    · rename_i other
      simp [other]
  refine ⟨fun c later => freshStarted h _ later,?_,?_,?_,?_,fun c cur k here => ?_,fun i q here => placeStarted h _ here,
    fun c wrId here => ?_,fun c d wrId here there => ?_,fun k low high => ?_⟩
  · rw [send]
    exact roomy.1
  · rw [send,← last]
    exact near
  · rw [compl]
    exact last
  · rw [send]
    exact ⟨posted.1,Nat.le_succ_of_le posted.2⟩
  · rw [phaseSet] at here
    split at here
    · cases here
    · exact h.single c cur k here
  · rw [send]
    rcases drawn.mp here with ⟨_,rfl⟩ | old
    · rw [id]
      exact ⟨Nat.lt_succ_of_le posted.2,Nat.le_refl _⟩
    · have range := h.range c wrId old
      exact ⟨range.1,Nat.le_succ_of_le range.2⟩
  · rcases drawn.mp here with ⟨rfl,new⟩ | old <;> rcases drawn.mp there with ⟨rfl,new'⟩ | old'
    · rfl
    · have range := (h.range d wrId old').2
      rw [new,id] at range
      omega
    · have range := (h.range c wrId old).2
      rw [new',id] at range
      omega
    · exact h.apart c d wrId old old'
  · rw [send] at high
    by_cases last : k = s.conn.lastSend.toNat + 1
    · exact ⟨s.calls,s.conn.nextWrId.1,drawn.mpr (.inl ⟨rfl,rfl⟩),id.trans last.symm⟩
    · obtain ⟨c,wrId,here,id⟩ := h.whole k low (by omega)
      exact ⟨c,wrId,drawn.mpr (.inr here),id⟩

theorem postedOrdered {call : Nat} {wrId : UInt32} {c : Conn} (id : wrId.toNat = s.sq.length + 1) (send : c.lastSend.toNat < 4294967296)
    (near : c.lastSend.toNat - s.done < 2147483647) (compl : c.lastSendCompl = s.conn.lastSendCompl)
    (reached : s.sq.length + 1 ≤ c.lastSend.toNat) (started : call < s.calls)
    (unposted : ∀ q ∈ s.sq, q.call ≠ call)
    (range : ∀ d other, d ≠ call → s.phase d = .drawn other → s.sq.length + 1 < other.toNat ∧ other.toNat ≤ c.lastSend.toNat)
    (whole : ∀ k, s.sq.length + 1 < k → k ≤ c.lastSend.toNat → ∃ d other, d ≠ call ∧ s.phase d = .drawn other ∧ other.toNat = k) :
    Ordered { s.setPhase call (.returned wrId) with conn := c, sq := s.sq ++ [⟨wrId,call⟩] } := by
  have drawn {d : Nat} {other : UInt32} : (s.setPhase call (.returned wrId)).phase d = .drawn other ↔
      d ≠ call ∧ s.phase d = .drawn other := by
    rw [phaseSet]
    split
    · rename_i same
      simp [same]
    · rename_i differ
      simp [differ]
  refine ⟨fun d later => ?_,send,near,?_,?_,fun d cur k here => ?_,fun i q here => ?_,fun d other here => ?_,
    fun d e other here there => ?_,fun k low high => ?_⟩
  · rw [phaseSet,if_neg (Nat.ne_of_gt (Nat.lt_of_lt_of_le started later))]
    exact h.fresh d later
  · rw [compl]
    exact h.compl
  · rw [List.length_append]
    exact ⟨Nat.le_succ_of_le h.posted.1,reached⟩
  · rw [phaseSet] at here
    split at here
    · cases here
    · exact h.single d cur k here
  · by_cases old : i < s.sq.length
    · rw [List.getElem?_append_left old] at here
      obtain ⟨place,phase⟩ := h.place i q here
      exact ⟨place,by rw [phaseSet,if_neg (unposted q (List.mem_of_getElem? here))]; exact phase⟩
    · rw [List.getElem?_append_right (Nat.le_of_not_lt old)] at here
      have first : i - s.sq.length = 0 := by
        have := (List.getElem?_eq_some_iff.mp here).1
        simp only [List.length_singleton] at this
        omega
      rw [first] at here
      cases here
      exact ⟨by simp only; omega,by rw [phaseSet,if_pos rfl]⟩
  · rw [List.length_append]
    exact range d other (drawn.mp here).1 (drawn.mp here).2
  · exact h.apart d e other (drawn.mp here).2 (drawn.mp there).2
  · rw [List.length_append] at low
    obtain ⟨d,other,differ,here,id⟩ := whole k low high
    exact ⟨d,other,drawn.mpr ⟨differ,here⟩,id⟩

theorem notPosted {call : Nat} (active : ∀ wrId, s.phase call ≠ .returned wrId) : ∀ q ∈ s.sq, q.call ≠ call := by
  intro q mem same
  obtain ⟨i,here⟩ := List.mem_iff_getElem?.mp mem
  have phase := (h.place i q here).2
  rw [same] at phase
  exact active _ phase

theorem begun {call : Nat} (active : s.phase call ≠ .idle) : call < s.calls := by
  by_contra later
  exact active (h.fresh call (Nat.le_of_not_lt later))

theorem postOrdered {call : Nat}
    (oldest : ∀ c < s.calls, ∀ wrId ∈ isDrawn (s.phase call), ∀ other ∈ isDrawn (s.phase c), wrId ≤ other)
    (taken : step s (.post call) = some t) : Ordered t := by
  simp only [step] at taken
  split at taken <;> try contradiction
  rename_i wrId mine
  obtain ⟨_,rfl⟩ := unlessTaken taken
  have range := h.range call wrId mine
  obtain ⟨c,other,first,next⟩ := h.whole (s.sq.length + 1) (Nat.lt_succ_self _) (by omega)
  have below : wrId ≤ other :=
    oldest c (begun h (by rw [first]; exact nofun)) wrId (by rw [mine]; rfl) other (by rw [first]; rfl)
  have id : wrId.toNat = s.sq.length + 1 := by
    have := UInt32.le_iff_toNat_le.mp below
    omega
  have reached : s.sq.length + 1 ≤ s.conn.lastSend.toNat := by omega
  refine postedOrdered h id h.small h.near rfl reached (begun h (by rw [mine]; exact nofun))
    (notPosted h (by rw [mine]; exact nofun)) (fun d o differ there => ?_) fun k low high => ?_
  · have wide := h.range d o there
    refine ⟨?_,wide.2⟩
    by_contra same
    have equal : o = wrId := UInt32.toNat_inj.mp (by omega)
    subst equal
    exact differ (h.apart d call o there mine)
  · obtain ⟨d,o,there,value⟩ := h.whole k (by omega) high
    refine ⟨d,o,fun same => ?_,there,value⟩
    rw [same,mine] at there
    rw [← Phase.drawn.inj there] at value
    omega

theorem operationOrdered {call : Nat} (roomy : Roomy s.conn) (none : ∀ c < s.calls, isDrawn (s.phase c) = none)
    (taken : step s (.operation call) = some t) : Ordered t := by
  simp only [step] at taken
  split at taken <;> try contradiction
  rename_i cur count mine
  split at taken <;> try contradiction
  obtain rfl := h.single call cur count mine
  cases taken
  obtain ⟨id,send,compl⟩ := nextRoomy roomy
  have undrawn (c : Nat) (wrId : UInt32) : s.phase c ≠ .drawn wrId := by
    intro there
    have blank := none c (begun h (by rw [there]; exact nofun))
    rw [there] at blank
    cases blank
  have level : s.sq.length = s.conn.lastSend.toNat := by
    by_contra differ
    have posted := h.posted
    obtain ⟨c,wrId,there,_⟩ := h.whole s.conn.lastSend.toNat (by omega) (Nat.le_refl _)
    exact undrawn c wrId there
  have small : s.conn.nextWrId.2.lastSend.toNat < 4294967296 := by rw [send]; exact roomy.1
  have near : s.conn.nextWrId.2.lastSend.toNat - s.done < 2147483647 := by rw [send,← h.compl]; exact roomy.2
  have reached : s.sq.length + 1 ≤ s.conn.nextWrId.2.lastSend.toNat := by rw [send,level]
  refine postedOrdered h (by rw [level]; exact id) small near compl reached (begun h (by rw [mine]; exact nofun))
    (notPosted h (by rw [mine]; exact nofun)) (fun d o _ there => absurd there (undrawn d o)) fun k low high => ?_
  have high : k ≤ s.conn.nextWrId.2.lastSend.toNat := high
  omega

theorem completeOrdered (taken : step s .complete = some t) : Ordered t := by
  obtain ⟨q,here,rfl⟩ := Option.map_eq_some_iff.mp taken
  obtain ⟨id,_⟩ := h.place s.done q here
  have listed : s.done < s.sq.length := (List.getElem?_eq_some_iff.mp here).1
  have moved : s.conn.updateCompletions q.wrId.toUInt64 = { s.conn with lastSendCompl := q.wrId.toUInt64 } := by
    have value : q.wrId.toUInt64.toNat = s.done + 1 := by rw [UInt32.toNat_toUInt64]; exact id
    rw [Conn.updateCompletions,if_neg]
    rw [UInt64.le_iff_toNat_le,value,h.compl]
    omega
  rw [moved]
  have near := h.near
  exact ⟨h.fresh,h.small,by show s.conn.lastSend.toNat - (s.done + 1) < _; omega,
    by show q.wrId.toUInt64.toNat = s.done + 1; rw [UInt32.toNat_toUInt64]; exact id,⟨listed,h.posted.2⟩,h.single,h.place,h.range,
    h.apart,h.whole⟩

end steps

theorem initOrdered : Ordered init :=
  ⟨fun _ _ => rfl,by decide,by decide,rfl,by decide,nofun,nofun,nofun,nofun,fun k low high => by
    have none : k ≤ 0 := high
    have some : 0 < k := low
    omega⟩

theorem inOrderNeverEarly {s : Sends} (h : Reach step InOrder init s) : NeverEarly s := by
  refine orderedNeverEarly (reachInvariant Ordered initOrdered (fun t a r ordered allowed taken => ?_) h)
  cases a with
  | enter count => exact enterOrdered ordered allowed taken
  | operation call => exact operationOrdered ordered allowed.1 allowed.2 taken
  | draw => exact drawOrdered ordered allowed taken
  | post call => exact postOrdered ordered allowed taken
  | complete => exact completeOrdered ordered taken

def threads : List Action := [.enter 1,.draw,.draw,.post 1,.post 2,.operation 0,.complete,.complete]

theorem inOrderNeverEarlyThreads : ∃ s, Reach step InOrder init s ∧ s.phase 2 = .returned 2 ∧ s.conn.spins 2 = false ∧
    s.conn.spins 3 = true ∧ NeverEarly s := by
  obtain ⟨s,reached,shape⟩ : ∃ s, Reach step InOrder init s ∧ s.phase 2 = .returned 2 ∧ s.conn.spins 2 = false ∧
      s.conn.spins 3 := traceReach threads (by decide +kernel)
  exact ⟨s,reached,shape.1,shape.2.1,shape.2.2,inOrderNeverEarly reached⟩

/- A chain of two requests returns the id of the first one, and the wait ends with it. -/
theorem chainWaitEarly : ¬∀ s, Reach step Any init s → NeverEarly s := by
  intro claim
  obtain ⟨s,reached,shape⟩ : ∃ s, Reach step Any init s ∧ s.phase 0 = .returned 1 ∧ s.conn.spins 1 = false ∧
      s.sq[1]? = some ⟨2,0⟩ ∧ s.done = 1 := traceAny [.enter 2,.operation 0,.complete] (by decide +kernel)
  obtain ⟨returned,ends,tail,done⟩ := shape
  have finished := claim s reached 0 1 returned ends 1 _ tail rfl
  omega

end Sends

end LineFS.Verbs
