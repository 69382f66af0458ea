import LineFS.Base.Run
import Mathlib.Logic.Function.Basic
import Mathlib.Tactic.Linarith

/-! The send buffers of one connection. `_rc_acquire_buffer` takes them in turn by an index of 8 bits,
which wraps at 256, no multiple of the number of buffers. The adapter reads a posted buffer at some
time before the completion. -/
namespace LineFS.SendBuffer
open Base Function

def maxBuffer : Nat := 50

variable {γ : Type}

/- Messages are numbered as their buffers are acquired; of the posted ones in `sq` the adapter has read the
first `transmitted`. -/
structure State (γ : Type) where
  sendIdx : UInt8
  contents : Nat → γ
  acquired : Nat
  buffer : Nat → Nat
  wrote : Nat → γ
  sq : List Nat
  transmitted : Nat
  completed : Nat
  sent : List (Nat × γ)

inductive Action (γ : Type) where
  | acquire
  | write (message : Nat) (content : γ)
  | send (message : Nat)
  | transmit
  | complete

def rcAcquireBuffer (blank : γ) (s : State γ) : State γ :=
  let i := s.sendIdx.toNat % maxBuffer
  { s with
    sendIdx := s.sendIdx + 1
    contents := Function.update s.contents i blank
    acquired := s.acquired + 1
    buffer := Function.update s.buffer s.acquired i
    wrote := Function.update s.wrote s.acquired blank }

def step (blank : γ) (s : State γ) : Action γ → Option (State γ)
  | .acquire => some (rcAcquireBuffer blank s)
  | .write message content =>
    if message < s.acquired ∧ message ∉ s.sq then
      some { s with
        contents := Function.update s.contents (s.buffer message) content
        wrote := Function.update s.wrote message content }
    else none
  | .send message => if message < s.acquired ∧ message ∉ s.sq then some { s with sq := s.sq ++ [message] } else none
  | .transmit =>
    s.sq[s.transmitted]?.map fun message =>
      { s with transmitted := s.transmitted + 1, sent := s.sent ++ [(message,s.contents (s.buffer message))] }
  | .complete => if s.completed < s.transmitted then some { s with completed := s.completed + 1 } else none

def init (blank : γ) : State γ := ⟨0,fun _ => blank,0,fun _ => 0,fun _ => blank,[],0,0,[]⟩

def InFlight (s : State γ) (message : Nat) : Prop := message < s.acquired ∧ message ∉ s.sq.take s.completed
deriving Decidable

structure Safe (s : State γ) : Prop where
  apart : ∀ m n, InFlight s m → InFlight s n → s.buffer m = s.buffer n → m = n
  genuine : ∀ r ∈ s.sent, r.2 = s.wrote r.1

def Bounded (s : State γ) : Action γ → Prop
  | .acquire => s.acquired + 1 - s.completed < maxBuffer
  | _ => True
instance (s : State γ) (a) : Decidable (Bounded s a) := by cases a <;> unfold Bounded <;> infer_instance

/- Every message in flight is one of the last 49, and one of the last 5 when the index has
just wrapped. -/
def Recent (s : State γ) : Action γ → Prop
  | .acquire => ∀ m < s.acquired, m ∉ s.sq.take s.completed → s.acquired - m < if s.sendIdx < 6 then 6 else maxBuffer
  | _ => True
instance (s : State γ) (a) : Decidable (Recent s a) := by cases a <;> unfold Recent <;> infer_instance

def turn (n : Nat) : Nat := n % 256 % maxBuffer

theorem turnApart {m n : Nat} (before : m < n) (near : n - m < if n % 256 < 6 then 6 else maxBuffer) : turn m ≠ turn n := by
  simp only [turn,maxBuffer] at *
  have lap : m % 256 + (n - m) = n % 256 ∨ m % 256 + (n - m) = 256 + n % 256 := by
    split at near <;> omega
  have first := Nat.mod_lt m (show 256 > 0 by decide)
  have second := Nat.mod_lt n (show 256 > 0 by decide)
  generalize m % 256 = j at *
  generalize n % 256 = i at *
  rcases lap with same | next <;> split at near <;> omega

structure Kept (s : State γ) : Prop extends Safe s where
  index : s.sendIdx.toNat = s.acquired % 256
  turns : ∀ m < s.acquired, s.buffer m = turn m
  holds : ∀ m, InFlight s m → s.contents (s.buffer m) = s.wrote m
  posted : ∀ m ∈ s.sq, m < s.acquired
  once : s.sq.Nodup
  order : s.completed ≤ s.transmitted ∧ s.transmitted ≤ s.sq.length
  read : ∀ r ∈ s.sent, r.1 ∈ s.sq

section steps
variable {blank : γ} {s t : State γ} (h : Kept s)
include h

theorem acquireKept (recent : Recent s .acquire) : Kept (rcAcquireBuffer blank s) := by
  have index := h.index
  have small : (s.sendIdx < 6) = (s.acquired % 256 < 6) := by
    rw [UInt8.lt_iff_toNat_lt,index]
    rfl
  have turned : s.sendIdx.toNat % maxBuffer = turn s.acquired := by rw [turn,index]
  have older {m : Nat} (flies : InFlight (rcAcquireBuffer blank s) m) (other : m ≠ s.acquired) : InFlight s m :=
    ⟨by have := flies.1; simp only [rcAcquireBuffer] at this; omega,flies.2⟩
  have apart {m : Nat} (flies : InFlight s m) : s.buffer m ≠ turn s.acquired := by
    rw [h.turns m flies.1]
    refine turnApart flies.1 ?_
    have near := recent m flies.1 flies.2
    simp only [small] at near
    exact near
  have held {m : Nat} (flies : InFlight (rcAcquireBuffer blank s) m) (other : m ≠ s.acquired) :
      (rcAcquireBuffer blank s).buffer m = s.buffer m ∧ (rcAcquireBuffer blank s).wrote m = s.wrote m ∧ s.buffer m ≠ turn s.acquired :=
    ⟨update_of_ne other ..,update_of_ne other ..,apart (older flies other)⟩
  have new : (rcAcquireBuffer blank s).buffer s.acquired = turn s.acquired := by
    simp only [rcAcquireBuffer,update_self,turned]
  refine ⟨⟨fun m n fm fn same => ?_,fun r mem => ?_⟩,?_,fun m less => ?_,fun m flies => ?_,fun m mem => ?_,h.once,h.order,h.read⟩
  · by_cases lm : m = s.acquired <;> by_cases ln : n = s.acquired
    · rw [lm,ln]
    · obtain ⟨b,_,differ⟩ := held fn ln
      rw [lm,new,b] at same
      exact absurd same.symm differ
    · obtain ⟨b,_,differ⟩ := held fm lm
      rw [ln,new,b] at same
      exact absurd same differ
    · rw [(held fm lm).1,(held fn ln).1] at same
      exact h.apart m n (older fm lm) (older fn ln) same
  · have before := h.posted _ (h.read r mem)
    rw [h.genuine r mem]
    exact (update_of_ne (Nat.ne_of_lt before) ..).symm
  · have one : (1 : UInt8).toNat = 1 := rfl
    simp only [rcAcquireBuffer,UInt8.toNat_add,one]
    omega
  · by_cases last : m = s.acquired
    · rw [last,new]
    · have before : m < s.acquired := by simp only [rcAcquireBuffer] at less; omega
      rw [← h.turns m before]
      exact update_of_ne last ..
  · by_cases last : m = s.acquired
    · simp only [last,rcAcquireBuffer,update_self]
    · obtain ⟨b,w,differ⟩ := held flies last
      rw [b,w,← h.holds m (older flies last)]
      simp only [rcAcquireBuffer,turned]
      exact update_of_ne differ ..
  · exact Nat.lt_succ_of_lt (h.posted m mem)

theorem writeKept {message : Nat} {content : γ} (taken : step blank s (.write message content) = some t) : Kept t := by
  obtain ⟨mine,taken⟩ := Option.ite_none_right_eq_some.mp taken
  have flies : InFlight s message := ⟨mine.1,fun mem => mine.2 (List.mem_of_mem_take mem)⟩
  cases taken
  refine ⟨⟨h.apart,fun r mem => ?_⟩,h.index,h.turns,fun m fm => ?_,h.posted,h.once,h.order,h.read⟩
  · have other : r.1 ≠ message := fun same => mine.2 (same ▸ h.read r mem)
    rw [h.genuine r mem]
    exact (update_of_ne other ..).symm
  · have fm : InFlight s m := fm
    by_cases same : m = message
    · simp only [same,update_self]
    · have differ : s.buffer m ≠ s.buffer message := fun equal => same (h.apart m message fm flies equal)
      simp only [update_of_ne same,update_of_ne differ]
      exact h.holds m fm

theorem sendKept {message : Nat} (taken : step blank s (.send message) = some t) : Kept t := by
  obtain ⟨mine,rfl⟩ := ifTaken taken
  have fits : s.completed ≤ s.sq.length := Nat.le_trans h.order.1 h.order.2
  have same (m : Nat) : InFlight { s with sq := s.sq ++ [message] } m ↔ InFlight s m := by
    simp only [InFlight,List.take_append_of_le_length fits]
  refine ⟨⟨fun m n fm fn => h.apart m n ((same m).mp fm) ((same n).mp fn),h.genuine⟩,h.index,h.turns,
    fun m fm => h.holds m ((same m).mp fm),fun m mem => ?_,?_,⟨h.order.1,?_⟩,fun r mem => List.mem_append_left _ (h.read r mem)⟩
  · rcases memSnoc mem with old | rfl
    · exact h.posted m old
    · exact mine.1
  · exact List.nodup_append.mpr ⟨h.once,List.pairwise_singleton _ _,fun a old b new => by
      rw [List.mem_singleton.mp new]
      exact fun equal => mine.2 (equal ▸ old)⟩
  · rw [List.length_append]
    exact Nat.le_succ_of_le h.order.2

theorem postedFlies {i m : Nat} (here : s.sq[i]? = some m) (late : s.completed ≤ i) : InFlight s m := by
  refine ⟨h.posted m (List.mem_of_getElem? here),fun early => ?_⟩
  obtain ⟨j,there⟩ := List.mem_iff_getElem?.mp early
  have before : j < s.completed := by
    have := (List.getElem?_eq_some_iff.mp there).1
    rw [List.length_take] at this
    omega
  rw [List.getElem?_take_of_lt before] at there
  have inside : j < s.sq.length := (List.getElem?_eq_some_iff.mp there).1
  have equal := (List.getElem?_inj inside h.once).mp (there.trans here.symm)
  omega

theorem transmitKept (taken : step blank s .transmit = some t) : Kept t := by
  obtain ⟨message,here,rfl⟩ := Option.map_eq_some_iff.mp taken
  have flies := postedFlies h here h.order.1
  have inside : s.transmitted < s.sq.length := (List.getElem?_eq_some_iff.mp here).1
  refine ⟨⟨h.apart,fun r mem => ?_⟩,h.index,h.turns,h.holds,h.posted,h.once,⟨Nat.le_succ_of_le h.order.1,inside⟩,fun r mem => ?_⟩
  · rcases memSnoc mem with old | rfl
    · exact h.genuine r old
    · exact h.holds message flies
  · rcases memSnoc mem with old | rfl
    · exact h.read r old
    · exact List.mem_of_getElem? here

theorem completeKept (taken : step blank s .complete = some t) : Kept t := by
  obtain ⟨more,rfl⟩ := ifTaken taken
  have fewer {m : Nat} (flies : InFlight { s with completed := s.completed + 1 } m) : InFlight s m :=
    ⟨flies.1,fun early => flies.2 (List.take_subset_take_left _ (Nat.le_succ _) early)⟩
  exact ⟨⟨fun m n fm fn => h.apart m n (fewer fm) (fewer fn),h.genuine⟩,h.index,h.turns,fun m fm => h.holds m (fewer fm),
    h.posted,h.once,⟨more,h.order.2⟩,h.read⟩

end steps

theorem initKept (blank : γ) : Kept (init blank) :=
  ⟨⟨nofun,nofun⟩,rfl,nofun,nofun,nofun,List.nodup_nil,⟨Nat.le_refl _,Nat.le_refl _⟩,nofun⟩

theorem recentSafe {blank : γ} {s : State γ} (h : Reach (step blank) Recent (init blank) s) : Safe s := by
  have kept : Kept s := by
    refine reachInvariant Kept (initKept blank) (fun t a r before allowed taken => ?_) h
    cases a with
    | acquire =>
      cases Option.some.inj taken
      exact acquireKept before allowed
    | write message content => exact writeKept before taken
    | send message => exact sendKept before taken
    | transmit => exact transmitKept before taken
    | complete => exact completeKept before taken
  exact kept.toSafe

def overlapping : List (Action Nat) :=
  [.acquire,.acquire,.write 1 6,.write 0 5,.send 1,.acquire,.send 0,.transmit,.transmit,.complete,.write 2 7]

theorem recentSafeOverlapping : ∃ s, Reach (step 0) Recent (init 0) s ∧ InFlight s 0 ∧ InFlight s 2 ∧ s.sent = [(1,6),(0,5)] ∧ Safe s := by
  obtain ⟨s,reached,first,third,sent⟩ : ∃ s, Reach (step 0) Recent (init 0) s ∧ InFlight s 0 ∧ InFlight s 2 ∧ s.sent = [(1,6),(0,5)] :=
    traceReach overlapping (by decide +kernel)
  exact ⟨s,reached,first,third,sent,recentSafe reached⟩

theorem roundsReach (n : Nat) : ∃ s, Reach (step 0) Bounded (init 0) s ∧ s.acquired = n ∧ s.completed = n ∧ s.transmitted = n ∧
    s.sq = List.range n ∧ s.sendIdx = UInt8.ofNat n := by
  induction n with
  | zero => exact ⟨init 0,.start,rfl,rfl,rfl,rfl,rfl⟩
  | succ n ih =>
    obtain ⟨s,reached,acquired,completed,transmitted,sq,index⟩ := ih
    obtain ⟨t,ran,shape⟩ : ∃ t, run (guarded (step 0) Bounded) s [.acquire,.send n,.transmit,.complete] = some t ∧
        t.acquired = n + 1 ∧ t.completed = n + 1 ∧ t.transmitted = n + 1 ∧ t.sq = List.range (n + 1) ∧ t.sendIdx = UInt8.ofNat (n + 1) := by
      simp [run,guarded,Bounded,step,rcAcquireBuffer,acquired,completed,transmitted,sq,index,maxBuffer,← List.range_succ]
    exact ⟨t,reachTrans reached (runGuarded ran),shape⟩

/- The index wraps behind message 255, and message 256 gets the buffer of message 250, which
is one of six in flight. -/
theorem wrappedIndexReuses : ¬∀ s, Reach (step 0) Bounded (init 0) s → Safe s := by
  intro claim
  obtain ⟨s,reached,acquired,completed,transmitted,sq,index⟩ := roundsReach 250
  have more (k : Nat) (few : k ≤ 7) : ∃ t, Reach (step 0) Bounded (init 0) t ∧ t.acquired = 250 + k ∧ t.completed = 250 ∧
      t.sq = List.range 250 ∧ t.sendIdx = UInt8.ofNat (250 + k) ∧ ∀ j < k, t.buffer (250 + j) = turn (250 + j) := by
    induction k with
    | zero => exact ⟨s,reached,acquired,completed,sq,index,nofun⟩
    | succ k ih =>
      obtain ⟨t,there,acquired,completed,sq,index,turns⟩ := ih (by omega)
      have room : Bounded t .acquire := by
        show t.acquired + 1 - t.completed < maxBuffer
        rw [acquired,completed,maxBuffer]
        omega
      refine ⟨rcAcquireBuffer 0 t,.next there room rfl,by simp only [rcAcquireBuffer,acquired]; omega,completed,sq,
        by simp [rcAcquireBuffer,index,UInt8.add_assoc],fun j less => ?_⟩
      simp only [rcAcquireBuffer,acquired,index]
      by_cases last : j = k
      · rw [last,Function.update_self]
        simp [turn]
      · rw [Function.update_of_ne (by omega)]
        exact turns j (by omega)
  obtain ⟨t,there,acquired,completed,sq,_,turns⟩ := more 7 (Nat.le_refl _)
  have flies (m : Nat) (from_ : 250 ≤ m) (upto : m < 257) : InFlight t m := by
    refine ⟨by omega,fun early => ?_⟩
    have below := List.mem_range.mp (sq ▸ List.mem_of_mem_take early)
    omega
  have same : t.buffer 250 = t.buffer 256 := (turns 0 (by decide)).trans (turns 6 (by decide)).symm
  have equal := (claim t there).apart 250 256 (flies 250 (by decide) (by decide)) (flies 256 (by decide) (by decide)) same
  exact absurd equal (by decide)

end LineFS.SendBuffer
