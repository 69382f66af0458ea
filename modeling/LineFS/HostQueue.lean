import LineFS.Base.Run
import Mathlib.Data.Nat.Bitwise
import Mathlib.Logic.Function.Basic
import Mathlib.Tactic.Linarith

/-! The two circular buffers of a LibFS on the NIC. Producers fill the slot at the head and publish it; the
consumer takes the items in the order of their sequence numbers: it looks at the tail, skips what it took
before, and otherwise searches the ring. Heads and tails advance by a mask that is no power of two less one:
it keeps 21 low bits and bit 23. -/
namespace LineFS.HostQueue
open Base

def circBufHostMemcpyReqSize : Nat := 10 * 1024 * 1024
def circBufCopyDoneSize : Nat := 10 * 1024 * 1024

def circCnt (head tail size : Nat) : Nat := (head + 2 ^ 64 - tail) % 2 ^ 64 &&& (size - 1)
def circSpace (head tail size : Nat) : Nat := circCnt tail (head + 1) size

structure Index where
  cnt : Nat → Nat → Nat
  space : Nat → Nat → Nat
  advance : Nat → Nat

def masked (size : Nat) : Index :=
  ⟨fun head tail => circCnt head tail size,fun head tail => circSpace head tail size,fun i => (i + 1) &&& (size - 1)⟩

structure Item (α : Type) where
  seqn : Nat
  processed : Bool
  arg : α
  deriving DecidableEq, Repr

structure CircBuf (α : Type) where
  buf : Nat → Item α
  head : Nat
  tail : Nat
  nextSeqn : Nat

variable {α : Type} (ix : Index)

def fill (r : CircBuf α) (x : Item α) : Option (CircBuf α) :=
  if 1 ≤ ix.space r.head r.tail then some { r with buf := Function.update r.buf r.head x } else none

def publish (r : CircBuf α) : CircBuf α := { r with head := ix.advance r.head }

def searchFrom (buf : Nat → Item α) (nextSeqn : Nat) : Nat → Nat → Option Nat
  | 0, _ => none
  | n + 1, cur => if (buf cur).seqn = nextSeqn then some cur else searchFrom buf nextSeqn n (ix.advance cur)

def searchNextSeqn (r : CircBuf α) : Option Nat :=
  searchFrom ix r.buf r.nextSeqn (ix.cnt r.head r.tail) r.tail

structure Taken (α : Type) where
  ring : CircBuf α
  item : Option (Item α)

def dequeue (r : CircBuf α) : Taken α :=
  if 1 ≤ ix.cnt r.head r.tail then
    if (r.buf r.tail).seqn = r.nextSeqn then
      ⟨{ r with tail := ix.advance r.tail, nextSeqn := r.nextSeqn + 1 },some (r.buf r.tail)⟩
    -- Taken before, out of its turn in the ring.
    else if (r.buf r.tail).seqn < r.nextSeqn then ⟨{ r with tail := ix.advance r.tail },none⟩
    else
      match searchNextSeqn ix r with
      | none => ⟨r,none⟩
      | some cur =>
        if (r.buf cur).processed then ⟨r,none⟩
        else
          let item := { r.buf cur with processed := true }
          ⟨{ r with buf := Function.update r.buf cur item, nextSeqn := r.nextSeqn + 1 },some item⟩
  else ⟨r,none⟩

def dequeueLoop : Nat → CircBuf α → Option (CircBuf α × Item α)
  | 0, _ => none
  | n + 1, r =>
    match (dequeue ix r).item with
    | some x => some ((dequeue ix r).ring,x)
    | none => dequeueLoop n (dequeue ix r).ring

/- A ring with its history: the items filled so far, the slots published, the
slots the tail has left, and the items taken. -/
structure Channel (α : Type) where
  ring : CircBuf α
  filling : Bool
  items : List (Item α)
  slots : List Nat
  passed : List (Item α)
  handled : List (Item α)

inductive Action (α : Type) where
  | fill (x : Item α)
  | publish
  | dequeue

def Channel.init (blank : Item α) : Channel α := ⟨⟨fun _ => blank,0,0,1⟩,false,[],[],[],[]⟩

def Channel.dequeue (c : Channel α) : Channel α :=
  let t := HostQueue.dequeue ix c.ring
  { c with
    ring := t.ring
    passed := if t.ring.tail = c.ring.tail then c.passed else c.passed ++ [c.ring.buf c.ring.tail]
    handled := c.handled ++ t.item.toList }

def step (c : Channel α) : Action α → Option (Channel α)
  | .fill x =>
    if c.filling then none
    else (fill ix c.ring x).map fun r => { c with ring := r, filling := true, items := c.items ++ [x] }
  | .publish =>
    if c.filling then
      some { c with ring := publish ix c.ring, filling := false, slots := c.slots ++ [c.ring.head] }
    else none
  | .dequeue => some (c.dequeue ix)

def Channel.inUse (c : Channel α) : List Nat := c.slots.drop c.passed.length

structure Exact (size : Nat) (c : Channel α) : Prop where
  count : ix.cnt c.ring.head c.ring.tail = c.inUse.length
  space : c.inUse.length < size - 1 → 0 < ix.space c.ring.head c.ring.tail
  fresh : 1 ≤ ix.space c.ring.head c.ring.tail → c.ring.head ∉ c.inUse

structure Wraps (n : Nat) : Prop where
  advance : ∀ i, i < n → ix.advance i = (i + 1) % n
  ahead : ∀ head tail, tail ≤ head → head < n → ix.cnt head tail = head - tail
  behind : ∀ head tail, head < tail → tail < n → n - (tail - head) ≤ ix.cnt head tail

def Configured (size : Nat) : Prop := size = circBufHostMemcpyReqSize ∨ size = circBufCopyDoneSize

def visited : Nat := 2 ^ 21

section mask
variable {size : Nat} (conf : Configured size)
include conf

theorem maskAnd (x : Nat) : x &&& (size - 1) = 2 ^ 23 * (x / 2 ^ 23 % 2) + x % 2 ^ 21 := by
  have mask : size - 1 = 2 ^ 23 ||| (2 ^ 21 - 1) := by
    rcases conf with rfl | rfl <;> decide
  have high : x &&& 2 ^ 23 = 2 ^ 23 * (x / 2 ^ 23 % 2) := by
    rw [Nat.and_two_pow,Nat.testBit_eq_decide_div_mod_eq,Nat.mul_comm]
    generalize x / 2 ^ 23 = y
    rcases Nat.mod_two_eq_zero_or_one y with even | odd <;> simp [*]
  rw [mask,Nat.and_or_distrib_left,Nat.and_two_pow_sub_one_eq_mod,high]
  refine (Nat.two_pow_add_eq_or_of_lt ?_ _).symm
  omega

theorem cntBehind {head tail : Nat} (order : head < tail) (small : tail ≤ visited) :
    circCnt head tail size = 2 ^ 23 + (visited - (tail - head)) % visited := by
  unfold visited at *
  rw [circCnt,maskAnd conf]
  omega

theorem maskedWraps : Wraps (masked size) visited where
  advance i small := by
    unfold visited at *
    simp only [masked,maskAnd conf]
    omega
  ahead head tail order small := by
    unfold visited at *
    simp only [masked,circCnt,maskAnd conf]
    omega
  behind head tail order small := by
    simp only [masked,cntBehind conf order (Nat.le_of_lt small)]
    unfold visited at *
    omega

theorem maskedSpace {head tail : Nat} (order : tail ≤ head) (small : head < visited) :
    1 ≤ (masked size).space head tail := by
  have roomy : circSpace head tail size = 2 ^ 23 + (visited - (head + 1 - tail)) % visited :=
    cntBehind conf (Nat.lt_succ_of_le order) small
  simp only [masked,roomy]
  omega

end mask

variable {ix}

theorem dequeueEnds (r : CircBuf α) : (dequeue ix r).ring.head = r.head ∧
    ((dequeue ix r).ring.tail = r.tail ∨
      1 ≤ ix.cnt r.head r.tail ∧ (dequeue ix r).ring.tail = ix.advance r.tail) := by
  unfold dequeue
  split
  · rename_i used
    split
    · exact ⟨rfl,.inr ⟨used,rfl⟩⟩
    · split
      · exact ⟨rfl,.inr ⟨used,rfl⟩⟩
      · split
        · exact ⟨rfl,.inl rfl⟩
        · split
          · exact ⟨rfl,.inl rfl⟩
          · exact ⟨rfl,.inl rfl⟩
  · exact ⟨rfl,.inl rfl⟩

variable {c : Channel α}

theorem stepCases {d : Channel α} {a : Action α} (taken : step ix c a = some d) :
    (∃ x, a = .fill x ∧ c.filling = false ∧ 1 ≤ ix.space c.ring.head c.ring.tail ∧
      d = { c with
        ring := { c.ring with buf := Function.update c.ring.buf c.ring.head x }
        filling := true
        items := c.items ++ [x] }) ∨
    (a = .publish ∧ c.filling = true ∧
      d = { c with ring := publish ix c.ring, filling := false, slots := c.slots ++ [c.ring.head] }) ∨
    (a = .dequeue ∧ d = c.dequeue ix) := by
  cases a with
  | fill x =>
    simp only [step,fill] at taken
    split at taken <;> try contradiction
    obtain ⟨r,filled,rfl⟩ := Option.map_eq_some_iff.mp taken
    obtain ⟨_,rfl⟩ := ifTaken filled
    exact .inl ⟨x,rfl,by simpa using ‹¬ c.filling = true›,‹_›,rfl⟩
  | publish =>
    obtain ⟨_,rfl⟩ := ifTaken taken
    exact .inr (.inl ⟨rfl,‹_›,rfl⟩)
  | dequeue => exact .inr (.inr ⟨rfl,(Option.some.inj taken).symm⟩)

theorem slotsGrow {d : Channel α} {a : Action α} (taken : step ix c a = some d) :
    c.slots.length ≤ d.slots.length := by
  rcases stepCases taken with ⟨x,_,_,_,rfl⟩ | ⟨_,_,rfl⟩ | ⟨_,rfl⟩
  · exact Nat.le_refl _
  · simp
  · exact Nat.le_refl _

structure Early (c : Channel α) : Prop where
  head : c.ring.head = c.slots.length
  tail : c.ring.tail = c.passed.length
  order : c.passed.length ≤ c.slots.length
  slots : c.slots = List.range c.slots.length

section early
variable {n : Nat} (w : Wraps ix n) {c d : Channel α}
include w

theorem earlyPublish (h : Early c) (short : c.slots.length + 1 < n) :
    Early { c with ring := publish ix c.ring, filling := false, slots := c.slots ++ [c.ring.head] } := by
  refine ⟨?_,h.tail,?_,?_⟩ <;> simp only [List.length_append,List.length_singleton]
  · rw [publish,h.head,w.advance _ (by omega),Nat.mod_eq_of_lt short]
  · exact Nat.le_succ_of_le h.order
  · rw [List.range_succ,← h.slots,h.head]

theorem earlyDequeue (h : Early c) (short : c.slots.length < n) : Early (c.dequeue ix) := by
  obtain ⟨head,ends⟩ : (dequeue ix c.ring).ring.head = c.ring.head ∧ _ := dequeueEnds c.ring
  have order := h.order
  simp only [Channel.dequeue]
  rcases ends with stays | ⟨used,moves⟩
  · rw [if_pos stays]
    exact ⟨head.trans h.head,stays.trans h.tail,order,h.slots⟩
  · rw [h.head,h.tail,w.ahead _ _ order short] at used
    have next : (dequeue ix c.ring).ring.tail = c.passed.length + 1 := by
      rw [moves,h.tail,w.advance _ (by omega),Nat.mod_eq_of_lt (by omega)]
    have differ : (dequeue ix c.ring).ring.tail ≠ c.ring.tail := by
      rw [next,h.tail]
      exact Nat.succ_ne_self _
    rw [if_neg differ]
    refine ⟨head.trans h.head,?_,?_,h.slots⟩ <;> simp only [List.length_append,List.length_singleton]
    · exact next
    · omega

theorem earlyStep {a : Action α} (h : Early c) (taken : step ix c a = some d) (short : d.slots.length < n) :
    Early d := by
  rcases stepCases taken with ⟨x,rfl,_,_,rfl⟩ | ⟨rfl,_,rfl⟩ | ⟨rfl,rfl⟩
  · exact ⟨h.head,h.tail,h.order,h.slots⟩
  · rw [List.length_append,List.length_singleton] at short
    exact earlyPublish w h short
  · exact earlyDequeue w h short

end early

theorem earlyExact {size : Nat} (conf : Configured size) (h : Early c)
    (short : c.slots.length < visited) : Exact (masked size) size c := by
  have used : c.inUse.length = c.slots.length - c.passed.length := List.length_drop
  refine ⟨?_,fun _ => ?_,fun _ mem => ?_⟩
  · rw [h.head,h.tail,used]
    exact (maskedWraps conf).ahead _ _ h.order short
  · rw [h.head,h.tail]
    exact maskedSpace conf h.order short
  · have known := List.mem_of_mem_drop mem
    rw [h.slots,List.mem_range,h.head] at known
    exact Nat.lt_irrefl _ known

theorem initEarly (blank : Item α) : Early (Channel.init blank) := ⟨rfl,rfl,Nat.le_refl 0,rfl⟩

variable (ix) in
def Channel.enqueue (c : Channel α) (x : Item α) : Channel α :=
  { c with
    ring := publish ix { c.ring with buf := Function.update c.ring.buf c.ring.head x }
    filling := false
    items := c.items ++ [x]
    slots := c.slots ++ [c.ring.head] }

theorem enqueueReach {ok : Channel α → Action α → Prop} (x : Item α) (idle : c.filling = false)
    (free : 1 ≤ ix.space c.ring.head c.ring.tail) (fills : ok c (.fill x)) (publishes : ∀ d, ok d .publish) :
    Reach (step ix) ok c (c.enqueue ix x) := by
  have filled : step ix c (.fill x) = some { c with
      ring := { c.ring with buf := Function.update c.ring.buf c.ring.head x }
      filling := true
      items := c.items ++ [x] } := by simp [step,fill,idle,free]
  exact .next (.next .start fills filled) (publishes _) (a := .publish) rfl

theorem earlyEnqueue {n : Nat} (w : Wraps ix n) (x : Item α) (h : Early c)
    (short : c.slots.length + 1 < n) : Early (c.enqueue ix x) := by
  have published := earlyPublish w h short
  exact ⟨published.head,published.tail,published.order,published.slots⟩

/- The first `k` items are enqueued and nothing has been dequeued. -/
structure Loaded (item : Nat → Item α) (k : Nat) (c : Channel α) : Prop where
  idle : c.filling = false
  slots : c.slots.length = k
  passed : c.passed = []
  items : c.items = (List.range k).map item
  next : c.ring.nextSeqn = 1

theorem loadedEnqueue {item : Nat → Item α} {k : Nat} (h : Loaded item k c) : Loaded item (k + 1) (c.enqueue ix (item k)) :=
  ⟨rfl,by simp [Channel.enqueue,h.slots],h.passed,by simp [Channel.enqueue,h.items,List.range_succ],h.next⟩

section runs
variable {n : Nat} (w : Wraps ix n) (room : ∀ head tail, tail ≤ head → head < n → 1 ≤ ix.space head tail)
  (blank : Item α)
include w room

section loads
variable (item : Nat → Item α) (ok : Channel α → Action α → Prop) (fills : ∀ c k, k < n → Loaded item k c → ok c (.fill (item k)))
  (publishes : ∀ c, ok c .publish)
include fills publishes

omit w in
theorem loadOne {k : Nat} (early : Early c) (h : Loaded item k c) (short : k < n) : Reach (step ix) ok c (c.enqueue ix (item k)) := by
  refine enqueueReach _ h.idle ?_ (fills c k short h) publishes
  rw [early.head,early.tail]
  exact room _ _ early.order (h.slots ▸ short)

theorem loaded {k : Nat} (short : k < n) : ∃ c, Reach (step ix) ok (.init blank) c ∧ Early c ∧ Loaded item k c := by
  induction k with
  | zero => exact ⟨_,.start,initEarly blank,rfl,rfl,rfl,rfl,rfl⟩
  | succ k ih =>
    obtain ⟨c,reached,early,h⟩ := ih (by omega)
    exact ⟨_,reachTrans reached (loadOne room item ok fills publishes early h (by omega)),
      earlyEnqueue w _ early (by rw [h.slots]; exact short),loadedEnqueue h⟩

theorem loadedOnce (some : 0 < n) : ∃ c, Reach (step ix) ok (.init blank) c ∧ Loaded item n c ∧ c.ring.head = 0 ∧
    c.ring.tail = 0 ∧ 0 ∈ c.inUse := by
  obtain ⟨k,rfl⟩ := Nat.exists_eq_succ_of_ne_zero (Nat.ne_of_gt some)
  obtain ⟨c,reached,early,h⟩ := loaded w room blank item ok fills publishes (Nat.lt_succ_self k)
  refine ⟨_,reachTrans reached (loadOne room item ok fills publishes early h (Nat.lt_succ_self k)),loadedEnqueue h,?_,?_,?_⟩
  · simp only [Channel.enqueue,publish]
    rw [early.head,h.slots,w.advance _ (Nat.lt_succ_self k),Nat.mod_self]
  · exact early.tail.trans (by rw [h.passed]; rfl)
  · simp only [Channel.inUse,Channel.enqueue,h.passed,List.length_nil,List.drop_zero,List.mem_append,List.mem_singleton]
    rw [early.slots,List.mem_range,early.head]
    omega

end loads

theorem turned {k : Nat} (short : k < n) : ∃ c, Reach (step ix) Any (.init blank) c ∧ Early c ∧
    c.filling = false ∧ c.slots.length = k ∧ c.passed.length = k := by
  induction k with
  | zero => exact ⟨_,.start,initEarly blank,rfl,rfl,rfl⟩
  | succ k ih =>
    obtain ⟨c,reached,early,idle,slots,passed⟩ := ih (by omega)
    have free : 1 ≤ ix.space c.ring.head c.ring.tail := by
      rw [early.head,early.tail]
      exact room _ _ early.order (by omega)
    let d := c.enqueue ix { blank with seqn := c.ring.nextSeqn }
    have added : Early d := earlyEnqueue w _ early (by omega)
    have ends : d.ring.head = k + 1 ∧ d.ring.tail = k := by
      refine ⟨added.head.trans ?_,early.tail.trans passed⟩
      simp [d,Channel.enqueue,slots]
    have here : (d.ring.buf d.ring.tail).seqn = d.ring.nextSeqn := by
      have same : c.ring.tail = c.ring.head := by rw [early.tail,early.head,slots,passed]
      simp [d,Channel.enqueue,publish,same]
    have count : ix.cnt d.ring.head d.ring.tail = 1 := by
      rw [ends.1,ends.2,w.ahead _ _ (Nat.le_succ k) short]
      omega
    have moved : (dequeue ix d.ring).ring.tail = k + 1 := by
      simp only [dequeue,if_pos (Nat.le_of_eq count.symm),if_pos here]
      rw [ends.2,w.advance _ (by omega),Nat.mod_eq_of_lt short]
    refine ⟨d.dequeue ix,?_,earlyDequeue w added ?_,rfl,?_,?_⟩
    · exact .next (reachTrans reached (enqueueReach _ idle free trivial fun _ => trivial)) trivial (a := .dequeue) rfl
    · simp only [d,Channel.enqueue,List.length_append,List.length_singleton]
      omega
    · simp [d,Channel.dequeue,Channel.enqueue,slots]
    · have differ : (dequeue ix d.ring).ring.tail ≠ d.ring.tail := by
        rw [moved,ends.2]
        exact Nat.succ_ne_self k
      simp only [Channel.dequeue,if_neg differ]
      simp [d,Channel.enqueue,passed]

theorem turnedOnce (some : 0 < n) : ∃ c, Reach (step ix) Any (.init blank) c ∧ c.slots.length = n ∧
    c.inUse.length = 1 ∧ c.ring.head = 0 ∧ c.ring.tail = n - 1 := by
  obtain ⟨c,reached,early,idle,slots,passed⟩ := turned w room blank (show n - 1 < n by omega)
  have free : 1 ≤ ix.space c.ring.head c.ring.tail := by
    rw [early.head,early.tail]
    exact room _ _ early.order (by omega)
  refine ⟨c.enqueue ix blank,reachTrans reached (enqueueReach blank idle free trivial fun _ => trivial),?_,?_,?_,early.tail.trans passed⟩
  · simp only [Channel.enqueue,List.length_append,List.length_singleton]
    omega
  · simp only [Channel.inUse,Channel.enqueue,List.length_drop,List.length_append,List.length_singleton]
    omega
  · simp only [Channel.enqueue,publish]
    rw [early.head,w.advance _ (by omega),slots,Nat.sub_add_cancel some,Nat.mod_self]

end runs

theorem visitedSome : 0 < visited := by decide

theorem wrapsInexact {size : Nat} (conf : Configured size) (blank : Item α) :
    ∃ c, Reach (step (masked size)) Any (.init blank) c ∧ c.slots.length = visited ∧ c.inUse.length = 1 ∧
      circCnt c.ring.head c.ring.tail size = 2 ^ 23 + 1 := by
  obtain ⟨c,reached,slots,used,head,tail⟩ :=
    turnedOnce (maskedWraps conf) (fun _ _ => maskedSpace conf) blank visitedSome
  refine ⟨c,reached,slots,used,?_⟩
  rw [head,tail,cntBehind conf (by decide) (by decide)]
  decide

theorem initReach {size : Nat} (conf : Configured size) (blank : Item α)
    (reached : Reach (step (masked size)) Any (.init blank) c) : c.slots.length < visited → Early c := by
  refine reachInvariant (fun c => c.slots.length < visited → Early c) (fun _ => initEarly blank) ?_ reached
  intro t a r h _ taken short
  refine earlyStep (maskedWraps conf) (h ?_) taken short
  exact Nat.lt_of_le_of_lt (slotsGrow taken) short

theorem occupancyExact {size : Nat} (conf : Configured size) (blank : Item α) (n : Nat) :
    (∀ c, Reach (step (masked size)) Any (.init blank) c → c.slots.length ≤ n → Exact (masked size) size c) ↔
      n < visited := by
  constructor
  · intro exact
    by_contra late
    obtain ⟨c,reached,slots,used,count⟩ := wrapsInexact conf blank
    have counted : circCnt c.ring.head c.ring.tail size = c.inUse.length := (exact c reached (by omega)).count
    omega
  · intro short c reached few
    have bound := Nat.lt_of_le_of_lt few short
    exact earlyExact conf (initReach conf blank reached bound) bound

theorem occupancyExactUnwrapped : ∃ c : Channel Unit,
    Reach (step (masked circBufHostMemcpyReqSize)) Any (.init ⟨0,false,()⟩) c ∧ c.slots = [0,1,2,3] ∧ c.inUse = [2,3] ∧
      Exact (masked circBufHostMemcpyReqSize) circBufHostMemcpyReqSize c := by
  obtain ⟨c,reached,slots,used⟩ : ∃ c, Reach (step (masked circBufHostMemcpyReqSize)) Any (.init ⟨0,false,()⟩) c ∧ c.slots = [0,1,2,3] ∧
      c.inUse = [2,3] :=
    traceAny ([1,2,4,3].flatMap (fun n => [.fill ⟨n,false,()⟩,.publish])
      ++ [.dequeue,.dequeue,.dequeue]) (by decide +kernel)
  have all := (occupancyExact (.inl rfl) (⟨0,false,()⟩ : Item Unit) (2 ^ 21 - 1)).mpr (by decide)
  exact ⟨c,reached,slots,used,all c reached (by rw [slots]; decide)⟩

theorem wrappedRingWrong : (∃ c : Channel Unit,
      Reach (step (masked circBufHostMemcpyReqSize)) Any (.init ⟨0,false,()⟩) c ∧ c.inUse.length = 1 ∧
        circCnt c.ring.head c.ring.tail circBufHostMemcpyReqSize = 8388609) ∧
    ∃ c : Channel Unit, Reach (step (masked circBufHostMemcpyReqSize)) Any (.init ⟨0,false,()⟩) c ∧
      1 ≤ circSpace c.ring.head c.ring.tail circBufHostMemcpyReqSize ∧ c.ring.head ∈ c.inUse := by
  have conf : Configured circBufHostMemcpyReqSize := .inl rfl
  obtain ⟨c,reached,_,used,count⟩ := wrapsInexact conf (⟨0,false,()⟩ : Item Unit)
  obtain ⟨d,loaded,_,head,tail,mem⟩ :=
    loadedOnce (maskedWraps conf) (fun _ _ => maskedSpace conf) (⟨0,false,()⟩ : Item Unit) (fun _ => ⟨0,false,()⟩) Any
      (fun _ _ _ _ => trivial) (fun _ => trivial) visitedSome
  refine ⟨⟨c,reached,used,count⟩,d,loaded,?_,?_⟩
  · rw [head,tail]
    exact maskedSpace conf (Nat.le_refl 0) visitedSome
  · rw [head]
    exact mem

end LineFS.HostQueue
