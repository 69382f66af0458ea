import LineFS.Base.Run
import Mathlib.Logic.Function.Basic
import Mathlib.Algebra.Group.Nat.Defs

/-! Numbered messages on one connection. The receiver drops a message whose number is not above the last one
of its LibFS; a thread that waits for a response spins until that number enters a window above its own. Both
ends number their requests; responses echo the number. -/
namespace LineFS.Receive
open Base Function

def maxPending : Nat := 500

inductive Message where
  | imm (appId : Nat)
  | custom (libfsId appId : Nat)
  deriving DecidableEq

inductive Carrier where
  | imm
  | custom (libfsId : Nat)
  deriving DecidableEq

def Carrier.message : Carrier → Nat → Message
  | .imm, id => .imm (id % 2 ^ 32)
  | .custom libfsId, id => .custom libfsId id

def Carrier.libfsId : Carrier → Nat
  | .imm => 0
  | .custom libfsId => libfsId

structure Ctx where
  lastRcvCompl : Nat
  perLibfsLastRcvCompl : Nat → Nat

def updatePending (ctx : Ctx) (appId : Nat) : Ctx := if appId = 0 then ctx else { ctx with lastRcvCompl := appId }

def updatePerLibfsPending (ctx : Ctx) (appId libfsId : Nat) : Ctx :=
  if appId = 0 then ctx else { ctx with perLibfsLastRcvCompl := Function.update ctx.perLibfsLastRcvCompl libfsId appId }

def Ctx.last (ctx : Ctx) (libfsId : Nat) : Nat := if libfsId ≠ 0 then ctx.perLibfsLastRcvCompl libfsId else ctx.lastRcvCompl

-- A numbered message that does not rise above the last number is only reported.
def handleCustom (ctx : Ctx) (libfsId appId : Nat) : Ctx × Bool :=
  if appId ≠ 0 ∧ appId = ctx.last libfsId then (ctx,false)
  else if appId ≠ 0 ∧ appId < ctx.last libfsId then (ctx,false)
  else if appId ≠ 0 then
    if libfsId ≠ 0 then (updatePerLibfsPending ctx appId libfsId,true) else (updatePending ctx appId,true)
  else (ctx,true)

def handleCompletion (ctx : Ctx) : Message → Ctx × Bool
  | .imm appId => if appId ≠ 0 then (updatePending ctx appId,true) else (ctx,false)
  | .custom libfsId appId => handleCustom ctx libfsId appId

def spinsTillResponse (last seqn : Nat) : Bool := last < seqn || maxPending < last - seqn

def generateRpcSeqn (seqn : Nat) : Nat := (seqn + 1) % 2 ^ 64

theorem customAbove {ctx : Ctx} {libfsId appId : Nat} (above : ctx.last libfsId < appId) :
    handleCustom ctx libfsId appId = (if libfsId ≠ 0 then updatePerLibfsPending ctx appId libfsId else updatePending ctx appId,true) := by
  have numbered : appId ≠ 0 := by omega
  unfold handleCustom
  rw [if_neg (by omega),if_neg (by omega),if_pos numbered]
  split <;> rfl

theorem customBelow {ctx : Ctx} {libfsId appId : Nat} (below : ¬ctx.last libfsId < appId) : (handleCustom ctx libfsId appId).1 = ctx := by
  unfold handleCustom
  split
  · rfl
  · split
    · rfl
    · rw [if_neg (by omega)]

theorem lastCustom (ctx : Ctx) (libfsId appId l : Nat) :
    (handleCompletion ctx (.custom libfsId appId)).1.last l = if l = libfsId ∧ ctx.last libfsId < appId then appId else ctx.last l := by
  rw [handleCompletion]
  by_cases above : ctx.last libfsId < appId
  · have numbered : appId ≠ 0 := by omega
    rw [customAbove above]
    simp only [above,and_true]
    by_cases zero : libfsId = 0
    · by_cases same : l = 0 <;> simp [zero,same,numbered,updatePending,Ctx.last]
    · by_cases same : l = libfsId
      · simp [zero,same,numbered,updatePerLibfsPending,Ctx.last]
      · simp [zero,same,numbered,updatePerLibfsPending,Ctx.last]
  · simp [customBelow above,above]

theorem lastImm (ctx : Ctx) (appId l : Nat) :
    (handleCompletion ctx (.imm appId)).1.last l = if l = 0 ∧ appId ≠ 0 then appId else ctx.last l := by
  by_cases none : appId = 0
  · simp [handleCompletion,none]
  · by_cases zero : l = 0 <;> simp [handleCompletion,none,zero,updatePending,Ctx.last]

theorem customCalled {ctx : Ctx} {libfsId appId : Nat} (fresh : appId = 0 ∨ ctx.last libfsId < appId) :
    (handleCompletion ctx (.custom libfsId appId)).2 = true := by
  rcases fresh with zero | above
  · simp [handleCompletion,handleCustom,zero]
  · rw [handleCompletion,customAbove above]

namespace Wait

/- Requests are named by their LibFS (0 for none) and number. The peer's requests in `coming` arrive in any
order; our own are `unanswered` until their response arrives and `waiting` while a thread spins for it. -/
structure State where
  ctx : Ctx
  seqns : Nat → Nat
  peerSeqns : Nat → Nat
  coming : List (Nat × Nat)
  unanswered : List (Nat × Nat)
  waiting : List (Nat × Nat)

inductive Action where
  | ask (libfsId : Nat) (waits : Bool)
  | peerAsk (libfsId : Nat)
  | request (r : Nat × Nat)
  | response (r : Nat × Nat) (carrier : Carrier)
  | leave (r : Nat × Nat)

def step (s : State) : Action → Option State
  | .ask libfsId waits =>
    let n := generateRpcSeqn (s.seqns libfsId)
    some { s with
      seqns := Function.update s.seqns libfsId n
      unanswered := (libfsId,n)::s.unanswered
      waiting := if waits then (libfsId,n)::s.waiting else s.waiting }
  | .peerAsk libfsId =>
    let n := generateRpcSeqn (s.peerSeqns libfsId)
    some { s with peerSeqns := Function.update s.peerSeqns libfsId n, coming := (libfsId,n)::s.coming }
  | .request r =>
    if r ∈ s.coming then
      some { s with ctx := (handleCompletion s.ctx (.custom r.1 r.2)).1, coming := s.coming.erase r }
    else none
  | .response r carrier =>
    if r ∈ s.unanswered then
      some { s with ctx := (handleCompletion s.ctx (carrier.message r.2)).1, unanswered := s.unanswered.filter (· ≠ r) }
    else none
  | .leave r =>
    if r ∈ s.waiting ∧ spinsTillResponse (s.ctx.last r.1) r.2 = false then some { s with waiting := s.waiting.erase r } else none

def init : State := ⟨⟨0,fun _ => 0⟩,fun _ => 0,fun _ => 0,[],[],[]⟩

def Exact (s : State) : Prop := ∀ w ∈ s.waiting, (spinsTillResponse (s.ctx.last w.1) w.2 = false ↔ w ∉ s.unanswered)
deriving Decidable

def Passed (s : State) (r : Nat × Nat) (passes : Nat → Prop) : Prop :=
  ∀ w ∈ s.waiting, w.1 = r.1 → passes w.2 → w ∉ s.unanswered ∧ r.2 ≤ w.2 + maxPending
instance (s : State) (r : Nat × Nat) (passes : Nat → Prop) [DecidablePred passes] : Decidable (Passed s r passes) := by
  unfold Passed; infer_instance

/- A thread draws a number that no message has reached, a request of the peer meets no thread that waits for
its number or a lower one, and responses come in the order of the waiting requests. -/
def Ordered (s : State) : Action → Prop
  | .ask libfsId _ => s.ctx.last libfsId ≤ s.seqns libfsId ∧ s.seqns libfsId + 1 < 2 ^ 64
  | .request r => Passed s r (· ≤ r.2)
  | .response r carrier =>
    carrier.libfsId = r.1 ∧ Passed s r (· < r.2) ∧
      (carrier = .imm → r.2 < 2 ^ 32 ∧ ∀ w ∈ s.waiting, w.1 = r.1 → r.2 < w.2 → w ∈ s.unanswered)
  | _ => True
instance (s : State) : (a : Action) → Decidable (Ordered s a)
  | .ask _ _ => inferInstanceAs (Decidable (_ ∧ _))
  | .request r => inferInstanceAs (Decidable (Passed s r (· ≤ r.2)))
  | .response r _ => inferInstanceAs (Decidable (_ ∧ Passed s r (· < r.2) ∧ (_ → _ ∧ ∀ w ∈ _, _ → _ → _)))
  | .peerAsk _ | .leave _ => .isTrue trivial

structure Kept (s : State) : Prop where
  ahead : ∀ w ∈ s.waiting, w ∈ s.unanswered → s.ctx.last w.1 < w.2
  window : ∀ w ∈ s.waiting, w ∉ s.unanswered → w.2 ≤ s.ctx.last w.1 ∧ s.ctx.last w.1 ≤ w.2 + maxPending
  drawn : ∀ w ∈ s.waiting, w.2 ≤ s.seqns w.1
  numbered : ∀ r ∈ s.unanswered, r.2 ≠ 0

theorem keptExact {s : State} (h : Kept s) : Exact s := by
  intro w waits
  simp only [spinsTillResponse,Bool.or_eq_false_iff,decide_eq_false_iff_not]
  by_cases open_ : w ∈ s.unanswered
  · have := h.ahead w waits open_
    exact ⟨fun ends => by omega,fun answered => absurd open_ answered⟩
  · have := h.window w waits open_
    exact ⟨fun _ => open_,fun _ => by omega⟩

section steps
variable {s t : State} (h : Kept s)
include h

theorem askKept {libfsId : Nat} {waits : Bool} (ordered : Ordered s (.ask libfsId waits))
    (taken : step s (.ask libfsId waits) = some t) : Kept t := by
  obtain ⟨fresh,room⟩ := ordered
  cases taken
  have next : generateRpcSeqn (s.seqns libfsId) = s.seqns libfsId + 1 := Nat.mod_eq_of_lt room
  have others {w : Nat × Nat} (waits : w ∈ s.waiting) : w ≠ (libfsId,s.seqns libfsId + 1) := by
    rintro rfl
    exact absurd (h.drawn _ waits) (Nat.not_succ_le_self _)
  have among {w : Nat × Nat} (mem : w ∈ if waits then (libfsId,s.seqns libfsId + 1)::s.waiting else s.waiting) :
      w = (libfsId,s.seqns libfsId + 1) ∨ w ∈ s.waiting := by
    split at mem
    · exact List.mem_cons.mp mem
    · exact .inr mem
  simp only [next]
  refine ⟨fun w mem open_ => ?_,fun w mem answered => ?_,fun w mem => ?_,fun r mem => ?_⟩
  · rcases among mem with rfl | old
    · exact Nat.lt_succ_of_le fresh
    · exact h.ahead w old ((List.mem_cons.mp open_).resolve_left (others old))
  · rcases among mem with rfl | old
    · exact absurd (.head _) answered
    · exact h.window w old fun still => answered (.tail _ still)
  · rcases among mem with rfl | old
    · exact Nat.le_of_eq (update_self libfsId (s.seqns libfsId + 1) s.seqns).symm
    · have low := h.drawn w old
      show _ ≤ update s.seqns libfsId _ w.1
      by_cases same : w.1 = libfsId
      · rw [same] at low ⊢
        rw [update_self]
        omega
      · rw [update_of_ne same]
        exact low
  · rcases List.mem_cons.mp mem with rfl | old
    · exact Nat.succ_ne_zero _
    · exact h.numbered r old

theorem requestKept {r : Nat × Nat} (ordered : Ordered s (.request r)) (taken : step s (.request r) = some t) : Kept t := by
  obtain ⟨_,rfl⟩ := ifTaken taken
  refine ⟨fun w waits open_ => ?_,fun w waits answered => ?_,h.drawn,h.numbered⟩
  · have ahead := h.ahead w waits open_
    simp only [lastCustom]
    split
    · rename_i moved
      by_contra reached
      exact (ordered w waits moved.1 (Nat.not_lt.mp reached)).1 open_
    · exact ahead
  · have window := h.window w waits answered
    simp only [lastCustom]
    split
    · rename_i moved
      have passed : w.2 ≤ r.2 := by
        rw [moved.1] at window
        omega
      exact ⟨passed,(ordered w waits moved.1 passed).2⟩
    · exact window

theorem responseLast {r : Nat × Nat} {carrier : Carrier} (ordered : Ordered s (.response r carrier)) (mem : r ∈ s.unanswered) (l : Nat) :
    (handleCompletion s.ctx (carrier.message r.2)).1.last l =
      if l = r.1 ∧ (carrier = .imm ∨ s.ctx.last r.1 < r.2) then r.2 else s.ctx.last l := by
  obtain ⟨same,_,immediate⟩ := ordered
  have numbered := h.numbered r mem
  cases carrier with
  | imm =>
    have whole : r.2 % 2 ^ 32 = r.2 := Nat.mod_eq_of_lt (immediate rfl).1
    have channel : r.1 = 0 := same.symm
    simp only [Carrier.message,whole,lastImm,channel,numbered,ne_eq,not_false_eq_true,true_or]
  | custom libfsId =>
    have channel : libfsId = r.1 := same
    simp only [Carrier.message,lastCustom,channel,reduceCtorEq,false_or]

theorem responseKept {r : Nat × Nat} {carrier : Carrier} (ordered : Ordered s (.response r carrier))
    (taken : step s (.response r carrier) = some t) : Kept t := by
  obtain ⟨mem,rfl⟩ := ifTaken taken
  have moved := responseLast h ordered mem
  obtain ⟨_,passed,immediate⟩ := ordered
  refine ⟨fun w waits open_ => ?_,fun w waits answered => ?_,h.drawn,fun q still => h.numbered q (List.mem_of_mem_filter still)⟩
  · obtain ⟨still,other⟩ := List.mem_filter.mp open_
    have other : w ≠ r := of_decide_eq_true other
    have ahead := h.ahead w waits still
    simp only [moved]
    split
    · rename_i move
      by_contra reached
      rcases Nat.lt_or_eq_of_le (Nat.not_lt.mp reached) with below | equal
      · exact (passed w waits move.1 below).1 still
      · exact other (Prod.ext move.1 equal)
    · exact ahead
  · simp only [moved]
    by_cases own : w = r
    · subst own
      rw [if_pos ⟨rfl,.inr (h.ahead w waits mem)⟩]
      exact ⟨Nat.le_refl _,Nat.le_add_right ..⟩
    · have before : w ∉ s.unanswered := fun still => answered (List.mem_filter.mpr ⟨still,decide_eq_true own⟩)
      have window := h.window w waits before
      split
      · rename_i move
        have below : w.2 ≤ r.2 := by
          rcases move.2 with imm | above
          · by_contra higher
            exact before ((immediate imm).2 w waits move.1 (Nat.not_le.mp higher))
          · rw [move.1] at window
            omega
        rcases Nat.lt_or_eq_of_le below with less | equal
        · exact ⟨below,(passed w waits move.1 less).2⟩
        · exact absurd (Prod.ext move.1 equal) own
      · exact window

theorem stepKept {a : Action} (ordered : Ordered s a) (taken : step s a = some t) : Kept t := by
  cases a with
  | ask libfsId waits => exact askKept h ordered taken
  | peerAsk libfsId =>
    cases taken
    exact ⟨h.ahead,h.window,h.drawn,h.numbered⟩
  | request r => exact requestKept h ordered taken
  | response r carrier => exact responseKept h ordered taken
  | leave r =>
    obtain ⟨_,rfl⟩ := ifTaken taken
    exact ⟨fun w mem => h.ahead w (List.mem_of_mem_erase mem),fun w mem => h.window w (List.mem_of_mem_erase mem),
      fun w mem => h.drawn w (List.mem_of_mem_erase mem),h.numbered⟩

end steps

theorem initKept : Kept init := ⟨nofun,nofun,nofun,nofun⟩

theorem orderedExact {s : State} (reached : Reach step Ordered init s) : Exact s :=
  keptExact (reachInvariant Kept initKept (fun _ _ _ h => stepKept h) reached)

theorem orderedExactServed : ∃ s, Reach step Ordered init s ∧ s.waiting = [(0,2)] ∧ s.unanswered = [] ∧ Exact s := by
  obtain ⟨s,reached,shape⟩ : ∃ s, Reach step Ordered init s ∧ s.waiting = [(0,2)] ∧ s.unanswered = [] :=
    traceReach [.ask 0 true,.ask 0 true,.ask 3 false,.response (0,1) (.custom 0),.leave (0,1),.response (0,2) .imm,.response (3,1) (.custom 3),
        .peerAsk 0,.request (0,1)] (by decide +kernel)
  exact ⟨s,reached,shape.1,shape.2,orderedExact reached⟩

theorem peerRequestEndsWait : ¬∀ s, Reach step Any init s → Exact s := by
  intro claim
  obtain ⟨s,reached,wrong⟩ : ∃ s, Reach step Any init s ∧ ¬(Exact s) :=
    traceAny [.ask 0 true,.peerAsk 0,.request (0,1)] (by decide +kernel)
  exact wrong (claim s reached)

end Wait

namespace Exchange

/- Numbers in `drawn` belong to threads that have not sent their request yet, those in `owed` to messages the
application has to answer. -/
structure End where
  seqns : Nat → Nat
  drawn : List (Nat × Nat)
  owed : List Nat
  ctx : Ctx
  sent : List Message
  inbox : List Message
  received : List Message
  called : List Message

abbrev State := Bool → End

inductive Action where
  | draw (side : Bool) (libfsId : Nat)
  | plain (side : Bool) (libfsId : Nat)
  | request (side : Bool) (r : Nat × Nat)
  | response (side : Bool) (carrier : Carrier) (id : Nat)
  | receive (side : Bool)

def Message.number : Message → Nat
  | .imm appId => appId
  | .custom _ appId => appId

def Message.libfsId : Message → Nat
  | .imm _ => 0
  | .custom libfsId _ => libfsId

def Message.isCustom : Message → Bool
  | .imm _ => false
  | .custom _ _ => true

def send (s : State) (side : Bool) (m : Message) : State :=
  let s := Function.update s side { s side with sent := (s side).sent ++ [m] }
  Function.update s (!side) { s (!side) with inbox := (s (!side)).inbox ++ [m] }

def step (s : State) : Action → Option State
  | .draw side libfsId =>
    let n := generateRpcSeqn ((s side).seqns libfsId)
    some (Function.update s side
      { s side with seqns := Function.update (s side).seqns libfsId n, drawn := (libfsId,n)::(s side).drawn })
  | .plain side libfsId => some (send s side (.custom libfsId 0))
  | .request side r =>
    if r ∈ (s side).drawn then
      some (send (Function.update s side { s side with drawn := (s side).drawn.erase r }) side (.custom r.1 r.2))
    else none
  | .response side carrier id =>
    if id ∈ (s side).owed then
      some (send (Function.update s side { s side with owed := (s side).owed.erase id }) side (carrier.message id))
    else none
  | .receive side =>
    match (s side).inbox with
    | [] => none
    | m::rest =>
      let (ctx,call) := handleCompletion (s side).ctx m
      some (Function.update s side
        { s side with
          ctx
          inbox := rest
          received := (s side).received ++ [m]
          called := if call then (s side).called ++ [m] else (s side).called
          owed := if call then Message.number m::(s side).owed else (s side).owed })

def fresh : End := ⟨fun _ => 0,[],[],⟨0,fun _ => 0⟩,[],[],[],[]⟩
def init : State := fun _ => fresh

def Handled (s : State) : Prop :=
  ∀ side, (s side).called.filter Message.isCustom = (s side).received.filter Message.isCustom
deriving Decidable

def Above (sent : List Message) (m : Message) : Prop :=
  Message.number m = 0 ∨ ∀ q ∈ sent, Message.libfsId q = Message.libfsId m → Message.number q < Message.number m
deriving Decidable

def Rising (s : State) : Action → Prop
  | .request side r => Above (s side).sent (.custom r.1 r.2)
  | .response side carrier id => Above (s side).sent (carrier.message id)
  | _ => True
instance (s : State) (a) : Decidable (Rising s a) := by cases a <;> unfold Rising <;> infer_instance

structure Flow (sender receiver : End) : Prop where
  queue : sender.sent = receiver.received ++ receiver.inbox
  rising : sender.sent.Pairwise fun q m =>
    Message.libfsId q = Message.libfsId m → Message.number m = 0 ∨ Message.number q < Message.number m
  last : ∀ l, receiver.ctx.last l = 0 ∨ ∃ q ∈ receiver.received, Message.libfsId q = l ∧ Message.number q = receiver.ctx.last l
  called : receiver.called.filter Message.isCustom = receiver.received.filter Message.isCustom

def Kept (s : State) : Prop := ∀ side, Flow (s (!side)) (s side)

variable {receiver receiver' : End} {m : Message}

theorem flowCongr {sender sender' : End} (h : Flow sender receiver) (sent : sender'.sent = sender.sent)
    (received : receiver'.received = receiver.received) (inbox : receiver'.inbox = receiver.inbox)
    (ctx : receiver'.ctx = receiver.ctx) (called : receiver'.called = receiver.called) : Flow sender' receiver' :=
  ⟨by rw [sent,received,inbox]; exact h.queue,by rw [sent]; exact h.rising,by rw [ctx,received]; exact h.last,
    by rw [called,received]; exact h.called⟩

theorem flowSend {sender sender' : End} (h : Flow sender receiver) (above : Above sender.sent m)
    (sent : sender'.sent = sender.sent ++ [m])
    (received : receiver'.received = receiver.received) (inbox : receiver'.inbox = receiver.inbox ++ [m])
    (ctx : receiver'.ctx = receiver.ctx) (called : receiver'.called = receiver.called) : Flow sender' receiver' := by
  refine ⟨by rw [sent,received,inbox,h.queue,List.append_assoc],?_,by rw [ctx,received]; exact h.last,
    by rw [called,received]; exact h.called⟩
  rw [sent,List.pairwise_append]
  refine ⟨h.rising,List.pairwise_singleton ..,fun q earlier m' last same => ?_⟩
  cases List.mem_singleton.mp last
  rcases above with zero | higher
  · exact .inl zero
  · exact .inr (higher q earlier same)

theorem lastReceived {ctx : Ctx} {received : List Message}
    (last : ∀ l, ctx.last l = 0 ∨ ∃ q ∈ received, Message.libfsId q = l ∧ Message.number q = ctx.last l) (l : Nat) :
    (handleCompletion ctx m).1.last l = 0 ∨
      ∃ q ∈ received ++ [m], Message.libfsId q = l ∧ Message.number q = (handleCompletion ctx m).1.last l := by
  have moves : (handleCompletion ctx m).1.last l = ctx.last l ∨
      Message.libfsId m = l ∧ Message.number m = (handleCompletion ctx m).1.last l := by
    cases m with
    | imm appId =>
      rw [lastImm]
      split
      · rename_i moved
        exact .inr ⟨moved.1.symm,rfl⟩
      · exact .inl rfl
    | custom libfsId appId =>
      rw [lastCustom]
      split
      · rename_i moved
        exact .inr ⟨moved.1.symm,rfl⟩
      · exact .inl rfl
  rcases moves with same | ⟨own,number⟩
  · rw [same]
    rcases last l with zero | ⟨q,mem,found⟩
    · exact .inl zero
    · exact .inr ⟨q,List.mem_append_left _ mem,found⟩
  · exact .inr ⟨m,List.mem_append_right _ (.head _),own,number⟩

theorem flowReceive {sender : End} {rest : List Message} (h : Flow sender receiver)
    (head : receiver.inbox = m::rest) (received : receiver'.received = receiver.received ++ [m]) (inbox : receiver'.inbox = rest)
    (ctx : receiver'.ctx = (handleCompletion receiver.ctx m).1)
    (called : receiver'.called = if (handleCompletion receiver.ctx m).2 then receiver.called ++ [m] else receiver.called) :
    Flow sender receiver' := by
  refine ⟨by rw [received,inbox,h.queue,head,List.append_assoc,List.singleton_append],h.rising,
    by rw [ctx,received]; exact lastReceived h.last,?_⟩
  cases m with
  | imm appId =>
    have same : receiver'.called.filter Message.isCustom = receiver.called.filter Message.isCustom := by
      rw [called]
      split <;> simp [Message.isCustom]
    rw [same,received,h.called]
    simp [Message.isCustom]
  | custom libfsId appId =>
    have new : appId = 0 ∨ receiver.ctx.last libfsId < appId := by
      have order := h.rising
      rw [h.queue,head,List.pairwise_append] at order
      rcases h.last libfsId with zero | ⟨q,earlier,same,number⟩
      · omega
      · rw [← number]
        exact order.2.2 q earlier _ (.head _) same
    rw [called,customCalled new,if_pos rfl,received,List.filter_append,List.filter_append,h.called]

theorem sendKept {s t : State} {side : Bool} (h : Kept s) (above : Above (s side).sent m)
    (sent : ∀ e, (t e).sent = (s e).sent) (received : ∀ e, (t e).received = (s e).received)
    (inbox : ∀ e, (t e).inbox = (s e).inbox) (ctx : ∀ e, (t e).ctx = (s e).ctx) (called : ∀ e, (t e).called = (s e).called) :
    Kept (send t side m) := by
  intro e
  by_cases own : e = side
  · subst own
    have flow := h e
    refine flowCongr flow ?_ ?_ ?_ ?_ ?_ <;> simp [send,sent,received,inbox,ctx,called]
  · have other : e = !side := by cases e <;> cases side <;> simp_all
    subst other
    have flow := h (!side)
    rw [Bool.not_not] at flow ⊢
    refine flowSend flow above ?_ ?_ ?_ ?_ ?_ <;> simp [send,sent,received,inbox,ctx,called]

theorem stepKept {s t : State} {a : Action} (h : Kept s) (rising : Rising s a) (taken : step s a = some t) : Kept t := by
  cases a with
  | draw side libfsId =>
    cases taken
    intro e
    refine flowCongr (h e) ?_ ?_ ?_ ?_ ?_ <;> simp only [Function.update_apply] <;> split <;> simp_all
  | plain side libfsId =>
    cases taken
    exact sendKept h (.inl rfl) (fun _ => rfl) (fun _ => rfl) (fun _ => rfl) (fun _ => rfl) (fun _ => rfl)
  | request side r =>
    obtain ⟨_,rfl⟩ := ifTaken taken
    refine sendKept h rising ?_ ?_ ?_ ?_ ?_ <;> intro e <;> simp only [Function.update_apply] <;> split <;> simp_all
  | response side carrier id =>
    obtain ⟨_,rfl⟩ := ifTaken taken
    refine sendKept h rising ?_ ?_ ?_ ?_ ?_ <;> intro e <;> simp only [Function.update_apply] <;> split <;> simp_all
  | receive side =>
    simp only [step] at taken
    split at taken <;> try contradiction
    rename_i m rest head
    cases taken
    intro e
    by_cases own : e = side
    · subst own
      rw [update_of_ne (by simp),update_self]
      exact flowReceive (h e) head rfl rfl rfl rfl
    · have other : side = !e := by cases e <;> cases side <;> simp_all
      subst other
      rw [update_self,update_of_ne own]
      exact flowCongr (h e) rfl rfl rfl rfl rfl

theorem initKept : Kept init := fun _ => ⟨rfl,.nil,fun _ => .inl (ite_self 0),rfl⟩

theorem risingHandled {s : State} (reached : Reach step Rising init s) : Handled s :=
  fun side => (reachInvariant Kept initKept (fun _ _ _ h => stepKept h) reached side).called

theorem risingHandledAnswered : ∃ s, Reach step Rising init s ∧ (s true).called = [.custom 0 1,.custom 0 0,.custom 7 1] ∧
    (s false).called = [.custom 0 1] ∧ Handled s := by
  obtain ⟨s,reached,shape⟩ : ∃ s, Reach step Rising init s ∧ (s true).called = [.custom 0 1,.custom 0 0,.custom 7 1] ∧
      (s false).called = [.custom 0 1] :=
    traceReach [.draw false 0,.request false (0,1),.receive true,.response true (.custom 0) 1,.receive false,.plain false 0,.draw false 7,
        .request false (7,1),.receive true,.receive true] (by decide +kernel)
  exact ⟨s,reached,shape.1,shape.2,risingHandled reached⟩

/- Both ends number their first request 1; the answer to one of them is taken for a repetition
of the other. -/
theorem answerDropped : ¬∀ s, Reach step Any init s → Handled s := by
  intro claim
  obtain ⟨s,reached,wrong⟩ : ∃ s, Reach step Any init s ∧ ¬(Handled s) :=
    traceAny [.draw false 0,.request false (0,1),.draw true 0,.request true (0,1),.receive true,.response true (.custom 0) 1,
        .receive false,.receive false] (by decide +kernel)
  exact wrong (claim s reached)

end Exchange

end LineFS.Receive
