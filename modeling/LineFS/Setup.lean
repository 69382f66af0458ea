import LineFS.Base.Run
import Mathlib.Data.List.Nodup
import Mathlib.Data.List.Sort
import Mathlib.Data.List.Perm.Basic
import Mathlib.Logic.Function.Basic

/-! Connection set-up. Each end announces how many memory regions it has registered and then sends them
one by one, the next when the send before has completed. An end is ready when its regions are sent
and those of the other end have arrived. -/
namespace LineFS.Setup
open List (foldl_cons map_cons map_take mem_cons mem_of_getElem? mem_range take_add_one take_length)
open Base Function

def maxMr : Nat := 10

variable {ρ : Type}

def findFirstSetBit (bitmap : Nat → Bool) (n : Nat) : Option Nat := (List.range n).find? bitmap
def findNextSetBit (idx : Nat) (bitmap : Nat → Bool) (n : Nat) : Option Nat := (List.range n).find? fun i => idx < i && bitmap i
def findBitmapWeight (bitmap : Nat → Bool) (n : Nat) : Nat := (List.range n).countP bitmap

section bitmaps
variable {xs : List Nat} {n : Nat}

theorem firstMem (sorted : xs.Pairwise (· < ·)) (small : ∀ i ∈ xs, i < n) : findFirstSetBit (fun i => decide (i ∈ xs)) n = xs.head? := by
  unfold findFirstSetBit
  cases xs with
  | nil => simp
  | cons i rest =>
    rw [List.head?_cons,List.find?_range_eq_some]
    refine ⟨by simp,mem_range.mpr (small i (.head _)),fun j below => ?_⟩
    have lower : ∀ k ∈ rest, i < k := (List.pairwise_cons.mp sorted).1
    have : j ∉ i::rest := by
      intro mem
      rcases mem_cons.mp mem with rfl | later
      · omega
      · have := lower j later
        omega
    simp [this]

theorem aboveDrop (sorted : xs.Pairwise (· < ·)) {k i : Nat} (at_ : xs[k]? = some i) (j : Nat) : i < j ∧ j ∈ xs ↔ j ∈ xs.drop (k + 1) := by
  induction xs generalizing k with
  | nil => simp at at_
  | cons x rest ih =>
    obtain ⟨lower,sorted⟩ := List.pairwise_cons.mp sorted
    cases k with
    | zero =>
      cases (show x = i by simpa using at_)
      simp only [List.drop_succ_cons,List.drop_zero,mem_cons]
      exact ⟨fun ⟨above,mem⟩ => mem.resolve_left (by omega),fun mem => ⟨lower j mem,.inr mem⟩⟩
    | succ k =>
      have found : rest[k]? = some i := by simpa using at_
      have above : x < i := lower i (mem_of_getElem? found)
      rw [List.drop_succ_cons,← ih sorted found,mem_cons]
      exact ⟨fun ⟨after,mem⟩ => ⟨after,mem.resolve_left (by omega)⟩,fun ⟨after,mem⟩ => ⟨after,.inr mem⟩⟩

theorem nextMem (sorted : xs.Pairwise (· < ·)) (small : ∀ i ∈ xs, i < n) {k i : Nat} (at_ : xs[k]? = some i) :
    findNextSetBit i (fun i => decide (i ∈ xs)) n = xs[k + 1]? := by
  have rest := firstMem (n := n) (sorted.drop (i := k + 1)) fun j mem => small j (List.mem_of_mem_drop mem)
  rw [List.head?_drop] at rest
  rw [← rest]
  unfold findNextSetBit findFirstSetBit
  congr 1
  funext j
  simp only [← aboveDrop sorted at_ j,Bool.decide_and]

theorem weightMem (distinct : xs.Nodup) (small : ∀ i ∈ xs, i < n) : findBitmapWeight (fun i => decide (i ∈ xs)) n = xs.length := by
  unfold findBitmapWeight
  rw [List.countP_eq_length_filter]
  refine List.Perm.length_eq ((List.perm_ext_iff_of_nodup (List.nodup_range.filter _) distinct).mpr fun i => ?_)
  simp only [List.mem_filter,mem_range,decide_eq_true_eq,and_iff_right_iff_imp]
  exact small i

end bitmaps

/- The regions an end registers: at least one, of pairwise distinct types within the table. -/
structure Regions (ρ : Type) where
  list : List (Nat × ρ)
  some_ : list ≠ []
  distinct : (list.map Prod.fst).Nodup
  small : ∀ i ∈ list.map Prod.fst, i < maxMr

def Regions.numMrs (regions : Regions ρ) : Nat := regions.list.length

inductive Message (ρ : Type) where
  | init (length : Nat)
  | mr (type : Nat) (region : ρ)

inductive ConnState where
  | inactive
  | active
  | ready
  deriving DecidableEq

/- One end. Of the messages posted the first `completed` have completed here; `received` counts
those that arrived from the other end. -/
structure End (ρ : Type) where
  state : ConnState
  localMr : Nat → Option ρ
  localMrReady : Nat → Bool
  localMrSent : Nat → Bool
  localMrToSync : Option Nat
  remoteMr : Nat → Option ρ
  remoteMrReady : Nat → Bool
  remoteMrTotal : Nat
  mrInitSent : Bool
  mrInitRecv : Bool
  posted : List (Message ρ)
  completed : Nat
  received : Nat
  established : Bool
  entered : Nat
  connEvents : Nat

def mrRegister (regions : Regions ρ) : End ρ :=
  let localMr := regions.list.foldl (fun (table : Nat → Option ρ) r => Function.update table r.1 (some r.2)) fun _ => none
  let localMrReady := regions.list.foldl (fun (bits : Nat → Bool) r => Function.update bits r.1 true) fun _ => false
  ⟨.inactive,localMr,localMrReady,fun _ => false,findFirstSetBit localMrReady maxMr,fun _ => none,fun _ => false,0,
    false,false,[],0,0,false,0,0⟩

def mrAllRecv (e : End ρ) : Bool := e.remoteMrTotal = findBitmapWeight e.remoteMrReady maxMr && e.mrInitRecv
def mrAllSent (numMrs : Nat) (e : End ρ) : Bool := numMrs = findBitmapWeight e.localMrSent maxMr
def mrAllSynced (numMrs : Nat) (e : End ρ) : Bool := mrAllRecv e && mrAllSent numMrs e

def mrLocalReady (e : End ρ) (mrId : Nat) : Option Bool := if mrId > maxMr then none else some (e.localMrReady mrId)

def mrNextToSync (e : End ρ) : Option (End ρ × Nat) := do
  let idx ← e.localMrToSync
  if e.localMrReady idx then some ({ e with localMrToSync := findNextSetBit idx e.localMrReady maxMr },idx) else none

def mrPrepareMsg (e : End ρ) : Option (End ρ × Message ρ) := do
  let (e,id) ← mrNextToSync e
  let ready ← mrLocalReady e id
  if ready then
    let region ← e.localMr id
    some (e,.mr id region)
  else none

def createInit (numMrs : Nat) : Option (Message ρ) := if numMrs > maxMr then none else some (.init numMrs)

def sendMessage (e : End ρ) (m : Message ρ) : End ρ := { e with posted := e.posted ++ [m] }

def rcSetState (e : End ρ) (state : ConnState) : End ρ :=
  if e.state = state then e
  else { e with state, entered := if state = .ready then e.entered + 1 else e.entered }

def appConnEvent (e : End ρ) : End ρ := { e with connEvents := e.connEvents + 1 }

-- The first of the established event and the other end's message to come here sends `MSG_INIT`.
def sendInit (numMrs : Nat) (e : End ρ) : Option (End ρ) :=
  if e.mrInitSent then some e
  else (createInit numMrs).map fun m => sendMessage { e with mrInitSent := true } m

def onConnection (numMrs : Nat) (e : End ρ) : Option (End ρ) := sendInit numMrs (rcSetState { e with established := true } .active)

def ifSynced (numMrs : Nat) (e : End ρ) : End ρ := if mrAllSynced numMrs e then appConnEvent (rcSetState e .ready) else e

def handleRecv (numMrs : Nat) (e : End ρ) : Message ρ → Option (End ρ)
  | .init length => sendInit numMrs { e with remoteMrTotal := length, mrInitRecv := true }
  | .mr idx region =>
    if idx > maxMr - 1 then none
    else some (ifSynced numMrs
      { e with
        remoteMr := Function.update e.remoteMr idx (some region)
        remoteMrReady := Function.update e.remoteMrReady idx true })

def markSent (e : End ρ) : Message ρ → End ρ
  | .init _ => e
  | .mr idx _ => { e with localMrSent := Function.update e.localMrSent idx true }

def handleSend (numMrs : Nat) (e : End ρ) (m : Message ρ) : Option (End ρ) :=
  let e := markSent e m
  if mrAllSent numMrs e then some (ifSynced numMrs e)
  else (mrPrepareMsg e).map fun (e,m) => sendMessage e m

abbrev State (ρ : Type) := Bool → End ρ

inductive Action where
  | established (side : Bool)
  | receive (side : Bool)
  | complete (side : Bool)

variable (regions : Bool → Regions ρ)

def step (s : State ρ) : Action → Option (State ρ)
  | .established side =>
    if (s side).established then none
    else (onConnection (regions side).numMrs (s side)).map (Function.update s side)
  | .receive side => do
    let m ← (s !side).posted[(s side).received]?
    let e ← handleRecv (regions side).numMrs { s side with received := (s side).received + 1 } m
    some (Function.update s side e)
  | .complete side => do
    let m ← (s side).posted[(s side).completed]?
    let e ← handleSend (regions side).numMrs { s side with completed := (s side).completed + 1 } m
    some (Function.update s side e)

def init : State ρ := fun side => mrRegister (regions side)

def Pending (s : State ρ) : Action → Prop
  | .established side => (s side).established = false
  | .receive side => (s side).received < (s !side).posted.length
  | .complete side => (s side).completed < (s side).posted.length
instance (s : State ρ) (a) : Decidable (Pending s a) := by cases a <;> unfold Pending <;> infer_instance

def Regions.sorted (regions : Regions ρ) : List (Nat × ρ) := regions.list.insertionSort fun a b => a.1 ≤ b.1
def Regions.types (regions : Regions ρ) : List Nat := regions.sorted.map Prod.fst
def Regions.script (regions : Regions ρ) : List (Message ρ) := .init regions.numMrs :: regions.sorted.map fun r => .mr r.1 r.2

section regions
variable (regions : Regions ρ)

theorem sortedPerm : regions.sorted.Perm regions.list := List.perm_insertionSort ..

theorem sortedLength : regions.sorted.length = regions.numMrs := (sortedPerm regions).length_eq

theorem typesLength : regions.types.length = regions.numMrs := by rw [Regions.types,List.length_map,sortedLength]

theorem typesPerm : regions.types.Perm (regions.list.map Prod.fst) := (sortedPerm regions).map _

theorem typesDistinct : regions.types.Nodup := (typesPerm regions).nodup_iff.mpr regions.distinct

theorem typesSmall : ∀ i ∈ regions.types, i < maxMr := fun i mem => regions.small i ((typesPerm regions).mem_iff.mp mem)

theorem typesSorted : regions.types.Pairwise (· < ·) := by
  have ordered : regions.types.Pairwise (· ≤ ·) := by
    rw [Regions.types,List.pairwise_map]
    exact List.pairwise_insertionSort (fun a b : Nat × ρ => a.1 ≤ b.1) regions.list
  exact (ordered.and (typesDistinct regions)).imp fun ⟨le,ne⟩ => Nat.lt_of_le_of_ne le ne

theorem numMrsPos : 0 < regions.numMrs := List.length_pos_iff.mpr regions.some_

theorem numMrsSmall : regions.numMrs ≤ maxMr := by
  have few := (List.subperm_of_subset (typesDistinct regions) fun i mem => mem_range.mpr (typesSmall regions i mem)).length_le
  rwa [typesLength,List.length_range] at few

theorem scriptLength : regions.script.length = regions.numMrs + 1 := by
  rw [Regions.script,List.length_cons,List.length_map,sortedLength]

theorem scriptMr {k : Nat} (less : k < regions.numMrs) :
    ∃ r ∈ regions.list, regions.sorted[k]? = some r ∧ regions.types[k]? = some r.1 ∧ regions.script[k + 1]? = some (.mr r.1 r.2) := by
  have inside : k < regions.sorted.length := by rwa [sortedLength]
  have found : regions.sorted[k]? = some regions.sorted[k] := List.getElem?_eq_getElem inside
  refine ⟨regions.sorted[k],(sortedPerm regions).mem_iff.mp (List.getElem_mem inside),found,?_,?_⟩
  · rw [Regions.types,List.getElem?_map,found,Option.map_some]
  · rw [Regions.script,List.getElem?_cons_succ,List.getElem?_map,found,Option.map_some]

theorem weightTake (k : Nat) : findBitmapWeight (fun i => decide (i ∈ regions.types.take k)) maxMr = min k regions.numMrs := by
  rw [weightMem ((typesDistinct regions).sublist (List.take_sublist ..)) fun i mem => typesSmall regions i (List.mem_of_mem_take mem),
    List.length_take,typesLength]

theorem bitsTake {k i : Nat} (found : regions.types[k]? = some i) :
    update (fun j => decide (j ∈ regions.types.take k)) i true = fun j => decide (j ∈ regions.types.take (k + 1)) := by
  funext j
  rw [take_add_one,found,Option.toList_some]
  by_cases same : j = i
  · simp [same]
  · simp [update_of_ne,same]

theorem copyTake {table : Nat → Option ρ} {k : Nat} {r : Nat × ρ} (found : regions.sorted[k]? = some r)
    (old : ∀ q ∈ regions.sorted.take k, table q.1 = some q.2) :
    ∀ q ∈ regions.sorted.take (k + 1), update table r.1 (some r.2) q.1 = some q.2 := by
  intro q mem
  rw [take_add_one,found,Option.toList_some] at mem
  rcases memSnoc mem with early | rfl
  · by_cases same : q.1 = r.1
    · have listed {p : Nat × ρ} (mem : p ∈ regions.sorted) : p ∈ regions.list := (sortedPerm regions).mem_iff.mp mem
      cases List.inj_on_of_nodup_map regions.distinct (listed (List.mem_of_mem_take early)) (listed (mem_of_getElem? found)) same
      exact update_self ..
    · rw [update_of_ne same]
      exact old q early
  · exact update_self ..

end regions

structure Core (own peer : Regions ρ) (e : End ρ) : Prop where
  table : ∀ r ∈ own.list, e.localMr r.1 = some r.2
  ready : e.localMrReady = fun i => decide (i ∈ own.types)
  posted : e.posted = own.script.take e.posted.length
  initSent : e.mrInitSent = decide (0 < e.posted.length)
  pace : e.completed = e.posted.length ∧ (e.posted.length = 0 ∨ e.posted.length = own.numMrs + 1) ∨ e.completed + 1 = e.posted.length
  sent : e.localMrSent = fun i => decide (i ∈ own.types.take (e.completed - 1))
  next : e.localMrToSync = own.types[e.posted.length - 1]?
  few : e.received ≤ peer.numMrs + 1
  initRecv : e.mrInitRecv = decide (0 < e.received)
  total : 0 < e.received → e.remoteMrTotal = peer.numMrs
  remote : e.remoteMrReady = fun i => decide (i ∈ peer.types.take (e.received - 1))
  copied : ∀ r ∈ peer.sorted.take (e.received - 1), e.remoteMr r.1 = some r.2

structure Kept (own peer : Regions ρ) (e : End ρ) : Prop extends Core own peer e where
  events : e.connEvents = if e.completed = own.numMrs + 1 ∧ e.received = peer.numMrs + 1 then 1 else 0
  entered : e.entered = e.connEvents
  waits : e.connEvents = 0 → e.state ≠ .ready

def progress (e : End ρ) : Nat := e.established.toNat + e.received + e.completed

section ends
variable {own peer : Regions ρ} {e : End ρ} (h : Core own peer e)
include h

theorem postedBound : e.posted.length ≤ own.numMrs + 1 := by
  have := congrArg List.length h.posted
  rw [List.length_take,scriptLength] at this
  omega

theorem completedBound : e.completed ≤ e.posted.length := by
  have := h.pace
  omega

theorem allSentIff : mrAllSent own.numMrs e = true ↔ e.completed = own.numMrs + 1 := by
  have some_ := numMrsPos own
  have posted := postedBound h
  have completed := completedBound h
  rw [mrAllSent,h.sent,weightTake,decide_eq_true_eq]
  omega

theorem allRecvIff : mrAllRecv e = true ↔ e.received = peer.numMrs + 1 := by
  have few := h.few
  rw [mrAllRecv,h.remote,weightTake,h.initRecv,Bool.and_eq_true,decide_eq_true_eq,decide_eq_true_eq]
  constructor
  · rintro ⟨total,some_⟩
    rw [h.total some_] at total
    omega
  · intro all
    refine ⟨?_,by omega⟩
    rw [h.total (by omega)]
    omega

theorem allSyncedIff : mrAllSynced own.numMrs e = true ↔ e.completed = own.numMrs + 1 ∧ e.received = peer.numMrs + 1 := by
  rw [mrAllSynced,Bool.and_eq_true,allSentIff h,allRecvIff h,and_comm]

theorem ifSyncedKept (none_ : e.connEvents = 0) (entered : e.entered = e.connEvents) (waits : e.state ≠ .ready) :
    Kept own peer (ifSynced own.numMrs e) ∧ (ifSynced own.numMrs e).posted = e.posted ∧
      (ifSynced own.numMrs e).received = e.received ∧ (ifSynced own.numMrs e).completed = e.completed ∧
      (ifSynced own.numMrs e).established = e.established := by
  unfold ifSynced
  split
  · rename_i synced
    have last := (allSyncedIff h).mp synced
    rw [rcSetState,if_neg waits,if_pos rfl,appConnEvent]
    refine ⟨{ h with events := ?_, entered := ?_, waits := fun zero => absurd zero (Nat.succ_ne_zero _) },rfl,rfl,rfl,rfl⟩
    · rw [none_]
      exact (if_pos last).symm
    · exact congrArg (· + 1) entered
  · rename_i open_
    have early := mt (allSyncedIff h).mpr open_
    exact ⟨{ h with events := by rw [none_,if_neg early], entered, waits := fun _ => waits },rfl,rfl,rfl,rfl⟩

end ends

structure Moves (own peer : Regions ρ) (e e' : End ρ) : Prop where
  kept : Kept own peer e'
  posted : e.posted.length ≤ e'.posted.length
  begun : (e.established = true → 0 < e.posted.length) → e'.established = true → 0 < e'.posted.length
  progress : progress e' = progress e + 1

section handlers
variable {own peer : Regions ρ} {e : End ρ} (h : Kept own peer e)
include h

theorem sendInitKept : ∃ e', sendInit own.numMrs e = some e' ∧ Kept own peer e' ∧ 0 < e'.posted.length ∧
    e.posted.length ≤ e'.posted.length ∧ e'.received = e.received ∧ e'.completed = e.completed ∧ e'.established = e.established := by
  unfold sendInit
  by_cases begun : 0 < e.posted.length
  · rw [h.initSent,decide_eq_true begun,if_pos rfl]
    exact ⟨e,rfl,h,begun,Nat.le_refl _,rfl,rfl,rfl⟩
  · have none_ : e.posted = [] := List.length_eq_zero_iff.mp (by omega)
    have idle : e.completed = 0 := by
      have := h.pace
      simp only [none_,List.length_nil] at this
      omega
    rw [h.initSent,decide_eq_false begun,if_neg Bool.false_ne_true,createInit,if_neg (Nat.not_lt.mpr (numMrsSmall own)),Option.map_some]
    refine ⟨_,rfl,{ h with posted := ?_, initSent := ?_, pace := ?_, next := ?_ },?_,?_,rfl,rfl,rfl⟩
    · simp [sendMessage,none_,Regions.script]
    · simp [sendMessage]
    · simp [sendMessage,none_,idle]
    · have := h.next
      simpa [sendMessage,none_] using this
    · simp [sendMessage]
    · simp [sendMessage]

theorem onConnectionKept : ∃ e', onConnection own.numMrs e = some e' ∧ Kept own peer e' ∧ 0 < e'.posted.length ∧
    e.posted.length ≤ e'.posted.length ∧ e'.received = e.received ∧ e'.completed = e.completed ∧ e'.established = true := by
  have active : Kept own peer (rcSetState { e with established := true } .active) := by
    unfold rcSetState
    split
    · exact { h with }
    · exact { h with waits := fun _ => nofun }
  obtain ⟨e',sent,kept,begun,more,received,completed,established⟩ := sendInitKept active
  have same : (rcSetState { e with established := true } .active).posted = e.posted ∧
      (rcSetState { e with established := true } .active).received = e.received ∧
      (rcSetState { e with established := true } .active).completed = e.completed ∧
      (rcSetState { e with established := true } .active).established = true := by
    unfold rcSetState
    split <;> exact ⟨rfl,rfl,rfl,rfl⟩
  rw [same.1] at more
  exact ⟨e',sent,kept,begun,more,received.trans same.2.1,completed.trans same.2.2.1,established.trans same.2.2.2⟩

theorem recvKept {m : Message ρ} (found : peer.script[e.received]? = some m) :
    ∃ e', handleRecv own.numMrs { e with received := e.received + 1 } m = some e' ∧ Moves own peer e e' ∧ e'.received = e.received + 1 := by
  have few : e.received < peer.numMrs + 1 := by
    rw [← scriptLength]
    exact (List.getElem?_eq_some_iff.mp found).1
  have quiet : e.connEvents = 0 := by
    rw [h.events,if_neg (by omega)]
  rcases Nat.eq_zero_or_pos e.received with first | later
  · rw [first] at found
    cases (show Message.init peer.numMrs = m by simpa [Regions.script] using found)
    have some_ := numMrsPos peer
    have begun : Kept own peer { e with received := e.received + 1, remoteMrTotal := peer.numMrs, mrInitRecv := true } :=
      { h with
        few
        initRecv := by simp
        total := fun _ => rfl
        remote := by simp [h.remote,first]
        copied := by simp [first]
        events := by simp only [quiet,first]; rw [if_neg (by omega)] }
    obtain ⟨e',sent,kept,posted,more,received,completed,established⟩ := sendInitKept begun
    exact ⟨e',sent,⟨kept,more,fun _ _ => posted,by simp only [progress,received,completed,established]; omega⟩,received⟩
  · obtain ⟨k,count⟩ : ∃ k, e.received = k + 1 := ⟨e.received - 1,by omega⟩
    obtain ⟨r,_,sorted,type,script⟩ := scriptMr peer (show k < peer.numMrs by omega)
    rw [count,script] at found
    cases found
    have inside : r.1 < maxMr := typesSmall peer r.1 (mem_of_getElem? type)
    have core : Core own peer
        { e with
          received := e.received + 1
          remoteMr := update e.remoteMr r.1 (some r.2)
          remoteMrReady := update e.remoteMrReady r.1 true } :=
      { h.toCore with
        few
        initRecv := by simp [h.initRecv,later]
        total := fun _ => h.total later
        remote := by simp only [h.remote,count,Nat.add_sub_cancel]; exact bitsTake peer type
        copied := by
          simp only [count,Nat.add_sub_cancel]
          exact copyTake peer sorted (by simpa only [count,Nat.add_sub_cancel] using h.copied) }
    obtain ⟨kept,posted,received,completed,established⟩ := ifSyncedKept core quiet h.entered (h.waits quiet)
    rw [handleRecv,if_neg (by omega)]
    exact ⟨_,rfl,⟨kept,by rw [posted],fun old => by rw [posted,established]; exact old,
      by simp only [progress,received,completed,established]; omega⟩,received⟩

theorem markSentEq {m : Message ρ} (found : own.script[e.completed]? = some m) :
    markSent { e with completed := e.completed + 1 } m =
      { e with completed := e.completed + 1, localMrSent := fun i => decide (i ∈ own.types.take e.completed) } := by
  have sent := h.sent
  rcases Nat.eq_zero_or_pos e.completed with first | later
  · rw [first] at found
    cases (show Message.init own.numMrs = m by simpa [Regions.script] using found)
    rw [first] at sent
    simp only [markSent,sent,first]
  · obtain ⟨k,count⟩ : ∃ k, e.completed = k + 1 := ⟨e.completed - 1,by omega⟩
    have less : k < own.numMrs := by
      have := (List.getElem?_eq_some_iff.mp found).1
      rw [scriptLength] at this
      omega
    obtain ⟨r,_,_,type,script⟩ := scriptMr own less
    rw [count,script] at found
    cases found
    rw [count,Nat.add_sub_cancel] at sent
    simp only [markSent,sent,bitsTake own type,count]

theorem prepareNext (sent : Nat → Bool) (completed : Nat) (more : e.posted.length - 1 < own.numMrs) :
    ∃ r : Nat × ρ, own.script[e.posted.length - 1 + 1]? = some (.mr r.1 r.2) ∧
      mrPrepareMsg { e with completed, localMrSent := sent } =
        some ({ e with completed, localMrSent := sent, localMrToSync := own.types[e.posted.length - 1 + 1]? },.mr r.1 r.2) := by
  obtain ⟨r,listed,_,type,script⟩ := scriptMr own more
  have member : r.1 ∈ own.types := mem_of_getElem? type
  have small := typesSmall own r.1 member
  have next := nextMem (typesSorted own) (typesSmall own) type
  refine ⟨r,script,?_⟩
  simp only [mrPrepareMsg,mrNextToSync,mrLocalReady,h.next,type,h.ready,h.table r listed,member,next,decide_true,if_true,
    if_neg (Nat.not_lt.mpr (Nat.le_of_lt small)),Option.bind_eq_bind,Option.bind_some]

theorem sendKept {m : Message ρ} (found : e.posted[e.completed]? = some m) :
    ∃ e', handleSend own.numMrs { e with completed := e.completed + 1 } m = some e' ∧ Moves own peer e e' ∧ e'.received = e.received := by
  have less : e.completed < e.posted.length := (List.getElem?_eq_some_iff.mp found).1
  have paced : e.completed + 1 = e.posted.length := by
    have := h.pace
    omega
  have bound := postedBound h.toCore
  have quiet : e.connEvents = 0 := by rw [h.events,if_neg (by omega)]
  have script : own.script[e.completed]? = some m := by
    rw [h.posted,List.getElem?_take_of_lt less] at found
    exact found
  have weight : mrAllSent own.numMrs
      { e with completed := e.completed + 1, localMrSent := fun i => decide (i ∈ own.types.take e.completed) } =
        decide (own.numMrs ≤ e.completed) := by
    rw [mrAllSent,weightTake,decide_eq_decide]
    omega
  simp only [handleSend,markSentEq h script,weight]
  by_cases all : own.numMrs ≤ e.completed
  · -- the last message: the other end may have been faster
    have core : Core own peer
        { e with completed := e.completed + 1, localMrSent := fun i => decide (i ∈ own.types.take e.completed) } :=
      { h.toCore with pace := .inl ⟨paced,.inr (paced.symm.trans (by omega))⟩, sent := rfl }
    obtain ⟨kept,posted,received,completed,established⟩ := ifSyncedKept core quiet h.entered (h.waits quiet)
    rw [decide_eq_true all,if_pos rfl]
    exact ⟨_,rfl,⟨kept,by rw [posted],fun old => by rw [posted,established]; exact old,
      by simp only [progress,received,completed,established]; omega⟩,received⟩
  · obtain ⟨r,next,prepared⟩ := prepareNext h (fun i => decide (i ∈ own.types.take e.completed)) (e.completed + 1) (by omega)
    rw [decide_eq_false all,if_neg Bool.false_ne_true,prepared,Option.map_some]
    have length : (e.posted ++ [Message.mr r.1 r.2]).length = e.posted.length + 1 := by simp
    refine ⟨_,rfl,⟨{ h with posted := ?_, initSent := ?_, pace := ?_, sent := rfl, next := ?_, events := ?_ },?_,fun _ _ => ?_,?_⟩,rfl⟩
    · simp only [sendMessage,length]
      rw [show e.posted.length - 1 + 1 = e.posted.length by omega] at next
      rw [take_add_one,next,Option.toList_some,← h.posted]
    · simp only [sendMessage,length,h.initSent]
      exact decide_eq_decide.mpr (by omega)
    · simp only [sendMessage,length]
      omega
    · simp only [sendMessage,length]
      rw [show e.posted.length + 1 - 1 = e.posted.length - 1 + 1 by omega]
    · simp only [sendMessage,quiet]
      rw [if_neg (by omega)]
    · simp only [sendMessage,length]
      omega
    · simp only [sendMessage,length]
      omega
    · simp only [sendMessage,progress]
      omega

end handlers

structure Inv (s : State ρ) : Prop where
  ends : ∀ side, Kept (regions side) (regions !side) (s side)
  queue : ∀ side, (s side).received ≤ (s !side).posted.length
  begun : ∀ side, (s side).established = true → 0 < (s side).posted.length

def events (s : State ρ) : Nat := progress (s true) + progress (s false)

theorem stepPending {regions : Bool → Regions ρ} {s t : State ρ} {a : Action} (taken : step regions s a = some t) : Pending s a := by
  cases a with
  | established side =>
    obtain ⟨idle,taken⟩ := Option.ite_none_left_eq_some.mp taken
    exact Bool.eq_false_iff.mpr idle
  | receive side =>
    simp only [step,Option.bind_eq_bind,Option.bind_eq_some_iff] at taken
    obtain ⟨m,found,_⟩ := taken
    exact (List.getElem?_eq_some_iff.mp found).1
  | complete side =>
    simp only [step,Option.bind_eq_bind,Option.bind_eq_some_iff] at taken
    obtain ⟨m,found,_⟩ := taken
    exact (List.getElem?_eq_some_iff.mp found).1

section steps
variable {regions} {s : State ρ} (h : Inv regions s)
include h

theorem moveInv {side : Bool} {e : End ρ} (moves : Moves (regions side) (regions !side) (s side) e)
    (queue : e.received ≤ (s !side).posted.length) :
    Inv regions (update s side e) ∧ events (update s side e) = events s + 1 := by
  have more := moves.posted
  refine ⟨⟨fun other => ?_,fun other => ?_,fun other => ?_⟩,?_⟩
  · by_cases same : other = side
    · subst same
      rw [update_self]
      exact moves.kept
    · rw [update_of_ne same]
      exact h.ends other
  · by_cases same : other = side
    · subst same
      rw [update_self,update_of_ne (by simp)]
      exact queue
    · have opposite : side = !other := by cases other <;> cases side <;> simp_all
      subst opposite
      rw [update_of_ne same,update_self]
      exact Nat.le_trans (h.queue other) more
  · by_cases same : other = side
    · subst same
      rw [update_self]
      exact moves.begun (h.begun other)
    · rw [update_of_ne same]
      exact h.begun other
  · have progress := moves.progress
    unfold events
    cases side
    · rw [update_self,update_of_ne (by decide),progress]
      omega
    · rw [update_self,update_of_ne (by decide),progress]
      omega

theorem postedScript {side : Bool} {k : Nat} {m : Message ρ} (found : (s side).posted[k]? = some m) :
    (regions side).script[k]? = some m := by
  have less := (List.getElem?_eq_some_iff.mp found).1
  rw [(h.ends side).posted,List.getElem?_take_of_lt less] at found
  exact found

theorem stepInv {a : Action} (pending : Pending s a) :
    ∃ t, step regions s a = some t ∧ Inv regions t ∧ events t = events s + 1 := by
  cases a with
  | established side =>
    have idle : (s side).established = false := pending
    obtain ⟨e,handled,kept,begun,more,received,completed,established⟩ := onConnectionKept (h.ends side)
    have moves : Moves (regions side) (regions !side) (s side) e :=
      ⟨kept,more,fun _ _ => begun,by simp only [progress,received,completed,established,idle,Bool.toNat_true,Bool.toNat_false]; omega⟩
    refine ⟨_,?_,moveInv h moves (received ▸ h.queue side)⟩
    simp [step,idle,handled]
  | receive side =>
    have found := List.getElem?_eq_getElem pending
    have ⟨e,handled,moves,received⟩ := recvKept (h.ends side) (postedScript h found)
    refine ⟨_,?_,moveInv h moves (received ▸ pending)⟩
    simp [step,found,handled]
  | complete side =>
    have found := List.getElem?_eq_getElem pending
    have ⟨e,handled,moves,received⟩ := sendKept (h.ends side) found
    refine ⟨_,?_,moveInv h moves (received ▸ h.queue side)⟩
    simp [step,found,handled]

theorem runInv {as : List Action} {t : State ρ} (ran : run (step regions) s as = some t) :
    Inv regions t ∧ events t = events s + as.length := by
  induction as generalizing s with
  | nil =>
    cases ran
    exact ⟨h,rfl⟩
  | cons a as ih =>
    simp only [run,Option.bind_eq_some_iff] at ran
    obtain ⟨m,taken,rest⟩ := ran
    obtain ⟨m',taken',inv,more⟩ := stepInv h (stepPending taken)
    cases taken.symm.trans taken'
    obtain ⟨inv,count⟩ := ih inv rest
    exact ⟨inv,by rw [count,more,List.length_cons]; omega⟩

end steps

section start
variable {xs : List (Nat × ρ)}

theorem foldReady (bits : Nat → Bool) (i : Nat) :
    xs.foldl (fun (bits : Nat → Bool) r => update bits r.1 true) bits i = (bits i || decide (i ∈ xs.map Prod.fst)) := by
  induction xs generalizing bits with
  | nil => simp
  | cons x xs ih =>
    rw [foldl_cons,ih]
    by_cases same : i = x.1
    · simp [same]
    · rw [update_of_ne same]
      refine congrArg (bits i || ·) (decide_eq_decide.mpr ?_)
      rw [map_cons,mem_cons]
      exact (or_iff_right same).symm

theorem foldTableOther (table : Nat → Option ρ) {i : Nat} (other : i ∉ xs.map Prod.fst) :
    xs.foldl (fun (table : Nat → Option ρ) r => update table r.1 (some r.2)) table i = table i := by
  induction xs generalizing table with
  | nil => rfl
  | cons x xs ih =>
    rw [map_cons,mem_cons,not_or] at other
    rw [foldl_cons,ih _ other.2,update_of_ne other.1]

theorem foldTable (table : Nat → Option ρ) (distinct : (xs.map Prod.fst).Nodup) {r : Nat × ρ} (mem : r ∈ xs) :
    xs.foldl (fun (table : Nat → Option ρ) r => update table r.1 (some r.2)) table r.1 = some r.2 := by
  induction xs generalizing table with
  | nil => nomatch mem
  | cons x xs ih =>
    rw [map_cons,List.nodup_cons] at distinct
    rw [foldl_cons]
    rcases mem_cons.mp mem with rfl | later
    · rw [foldTableOther _ distinct.1,update_self]
    · exact ih _ distinct.2 later

end start

theorem registerKept (own peer : Regions ρ) : Kept own peer (mrRegister own) := by
  have ready : (mrRegister own).localMrReady = fun i => decide (i ∈ own.types) := by
    funext i
    refine (foldReady _ i).trans ?_
    rw [Bool.false_or]
    exact decide_eq_decide.mpr (typesPerm own).mem_iff.symm
  have next : (mrRegister own).localMrToSync = own.types[0]? := by
    refine (congrArg (findFirstSetBit · maxMr) ready).trans ?_
    rw [firstMem (typesSorted own) (typesSmall own),List.head?_eq_getElem?]
  have quiet : (0 : Nat) = if 0 = own.numMrs + 1 ∧ 0 = peer.numMrs + 1 then 1 else 0 := by simp
  exact ⟨⟨fun r mem => foldTable _ own.distinct mem,ready,rfl,rfl,.inl ⟨rfl,.inl rfl⟩,rfl,next,Nat.zero_le _,rfl,nofun,rfl,nofun⟩,
    quiet,rfl,nofun⟩

theorem initInv : Inv regions (init regions) := ⟨fun _ => registerKept ..,fun _ => Nat.zero_le _,nofun⟩

def Message.isInit : Message ρ → Bool
  | .init _ => true
  | .mr _ _ => false

def Message.region : Message ρ → Option (Nat × ρ)
  | .init _ => none
  | .mr type region => some (type,region)

structure Safe (own peer : Regions ρ) (e : End ρ) : Prop where
  inits : e.posted.countP Message.isInit ≤ 1
  mrs : (e.posted.filterMap Message.region).Subperm own.list
  entered : e.entered = e.connEvents
  once : e.connEvents ≤ 1
  after : 0 < e.connEvents → ∀ r ∈ peer.list, e.remoteMrReady r.1 = true ∧ e.remoteMr r.1 = some r.2

structure Complete (own : Regions ρ) (e : End ρ) : Prop where
  inits : e.posted.countP Message.isInit = 1
  mrs : (e.posted.filterMap Message.region).Perm own.list
  entered : e.entered = 1
  once : e.connEvents = 1

section script
variable (own : Regions ρ)

theorem scriptInits (k : Nat) : (own.script.take k).countP Message.isInit = min k 1 := by
  cases k with
  | zero => rfl
  | succ k =>
    have none_ : ((own.sorted.map fun r => Message.mr r.1 r.2).take k).countP Message.isInit = 0 := by
      rw [List.countP_eq_zero]
      intro m mem
      obtain ⟨r,_,rfl⟩ := List.mem_map.mp (List.mem_of_mem_take mem)
      simp [Message.isInit]
    rw [Regions.script,List.take_succ_cons,List.countP_cons_of_pos rfl,none_]
    omega

theorem scriptRegions (k : Nat) : (own.script.take k).filterMap Message.region = own.sorted.take (k - 1) := by
  cases k with
  | zero => rfl
  | succ k =>
    rw [Regions.script,List.take_succ_cons,List.filterMap_cons_none rfl,← map_take,List.filterMap_map]
    exact List.filterMap_some

end script

theorem keptSafe {own peer : Regions ρ} {e : End ρ} (h : Kept own peer e) : Safe own peer e := by
  refine ⟨?_,?_,h.entered,?_,fun some_ r mem => ?_⟩
  · rw [h.posted,scriptInits]
    omega
  · rw [h.posted,scriptRegions]
    exact (List.take_sublist ..).subperm.trans (sortedPerm own).subperm
  · rw [h.events]
    split <;> omega
  · have all : e.received = peer.numMrs + 1 := by
      have events := h.events
      split at events
      · rename_i last
        exact last.2
      · omega
    have listed : r ∈ peer.sorted.take (e.received - 1) := by
      rw [all,Nat.add_sub_cancel,← sortedLength,take_length]
      exact (sortedPerm peer).mem_iff.mpr mem
    refine ⟨?_,h.copied r listed⟩
    rw [h.remote]
    refine decide_eq_true ?_
    rw [Regions.types,← map_take]
    exact List.mem_map_of_mem listed

theorem quietComplete {s : State ρ} (h : Inv regions s) (quiet : ∀ a, ¬Pending s a) (side : Bool) : Complete (regions side) (s side) := by
  have full (side : Bool) : (s side).completed = (regions side).numMrs + 1 ∧ (s side).posted.length = (regions side).numMrs + 1 := by
    have established : (s side).established = true := Bool.not_eq_false _ ▸ quiet (.established side)
    have begun := h.begun side established
    have done : ¬(s side).completed < (s side).posted.length := quiet (.complete side)
    have pace := (h.ends side).pace
    omega
  have arrived : (s side).received = (regions !side).numMrs + 1 := by
    have done : ¬(s side).received < (s !side).posted.length := quiet (.receive side)
    have few := (h.ends side).few
    have other := (full !side).2
    omega
  have posted : (s side).posted = (regions side).script := by
    rw [(h.ends side).posted,(full side).2,← scriptLength,take_length]
  have whole : (regions side).script = (regions side).script.take ((regions side).numMrs + 1) := by rw [← scriptLength,take_length]
  have events : (s side).connEvents = 1 := by rw [(h.ends side).events,if_pos ⟨(full side).1,arrived⟩]
  refine ⟨?_,?_,(h.ends side).entered.trans events,events⟩
  · rw [posted,whole,scriptInits]
    omega
  · rw [posted,whole,scriptRegions,Nat.add_sub_cancel,← sortedLength,take_length]
    exact sortedPerm _

theorem eventsBound {s : State ρ} (h : Inv regions s) : events s ≤ 2 * ((regions true).numMrs + (regions false).numMrs + 3) := by
  have one (side : Bool) : progress (s side) ≤ (regions side).numMrs + (regions !side).numMrs + 3 := by
    have flag := Bool.toNat_le (s side).established
    have few := (h.ends side).few
    have posted := postedBound (h.ends side).toCore
    have completed := completedBound (h.ends side).toCore
    unfold progress
    omega
  have left := one true
  have right := one false
  simp only [Bool.not_true,Bool.not_false] at left right
  unfold events
  omega

/- In every order of events set-up is safe, no event makes an end die, and it is complete when none is left. -/
theorem setUpOnce :
    (∀ s, Reach (step regions) Any (init regions) s →
      (∀ side, Safe (regions side) (regions !side) (s side)) ∧ (∀ a, Pending s a → (step regions s a).isSome) ∧
        ((∀ a, ¬Pending s a) → ∀ side, Complete (regions side) (s side))) ∧
    ∀ as s, run (step regions) (init regions) as = some s → as.length ≤ 2 * ((regions true).numMrs + (regions false).numMrs + 3) := by
  refine ⟨fun s reached => ?_,fun as s ran => ?_⟩
  · have inv : Inv regions s := reachInvariant (Inv regions) (initInv regions) (fun t a r kept _ taken => by
      obtain ⟨r',taken',inv,_⟩ := stepInv kept (stepPending taken)
      cases Option.some.inj (taken.symm.trans taken')
      exact inv) reached
    refine ⟨fun side => keptSafe (inv.ends side),fun a pending => ?_,quietComplete regions inv⟩
    obtain ⟨t,taken,_⟩ := stepInv inv pending
    rw [taken]
    rfl
  · obtain ⟨inv,count⟩ := runInv (initInv regions) ran
    have bound := eventsBound regions inv
    omega

def pair : Bool → Regions Nat
  | true => ⟨[(2,20),(0,10)],by decide,by decide,by decide⟩
  | false => ⟨[(1,30)],by decide,by decide,by decide⟩

theorem setUpOncePair : ∃ s, Reach (step pair) Any (init pair) s ∧ ∀ side, Complete (pair side) (s side) := by
  obtain ⟨s,reached,ended⟩ : ∃ s, Reach (step pair) Any (init pair) s ∧
      (∀ side, ¬Pending s (.established side) ∧ ¬Pending s (.receive side) ∧ ¬Pending s (.complete side)) :=
    traceAny [.established true,.complete true,.receive false,.receive false,.complete false,.complete true,.receive false,.complete true,
        .receive true,.complete false,.receive true,.established false] (by decide +kernel)
  have quiet : ∀ a, ¬Pending s a
    | .established side => (ended side).1
    | .receive side => (ended side).2.1
    | .complete side => (ended side).2.2
  exact ⟨s,reached,((setUpOnce pair).1 s reached).2.2 quiet⟩

end LineFS.Setup
