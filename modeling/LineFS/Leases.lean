import LineFS.Base.Run
import Mathlib.Algebra.GroupWithZero.Nat
import Mathlib.Data.List.Perm.Basic

/-! The lease of one inode at its lease manager. `modify_lease_state` changes the lease under
`mutex_revoke`; requests also hold `mutex` to their end, while a surrender can come in between. A writer
that meets readers gets its lease at once and leaves both locks to `handle_lazy_revoke`. -/
namespace LineFS.Leases
open List (append_nil nil_append nil_perm)
open Base

def libfsNum : Nat := 2

abbrev LibfsId := {id : Nat // 0 < id ∧ id < 2 ^ 8}

inductive LeaseType where
  | free
  | read
  | write
  deriving DecidableEq, Repr

inductive Request where
  | read
  | write
  deriving DecidableEq, Repr

structure Lease where
  state : LeaseType
  holders : Nat
  lversion : Nat
  lblock : Nat
  wid : Nat
  rid : List Nat
  slots : rid.length = libfsNum
  deriving DecidableEq

def lcacheAllocAdd : Lease := ⟨.free,0,0,0,0,List.replicate libfsNum 0,rfl⟩

def readers (rid : List Nat) : List Nat := rid.filter (· ≠ 0)
def Lease.recorded (ls : Lease) : List Nat := readers ls.rid ++ readers [ls.wid]

def replaceFirst (old new : Nat) : List Nat → Option (List Nat)
  | [] => none
  | r::rest => if r = old then some (new::rest) else (replaceFirst old new rest).map (r::·)

def replaceAll (old new : Nat) (rid : List Nat) : List Nat := rid.map fun r => if r = old then new else r

theorem replaceFirstLength {old new : Nat} {rid rid' : List Nat} (done : replaceFirst old new rid = some rid') :
    rid'.length = rid.length := by
  induction rid generalizing rid' with
  | nil => contradiction
  | cons r rest ih =>
    simp only [replaceFirst] at done
    split at done
    · cases done
      rfl
    · obtain ⟨rest',found,rfl⟩ := Option.map_eq_some_iff.mp done
      simp [ih found]

def Lease.withRid (ls : Lease) (rid : List Nat) (slots : rid.length = ls.rid.length) : Lease :=
  { ls with rid := rid, slots := slots.trans ls.slots }

def Lease.replaceRid (ls : Lease) (old new : Nat) : Option Lease :=
  match done : replaceFirst old new ls.rid with
  | none => none
  | some rid => some (ls.withRid rid (replaceFirstLength done))

def Lease.drop (ls : Lease) : Lease :=
  let holders := (ls.holders + 2 ^ 8 - 1) % 2 ^ 8
  { ls with holders := holders, state := if holders = 0 then .free else ls.state }

def Lease.surrender (ls : Lease) (reqId version logblock : Nat) : Option Lease :=
  match ls.state with
  | .free => none
  | .read => (ls.replaceRid reqId 0).map Lease.drop
  | .write =>
    if ls.wid ≠ reqId then none
    else some { ls with wid := 0, lversion := version % 2 ^ 16, lblock := logblock }.drop

def Lease.hold (ls : Lease) (state : LeaseType) : Lease :=
  { ls with holders := (ls.holders + 1) % 2 ^ 8, state := state }

def Lease.first (ls : Lease) (reqId : Nat) : Lease := ls.withRid (ls.rid.set 0 reqId) (by simp)

def Lease.another (ls : Lease) (reqId : Nat) : Lease :=
  let ls := ls.hold .read
  (ls.replaceRid 0 reqId).getD ls

def Lease.upgrade (ls : Lease) (reqId : Nat) : Lease :=
  { ls.withRid (replaceAll reqId 0 ls.rid) (by simp [replaceAll]) with wid := reqId, state := .write }

/- Who holds `mutex`; in `lazyRevoke` the pool thread holds `mutex_revoke` as well. -/
inductive Phase where
  | open
  | locked (newState : Request) (reqId : LibfsId)
  | waiting (newState : Request) (reqId : LibfsId)
  | woken (newState : Request) (reqId : LibfsId)
  | persist
  | lazyRevoke
  | lazyWait
  deriving DecidableEq

inductive DiscardPlace where
  | check
  | slot (i : Nat)
  | surrender (next : Option Nat)
  | done
  deriving DecidableEq

structure Discard where
  reqId : LibfsId
  place : DiscardPlace
  deriving DecidableEq

/- `granted` lists the ids with a lease they have not freed, one entry for each lease. A writer gives
up the read lease it had. -/
structure State where
  lease : Lease
  phase : Phase
  discards : List Discard
  granted : List Nat
  deriving DecidableEq

def init : State := ⟨lcacheAllocAdd,.open,[],[]⟩

inductive Action where
  | requestRead (reqId : LibfsId)
  | requestWrite (reqId : LibfsId)
  | proceed
  | requestFree (reqId : LibfsId) (version logblock : Nat)
  | discardLeases (reqId : LibfsId)
  | discardGo (k : Nat)
  deriving DecidableEq

def State.grant (s : State) (ls : Lease) (reqId : Nat) : State :=
  { s with lease := ls, phase := .persist, granted := s.granted ++ [reqId] }

def State.request (s : State) (newState : Request) (reqId : LibfsId) : Option State :=
  if s.phase = .open then some { s with phase := .locked newState reqId } else none

def proceed (s : State) : Option State :=
  match s.phase with
  | .open => none
  | .locked .read reqId =>
    match s.lease.state with
    | .free => some (s.grant ((s.lease.hold .read).first reqId) reqId)
    | .read => some (s.grant (s.lease.another reqId) reqId)
    | .write => some { s with phase := .waiting .read reqId }
  | .locked .write reqId =>
    match s.lease.state with
    | .free => some (s.grant { s.lease.hold .write with wid := reqId } reqId)
    | .read =>
      some { s with lease := s.lease.upgrade reqId, phase := .lazyRevoke,
                    granted := s.granted.filter (· ≠ reqId.val) ++ [reqId.val] }
    | .write => some { s with phase := .waiting .write reqId }
  | .waiting newState reqId => if s.lease.holders = 0 then some { s with phase := .woken newState reqId } else none
  | .woken .read reqId => some (s.grant ((s.lease.hold .read).first reqId) reqId)
  | .woken .write reqId => some (s.grant { s.lease with holders := 1, state := .write, wid := reqId } reqId)
  | .persist => some { s with phase := .open }
  | .lazyRevoke => some { s with phase := .lazyWait }
  | .lazyWait => if s.lease.holders ≤ 1 then some { s with phase := .open } else none

def State.surrender (s : State) (reqId version logblock : Nat) : Option State :=
  if s.phase = .lazyRevoke then none
  else
    match s.lease.surrender reqId version logblock with
    | none => some s
    | some ls => some { s with lease := ls, granted := s.granted.erase reqId }

def discardNext (ls : Lease) (d : Discard) : DiscardPlace :=
  match d.place with
  | .check =>
    match ls.state with
    | .write => if ls.wid = d.reqId then .surrender none else .done
    | .read => .slot 0
    | .free => .done
  | .slot i =>
    if i < libfsNum then if ls.rid[i]? = some d.reqId.val then .surrender (some (i + 1)) else .slot (i + 1)
    else .done
  | .surrender next => (next.map .slot).getD .done
  | .done => .done

def State.moveDiscard (s : State) (k : Nat) (place : DiscardPlace) : State :=
  { s with discards := s.discards.modify k fun d => { d with place := place } }

def step (s : State) : Action → Option State
  | .requestRead reqId => s.request .read reqId
  | .requestWrite reqId => s.request .write reqId
  | .proceed => proceed s
  | .requestFree reqId version logblock => s.surrender reqId version logblock
  | .discardLeases reqId => some { s with discards := s.discards ++ [⟨reqId,.check⟩] }
  | .discardGo k =>
    match s.discards[k]? with
    | none => none
    | some d =>
      let s' := s.moveDiscard k (discardNext s.lease d)
      match d.place with
      | .surrender _ => s'.surrender d.reqId 0 0
      | _ => some s'

def Phase.reader : Phase → Option LibfsId
  | .locked .read reqId => some reqId
  | _ => none

def Phase.writer : Phase → Option LibfsId
  | .locked .write reqId => some reqId
  | _ => none

/- A reader that is to be recorded beside others finds a slot. -/
def Bounded (s : State) (a : Action) : Prop :=
  a = .proceed → s.lease.state = .read → s.phase.reader ≠ none → (readers s.lease.rid).length < libfsNum
deriving Decidable

/- A writer that meets readers is the only one of them. -/
def SoleReader (s : State) (a : Action) : Prop :=
  a = .proceed → s.lease.state = .read → ∀ id ∈ s.phase.writer, readers s.lease.rid = [id.val]
deriving Decidable

def Allowed (s : State) (a : Action) : Prop := Bounded s a ∧ SoleReader s a
deriving Decidable

section Slots
variable {old new id : Nat} {rid rid' : List Nat}

theorem readersCons (r : Nat) (rid : List Nat) : readers (r::rid) = readers [r] ++ readers rid := by
  simp only [readers,← List.filter_append,List.singleton_append]

theorem readersOne (some : id ≠ 0) : readers [id] = [id] := by simp [readers,some]
theorem readersZero : readers [0] = [] := rfl

theorem readersLength (rid : List Nat) : (readers rid).length ≤ rid.length := List.length_filter_le _ _

theorem readersSet (none' : readers rid = []) (room : 0 < rid.length) (some : id ≠ 0) : readers (rid.set 0 id) = [id] := by
  cases rid with
  | nil => simp at room
  | cons r rest =>
    rw [readersCons,List.append_eq_nil_iff] at none'
    rw [List.set_cons_zero,readersCons,none'.2,readersOne some,append_nil]

theorem replaceFound (new : Nat) (mem : old ∈ rid) : ∃ rid', replaceFirst old new rid = some rid' := by
  induction rid with
  | nil => simp at mem
  | cons r rest ih =>
    simp only [replaceFirst]
    split
    · exact ⟨_,rfl⟩
    · rename_i other
      obtain ⟨rest',found⟩ := ih ((List.mem_cons.mp mem).resolve_left (Ne.symm other))
      exact ⟨r::rest',by rw [found]; rfl⟩

theorem replaceReaders (done : replaceFirst old new rid = some rid') :
    (readers [old] ++ readers rid').Perm (readers [new] ++ readers rid) := by
  induction rid generalizing rid' with
  | nil => contradiction
  | cons r rest ih =>
    simp only [replaceFirst] at done
    split at done
    · rename_i same
      cases done
      subst same
      rw [readersCons new rest,readersCons r rest,← List.append_assoc,← List.append_assoc]
      exact List.perm_append_comm.append_right _
    · obtain ⟨rest',found,rfl⟩ := Option.map_eq_some_iff.mp done
      have tail := ih found
      rw [readersCons r rest',readersCons r rest]
      refine List.perm_iff_count.mpr fun b => ?_
      have count := List.perm_iff_count.mp tail b
      simp only [List.count_append] at count ⊢
      omega

theorem slotFree (short : (readers rid).length < rid.length) : 0 ∈ rid := by
  by_contra none'
  have all : readers rid = rid := List.filter_eq_self.mpr fun r mem => by
    simp only [decide_eq_true_eq]
    exact fun zero => none' (zero ▸ mem)
  rw [all] at short
  omega

theorem replaceAllReaders (only : readers rid = [id]) : readers (replaceAll id 0 rid) = [] := by
  refine List.filter_eq_nil_iff.mpr fun r mem => ?_
  obtain ⟨r',mem',is⟩ := List.mem_map.mp mem
  by_cases same : r' = id
  · simp [← is,same]
  · have zero : r' = 0 := by
      by_contra nonzero
      have listed : r' ∈ readers rid := List.mem_filter.mpr ⟨mem',by simpa using nonzero⟩
      rw [only] at listed
      exact same (List.mem_singleton.mp listed)
    simp [← is,zero]

end Slots

section Accounting
variable {s s' : State} {ls ls' : Lease} {id version logblock : Nat} {a : Action}

def Lease.Shape (ls : Lease) : Prop :=
  match ls.state with
  | .free => ls.recorded = []
  | .read => readers [ls.wid] = [] ∧ readers ls.rid ≠ []
  | .write => readers ls.rid = [] ∧ ls.wid ≠ 0

structure Lease.Exact (ls : Lease) (granted : List Nat) : Prop where
  recorded : ls.recorded.Perm granted
  count : ls.holders = ls.recorded.length
  shape : ls.Shape

theorem recordedLength (ls : Lease) : ls.recorded.length ≤ libfsNum + 1 := by
  have some := readersLength ls.rid
  have one := readersLength [ls.wid]
  rw [ls.slots] at some
  simp only [Lease.recorded,List.length_append,List.length_singleton] at one ⊢
  omega

theorem recordedNonzero (listed : id ∈ ls.recorded) : id ≠ 0 := by
  rw [Lease.recorded,readers,readers,← List.filter_append] at listed
  simpa using (List.mem_filter.mp listed).2

theorem replaceRidIs {old new : Nat} (done : ls.replaceRid old new = some ls') :
    replaceFirst old new ls.rid = some ls'.rid ∧ ls' = { ls with rid := ls'.rid, slots := ls'.slots } := by
  unfold Lease.replaceRid at done
  split at done
  · contradiction
  · rename_i rid found
    cases done
    exact ⟨found,rfl⟩

theorem replaceRidFound {old : Nat} (ls : Lease) (new : Nat) (mem : old ∈ ls.rid) : ∃ ls', ls.replaceRid old new = some ls' := by
  obtain ⟨rid,found⟩ := replaceFound new mem
  unfold Lease.replaceRid
  split
  · rename_i missing
    rw [found] at missing
    contradiction
  · exact ⟨_,rfl⟩

variable {granted : List Nat}

theorem dropExact (one : (id::ls.recorded).Perm granted) (count : ls.holders = ls.recorded.length + 1)
    (shape : ls.recorded ≠ [] → ls.Shape) : ls.drop.Exact (granted.erase id) := by
  have bound := recordedLength ls
  have fewer : (ls.holders + 2 ^ 8 - 1) % 2 ^ 8 = ls.recorded.length := by
    unfold libfsNum at bound
    omega
  have dropped : ls.drop = { ls with holders := ls.recorded.length, state := if ls.recorded.length = 0 then .free else ls.state } := by
    simp only [Lease.drop,fewer]
  rw [dropped]
  refine ⟨?_,rfl,?_⟩
  · have perm := one.erase id
    rwa [List.erase_cons_head] at perm
  · by_cases last : ls.recorded = []
    · rw [if_pos (List.length_eq_zero_iff.mpr last)]
      exact last
    · rw [if_neg (mt List.length_eq_zero_iff.mp last)]
      exact shape last

theorem surrenderExact (exact' : ls.Exact granted) (nonzero : id ≠ 0)
    (done : ls.surrender id version logblock = some ls') : ls'.Exact (granted.erase id) := by
  have shape := exact'.shape
  unfold Lease.Shape at shape
  unfold Lease.surrender at done
  cases state : ls.state <;> simp only [state] at done shape
  case free => contradiction
  case read =>
    obtain ⟨removed,replaced,rfl⟩ := Option.map_eq_some_iff.mp done
    obtain ⟨found,is⟩ := replaceRidIs replaced
    have perm := replaceReaders found
    rw [readersOne nonzero,readersZero,nil_append,List.singleton_append] at perm
    have wid : readers [removed.wid] = [] := by rw [is]; exact shape.1
    have recorded : removed.recorded = readers removed.rid := by rw [Lease.recorded,wid,append_nil]
    have before : ls.recorded = readers ls.rid := by rw [Lease.recorded,shape.1,append_nil]
    refine dropExact ?_ ?_ fun some => ?_
    · rw [recorded]
      exact perm.trans (before ▸ exact'.recorded)
    · have same : removed.holders = ls.holders := by rw [is]
      rw [same,exact'.count,recorded,before,← perm.length_eq,List.length_cons]
    · have reading : removed.state = .read := by rw [is]; exact state
      unfold Lease.Shape
      rw [reading]
      exact ⟨wid,recorded ▸ some⟩
  case write =>
    split at done <;> try contradiction
    rename_i mine
    rw [not_not] at mine
    cases done
    have empty : readers ls.rid ++ readers [0] = [] := by rw [shape.1]; rfl
    have before : ls.recorded = [id] := by rw [Lease.recorded,shape.1,mine,readersOne nonzero,nil_append]
    refine dropExact ?_ ?_ fun some => absurd empty some
    · have perm := exact'.recorded
      rw [before] at perm
      simpa [Lease.recorded,empty] using perm
    · have count := exact'.count
      rw [before] at count
      simpa [Lease.recorded,empty] using count

theorem surrenderAccepted (version logblock : Nat) (exact' : ls.Exact granted) (held : id ∈ granted) :
    ∃ ls', ls.surrender id version logblock = some ls' := by
  have listed : id ∈ ls.recorded := exact'.recorded.mem_iff.mpr held
  have shape := exact'.shape
  unfold Lease.Shape at shape
  unfold Lease.surrender
  cases state : ls.state <;> simp only [state] at shape ⊢
  case free => simp [shape] at listed
  case read =>
    rw [Lease.recorded,shape.1,append_nil] at listed
    obtain ⟨removed,found⟩ := replaceRidFound ls 0 (List.mem_filter.mp listed).1
    exact ⟨removed.drop,by rw [found]; rfl⟩
  case write =>
    rw [Lease.recorded,shape.1,readersOne shape.2,nil_append] at listed
    rw [if_neg (by simpa using (List.mem_singleton.mp listed).symm)]
    exact ⟨_,rfl⟩

section
variable (exact' : ls.Exact granted)
include exact'

theorem firstExact (empty : ls.recorded = []) (nonzero : id ≠ 0) :
    ((ls.hold .read).first id).Exact (granted ++ [id]) := by
  obtain ⟨noReader,noWriter⟩ := List.append_eq_nil_iff.mp empty
  have nobody : granted = [] := nil_perm.mp (empty ▸ exact'.recorded)
  have reader : readers (ls.rid.set 0 id) = [id] := readersSet noReader (by rw [ls.slots]; decide) nonzero
  have recorded : ((ls.hold .read).first id).recorded = [id] := by
    show readers (ls.rid.set 0 id) ++ readers [ls.wid] = [id]
    rw [reader,noWriter,append_nil]
  refine ⟨by rw [recorded,nobody]; rfl,?_,noWriter,?_⟩
  · show (ls.holders + 1) % 2 ^ 8 = _
    rw [exact'.count,empty,recorded]
    rfl
  · show readers (ls.rid.set 0 id) ≠ []
    simp [reader]

theorem writerExact {ls' : Lease} (empty : ls.recorded = []) (nonzero : id ≠ 0)
    (state : ls'.state = .write) (holders : ls'.holders = 1) (wid : ls'.wid = id) (rid : ls'.rid = ls.rid) :
    ls'.Exact (granted ++ [id]) := by
  have nobody : granted = [] := nil_perm.mp (empty ▸ exact'.recorded)
  have noReader : readers ls'.rid = [] := rid ▸ (List.append_eq_nil_iff.mp empty).1
  have recorded : ls'.recorded = [id] := by rw [Lease.recorded,noReader,wid,readersOne nonzero,nil_append]
  refine ⟨by rw [recorded,nobody]; rfl,by rw [holders,recorded]; rfl,?_⟩
  unfold Lease.Shape
  rw [state]
  exact ⟨noReader,wid ▸ nonzero⟩

theorem anotherExact (reading : ls.state = .read) (nonzero : id ≠ 0)
    (room : (readers ls.rid).length < libfsNum) : (ls.another id).Exact (granted ++ [id]) := by
  have shape := exact'.shape
  unfold Lease.Shape at shape
  simp only [reading] at shape
  have empty : 0 ∈ ls.rid := slotFree (by rw [ls.slots]; exact room)
  obtain ⟨added,replaced⟩ := replaceRidFound (ls.hold .read) id empty
  obtain ⟨found,is⟩ := replaceRidIs replaced
  have result : ls.another id = added := by simp [Lease.another,replaced]
  have perm := replaceReaders found
  rw [readersOne nonzero,readersZero,nil_append,List.singleton_append] at perm
  have wid : readers [added.wid] = [] := by rw [is]; exact shape.1
  have recorded : added.recorded = readers added.rid := by rw [Lease.recorded,wid,append_nil]
  have before : ls.recorded = readers ls.rid := by rw [Lease.recorded,shape.1,append_nil]
  have more : (readers added.rid).Perm (granted ++ [id]) :=
    perm.trans (((before ▸ exact'.recorded : (readers ls.rid).Perm granted).cons id).trans (List.perm_append_singleton id granted).symm)
  rw [result]
  refine ⟨recorded ▸ more,?_,?_⟩
  · have holders : added.holders = (ls.holders + 1) % 2 ^ 8 := by rw [is]; rfl
    have length : (readers added.rid).length = (readers ls.rid).length + 1 := perm.length_eq
    have bound := recordedLength ls
    rw [holders,exact'.count,recorded,length,before]
    rw [before] at bound
    unfold libfsNum at bound
    omega
  · have state : added.state = .read := by rw [is]; rfl
    unfold Lease.Shape
    rw [state]
    exact ⟨wid,fun none' => by simpa [none'] using perm.length_eq⟩

theorem upgradeExact (reading : ls.state = .read) (nonzero : id ≠ 0)
    (sole : readers ls.rid = [id]) : (ls.upgrade id).Exact (granted.filter (· ≠ id) ++ [id]) := by
  have shape := exact'.shape
  unfold Lease.Shape at shape
  simp only [reading] at shape
  have before : ls.recorded = [id] := by rw [Lease.recorded,shape.1,append_nil,sole]
  have only : granted = [id] := List.perm_singleton.mp (before ▸ exact'.recorded).symm
  have recorded : (ls.upgrade id).recorded = [id] := by
    show readers (replaceAll id 0 ls.rid) ++ readers [id] = [id]
    rw [replaceAllReaders sole,readersOne nonzero,nil_append]
  refine ⟨by simp [recorded,only],?_,replaceAllReaders sole,nonzero⟩
  show ls.holders = _
  rw [exact'.count,before,recorded]

end

structure Inv (s : State) : Prop where
  exact' : s.lease.Exact s.granted
  woken : ∀ newState reqId, s.phase = .woken newState reqId → s.lease.recorded = []

theorem freeEmpty (exact' : ls.Exact granted) (free : ls.state = .free) : ls.recorded = [] := by
  have shape := exact'.shape
  unfold Lease.Shape at shape
  simpa only [free] using shape

theorem surrenderInv (inv : Inv s) (nonzero : id ≠ 0) (taken : s.surrender id version logblock = some s') : Inv s' := by
  unfold State.surrender at taken
  split at taken <;> try contradiction
  split at taken
  · cases taken
    exact inv
  · rename_i ls done
    cases taken
    have exact' := surrenderExact inv.exact' nonzero done
    refine ⟨exact',fun newState reqId woken => ?_⟩
    have nobody : s.granted = [] := nil_perm.mp (inv.woken newState reqId woken ▸ inv.exact'.recorded)
    have perm := exact'.recorded
    rw [nobody] at perm
    exact List.perm_nil.mp perm

theorem grantInv {ls : Lease} (exact' : ls.Exact (s.granted ++ [id])) : Inv (s.grant ls id) :=
  ⟨exact',fun _ _ woken => by simp [State.grant] at woken⟩

theorem lockedInv {newState : Request} {reqId : LibfsId} (inv : Inv s) (allowed : Allowed s .proceed)
    (phase : s.phase = .locked newState reqId) (taken : proceed s = some s') : Inv s' := by
  have nonzero : reqId.val ≠ 0 := Nat.pos_iff_ne_zero.mp reqId.property.1
  unfold proceed at taken
  rw [phase] at taken
  cases newState <;> cases state : s.lease.state <;> simp only [state] at taken <;> cases taken
  case read.free => exact grantInv (firstExact inv.exact' (freeEmpty inv.exact' state) nonzero)
  case read.read => exact grantInv (anotherExact inv.exact' state nonzero (allowed.1 rfl state (by simp [phase,Phase.reader])))
  case read.write | write.write => exact ⟨inv.exact',fun _ _ woken => by simp at woken⟩
  case write.free =>
    have empty := freeEmpty inv.exact' state
    refine grantInv (writerExact inv.exact' empty nonzero rfl ?_ rfl rfl)
    show (s.lease.holders + 1) % 2 ^ 8 = 1
    rw [inv.exact'.count,empty]
    rfl
  case write.read =>
    have sole := allowed.2 rfl state reqId (by simp [phase,Phase.writer])
    exact ⟨upgradeExact inv.exact' state nonzero sole,fun _ _ woken => by simp at woken⟩

theorem proceedInv (inv : Inv s) (allowed : Allowed s .proceed) (taken : proceed s = some s') : Inv s' := by
  cases phase : s.phase
  case locked newState reqId => exact lockedInv inv allowed phase taken
  case woken newState reqId =>
    have nonzero : reqId.val ≠ 0 := Nat.pos_iff_ne_zero.mp reqId.property.1
    have empty := inv.woken newState reqId phase
    cases newState <;> simp only [proceed,phase] at taken <;> cases taken
    · exact grantInv (firstExact inv.exact' empty nonzero)
    · exact grantInv (writerExact inv.exact' empty nonzero rfl rfl rfl rfl)
  case waiting newState reqId =>
    simp only [proceed,phase] at taken
    obtain ⟨none',rfl⟩ := ifTaken taken
    exact ⟨inv.exact',fun _ _ _ => List.length_eq_zero_iff.mp (inv.exact'.count ▸ none')⟩
  case lazyWait =>
    simp only [proceed,phase] at taken
    obtain ⟨_,rfl⟩ := ifTaken taken
    exact ⟨inv.exact',fun _ _ woken => by simp at woken⟩
  all_goals
    simp only [proceed,phase,Option.some.injEq,reduceCtorEq] at taken
  all_goals
    subst taken
    exact ⟨inv.exact',fun _ _ woken => by simp at woken⟩

theorem requestInv {newState : Request} {reqId : LibfsId} (inv : Inv s) (taken : s.request newState reqId = some s') : Inv s' := by
  obtain ⟨_,rfl⟩ := ifTaken taken
  exact ⟨inv.exact',fun _ _ woken => by simp at woken⟩

theorem stepInv (inv : Inv s) (allowed : Allowed s a) (taken : step s a = some s') : Inv s' := by
  cases a with
  | requestRead reqId | requestWrite reqId => exact requestInv inv taken
  | proceed => exact proceedInv inv allowed taken
  | requestFree reqId version logblock => exact surrenderInv inv (Nat.pos_iff_ne_zero.mp reqId.property.1) taken
  | discardLeases reqId =>
    cases taken
    exact ⟨inv.exact',inv.woken⟩
  | discardGo k =>
    simp only [step] at taken
    split at taken <;> try contradiction
    rename_i d _
    have moved : Inv (s.moveDiscard k (discardNext s.lease d)) := ⟨inv.exact',inv.woken⟩
    split at taken
    · exact surrenderInv moved (Nat.pos_iff_ne_zero.mp d.reqId.property.1) taken
    · cases taken
      exact moved

theorem initInv : Inv init := ⟨⟨.refl _,rfl,rfl⟩,fun _ _ woken => by simp [init] at woken⟩

theorem leasesExact (reached : Reach step Allowed init s) :
    s.lease.holders = s.lease.recorded.length ∧ s.lease.recorded.Perm s.granted ∧
    (∀ id ∈ s.granted, ∀ version logblock, ∃ ls, s.lease.surrender id version logblock = some ls ∧
      ls.recorded.Perm (s.lease.recorded.erase id)) ∧
    (s.granted = [] → s.lease.state = .free) := by
  have inv := reachInvariant Inv initInv (fun _ _ _ inv allowed taken => stepInv inv allowed taken) reached
  refine ⟨inv.exact'.count,inv.exact'.recorded,fun id held version logblock => ?_,fun nobody => ?_⟩
  · obtain ⟨ls,done⟩ := surrenderAccepted version logblock inv.exact' held
    have nonzero := recordedNonzero (inv.exact'.recorded.mem_iff.mpr held)
    exact ⟨ls,done,(surrenderExact inv.exact' nonzero done).recorded.trans (inv.exact'.recorded.erase id).symm⟩
  · have empty : s.lease.recorded = [] := List.perm_nil.mp (nobody ▸ inv.exact'.recorded)
    obtain ⟨noReader,noWriter⟩ := List.append_eq_nil_iff.mp empty
    have shape := inv.exact'.shape
    unfold Lease.Shape at shape
    cases state : s.lease.state <;> simp only [state] at shape
    case free => rfl
    case read => exact absurd noReader shape.2
    case write =>
      rw [readersOne shape.2] at noWriter
      contradiction

end Accounting

def reader : LibfsId := ⟨6,by decide⟩
def writer : LibfsId := ⟨7,by decide⟩

def readThenWrite : List Action := [.requestRead reader,.proceed,.proceed,.requestWrite writer,.proceed,.proceed]

def upgraded : List Action :=
  [.requestRead reader,.proceed,.proceed,.requestWrite reader,.proceed,.proceed,.discardLeases writer]

theorem leasesExactUpgraded : ∃ s, Reach step Allowed init s ∧ s.granted = [6] ∧ s.lease.state = .write ∧
    ∃ ls, s.lease.surrender 6 1 9 = some ls ∧ ls.recorded.Perm (s.lease.recorded.erase 6) := by
  obtain ⟨s,reached,is⟩ : ∃ s, Reach step Allowed init s ∧ s.granted = [6] ∧ s.lease.state = .write :=
    traceReach upgraded (by decide +kernel)
  exact ⟨s,reached,is.1,is.2,(leasesExact reached).2.2.1 6 (by simp [is.1]) 1 9⟩

theorem readerNotFreed : ∃ s, Reach step Bounded init s ∧ s.lease.recorded = [6,7] ∧ s.lease.holders = 1 ∧
    s.granted = [6,7] ∧ s.lease.surrender 6 0 0 = none := by
  exact traceReach readThenWrite (by decide +kernel)

end LineFS.Leases
