import LineFS.Acknowledge

/-! The memcpy batch of one LibFS at its primary, with explicit flushes. The worker sends a full batch,
`publish_all_remains` whatever the batch holds. A send waits until the host has executed the lists
and resets the scatter-gather list, but not the counters. -/
namespace LineFS.Flush
open Base
open Log (FsLog DigestResponse handleDigestResponse)
open Publish (Request BatchMeta addMemcpyListToBatch batchMeta digestResponse)
open Acknowledge (stop resets responseCount responseBlks)

structure Call where
  worker : Bool
  response : DigestResponse
  lists : List Request
  done : Bool
  deriving DecidableEq

structure State where
  log : FsLog
  batch : BatchMeta
  entries : List Request
  pos : Nat
  calls : List Call
  acks : List DigestResponse
  acked : List DigestResponse
  executed : List Request
  trail : List (Nat × Nat)

inductive Action where
  | add (r : Request)
  | publishAllRemains
  | execute (call : Nat)
  | ret (call : Nat)
  | ack

def sendBatchedMemcpyReqToHost (s : State) (worker : Bool) : State :=
  let response := ⟨s.batch.digestStartBlknr,s.batch.nOrigLoghdrs,s.batch.nOrigBlks,s.batch.resetMeta⟩
  { s with calls := s.calls ++ [⟨worker,response,s.entries,false⟩] }

def Next (logBegin pos : Nat) (r : Request) : Prop := r.arg.prefetchStart = if resets r then logBegin else pos
deriving Decidable

def step (logBegin : Nat) (s : State) : Action → Option State
  | .add r =>
    if Next logBegin s.pos r ∧ s.calls.all (fun c => !c.worker) ∧ s.batch.sgeCount < hostMemcpyBatchMax then
      let s := { s with batch := addMemcpyListToBatch s.batch r.arg, entries := s.entries ++ [r], pos := stop r }
      some (if s.batch.sgeCount = hostMemcpyBatchMax then sendBatchedMemcpyReqToHost s true else s)
    else none
  | .publishAllRemains => some (sendBatchedMemcpyReqToHost s false)
  | .execute i => do
    let c ← s.calls[i]?
    if c.done then none
    else some { s with calls := s.calls.set i { c with done := true }, executed := s.executed ++ c.lists, acks := s.acks ++ [c.response] }
  | .ret i => do
    let c ← s.calls[i]?
    if c.done then some { s with calls := s.calls.eraseIdx i, batch := { s.batch with sgeCount := 0 }, entries := [] } else none
  | .ack =>
    match s.acks with
    | [] => none
    | d::ds =>
      let log := handleDigestResponse s.log d
      some { s with log, acks := ds, acked := s.acked ++ [d], trail := s.trail ++ [(log.startVersion,log.startBlk)] }

def init (log : FsLog) : State := ⟨log,⟨0,0,0,0,false⟩,[],log.startBlk,[],[],[],[],[(log.startVersion,log.startBlk)]⟩

structure Exact (s : State) : Prop where
  loghdrs : ((s.acked ++ s.acks).map DigestResponse.nDigested).sum = (s.executed.map fun r => r.arg.nPrefetch).sum
  blks : ((s.acked ++ s.acks).map DigestResponse.nDigestedBlks).sum = (s.executed.map fun r => r.arg.nPrefetchBlk).sum
  forward : s.trail.Pairwise fun a b => a.1 = b.1 → a.2 ≤ b.2
instance (s) : Decidable (Exact s) :=
  decidable_of_iff (((s.acked ++ s.acks).map DigestResponse.nDigested).sum = (s.executed.map fun r => r.arg.nPrefetch).sum ∧
      ((s.acked ++ s.acks).map DigestResponse.nDigestedBlks).sum = (s.executed.map fun r => r.arg.nPrefetchBlk).sum ∧
      s.trail.Pairwise fun a b => a.1 = b.1 → a.2 ≤ b.2)
    ⟨fun ⟨a,b,c⟩ => ⟨a,b,c⟩,fun ⟨a,b,c⟩ => ⟨a,b,c⟩⟩

/- No list is added while a call waits, a lap begins only with a batch, and a flush finds a
batch that holds something and that nobody is sending. -/
def Calm (s : State) : Action → Prop
  | .add r => s.calls = [] ∧ (resets r = true → s.batch.sgeCount = 0)
  | .publishAllRemains => s.calls = [] ∧ s.batch.sgeCount ≠ 0
  | _ => True
instance (s a) : Decidable (Calm s a) := by cases a <;> unfold Calm <;> infer_instance

def Runs (logBegin : Nat) : Nat → List DigestResponse → Nat → Prop
  | p,[],q => p = q
  | p,d::ds,q => d.digestStartBlknr = (if d.resetMeta then logBegin else p) ∧ Runs logBegin (d.digestStartBlknr + d.nDigestedBlks) ds q

theorem runsAppend {logBegin p q : Nat} {ds es : List DigestResponse} :
    Runs logBegin p (ds ++ es) q ↔ ∃ m, Runs logBegin p ds m ∧ Runs logBegin m es q := by
  induction ds generalizing p with
  | nil => simp [Runs]
  | cons d ds ih => simp only [List.cons_append,Runs,ih,exists_and_left,and_assoc]

def singles (rs : List Request) : List DigestResponse := rs.map fun r => digestResponse [r]

theorem singleRuns {logBegin p q : Nat} {r : Request} : Runs logBegin p (singles [r]) q ↔ Next logBegin p r ∧ stop r = q := Iff.rfl

theorem plainRuns {logBegin p q : Nat} {rs : List Request} (run : Runs logBegin p (singles rs) q) (plain : rs.any resets = false) :
    p + (rs.map fun r => r.arg.nPrefetchBlk).sum = q := by
  induction rs generalizing p with
  | nil => exact run
  | cons r rs ih =>
    rw [List.any_cons,Bool.or_eq_false_iff] at plain
    obtain ⟨start,rest⟩ := run
    have start : r.arg.prefetchStart = p := start.trans (by
      show (if resets r = true then logBegin else p) = p
      rw [plain.1,if_neg Bool.false_ne_true])
    have total : r.arg.prefetchStart + r.arg.nPrefetchBlk + (rs.map fun r => r.arg.nPrefetchBlk).sum = q := ih rest plain.2
    rw [List.map_cons,List.sum_cons]
    omega

theorem batchRuns {logBegin p q : Nat} {b : List Request} (some_ : b ≠ []) (calm : b.tail.any resets = false)
    (run : Runs logBegin p (singles b) q) : Runs logBegin p [digestResponse b] q := by
  obtain ⟨r,rs,rfl⟩ := List.exists_cons_of_ne_nil some_
  obtain ⟨start,rest⟩ := run
  have total := plainRuns rest calm
  have blks := responseBlks (r::rs)
  have first : (digestResponse (r::rs)).digestStartBlknr = r.arg.prefetchStart := by
    simp only [digestResponse,Publish.batchMetaCons]
  have reset : (digestResponse (r::rs)).resetMeta = resets r := by
    rw [Acknowledge.responseReset,List.any_cons,show rs.any resets = false from calm,Bool.or_false]
  refine ⟨?_,?_⟩
  · rw [first,reset]
    exact start
  · show (digestResponse (r::rs)).digestStartBlknr + (digestResponse (r::rs)).nDigestedBlks = q
    have own : (digestResponse [r]).digestStartBlknr + (digestResponse [r]).nDigestedBlks = r.arg.prefetchStart + r.arg.nPrefetchBlk := rfl
    rw [own] at total
    rw [first,blks,List.map_cons,List.sum_cons]
    omega

inductive Phase (s : State) : List Request → Prop where
  | idle (calls : s.calls = []) : Phase s s.entries
  | posted (worker : Bool) (some_ : s.entries ≠ []) (calls : s.calls = [⟨worker,digestResponse s.entries,s.entries,false⟩]) : Phase s s.entries
  | executed (c : Call) (done : c.done = true) (calls : s.calls = [c]) : Phase s []

structure Kept (logBegin : Nat) (s : State) : Prop extends Exact s where
  count : s.batch.sgeCount = s.entries.length
  counters : s.entries ≠ [] → s.batch = batchMeta s.entries
  calm : s.entries.tail.any resets = false
  line : ∃ mid rest, Phase s rest ∧ Runs logBegin s.log.startBlk s.acks mid ∧ Runs logBegin mid (singles rest) s.pos
  behind : ∀ t ∈ s.trail, t.1 ≤ s.log.startVersion ∧ (t.1 = s.log.startVersion → t.2 ≤ s.log.startBlk)

section steps
variable {logBegin : Nat} {s t : State} (h : Kept logBegin s)
include h

theorem idleLine (idle : s.calls = []) :
    ∃ mid, Runs logBegin s.log.startBlk s.acks mid ∧ Runs logBegin mid (singles s.entries) s.pos := by
  obtain ⟨mid,rest,phase,acks,line⟩ := h.line
  cases phase with
  | idle => exact ⟨mid,acks,line⟩
  | posted => exact ⟨mid,acks,line⟩
  | executed c _ calls => simp [idle] at calls

theorem sentResponse (some_ : s.entries ≠ []) (worker : Bool) :
    (sendBatchedMemcpyReqToHost s worker).calls = s.calls ++ [⟨worker,digestResponse s.entries,s.entries,false⟩] := by
  simp only [sendBatchedMemcpyReqToHost,digestResponse,h.counters some_]

theorem sendKept (some_ : s.entries ≠ []) (idle : s.calls = []) (worker : Bool) : Kept logBegin (sendBatchedMemcpyReqToHost s worker) := by
  obtain ⟨mid,acks,line⟩ := idleLine h idle
  have calls := sentResponse h some_ worker
  rw [idle,List.nil_append] at calls
  exact { h with line := ⟨mid,s.entries,.posted worker some_ calls,acks,line⟩ }

theorem addKept {r : Request} (calm : Calm s (.add r)) (next : Next logBegin s.pos r) :
    Kept logBegin { s with batch := addMemcpyListToBatch s.batch r.arg, entries := s.entries ++ [r], pos := stop r } := by
  obtain ⟨idle,lap⟩ := calm
  obtain ⟨mid,acks,line⟩ := idleLine h idle
  refine { h with count := ?_, counters := fun _ => ?_, calm := ?_, line := ⟨mid,s.entries ++ [r],.idle idle,acks,?_⟩ }
  · have count := h.count
    simp only [addMemcpyListToBatch,List.length_append,List.length_singleton]
    split <;> simp only [count]
  · -- the first list replaces whatever the counters held
    rcases List.eq_nil_or_concat s.entries with none_ | ⟨_,_,more⟩
    · have count := h.count
      rw [none_,List.length_nil] at count
      simp [none_,batchMeta,addMemcpyListToBatch,count]
    · have some_ : s.entries ≠ [] := by simp [more]
      show addMemcpyListToBatch s.batch r.arg = batchMeta (s.entries ++ [r])
      rw [h.counters some_,batchMeta,batchMeta,List.foldl_append]
      rfl
  · cases entries : s.entries with
    | nil => rfl
    | cons q qs =>
      have plain : resets r = false := by
        by_contra reset
        have count := h.count
        rw [lap (Bool.not_eq_false _ ▸ reset),entries] at count
        simp at count
      have calm := h.calm
      rw [entries] at calm
      simp only [List.tail_cons] at calm
      simp [calm,plain]
  · rw [singles,List.map_append]
    exact runsAppend.mpr ⟨s.pos,line,singleRuns.mpr ⟨next,rfl⟩⟩

theorem executeKept {i : Nat} (taken : step logBegin s (.execute i) = some t) : Kept logBegin t := by
  simp only [step,Option.bind_eq_bind,Option.bind_eq_some_iff] at taken
  obtain ⟨c,found,taken⟩ := taken
  obtain ⟨open_,rfl⟩ := unlessTaken taken
  obtain ⟨mid,rest,phase,acks,line⟩ := h.line
  cases phase with
  | idle calls => simp [calls] at found
  | executed d done calls =>
    rw [calls,List.getElem?_singleton] at found
    obtain ⟨_,rfl⟩ := ifTaken found
    exact absurd done open_
  | posted worker some_ calls =>
    rw [calls,List.getElem?_singleton] at found
    obtain ⟨rfl,rfl⟩ := ifTaken found
    have count := responseCount s.entries
    have blks := responseBlks s.entries
    have answered := runsAppend.mpr ⟨mid,acks,batchRuns some_ h.calm line⟩
    refine { h with loghdrs := ?_, blks := ?_, line := ⟨s.pos,[],.executed _ rfl (by rw [calls]; rfl),answered,rfl⟩ }
    · rw [← List.append_assoc,List.map_append,List.sum_append,h.loghdrs,List.map_append,List.sum_append]
      simp [count]
    · rw [← List.append_assoc,List.map_append,List.sum_append,h.blks,List.map_append,List.sum_append]
      simp [blks]

theorem retKept {i : Nat} (taken : step logBegin s (.ret i) = some t) : Kept logBegin t := by
  simp only [step,Option.bind_eq_bind,Option.bind_eq_some_iff] at taken
  obtain ⟨c,found,taken⟩ := taken
  obtain ⟨done,rfl⟩ := ifTaken taken
  obtain ⟨mid,rest,phase,acks,line⟩ := h.line
  cases phase with
  | idle calls => simp [calls] at found
  | posted worker some_ calls =>
    rw [calls,List.getElem?_singleton] at found
    obtain ⟨_,rfl⟩ := ifTaken found
    exact absurd done Bool.false_ne_true
  | executed d done calls =>
    rw [calls,List.getElem?_singleton] at found
    obtain ⟨rfl,rfl⟩ := ifTaken found
    have none_ : s.calls.eraseIdx 0 = [] := by rw [calls]; rfl
    exact { h with count := rfl, counters := fun some_ => absurd rfl some_, calm := rfl, line := ⟨mid,[],.idle none_,acks,line⟩ }

theorem ackKept (taken : step logBegin s .ack = some t) : Kept logBegin t := by
  simp only [step] at taken
  split at taken <;> try contradiction
  rename_i d ds acks_
  cases taken
  obtain ⟨mid,rest,phase,acks,line⟩ := h.line
  rw [acks_] at acks
  obtain ⟨start,acks⟩ := acks
  have moved : (handleDigestResponse s.log d).startBlk = d.digestStartBlknr + d.nDigestedBlks := rfl
  have version := Log.responseVersion s.log d
  have phase' : Phase
      { s with
        log := handleDigestResponse s.log d
        acks := ds
        acked := s.acked ++ [d]
        trail := s.trail ++ [((handleDigestResponse s.log d).startVersion,(handleDigestResponse s.log d).startBlk)] } rest := by
    cases phase with
    | idle calls => exact .idle calls
    | posted worker some_ calls => exact .posted worker some_ calls
    | executed c done calls => exact .executed c done calls
  have ahead : ∀ t ∈ s.trail, t.1 ≤ (handleDigestResponse s.log d).startVersion ∧
      (t.1 = (handleDigestResponse s.log d).startVersion → t.2 ≤ (handleDigestResponse s.log d).startBlk) := by
    intro t mem
    obtain ⟨earlier,below⟩ := h.behind t mem
    rw [version,moved]
    split at start
    · rename_i reset
      rw [if_pos reset]
      omega
    · rename_i plain
      rw [if_neg plain]
      exact ⟨earlier,fun same => Nat.le_trans (below same) (by omega)⟩
  refine
    { h with
      loghdrs := ?_
      blks := ?_
      forward := ?_
      line := ⟨mid,rest,phase',acks,line⟩
      behind := fun t mem => ?_ }
  · have sum := h.loghdrs
    rw [acks_] at sum
    simpa using sum
  · have sum := h.blks
    rw [acks_] at sum
    simpa using sum
  · refine List.pairwise_append.mpr ⟨h.forward,List.pairwise_singleton ..,fun t mem last own same => ?_⟩
    cases List.mem_singleton.mp own
    exact (ahead t mem).2 same
  · rcases memSnoc mem with old | rfl
    · exact ahead t old
    · exact ⟨Nat.le_refl _,fun _ => Nat.le_refl _⟩

theorem stepKept {a : Action} (calm : Calm s a) (taken : step logBegin s a = some t) : Kept logBegin t := by
  cases a with
  | add r =>
    obtain ⟨guard,taken⟩ := Option.ite_none_right_eq_some.mp taken
    have kept := addKept h calm guard.1
    cases taken
    split
    · exact sendKept kept (by simp) calm.1 true
    · exact kept
  | publishAllRemains =>
    cases taken
    have some_ : s.entries ≠ [] := fun none_ => calm.2 (h.count.trans (by rw [none_]; rfl))
    exact sendKept h some_ calm.1 false
  | execute i => exact executeKept h taken
  | ret i => exact retKept h taken
  | ack => exact ackKept h taken

end steps

theorem initKept (logBegin : Nat) (log : FsLog) : Kept logBegin (init log) :=
  ⟨⟨rfl,rfl,List.pairwise_singleton ..⟩,rfl,fun some_ => absurd rfl some_,rfl,⟨log.startBlk,[],.idle rfl,rfl,rfl⟩,
    fun _ mem => List.mem_singleton.mp mem ▸ ⟨Nat.le_refl _,fun _ => Nat.le_refl _⟩⟩

def request (n : Nat) : Request := ⟨⟨1 + 3 * n,3,2,false,false⟩,[]⟩

end LineFS.Flush
