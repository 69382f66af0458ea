import LineFS.Publish

/-! Publish acknowledgements one by one and in batches: what `handle_digest_response` makes of
one response for a batch, with the start of its first request, the sums of the counts and one
rotation flag, and of one response per request. -/
namespace LineFS.Acknowledge
open List (any_cons append_assoc cons_append foldl_cons map_cons map_map map_nil mem_append_left sum_cons)
open Base
open Log (FsLog DigestResponse handleDigestResponse)
open Publish (Request digestResponse batchMetaCons unacked Fits)

def stop (r : Request) : Nat := r.arg.prefetchStart + r.arg.nPrefetchBlk
def resets (r : Request) : Bool := r.arg.resetMeta

/- A request starts where the one before it stops, or at the begin of the log after a rotation. -/
def Next (logBegin : Nat) (q r : Request) : Prop :=
  if resets r then r.arg.prefetchStart = logBegin ∧ logBegin < stop q else r.arg.prefetchStart = stop q
deriving Decidable

def Consecutive (logBegin : Nat) (rs : List Request) : Prop := rs.IsChain (Next logBegin)
deriving Decidable

def respond (l : FsLog) (ds : List DigestResponse) : FsLog := ds.foldl handleDigestResponse l
def individually (l : FsLog) (rs : List Request) : FsLog := respond l (rs.map fun r => digestResponse [r])
def batched (l : FsLog) (bs : List (List Request)) : FsLog := respond l (bs.map digestResponse)

structure Same (l m : FsLog) : Prop where
  startBlk : l.startBlk = m.startBlk
  startDigest : l.startDigest = m.startDigest
  startVersion : l.startVersion = m.startVersion
  nDigest : l.nDigest = m.nDigest
  nDigestBlks : l.nDigestBlks = m.nDigestBlks
instance (l m) : Decidable (Same l m) :=
  decidable_of_iff (l.startBlk = m.startBlk ∧ l.startDigest = m.startDigest ∧ l.startVersion = m.startVersion ∧
      l.nDigest = m.nDigest ∧ l.nDigestBlks = m.nDigestBlks)
    ⟨fun ⟨a,b,c,d,e⟩ => ⟨a,b,c,d,e⟩,fun ⟨a,b,c,d,e⟩ => ⟨a,b,c,d,e⟩⟩

def Batches (bs : List (List Request)) : Prop := ∀ b ∈ bs, b ≠ [] ∧ b.length ≤ hostMemcpyBatchMax
deriving Decidable

section Respond
variable (l : FsLog) (ds : List DigestResponse)

theorem respondVersion : (respond l ds).startVersion = l.startVersion + ds.countP DigestResponse.resetMeta := by
  induction ds generalizing l with
  | nil => rfl
  | cons d ds ih =>
    have first := Log.responseVersion l d
    rw [respond,foldl_cons,← respond,ih,first,List.countP_cons]
    split <;> omega

theorem respondCount : (respond l ds).nDigest = l.nDigest - (ds.map DigestResponse.nDigested).sum := by
  induction ds generalizing l with
  | nil => rfl
  | cons d ds ih =>
    have first : (handleDigestResponse l d).nDigest = l.nDigest - d.nDigested := by
      unfold handleDigestResponse Log.resetPublishMeta; split <;> rfl
    rw [respond,foldl_cons,← respond,ih,first,map_cons,sum_cons,Nat.sub_sub]

theorem respondBlks : (respond l ds).nDigestBlks = l.nDigestBlks - (ds.map DigestResponse.nDigestedBlks).sum := by
  induction ds generalizing l with
  | nil => rfl
  | cons d ds ih =>
    have first : (handleDigestResponse l d).nDigestBlks = l.nDigestBlks - d.nDigestedBlks := by
      unfold handleDigestResponse Log.resetPublishMeta; split <;> rfl
    rw [respond,foldl_cons,← respond,ih,first,map_cons,sum_cons,Nat.sub_sub]

theorem respondStart (d : DigestResponse) :
    (respond l (ds ++ [d])).startBlk = d.digestStartBlknr + d.nDigestedBlks ∧
    (respond l (ds ++ [d])).startDigest = d.digestStartBlknr + d.nDigestedBlks := by
  rw [respond,List.foldl_append]
  exact ⟨rfl,rfl⟩

end Respond

section Batch
variable (b : List Request)

theorem responseCount : (digestResponse b).nDigested = (b.map fun r => r.arg.nPrefetch).sum := by
  cases b with
  | nil => rfl
  | cons r rs => simp only [digestResponse,batchMetaCons]

theorem responseBlks : (digestResponse b).nDigestedBlks = (b.map fun r => r.arg.nPrefetchBlk).sum := by
  cases b with
  | nil => rfl
  | cons r rs => simp only [digestResponse,batchMetaCons]

theorem responseReset : (digestResponse b).resetMeta = b.any resets := by
  cases b with
  | nil => rfl
  | cons r rs => simp only [digestResponse,batchMetaCons]; rfl

end Batch

theorem consecutiveStop {logBegin r rs} (h : Consecutive logBegin (r::rs)) :
    stop (rs.getLastD r) ≤ r.arg.prefetchStart + ((r::rs).map fun r => r.arg.nPrefetchBlk).sum ∧
    (r.arg.prefetchStart + ((r::rs).map fun r => r.arg.nPrefetchBlk).sum = stop (rs.getLastD r) ↔ rs.any resets = false) := by
  induction rs generalizing r with
  | nil => simp [stop]
  | cons q rs ih =>
    obtain ⟨next,rest⟩ := List.isChain_cons_cons.mp h
    obtain ⟨below,exact⟩ := ih rest
    rw [List.getLastD_cons,any_cons,map_cons,sum_cons]
    simp only [Next,stop] at next
    cases reset : resets q with
    | true =>
      rw [if_pos reset] at next
      simp only [Bool.true_or,Bool.true_eq_false,iff_false]
      omega
    | false =>
      rw [reset] at next
      rw [if_neg Bool.false_ne_true] at next
      rw [Bool.false_or,← exact]
      omega

theorem countBatches (bs : List (List Request)) :
    bs.countP (List.any · resets) ≤ bs.flatten.countP resets ∧
    (bs.countP (List.any · resets) = bs.flatten.countP resets ↔ ∀ b ∈ bs, b.countP resets ≤ 1) := by
  induction bs with
  | nil => simp
  | cons b bs ih =>
    obtain ⟨below,exact⟩ := ih
    have one : (b.any resets = true ↔ 0 < b.countP resets) := by
      rw [List.countP_pos_iff,List.any_eq_true]
    rw [List.countP_cons,List.flatten_cons,List.countP_append,List.forall_mem_cons,← exact]
    split
    · have := one.mp ‹_›; omega
    · have := mt one.mpr ‹_›; omega

theorem sumFlatten (bs : List (List Request)) (f : Request → Nat) :
    (bs.map fun b => (b.map f).sum).sum = (bs.flatten.map f).sum := by
  rw [List.map_flatten,List.sum_flatten,map_map]; rfl

theorem individuallyStart (l : FsLog) (rs : List Request) (q : Request) :
    (individually l (rs ++ [q])).startBlk = stop q ∧ (individually l (rs ++ [q])).startDigest = stop q := by
  rw [individually,List.map_append]
  exact respondStart l _ _

theorem sameCounters (l : FsLog) (bs : List (List Request)) :
    (batched l bs).nDigest = (individually l bs.flatten).nDigest ∧
    (batched l bs).nDigestBlks = (individually l bs.flatten).nDigestBlks := by
  have count : ((bs.map digestResponse).map DigestResponse.nDigested).sum =
      ((bs.flatten.map fun r => digestResponse [r]).map DigestResponse.nDigested).sum := by
    simp only [map_map,Function.comp_def,responseCount,map_cons,map_nil,List.sum_singleton,sumFlatten]
  have blks : ((bs.map digestResponse).map DigestResponse.nDigestedBlks).sum =
      ((bs.flatten.map fun r => digestResponse [r]).map DigestResponse.nDigestedBlks).sum := by
    simp only [map_map,Function.comp_def,responseBlks,map_cons,map_nil,List.sum_singleton,sumFlatten]
  simp only [batched,individually,respondCount,respondBlks,count,blks,true_and]

theorem sameVersion (l : FsLog) (bs : List (List Request)) :
    (batched l bs).startVersion = (individually l bs.flatten).startVersion ↔ ∀ b ∈ bs, b.countP resets ≤ 1 := by
  rw [batched,individually,respondVersion,respondVersion,List.countP_map,List.countP_map,Nat.add_left_cancel_iff,
    ← (countBatches bs).2]
  simp only [Function.comp_def,responseReset,any_cons,List.any_nil,Bool.or_false]

theorem sameStart {logBegin l bs} (run : Consecutive logBegin bs.flatten) (batches : Batches bs) :
    ((batched l bs).startBlk = (individually l bs.flatten).startBlk ↔
      ∀ b, bs.getLast? = some b → b.tail.any resets = false) ∧
    ((batched l bs).startBlk = (individually l bs.flatten).startBlk →
      (batched l bs).startDigest = (individually l bs.flatten).startDigest) := by
  rcases List.eq_nil_or_concat bs with rfl | ⟨cs,b,rfl⟩
  · simp [batched,individually]
  · rw [List.concat_eq_append] at *
    obtain ⟨r,rs,rfl⟩ := List.exists_cons_of_ne_nil (batches b (by simp)).1
    have last : cs.flatten ++ (r::rs) = (cs.flatten ++ (r::rs).dropLast) ++ [rs.getLastD r] := by
      rw [append_assoc,← List.getLast_eq_getLastD (List.cons_ne_nil r rs),List.dropLast_append_getLast]
    have line : Consecutive logBegin (r::rs) := by
      rw [List.flatten_append,List.flatten_singleton] at run
      exact run.right_of_append
    have one := individuallyStart l (cs.flatten ++ (r::rs).dropLast) (rs.getLastD r)
    have all := respondStart l (cs.map digestResponse) (digestResponse (r::rs))
    rw [List.flatten_append,List.flatten_singleton,last,one.1,one.2,batched,List.map_append,List.map_singleton,all.1,all.2,
      responseBlks,List.getLast?_append]
    have start : (digestResponse (r::rs)).digestStartBlknr = r.arg.prefetchStart := by
      simp only [digestResponse,batchMetaCons]
    rw [start,(consecutiveStop line).2]
    simp

/- The acknowledgements of the batches leave what those of the requests leave exactly when no batch
covers more than one rotation and the last batch none behind its first request. -/
theorem batchedSame {logBegin l bs} (run : Consecutive logBegin bs.flatten) (batches : Batches bs) :
    Same (batched l bs) (individually l bs.flatten) ↔
    (∀ b ∈ bs, b.countP resets ≤ 1) ∧ ∀ b, bs.getLast? = some b → b.tail.any resets = false := by
  have counters := sameCounters l bs
  have start := sameStart (l := l) run batches
  constructor
  · intro same
    exact ⟨(sameVersion l bs).mp same.startVersion,start.1.mp same.startBlk⟩
  · rintro ⟨one,last⟩
    have startBlk := start.1.mpr last
    exact ⟨startBlk,start.2 startBlk,(sameVersion l bs).mpr one,counters.1,counters.2⟩

def lapBatches : List (List Request) :=
  [[⟨⟨1,70000,20,false,false⟩,[]⟩,⟨⟨70001,61000,20,false,false⟩,[]⟩],[⟨⟨1,4098,1,true,false⟩,[]⟩,⟨⟨4099,2,1,false,true⟩,[]⟩]]

theorem batchedSameRotated : Consecutive 1 lapBatches.flatten ∧ Batches lapBatches ∧
    Same (batched (Log.initLog 0) lapBatches) (individually (Log.initLog 0) lapBatches.flatten) :=
  ⟨by decide,by decide,(batchedSame (show Consecutive 1 _ by decide) (by decide)).mpr (by decide)⟩

section Runs
variable {lo hi : Nat}

theorem fitsConsecutive {c rs} (fits : Fits c rs) (chain : (c::rs.flatMap Request.txs).IsChain (Follows lo hi))
    (inside : ∀ x ∈ rs.flatMap Request.txs, lo ≤ x.start ∧ 0 < x.len) : Consecutive lo rs := by
  induction rs generalizing c with
  | nil => exact .nil
  | cons r rs ih =>
    obtain ⟨group,rest⟩ := fits
    rw [List.flatMap_cons] at chain inside
    have behind := laidRest chain
    have line := ih rest behind (fun x mem => inside x (List.mem_append_right _ mem))
    cases rs with
    | nil => exact .singleton r
    | cons q rs =>
      refine List.isChain_cons_cons.mpr ⟨?_,line⟩
      obtain ⟨y,ys,cons⟩ := List.exists_cons_of_ne_nil rest.1.taken
      have last := inside _ (mem_append_left _ (lastMemSome (c := c) group.taken))
      rw [List.flatMap_cons,cons,cons_append] at behind
      have follows := (List.isChain_cons_cons.mp behind).1
      have lap := rest.1.oneLap y (by simp [cons])
      have reset : resets q = true ↔ (q.txs.getLastD (r.txs.getLastD c)).lap ≠ (r.txs.getLastD c).lap := rest.1.reset
      have start := rest.1.start
      rw [cons,List.headD_cons] at start
      rw [← cons_append] at chain
      rw [Next,stop,Publish.groupStop group chain.left_of_append,start]
      simp only [Span.stop] at *
      rcases follows with ⟨same,start⟩ | ⟨next,start,_⟩
      · rw [if_neg (by rw [reset]; omega)]; exact start
      · rw [if_pos (by rw [reset]; omega)]; omega

end Runs

theorem stepPositive {s a t} (before : ∀ x ∈ Log.laid s, 0 < x.len) (taken : Log.step s a = some t) :
    ∀ x ∈ Log.laid t, 0 < x.len := by
  cases a with
  | alloc n =>
    obtain ⟨⟨idle,positive,_⟩,rfl⟩ := ifTaken taken
    intro x mem
    rcases memSnoc mem with old | rfl
    · exact before x (mem_append_left _ old)
    · exact positive
  | ret =>
    obtain ⟨x,pending,_,rfl⟩ := Log.retExact taken
    simpa [Log.laid,pending] using before
  | ack k =>
    obtain ⟨_,rfl⟩ := ifTaken taken
    intro x mem
    rcases List.mem_append.mp mem with old | held
    · exact before x (mem_append_left _ (List.mem_of_mem_drop old))
    · exact before x (List.mem_append_right _ held)

theorem unackedConsecutive {logSbBlk s} (reached : Reach Publish.step Publish.Paced (Publish.init logSbBlk) s) :
    Consecutive (logSbBlk + 1) (unacked s) := by
  have synced := Publish.pacedSynced reached
  have logged := Publish.publishRefinesLog reached
  have positive := reachInvariant (fun s => ∀ x ∈ Log.laid s, 0 < x.len) (by simp [Log.laid,Log.init])
    (fun _ _ _ before _ taken => stepPositive before taken) logged
  have base := Log.reachSbBlk logged
  have chain := synced.guard.chain
  rw [Log.laid,synced.line,append_assoc,← cons_append] at chain
  have line := chain.left_of_append
  refine base ▸ fitsConsecutive synced.fits line (fun x mem => ?_)
  have here : x ∈ Log.laid s.fs := by
    rw [Log.laid,synced.line,append_assoc]
    exact mem_append_left _ mem
  exact ⟨(synced.guard.inside x (.tail _ here)).1,positive x here⟩

theorem sentConsecutive {logSbBlk s b} (reached : Reach Publish.step Publish.Paced (Publish.init logSbBlk) s)
    (sent : b ∈ s.sent) : Consecutive (logSbBlk + 1) b := by
  obtain ⟨before,behind,split⟩ := List.append_of_mem sent
  have line := unackedConsecutive reached
  rw [unacked,split] at line
  simp only [List.flatten_append,List.flatten_cons,append_assoc] at line
  exact (line.right_of_append).left_of_append

def committed (n : Nat) : List Publish.Action :=
  (List.replicate n [.alloc maxTransaction,.ret,.request,.arrive]).flatten

def straddling : List Publish.Action := committed 30 ++ [.ack] ++ committed 30

def differs (s : Publish.State) : Bool :=
  s.sent.any fun b => decide (Batches [b]) && !decide (Same (batched s.fs.log [b]) (individually s.fs.log b))

theorem straddlingBatchDiffers : ∃ s b, Reach Publish.step Publish.Paced (Publish.init 0) s ∧ b ∈ s.sent ∧
    Consecutive 1 b ∧ Batches [b] ∧ ¬Same (batched s.fs.log [b]) (individually s.fs.log b) := by
  obtain ⟨s,reached,bad⟩ : ∃ s, Reach Publish.step Publish.Paced (Publish.init 0) s ∧ differs s = true :=
    traceReach straddling (by decide +kernel)
  obtain ⟨b,sent,other⟩ := List.any_eq_true.mp bad
  simp only [Bool.and_eq_true,decide_eq_true_eq,Bool.not_eq_true',decide_eq_false_iff_not] at other
  exact ⟨s,b,reached,sent,sentConsecutive reached sent,other.1,other.2⟩

end LineFS.Acknowledge
