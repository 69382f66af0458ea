import LineFS.Base.Run
import LineFS.Bitmap
import LineFS.Placement

/-! The write path of LibFS on one file while the log does not rotate. A write is logged as pieces, and
the file cache keeps for every block the pieces in the log that concern it. Writes are `Copy`s on
file positions; the pieces of a block do to its bytes what the writes do. -/
namespace LineFS.Overlay
open Base Bitmap Kernfs Placement

variable {β : Type}

structure FcacheLog where
  addr : Nat
  offset : Nat
  size : Nat
  version : Nat
  deriving DecidableEq, Repr

structure FcacheBlock where
  logVersion : Nat
  logs : List FcacheLog
  deriving DecidableEq, Repr

structure LibFS (β : Type) where
  size : Nat
  fcache : Nat → Option FcacheBlock
  log : Nat → β
  nextAvailHeader : Nat
  availVersion : Nat

def outdated (availVersion nextAvailHeader : Nat) (l : FcacheLog) : Bool :=
  let versionDiff := availVersion - l.version
  1 < versionDiff || (versionDiff == 1 && l.addr < nextAvailHeader)

def checkLogInvalidation (availVersion nextAvailHeader : Nat) (b : FcacheBlock) : FcacheBlock :=
  let logs := if 1 < availVersion - b.logVersion then [] else b.logs.filter fun l => !outdated availVersion nextAvailHeader l
  ⟨if logs = [] then 0 else b.logVersion,logs⟩

def putBlock (fcache : Nat → Option FcacheBlock) (key : Nat) (b : FcacheBlock) : Nat → Option FcacheBlock :=
  fun k => if k = key then some b else fcache k

def persistSmall (s : LibFS β) (logblkNo : Nat) (e : Copy β) : LibFS β :=
  let key := e.dst / gBlockSizeBytes
  let offsetInBlock := e.dst % gBlockSizeBytes
  let b := ((s.fcache key).map (checkLogInvalidation s.availVersion s.nextAvailHeader)).getD ⟨0,[]⟩
  { s with
    fcache := putBlock s.fcache key ⟨s.availVersion,⟨logblkNo,offsetInBlock,e.len,s.availVersion⟩::b.logs⟩
    log := Copy.execute s.log ⟨logblkNo * gBlockSizeBytes + offsetInBlock,e.len,e.byte⟩ }

def overwriteBlocks (version : Nat) (fcache : Nat → Option FcacheBlock) (key logblkNo : Nat) : Nat → Nat → Option FcacheBlock
  | 0 => fcache
  | k+1 => putBlock (overwriteBlocks version fcache key logblkNo k) (key + k) ⟨version,[⟨logblkNo + k,0,gBlockSizeBytes,version⟩]⟩

def persistLarge (s : LibFS β) (logblkNo : Nat) (e : Copy β) : LibFS β :=
  { s with
    fcache := overwriteBlocks s.availVersion s.fcache (e.dst / gBlockSizeBytes) logblkNo (e.len / gBlockSizeBytes)
    log := Copy.execute s.log ⟨logblkNo * gBlockSizeBytes,e.len,e.byte⟩ }

def persistLogFile (hdrBlkno : Nat) (r : LibFS β × Nat) (e : Copy β) : LibFS β × Nat :=
  if e.len < gBlockSizeBytes then (persistSmall r.1 (hdrBlkno + r.2) e,r.2 + 1)
  else (persistLarge r.1 (hdrBlkno + r.2) e,r.2 + e.len / gBlockSizeBytes)

def pieces (w : Copy β) : List (Copy β) :=
  let p := portions w.dst w.len
  [⟨w.dst,p.prepended,w.byte⟩,⟨w.dst + p.prepended,p.aligned,fun i => w.byte (p.prepended + i)⟩,
   ⟨w.dst + p.prepended + p.aligned,p.appended,fun i => w.byte (p.prepended + p.aligned + i)⟩].filter fun e => decide (0 < e.len)

def addToLog (size : Nat) (e : Copy β) : Nat := if size < e.dst + e.len then e.dst + e.len else size

def mlfsFileWrite (s : LibFS β) (w : Copy β) : Option (LibFS β) :=
  if maxWriteBytes < w.len then none
  else if (pieces w).isEmpty then some s
  else
    let hdrBlkno := s.nextAvailHeader
    let s := { s with size := (pieces w).foldl addToLog s.size, nextAvailHeader := hdrBlkno + writeBlocks w.dst w.len }
    some ((pieces w).foldl (persistLogFile hdrBlkno) (s,1)).1

def fcacheFind (s : LibFS β) (key : Nat) : List FcacheLog :=
  ((s.fcache key).map fun b => (checkLogInvalidation s.availVersion s.nextAvailHeader b).logs).getD []

def patch (s : LibFS β) (key : Nat) (fcl : FcacheLog) : Copy β :=
  ⟨key * gBlockSizeBytes + fcl.offset,fcl.size,fun i => s.log (fcl.addr * gBlockSizeBytes + fcl.offset + i)⟩

def overlap (w : Copy β) (k : Nat) : Nat := min (w.dst + w.len) ((k + 1) * gBlockSizeBytes) - max w.dst (k * gBlockSizeBytes)

def countPiece (k total : Nat) (w : Copy β) : Nat := if overlap w k = gBlockSizeBytes then gBlockSizeBytes else total + overlap w k

def logged (ws : List (Copy β)) (k : Nat) : Nat := ws.foldl (countPiece k) 0

section Pieces
variable (w : Copy β)

theorem portionsShape (off n : Nat) : let p := portions off n
    p.prepended + p.aligned + p.appended = n ∧ p.prepended < gBlockSizeBytes ∧ p.appended < gBlockSizeBytes ∧
    (p.aligned = 0 ∧ p.appended = 0 ∧ off % gBlockSizeBytes + n ≤ gBlockSizeBytes ∨
     (off + p.prepended) % gBlockSizeBytes = 0 ∧ p.aligned % gBlockSizeBytes = 0) := by
  obtain ⟨head,tail,total⟩ := portionsSplit off n
  refine ⟨total,head,tail,?_⟩
  clear head tail total
  have head := alignUp off
  have tail := alignUp (off + n)
  simp only [portions]
  split
  · refine .inl ⟨rfl,rfl,?_⟩
    simp only [gBlockSizeBytes] at *
    omega
  · refine .inr ?_
    simp only [gBlockSizeBytes] at *
    split_ifs <;> omega

theorem piecesExecute (mem : Nat → β) (a : Nat) : Copy.executeAll (pieces w) mem a = Copy.execute mem w a := by
  obtain ⟨total,_⟩ := portionsShape w.dst w.len
  rw [pieces,Copy.executePositive]
  generalize portions w.dst w.len = p at *
  have front : Copy.executeAll [⟨w.dst,p.prepended,w.byte⟩,⟨w.dst + p.prepended,p.aligned,fun i => w.byte (p.prepended + i)⟩] mem a =
      Copy.executeAll [⟨w.dst,p.prepended + p.aligned,w.byte⟩] mem a := Copy.executeSplit _ _ _ _
  have back : Copy.execute (Copy.executeAll [⟨w.dst,p.prepended + p.aligned,w.byte⟩] mem)
      ⟨w.dst + (p.prepended + p.aligned),p.appended,fun i => w.byte (p.prepended + p.aligned + i)⟩ a =
      Copy.execute mem ⟨w.dst,p.prepended + p.aligned + p.appended,w.byte⟩ a := Copy.executeSplit _ _ _ _
  rw [total,← Nat.add_assoc] at back
  refine Eq.trans ?_ back
  rw [show ∀ c d e : Copy β, [c,d,e] = [c,d] ++ [e] from fun _ _ _ => rfl,Copy.executeAppend]
  exact Copy.executeCongr front

theorem piecesShaped : ∀ e ∈ pieces w, Shaped e.dst e.len := by
  obtain ⟨total,head,tail,shape⟩ := portionsShape w.dst w.len
  intro e mem
  obtain ⟨listed,some⟩ := List.mem_filter.mp mem
  rw [decide_eq_true_eq] at some
  generalize portions w.dst w.len = p at *
  refine ⟨some,?_⟩
  simp only [List.mem_cons,List.not_mem_nil,or_false] at listed
  simp only [gBlockSizeBytes] at *
  rcases listed with rfl | rfl | rfl <;> simp only at * <;> omega

theorem piecesEmpty : (pieces w).isEmpty = true ↔ w.len = 0 := by
  obtain ⟨total,_⟩ := portionsShape w.dst w.len
  rw [List.isEmpty_iff,pieces,List.filter_eq_nil_iff]
  simp only [List.mem_cons,List.not_mem_nil,or_false,forall_eq_or_imp,forall_eq,decide_eq_true_eq,Nat.not_lt,Nat.le_zero]
  omega

theorem overlapEmpty {c : Copy β} (empty : c.len = 0) (k : Nat) : overlap c k = 0 := by
  simp only [overlap]
  omega

theorem meetSplit (a m n low high : Nat) :
    min (a + (m + n)) high - max a low = (min (a + m) high - max a low) + (min (a + m + n) high - max (a + m) low) := by omega

theorem overlapApart {c d : Copy β} {m : Nat} (whole : m % gBlockSizeBytes = 0) (before : c.dst + c.len ≤ m) (after : m ≤ d.dst)
    (k : Nat) : overlap c k = 0 ∨ overlap d k = 0 := by
  simp only [overlap,gBlockSizeBytes] at *
  by_cases low : k * 4096 < m
  · exact .inr (by omega)
  · exact .inl (by omega)

theorem countPositive (k total : Nat) (cs : List (Copy β)) :
    (cs.filter fun c => decide (0 < c.len)).foldl (countPiece k) total = cs.foldl (countPiece k) total := by
  induction cs generalizing total with
  | nil => rfl
  | cons c cs ih =>
    rw [List.filter_cons]
    split
    · exact ih _
    · rename_i empty
      rw [decide_eq_true_eq] at empty
      rw [ih,List.foldl_cons,countPiece,overlapEmpty (by omega)]
      rfl

theorem countSingle {c d e w : Copy β} {k : Nat} (total : Nat) (sum : overlap w k = overlap c k + overlap d k + overlap e k)
    (first : overlap c k = 0 ∨ overlap d k = 0) (outer : overlap c k = 0 ∨ overlap e k = 0) (last : overlap d k = 0 ∨ overlap e k = 0) :
    countPiece k (countPiece k (countPiece k total c) d) e = countPiece k total w := by
  have none : ¬0 = gBlockSizeBytes := by decide
  simp only [countPiece,sum]
  rcases first with zero | zero <;> rcases last with zero' | zero' <;>
    rcases outer with zero'' | zero'' <;> simp only [*,if_false,Nat.add_zero,Nat.zero_add]

theorem countPieces (k total : Nat) : (pieces w).foldl (countPiece k) total = countPiece k total w := by
  obtain ⟨whole,_,_,shape⟩ := portionsShape w.dst w.len
  rw [pieces,countPositive]
  generalize portions w.dst w.len = p at *
  refine countSingle total ?_ ?_ ?_ ?_
  · simp only [overlap,← whole]
    rw [meetSplit w.dst (p.prepended + p.aligned) p.appended,meetSplit w.dst p.prepended p.aligned]
    simp only [Nat.add_assoc]
  all_goals rcases shape with ⟨none,rest,_⟩ | ⟨start,blocks⟩
  · exact .inr (overlapEmpty none k)
  · exact overlapApart start (Nat.le_refl _) (Nat.le_refl _) k
  · exact .inr (overlapEmpty rest k)
  · exact overlapApart start (Nat.le_refl _) (Nat.le_add_right _ _) k
  · exact .inr (overlapEmpty rest k)
  · have stop : (w.dst + p.prepended + p.aligned) % gBlockSizeBytes = 0 := by rw [Nat.add_mod,start,blocks]; rfl
    exact overlapApart stop (Nat.le_refl _) (Nat.le_refl _) k

end Pieces

def rawLogs (s : LibFS β) (key : Nat) : List FcacheLog := ((s.fcache key).map FcacheBlock.logs).getD []

def patches (s : LibFS β) (key : Nat) : List (Copy β) := (rawLogs s key).reverse.map (patch s key)

structure Current (s : LibFS β) (bound : Nat) (ws : List (Copy β)) : Prop where
  version : ∀ k b, s.fcache k = some b → b.logVersion = s.availVersion
  piece : ∀ k, ∀ l ∈ rawLogs s k, l.version = s.availVersion ∧ l.addr < bound ∧ l.offset + l.size ≤ gBlockSizeBytes
  patched : ∀ mem p, Copy.executeAll (patches s (p / gBlockSizeBytes)) mem p = Copy.executeAll ws mem p
  counted : ∀ k, ((rawLogs s k).map FcacheLog.size).sum = logged ws k

section Persist
variable {s t : LibFS β} {bound : Nat} {ws : List (Copy β)} {e : Copy β} {a : Nat}

theorem checkKeeps (h : Current s bound ws) {k : Nat} {b : FcacheBlock} (found : s.fcache k = some b) :
    (checkLogInvalidation s.availVersion s.nextAvailHeader b).logs = b.logs := by
  have same := h.version k b found
  have raw : rawLogs s k = b.logs := by rw [rawLogs,found]; rfl
  simp only [checkLogInvalidation,same,Nat.sub_self,Nat.not_lt_zero,if_false]
  refine List.filter_eq_self.mpr fun l mem => ?_
  have current := (h.piece k l (raw ▸ mem)).1
  simp [outdated,current]

theorem findRaw (h : Current s bound ws) (k : Nat) : fcacheFind s k = rawLogs s k := by
  rw [fcacheFind,rawLogs]
  cases found : s.fcache k with
  | none => rfl
  | some b => exact checkKeeps h found

theorem patchKept (same : ∀ a < bound * gBlockSizeBytes, t.log a = s.log a) {l : FcacheLog} (below : l.addr < bound)
    (fits : l.offset + l.size ≤ gBlockSizeBytes) (k : Nat) (mem : Nat → β) (a : Nat) :
    Copy.execute mem (patch t k l) a = Copy.execute mem (patch s k l) a := by
  by_cases covers : (patch s k l).Covers a
  · refine (if_pos covers).trans (Eq.trans (same _ ?_) (if_pos covers).symm)
    have block := Nat.mul_le_mul_right gBlockSizeBytes (show l.addr + 1 ≤ bound from below)
    simp only [patch,Copy.Covers] at covers ⊢
    rw [Nat.add_mul] at block
    omega
  · exact (if_neg covers).trans (if_neg covers).symm

theorem patchesKept (h : Current s bound ws) (same : ∀ a < bound * gBlockSizeBytes, t.log a = s.log a) (mem : Nat → β) (a : Nat) :
    Copy.executeAll ((rawLogs s (a / gBlockSizeBytes)).reverse.map (patch t (a / gBlockSizeBytes))) mem a =
      Copy.executeAll ws mem a := by
  rw [← h.patched]
  refine Copy.executeMap fun l listed mem => ?_
  obtain ⟨_,below,fits⟩ := h.piece _ l (List.mem_reverse.mp listed)
  exact patchKept same below fits _ mem a

theorem snocMiss (miss : ¬e.Covers a) (mem : Nat → β) : Copy.executeAll (ws ++ [e]) mem a = Copy.executeAll ws mem a := by
  rw [Copy.executeAppend]
  exact if_neg miss

theorem loggedSnoc (k : Nat) : logged (ws ++ [e]) k = countPiece k (logged ws k) e := List.foldl_append

theorem coversOverlap (covers : e.Covers a) : 0 < overlap e (a / gBlockSizeBytes) := by
  simp only [overlap,Copy.Covers,gBlockSizeBytes] at *
  omega

structure Adds (s : LibFS β) (bound : Nat) (e : Copy β) (k : Nat) (b : FcacheBlock) (l : FcacheLog) : Prop where
  version : b.logVersion = s.availVersion
  current : l.version = s.availVersion
  behind : e.dst / gBlockSizeBytes ≤ k
  addr : l.addr = bound + (k - e.dst / gBlockSizeBytes)
  start : k * gBlockSizeBytes + l.offset = max e.dst (k * gBlockSizeBytes)
  size : l.size = overlap e k
  some : 0 < overlap e k
  logs : b.logs = l::rawLogs s k ∧ overlap e k ≠ gBlockSizeBytes ∨ b.logs = [l] ∧ overlap e k = gBlockSizeBytes

theorem addsPatch {k : Nat} {b : FcacheBlock} {l : FcacheLog} (new : Adds s bound e k b l)
    (holds : ∀ i < e.len, t.log (bound * gBlockSizeBytes + e.dst % gBlockSizeBytes + i) = e.byte i) (here : a / gBlockSizeBytes = k)
    (mem : Nat → β) : Copy.execute mem (patch t k l) a = Copy.execute mem e a := by
  obtain ⟨_,_,behind,addr,start,size,_,_⟩ := new
  have same : (patch t k l).Covers a ↔ e.Covers a := by
    simp only [patch,Copy.Covers,overlap,gBlockSizeBytes] at *
    omega
  by_cases covers : e.Covers a
  · refine (if_pos (same.mpr covers)).trans (Eq.trans ?_ (if_pos covers).symm)
    have at_ := holds (a - e.dst) (by simp only [Copy.Covers] at covers; omega)
    have place : l.addr * gBlockSizeBytes + l.offset + (a - (k * gBlockSizeBytes + l.offset)) =
        bound * gBlockSizeBytes + e.dst % gBlockSizeBytes + (a - e.dst) := by
      have low : k * gBlockSizeBytes + l.offset ≤ a := (same.mpr covers).1
      obtain ⟨j,is⟩ := Nat.exists_eq_add_of_le behind
      rw [addr,is,Nat.add_sub_cancel_left]
      rw [is] at low
      have first : e.dst ≤ a := covers.1
      clear start addr size same here holds at_ covers behind
      simp only [gBlockSizeBytes] at *
      omega
    rw [← at_,← place]
    rfl
  · exact (if_neg (mt same.mp covers)).trans (if_neg covers).symm

theorem persistCurrent {next : Nat} (h : Current s bound ws) (version : t.availVersion = s.availVersion) (grows : bound ≤ next)
    (kept : ∀ a < bound * gBlockSizeBytes, t.log a = s.log a)
    (holds : ∀ i < e.len, t.log (bound * gBlockSizeBytes + e.dst % gBlockSizeBytes + i) = e.byte i)
    (blocks : ∀ k, t.fcache k = s.fcache k ∧ overlap e k = 0 ∨ ∃ b l, t.fcache k = some b ∧ Adds s bound e k b l ∧ l.addr < next) :
    Current t next (ws ++ [e]) := by
  have none : ¬0 = gBlockSizeBytes := by decide
  have raw {k : Nat} (same : t.fcache k = s.fcache k) : rawLogs t k = rawLogs s k := by rw [rawLogs,rawLogs,same]
  have found {k : Nat} {b : FcacheBlock} (is : t.fcache k = some b) : rawLogs t k = b.logs := by rw [rawLogs,is]; rfl
  refine ⟨fun k b is => ?_,fun k l mem => ?_,fun mem p => ?_,fun k => ?_⟩
  · rcases blocks k with ⟨same,_⟩ | ⟨b',l,new,adds,_⟩
    · rw [version]
      exact h.version k b (same ▸ is)
    · cases is.symm.trans new
      rw [version]
      exact adds.version
  · have old (mem : l ∈ rawLogs s k) : l.version = t.availVersion ∧ l.addr < next ∧ l.offset + l.size ≤ gBlockSizeBytes := by
      obtain ⟨current,below,fits⟩ := h.piece k l mem
      exact ⟨version ▸ current,by omega,fits⟩
    rcases blocks k with ⟨same,_⟩ | ⟨b,l',new,adds,below⟩
    · exact old (raw same ▸ mem)
    · have fresh : l'.version = t.availVersion ∧ l'.addr < next ∧ l'.offset + l'.size ≤ gBlockSizeBytes := by
        refine ⟨version ▸ adds.current,below,?_⟩
        have start := adds.start
        have some := adds.some
        rw [adds.size]
        simp only [overlap,Nat.add_mul] at start some ⊢
        omega
      rw [found new] at mem
      rcases adds.logs with ⟨logs,_⟩ | ⟨logs,_⟩ <;> rw [logs] at mem
      · rcases List.mem_cons.mp mem with rfl | mem
        · exact fresh
        · exact old mem
      · cases List.mem_singleton.mp mem
        exact fresh
  · rcases blocks (p / gBlockSizeBytes) with ⟨same,miss⟩ | ⟨b,l,new,adds,_⟩
    · have outside : ¬e.Covers p := fun covers => absurd (coversOverlap covers) (by omega)
      rw [patches,raw same,patchesKept h kept,snocMiss outside]
    · have piece := addsPatch adds holds rfl
      rw [patches,found new,Copy.executeAppend]
      rcases adds.logs with ⟨logs,_⟩ | ⟨logs,whole⟩
      · rw [logs,List.reverse_cons,List.map_append,Copy.executeAppend]
        refine (piece _).trans ?_
        show Copy.executeAll [e] _ p = Copy.executeAll [e] _ p
        exact Copy.executeCongr (patchesKept h kept mem p)
      · have covers : e.Covers p := by
          simp only [overlap,Copy.Covers,gBlockSizeBytes] at whole ⊢
          omega
        rw [logs]
        exact (piece mem).trans ((if_pos covers).trans (if_pos covers).symm)
  · rw [loggedSnoc,countPiece]
    rcases blocks k with ⟨same,miss⟩ | ⟨b,l,new,adds,_⟩
    · rw [raw same,miss,if_neg none,h.counted,Nat.add_zero]
    · rw [found new]
      rcases adds.logs with ⟨logs,part⟩ | ⟨logs,whole⟩
      · rw [logs,if_neg part,List.map_cons,List.sum_cons,h.counted,adds.size,Nat.add_comm]
      · rw [logs,if_pos whole,List.map_singleton,List.sum_singleton,adds.size,whole]

theorem smallCurrent (h : Current s bound ws) (some : 0 < e.len) (small : e.len < gBlockSizeBytes)
    (fits : e.dst % gBlockSizeBytes + e.len ≤ gBlockSizeBytes) : Current (persistSmall s bound e) (bound + 1) (ws ++ [e]) := by
  refine persistCurrent h rfl (Nat.le_succ _) (fun a below => if_neg fun covers => ?_) (fun i less => ?_) fun k => ?_
  · have := covers.1
    simp only at this
    omega
  · refine (if_pos ⟨Nat.le_add_right _ _,Nat.add_lt_add_left less _⟩).trans ?_
    exact congrArg e.byte (Nat.add_sub_cancel_left ..)
  · by_cases here : k = e.dst / gBlockSizeBytes
    · have part : overlap e k = e.len := by
        simp only [overlap,gBlockSizeBytes] at *
        omega
      have raw : (((s.fcache k).map (checkLogInvalidation s.availVersion s.nextAvailHeader)).getD ⟨0,[]⟩).logs = rawLogs s k := by
        rw [rawLogs]
        cases found : s.fcache k with
        | none => rfl
        | some b => exact checkKeeps h found
      refine .inr ⟨_,⟨bound,e.dst % gBlockSizeBytes,e.len,s.availVersion⟩,if_pos here,
        ⟨rfl,rfl,by omega,by simp [here],?_,part.symm,by omega,.inl ⟨?_,by omega⟩⟩,Nat.lt_succ_self _⟩
      · simp only [here,gBlockSizeBytes]
        omega
      · rw [← here,raw]
    · refine .inl ⟨if_neg here,?_⟩
      simp only [overlap,gBlockSizeBytes] at *
      omega

theorem overwritten (version : Nat) (fcache : Nat → Option FcacheBlock) (key logblkNo n k : Nat) :
    overwriteBlocks version fcache key logblkNo n k = if key ≤ k ∧ k < key + n then
      some ⟨version,[⟨logblkNo + (k - key),0,gBlockSizeBytes,version⟩]⟩ else fcache k := by
  induction n with
  | zero => rw [overwriteBlocks,if_neg (by omega)]
  | succ n ih =>
    rw [overwriteBlocks,putBlock,ih]
    by_cases last : k = key + n
    · rw [if_pos last,if_pos (by omega),last,Nat.add_sub_cancel_left]
    · rw [if_neg last]
      exact if_congr (by omega) rfl rfl

theorem largeCurrent (h : Current s bound ws) (blocks : e.len % gBlockSizeBytes = 0) (aligned : e.dst % gBlockSizeBytes = 0) :
    Current (persistLarge s bound e) (bound + e.len / gBlockSizeBytes) (ws ++ [e]) := by
  refine persistCurrent h rfl (Nat.le_add_right _ _) (fun a below => if_neg fun covers => ?_) (fun i less => ?_) fun k => ?_
  · have := covers.1
    simp only at this
    omega
  · rw [aligned,Nat.add_zero]
    refine (if_pos ⟨Nat.le_add_right _ _,Nat.add_lt_add_left less _⟩).trans ?_
    exact congrArg e.byte (Nat.add_sub_cancel_left ..)
  · by_cases here : e.dst / gBlockSizeBytes ≤ k ∧ k < e.dst / gBlockSizeBytes + e.len / gBlockSizeBytes
    · have whole : overlap e k = gBlockSizeBytes := by
        simp only [overlap,gBlockSizeBytes] at *
        omega
      refine .inr ⟨_,_,(overwritten ..).trans (if_pos here),⟨rfl,rfl,here.1,rfl,?_,whole.symm,by rw [whole]; decide,.inr ⟨rfl,whole⟩⟩,?_⟩
      · simp only [gBlockSizeBytes] at *
        omega
      · simp only
        omega
    · refine .inl ⟨(overwritten ..).trans (if_neg here),?_⟩
      simp only [overlap,gBlockSizeBytes] at *
      omega

theorem piecesCurrent (hdrBlkno : Nat) (es : List (Copy β)) (shaped : ∀ e ∈ es, Shaped e.dst e.len) (pos : Nat)
    (h : Current s (hdrBlkno + pos) ws) : let r := es.foldl (persistLogFile hdrBlkno) (s,pos)
    Current r.1 (hdrBlkno + r.2) (ws ++ es) ∧ r.2 = pos + (es.map fun e => entryBlocks e.len).sum ∧
    r.1.size = s.size ∧ r.1.nextAvailHeader = s.nextAvailHeader := by
  induction es generalizing s ws pos with
  | nil => exact ⟨by simpa using h,rfl,rfl,rfl⟩
  | cons e es ih =>
    have later : ∀ d ∈ es, Shaped d.dst d.len := fun d mem => shaped d (.tail _ mem)
    obtain ⟨some,part | whole⟩ := shaped e (.head _)
    · have stepped := smallCurrent h some part.1 part.2
      obtain ⟨done,blocks,size,next⟩ := ih later (pos + 1) stepped
      simp only [List.foldl_cons,persistLogFile,if_pos part.1,List.map_cons,List.sum_cons,entryBlocks] at *
      rw [List.append_assoc,List.singleton_append] at done
      exact ⟨done,by omega,size,next⟩
    · have large : ¬e.len < gBlockSizeBytes := by
        simp only [gBlockSizeBytes] at *
        omega
      have stepped := largeCurrent h whole.1 whole.2
      rw [Nat.add_assoc] at stepped
      obtain ⟨done,blocks,size,next⟩ := ih later (pos + e.len / gBlockSizeBytes) stepped
      simp only [List.foldl_cons,persistLogFile,if_neg large,List.map_cons,List.sum_cons,entryBlocks] at *
      rw [List.append_assoc,List.singleton_append] at done
      exact ⟨done,by omega,size,next⟩

theorem currentJoin {w : Copy β} (h : Current s bound (ws ++ pieces w)) : Current s bound (ws ++ [w]) := by
  refine ⟨h.version,h.piece,fun mem p => ?_,fun k => ?_⟩
  · rw [h.patched,Copy.executeAppend,Copy.executeAppend,piecesExecute]
    rfl
  · rw [h.counted,loggedSnoc,logged,List.foldl_append,countPieces]
    rfl

theorem currentBound {next : Nat} (h : Current s bound ws) (grows : bound ≤ next) : Current s next ws := by
  refine ⟨h.version,fun k l mem => ?_,h.patched,h.counted⟩
  obtain ⟨current,below,fits⟩ := h.piece k l mem
  exact ⟨current,by omega,fits⟩

theorem foldPieces {α : Type} (f : α → Copy β → α) (acc : α) (w : Copy β) : (pieces w).foldl f acc =
    let p := portions w.dst w.len
    let add (acc : α) (e : Copy β) := if e.len = 0 then acc else f acc e
    add (add (add acc ⟨w.dst,p.prepended,w.byte⟩) ⟨w.dst + p.prepended,p.aligned,fun i => w.byte (p.prepended + i)⟩)
      ⟨w.dst + p.prepended + p.aligned,p.appended,fun i => w.byte (p.prepended + p.aligned + i)⟩ := by
  simp only [pieces]
  generalize portions w.dst w.len = p
  have one (acc : α) (e : Copy β) : ([e].filter fun e => decide (0 < e.len)).foldl f acc = if e.len = 0 then acc else f acc e := by
    by_cases empty : e.len = 0
    · simp [empty]
    · simp [empty,Nat.pos_of_ne_zero empty]
  rw [show ∀ c d e : Copy β, [c,d,e] = [c] ++ ([d] ++ [e]) from fun _ _ _ => rfl]
  simp only [List.filter_append,List.foldl_append,one]

theorem piecesBlocks (w : Copy β) : ((pieces w).map fun e => entryBlocks e.len).sum + 1 = writeBlocks w.dst w.len := by
  rw [List.sum_eq_foldl,List.foldl_map,foldPieces]
  simp only [writeBlocks,portionBlocks]
  split_ifs <;> omega

def grown (size : Nat) (w : Copy β) : Nat := if w.len = 0 then size else max size (w.dst + w.len)

theorem piecesGrown (size : Nat) (w : Copy β) : (pieces w).foldl addToLog size = grown size w := by
  obtain ⟨total,_⟩ := portionsShape w.dst w.len
  rw [foldPieces]
  generalize portions w.dst w.len = p at *
  simp only [addToLog,grown]
  split_ifs <;> omega

theorem writeCurrent {w : Copy β} (h : Current s s.nextAvailHeader ws) (wrote : mlfsFileWrite s w = some t) :
    Current t t.nextAvailHeader (ws ++ [w]) ∧ t.size = grown s.size w := by
  rw [mlfsFileWrite] at wrote
  split at wrote
  · cases wrote
  · split at wrote
    · rename_i empty
      cases wrote
      have none := (piecesEmpty w).mp empty
      refine ⟨currentJoin ?_,(if_pos none).symm⟩
      rw [List.isEmpty_iff.mp empty,List.append_nil]
      exact h
    · cases wrote
      have started : Current { s with size := (pieces w).foldl addToLog s.size, nextAvailHeader := s.nextAvailHeader + writeBlocks w.dst w.len }
          (s.nextAvailHeader + 1) ws := currentBound ⟨h.version,h.piece,h.patched,h.counted⟩ (Nat.le_succ _)
      obtain ⟨done,blocks,size,next⟩ := piecesCurrent s.nextAvailHeader (pieces w) (piecesShaped w) 1 started
      have all := piecesBlocks w
      refine ⟨currentJoin (currentBound done ?_),size.trans (piecesGrown ..)⟩
      rw [next]
      simp only
      omega

end Persist

end LineFS.Overlay
