import LineFS.Lifetime
import LineFS.Files
import LineFS.TreeRequests

/-! Coalesced publishing against publishing in order, for a range without unlinks. The replay list makes of
the calls of one inode its last snapshot, at the place of the first, and its writes, at the place of the
first write. The two agree where the two kinds commute. -/
namespace LineFS.Coalesce
open List (filter_append foldl_append foldl_cons mem_filter)
open Base Kernfs Replay Lifetime Files Placement

def lastSnap (ops : List Op) : Option Op := (ops.filter Op.isInode).getLast?
def snapFirst (ops : List Op) : Bool := (ops.head?.map Op.isInode).getD false

def coalesce (ops : List Op) : List Op :=
  if snapFirst ops then (lastSnap ops).toList ++ ops.filter Op.isFile
  else ops.filter Op.isFile ++ (lastSnap ops).toList

theorem lastSnapSnoc (ops : List Op) (op : Op) :
    lastSnap (ops ++ [op]) = if op.isInode then some op else lastSnap ops := by
  unfold lastSnap
  rw [filter_append]
  cases h : op.isInode <;> simp [h]

theorem snapFirstSnoc (ops : List Op) (op : Op) :
    snapFirst (ops ++ [op]) = if ops = [] then op.isInode else snapFirst ops := by
  cases ops <;> simp [snapFirst]

structure Gathers (inum : Nat) (ops : List Op) (p : Phase) : Prop where
  past : p.past = none
  snap : p.life.snap.map (fun s => Op.inode inum s.2) = lastSnap ops
  writes : p.life.writes.map (fun v => Op.file inum v.offset v.length v.blknr) = ops.filter Op.isFile
  first : ops ≠ [] → p.life.snapFirst = snapFirst ops

theorem headKind {ops : List Op} (some : ops ≠ []) (plain : ∀ op ∈ ops, op.isUnlink = false) :
    (lastSnap ops = none → snapFirst ops = false ∧ ops.filter Op.isFile ≠ []) ∧
      (ops.filter Op.isFile = [] → snapFirst ops = true ∧ lastSnap ops ≠ none) := by
  obtain ⟨op,rest,rfl⟩ := List.exists_cons_of_ne_nil some
  have mine := plain op (.head _)
  rcases op with _ | _ | _
  · simp [lastSnap,snapFirst,Op.isInode,Op.isFile]
  · simp [lastSnap,snapFirst,Op.isInode,Op.isFile]
  · simp [Op.isUnlink] at mine

section gathers
variable {inum : Nat} {ops : List Op} {p : Phase} (h : Gathers inum ops p) (plain : ∀ op ∈ ops, op.isUnlink = false)
include h plain

theorem gathersSnapshot (alive create : Bool) (creates blknr : Nat) :
    Gathers inum (ops ++ [.inode inum blknr]) ⟨alive,creates,p.past,p.life.snapshot create blknr⟩ := by
  obtain ⟨_,_,past,snap,ws,fst⟩ := p
  obtain ⟨rfl,seen,writes,first⟩ := h
  have filter : (ops ++ [Op.inode inum blknr]).filter Op.isFile = ops.filter Op.isFile := by
    simp [filter_append,Op.isFile]
  have last : lastSnap (ops ++ [Op.inode inum blknr]) = some (.inode inum blknr) := by
    rw [lastSnapSnoc]
    rfl
  rcases snap with _ | s
  · have none : lastSnap ops = none := seen.symm
    refine ⟨rfl,last.symm,writes.trans filter.symm,fun _ => ?_⟩
    rw [snapFirstSnoc]
    by_cases empty : ops = []
    · subst empty
      simp only [List.filter_nil,List.map_eq_nil_iff] at writes
      simp [Life.snapshot,writes,Op.isInode]
    · obtain ⟨later,some⟩ := (headKind empty plain).1 none
      have wrote : ws ≠ [] := fun nil => some (by rw [← writes,nil]; rfl)
      rw [if_neg empty,later]
      simpa [Life.snapshot] using wrote
  · refine ⟨rfl,last.symm,writes.trans filter.symm,fun _ => ?_⟩
    have some : ops ≠ [] := fun nil => by simp [nil,lastSnap] at seen
    rw [snapFirstSnoc,if_neg some]
    exact first some

theorem gathersWrite (alive : Bool) (creates : Nat) (v : Iovec) :
    Gathers inum (ops ++ [.file inum v.offset v.length v.blknr]) ⟨alive,creates,p.past,p.life.write v⟩ := by
  obtain ⟨_,_,past,snap,ws,fst⟩ := p
  obtain ⟨rfl,seen,writes,first⟩ := h
  refine ⟨rfl,?_,?_,fun _ => ?_⟩
  · rw [lastSnapSnoc]
    exact seen
  · simp only [Life.write,List.map_append,filter_append]
    rw [writes]
    rfl
  · rw [snapFirstSnoc]
    simp only [Life.write]
    by_cases empty : ops = []
    · subst empty
      simp only [List.filter_nil,List.map_eq_nil_iff] at writes
      simp only [lastSnap,List.filter_nil,List.getLast?_nil,Option.map_eq_none_iff] at seen
      simp [writes,seen,Op.isInode]
    · rw [if_neg empty]
      split
      · rename_i nil
        obtain ⟨now,some⟩ := (headKind empty plain).2 (by rw [← writes,nil]; rfl)
        rw [now,← seen] at *
        simpa [Option.isSome_iff_ne_none] using some
      · exact first empty

end gathers

theorem phaseGathers {before : Bool} {inum : Nat} {es : List Entry} {p : Phase}
    (plain : ∀ e ∈ es, e.type ≠ .unlink) (named : ∀ e ∈ es, e.inodeNo = inum)
    (taken : run Phase.step (.start before) es = some p) : Gathers inum (es.map Entry.op) p := by
  induction es using List.reverseRecOn generalizing p with
  | nil =>
    cases taken
    exact ⟨rfl,rfl,rfl,fun none => absurd rfl none⟩
  | append_singleton es e ih =>
    rw [runAppend] at taken
    obtain ⟨q,first,last⟩ := Option.bind_eq_some_iff.mp taken
    obtain ⟨p',moved,rfl⟩ : ∃ p', q.step e = some p' ∧ p' = p := by
      simpa [run,Option.bind_eq_some_iff] using last
    have old {x : Entry} (mem : x ∈ es) : x ∈ es ++ [e] := List.mem_append_left _ mem
    have mine : e ∈ es ++ [e] := List.mem_append_right _ (List.mem_singleton_self e)
    have h := ih (fun x mem => plain x (old mem)) (fun x mem => named x (old mem)) first
    have known : ∀ op ∈ es.map Entry.op, op.isUnlink = false := by
      intro op mem
      obtain ⟨x,known,rfl⟩ := List.mem_map.mp mem
      have type := plain x (old known)
      unfold Entry.op
      split <;> simp_all [Op.isUnlink]
    rw [List.map_append,List.map_singleton]
    cases stepMoves moved with
    | create type dead =>
      have op : e.op = .inode inum e.blocks := by simp [Entry.op,type,named e mine]
      rw [op]
      exact gathersSnapshot h known _ _ _ _
    | update type alive =>
      have op : e.op = .inode inum e.blocks := by simp [Entry.op,type,named e mine]
      rw [op]
      exact gathersSnapshot h known _ _ _ _
    | write type alive =>
      rw [type,named e mine]
      exact gathersWrite h known _ _ ⟨e.data,e.length,e.blocks⟩
    | unlink type alive => exact absurd type (plain e mine)

theorem gathersOps {inum : Nat} {ops : List Op} {p : Phase} (h : Gathers inum ops p) :
    p.ops inum = coalesce ops := by
  rw [Phase.ops,h.past,coalesce]
  simp only [pastOps,Life.ops,List.nil_append,h.snap,h.writes]
  by_cases empty : ops = []
  · subst empty
    simp [lastSnap]
  · rw [h.first empty]

def stop : Op → Nat
  | .file _ offset length _ => offset + length
  | _ => 0

theorem fileNotInode {w : Op} (file : w.isFile = true) : w.isInode = false := by
  cases w with
  | file i o l b => rfl
  | inode i b => cases file
  | unlink i b => cases file

theorem stopNone {w : Op} (other : ¬w.isFile = true) : stop w = 0 := by
  cases w with
  | file i o l b => exact absurd rfl other
  | inode i b => rfl
  | unlink i b => rfl

def Touches (l : Nat) : Op → Prop
  | .file _ offset length _ => Touched offset length l
  | _ => False

def Plain : Op → Prop
  | .inode _ _ => True
  | .file _ offset length _ => Shaped offset length
  | .unlink _ _ => False

section folds
variable {β : Type} (blank : β) (area : Nat → Dinode) (log : Nat → β)

def sizeStep (n : Nat) : Op → Nat
  | .inode _ blknr => (area blknr).size
  | .file _ offset length _ => max n (offset + length)
  | .unlink _ _ => n

def byteStep (itype : IType) (pos : Nat) (v : Option β) : Op → Option β
  | .inode _ blknr => if itype = .file ∧ Cut (area blknr).size (pos / gBlockSizeBytes) then none else v
  | .file _ offset length blknr =>
    if offset ≤ pos ∧ pos < offset + length then
      some (log (blknr * gBlockSizeBytes + offset % gBlockSizeBytes + (pos - offset)))
    else if Touched offset length (pos / gBlockSizeBytes) then some (v.getD blank)
    else v
  | .unlink _ _ => v

def after (g : File β) (ops : List Op) : File β :=
  ⟨g.itype,ops.foldl (sizeStep area) g.size,g.deleting,
    fun pos => ops.foldl (byteStep blank area log g.itype pos) (g.byte pos)⟩

theorem runLive {g : File β} {ops : List Op} (live : g.deleting = false) (plain : ∀ op ∈ ops, Plain op) :
    run (fileStep blank area log) (some g) ops = some (some (after blank area log g ops)) := by
  induction ops generalizing g with
  | nil => rfl
  | cons op ops ih =>
    have rest : ∀ op ∈ ops, Plain op := fun x mem => plain x (.tail _ mem)
    have mine := plain op (.head _)
    cases op with
    | inode i b =>
      have same : File.target (some g) (area b) = g := by simp [File.target,live]
      simp only [run,fileStep,same,Option.bind_some]
      exact ih live rest
    | file i o l b =>
      have shaped : Shaped o l := mine
      simp only [run,fileStep,Option.bind_some,if_pos shaped]
      exact ih live rest
    | unlink i b => exact absurd mine id

end folds

theorem splitLast {α : Type} {p : α → Prop} {l : List α} (h : ∃ x ∈ l, p x) :
    ∃ xs a ys, l = xs ++ a::ys ∧ p a ∧ ∀ y ∈ ys, ¬ p y := by
  induction l with
  | nil =>
    obtain ⟨_,none,_⟩ := h
    exact nomatch none
  | cons x l ih =>
    by_cases later : ∃ y ∈ l, p y
    · obtain ⟨xs,a,ys,rfl,holds,last⟩ := ih later
      exact ⟨x::xs,a,ys,rfl,holds,last⟩
    · obtain ⟨y,mem,holds⟩ := h
      have head : y = x := (List.mem_cons.mp mem).resolve_right fun tail => later ⟨y,tail,holds⟩
      subst head
      exact ⟨[],y,l,rfl,holds,fun z mem holds => later ⟨z,mem,holds⟩⟩

theorem lastSnapSplit {xs ys : List Op} {i b : Nat} (last : ∀ o ∈ ys, o.isInode = false) :
    lastSnap (xs ++ .inode i b::ys) = some (.inode i b) := by
  have none : ys.filter Op.isInode = [] := List.filter_eq_nil_iff.mpr fun o mem => by simp [last o mem]
  simp [lastSnap,filter_append,List.filter_cons,Op.isInode,none]

theorem noSnap {ops : List Op} (plain : ∀ op ∈ ops, Plain op) (none : ¬ ∃ o ∈ ops, o.isInode = true) :
    coalesce ops = ops := by
  have files : ops.filter Op.isFile = ops := by
    refine List.filter_eq_self.mpr fun o mem => ?_
    have mine := plain o mem
    cases o with
    | inode i b => exact absurd ⟨_,mem,rfl⟩ none
    | file i o l b => rfl
    | unlink i b => exact absurd mine id
  have last : lastSnap ops = Option.none := by
    have empty : ops.filter Op.isInode = [] := List.filter_eq_nil_iff.mpr fun o mem is => none ⟨o,mem,is⟩
    simp [lastSnap,empty]
  rw [coalesce,last,files]
  simp

section sizes
variable (area : Nat → Dinode)

theorem sizeLe {ws : List Op} (writes : ∀ w ∈ ws, w.isInode = false) (n m : Nat) :
    ws.foldl (sizeStep area) n ≤ m ↔ n ≤ m ∧ ∀ w ∈ ws, stop w ≤ m := by
  induction ws generalizing n with
  | nil => simp
  | cons w ws ih =>
    have mine := writes w (.head _)
    rw [foldl_cons,ih fun x mem => writes x (.tail _ mem)]
    cases w with
    | inode i b => simp [Op.isInode] at mine
    | file i o l b => simp [sizeStep,stop,and_assoc]
    | unlink i b => simp [sizeStep,stop]

def SizesCommute (ops : List Op) : Prop :=
  ∀ xs i b ys, ops = xs ++ .inode i b::ys → (∀ o ∈ ys, o.isInode = false) →
    if snapFirst ops then ∀ w ∈ xs, stop w ≤ (area b).size ∨ ∃ v ∈ ys, stop w ≤ stop v
    else ∀ v ∈ ys, stop v ≤ (area b).size

theorem splitFolds (n : Nat) (xs : List Op) {ys : List Op} (i b : Nat) (last : ∀ o ∈ ys, o.isInode = false) :
    (xs ++ Op.inode i b::ys).foldl (sizeStep area) n = ys.foldl (sizeStep area) (area b).size ∧
      (coalesce (xs ++ .inode i b::ys)).foldl (sizeStep area) n =
        if snapFirst (xs ++ .inode i b::ys) then
          (xs.filter Op.isFile ++ ys.filter Op.isFile).foldl (sizeStep area) (area b).size
        else (area b).size := by
  refine ⟨by rw [foldl_append,foldl_cons]; rfl,?_⟩
  have files : (xs ++ Op.inode i b::ys).filter Op.isFile = xs.filter Op.isFile ++ ys.filter Op.isFile := by
    simp [filter_append,Op.isFile]
  rw [coalesce,lastSnapSplit last,files]
  split
  · rfl
  · simp [foldl_append,sizeStep]

theorem splitSizes {n : Nat} {xs ys : List Op} {i b : Nat} (last : ∀ o ∈ ys, o.isInode = false) :
    (coalesce (xs ++ .inode i b::ys)).foldl (sizeStep area) n = (xs ++ .inode i b::ys).foldl (sizeStep area) n ↔
      if snapFirst (xs ++ .inode i b::ys) then ∀ w ∈ xs, stop w ≤ (area b).size ∨ ∃ v ∈ ys, stop w ≤ stop v
      else ∀ v ∈ ys, stop v ≤ (area b).size := by
  obtain ⟨inOrder,coalesced⟩ := splitFolds area n xs i b last
  rw [inOrder,coalesced]
  have upper := (sizeLe area last (area b).size _).mp (Nat.le_refl _)
  split
  · have files : ∀ w ∈ xs.filter Op.isFile ++ ys.filter Op.isFile, w.isInode = false := by
      intro w mem
      rcases List.mem_append.mp mem with mem | mem <;> exact fileNotInode (mem_filter.mp mem).2
    have bound := (sizeLe area files (area b).size _).mp (Nat.le_refl _)
    refine ⟨fun same w mem => ?_,fun commute => Nat.le_antisymm ?_ ?_⟩
    · by_contra beyond
      have above : (area b).size < stop w := Nat.not_le.mp fun small => beyond (.inl small)
      have longer : ∀ v ∈ ys, stop v < stop w := fun v mem => Nat.not_le.mp fun small => beyond (.inr ⟨v,mem,small⟩)
      have file : w.isFile = true := by
        by_contra other
        rw [stopNone other] at above
        omega
      have reach := bound.2 w (List.mem_append_left _ (mem_filter.mpr ⟨mem,file⟩))
      have short := (sizeLe area last (area b).size (stop w - 1)).mpr
        ⟨by omega,fun v mem => by have := longer v mem; omega⟩
      omega
    · refine (sizeLe area files _ _).mpr ⟨upper.1,fun w mem => ?_⟩
      rcases List.mem_append.mp mem with mem | mem
      · rcases commute w (mem_filter.mp mem).1 with small | ⟨v,later,small⟩
        · exact Nat.le_trans small upper.1
        · exact Nat.le_trans small (upper.2 v later)
      · exact upper.2 w (mem_filter.mp mem).1
    · refine (sizeLe area last _ _).mpr ⟨bound.1,fun v mem => ?_⟩
      by_cases file : v.isFile = true
      · exact bound.2 v (List.mem_append_right _ (mem_filter.mpr ⟨mem,file⟩))
      · rw [stopNone file]
        exact Nat.zero_le _
  · refine ⟨fun same v mem => ?_,fun commute => Nat.le_antisymm upper.1 ?_⟩
    · rw [same]
      exact upper.2 v mem
    · exact (sizeLe area last _ _).mpr ⟨Nat.le_refl _,commute⟩

theorem sizesAgree {ops : List Op} (plain : ∀ op ∈ ops, Plain op) (n : Nat) :
    (coalesce ops).foldl (sizeStep area) n = ops.foldl (sizeStep area) n ↔ SizesCommute area ops := by
  refine ⟨fun same xs i b ys split last => ?_,fun commute => ?_⟩
  · subst split
    exact (splitSizes area last).mp same
  · by_cases some : ∃ o ∈ ops, o.isInode = true
    · obtain ⟨xs,o,ys,rfl,is,last⟩ := splitLast some
      cases o with
      | inode i b =>
        have last : ∀ o ∈ ys, o.isInode = false := fun o mem => by simpa using last o mem
        exact (splitSizes area last).mpr (commute xs i b ys rfl last)
      | file i o l b => simp [Op.isInode] at is
      | unlink i b => simp [Op.isInode] at is
    · rw [noSnap plain some]

end sizes

section bytes
variable {β : Type} {blank : β} {area : Nat → Dinode} {log : Nat → β} {itype : IType} {pos : Nat}

def LastCuts (area : Nat → Dinode) (ops : List Op) (l : Nat) : Prop :=
  ∀ i b, lastSnap ops = some (.inode i b) → Cut (area b).size l

/- Blocks mapped before the range are cut by the last snapshot too, and so are blocks written earlier in
the range, unless the coalesced snapshot is applied before the writes. -/
def CutsCommute (area : Nat → Dinode) (mapped : Nat → Prop) (ops : List Op) : Prop :=
  ∀ xs i b ys, ops = xs ++ .inode i b::ys → ∀ l, Cut (area b).size l →
    (mapped l → LastCuts area ops l) ∧ ∀ w ∈ xs, Touches l w → snapFirst ops = false ∧ LastCuts area ops l

variable {v : Option β} {ops : List Op}

theorem stepMiss {w : Op} (plain : Plain w) (write : w.isInode = false)
    (miss : ¬ Touches (pos / gBlockSizeBytes) w) : byteStep blank area log itype pos v w = v := by
  cases w with
  | inode i b => simp [Op.isInode] at write
  | file i o l b =>
    have outside : ¬ (o ≤ pos ∧ pos < o + l) := fun inside => miss (touchedInside plain inside.1 inside.2)
    simp only [byteStep,if_neg outside]
    exact if_neg miss
  | unlink i b => exact absurd plain id

theorem foldMiss {ws : List Op} (plain : ∀ w ∈ ws, Plain w) (write : ∀ w ∈ ws, w.isInode = false)
    (miss : ∀ w ∈ ws, ¬ Touches (pos / gBlockSizeBytes) w) : ws.foldl (byteStep blank area log itype pos) v = v := by
  induction ws with
  | nil => rfl
  | cons w ws ih =>
    have tail {x : Op} (mem : x ∈ ws) : x ∈ w::ws := .tail _ mem
    rw [foldl_cons,stepMiss (plain w (.head _)) (write w (.head _)) (miss w (.head _))]
    exact ih (fun x mem => plain x (tail mem)) (fun x mem => write x (tail mem)) fun x mem => miss x (tail mem)

theorem foldWrites (plain : ∀ w ∈ ops, Plain w)
    (keeps : ∀ i b, Op.inode i b ∈ ops → ¬ (itype = .file ∧ Cut (area b).size (pos / gBlockSizeBytes))) :
    ops.foldl (byteStep blank area log itype pos) v = (ops.filter Op.isFile).foldl (byteStep blank area log itype pos) v := by
  induction ops generalizing v with
  | nil => rfl
  | cons op ops ih =>
    have rest := fun v => ih (v := v) (fun x mem => plain x (.tail _ mem))
      fun i b mem => keeps i b (.tail _ mem)
    cases op with
    | inode i b =>
      have same : byteStep blank area log itype pos v (.inode i b) = v := if_neg (keeps i b (.head _))
      rw [foldl_cons,same,rest]
      rfl
    | file i o l b => exact rest _
    | unlink i b => exact absurd (plain _ (.head _)) id

theorem lastSnapMem {o : Op} (h : lastSnap ops = some o) : o ∈ ops ∧ o.isInode = true := by
  have mem := List.mem_of_getLast? h
  exact mem_filter.mp mem

theorem lastSnapSome (some : ∃ o ∈ ops, o.isInode = true) :
    ∃ i b, lastSnap ops = .some (.inode i b) := by
  obtain ⟨xs,o,ys,rfl,is,last⟩ := splitLast some
  cases o with
  | inode i b => exact ⟨i,b,lastSnapSplit fun o mem => by simpa using last o mem⟩
  | file i o l b => simp [Op.isInode] at is
  | unlink i b => simp [Op.isInode] at is

theorem lastSnapTail {xs ys : List Op} {op o : Op} (h : lastSnap ys = some o) : lastSnap (xs ++ op::ys) = some o := by
  have split : xs ++ op::ys = (xs ++ [op]) ++ ys := by simp
  rw [split]
  unfold lastSnap at h ⊢
  rw [filter_append,List.getLast?_append,h]
  rfl

theorem memCoalesce {o : Op} (mem : o ∈ coalesce ops) : o ∈ ops := by
  have parts : o ∈ ops.filter Op.isFile ∨ lastSnap ops = some o := by
    unfold coalesce at mem
    split at mem <;> simpa [or_comm] using mem
  rcases parts with file | last
  · exact (mem_filter.mp file).1
  · exact (lastSnapMem last).1

theorem filesCoalesce (ops : List Op) : (coalesce ops).filter Op.isFile = ops.filter Op.isFile := by
  have none : (lastSnap ops).toList.filter Op.isFile = [] := by
    refine List.filter_eq_nil_iff.mpr fun o mem => ?_
    have is := (lastSnapMem (Option.mem_toList.mp mem)).2
    intro file
    rw [fileNotInode file] at is
    cases is
  unfold coalesce
  split <;> simp [filter_append,List.filter_filter,none]

theorem writesPlain (plain : ∀ w ∈ ops, Plain w) :
    (∀ w ∈ ops.filter Op.isFile, Plain w) ∧ ∀ w ∈ ops.filter Op.isFile, w.isInode = false := by
  exact ⟨fun w mem => plain w (mem_filter.mp mem).1,fun w mem => fileNotInode (mem_filter.mp mem).2⟩

theorem bytesCut {xs ys : List Op} {i b : Nat} {mapped : Nat → Prop}
    (plain : ∀ w ∈ xs ++ Op.inode i b::ys, Plain w) (sizes : SizesCommute area (xs ++ .inode i b::ys))
    (cuts : CutsCommute area mapped (xs ++ .inode i b::ys)) (here : v ≠ none → mapped (pos / gBlockSizeBytes))
    (regular : itype = .file) (cut : Cut (area b).size (pos / gBlockSizeBytes))
    (keeps : ∀ j c, Op.inode j c ∈ ys → ¬ (itype = .file ∧ Cut (area c).size (pos / gBlockSizeBytes))) :
    (coalesce (xs ++ .inode i b::ys)).foldl (byteStep blank area log itype pos) v =
      (xs ++ Op.inode i b::ys).foldl (byteStep blank area log itype pos) v := by
  have plainXs : ∀ w ∈ xs, Plain w := fun w mem => plain w (List.mem_append_left _ mem)
  have plainYs : ∀ w ∈ ys, Plain w := fun w mem => plain w (List.mem_append_right _ (.tail _ mem))
  obtain ⟨held,wrote⟩ := cuts xs i b ys rfl _ cut
  have inOrder : (xs ++ Op.inode i b::ys).foldl (byteStep blank area log itype pos) v =
      (ys.filter Op.isFile).foldl (byteStep blank area log itype pos) none := by
    have gone (u : Option β) : byteStep blank area log itype pos u (.inode i b) = none := if_pos ⟨regular,cut⟩
    rw [foldl_append,foldl_cons,gone,foldWrites plainYs keeps]
  have files : (xs ++ Op.inode i b::ys).filter Op.isFile = xs.filter Op.isFile ++ ys.filter Op.isFile := by
    simp [filter_append,Op.isFile]
  have skips (miss : ∀ w ∈ xs, ¬ Touches (pos / gBlockSizeBytes) w) :
      (xs.filter Op.isFile ++ ys.filter Op.isFile).foldl (byteStep blank area log itype pos) none =
        (ys.filter Op.isFile).foldl (byteStep blank area log itype pos) none := by
    rw [foldl_append,foldMiss (writesPlain plainXs).1 (writesPlain plainXs).2 fun w mem => miss w (mem_filter.mp mem).1]
  have snap : ∃ o ∈ xs ++ Op.inode i b::ys, o.isInode = true := ⟨.inode i b,by simp,rfl⟩
  obtain ⟨j,c,last⟩ := lastSnapSome snap
  have gone (spares : ¬ Cut (area c).size (pos / gBlockSizeBytes)) : v = none := by
    by_contra some
    exact spares (held (here some) j c last)
  rw [inOrder,coalesce,last,files]
  cases first : snapFirst (xs ++ .inode i b::ys) with
  | true =>
    have miss : ∀ w ∈ xs, ¬ Touches (pos / gBlockSizeBytes) w := fun w mem touch => by
      simpa [first] using (wrote w mem touch).1
    have start : byteStep blank area log itype pos v (.inode j c) = none := by
      simp only [byteStep,regular,true_and]
      split
      · rfl
      · exact gone ‹_›
    rw [if_pos rfl,foldl_append]
    simp only [Option.toList_some,foldl_cons,List.foldl_nil,start]
    exact skips miss
  | false =>
    rw [if_neg (by simp),foldl_append]
    simp only [Option.toList_some,foldl_cons,List.foldl_nil]
    by_cases lastCut : Cut (area c).size (pos / gBlockSizeBytes)
    · -- The last snapshot is the one that cuts, and what is written after it stays below.
      have writes : ∀ o ∈ ys, o.isInode = false := by
        intro o mem
        by_contra is
        obtain ⟨k,d,found⟩ := lastSnapSome ⟨o,mem,by simpa using is⟩
        have same : lastSnap (xs ++ .inode i b::ys) = some (.inode k d) := lastSnapTail found
        cases last.symm.trans same
        exact keeps j c (lastSnapMem found).1 ⟨regular,lastCut⟩
      have below := sizes xs i b ys rfl writes
      rw [first,if_neg (by simp)] at below
      have miss : ∀ w ∈ ys.filter Op.isFile, ¬ Touches (pos / gBlockSizeBytes) w := by
        intro w mem touch
        have fits := below w (mem_filter.mp mem).1
        have shaped := plainYs w (mem_filter.mp mem).1
        cases w with
        | inode k d => exact touch
        | file k o l d => exact absurd ((touchedSpan shaped).mp touch).2 (Nat.not_lt.mpr (Nat.le_trans fits cut))
        | unlink k d => exact touch
      rw [foldMiss (writesPlain plainYs).1 (writesPlain plainYs).2 miss]
      exact if_pos ⟨regular,lastCut⟩
    · have spared (u : Option β) : byteStep blank area log itype pos u (.inode j c) = u :=
        if_neg fun both => lastCut both.2
      have miss : ∀ w ∈ xs, ¬ Touches (pos / gBlockSizeBytes) w := fun w mem touch =>
        lastCut ((wrote w mem touch).2 j c last)
      rw [spared,gone lastCut]
      exact skips miss

theorem bytesAgree {mapped : Nat → Prop} (plain : ∀ w ∈ ops, Plain w)
    (sizes : SizesCommute area ops) (cuts : itype = .file → CutsCommute area mapped ops)
    (here : v ≠ none → mapped (pos / gBlockSizeBytes)) :
    (coalesce ops).foldl (byteStep blank area log itype pos) v = ops.foldl (byteStep blank area log itype pos) v := by
  by_cases cutting : ∃ o ∈ ops, ∃ i b, o = .inode i b ∧ itype = .file ∧ Cut (area b).size (pos / gBlockSizeBytes)
  · obtain ⟨xs,_,ys,rfl,⟨i,b,rfl,regular,cut⟩,after⟩ := splitLast cutting
    exact bytesCut plain sizes (cuts regular) here regular cut fun j c mem both => after _ mem ⟨j,c,rfl,both⟩
  · -- No snapshot cuts here: both folds are those of the writes.
    have keeps (i b : Nat) (mem : Op.inode i b ∈ ops) : ¬ (itype = .file ∧ Cut (area b).size (pos / gBlockSizeBytes)) :=
      fun cut => cutting ⟨_,mem,i,b,rfl,cut⟩
    rw [foldWrites plain keeps,foldWrites (fun w mem => plain w (memCoalesce mem)) fun i b mem => keeps i b (memCoalesce mem),
      filesCoalesce]

end bytes

section inode
variable {β : Type} {blank : β} {area : Nat → Dinode} {log : Nat → β}

def metaOf (f : Option (File β)) : Option (IType × Nat) := f.map fun f => (f.itype,f.size)

variable {ops : List Op}

theorem afterSizes (g : File β) (plain : ∀ w ∈ ops, Plain w) :
    metaOf (some (after blank area log g (coalesce ops))) = metaOf (some (after blank area log g ops)) ↔
      SizesCommute area ops := by
  rw [← sizesAgree area plain g.size]
  simp [metaOf,after]

theorem afterAgree {g : File β} {mapped : Nat → Prop} (plain : ∀ w ∈ ops, Plain w)
    (sizes : SizesCommute area ops) (cuts : g.itype = .file → CutsCommute area mapped ops)
    (here : ∀ pos, g.byte pos ≠ none → mapped (pos / gBlockSizeBytes)) :
    after blank area log g (coalesce ops) = after blank area log g ops := by
  simp only [after,File.mk.injEq,true_and]
  exact ⟨(sizesAgree area plain g.size).mpr sizes,funext fun pos => bytesAgree plain sizes cuts (here pos)⟩

def kindOf (area : Nat → Dinode) (ino : Option Inode) (ops : List Op) : IType :=
  let made := match ops.head? with
    | some (.inode _ b) => (area b).itype
    | _ => .free
  match ino with
  | none => made
  | some x => if x.deleting then made else x.itype

structure SizeCommutes (area : Nat → Dinode) (ino : Option Inode) (ops : List Op) : Prop where
  types : (∀ x, ino = some x → x.deleting = true) → ∀ i b j c, ops.head? = some (.inode i b) →
    lastSnap ops = some (.inode j c) → (area b).itype = (area c).itype
  sizes : SizesCommute area ops

def BlocksCommute (area : Nat → Dinode) (ino : Option Inode) (ops : List Op) : Prop :=
  kindOf area ino ops = .file → CutsCommute area (fun l => ∃ x b, ino = some x ∧ x.ext l = some b) ops

theorem runFresh {f : Option (File β)} {i b : Nat} (plain : ∀ w ∈ Op.inode i b::ops, Plain w) :
    run (fileStep blank area log) f (.inode i b::ops) =
      some (some (after blank area log (File.target f (area b)) (.inode i b::ops))) := by
  have live : (File.target f (area b)).deleting = false := by
    rcases f with _ | f
    · rfl
    · simp only [File.target]
      split
      · rfl
      · simpa using ‹¬ f.deleting = true›
  rw [← runLive blank area log live plain]
  simp only [run,fileStep]
  rcases f with _ | f
  · rfl
  · cases gone : f.deleting <;> simp [File.target,gone]

theorem targetType (f : Option (File β)) {s t : Dinode} (same : s.itype = t.itype) : File.target f s = File.target f t := by
  rcases f with _ | f
  · simp [File.target,same]
  · simp [File.target,same]

theorem liveAgrees {disk : Nat → β} {x : Inode} (plain : ∀ w ∈ ops, Plain w) (live : x.deleting = false) :
    ∃ fc fo, run (fileStep blank area log) (some (Inode.file disk x)) (coalesce ops) = some fc ∧
      run (fileStep blank area log) (some (Inode.file disk x)) ops = some fo ∧
      (metaOf fc = metaOf fo ↔ SizeCommutes area (some x) ops) ∧
      (SizeCommutes area (some x) ops → BlocksCommute area (some x) ops → fc = fo) := by
  have kind : kindOf area (some x) ops = x.itype := by simp [kindOf,live]
  refine ⟨_,_,runLive blank area log live fun w mem => plain w (memCoalesce mem),runLive blank area log live plain,
    (afterSizes (Inode.file disk x) plain).trans ⟨fun sizes => ⟨fun gone => ?_,sizes⟩,fun commutes => commutes.sizes⟩,
    fun sizes blocks => congrArg some ?_⟩
  · exact absurd ((gone x rfl).symm.trans live) (by simp)
  · refine afterAgree plain sizes.sizes (fun regular => blocks (kind.trans regular)) fun pos here => ?_
    obtain ⟨b,mapped⟩ : ∃ b, x.ext (pos / gBlockSizeBytes) = some b := by
      simpa [Inode.file,Option.ne_none_iff_exists'] using here
    exact ⟨x,b,rfl,mapped⟩

theorem freshAgrees {disk : Nat → β} {ino : Option Inode} {i b : Nat}
    (plain : ∀ w ∈ Op.inode i b::ops, Plain w) (gone : ∀ x, ino = some x → x.deleting = true) :
    ∃ fc fo, run (fileStep blank area log) (ino.map (Inode.file disk)) (coalesce (.inode i b::ops)) = some fc ∧
      run (fileStep blank area log) (ino.map (Inode.file disk)) (.inode i b::ops) = some fo ∧
      (metaOf fc = metaOf fo ↔ SizeCommutes area ino (.inode i b::ops)) ∧
      (SizeCommutes area ino (.inode i b::ops) → BlocksCommute area ino (.inode i b::ops) → fc = fo) := by
  have snap : ∃ o ∈ Op.inode i b::ops, o.isInode = true := ⟨.inode i b,.head _,rfl⟩
  obtain ⟨j,c,last⟩ := lastSnapSome snap
  have shape : coalesce (.inode i b::ops) = .inode j c::(Op.inode i b::ops).filter Op.isFile := by
    rw [coalesce,last]
    rfl
  have plain' : ∀ w ∈ Op.inode j c::(Op.inode i b::ops).filter Op.isFile, Plain w := fun w mem =>
    plain w (memCoalesce (shape ▸ mem))
  have made (s : Dinode) : (File.target (ino.map (Inode.file disk)) s).itype = s.itype := by
    rcases ino with _ | x
    · rfl
    · have deleting : (Inode.file disk x).deleting = true := gone x rfl
      simp [File.target,deleting]
  have coalesced : run (fileStep blank area log) (ino.map (Inode.file disk)) (coalesce (.inode i b::ops)) =
      some (some (after blank area log (File.target (ino.map (Inode.file disk)) (area c)) (coalesce (.inode i b::ops)))) := by
    rw [shape]
    exact runFresh plain'
  have headTypes : (∀ i' b' j' c', (Op.inode i b::ops).head? = some (.inode i' b') →
      lastSnap (.inode i b::ops) = some (.inode j' c') → (area b').itype = (area c').itype) ↔
      (area b).itype = (area c).itype := by
    refine ⟨fun all => all i b j c rfl last,fun same i' b' j' c' head tail => ?_⟩
    cases head
    cases last.symm.trans tail
    exact same
  refine ⟨_,_,coalesced,runFresh plain,⟨fun same => ?_,fun commutes => ?_⟩,fun sizes blocks => ?_⟩
  · have types : (area b).itype = (area c).itype := by
      have both := congrArg Prod.fst (Option.some.inj same)
      exact ((made _).symm.trans both.symm).trans (made _)
    rw [targetType _ types.symm] at same
    exact ⟨fun _ => headTypes.mpr types,(afterSizes _ plain).mp same⟩
  · rw [targetType _ (headTypes.mp (commutes.types gone)).symm]
    exact (afterSizes _ plain).mpr commutes.sizes
  · have types : (area b).itype = (area c).itype := headTypes.mp (sizes.types gone)
    rw [targetType _ types.symm]
    refine congrArg some (afterAgree plain sizes.sizes (fun regular => blocks ?_) fun pos here => ?_)
    · rw [made] at regular
      rcases ino with _ | x
      · exact regular
      · simpa [kindOf,gone x rfl] using regular
    · rcases ino with _ | x
      · exact absurd rfl here
      · have deleting := gone x rfl
        obtain ⟨p,mapped⟩ : ∃ p, x.ext (pos / gBlockSizeBytes) = some p := by
          simpa [File.target,deleting,Inode.file,Option.ne_none_iff_exists'] using here
        exact ⟨x,p,rfl,mapped⟩

end inode

section range
variable {σ β : Type} {A : Allocator σ} {used : σ → Nat → Prop} {blank : β} {log : Nat → β} {fs : Fs σ}
  {disk : Nat → β}

theorem lifeCreates {e : Entry} {mid : Bool} (first : lifeStep false e = some mid) : e.op = .inode e.inodeNo e.blocks := by
  unfold lifeStep at first
  unfold Entry.op
  cases type : e.type with
  | inodeCreate => rfl
  | inodeUpdate => rfl
  | dirAdd | dirRename | dirDel | file | unlink =>
    rw [type] at first
    cases first

theorem inodeAgrees {area : Nat → Dinode} {i : Nat} {es : List Entry} {alive : Bool} (typed : Typed fs)
    (plain : ∀ e ∈ es, Plain e.op) (lives : run lifeStep (fs.live i) es = some alive) :
    ∃ fc fo, run (fileStep blank area log) (view log disk ⟨fs,[]⟩ i) (coalesce (es.map Entry.op)) = some fc ∧
      run (fileStep blank area log) (view log disk ⟨fs,[]⟩ i) (es.map Entry.op) = some fo ∧
      (metaOf fc = metaOf fo ↔ SizeCommutes area (fs.inode i) (es.map Entry.op)) ∧
      (SizeCommutes area (fs.inode i) (es.map Entry.op) → BlocksCommute area (fs.inode i) (es.map Entry.op) → fc = fo) := by
  have plainOps : ∀ w ∈ es.map Entry.op, Plain w := fun w mem => by
    obtain ⟨e,known,rfl⟩ := List.mem_map.mp mem
    exact plain e known
  have start : view log disk ⟨fs,[]⟩ i = (fs.inode i).map (Inode.file disk) := rfl
  rw [start]
  cases live : fs.live i with
  | true =>
    obtain ⟨x,found,alive⟩ := aliveFound live
    rw [found]
    exact liveAgrees plainOps (by simpa [Inode.live] using alive : _ ∧ _).1
  | false =>
    rw [live] at lives
    have gone : ∀ x, fs.inode i = some x → x.deleting = true := by
      intro x found
      by_contra stays
      have kept := typed i x found (by simpa using stays)
      simp [Fs.live,found,Inode.live,kept,stays] at live
    cases es with
    | nil =>
      exact ⟨_,_,rfl,rfl,⟨fun _ => ⟨by simp,fun xs i b ys split => by simp at split⟩,fun _ => rfl⟩,fun _ _ => rfl⟩
    | cons e es =>
      obtain ⟨mid,first,_⟩ := Option.bind_eq_some_iff.mp lives
      rw [List.map_cons,lifeCreates first] at plainOps ⊢
      exact freshAgrees plainOps gone

theorem rangeAgrees {r : Range} {i : Nat} {alive : Bool} (typed : Typed fs) (table : VersionTable) (shape : LogShape r)
    (plain : ∀ e ∈ r.entries, Plain e.op)
    (lives : run lifeStep (fs.live i) (ofKey Entry.inodeNo i r.entries) = some alive) :
    ∃ fc fo, run (fileStep blank r.area log) (view log disk ⟨fs,[]⟩ i) (ofKey Op.inum i (r.coalesced table)) = some fc ∧
      run (fileStep blank r.area log) (view log disk ⟨fs,[]⟩ i) (ofKey Op.inum i r.inOrder) = some fo ∧
      (metaOf fc = metaOf fo ↔ SizeCommutes r.area (fs.inode i) (ofKey Op.inum i r.inOrder)) ∧
      (SizeCommutes r.area (fs.inode i) (ofKey Op.inum i r.inOrder) →
        BlocksCommute r.area (fs.inode i) (ofKey Op.inum i r.inOrder) → fc = fo) := by
  have calls : ofKey Op.inum i r.inOrder = (ofKey Entry.inodeNo i r.entries).map Entry.op := by
    rw [inOrderEntries,mapOfKey]
  have gathered : ofKey Op.inum i (r.coalesced table) = coalesce ((ofKey Entry.inodeNo i r.entries).map Entry.op) := by
    obtain ⟨p,taken,_,ops,_⟩ := rangeFollows shape table lives
    rw [ops,gathersOps (phaseGathers (fun e mem type => ?_) (fun e mem => ?_) taken)]
    · have mine := plain e (mem_filter.mp mem).1
      simp [Entry.op,type,Plain] at mine
    · simpa using (mem_filter.mp mem).2
  rw [gathered,calls]
  exact inodeAgrees typed (fun e mem => plain e (mem_filter.mp mem).1) lives

-- What either digest of the range asks of the extent trees.
def requests (A : Allocator σ) (fs : Fs σ) (table : VersionTable) (r : Range) : List (TreeRequests.Request σ) :=
  TreeRequests.ofOps A r.area ⟨fs,[]⟩ (r.coalesced table) ++ TreeRequests.ofOps A r.area ⟨fs,[]⟩ r.inOrder

end range

def onlyFile : Fs Nat := ⟨fun i => if i = 5 then some ⟨.file,0,false,emptyExt⟩ else none,1⟩

theorem onlyFound {i : Nat} {x : Inode} (found : onlyFile.inode i = some x) : i = 5 ∧ x = ⟨.file,0,false,emptyExt⟩ := by
  exact ifTaken found

theorem onlyFormed : WellFormed (0 : UInt8) (fun next b => b < next) onlyFile fun _ => 0 := by
  refine ⟨⟨fun i j x y l k b fx _ mapped => ?_,fun i x l b fx mapped => ?_⟩,fun _ _ _ _ => rfl,fun i x fx => ?_⟩
  · rw [(onlyFound fx).2] at mapped
    simp [emptyExt] at mapped
  · rw [(onlyFound fx).2] at mapped
    simp [emptyExt] at mapped
  · rw [(onlyFound fx).2]
    exact tightExt.mpr fun _ l b mapped => by simp [emptyExt] at mapped

theorem onlyTyped : Typed onlyFile := fun i x found _ => by simp [(onlyFound found).2]

def shortened : Range := ⟨[⟨10,[⟨.file,5,0,8192,1⟩]⟩,⟨13,[⟨.inodeUpdate,5,0,1,1⟩]⟩],fun _ => ⟨.file,5000⟩⟩

theorem onlyLives {r : Range} (mine : ∀ e ∈ r.entries, e.inodeNo = 5)
    (alive : run lifeStep true r.entries = some true) (i : Nat) :
    ∃ alive, run lifeStep (onlyFile.live i) (ofKey Entry.inodeNo i r.entries) = some alive := by
  by_cases five : i = 5
  · subst five
    have all : ofKey Entry.inodeNo 5 r.entries = r.entries :=
      List.filter_eq_self.mpr fun e mem => by simp [mine e mem]
    exact ⟨true,by rw [all]; exact alive⟩
  · have none : ofKey Entry.inodeNo i r.entries = [] :=
      List.filter_eq_nil_iff.mpr fun e mem => by simp [mine e mem,Ne.symm five]
    exact ⟨_,by rw [none]; rfl⟩

def rewritten : Range :=
  ⟨[⟨10,[⟨.file,5,0,4096,1⟩]⟩,⟨12,[⟨.inodeUpdate,5,0,1,1⟩]⟩,⟨14,[⟨.file,5,0,100,1⟩]⟩],fun _ => ⟨.file,0⟩⟩

def outcome (i : Nat) (d : Digest Nat) : Option (IType × Nat × Bool) :=
  (d.fs.inode i).map fun ino => (ino.itype,ino.size,(ino.ext 0).isSome)

end LineFS.Coalesce
