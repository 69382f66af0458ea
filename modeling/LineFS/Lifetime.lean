import Mathlib.Data.List.Induction
import Mathlib.Data.List.Perm.Subperm
import LineFS.Replay

/-! Lifetimes of inode numbers under coalescing. Within a digest range the items of one inode number are
those of at most two lifetimes: the one that began before the range, if it ended in it, and the one alive at
its end. -/
namespace LineFS.Lifetime
open Option (bind_eq_some_iff bind_some map_eq_some_iff)
open List (append_nil filter_append mem_append mem_append_left mem_append_right mem_filter mem_singleton)
open Base Kernfs Replay

structure Life where
  snap : Option (Bool × Nat)
  writes : List Iovec
  snapFirst : Bool

namespace Life

def empty : Life := ⟨none,[],false⟩

def snapItems (key : Key) (l : Life) : List Item := (l.snap.map fun s => Item.inode key s.1 s.2).toList
def fileItems (key : Key) (l : Life) : List Item := if l.writes = [] then [] else [.file key l.writes]

def items (key : Key) (l : Life) : List Item :=
  if l.snapFirst then l.snapItems key ++ l.fileItems key else l.fileItems key ++ l.snapItems key

def snapshot (create : Bool) (blknr : Nat) (l : Life) : Life :=
  match l.snap with
  | none => { l with snap := some (create,blknr), snapFirst := l.writes.isEmpty }
  | some s => { l with snap := some (s.1,blknr) }

def write (v : Iovec) (l : Life) : Life :=
  { l with writes := l.writes ++ [v], snapFirst := if l.writes = [] then l.snap.isSome else l.snapFirst }

def tagged (l : Life) : Bool := (l.snap.map Prod.fst).getD false

end Life

section life
variable {key : Key} {past : List Item} (apart : ∀ it ∈ past, it.key ≠ key) (l : Life)
include apart

variable {test : Item → Bool}

theorem pastNot (h : Concerns key test) : ∀ it ∈ past, test it = false := by
  intro it mem
  by_contra yes
  exact apart it mem (h it (by simpa using yes))

theorem pastAny (h : Concerns key test) : past.any test = false := by
  rw [List.any_eq_false]
  exact fun it mem => by simp [pastNot apart h it mem]

theorem pastMap {f : Item → Item} (h : Changes key f) : past.map f = past := by
  refine (List.map_congr_left fun it mem => (h it).2 (apart it mem)).trans (List.map_id _)

theorem lifeSnapshot (create : Bool) (blknr : Nat) :
    replayInode key create blknr (past ++ l.items key) = past ++ (l.snapshot create blknr).items key := by
  obtain ⟨snap,writes,first⟩ := l
  rw [replayInode,List.any_append,pastAny apart concernsInode,List.map_append,pastMap apart (changesBlknr blknr)]
  cases snap <;> cases writes <;> cases first <;>
    simp [Life.items,Life.snapshot,Life.snapItems,Life.fileItems,Item.isInode,Item.setBlknr]

theorem lifeWrite (v : Iovec) : replayFile key v (past ++ l.items key) = past ++ (l.write v).items key := by
  obtain ⟨snap,writes,first⟩ := l
  rw [replayFile,List.any_append,pastAny apart concernsFile,List.map_append,pastMap apart (changesIovec v)]
  cases snap <;> cases writes <;> cases first <;>
    simp [Life.items,Life.write,Life.snapItems,Life.fileItems,Item.isFile,Item.addIovec]

theorem pastKept (h : Concerns key test) : past.filter (fun it => !test it) = past :=
  List.filter_eq_self.mpr fun it mem => by rw [pastNot apart h it mem]; rfl

omit apart in
theorem itemsCreated : (l.items key).any (Item.created key) = l.tagged := by
  have files : (l.fileItems key).any (Item.created key) = false := by
    unfold Life.fileItems
    split <;> simp [Item.created]
  have snaps : (l.snapItems key).any (Item.created key) = l.tagged := by
    unfold Life.snapItems Life.tagged
    cases l.snap <;> simp [Item.created]
  unfold Life.items
  split <;> simp [files,snaps]

omit apart in
theorem itemsUnlinked : (l.items key).filter (fun it => !Item.isFile key it) = l.snapItems key ∧
    ((l.items key).filter fun it => !Item.isInode key it).filter (fun it => !Item.isFile key it) = [] := by
  have files : (l.fileItems key).filter (fun it => !Item.isFile key it) = [] := by
    unfold Life.fileItems
    split <;> simp [Item.isFile]
  have snaps : (l.snapItems key).filter (fun it => !Item.isFile key it) = l.snapItems key ∧
      (l.snapItems key).filter (fun it => !Item.isInode key it) = [] := by
    unfold Life.snapItems
    cases l.snap <;> simp [Item.isFile,Item.isInode]
  rw [List.filter_comm]
  unfold Life.items
  split <;> simp [filter_append,files,snaps]

theorem lifeUnlink (blknr : Nat) : replayUnlink key blknr (past ++ l.items key) =
    if l.tagged then past else past ++ l.snapItems key ++ [.unlink key blknr] := by
  obtain ⟨left,gone⟩ := itemsUnlinked l
  have files := pastKept apart concernsFile
  simp only [replayUnlink,List.any_append,pastAny apart concernsCreated,Bool.false_or,itemsCreated]
  split
  · rw [filter_append,filter_append,pastKept apart concernsInode,files,gone,append_nil]
  · rw [filter_append,filter_append,files,left]
    rfl

end life

def lifeStep (alive : Bool) (e : Entry) : Option Bool :=
  match e.type with
  | .inodeCreate => if alive then none else some true
  | .unlink => if alive then some false else none
  | _ => if alive then some true else none

structure Phase where
  alive : Bool
  creates : Nat
  past : Option (Option Nat × Nat)
  life : Life

namespace Phase

def start (alive : Bool) : Phase := ⟨alive,0,none,.empty⟩

def close (blknr : Nat) (p : Phase) : Phase :=
  ⟨false,p.creates,if p.life.tagged then p.past else some (p.life.snap.map Prod.snd,blknr),.empty⟩

def step (p : Phase) (e : Entry) : Option Phase :=
  match e.type with
  | .inodeCreate => if p.alive then none else some ⟨true,p.creates + 1,p.past,p.life.snapshot true e.blocks⟩
  | .inodeUpdate => if p.alive then some { p with life := p.life.snapshot false e.blocks } else none
  | .unlink => if p.alive then some (p.close e.blocks) else none
  | _ => if p.alive then some { p with life := p.life.write ⟨e.data,e.length,e.blocks⟩ } else none

end Phase

inductive Moves (p : Phase) (e : Entry) : Phase → Prop where
  | create (type : e.type = .inodeCreate) (dead : p.alive = false) :
      Moves p e ⟨true,p.creates + 1,p.past,p.life.snapshot true e.blocks⟩
  | update (type : e.type = .inodeUpdate) (alive : p.alive = true) :
      Moves p e { p with life := p.life.snapshot false e.blocks }
  | write (type : e.op = .file e.inodeNo e.data e.length e.blocks) (alive : p.alive = true) :
      Moves p e { p with life := p.life.write ⟨e.data,e.length,e.blocks⟩ }
  | unlink (type : e.type = .unlink) (alive : p.alive = true) : Moves p e (p.close e.blocks)

variable {p p' : Phase} {e : Entry} {before : Bool} {inum : Nat} {op : Op} {es : List Entry}

theorem stepMoves (h : p.step e = some p') : Moves p e p' := by
  unfold Phase.step at h
  split at h <;> rename_i type <;> (try split at h) <;> try contradiction
  all_goals cases h
  · exact .create type (by simpa using ‹¬ p.alive = true›)
  · exact .update type ‹_›
  · exact .unlink type ‹_›
  · refine .write ?_ ‹_›
    unfold Entry.op
    split <;> simp_all

theorem stepAlive (p : Phase) (e : Entry) : (p.step e).map Phase.alive = lifeStep p.alive e := by
  unfold Phase.step lifeStep
  cases alive : p.alive <;> split <;> simp_all [Phase.close]

theorem runAlive (p : Phase) (es : List Entry) :
    (run Phase.step p es).map Phase.alive = run lifeStep p.alive es := by
  induction es generalizing p with
  | nil => rfl
  | cons e es ih =>
    rw [run,run,← stepAlive]
    cases p.step e with
    | none => rfl
    | some p' => exact ih p'

structure Sound (before : Bool) (n : Nat) (p : Phase) : Prop where
  dead : p.alive = false → p.life = Life.empty
  created : p.alive = true → 0 < p.creates → p.life.tagged = true ∧ p.life.snapFirst = true
  carried : p.alive = true → p.creates = 0 → p.past = none ∧ before = true ∧ p.life.tagged = false
  gone : p.alive = false ∨ 0 < p.creates → p.past = none → before = false
  counted : p.past.isSome = true → 2 * p.creates + (if p.alive then 0 else 1) ≤ n

theorem soundStart (before : Bool) : Sound before 0 (.start before) :=
  ⟨fun _ => rfl,fun _ pos => absurd pos (Nat.lt_irrefl 0),fun alive _ => ⟨rfl,alive,rfl⟩,
    fun gone _ => gone.elim id fun pos => absurd pos (Nat.lt_irrefl 0),fun some => absurd some (by simp [Phase.start])⟩

theorem snapshotTagged (l : Life) (blknr : Nat) : (l.snapshot false blknr).tagged = l.tagged := by
  obtain ⟨_ | ⟨_,_⟩,_,_⟩ := l <;> rfl

theorem snapshotFirst (l : Life) (create : Bool) (blknr : Nat) (tagged : l.tagged = true) :
    (l.snapshot create blknr).snapFirst = l.snapFirst := by
  obtain ⟨_ | ⟨_,_⟩,_,_⟩ := l
  · simp [Life.tagged] at tagged
  · rfl

theorem writeFirst (l : Life) (v : Iovec) (tagged : l.tagged = true) (first : l.snapFirst = true) :
    (l.write v).snapFirst = true := by
  obtain ⟨_ | ⟨_,_⟩,_,_⟩ := l
  · simp [Life.tagged] at tagged
  · simp_all [Life.write]

theorem stepSound {n : Nat} (h : Sound before n p)
    (taken : p.step e = some p') : Sound before (n + 1) p' := by
  cases stepMoves taken with
  | create type dead =>
    have empty := h.dead dead
    refine ⟨nofun,fun _ _ => ?_,fun _ zero => absurd zero (Nat.succ_ne_zero _),fun _ => h.gone (.inl dead),fun some => ?_⟩
    · rw [empty]
      exact ⟨rfl,rfl⟩
    · have room := h.counted some
      simp only [dead,Bool.false_eq_true,if_false] at room
      simp only [if_true]
      omega
  | update type alive =>
    refine ⟨fun dead => absurd (alive.symm.trans dead) nofun,fun _ pos => ?_,fun _ zero => ?_,h.gone,fun some => ?_⟩
    · obtain ⟨tagged,first⟩ := h.created alive pos
      exact ⟨(snapshotTagged _ _).trans tagged,(snapshotFirst _ _ _ tagged).trans first⟩
    · obtain ⟨none,was,tagged⟩ := h.carried alive zero
      exact ⟨none,was,(snapshotTagged _ _).trans tagged⟩
    · exact Nat.le_succ_of_le (h.counted some)
  | write type alive =>
    refine ⟨fun dead => absurd (alive.symm.trans dead) nofun,fun _ pos => ?_,h.carried,h.gone,fun some => ?_⟩
    · obtain ⟨tagged,first⟩ := h.created alive pos
      exact ⟨tagged,writeFirst _ _ tagged first⟩
    · exact Nat.le_succ_of_le (h.counted some)
  | unlink type alive =>
    refine ⟨fun _ => rfl,nofun,nofun,fun _ none => ?_,fun some => ?_⟩
    · -- An unlink that leaves no trace ends a lifetime created in the range.
      simp only [Phase.close] at none
      split at none <;> try contradiction
      rename_i tagged
      rcases Nat.eq_zero_or_pos p.creates with zero | pos
      · exact absurd tagged (by simp [(h.carried alive zero).2.2])
      · exact h.gone (.inr pos) none
    · simp only [Phase.close,Bool.false_eq_true,if_false] at some ⊢
      rcases Nat.eq_zero_or_pos p.creates with zero | pos
      · omega
      · rw [if_pos (h.created alive pos).1] at some
        have room := h.counted some
        simp only [alive,if_true] at room
        omega

def pastItems (key : Key) (past : Option (Option Nat × Nat)) : List Item :=
  match past with
  | none => []
  | some (snap,blknr) => (snap.map (Item.inode key false)).toList ++ [.unlink key blknr]

def Phase.items (key : Key) (ver : UInt16) (p : Phase) : List Item :=
  pastItems key p.past ++ p.life.items ⟨key.inum,ver⟩

def Phase.ver (start : UInt16) (p : Phase) : UInt16 := start + UInt16.ofNat p.creates

theorem pastKey {key : Key} {past : Option (Option Nat × Nat)} : ∀ it ∈ pastItems key past, it.key = key := by
  rcases past with _ | ⟨_ | _,_⟩ <;> simp [pastItems,Item.key]

theorem verFresh (start : UInt16) (n : Nat) (pos : 0 < n) (few : n < 65536) : start + UInt16.ofNat n ≠ start := by
  intro same
  have zero : UInt16.ofNat n = 0 := by simpa using same
  have value := congrArg UInt16.toNat zero
  simp only [UInt16.toNat_ofNat',UInt16.toNat_zero] at value
  omega

theorem bumpVer (start : UInt16) (n : Nat) : start + UInt16.ofNat n + 1 = start + UInt16.ofNat (n + 1) := by
  rw [UInt16.ofNat_add,← UInt16.add_assoc]
  rfl

structure Tracks (key : Key) (t : Track) (p : Phase) : Prop where
  ver : t.ver = p.ver key.ver
  items : t.items = p.items key t.ver

theorem pastApart {n : Nat} {key : Key} (h : Sound before n p) (few : n < gLogSize)
    (alive : p.alive = true) : ∀ it ∈ pastItems key p.past, it.key ≠ ⟨key.inum,p.ver key.ver⟩ := by
  intro it mem same
  rw [pastKey it mem] at same
  cases past : p.past with
  | none => simp [past,pastItems] at mem
  | some ended =>
    have room := h.counted (by simp [past])
    have pos : 0 < p.creates := by
      by_contra none
      simpa [past] using (h.carried alive (by omega)).1
    simp only [gLogSize] at few
    exact verFresh key.ver p.creates pos (by omega) (congrArg Key.ver same).symm

theorem stepTracks {n : Nat} {key : Key} {t : Track}
    (h : Sound before n p) (few : n + 1 < gLogSize) (tracks : Tracks key t p) (named : e.inodeNo = key.inum)
    (taken : p.step e = some p') : Tracks key (trackEntry t e) p' := by
  have after := stepSound h taken
  obtain ⟨ver,items⟩ := tracks
  have apart (alive : p.alive = true) : ∀ it ∈ pastItems key p.past, it.key ≠ ⟨key.inum,p.ver key.ver⟩ :=
    pastApart h (Nat.lt_of_succ_lt few) alive
  rw [Phase.items,ver] at items
  cases stepMoves taken with
  | create type dead =>
    have bumped : bump e t.ver = key.ver + UInt16.ofNat (p.creates + 1) := by
      rw [bump,if_pos type,ver,Phase.ver,bumpVer]
    refine ⟨bumped,?_⟩
    simp only [trackEntry,replayItems,type,bumped,named,items,Phase.items]
    rw [h.dead dead]
    exact lifeSnapshot (pastApart after few rfl) Life.empty true e.blocks
  | update type alive =>
    have same : bump e t.ver = p.ver key.ver := by
      rw [bump,if_neg (by simp [type]),ver]
    refine ⟨same,?_⟩
    simp only [trackEntry,replayItems,type,same,named,items,Phase.items]
    exact lifeSnapshot (apart alive) p.life false e.blocks
  | write type alive =>
    have plain : e.type ≠ .inodeCreate := fun is => by simp [Entry.op,is] at type
    have same : bump e t.ver = p.ver key.ver := by rw [bump,if_neg plain,ver]
    have replayed (k : Key) (its : List Item) :
        replayItems e k its = replayFile k ⟨e.data,e.length,e.blocks⟩ its := by
      unfold replayItems
      split <;> simp_all [Entry.op]
    refine ⟨same,?_⟩
    simp only [trackEntry,replayed,same,named,items,Phase.items]
    exact lifeWrite (apart alive) p.life _
  | unlink type alive =>
    have same : bump e t.ver = p.ver key.ver := by
      rw [bump,if_neg (by simp [type]),ver]
    refine ⟨same,?_⟩
    simp only [trackEntry,replayItems,type,same,named,items,Phase.items]
    rw [lifeUnlink (apart alive)]
    simp only [Phase.close]
    split
    · exact (append_nil _).symm
    · rename_i plain
      rcases Nat.eq_zero_or_pos p.creates with zero | pos
      · -- The lifetime from before the range ends here, under its own version.
        have own : p.ver key.ver = key.ver := by simp [Phase.ver,zero]
        rw [(h.carried alive zero).1,own]
        rcases snap : p.life.snap with _ | ⟨tag,blknr⟩
        · simp [pastItems,Life.snapItems,snap,Life.items,Life.empty,Life.fileItems]
        · simp only [Life.tagged,snap,Option.map_some,Option.getD_some,Bool.not_eq_true] at plain
          subst plain
          simp [pastItems,Life.snapItems,snap,Life.items,Life.empty,Life.fileItems]
      · exact absurd (h.created alive pos).1 plain

def pastOps (inum : Nat) (past : Option (Option Nat × Nat)) : List Op :=
  match past with
  | none => []
  | some (snap,blknr) => (snap.map (Op.inode inum)).toList ++ [.unlink inum blknr]

def Life.ops (inum : Nat) (l : Life) : List Op :=
  let snap := (l.snap.map fun s => Op.inode inum s.2).toList
  let files := l.writes.map fun v => Op.file inum v.offset v.length v.blknr
  if l.snapFirst then snap ++ files else files ++ snap

def Phase.ops (inum : Nat) (p : Phase) : List Op := pastOps inum p.past ++ p.life.ops inum

theorem opsOfItems (key : Key) (ver : UInt16) (p : Phase) :
    digestLogFromReplayList (p.items key ver) = p.ops key.inum := by
  have past : (pastItems key p.past).flatMap Item.ops = pastOps key.inum p.past := by
    rcases p.past with _ | ⟨_ | _,_⟩ <;> simp [pastItems,pastOps,Item.ops]
  have life : (p.life.items ⟨key.inum,ver⟩).flatMap Item.ops = p.life.ops key.inum := by
    obtain ⟨snap,writes,first⟩ := p.life
    cases snap <;> cases writes <;> cases first <;>
      simp [Life.items,Life.ops,Life.snapItems,Life.fileItems,Item.ops]
  rw [digestLogFromReplayList,Phase.items,List.flatMap_append,past,life,Phase.ops]

theorem memLife {l : Life} : op ∈ l.ops inum ↔
    (∃ s, l.snap = some s ∧ op = .inode inum s.2) ∨ ∃ v ∈ l.writes, op = .file inum v.offset v.length v.blknr := by
  unfold Life.ops
  dsimp only
  split <;> simp [eq_comm,or_comm]

theorem memSnapshot {l : Life} {create : Bool} {blknr : Nat}
    (mem : op ∈ (l.snapshot create blknr).ops inum) : op ∈ l.ops inum ∨ op = .inode inum blknr := by
  rw [memLife] at mem ⊢
  obtain ⟨_ | s,writes,first⟩ := l <;> simp only [Life.snapshot] at mem <;>
    rcases mem with ⟨_,⟨⟩,rfl⟩ | wrote
  all_goals first
    | exact .inr rfl
    | exact .inl (.inr wrote)

theorem memWrite {l : Life} {v : Iovec} (mem : op ∈ (l.write v).ops inum) :
    op ∈ l.ops inum ∨ op = .file inum v.offset v.length v.blknr := by
  rw [memLife] at mem ⊢
  simp only [Life.write,mem_append,mem_singleton] at mem
  rcases mem with snap | ⟨w,wrote | rfl,rfl⟩
  · exact .inl (.inl snap)
  · exact .inl (.inr ⟨w,wrote,rfl⟩)
  · exact .inr rfl

/- Entries are told apart by the block of their data; `place` is their order. -/
structure Located (place : Nat → Nat) (inum : Nat) (es : List Entry) (p : Phase) : Prop where
  logged : ∀ op ∈ p.ops inum, ∃ e ∈ es, e.op = op
  current : ∀ op ∈ p.life.ops inum, ∀ e ∈ es, e.type = .unlink → place e.blocks < place op.blknr
  ended : ∀ snap blknr, p.past = some (snap,blknr) →
    (∀ b, snap = some b → place b < place blknr) ∧ ∀ e ∈ es, e.type = .unlink → place blknr ≤ place e.blocks
  carried : p.alive = true → p.creates = 0 → ∀ e ∈ es, e.type ≠ .unlink

section located
variable {place : Nat → Nat}

theorem locatedStart (inum : Nat) (before : Bool) : Located place inum [] (.start before) :=
  ⟨fun op mem => absurd mem (by simp [Phase.start,Phase.ops,pastOps,Life.empty,Life.ops]),
    fun _ _ e mem => absurd mem (List.not_mem_nil),nofun,fun _ _ e mem => absurd mem (List.not_mem_nil)⟩

theorem loggedBefore (h : Located place inum es p)
    (later : ∀ x ∈ es, place x.blocks < place e.blocks) (mem : op ∈ p.ops inum) : place op.blknr < place e.blocks := by
  obtain ⟨x,known,rfl⟩ := h.logged op mem
  rw [opBlknr]
  exact later x known

theorem loggedStill (h : Located place inum es p) (mem : op ∈ p.ops inum) : ∃ x ∈ es ++ [e], x.op = op := by
  obtain ⟨x,known,same⟩ := h.logged op mem
  exact ⟨x,mem_append_left _ known,same⟩

theorem growsLocated (h : Located place inum es p) (later : ∀ x ∈ es, place x.blocks < place e.blocks) (l : Life)
    (alive : Bool) (creates : Nat) (plain : e.type ≠ .unlink)
    (grown : ∀ op ∈ l.ops inum, op ∈ p.life.ops inum ∨ op = e.op ∧ op.blknr = e.blocks)
    (young : alive = true → creates = 0 → p.alive = true ∧ p.creates = 0) :
    Located place inum (es ++ [e]) ⟨alive,creates,p.past,l⟩ := by
  have old {x : Entry} (known : x ∈ es ++ [e]) (type : x.type = .unlink) : x ∈ es := by
    rcases memSnoc known with old | rfl
    · exact old
    · exact absurd type plain
  refine ⟨fun op mem => ?_,fun op mem x known type => ?_,fun snap blknr past => ?_,fun live zero x known type => ?_⟩
  · rcases mem_append.mp mem with past | life
    · exact loggedStill h (mem_append_left _ past)
    · rcases grown op life with same | ⟨rfl,_⟩
      · exact loggedStill h (mem_append_right _ same)
      · exact ⟨e,mem_append_right _ (List.mem_singleton_self e),rfl⟩
  · rcases grown op mem with same | ⟨_,there⟩
    · exact h.current op same x (old known type) type
    · rw [there]
      exact later x (old known type)
  · obtain ⟨first,least⟩ := h.ended snap blknr past
    exact ⟨first,fun x known type => least x (old known type) type⟩
  · obtain ⟨was,none⟩ := young live zero
    exact h.carried was none x (old known type) type

theorem closeLife : (p.close e.blocks).life.ops inum = [] := rfl

-- An unlink of an inode created in the range leaves no trace.
theorem elidedLocated (h : Located place inum es p) (later : ∀ x ∈ es, place x.blocks < place e.blocks)
    (tagged : p.life.tagged = true) : Located place inum (es ++ [e]) (p.close e.blocks) := by
  have stays : (p.close e.blocks).past = p.past := if_pos tagged
  refine ⟨fun op mem => ?_,fun op mem => absurd mem (by simp [closeLife]),fun snap blknr past => ?_,nofun⟩
  · rw [Phase.ops,closeLife,stays,append_nil] at mem
    exact loggedStill h (mem_append_left _ mem)
  · rw [stays] at past
    obtain ⟨first,least⟩ := h.ended snap blknr past
    refine ⟨first,fun x known type => ?_⟩
    rcases memSnoc known with old | rfl
    · exact least x old type
    · have mem : Op.unlink inum blknr ∈ p.ops inum := by simp [Phase.ops,pastOps,past]
      exact Nat.le_of_lt (loggedBefore h later mem)

theorem endedLocated (h : Located place inum es p) (later : ∀ x ∈ es, place x.blocks < place e.blocks)
    (own : e.op = .unlink inum e.blocks) (kept : ¬p.life.tagged = true) (alive : p.alive = true) (none : p.creates = 0) :
    Located place inum (es ++ [e]) (p.close e.blocks) := by
  have ends : (p.close e.blocks).past = some (p.life.snap.map Prod.snd,e.blocks) := if_neg kept
  have last {b : Nat} (snap : p.life.snap.map Prod.snd = some b) : Op.inode inum b ∈ p.ops inum := by
    obtain ⟨s,found,rfl⟩ := map_eq_some_iff.mp snap
    exact mem_append_right _ (memLife.mpr (.inl ⟨s,found,rfl⟩))
  refine ⟨fun op mem => ?_,fun op mem => absurd mem (by simp [closeLife]),fun snap blknr past => ?_,nofun⟩
  · rw [Phase.ops,closeLife,ends,append_nil] at mem
    rcases memSnoc mem with mem | rfl
    · obtain ⟨b,found,rfl⟩ := map_eq_some_iff.mp (Option.mem_toList.mp mem)
      exact loggedStill h (last found)
    · rw [← own]
      exact ⟨e,mem_append_right _ (List.mem_singleton_self e),rfl⟩
  · rw [ends] at past
    cases past
    refine ⟨fun b found => loggedBefore h later (last found),fun x known type => ?_⟩
    rcases mem_append.mp known with old | new
    · exact absurd type (h.carried alive none x old)
    · rw [mem_singleton.mp new]

theorem stepLocated {n : Nat} (sound : Sound before n p) (h : Located place inum es p) (named : e.inodeNo = inum)
    (later : ∀ x ∈ es, place x.blocks < place e.blocks) (taken : p.step e = some p') : Located place inum (es ++ [e]) p' := by
  cases stepMoves taken with
  | create type dead =>
    refine growsLocated h later _ _ _ (by simp [type]) (fun op mem => ?_) fun _ zero => absurd zero (Nat.succ_ne_zero _)
    exact (memSnapshot mem).imp_right fun same => by simp [same,Entry.op,type,named,Op.blknr]
  | update type alive =>
    refine growsLocated h later _ _ _ (by simp [type]) (fun op mem => ?_) fun was zero => ⟨was,zero⟩
    exact (memSnapshot mem).imp_right fun same => by simp [same,Entry.op,type,named,Op.blknr]
  | write type alive =>
    refine growsLocated h later _ _ _ (fun is => ?_) (fun op mem => ?_) fun was zero => ⟨was,zero⟩
    · simp [Entry.op,is] at type
    · exact (memWrite mem).imp_right fun same => by simp [same,type,named,Op.blknr]
  | unlink type alive =>
    by_cases tagged : p.life.tagged = true
    · exact elidedLocated h later tagged
    · refine endedLocated h later (by simp [Entry.op,type,named]) tagged alive ?_
      by_contra some
      exact tagged (sound.created alive (by omega)).1

structure Follows (place : Nat → Nat) (before : Bool) (key : Key) (es : List Entry) (p : Phase) : Prop where
  sound : Sound before es.length p
  tracks : Tracks key (es.foldl trackEntry ⟨key.ver,[]⟩) p
  located : Located place key.inum es p

theorem phaseFollows {key : Key} (few : es.length < gLogSize)
    (sorted : es.Pairwise fun x y => place x.blocks < place y.blocks) (named : ∀ e ∈ es, e.inodeNo = key.inum)
    (taken : run Phase.step (.start before) es = some p) : Follows place before key es p := by
  induction es using List.reverseRecOn generalizing p with
  | nil =>
    cases taken
    refine ⟨soundStart before,⟨?_,rfl⟩,locatedStart key.inum before⟩
    exact (UInt16.add_zero _).symm
  | append_singleton es e ih =>
    rw [runAppend] at taken
    obtain ⟨q,first,last⟩ := bind_eq_some_iff.mp taken
    obtain ⟨p',moved,rfl⟩ : ∃ p', q.step e = some p' ∧ p' = p := by
      simpa [run,bind_eq_some_iff] using last
    simp only [List.length_append,List.length_singleton] at few
    obtain ⟨sortedEs,_,later⟩ := List.pairwise_append.mp sorted
    have named' : ∀ x ∈ es, x.inodeNo = key.inum := fun x mem => named x (mem_append_left _ mem)
    have own : e.inodeNo = key.inum := named e (mem_append_right _ (List.mem_singleton_self e))
    have h := ih (Nat.lt_of_succ_lt few) sortedEs named' first
    refine ⟨?_,?_,?_⟩
    · rw [List.length_append]
      exact stepSound h.sound moved
    · rw [List.foldl_append]
      exact stepTracks h.sound few h.tracks own moved
    · exact stepLocated h.sound h.located own (fun x mem => later x mem e (List.mem_singleton_self e)) moved

structure InOrderOf (place : Nat → Nat) (es : List Entry) (ops : List Op) : Prop where
  logged : ∀ o ∈ ops, ∃ e ∈ es, e.op = o
  after : ops.Pairwise fun x y => x.isUnlink = true → y.isUnlink = false → x.inum = y.inum → place x.blknr < place y.blknr
  ended : ∀ o ∈ ops, o.isUnlink = false → ∀ e ∈ es, e.type = .unlink → e.inodeNo = o.inum → place o.blknr < place e.blocks →
    ∃ b, [o,.unlink o.inum b].Sublist ops ∧ place o.blknr < place b ∧ place b ≤ place e.blocks

theorem lifeNoUnlink {l : Life} (mem : op ∈ l.ops inum) : op.isUnlink = false := by
  rcases memLife.mp mem with ⟨_,_,rfl⟩ | ⟨_,_,rfl⟩ <;> rfl

theorem locatedInOrder (h : Located place inum es p) : InOrderOf place es (p.ops inum) := by
  refine ⟨h.logged,List.pairwise_append.mpr ⟨?_,?_,fun x past y life gone _ _ => ?_⟩,fun o mem plain e known type _ lt => ?_⟩
  · rcases p.past with _ | ⟨_ | _,_⟩ <;> simp [pastOps,Op.isUnlink]
  · exact List.pairwise_of_forall_mem_list fun x mem _ _ gone => absurd gone (by simp [lifeNoUnlink mem])
  · obtain ⟨e,known,rfl⟩ := h.logged x (mem_append_left _ past)
    have type : e.type = .unlink := by
      unfold Entry.op at gone
      split at gone <;> first | assumption | simp [Op.isUnlink] at gone
    rw [opBlknr]
    exact h.current y life e known type
  · rcases mem_append.mp mem with past | life
    · rcases ends : p.past with _ | ⟨snap,blknr⟩
      · simp [ends,pastOps] at past
      · rw [ends] at past
        obtain ⟨first,least⟩ := h.ended snap blknr ends
        rcases memSnoc past with mem | rfl
        · obtain ⟨b,rfl,rfl⟩ := map_eq_some_iff.mp (Option.mem_toList.mp mem)
          refine ⟨blknr,?_,first b rfl,least e known type⟩
          rw [Phase.ops,ends]
          exact List.sublist_append_left ..
        · simp [Op.isUnlink] at plain
    · exact absurd (h.current o life e known type) (Nat.lt_asymm lt)

end located

def TypedOps (area : Nat → Dinode) (ops : List Op) : Prop :=
  ∀ i b, Op.inode i b ∈ ops → (area b).itype ≠ .free

theorem typedAppend {area : Nat → Dinode} {xs ys : List Op} (h : TypedOps area (xs ++ ys)) :
    TypedOps area xs ∧ TypedOps area ys :=
  ⟨fun i b mem => h i b (mem_append_left _ mem),fun i b mem => h i b (mem_append_right _ mem)⟩

section alive
variable {area : Nat → Dinode} {inum : Nat}

theorem staysAlive {ops : List Op} (typed : TypedOps area ops) (plain : ∀ op ∈ ops, op.isUnlink = false) :
    run (opAlive area) true ops = some true := by
  induction ops with
  | nil => rfl
  | cons op ops ih =>
    have rest := ih (fun i b mem => typed i b (.tail _ mem))
      fun x mem => plain x (.tail _ mem)
    cases op with
    | inode i b =>
      have named := typed i b (.head _)
      simp only [run,opAlive,if_neg named,bind_some,rest]
    | file i o l b => simp only [run,opAlive,if_true,bind_some,rest]
    | unlink i b => simpa [Op.isUnlink] using plain (.unlink i b) (.head _)

theorem pastAlive {past : Option (Option Nat × Nat)} (before : Bool) (typed : TypedOps area (pastOps inum past)) :
    run (opAlive area) before (pastOps inum past) = some (if past.isSome then false else before) := by
  rcases past with _ | ⟨_ | b,u⟩
  · rfl
  · rfl
  · have named := typed inum b (by simp [pastOps])
    simp [pastOps,run,opAlive,named]

theorem soundAlive {before : Bool} {n : Nat} {p : Phase} (h : Sound before n p)
    (typed : TypedOps area (p.ops inum)) : run (opAlive area) before (p.ops inum) = some p.alive := by
  obtain ⟨typedPast,typedLife⟩ := typedAppend typed
  rw [Phase.ops,runAppend,pastAlive before typedPast,bind_some]
  cases alive : p.alive with
  | false =>
    have dead : (if p.past.isSome then false else before) = false := by
      split
      · rfl
      · exact h.gone (.inl alive) (by simpa using ‹¬ p.past.isSome = true›)
    rw [dead,h.dead alive]
    rfl
  | true =>
    rcases Nat.eq_zero_or_pos p.creates with zero | pos
    · obtain ⟨none,was,_⟩ := h.carried alive zero
      rw [none,was]
      exact staysAlive typedLife fun op mem => lifeNoUnlink mem
    · -- The lifetime starts with its create snapshot, whatever was before.
      obtain ⟨tagged,first⟩ := h.created alive pos
      rcases snap : p.life.snap with _ | ⟨tag,b⟩
      · simp [Life.tagged,snap] at tagged
      · have shape : p.life.ops inum =
            .inode inum b::p.life.writes.map fun v => .file inum v.offset v.length v.blknr := by
          simp [Life.ops,first,snap]
        have plain : ∀ op ∈ p.life.ops inum, op.isUnlink = false := fun op mem => lifeNoUnlink mem
        rw [shape] at typedLife plain ⊢
        have named := typedLife inum b (.head _)
        simp only [run,opAlive,if_neg named,bind_some]
        exact staysAlive (fun i c mem => typedLife i c (.tail _ mem))
          fun op mem => plain op (.tail _ mem)

theorem entriesAlive {before after : Bool} {es : List Entry} (lives : run lifeStep before es = some after)
    (typed : TypedOps area (es.map Entry.op)) : run (opAlive area) before (es.map Entry.op) = some after := by
  induction es generalizing before with
  | nil => exact lives
  | cons e es ih =>
    obtain ⟨mid,first,rest⟩ := bind_eq_some_iff.mp lives
    have named : ∀ b, e.op = .inode e.inodeNo b → (area b).itype ≠ .free := fun b is =>
      typed e.inodeNo b (by rw [← is]; exact .head _)
    have same : opAlive area before e.op = some mid := by
      rcases type : e.type <;> cases before <;> simp_all [lifeStep,Entry.op,opAlive]
    rw [List.map_cons,run,same,bind_some]
    exact ih rest fun i b mem => typed i b (.tail _ mem)

end alive

/- The data of the entries lie in one log, each at a block of its own. A range of the host-only build may wrap
around its end, so the order of the entries is their position in the range and not their block number. -/
structure LogShape (r : Range) : Prop where
  within : ∃ logStart, ∀ e ∈ r.entries, logStart < e.blocks ∧ e.blocks < logStart + gLogSize
  distinct : (r.entries.map Entry.blocks).Nodup
  typed : TypedOps r.area (r.entries.map Entry.op)

def position (es : List Entry) (blknr : Nat) : Nat := (es.map Entry.blocks).idxOf blknr

theorem positionSorted (distinct : (es.map Entry.blocks).Nodup) :
    es.Pairwise fun x y => position es x.blocks < position es y.blocks := by
  have there (k : Nat) (inside : k < es.length) : position es es[k].blocks = k := by
    have found := distinct.idxOf_getElem k (by simpa using inside)
    rwa [List.getElem_map] at found
  refine List.pairwise_iff_getElem.mpr fun i j low high less => ?_
  rwa [there i low,there j high]

theorem shapeShort {r : Range} (shape : LogShape r) : r.entries.length < gLogSize := by
  obtain ⟨logStart,within⟩ := shape.within
  have inside : r.entries.map Entry.blocks ⊆ List.range' (logStart + 1) (gLogSize - 1) := by
    intro b mem
    obtain ⟨e,known,rfl⟩ := List.mem_map.mp mem
    have bounds := within e known
    simp only [List.mem_range'_1]
    omega
  have short := (shape.distinct.subperm inside).length_le
  rw [List.length_map,List.length_range'] at short
  simp only [gLogSize] at short ⊢
  omega

theorem rangeFollows {r : Range} (shape : LogShape r) (table : VersionTable) {after : Bool} {i : Nat}
    (lives : run lifeStep before (ofKey Entry.inodeNo i r.entries) = some after) :
    ∃ p, run Phase.step (.start before) (ofKey Entry.inodeNo i r.entries) = some p ∧ p.alive = after ∧
      ofKey Op.inum i (r.coalesced table) = p.ops i ∧
      Follows (position r.entries) before ⟨i,table i⟩ (ofKey Entry.inodeNo i r.entries) p := by
  have part := List.filter_sublist (p := fun e : Entry => e.inodeNo == i) (l := r.entries)
  obtain ⟨p,taken,alive⟩ := map_eq_some_iff.mp ((runAlive (.start before) _).trans lives)
  have follows : Follows (position r.entries) before ⟨i,table i⟩ (ofKey Entry.inodeNo i r.entries) p := by
    refine phaseFollows (Nat.lt_of_le_of_lt part.length_le (shapeShort shape)) ((positionSorted shape.distinct).sublist part) ?_ taken
    intro e mem
    simpa using (mem_filter.mp mem).2
  refine ⟨p,taken,alive,?_,follows⟩
  rw [coalescedOfKey,follows.tracks.items,opsOfItems]

theorem rangeInOrder {r : Range} (shape : LogShape r) (table : VersionTable) (before : Nat → Bool)
    (lives : ∀ i, ∃ after, run lifeStep (before i) (ofKey Entry.inodeNo i r.entries) = some after) :
    InOrderOf (position r.entries) r.entries (r.coalesced table) := by
  have each (i : Nat) : InOrderOf (position r.entries) (ofKey Entry.inodeNo i r.entries) (ofKey Op.inum i (r.coalesced table)) := by
    obtain ⟨after,life⟩ := lives i
    obtain ⟨p,_,_,ops,follows⟩ := rangeFollows shape table life
    rw [ops]
    exact locatedInOrder follows.located
  have own {o : Op} (mem : o ∈ r.coalesced table) : o ∈ ofKey Op.inum o.inum (r.coalesced table) :=
    mem_filter.mpr ⟨mem,by simp⟩
  refine ⟨fun o mem => ?_,List.pairwise_iff_forall_sublist.mpr fun {x y} pair gone plain same => ?_,
    fun o mem plain e known type named lt => ?_⟩
  · obtain ⟨e,known,is⟩ := (each o.inum).logged o (own mem)
    exact ⟨e,(mem_filter.mp known).1,is⟩
  · have part : [x,y].Sublist (ofKey Op.inum y.inum (r.coalesced table)) := by
      have kept := pair.filter fun o => o.inum == y.inum
      simpa [ofKey,same] using kept
    exact List.pairwise_iff_forall_sublist.mp (each y.inum).after part gone plain same
  · have mine : e ∈ ofKey Entry.inodeNo o.inum r.entries := mem_filter.mpr ⟨known,by simp [named]⟩
    obtain ⟨b,part,above,below⟩ := (each o.inum).ended o (own mem) plain e mine type named lt
    exact ⟨b,part.trans List.filter_sublist,above,below⟩

section publish
variable {σ : Type} (A : Allocator σ)

def publishCoalesced (d : Digest σ) (table : VersionTable) : List Range → Option (Digest σ)
  | [] => some d
  | r::rs => (run (digestOp A r.area) d (r.coalesced table)).bind fun d' =>
      publishCoalesced d' (r.replay table).inodeVersionTable rs

def publishInOrder (d : Digest σ) : List Range → Option (Digest σ)
  | [] => some d
  | r::rs => (run (digestOp A r.area) d r.inOrder).bind fun d' => publishInOrder d' rs

def appliedOps (table : VersionTable) : List Range → List (List Op)
  | [] => []
  | r::rs => r.coalesced table::appliedOps (r.replay table).inodeVersionTable rs

variable {A} {used : σ → Nat → Prop} (law : Lawful A used)
include law

theorem rangeAlive {d : Digest σ} {area : Nat → Dinode} {ops : List Op} {after : Nat → Bool} (typed : Typed d.fs)
    (each : ∀ i, run (opAlive area) (d.fs.live i) (ofKey Op.inum i ops) = some (after i)) :
    ∃ d', run (digestOp A area) d ops = some d' ∧ Typed d'.fs ∧ d'.fs.live = after := by
  obtain ⟨d',taken,good,views⟩ := runKeyed (aliveSimulates A law area) typed fun i => ⟨after i,each i⟩
  refine ⟨d',taken,good,funext fun i => ?_⟩
  exact Option.some.inj ((views i).symm.trans (each i))

theorem rangeAlike {d d' : Digest σ} {r : Range} (shape : LogShape r) (table : VersionTable) (typed : Typed d.fs)
    (typed' : Typed d'.fs) (same : d.fs.live = d'.fs.live) {after : Nat → Bool}
    (lives : ∀ i, run lifeStep (d.fs.live i) (ofKey Entry.inodeNo i r.entries) = some (after i)) :
    ∃ e e', run (digestOp A r.area) d (r.coalesced table) = some e ∧
      run (digestOp A r.area) d' r.inOrder = some e' ∧ Typed e.fs ∧ Typed e'.fs ∧
      e.fs.live = after ∧ e'.fs.live = after := by
  have ordered := rangeInOrder shape table d.fs.live fun i => ⟨after i,lives i⟩
  have typedOps : TypedOps r.area (r.coalesced table) := fun i b mem => by
    obtain ⟨e,known,is⟩ := ordered.logged _ mem
    exact shape.typed i b (List.mem_map.mpr ⟨e,known,is⟩)
  have each (i : Nat) : run (opAlive r.area) (d.fs.live i) (ofKey Op.inum i (r.coalesced table)) = some (after i) := by
    obtain ⟨p,_,alive,ops,follows⟩ := rangeFollows shape table (lives i)
    rw [ops,← alive]
    refine soundAlive follows.sound fun j b mem => typedOps j b ?_
    rw [← ops] at mem
    exact (mem_filter.mp mem).1
  have each' (i : Nat) : run (opAlive r.area) (d'.fs.live i) (ofKey Op.inum i r.inOrder) = some (after i) := by
    rw [inOrderEntries,mapOfKey,← same]
    refine entriesAlive (lives i) fun j b mem => shape.typed j b ?_
    rw [← mapOfKey] at mem
    exact (mem_filter.mp mem).1
  obtain ⟨e,taken,good,live⟩ := rangeAlive law typed each
  obtain ⟨e',taken',good',live'⟩ := rangeAlive law typed' each'
  exact ⟨e,e',taken,taken',good,good',live,live'⟩

theorem publishAlike {d d' : Digest σ} (table : VersionTable) (ranges : List Range)
    (shape : ∀ r ∈ ranges, LogShape r) (typed : Typed d.fs) (typed' : Typed d'.fs)
    (same : d.fs.live = d'.fs.live) (lives : ∀ i, ∃ after,
      run lifeStep (d.fs.live i) (ofKey Entry.inodeNo i (ranges.flatMap Range.entries)) = some after) :
    ∃ e e', publishCoalesced A d table ranges = some e ∧ publishInOrder A d' ranges = some e' ∧
      e.fs.live = e'.fs.live ∧ List.Forall₂ (fun r ops => InOrderOf (position r.entries) r.entries ops) ranges (appliedOps table ranges) := by
  induction ranges generalizing d d' table with
  | nil => exact ⟨d,d',rfl,rfl,same,.nil⟩
  | cons r rs ih =>
    have here := shape r (.head _)
    have mid (i : Nat) : ∃ after, run lifeStep (d.fs.live i) (ofKey Entry.inodeNo i r.entries) = some after ∧
        ∃ last, run lifeStep after (ofKey Entry.inodeNo i (rs.flatMap Range.entries)) = some last := by
      obtain ⟨last,whole⟩ := lives i
      rw [List.flatMap_cons,ofKeyAppend,runAppend] at whole
      obtain ⟨after,first,rest⟩ := bind_eq_some_iff.mp whole
      exact ⟨after,first,last,rest⟩
    choose after first rest using mid
    obtain ⟨e,e',taken,taken',good,good',live,live'⟩ := rangeAlike law here table typed typed' same first
    obtain ⟨f,f',whole,whole',alike,ordered⟩ := ih (r.replay table).inodeVersionTable
      (fun x mem => shape x (.tail _ mem)) good good' (live.trans live'.symm)
      fun i => by rw [live]; exact rest i
    refine ⟨f,f',?_,?_,alike,.cons (rangeInOrder here table d.fs.live fun i => ⟨after i,first i⟩) ordered⟩
    · simp only [publishCoalesced,taken,bind_some,whole]
    · simp only [publishInOrder,taken',bind_some,whole']

end publish

/- The first range wraps: its second header lies at the start of the log. -/
def reused : List Range :=
  [⟨[⟨131060,[⟨.inodeCreate,5,0,1,1⟩,⟨.file,5,0,4096,2⟩,⟨.unlink,5,0,1,3⟩]⟩,
      ⟨1,[⟨.inodeCreate,5,0,1,1⟩,⟨.file,5,0,100,2⟩]⟩],fun _ => ⟨.file,0⟩⟩,
    ⟨[⟨30,[⟨.inodeUpdate,5,0,1,1⟩,⟨.unlink,5,0,1,2⟩,⟨.inodeCreate,5,0,1,3⟩]⟩],fun _ => ⟨.file,0⟩⟩]

def blank : Fs (List Nat) := ⟨fun _ => none,[]⟩

example : appliedOps (fun _ => 65535) reused =
    [[.inode 5 2,.file 5 0 100 3],[.inode 5 31,.unlink 5 32,.inode 5 33]] := by decide

theorem blankTyped : Typed blank := fun i ino found => absurd found (by simp [blank])

/- A file that is unlinked while it is open and then written through the descriptor. -/
def writtenAfter : Range := ⟨[⟨10,[⟨.inodeCreate,5,0,1,1⟩]⟩,⟨12,[⟨.unlink,5,0,1,1⟩]⟩,⟨14,[⟨.file,5,0,4096,1⟩]⟩],fun _ => ⟨.file,0⟩⟩

end LineFS.Lifetime
