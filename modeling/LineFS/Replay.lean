import LineFS.Kernfs

/-! The two ways a digest range reaches the shared area: `digestEachLogEntries` applies the entries of a log
header one at a time, `digestReplayAndOptimize` collects them in a replay list keyed by inode number and
version. -/
namespace LineFS.Replay
open Base Kernfs

inductive LType where
  | inodeCreate | inodeUpdate | dirAdd | dirRename | dirDel | file | unlink
  deriving DecidableEq, Repr

structure Entry where
  type : LType
  inodeNo : Nat
  data : Nat
  length : Nat
  blocks : Nat
  deriving DecidableEq, Repr

structure Loghdr where
  hdrBlkno : Nat
  entries : List Entry
  deriving DecidableEq, Repr

def Loghdr.logged (h : Loghdr) : List Entry :=
  h.entries.map fun e => { e with blocks := e.blocks + h.hdrBlkno }

def Entry.op (e : Entry) : Op :=
  match e.type with
  | .inodeCreate | .inodeUpdate => .inode e.inodeNo e.blocks
  | .dirAdd | .dirRename | .dirDel | .file => .file e.inodeNo e.data e.length e.blocks
  | .unlink => .unlink e.inodeNo e.blocks

def digestEachLogEntries (h : Loghdr) : List Op := h.logged.map Entry.op

structure Key where
  inum : Nat
  ver : UInt16
  deriving DecidableEq, Repr

structure Iovec where
  offset : Nat
  length : Nat
  blknr : Nat
  deriving DecidableEq, Repr

inductive Item where
  | inode (key : Key) (create : Bool) (blknr : Nat)
  | file (key : Key) (iovecs : List Iovec)
  | unlink (key : Key) (blknr : Nat)
  deriving DecidableEq, Repr

namespace Item

def key : Item → Key
  | .inode k _ _ => k
  | .file k _ => k
  | .unlink k _ => k

def inum (it : Item) : Nat := it.key.inum

def isInode (key : Key) : Item → Bool
  | .inode k _ _ => k == key
  | _ => false

def isFile (key : Key) : Item → Bool
  | .file k _ => k == key
  | _ => false

def created (key : Key) : Item → Bool
  | .inode k create _ => k == key && create
  | _ => false

def setBlknr (key : Key) (blknr : Nat) : Item → Item
  | .inode k create b => .inode k create (if k = key then blknr else b)
  | it => it

def addIovec (key : Key) (v : Iovec) : Item → Item
  | .file k vs => .file k (if k = key then vs ++ [v] else vs)
  | it => it

def ops : Item → List Op
  | .inode k _ blknr => [.inode k.inum blknr]
  | .file k vs => vs.map fun v => .file k.inum v.offset v.length v.blknr
  | .unlink k blknr => [.unlink k.inum blknr]

end Item

/- A hash table and the list hold the same items; a lookup finds the item of a key. -/
def replayInode (key : Key) (create : Bool) (blknr : Nat) (items : List Item) : List Item :=
  if items.any (Item.isInode key) then items.map (Item.setBlknr key blknr)
  else items ++ [.inode key create blknr]

def replayFile (key : Key) (v : Iovec) (items : List Item) : List Item :=
  if items.any (Item.isFile key) then items.map (Item.addIovec key v) else items ++ [.file key [v]]

def replayUnlink (key : Key) (blknr : Nat) (items : List Item) : List Item :=
  let items :=
    if items.any (Item.created key) then items.filter fun it => !Item.isInode key it
    else items ++ [.unlink key blknr]
  items.filter fun it => !Item.isFile key it

abbrev VersionTable : Type := Nat → UInt16

structure ReplayList where
  inodeVersionTable : VersionTable
  items : List Item

def bump (e : Entry) (v : UInt16) : UInt16 := if e.type = .inodeCreate then v + 1 else v

def replayItems (e : Entry) (key : Key) (items : List Item) : List Item :=
  match e.type with
  | .inodeCreate | .inodeUpdate => replayInode key (e.type == .inodeCreate) e.blocks items
  | .dirAdd | .dirRename | .dirDel | .file => replayFile key ⟨e.data,e.length,e.blocks⟩ items
  | .unlink => replayUnlink key e.blocks items

def replayEntry (r : ReplayList) (e : Entry) : ReplayList :=
  let ver := bump e (r.inodeVersionTable e.inodeNo)
  ⟨fun i => if i = e.inodeNo then ver else r.inodeVersionTable i,replayItems e ⟨e.inodeNo,ver⟩ r.items⟩

def digestReplayAndOptimize (r : ReplayList) (h : Loghdr) : ReplayList := h.logged.foldl replayEntry r

def digestLogFromReplayList (items : List Item) : List Op := items.flatMap Item.ops

def Concerns (key : Key) (test : Item → Bool) : Prop := ∀ it, test it = true → it.key = key
def Changes (key : Key) (f : Item → Item) : Prop := ∀ it, (f it).key = it.key ∧ (it.key ≠ key → f it = it)

section concerns
variable {key : Key} {test : Item → Bool} {f : Item → Item} {i : Nat}

theorem concernsInode : Concerns key (Item.isInode key) := by
  rintro (_ | _ | _) h <;> simp_all [Item.isInode,Item.key]
theorem concernsFile : Concerns key (Item.isFile key) := by
  rintro (_ | _ | _) h <;> simp_all [Item.isFile,Item.key]
theorem concernsCreated : Concerns key (Item.created key) := by
  rintro (_ | _ | _) h <;> simp_all [Item.created,Item.key]
theorem changesBlknr (blknr : Nat) : Changes key (Item.setBlknr key blknr) := by
  rintro (_ | _ | _) <;> simp +contextual [Item.setBlknr,Item.key]
theorem changesIovec (v : Iovec) : Changes key (Item.addIovec key v) := by
  rintro (_ | _ | _) <;> simp +contextual [Item.addIovec,Item.key]

theorem anyOfKey (h : Concerns key test) (items : List Item) :
    (ofKey Item.inum key.inum items).any test = items.any test := by
  rw [ofKey,List.any_filter]
  congr 1
  funext it
  cases yes : test it with
  | false => simp
  | true => simp [Item.inum,h it yes]

theorem filterOther (h : Concerns key test) (other : key.inum ≠ i) (items : List Item) :
    ofKey Item.inum i (items.filter fun it => !test it) = ofKey Item.inum i items := by
  rw [ofKey,ofKey,List.filter_filter]
  congr 1
  funext it
  cases yes : test it with
  | false => simp
  | true => simp [Item.inum,h it yes,other]

theorem mapSame (h : Changes key f) (items : List Item) :
    ofKey Item.inum i (items.map f) = (ofKey Item.inum i items).map f := by
  rw [ofKey,ofKey,List.filter_map]
  congr 2
  funext it
  simp [Item.inum,(h it).1]

theorem mapOther (h : Changes key f) (other : key.inum ≠ i) (items : List Item) :
    ofKey Item.inum i (items.map f) = ofKey Item.inum i items := by
  rw [mapSame h]
  refine (List.map_congr_left fun it mem => (h it).2 ?_).trans (List.map_id _)
  rintro rfl
  exact other (by simpa [Item.inum] using (List.mem_filter.mp mem).2)

theorem filterSame (items : List Item) :
    ofKey Item.inum i (items.filter test) = (ofKey Item.inum i items).filter test := by
  rw [ofKey,ofKey,List.filter_filter,List.filter_filter]
  congr 1
  funext it
  exact Bool.and_comm ..

theorem snocOther (items : List Item) (it : Item) (other : it.inum ≠ i) :
    ofKey Item.inum i (items ++ [it]) = ofKey Item.inum i items := by
  rw [ofKeyAppend,ofKeyOther [] other]
  exact List.append_nil _

theorem snocSame (items : List Item) (it : Item) (same : it.inum = i) :
    ofKey Item.inum i (items ++ [it]) = ofKey Item.inum i items ++ [it] := by
  rw [ofKeyAppend,ofKeySame [] same]
  rfl

end concerns

section projection
variable (key : Key) {i : Nat}

theorem replayOther (e : Entry) (other : key.inum ≠ i) (items : List Item) :
    ofKey Item.inum i (replayItems e key items) = ofKey Item.inum i items := by
  have inode (create : Bool) (blknr : Nat) :
      ofKey Item.inum i (replayInode key create blknr items) = ofKey Item.inum i items := by
    unfold replayInode
    split
    · exact mapOther (changesBlknr blknr) other items
    · exact snocOther items _ other
  have file (v : Iovec) : ofKey Item.inum i (replayFile key v items) = ofKey Item.inum i items := by
    unfold replayFile
    split
    · exact mapOther (changesIovec v) other items
    · exact snocOther items _ other
  have unlink (blknr : Nat) :
      ofKey Item.inum i (replayUnlink key blknr items) = ofKey Item.inum i items := by
    simp only [replayUnlink]
    rw [filterOther concernsFile other]
    split
    · exact filterOther concernsInode other items
    · exact snocOther items _ other
  unfold replayItems
  split
  exacts [inode _ _,inode _ _,file _,file _,file _,file _,unlink _]

theorem replaySame (e : Entry) (items : List Item) :
    ofKey Item.inum key.inum (replayItems e key items) = replayItems e key (ofKey Item.inum key.inum items) := by
  have inode (create : Bool) (blknr : Nat) : ofKey Item.inum key.inum (replayInode key create blknr items) =
      replayInode key create blknr (ofKey Item.inum key.inum items) := by
    simp only [replayInode,anyOfKey concernsInode]
    split
    · exact mapSame (changesBlknr blknr) items
    · exact snocSame items _ rfl
  have file (v : Iovec) : ofKey Item.inum key.inum (replayFile key v items) =
      replayFile key v (ofKey Item.inum key.inum items) := by
    simp only [replayFile,anyOfKey concernsFile]
    split
    · exact mapSame (changesIovec v) items
    · exact snocSame items _ rfl
  have unlink (blknr : Nat) : ofKey Item.inum key.inum (replayUnlink key blknr items) =
      replayUnlink key blknr (ofKey Item.inum key.inum items) := by
    simp only [replayUnlink,anyOfKey concernsCreated]
    rw [filterSame]
    split
    · rw [filterSame]
    · exact congrArg _ (snocSame items (.unlink key blknr) rfl)
  unfold replayItems
  split
  exacts [inode _ _,inode _ _,file _,file _,file _,file _,unlink _]

end projection

structure Track where
  ver : UInt16
  items : List Item

def trackEntry (t : Track) (e : Entry) : Track :=
  ⟨bump e t.ver,replayItems e ⟨e.inodeNo,bump e t.ver⟩ t.items⟩

theorem replayTracks (r : ReplayList) (es : List Entry) (i : Nat) :
    let t := (ofKey Entry.inodeNo i es).foldl trackEntry ⟨r.inodeVersionTable i,ofKey Item.inum i r.items⟩
    (es.foldl replayEntry r).inodeVersionTable i = t.ver ∧
      ofKey Item.inum i (es.foldl replayEntry r).items = t.items := by
  induction es generalizing r with
  | nil => exact ⟨rfl,rfl⟩
  | cons e es ih =>
    have rest := ih (replayEntry r e)
    by_cases same : e.inodeNo = i
    · subst same
      rw [ofKeySame es rfl]
      have items : ofKey Item.inum e.inodeNo (replayEntry r e).items =
          replayItems e ⟨e.inodeNo,bump e (r.inodeVersionTable e.inodeNo)⟩ (ofKey Item.inum e.inodeNo r.items) :=
        replaySame ⟨e.inodeNo,bump e (r.inodeVersionTable e.inodeNo)⟩ e r.items
      have ver : (replayEntry r e).inodeVersionTable e.inodeNo = bump e (r.inodeVersionTable e.inodeNo) :=
        if_pos rfl
      rw [items,ver] at rest
      exact rest
    · rw [ofKeyOther es same]
      have items : ofKey Item.inum i (replayEntry r e).items = ofKey Item.inum i r.items := replayOther _ e same r.items
      have ver : (replayEntry r e).inodeVersionTable i = r.inodeVersionTable i := if_neg (Ne.symm same)
      rw [items,ver] at rest
      exact rest

theorem opsOfKey (items : List Item) (i : Nat) :
    ofKey Op.inum i (digestLogFromReplayList items) = digestLogFromReplayList (ofKey Item.inum i items) := by
  induction items with
  | nil => rfl
  | cons it items ih =>
    have shared : ∀ op ∈ it.ops, op.inum = it.inum := by
      rcases it with _ | _ | _ <;> simp [Item.ops,Op.inum,Item.inum,Item.key]
    simp only [digestLogFromReplayList,List.flatMap_cons,ofKeyAppend] at *
    by_cases same : it.inum = i
    · rw [ofKeySame items same,List.flatMap_cons,ih]
      congr 1
      exact List.filter_eq_self.mpr fun op mem => by simp [shared op mem,same]
    · rw [ofKeyOther items same,ih]
      have none : ofKey Op.inum i it.ops = [] :=
        List.filter_eq_nil_iff.mpr fun op mem => by simp [shared op mem,same]
      rw [none,List.nil_append]

structure Range where
  hdrs : List Loghdr
  area : Nat → Dinode

namespace Range

def entries (r : Range) : List Entry := r.hdrs.flatMap Loghdr.logged
def replay (table : VersionTable) (r : Range) : ReplayList := r.hdrs.foldl digestReplayAndOptimize ⟨table,[]⟩
def coalesced (table : VersionTable) (r : Range) : List Op := digestLogFromReplayList (r.replay table).items
def inOrder (r : Range) : List Op := r.hdrs.flatMap digestEachLogEntries

end Range

theorem opInum (e : Entry) : e.op.inum = e.inodeNo := by
  unfold Entry.op
  split <;> rfl

theorem opBlknr (e : Entry) : e.op.blknr = e.blocks := by
  unfold Entry.op
  split <;> rfl

theorem replayEntries (table : VersionTable) (r : Range) :
    r.replay table = r.entries.foldl replayEntry ⟨table,[]⟩ := by
  rw [Range.replay,Range.entries,List.foldl_flatMap]
  rfl

theorem inOrderEntries (r : Range) : r.inOrder = r.entries.map Entry.op := by
  rw [Range.inOrder,Range.entries,List.map_flatMap]
  rfl

theorem coalescedOfKey (table : VersionTable) (r : Range) (i : Nat) : ofKey Op.inum i (r.coalesced table) =
    digestLogFromReplayList ((ofKey Entry.inodeNo i r.entries).foldl trackEntry ⟨table i,[]⟩).items := by
  rw [Range.coalesced,opsOfKey,replayEntries,(replayTracks ⟨table,[]⟩ r.entries i).2]
  rfl

theorem mapOfKey (es : List Entry) (i : Nat) :
    ofKey Op.inum i (es.map Entry.op) = (ofKey Entry.inodeNo i es).map Entry.op := by
  simp only [ofKey,List.filter_map,Function.comp_def,opInum]

variable {op : Op} {items : List Item}

theorem setBlknrFrom {key : Key} {b : Nat} {it : Item} (mem : op ∈ (it.setBlknr key b).ops) :
    op ∈ it.ops ∨ op = .inode key.inum b := by
  rcases it with ⟨k,c,old⟩ | ⟨k,vs⟩ | ⟨k,old⟩
  · by_cases same : k = key <;> simp_all [Item.setBlknr,Item.ops]
  · exact .inl mem
  · exact .inl mem

theorem addIovecFrom {key : Key} {v : Iovec} {it : Item} (mem : op ∈ (it.addIovec key v).ops) :
    op ∈ it.ops ∨ op = .file key.inum v.offset v.length v.blknr := by
  rcases it with ⟨k,c,b⟩ | ⟨k,vs⟩ | ⟨k,b⟩
  · exact .inl mem
  · by_cases same : k = key
    · simp only [Item.addIovec,same,if_true,Item.ops,List.map_append,List.mem_append] at mem ⊢
      exact mem.imp_right List.mem_singleton.mp
    · exact .inl (by simpa [Item.addIovec,same] using mem)
  · exact .inl mem

theorem mappedFrom {f : Item → Item} {new : Op}
    (each : ∀ it, op ∈ (f it).ops → op ∈ it.ops ∨ op = new)
    (mem : op ∈ digestLogFromReplayList (items.map f)) : op ∈ digestLogFromReplayList items ∨ op = new := by
  obtain ⟨_,image,made⟩ := List.mem_flatMap.mp mem
  obtain ⟨it,known,rfl⟩ := List.mem_map.mp image
  exact (each it made).imp_left fun old => List.mem_flatMap.mpr ⟨it,known,old⟩

theorem appendedFrom {it : Item} {new : Op} (ops : it.ops = [new])
    (mem : op ∈ digestLogFromReplayList (items ++ [it])) : op ∈ digestLogFromReplayList items ∨ op = new := by
  simpa [digestLogFromReplayList,ops] using mem

theorem filteredFrom {q : Item → Bool}
    (mem : op ∈ digestLogFromReplayList (items.filter q)) : op ∈ digestLogFromReplayList items := by
  obtain ⟨it,known,made⟩ := List.mem_flatMap.mp mem
  exact List.mem_flatMap.mpr ⟨it,(List.mem_filter.mp known).1,made⟩

theorem replayFrom {e : Entry} {key : Key} (named : e.inodeNo = key.inum)
    (mem : op ∈ digestLogFromReplayList (replayItems e key items)) :
    op ∈ digestLogFromReplayList items ∨ op = e.op := by
  have inode (create : Bool) (mem : op ∈ digestLogFromReplayList (replayInode key create e.blocks items)) :
      op ∈ digestLogFromReplayList items ∨ op = .inode key.inum e.blocks := by
    unfold replayInode at mem
    split at mem
    · exact mappedFrom (fun _ => setBlknrFrom) mem
    · exact appendedFrom rfl mem
  have file (mem : op ∈ digestLogFromReplayList (replayFile key ⟨e.data,e.length,e.blocks⟩ items)) :
      op ∈ digestLogFromReplayList items ∨ op = .file key.inum e.data e.length e.blocks := by
    unfold replayFile at mem
    split at mem
    · exact mappedFrom (fun _ => addIovecFrom) mem
    · exact appendedFrom rfl mem
  have unlink (mem : op ∈ digestLogFromReplayList (replayUnlink key e.blocks items)) :
      op ∈ digestLogFromReplayList items ∨ op = .unlink key.inum e.blocks := by
    have kept := filteredFrom mem
    split at kept
    · exact .inl (filteredFrom kept)
    · exact appendedFrom rfl kept
  unfold replayItems at mem
  split at mem <;> rename_i type <;> simp only [Entry.op,type,named]
  · exact inode _ mem
  · exact inode _ mem
  · exact file mem
  · exact file mem
  · exact file mem
  · exact file mem
  · exact unlink mem

theorem coalescedFrom {table : VersionTable} {r : Range} (mem : op ∈ r.coalesced table) :
    ∃ e ∈ r.entries, e.op = op := by
  have fold (es : List Entry) (s : ReplayList) (mem : op ∈ digestLogFromReplayList (es.foldl replayEntry s).items) :
      op ∈ digestLogFromReplayList s.items ∨ ∃ e ∈ es, e.op = op := by
    induction es generalizing s with
    | nil => exact .inl mem
    | cons e es ih =>
      rcases ih (replayEntry s e) mem with old | ⟨x,known,is⟩
      · rcases replayFrom rfl old with old | new
        · exact .inl old
        · exact .inr ⟨e,.head _,new.symm⟩
      · exact .inr ⟨x,.tail _ known,is⟩
  rw [Range.coalesced,replayEntries] at mem
  rcases fold r.entries _ mem with none | found
  · exact nomatch none
  · exact found

end LineFS.Replay
