import LineFS.Dirent

/-! The operations of LibFS on its namespace, on directories that the walk of their paths has found. An
operation changes the inodes in memory and records the changes in the log header; a commit makes the entries
of the header visible to reads, an abort only drops the header. -/
namespace LineFS.Namespace
open List (map_cons mem_cons mem_map mem_of_getElem? mem_singleton nil_append nodup_cons)
open Base Dirent Function

def gMaxBlocksPerOperation : Nat := 4

structure FS where
  inode : Nat → Inode
  bitmap : Nat → Bool

def FS.put (s : FS) (d : Inode) : FS := { s with inode := fun i => if i = d.inum then d else s.inode i }

def icreate (s : FS) (inum : Nat) (type : Itype) : Inode :=
  ⟨inum,type,0,1,false,0,fun _ => none,(s.inode inum).file⟩

def ialloc (s : FS) (d : Inode) : FS :=
  ⟨fun i => if i = d.inum then d else s.inode i,fun i => if i = d.inum then true else s.bitmap i⟩

def addLink (d : Inode) : Inode := { d with nlink := d.nlink + 1 }

def idealloc (s : FS) (inum : Nat) : FS :=
  s.put { s.inode inum with size := 0, deleting := true, itype := .free, nDeCacheEntry := 0, deCache := fun _ => none }

def recordsInode : LogType → Bool
  | .inodeCreate | .inodeUpdate | .unlink => true
  | _ => false

def commitLogTx (s : FS) (h : List Entry) : FS :=
  ⟨fun i => commitLog (s.inode i) h,
   fun i => s.bitmap i && !(h.any fun e => recordsInode e.type && e.inodeNo == i && (s.inode i).deleting)⟩

def createExisting (s : FS) (ip : Nat) (type : Itype) : FS × List Entry :=
  let i := { s.inode ip with itype := type }
  (s.put i,iupdate i [])

/- `hit` is what `dlookup_find` has for the path; `dir` and `name` are what `nameiparent` makes
of it. -/
def mlfsObjectCreate (s : FS) (hit : Option Nat) (dir : Nat) (name : Name) (type : Itype) (inum : Nat) : FS × List Entry :=
  match hit with
  | some ip => createExisting s ip type
  | none =>
    match dirLookup (s.inode dir) name with
    | (p,some ip) => createExisting (s.put p) ip.inode type
    | (p,none) =>
      let s := s.put p
      let i := icreate s inum type
      let h := addToLoghdr [] .inodeCreate inum 0 sizeofDinode []
      let (i,h) := if type = .dir then dirAddLinks i h inum dir else (i,h)
      let s := ialloc s i
      let (s,h) := if type = .dir then (s.put (addLink (s.inode dir)),iupdate (addLink (s.inode dir)) h) else (s,h)
      let (p,h) := dirAddEntry (s.inode dir) h name inum
      (s.put p,h)

def mlfsPosixUnlink (s : FS) (dir : Nat) (name : Name) : FS × List Entry × Bool :=
  match dirRemoveEntry (s.inode dir) [] name with
  | (d,h,none) => (s.put d,h,false)
  | (d,h,some ip) => (idealloc (s.put d) ip,addToLoghdr h .unlink ip 0 sizeofDinode [],true)

def replaceTarget (s : FS) (newDir : Nat) (newName : Name) : FS × List Entry :=
  match dirRemoveEntry (s.inode newDir) [] newName with
  | (d,h,none) => (s.put d,h)
  | (d,h,some ip) => (idealloc (s.put d) ip,addToLoghdr h .unlink ip 0 sizeofDinode [])

def renameWithin (s : FS) (h : List Entry) (dir : Nat) (oldName newName : Name) : FS × List Entry × Bool :=
  match dirChangeEntry (s.inode dir) h oldName newName with
  | (d,h,none) => (s.put d,h,false)
  | (d,h,some _) => (s.put d,h,true)

def renameAcross (s : FS) (h : List Entry) (oldDir : Nat) (oldName : Name) (newDir : Nat) (newName : Name) :
    FS × List Entry × Bool :=
  match dirRemoveEntry (s.inode oldDir) h oldName with
  | (d,h,none) => (s.put d,h,false)
  | (d,h,some ip) =>
    let s := s.put d
    let (d,h) := dirAddEntry (s.inode newDir) h newName ip
    (s.put d,h,true)

def mlfsPosixRename (s : FS) (oldDir : Nat) (oldName : Name) (newDir : Nat) (newName : Name) :
    Option (FS × List Entry × Bool) :=
  let (s,h) := replaceTarget s newDir newName
  if (s.inode oldDir).deleting ∨ (s.inode newDir).deleting then none
  else if newDir = oldDir then some (renameWithin s h newDir oldName newName)
  else some (renameAcross s h oldDir oldName newDir newName)

def endTx (r : FS × List Entry × Bool) : Option (FS × Bool) :=
  if r.2.1.length ≤ gMaxBlocksPerOperation then some (if r.2.2 then commitLogTx r.1 r.2.1 else r.1,r.2.2) else none

structure Whole (s : FS) (h : List Entry) (E : Nat → Option (List MlfsDirent)) : Prop where
  inums : ∀ i, (s.inode i).inum = i
  dirs : ∀ i es, E i = some es → (s.inode i).itype = .dir ∧ (s.inode i).deleting = false ∧ s.bitmap i = true ∧ Holds (s.inode i) h es
  others : ∀ i, E i = none → (s.inode i).itype ≠ .dir

@[simp] theorem putSelf (s : FS) (d : Inode) : (s.put d).inode d.inum = d := if_pos rfl
theorem putHere {s : FS} {d : Inode} {k : Nat} (inum : d.inum = k) : (s.put d).inode k = d := inum ▸ putSelf s d
theorem putOther {s : FS} {d : Inode} {i : Nat} (other : i ≠ d.inum) : (s.put d).inode i = s.inode i := if_neg other
theorem putInode {s : FS} {k : Nat} (inum : (s.inode k).inum = k) : s.put (s.inode k) = s := by
  have same : (fun i => if i = (s.inode k).inum then s.inode k else s.inode i) = s.inode := by
    funext i
    split
    · rename_i here; rw [here,inum]
    · rfl
  exact congrArg (fun inode => { s with inode }) same

section Steps
variable {s : FS} {h more : List Entry} {E : Nat → Option (List MlfsDirent)} {es : List MlfsDirent}

section
variable (whole : Whole s h E)
include whole

theorem wholePut {d : Inode} {k : Nat} {es'} (known : E k = some es) (holds : Holds d (h ++ more) es')
    (inum : d.inum = k) (itype : d.itype = .dir) (alive : d.deleting = false)
    (own : ∀ e ∈ more, e.inodeNo = k ∨ e.dirents = []) : Whole (s.put d) (h ++ more) (update E k (some es')) := by
  subst inum
  refine ⟨?_,?_,?_⟩
  · intro i
    by_cases here : i = d.inum
    · rw [here,putSelf]
    · rw [putOther here]; exact whole.inums i
  · intro i fs found
    by_cases here : i = d.inum
    · subst here
      rw [update_self] at found
      rw [putSelf]
      cases found
      exact ⟨itype,alive,(whole.dirs _ _ known).2.2.1,holds⟩
    · rw [update_of_ne here] at found
      obtain ⟨dir,live,used,old⟩ := whole.dirs i fs found
      rw [putOther here]
      refine ⟨dir,live,used,foreignHolds old fun e mem mine => (own e mem).resolve_left ?_⟩
      rw [mine,whole.inums]
      exact here
  · intro i none
    by_cases here : i = d.inum
    · rw [here,update_self] at none; contradiction
    · rw [update_of_ne here] at none
      rw [putOther here]
      exact whole.others i none

theorem wholeGrow (more : List Entry) (plain : ∀ e ∈ more, e.dirents = []) : Whole s (h ++ more) E :=
  ⟨whole.inums,fun i es known => have ⟨dir,live,used,holds⟩ := whole.dirs i es known
    ⟨dir,live,used,foreignHolds holds fun e mem _ => plain e mem⟩,whole.others⟩

theorem wholeIdealloc (ip : Nat) : Whole (idealloc s ip) h (update E ip none) := by
  have inum := whole.inums ip
  unfold idealloc
  refine ⟨?_,?_,?_⟩
  · intro i
    by_cases here : i = ip
    · simp [FS.put,here,inum]
    · simp [FS.put,here,inum,whole.inums i]
  · intro i es known
    by_cases here : i = ip
    · rw [here,update_self] at known; contradiction
    · rw [update_of_ne here] at known
      simpa [FS.put,here,inum] using whole.dirs i es known
  · intro i none
    by_cases here : i = ip
    · simp [FS.put,here,inum]
    · rw [update_of_ne here] at none
      simpa [FS.put,here,inum] using whole.others i none

theorem wholeCommit : Whole (commitLogTx s h) [] E := by
  refine ⟨whole.inums,?_,whole.others⟩
  intro i es known
  obtain ⟨dir,live,used,holds⟩ := whole.dirs i es known
  exact ⟨dir,live,by simp [commitLogTx,used,live],commitHolds holds⟩

theorem wholeNew {d : Inode} {k : Nat} {v : Option (List MlfsDirent)} (more : List Entry)
    (inum : d.inum = k) (alive : d.deleting = false) (itype : d.itype = .dir ↔ v.isSome) (holds : ∀ es, v = some es → Holds d (h ++ more) es)
    (own : ∀ e ∈ more, e.inodeNo = k ∨ e.dirents = []) :
    Whole (ialloc s d) (h ++ more) (update E k v) := by
  subst inum
  refine ⟨?_,?_,?_⟩
  · intro i
    by_cases here : i = d.inum
    · simp [ialloc,here]
    · simp [ialloc,here,whole.inums i]
  · intro i es known
    by_cases here : i = d.inum
    · subst here
      rw [update_self] at known
      simpa [ialloc,alive,itype,known] using holds es known
    · rw [update_of_ne here] at known
      obtain ⟨dir,live,used,old⟩ := whole.dirs i es known
      simp only [ialloc,here,if_false]
      refine ⟨dir,live,used,foreignHolds old fun e mem mine => (own e mem).resolve_left ?_⟩
      rw [mine,whole.inums]
      exact here
  · intro i none
    by_cases here : i = d.inum
    · subst here
      rw [update_self] at none
      simp [ialloc,itype,none]
    · rw [update_of_ne here] at none
      simpa [ialloc,here] using whole.others i none

end

theorem updateSame {k : Nat} (known : E k = some es) : update E k (some es) = E := by
  rw [← known,update_eq_self]

variable {k i ip : Nat} {name : Name}

theorem recachedWhole {cache : Name → Option DirentData} {n : Nat} (whole : Whole s h E) (known : E k = some es)
    (after : Holds (recached (s.inode k) cache n) h es) : Whole (s.put (recached (s.inode k) cache n)) h E := by
  obtain ⟨dir,live,_,_⟩ := whole.dirs k es known
  rw [← List.append_nil h] at after
  have put := wholePut whole known after (whole.inums k) dir live nofun
  rwa [List.append_nil,updateSame known] at put

theorem removeWhole (whole : Whole s h E) (known : E k = some es) (settled : Foreign k h) (low : 2 ≤ i)
    (here : es[i]? = some ⟨ip,name⟩) :
    ∃ cache n more, let d := { recached (s.inode k) cache n with size := (s.inode k).size - sizeofDirent }
    dirRemoveEntry (s.inode k) h name = (d,h ++ more,some ip) ∧
    Whole (s.put d) (h ++ more) (update E k (some (swapRemove es i))) ∧
    more.length = (if i + 1 < es.length then 2 else 1) ∧ (∀ e ∈ more, e.inodeNo = k) ∧
    (i + 1 = es.length → n + 3 = es.length) := by
  obtain ⟨dir,live,_,holds⟩ := whole.dirs k es known
  have inum := whole.inums k
  have seen : (s.inode k).file = current (s.inode k) h := by
    have same : current (s.inode k) ([] ++ h) = current (s.inode k) [] := foreignCurrent (by rw [inum]; exact settled)
    exact same.symm
  obtain ⟨cache,n,more,removed,after,length,own,full⟩ := removeFound holds (by rw [seen]) low here
  rw [inum] at own
  have put := wholePut whole known after inum dir live (fun e mem => .inl (own e mem))
  exact ⟨cache,n,more,removed,put,length,own,full⟩

theorem addShape (d : Inode) (h : List Entry) (name : Name) (ip : Nat) :
    (dirAddEntry d h name ip).1.inum = d.inum ∧ (dirAddEntry d h name ip).2.length = h.length + 1 := by
  simp only [dirAddEntry,deCacheAdd,addToLog]
  split <;> simp [addToLoghdr]

theorem addWhole (whole : Whole s h E) (known : E k = some es) (full : (s.inode k).nDeCacheEntry + 2 = es.length)
    (plain : ¬Dots name) (fresh : Absent es name) (ip : Nat) :
    let r := dirAddEntry (s.inode k) h name ip
    Whole (s.put r.1) r.2 (update E k (some (es ++ [⟨ip,name⟩]))) := by
  obtain ⟨dir,live,_,holds⟩ := whole.dirs k es known
  have after := addHolds holds full plain fresh ip
  rw [addEq plain] at after ⊢
  simp only [addToLoghdr] at after ⊢
  refine wholePut whole known after (whole.inums k) dir live ?_
  intro e mem
  cases mem_singleton.mp mem
  exact .inl (whole.inums k)

theorem linkWhole (whole : Whole s h E) (known : E k = some es) :
    Whole (s.put (addLink (s.inode k))) (iupdate (addLink (s.inode k)) h) E := by
  obtain ⟨dir,live,_,holds⟩ := whole.dirs k es known
  have foreign : Foreign (s.inode k).inum [⟨.inodeUpdate,(s.inode k).inum,0,sizeofDinode,[]⟩] := by simp [Foreign]
  have grown := foreignHolds holds foreign
  have put := wholePut (d := addLink (s.inode k)) whole known
    ⟨grown.size,grown.slots,grown.seen,grown.names,grown.links,grown.count,grown.cache⟩ (whole.inums k) dir live (by simp)
  rwa [updateSame known] at put

end Steps

def table (es : List MlfsDirent) : Name → Option Nat := fun n => (es.find? fun e => e.name = n).map MlfsDirent.inum

section Tables
variable {es : List MlfsDirent} {i ip : Nat} {name newname : Name}

theorem tableIff (names : (es.map MlfsDirent.name).Nodup) (n : Name) (ino : Nat) : table es n = some ino ↔ ⟨ino,n⟩ ∈ es := by
  simp only [table,Option.map_eq_some_iff]
  constructor
  · rintro ⟨e,found,rfl⟩
    have same := List.find?_some found
    simp only [decide_eq_true_eq] at same
    subst same
    exact List.mem_of_find?_eq_some found
  · intro mem
    cases found : es.find? fun e => e.name = n with
    | none =>
      have := List.find?_eq_none.mp found _ mem
      simp at this
    | some e =>
      have same := List.find?_some found
      simp only [decide_eq_true_eq] at same
      obtain ⟨a,there⟩ := List.mem_iff_getElem?.mp (List.mem_of_find?_eq_some found)
      obtain ⟨b,here⟩ := List.mem_iff_getElem?.mp mem
      cases sameSlot names there here same
      rw [there] at here
      exact ⟨e,rfl,congrArg MlfsDirent.inum (Option.some.inj here)⟩

theorem tableExt {es' : List MlfsDirent} {t : Name → Option Nat} (names : (es'.map MlfsDirent.name).Nodup)
    (same : ∀ n ino, ⟨ino,n⟩ ∈ es' ↔ t n = some ino) : table es' = t := by
  funext n
  refine Option.ext fun ino => ?_
  rw [tableIff names,same]

section
variable (names : (es.map MlfsDirent.name).Nodup)
include names

theorem tableRemove (here : es[i]? = some ⟨ip,name⟩) :
    table (swapRemove es i) = fun n => if n = name then none else table es n := by
  have perm := swapRemovePerm here
  have cons := (perm.map MlfsDirent.name).nodup_iff.mpr names
  rw [map_cons,nodup_cons] at cons
  refine tableExt cons.2 fun n ino => ?_
  by_cases same : n = name
  · simp only [same,if_true,reduceCtorEq,iff_false]
    exact fun mem => cons.1 (mem_map.mpr ⟨_,mem,rfl⟩)
  · rw [if_neg same,tableIff names,← perm.mem_iff,mem_cons]
    simp [same]

theorem tableAppend (fresh : Absent es name) :
    table (es ++ [⟨ip,name⟩]) = fun n => if n = name then some ip else table es n := by
  refine tableExt (appendNames names fresh) fun n ino => ?_
  by_cases same : n = name
  · simp only [List.mem_append,mem_singleton,same,MlfsDirent.mk.injEq,and_true,if_true,Option.some.injEq]
    constructor
    · exact fun mem => (mem.resolve_left fun old => fresh _ old rfl).symm
    · exact fun mem => .inr mem.symm
  · rw [if_neg same,tableIff names]
    simp [same]

theorem tableSet (here : es[i]? = some ⟨ip,name⟩) (fresh : Absent es newname) :
    table (es.set i ⟨ip,newname⟩) = fun n => if n = newname then some ip else if n = name then none else table es n := by
  have inside := slotInside here
  have whole : (⟨ip,name⟩::es.eraseIdx i).Perm es := by
    have perm := List.getElem_cons_eraseIdx_perm inside
    rwa [(List.getElem?_eq_some_iff.mp here).2] at perm
  have cons := (whole.map MlfsDirent.name).nodup_iff.mpr names
  rw [map_cons,nodup_cons] at cons
  have moved := List.set_perm_cons_eraseIdx inside (⟨ip,newname⟩ : MlfsDirent)
  refine tableExt (setNames names here (f := ⟨ip,newname⟩) fresh) fun n ino => ?_
  rw [moved.mem_iff,mem_cons]
  by_cases new : n = newname
  · subst new
    simp only [MlfsDirent.mk.injEq,and_true,if_true,Option.some.injEq]
    constructor
    · exact fun mem => (mem.resolve_right fun old => fresh _ (List.mem_of_mem_eraseIdx old) rfl).symm
    · exact fun mem => .inl mem.symm
  · rw [if_neg new]
    by_cases old : n = name
    · simp only [old,if_true,reduceCtorEq,iff_false,not_or]
      exact ⟨fun same => new (old.trans (congrArg MlfsDirent.name same)),fun mem => cons.1 (mem_map.mpr ⟨_,mem,rfl⟩)⟩
    · rw [if_neg old,tableIff names,← whole.mem_iff,mem_cons]
      simp [new,old]

end

end Tables

/- The namespace in the abstract: the pairs of every directory, and what the operations do. -/
abbrev Pairs := Nat → Option (Name → Option Nat)

def resolve (A : Pairs) (dir : Nat) (name : Name) : Option Nat := (A dir).bind fun t => t name
def assign (A : Pairs) (dir : Nat) (name : Name) (ip : Option Nat) : Pairs :=
  Function.update A dir ((A dir).map fun t n => if n = name then ip else t n)

def linked (self parent : Nat) : Name → Option Nat :=
  fun n => if n = dot then some self else if n = dotdot then some parent else none

def specCreate (A : Pairs) (dir : Nat) (name : Name) (inum : Nat) : Pairs :=
  match resolve A dir name with
  | some _ => A
  | none => assign A dir name (some inum)

def specMkdir (A : Pairs) (dir : Nat) (name : Name) (inum : Nat) : Pairs :=
  match resolve A dir name with
  | some _ => A
  | none => Function.update (assign A dir name (some inum)) inum (some (linked inum dir))

def specUnlink (A : Pairs) (dir : Nat) (name : Name) : Pairs :=
  match resolve A dir name with
  | some ip => Function.update (assign A dir name none) ip none
  | none => A

def specRename (A : Pairs) (oldDir : Nat) (oldName : Name) (newDir : Nat) (newName : Name) : Pairs :=
  match resolve A oldDir oldName with
  | none => A
  | some ip =>
    if oldDir = newDir ∧ oldName = newName then A
    else
      let A := assign (assign (specUnlink A newDir newName) oldDir oldName none) newDir newName (some ip)
      if oldDir ≠ newDir ∧ (A ip).isSome then assign A ip dotdot (some newDir) else A

def pairs (s : FS) : Pairs := fun i =>
  if (s.inode i).itype = .dir then some (table (entries (s.inode i) [])) else none

inductive Action where
  | lookup (dir : Nat) (name : Name)
  | create (hit : Option Nat) (dir : Nat) (name : Name) (inum : Nat)
  | mkdir (hit : Option Nat) (dir : Nat) (name : Name) (inum : Nat)
  | unlink (dir : Nat) (name : Name)
  | rename (oldDir : Nat) (oldName : Name) (newDir : Nat) (newName : Name)
  | restart
  deriving DecidableEq, Repr

def success (r : Option (FS × Bool)) : Option FS := r.bind fun r => if r.2 then some r.1 else none

def IsDir (s : FS) (dir : Nat) : Prop := (s.inode dir).itype = .dir
deriving Decidable

def forget (d : Inode) : Inode := recached d (fun _ => none) 0

/- The successful operations, the lookups of path walks, and a new process, which starts with empty dentry
caches. `icreate` takes a number that the bitmap has free. -/
def stepFS (s : FS) : Action → Option FS
  | .lookup dir name => some (s.put (dirLookup (s.inode dir) name).1)
  | .create hit dir name inum =>
    if s.bitmap inum = false then
      let r := mlfsObjectCreate s hit dir name .file inum; success (endTx (r.1,r.2,true))
    else none
  | .mkdir hit dir name inum =>
    if s.bitmap inum = false then
      let r := mlfsObjectCreate s hit dir name .dir inum; success (endTx (r.1,r.2,true))
    else none
  | .unlink dir name => success (endTx (mlfsPosixUnlink s dir name))
  | .rename oldDir oldName newDir newName =>
    (mlfsPosixRename s oldDir oldName newDir newName).bind fun r => success (endTx r)
  | .restart => some { s with inode := fun i => forget (s.inode i) }

def spec (A : Pairs) : Action → Pairs
  | .lookup _ _ => A
  | .create _ dir name inum => specCreate A dir name inum
  | .mkdir _ dir name inum => specMkdir A dir name inum
  | .unlink dir name => specUnlink A dir name
  | .rename oldDir oldName newDir newName => specRename A oldDir oldName newDir newName
  | .restart => A

structure State where
  fs : FS
  abs : Pairs

def step (s : State) (a : Action) : Option State := (stepFS s.fs a).map fun fs => ⟨fs,spec s.abs a⟩

def rootino : Nat := 1
def mkfs : FS :=
  ⟨fun i => if i = rootino then opened rootino [⟨rootino,dot⟩,⟨rootino,dotdot⟩]
     else ⟨i,.free,0,0,false,0,fun _ => none,fun _ => ⟨0,noName⟩⟩,
   fun i => decide (i ≤ rootino)⟩
def init : State := ⟨mkfs,pairs mkfs⟩

structure Formed (d : Inode) : Prop where
  whole : d.size % sizeofDirent = 0
  names : ((entries d []).map MlfsDirent.name).Nodup
  inBlock : ∀ i, i < d.size / sizeofDirent →
    i * sizeofDirent / gBlockSizeBytes = (i * sizeofDirent + (sizeofDirent - 1)) / gBlockSizeBytes

structure Refined (s : State) : Prop where
  formed : ∀ i, IsDir s.fs i → Formed (s.fs.inode i)
  pairs : pairs s.fs = s.abs

def named (s : FS) (dir : Nat) (name : Name) (ok : Nat → Prop) : Prop :=
  ∀ e ∈ entries (s.inode dir) [], e.name = name → ok e.inum
instance (s dir name ok) [∀ i, Decidable (ok i)] : Decidable (named s dir name ok) := by unfold named; infer_instance

def ProperFS (s : FS) : Action → Prop
  | .lookup dir _ => IsDir s dir
  | .create hit dir name _ => IsDir s dir ∧ ¬Dots name ∧ (∀ ip ∈ hit, ⟨ip,name⟩ ∈ entries (s.inode dir) []) ∧
      named s dir name fun ip => (s.inode ip).itype = .file
  | .mkdir hit dir name _ => IsDir s dir ∧ ¬Dots name ∧ (∀ ip ∈ hit, ⟨ip,name⟩ ∈ entries (s.inode dir) []) ∧
      named s dir name fun ip => (s.inode ip).itype = .dir
  | .unlink dir _ => IsDir s dir
  | .rename oldDir oldName newDir newName => IsDir s oldDir ∧ IsDir s newDir ∧ ¬Dots newName ∧
      (oldDir ≠ newDir → named s oldDir oldName fun ip => (s.inode ip).itype ≠ .dir)
  | .restart => True
instance (s a) : Decidable (ProperFS s a) := by cases a <;> unfold ProperFS <;> infer_instance

def Proper (s : State) (a : Action) : Prop := ProperFS s.fs a
deriving Decidable

def pairsOf (E : Nat → Option (List MlfsDirent)) : Pairs := fun i => (E i).map table

theorem wholePairs {s E} (whole : Whole s [] E) : pairs s = pairsOf E := by
  funext i
  cases known : E i with
  | none => simp [pairs,pairsOf,known,whole.others i known]
  | some es =>
    obtain ⟨dir,_,_,holds⟩ := whole.dirs i es known
    simp [pairs,pairsOf,known,dir,holdsEntries holds]

theorem holdsFormed {d es} (holds : Holds d [] es) : Formed d := by
  refine ⟨?_,?_,?_⟩
  · rw [holds.size]; exact Nat.mul_mod_left ..
  · rw [holdsEntries holds]; exact holds.names
  · intro i _
    simp only [sizeofDirent,gBlockSizeBytes]
    omega

theorem missingAbsent {es name} (links : ∃ self parent rest, es = ⟨self,dot⟩::⟨parent,dotdot⟩::rest) (plain : ¬Dots name)
    (missing : Missing es name) : Absent es name := by
  intro e mem same
  obtain ⟨i,here⟩ := List.mem_iff_getElem?.mp mem
  obtain ⟨self,parent,rest,rfl⟩ := links
  match i, here with
  | 0, here => exact plain (.inl (same ▸ (congrArg MlfsDirent.name (Option.some.inj here)).symm))
  | 1, here => exact plain (.inr (same ▸ (congrArg MlfsDirent.name (Option.some.inj here)).symm))
  | i + 2, here => exact missing (i + 2) e (Nat.le_add_left _ _) here same

section Refine
variable {s t : FS} {E : Nat → Option (List MlfsDirent)} {es : List MlfsDirent} {dir inum : Nat} {name : Name}

theorem pairsUpdate (k : Nat) (v : Option (List MlfsDirent)) :
    pairsOf (update E k v) = update (pairsOf E) k (v.map table) := by
  funext i
  by_cases here : i = k
  · simp [pairsOf,here]
  · simp [pairsOf,here]

theorem resolveKnown (known : E dir = some es) (name : Name) : resolve (pairsOf E) dir name = table es name := by
  simp [resolve,pairsOf,known]

theorem assignKnown (known : E dir = some es) (name : Name) (v : Option Nat) : assign (pairsOf E) dir name v =
    update (pairsOf E) dir (some fun n => if n = name then v else table es n) := by
  simp [assign,pairsOf,known]

theorem assignSome {A : Pairs} {t : Name → Option Nat} (known : A dir = some t) (name : Name) (v : Option Nat) :
    assign A dir name v = update A dir (some fun n => if n = name then v else t n) := by
  simp [assign,known]

theorem absentTable (names : (es.map MlfsDirent.name).Nodup) (absent : Absent es name) : table es name = none := by
  rw [Option.eq_none_iff_forall_ne_some]
  intro ip found
  exact absent _ ((tableIff names name ip).mp found) rfl

theorem knownDir (whole : Whole s [] E) (isDir : IsDir s dir) : ∃ es, E dir = some es := by
  cases known : E dir with
  | none => exact absurd isDir (whole.others dir known)
  | some es => exact ⟨es,rfl⟩

theorem endTxSome {r : FS × List Entry × Bool} (done : success (endTx r) = some t) :
    r.2.1.length ≤ gMaxBlocksPerOperation ∧ r.2.2 = true ∧ t = commitLogTx r.1 r.2.1 := by
  unfold success endTx at done
  split at done <;> try contradiction
  rename_i fits
  cases ok : r.2.2 with
  | false => simp [ok] at done
  | true =>
    simp only [ok,if_true,Option.bind_some,Option.some.injEq] at done
    exact ⟨fits,rfl,done.symm⟩

theorem unlinkRefines (whole : Whole s [] E) (isDir : IsDir s dir) (done : stepFS s (.unlink dir name) = some t) :
    ∃ E', Whole t [] E' ∧ pairsOf E' = spec (pairsOf E) (.unlink dir name) := by
  obtain ⟨es,known⟩ := knownDir whole isDir
  obtain ⟨_,_,_,holds⟩ := whole.dirs dir es known
  obtain ⟨_,ok,rfl⟩ := endTxSome done
  rcases foundOrMissing es name with missing | ⟨i,ip,low,here⟩
  · obtain ⟨cache,n,removed,_⟩ := removeMissing holds missing
    simp [mlfsPosixUnlink,removed] at ok
  · obtain ⟨cache,n,more,removed,after,_⟩ := removeWhole whole known nofun low here
    have gone := wholeIdealloc after ip
    have logged := wholeGrow gone [⟨.unlink,ip,0,sizeofDinode,[]⟩] (by simp)
    simp only [mlfsPosixUnlink,removed]
    refine ⟨_,wholeCommit logged,?_⟩
    have found : table es name = some ip := (tableIff holds.names name ip).mpr (mem_of_getElem? here)
    simp only [spec,specUnlink,resolveKnown known,found,assignKnown known,pairsUpdate,Option.map_none,Option.map_some,
      tableRemove holds.names here]

theorem existingWhole {type ip} (whole : Whole s [] E) (same : (s.inode ip).itype = type) :
    ∃ h t, createExisting s ip type = (t,h) ∧ Whole t h E := by
  refine ⟨_,_,rfl,?_⟩
  rw [← same,putInode (whole.inums ip)]
  exact wholeGrow whole _ (by simp)

theorem createFound {type i ip} (whole : Whole s [] E) (known : E dir = some es) (low : 2 ≤ i) (here : es[i]? = some ⟨ip,name⟩)
    (same : (s.inode ip).itype = type) (inum : Nat) :
    ∃ h t, mlfsObjectCreate s none dir name type inum = (t,h) ∧ Whole t h E := by
  obtain ⟨_,_,_,holds⟩ := whole.dirs dir es known
  obtain ⟨cache,n,looked,after,_⟩ := lookupFound holds low here
  have put := recachedWhole whole known after
  have kept : ((s.put (recached (s.inode dir) cache n)).inode ip).itype = type := by
    by_cases self : ip = dir
    · subst self
      rw [putHere (show (recached (s.inode ip) cache n).inum = ip from whole.inums ip)]
      exact same
    · rw [putOther (show ip ≠ (recached (s.inode dir) cache n).inum from (whole.inums dir).symm ▸ self)]
      exact same
  simp only [mlfsObjectCreate,looked]
  exact existingWhole put kept

theorem linksHolds {d : Inode} (h : List Entry) (parent : Nat) (small : d.size = 0) (n : d.nDeCacheEntry = 0)
    (empty : d.deCache = fun _ => none) :
    Holds (dirAddLinks d h d.inum parent).1 (dirAddLinks d h d.inum parent).2 [⟨d.inum,dot⟩,⟨parent,dotdot⟩] := by
  have shown : current d (dirAddLinks d h d.inum parent).2 =
      writeDirents (current d h) 0 [⟨d.inum,dot⟩,⟨parent,dotdot⟩] := by
    simp [dirAddLinks,addToLog,addToLoghdr,currentAppend]
  have names : [dot,dotdot].Nodup := by decide
  refine ⟨?_,?_,?_,names,⟨_,_,_,rfl⟩,?_,?_⟩
  · simp [dirAddLinks,addToLog,small,sizeofDirent]
  · intro i e here
    refine (congrFun shown _).trans ?_
    rcases i with _ | _ | i
    · simpa [writeDirents,sizeofDirent] using here
    · simpa [writeDirents,sizeofDirent] using here
    · simp at here
  · intro i low high
    simp only [dirAddLinks,addToLog,n,List.length_cons,List.length_nil] at low high
    omega
  · simp [dirAddLinks,addToLog,n]
  · intro name inode offset
    simp only [dirAddLinks,addToLog,empty,n,reduceCtorEq,false_iff,prefixed]
    omega

theorem newDirWhole (whole : Whole s [] E) (inum parent : Nat) :
    let r := dirAddLinks (icreate s inum .dir) (addToLoghdr [] .inodeCreate inum 0 sizeofDinode []) inum parent
    Whole (ialloc s r.1) r.2 (update E inum (some [⟨inum,dot⟩,⟨parent,dotdot⟩])) := by
  intro r
  have linked : Holds r.1 r.2 [⟨inum,dot⟩,⟨parent,dotdot⟩] := linksHolds _ parent rfl rfl rfl
  exact wholeNew (d := r.1) whole r.2 rfl rfl (by simp [r,dirAddLinks,addToLog,icreate])
    (fun es same => by cases same; exact linked) (by simp [r,dirAddLinks,addToLog,addToLoghdr,icreate])

theorem createMissing {type} (whole : Whole s [] E) (known : E dir = some es) (missing : Missing es name) (plain : ¬Dots name)
    (free : s.bitmap inum = false) (kind : type = .dir ∨ type = .file) :
    ∃ h, ∃ t, mlfsObjectCreate s none dir name type inum = (t,h) ∧ h.length = (if type = .dir then 4 else 2) ∧
    Whole t h (update (update E inum (if type = .dir then some [⟨inum,dot⟩,⟨dir,dotdot⟩] else none))
      dir (some (es ++ [⟨inum,name⟩]))) := by
  obtain ⟨isDir,live,used,holds⟩ := whole.dirs dir es known
  obtain ⟨cache,n,looked,after,full⟩ := lookupMissing holds missing
  have put := recachedWhole whole known after
  have other : dir ≠ inum := by rintro rfl; rw [used] at free; contradiction
  have fresh := missingAbsent holds.links plain missing
  have parent : (s.put (recached (s.inode dir) cache n)).inode dir = recached (s.inode dir) cache n :=
    putHere (whole.inums dir)
  simp only [mlfsObjectCreate,looked]
  generalize s.put (recached (s.inode dir) cache n) = s₁ at put parent ⊢
  rcases kind with rfl | rfl
  · have new := newDirWhole put inum dir
    dsimp only at new
    have again : update E inum (some [⟨inum,dot⟩,⟨dir,dotdot⟩]) dir = some es := by
      rw [update_of_ne other]; exact known
    simp only [if_true]
    generalize two : ialloc s₁ (dirAddLinks (icreate s₁ inum .dir)
      (addToLoghdr [] .inodeCreate inum 0 sizeofDinode []) inum dir).1 = s₂ at new ⊢
    have same : s₂.inode dir = recached (s.inode dir) cache n := by
      rw [← two,← parent]
      exact if_neg other
    have counted := linkWhole new again
    have grown : ((s₂.put (addLink (s₂.inode dir))).inode dir).nDeCacheEntry = n := by
      rw [putHere (show (addLink (s₂.inode dir)).inum = dir from new.inums dir)]
      simp [addLink,same,recached]
    have added := addWhole counted again (by rw [grown]; exact full) plain fresh inum
    refine ⟨_,_,rfl,?_,added⟩
    rw [(addShape ..).2]
    simp [iupdate,dirAddLinks,addToLog,addToLoghdr]
  · have new := wholeNew (d := icreate s₁ inum .file) (v := none) put
      (addToLoghdr [] .inodeCreate inum 0 sizeofDinode []) rfl rfl (by simp [icreate]) (by simp) (by simp [addToLoghdr])
    rw [nil_append] at new
    have again : update E inum none dir = some es := by rw [update_of_ne other]; exact known
    simp only [reduceCtorEq,if_false]
    generalize two : ialloc s₁ (icreate s₁ inum .file) = s₂ at new ⊢
    have same : s₂.inode dir = recached (s.inode dir) cache n := by
      rw [← two,← parent]
      exact if_neg other
    have added := addWhole new again (by rw [same]; exact full) plain fresh inum
    refine ⟨_,_,rfl,?_,added⟩
    rw [(addShape ..).2]
    simp [addToLoghdr]

theorem linksTable (self parent : Nat) : table [⟨self,dot⟩,⟨parent,dotdot⟩] = linked self parent := by
  funext n
  by_cases first : n = dot
  · subst first; rfl
  · by_cases second : n = dotdot
    · subst second; rfl
    · simp [table,linked,first,second,Ne.symm first,Ne.symm second]

theorem freeNone (whole : Whole s [] E) (free : s.bitmap inum = false) : E inum = none := by
  cases known : E inum with
  | none => rfl
  | some es => rw [(whole.dirs inum es known).2.2.1] at free; contradiction

theorem namedSlot {ok : Nat → Prop} {i ip : Nat} (holds : Holds (s.inode dir) [] es) (all : named s dir name ok)
    (here : es[i]? = some ⟨ip,name⟩) : ok ip :=
  all ⟨ip,name⟩ (by rw [holdsEntries holds]; exact mem_of_getElem? here) rfl

theorem createRefines {hit type} (whole : Whole s [] E) (kind : type = .dir ∨ type = .file) (isDir : IsDir s dir)
    (free : s.bitmap inum = false) (plain : ¬Dots name)
    (current : ∀ ip ∈ hit, ⟨ip,name⟩ ∈ entries (s.inode dir) [])
    (same : named s dir name fun ip => (s.inode ip).itype = type)
    (done : success (endTx ((mlfsObjectCreate s hit dir name type inum).1,(mlfsObjectCreate s hit dir name type inum).2,true)) = some t) :
    ∃ E', Whole t [] E' ∧ pairsOf E' = if type = .dir then specMkdir (pairsOf E) dir name inum
      else specCreate (pairsOf E) dir name inum := by
  obtain ⟨es,known⟩ := knownDir whole isDir
  obtain ⟨_,_,used,holds⟩ := whole.dirs dir es known
  have other : dir ≠ inum := by rintro rfl; rw [used] at free; contradiction
  obtain ⟨_,_,rfl⟩ := endTxSome done
  have existing {ip} (mem : ⟨ip,name⟩ ∈ es) : pairsOf E = if type = .dir then specMkdir (pairsOf E) dir name inum
      else specCreate (pairsOf E) dir name inum := by
    have found := (tableIff holds.names name ip).mpr mem
    simp only [specMkdir,specCreate,resolveKnown known,found]
    split <;> rfl
  cases hit with
  | some ip =>
    have mem : ⟨ip,name⟩ ∈ es := by rw [← holdsEntries holds]; exact current ip rfl
    obtain ⟨h,u,created,after⟩ := existingWhole whole (same _ (current ip rfl) rfl)
    simp only [mlfsObjectCreate,created]
    exact ⟨E,wholeCommit after,existing mem⟩
  | none =>
    rcases foundOrMissing es name with missing | ⟨i,ip,low,here⟩
    · obtain ⟨h,u,created,_,after⟩ := createMissing whole known missing plain free kind
      have fresh := missingAbsent holds.links plain missing
      have absent := absentTable holds.names fresh
      simp only [created]
      refine ⟨_,wholeCommit after,?_⟩
      simp only [specMkdir,specCreate,resolveKnown known,absent,assignKnown known,pairsUpdate,Option.map_some,
        tableAppend holds.names fresh]
      rcases kind with rfl | rfl
      · simp only [if_true,Option.map_some,linksTable]
        rw [update_comm other]
      · have unused : update (pairsOf E) inum none = pairsOf E := by
          have nothing : pairsOf E inum = none := by simp [pairsOf,freeNone whole free]
          rw [← nothing,update_eq_self]
        simp only [reduceCtorEq,if_false,Option.map_none,unused]
    · obtain ⟨h,u,created,after⟩ := createFound whole known low here (namedSlot holds same here) inum
      simp only [created]
      exact ⟨E,wholeCommit after,existing (mem_of_getElem? here)⟩

theorem specUnlinkFound {i ip} (holds : Holds (s.inode dir) [] es) (known : E dir = some es) (here : es[i]? = some ⟨ip,name⟩) :
    pairsOf (update (update E dir (some (swapRemove es i))) ip none) = specUnlink (pairsOf E) dir name := by
  have found : table es name = some ip := (tableIff holds.names name ip).mpr (mem_of_getElem? here)
  simp only [specUnlink,resolveKnown known,found,assignKnown known,pairsUpdate,Option.map_none,Option.map_some,
    tableRemove holds.names here]

structure Replaced (E : Nat → Option (List MlfsDirent)) (es : List MlfsDirent) (newDir : Nat) (newName : Name)
    (t : FS) (h : List Entry) (E' : Nat → Option (List MlfsDirent)) (es' : List MlfsDirent) : Prop where
  whole : Whole t h E'
  known : E' newDir = some es'
  pairs : pairsOf E' = specUnlink (pairsOf E) newDir newName
  sub : ∀ e ∈ es', e ∈ es
  fresh : Absent es' newName
  own : ∀ e ∈ h, e.inodeNo = newDir ∨ e.dirents = []
  cached : h.length ≤ 2 → (t.inode newDir).nDeCacheEntry + 2 = es'.length
  others : ∀ k, k ≠ newDir → E' k = E k ∨ E' k = none

theorem replaceMissing (whole : Whole s [] E) (known : E dir = some es) (missing : Missing es name) (plain : ¬Dots name) :
    ∃ cache n, replaceTarget s dir name = (s.put (recached (s.inode dir) cache n),[]) ∧
    Replaced E es dir name (s.put (recached (s.inode dir) cache n)) [] E es := by
  obtain ⟨_,_,_,holds⟩ := whole.dirs dir es known
  obtain ⟨cache,n,removed,after,full⟩ := removeMissing holds missing
  have fresh := missingAbsent holds.links plain missing
  refine ⟨cache,n,by simp only [replaceTarget,removed],recachedWhole whole known after,known,?_,fun _ mem => mem,fresh,
    by simp,fun _ => ?_,fun _ _ => .inl rfl⟩
  · simp only [specUnlink,resolveKnown known,absentTable holds.names fresh]
  · rw [putHere (show (recached (s.inode dir) cache n).inum = dir from whole.inums dir)]
    exact full

theorem ideallocSelf {ip : Nat} (inum : (s.inode ip).inum = ip) : (idealloc s ip).inode ip =
    { s.inode ip with size := 0, deleting := true, itype := .free, nDeCacheEntry := 0, deCache := fun _ => none } :=
  putHere inum

theorem ideallocOther {ip i : Nat} (inum : (s.inode ip).inum = ip) (other : i ≠ ip) : (idealloc s ip).inode i = s.inode i :=
  putOther (by simpa only [inum] using other)

theorem replaceFound {i ip} (whole : Whole s [] E) (known : E dir = some es) (low : 2 ≤ i) (here : es[i]? = some ⟨ip,name⟩) :
    ∃ t h, replaceTarget s dir name = (t,h) ∧ h.length = (if i + 1 < es.length then 3 else 2) ∧
    (t.inode ip).deleting = true ∧ (ip ≠ dir → (t.inode dir).size = (s.inode dir).size - sizeofDirent ∧
    Replaced E es dir name t h (update (update E dir (some (swapRemove es i))) ip none) (swapRemove es i)) := by
  obtain ⟨_,_,_,holds⟩ := whole.dirs dir es known
  obtain ⟨cache,n,more,removed,after,length,own,full⟩ :=
    removeWhole whole known nofun low here
  have perm := swapRemovePerm here
  have cons := (perm.map MlfsDirent.name).nodup_iff.mpr holds.names
  rw [map_cons,nodup_cons] at cons
  have inside := slotInside here
  have gone := wholeGrow (wholeIdealloc after ip) [⟨.unlink,ip,0,sizeofDinode,[]⟩] (by simp)
  generalize changed : ({ recached (s.inode dir) cache n with size := (s.inode dir).size - sizeofDirent } : Inode) = d
    at removed after gone
  have inum : d.inum = dir := by rw [← changed]; exact whole.inums dir
  have counted : ([] ++ more ++ [(⟨.unlink,ip,0,sizeofDinode,[]⟩ : Entry)]).length = if i + 1 < es.length then 3 else 2 := by
    simp only [nil_append,List.length_append,length,List.length_singleton]
    split <;> rfl
  refine ⟨_,_,by simp only [replaceTarget,removed]; rfl,counted,by rw [ideallocSelf (after.inums ip)],?_⟩
  intro other
  have left : (idealloc (s.put d) ip).inode dir = d := by rw [ideallocOther (after.inums ip) other.symm,putHere inum]
  refine ⟨by rw [left,← changed],gone,?_,specUnlinkFound holds known here,
    fun e mem => perm.subset (.tail _ mem),?_,?_,?_,?_⟩
  · rw [update_of_ne other.symm,update_self]
  · exact fun e mem same => cons.1 (mem_map.mpr ⟨e,mem,same⟩)
  · intro e mem
    rcases memSnoc mem with old | rfl
    · exact .inl (own e old)
    · exact .inr rfl
  · intro short
    rw [counted] at short
    have last : i + 1 = es.length := by split at short <;> omega
    rw [left,← changed,swapRemoveLength]
    simp only [recached]
    have := full last
    omega
  · intro k far
    by_cases target : k = ip
    · rw [target,update_self]; exact .inr rfl
    · rw [update_of_ne target,update_of_ne far]; exact .inl rfl

theorem withinWhole {h ip} {j : Nat} (whole : Whole s h E) (known : E dir = some es) (low : 2 ≤ j)
    (here : es[j]? = some ⟨ip,name⟩) (newname : Name) :
    ∃ t h', renameWithin s h dir name newname = (t,h',true) ∧ h'.length = h.length + 1 ∧
    (t.inode dir).size = (s.inode dir).size ∧ current (t.inode dir) h' (j * sizeofDirent) = ⟨ip,newname⟩ ∧
    (¬Dots newname → Absent es newname → Whole t h' (update E dir (some (es.set j ⟨ip,newname⟩)))) := by
  obtain ⟨isDir,live,_,holds⟩ := whole.dirs dir es known
  obtain ⟨cache,n,changed,after⟩ := changeFound holds low here newname
  have put : (s.put (recached (s.inode dir) cache n)).inode dir = recached (s.inode dir) cache n := putHere (whole.inums dir)
  simp only [renameWithin,changed]
  refine ⟨_,_,rfl,by simp [addToLoghdr],by rw [put]; rfl,?_,fun plain fresh => ?_⟩
  · rw [put]
    exact (@currentLogged (recached (s.inode dir) cache n) h .dirRename _ sizeofDirent ⟨ip,newname⟩ (.inr rfl) _).trans (if_pos rfl)
  · refine wholePut whole known (after plain fresh) (whole.inums dir) isDir live ?_
    intro e mem
    cases mem_singleton.mp mem
    exact .inl (whole.inums dir)

theorem acrossWhole {h oldDir oldName os ip} {j : Nat} (whole : Whole s h E) (apart : dir ≠ oldDir) (known : E dir = some es)
    (source : E oldDir = some os) (settled : Foreign oldDir h) (low : 2 ≤ j) (here : os[j]? = some ⟨ip,oldName⟩) (name : Name) :
    ∃ t h', renameAcross s h oldDir oldName dir name = (t,h',true) ∧
    h'.length = h.length + (if j + 1 < os.length then 3 else 2) ∧ (t.inode oldDir).size = (s.inode oldDir).size - sizeofDirent ∧
    (¬Dots name → Absent es name → (s.inode dir).nDeCacheEntry + 2 = es.length →
      Whole t h' (update (update E oldDir (some (swapRemove os j))) dir (some (es ++ [⟨ip,name⟩])))) := by
  obtain ⟨cache,n,more,removed,after,length,_⟩ := removeWhole whole source settled low here
  have again : update E oldDir (some (swapRemove os j)) dir = some es := by
    rw [update_of_ne apart]; exact known
  generalize changed : ({ recached (s.inode oldDir) cache n with size := (s.inode oldDir).size - sizeofDirent } : Inode) = d
    at removed after
  have inum : d.inum = oldDir := by rw [← changed]; exact whole.inums oldDir
  have same : (s.put d).inode dir = s.inode dir := putOther (by rw [inum]; exact apart)
  simp only [renameAcross,removed]
  refine ⟨_,_,rfl,?_,?_,fun plain fresh full => addWhole after again (by rw [same]; exact full) plain fresh ip⟩
  · rw [(addShape ..).2,List.length_append,length]
    split <;> rfl
  · rw [putOther (by rw [(addShape ..).1,same,whole.inums]; exact apart.symm),putHere inum,← changed]

section
variable (whole : Whole s [] E)
include whole

theorem replaceWhole {oldDir os newDir newName} (plain : ¬Dots newName) (known : E newDir = some es)
    (knownOld : E oldDir = some os)
    (alive : ((replaceTarget s newDir newName).1.inode oldDir).deleting ≠ true ∧
      ((replaceTarget s newDir newName).1.inode newDir).deleting ≠ true) :
    ∃ s₁ h₁ E₁ es₁, replaceTarget s newDir newName = (s₁,h₁) ∧ Replaced E es newDir newName s₁ h₁ E₁ es₁ ∧
    (oldDir ≠ newDir → E₁ oldDir = some os) := by
  rcases foundOrMissing es newName with missing | ⟨i,ip,low,here⟩
  · obtain ⟨cache,n,replaced,facts⟩ := replaceMissing whole known missing plain
    exact ⟨_,_,_,_,replaced,facts,fun _ => knownOld⟩
  · obtain ⟨s₁,h₁,replaced,_,dead,facts⟩ := replaceFound whole known low here
    rw [replaced] at alive
    have notNew : ip ≠ newDir := fun same => alive.2 (same ▸ dead)
    have notOld : ip ≠ oldDir := fun same => alive.1 (same ▸ dead)
    refine ⟨_,_,_,_,replaced,(facts notNew).2,fun apart => ?_⟩
    rw [update_of_ne notOld.symm,update_of_ne apart]
    exact knownOld

theorem withinRefines {h oldName newName s₁ E₁ es₁} (known : E dir = some es) (plain : ¬Dots newName)
    (facts : Replaced E es dir newName s₁ h E₁ es₁) (ok : (renameWithin s₁ h dir oldName newName).2.2 = true) :
    ∃ E', Whole (commitLogTx (renameWithin s₁ h dir oldName newName).1 (renameWithin s₁ h dir oldName newName).2.1) [] E' ∧
    pairsOf E' = specRename (pairsOf E) dir oldName dir newName := by
  have holds := (whole.dirs dir es known).2.2.2
  have replaced := (facts.whole.dirs dir es₁ facts.known).2.2.2
  rcases foundOrMissing es₁ oldName with missing | ⟨j,ip,low,here⟩
  · obtain ⟨cache,n,changed,_⟩ := changeMissing replaced missing newName
    simp [renameWithin,changed] at ok
  · obtain ⟨t,h',moved,_,_,_,after⟩ := withinWhole facts.whole facts.known low here newName
    have found := (tableIff holds.names oldName ip).mpr (facts.sub _ (mem_of_getElem? here))
    have differ : oldName ≠ newName := fun same => facts.fresh _ (mem_of_getElem? here) same
    have cleared : (update (pairsOf E₁) dir (some fun n => if n = oldName then none else table es₁ n)) dir =
        some fun n => if n = oldName then none else table es₁ n := update_self ..
    simp only [moved]
    refine ⟨_,wholeCommit (after plain facts.fresh),?_⟩
    simp only [specRename,resolveKnown known,found,differ,and_false,if_false,ne_eq,not_true_eq_false,false_and,
      ← facts.pairs,assignKnown facts.known,assignSome cleared,update_idem,pairsUpdate,Option.map_some,
      tableSet replaced.names here facts.fresh]

theorem acrossRefines {h oldDir oldName os s₁ E₁ es₁} (apart : oldDir ≠ dir) (known : E dir = some es)
    (knownOld : E oldDir = some os) (plain : ¬Dots name) (file : named s oldDir oldName fun ip => (s.inode ip).itype ≠ .dir)
    (facts : Replaced E es dir name s₁ h E₁ es₁) (kept : E₁ oldDir = some os)
    (few : (renameAcross s₁ h oldDir oldName dir name).2.1.length ≤ gMaxBlocksPerOperation)
    (ok : (renameAcross s₁ h oldDir oldName dir name).2.2 = true) :
    ∃ E', Whole (commitLogTx (renameAcross s₁ h oldDir oldName dir name).1 (renameAcross s₁ h oldDir oldName dir name).2.1) [] E' ∧
    pairsOf E' = specRename (pairsOf E) oldDir oldName dir name := by
  have holds := (whole.dirs oldDir os knownOld).2.2.2
  have source := (facts.whole.dirs oldDir os kept).2.2.2
  have settled : Foreign oldDir h := fun e mem mine => (facts.own e mem).resolve_left (by rw [mine]; exact apart)
  rcases foundOrMissing os oldName with missing | ⟨j,ip,low,here⟩
  · obtain ⟨cache,n,removed,_⟩ := removeMissing source missing
    simp [renameAcross,removed] at ok
  · obtain ⟨t,h',moved,counted,_,after⟩ := acrossWhole facts.whole apart.symm facts.known kept settled low here name
    have found := (tableIff holds.names oldName ip).mpr (mem_of_getElem? here)
    have notDir : E ip = none := by
      cases ipKnown : E ip with
      | none => rfl
      | some fs => exact absurd (whole.dirs ip fs ipKnown).1 (namedSlot holds file here)
    have notNew : ip ≠ dir := fun same => by rw [same,known] at notDir; contradiction
    have notOld : ip ≠ oldDir := fun same => by rw [same,knownOld] at notDir; contradiction
    have still : pairsOf E₁ ip = none := by
      rcases facts.others ip notNew with same | none
      · simp [pairsOf,same,notDir]
      · simp [pairsOf,none]
    have target : update (pairsOf E₁) oldDir (some fun n => if n = oldName then none else table os n) dir =
        some (table es₁) := by
      rw [update_of_ne apart.symm]; simp [pairsOf,facts.known]
    have short : h.length ≤ 2 := by
      rw [moved] at few
      simp only [counted,gMaxBlocksPerOperation] at few
      split at few <;> omega
    simp only [moved]
    refine ⟨_,wholeCommit (after plain facts.fresh (facts.cached short)),?_⟩
    simp only [specRename,resolveKnown knownOld,found,apart,false_and,if_false,ne_eq,not_false_eq_true,true_and,
      ← facts.pairs,assignKnown kept,assignSome target,pairsUpdate,Option.map_some,
      tableRemove source.names here,tableAppend (facts.whole.dirs dir es₁ facts.known).2.2.2.names facts.fresh]
    rw [if_neg]
    rw [update_of_ne notNew,update_of_ne notOld,still]
    simp

theorem renameRefines {oldDir oldName newDir newName}
    (proper : ProperFS s (.rename oldDir oldName newDir newName))
    (done : stepFS s (.rename oldDir oldName newDir newName) = some t) :
    ∃ E', Whole t [] E' ∧ pairsOf E' = spec (pairsOf E) (.rename oldDir oldName newDir newName) := by
  obtain ⟨oldIsDir,newIsDir,plain,file⟩ := proper
  obtain ⟨r,renamed,done⟩ := Option.bind_eq_some_iff.mp done
  obtain ⟨es,known⟩ := knownDir whole newIsDir
  obtain ⟨os,knownOld⟩ := knownDir whole oldIsDir
  obtain ⟨few,ok,rfl⟩ := endTxSome done
  simp only [mlfsPosixRename,Option.ite_none_left_eq_some,not_or] at renamed
  obtain ⟨alive,renamed⟩ := renamed
  obtain ⟨s₁,h₁,E₁,es₁,replaced,facts,kept⟩ := replaceWhole whole plain known knownOld alive
  rw [replaced] at renamed
  by_cases within : newDir = oldDir
  · subst within
    rw [if_pos rfl] at renamed
    cases renamed
    exact withinRefines whole known plain facts ok
  · have apart : oldDir ≠ newDir := Ne.symm within
    rw [if_neg within] at renamed
    cases renamed
    exact acrossRefines whole apart known knownOld plain (file apart) facts (kept apart) few ok

theorem lookupRefines (isDir : IsDir s dir) (name : Name) :
    Whole (s.put (dirLookup (s.inode dir) name).1) [] E := by
  obtain ⟨es,known⟩ := knownDir whole isDir
  obtain ⟨_,_,_,holds⟩ := whole.dirs dir es known
  obtain ⟨after,⟨cache,n,moved⟩,_⟩ := lookupAnswers name holds
  rw [moved] at after ⊢
  exact recachedWhole whole known after

theorem restartRefines : Whole { s with inode := fun i => forget (s.inode i) } [] E := by
  refine ⟨whole.inums,?_,whole.others⟩
  intro i es known
  obtain ⟨dir,live,used,holds⟩ := whole.dirs i es known
  have two : 2 ≤ es.length := by obtain ⟨_,_,_,rfl⟩ := holds.links; simp
  refine ⟨dir,live,used,holds.size,holds.slots,fun _ _ _ => rfl,holds.names,holds.links,two,?_⟩
  intro name inode offset
  simp only [forget,recached,reduceCtorEq,false_iff,prefixed]
  omega

theorem stepRefines {a} (proper : ProperFS s a) (done : stepFS s a = some t) :
    ∃ E', Whole t [] E' ∧ pairsOf E' = spec (pairsOf E) a := by
  cases a with
  | lookup dir name =>
    cases done
    exact ⟨E,lookupRefines whole proper name,rfl⟩
  | create hit dir name inum =>
    obtain ⟨isDir,plain,current,same⟩ := proper
    simp only [stepFS,Option.ite_none_right_eq_some] at done
    obtain ⟨free,done⟩ := done
    exact createRefines whole (.inr rfl) isDir free plain current same done
  | mkdir hit dir name inum =>
    obtain ⟨isDir,plain,current,same⟩ := proper
    simp only [stepFS,Option.ite_none_right_eq_some] at done
    obtain ⟨free,done⟩ := done
    exact createRefines whole (.inl rfl) isDir free plain current same done
  | unlink dir name => exact unlinkRefines whole proper done
  | rename oldDir oldName newDir newName => exact renameRefines whole proper done
  | restart =>
    cases done
    exact ⟨E,restartRefines whole,rfl⟩

end

end Refine

theorem mkfsWhole : Whole mkfs [] (fun i => if i = rootino then some [⟨rootino,dot⟩,⟨rootino,dotdot⟩] else none) := by
  have formed : WellFormed [⟨rootino,dot⟩,⟨rootino,dotdot⟩] := ⟨by decide,_,_,_,rfl⟩
  have root := openedHolds rootino formed
  refine ⟨?_,?_,?_⟩
  · intro i
    by_cases here : i = rootino <;> simp [mkfs,here,opened]
  · intro i es known
    by_cases here : i = rootino
    · subst here
      rw [if_pos rfl] at known
      cases known
      simp only [mkfs,if_true]
      exact ⟨rfl,rfl,by decide,root⟩
    · rw [if_neg here] at known; contradiction
  · intro i none
    by_cases here : i = rootino
    · rw [if_pos here] at none; contradiction
    · simp [mkfs,here]

theorem reachWhole {s} (reached : Reach step Proper init s) : ∃ E, Whole s.fs [] E ∧ pairsOf E = s.abs := by
  refine reachInvariant (fun s : State => ∃ E, Whole s.fs [] E ∧ pairsOf E = s.abs)
    ⟨_,mkfsWhole,(wholePairs mkfsWhole).symm⟩ ?_ reached
  rintro s a t ⟨E,whole,same⟩ proper taken
  obtain ⟨fs,done,rfl⟩ := Option.map_eq_some_iff.mp taken
  obtain ⟨E',after,agree⟩ := stepRefines whole proper done
  exact ⟨E',after,by rw [agree,same]⟩

theorem properRefined {s} (reached : Reach step Proper init s) : Refined s := by
  obtain ⟨E,whole,same⟩ := reachWhole reached
  refine ⟨fun i isDir => ?_,(wholePairs whole).trans same⟩
  obtain ⟨es,known⟩ := knownDir whole isDir
  exact holdsFormed (whole.dirs i es known).2.2.2

theorem properRefinedRenamed : ∃ s, Refined s ∧ resolve s.abs 3 (letter 'z') = some 5 ∧ resolve s.abs 2 (letter 'y') = none := by
  obtain ⟨s,reached,moved,gone⟩ : ∃ s, Reach step Proper init s ∧ resolve s.abs 3 (letter 'z') = some 5 ∧
      resolve s.abs 2 (letter 'y') = none :=
    traceReach [.mkdir none rootino (letter 'a') 2,.mkdir none rootino (letter 'b') 3,.create none 2 (letter 'x') 4,
       .create none 2 (letter 'y') 5,.create none 3 (letter 'z') 6,.restart,.unlink 2 (letter 'x'),
       .rename 2 (letter 'y') 3 (letter 'z')] (by decide +kernel)
  exact ⟨s,properRefined reached,moved,gone⟩

/- No lookup finds the links of a directory, so a create of `.` adds a second one. -/
theorem createsDotTwice : ¬∀ s, Reach step Any init s → Refined s := by
  intro claim
  obtain ⟨s,reached,isDir,names⟩ : ∃ s, Reach step Any init s ∧ IsDir s.fs 2 ∧
      (entries (s.fs.inode 2) []).map MlfsDirent.name = [dot,dotdot,dot] :=
    traceAny [.mkdir none rootino (letter 'a') 2,.create none 2 dot 3] (by decide +kernel)
  have once := ((claim s reached).formed 2 isDir).names
  rw [names] at once
  exact absurd once (by decide)

end LineFS.Namespace
