import Mathlib.Data.List.Nodup
import LineFS.Base.Run
import LineFS.Base.Swap
import LineFS.Config

/-! Directory files of LibFS and their dentry caches. Entries of 32 bytes are appended, renamed in place and
removed by moving the last one into the hole; a read sees the changes of a transaction after the commit.
`dir_lookup` takes the number of cached entries for a cached prefix. -/
namespace LineFS.Dirent
open Base

def dirSiz : Nat := 28
def sizeofDirent : Nat := 32
def sizeofDinode : Nat := 256

-- Longer names do not fit the buffers they are copied to.
abbrev Name := { n : List Char // n.length < dirSiz }
def dot : Name := ⟨['.'],by decide⟩
def dotdot : Name := ⟨['.','.'],by decide⟩
def noName : Name := ⟨[],by decide⟩

def Dots (name : Name) : Prop := name = dot ∨ name = dotdot
deriving Decidable

structure MlfsDirent where
  inum : Nat
  name : Name
  deriving DecidableEq, Repr

structure DirentData where
  inode : Nat
  offset : Nat
  deriving DecidableEq, Repr

inductive Itype where
  | free
  | dir
  | file
  deriving DecidableEq, Repr

structure Inode where
  inum : Nat
  itype : Itype
  size : Nat
  nlink : Nat
  deleting : Bool
  nDeCacheEntry : Nat
  deCache : Name → Option DirentData
  file : Nat → MlfsDirent

inductive LogType where
  | inodeCreate
  | inodeUpdate
  | dirAdd
  | dirRename
  | file
  | unlink
  | alloc
  deriving DecidableEq, Repr

structure Entry where
  type : LogType
  inodeNo : Nat
  data : Nat
  length : Nat
  dirents : List MlfsDirent
  deriving DecidableEq, Repr

def addToLoghdr (h : List Entry) (type : LogType) (inodeNo data length : Nat) (dirents : List MlfsDirent) : List Entry :=
  let offset := match type with
    | .file | .dirAdd | .dirRename => data
    | _ => 0
  h ++ [⟨type,inodeNo,offset,length,dirents⟩]

def addToLog (d : Inode) (h : List Entry) (des : List MlfsDirent) (off : Nat) (type : LogType) : Inode × List Entry :=
  let size := des.length * sizeofDirent
  ({ d with size := if 0 < size ∧ d.size < off + size then off + size else d.size },
   addToLoghdr h type d.inum off size des)

def iupdate (d : Inode) (h : List Entry) : List Entry := addToLoghdr h .inodeUpdate d.inum 0 sizeofDinode []
def itrunc (d : Inode) (h : List Entry) (length : Nat) : Inode × List Entry := ({ d with size := length },iupdate d h)

def deCacheFind (d : Inode) (name : Name) : Option DirentData := d.deCache name

def deCacheAdd (d : Inode) (name : Name) (inode offset : Nat) : Inode :=
  if Dots name then d
  else { d with deCache := fun n => if n = name then some ⟨inode,offset⟩ else d.deCache n
                nDeCacheEntry := d.nDeCacheEntry + 1 }

def deCacheDel (d : Inode) (name : Name) : Inode :=
  if (d.deCache name).isSome then
    { d with deCache := fun n => if n = name then none else d.deCache n, nDeCacheEntry := d.nDeCacheEntry - 1 }
  else d

def getDirent (d : Inode) (offset : Nat) : Option MlfsDirent :=
  if offset + sizeofDirent ≤ d.size then some (d.file offset) else none

def searchFrom (d : Inode) (name : Name) (off : Nat) : Nat → Inode × Option DirentData
  | 0 => (d,none)
  | rounds + 1 =>
    if off < d.size then
      match getDirent d off with
      | none => (d,none)
      | some de =>
        let d := deCacheAdd d de.name de.inum off
        if name = de.name then (d,some ⟨de.inum,off⟩) else searchFrom d name (off + sizeofDirent) rounds
    else (d,none)

def dirLookup (d : Inode) (name : Name) : Inode × Option DirentData :=
  match deCacheFind d name with
  | some found => (d,some found)
  | none =>
    let nDeCache := d.nDeCacheEntry + 2
    if nDeCache * sizeofDirent = d.size then (d,none)
    else searchFrom d name (nDeCache * sizeofDirent) d.size

def dirChangeEntry (d : Inode) (h : List Entry) (oldname newname : Name) : Inode × List Entry × Option Nat :=
  match dirLookup d oldname with
  | (d,none) => (d,h,none)
  | (d,some ip) =>
    let d := deCacheDel d oldname
    let (d,h) := addToLog d h [⟨ip.inode,newname⟩] ip.offset .dirRename
    (deCacheAdd d newname ip.inode ip.offset,h,some ip.inode)

def dirRemoveEntry (d : Inode) (h : List Entry) (name : Name) : Inode × List Entry × Option Nat :=
  match dirLookup d name with
  | (d,none) => (d,h,none)
  | (d,some ip) =>
    let d := deCacheDel d name
    let lastOff := d.size - sizeofDirent
    let (d,h) :=
      if ip.offset < lastOff then
        let last := (getDirent d lastOff).getD ⟨0,noName⟩
        let d := deCacheDel d last.name
        let (d,h) := addToLog d h [last] ip.offset .dirAdd
        (deCacheAdd d last.name last.inum ip.offset,h)
      else (d,h)
    let (d,h) := itrunc d h lastOff
    (d,h,some ip.inode)

def dirAddLinks (d : Inode) (h : List Entry) (inum parentInum : Nat) : Inode × List Entry :=
  addToLog d h [⟨inum,dot⟩,⟨parentInum,dotdot⟩] 0 .dirAdd

def dirAddEntry (d : Inode) (h : List Entry) (name : Name) (ip : Nat) : Inode × List Entry :=
  let off := d.size
  let (d,h) := addToLog d h [⟨ip,name⟩] off .dirAdd
  (deCacheAdd d name ip off,h)

def writeDirents (file : Nat → MlfsDirent) (off : Nat) : List MlfsDirent → Nat → MlfsDirent
  | [] => file
  | de::des => writeDirents (fun o => if o = off then de else file o) (off + sizeofDirent) des

def current (d : Inode) (h : List Entry) : Nat → MlfsDirent :=
  h.foldl (fun file e => if e.inodeNo = d.inum then writeDirents file e.data e.dirents else file) d.file

def commitLog (d : Inode) (h : List Entry) : Inode := { d with file := current d h }

def Caches (cache : Name → Option DirentData) (es : List MlfsDirent) (S : Nat → Prop) : Prop :=
  ∀ name inode offset, cache name = some ⟨inode,offset⟩ ↔
    ∃ i, S i ∧ offset = i * sizeofDirent ∧ es[i]? = some ⟨inode,name⟩

def prefixed (n : Nat) (i : Nat) : Prop := 2 ≤ i ∧ i < n + 2

structure Holds (d : Inode) (h : List Entry) (es : List MlfsDirent) : Prop where
  size : d.size = es.length * sizeofDirent
  slots : ∀ i e, es[i]? = some e → current d h (i * sizeofDirent) = e
  seen : ∀ i, d.nDeCacheEntry + 2 ≤ i → i < es.length → d.file (i * sizeofDirent) = current d h (i * sizeofDirent)
  names : (es.map MlfsDirent.name).Nodup
  links : ∃ self parent rest, es = ⟨self,dot⟩::⟨parent,dotdot⟩::rest
  count : d.nDeCacheEntry + 2 ≤ es.length
  cache : Caches d.deCache es (prefixed d.nDeCacheEntry)

theorem currentAppend (d : Inode) (h : List Entry) (e : Entry) : current d (h ++ [e]) =
    if e.inodeNo = d.inum then writeDirents (current d h) e.data e.dirents else current d h := by
  simp only [current,List.foldl_append,List.foldl_cons,List.foldl_nil]

theorem currentLogged {d : Inode} {h : List Entry} {type : LogType} {off n : Nat} {e : MlfsDirent}
    (offsets : type = .dirAdd ∨ type = .dirRename) (o : Nat) :
    current d (addToLoghdr h type d.inum off n [e]) o = if o = off then e else current d h o := by
  rcases offsets with rfl | rfl <;> simp [addToLoghdr,currentAppend,writeDirents]

theorem currentUpdated (d : Inode) (h : List Entry) : current d (iupdate d h) = current d h := by
  simp [iupdate,addToLoghdr,currentAppend,writeDirents]

section Slots
variable {es : List MlfsDirent} {i j : Nat} {e f : MlfsDirent}

theorem sameSlot (names : (es.map MlfsDirent.name).Nodup) (left : es[i]? = some e) (right : es[j]? = some f)
    (same : e.name = f.name) : i = j := by
  have inside : i < (es.map MlfsDirent.name).length := by
    rw [List.length_map]; exact (List.getElem?_eq_some_iff.mp left).1
  exact (List.getElem?_inj inside names).mp (by simp [left,right,same])

theorem notDots (names : (es.map MlfsDirent.name).Nodup) (links : ∃ self parent rest, es = ⟨self,dot⟩::⟨parent,dotdot⟩::rest)
    (low : 2 ≤ i) (found : es[i]? = some e) : ¬Dots e.name := by
  obtain ⟨self,parent,rest,rfl⟩ := links
  rintro (same | same)
  · have := sameSlot names found (j := 0) (f := ⟨self,dot⟩) rfl same; omega
  · have := sameSlot names found (j := 1) (f := ⟨parent,dotdot⟩) rfl same; omega

theorem cachesDel {cache S} (h : Caches cache es S) (names : (es.map MlfsDirent.name).Nodup) (found : es[i]? = some e) :
    Caches (fun n => if n = e.name then none else cache n) es (fun j => S j ∧ j ≠ i) := by
  intro name inode offset
  by_cases same : name = e.name
  · simp only [same,if_true,reduceCtorEq,false_iff]
    rintro ⟨j,⟨_,other⟩,_,here⟩
    exact other (sameSlot names here found rfl)
  · simp only [if_neg same,h name inode offset]
    constructor
    · rintro ⟨j,mem,at',here⟩
      refine ⟨j,⟨mem,?_⟩,at',here⟩
      rintro rfl
      rw [found] at here
      exact same (congrArg MlfsDirent.name (Option.some.inj here)).symm
    · rintro ⟨j,⟨mem,_⟩,at',here⟩
      exact ⟨j,mem,at',here⟩

theorem cachesAdd {cache S} (h : Caches cache es S) (names : (es.map MlfsDirent.name).Nodup) (found : es[i]? = some e) :
    Caches (fun n => if n = e.name then some ⟨e.inum,i * sizeofDirent⟩ else cache n) es (fun j => S j ∨ j = i) := by
  intro name inode offset
  by_cases same : name = e.name
  · subst same
    simp only [if_true,Option.some.injEq,DirentData.mk.injEq]
    constructor
    · rintro ⟨rfl,rfl⟩
      exact ⟨i,.inr rfl,rfl,found⟩
    · rintro ⟨j,_,rfl,here⟩
      cases sameSlot names here found rfl
      rw [found] at here
      rw [Option.some.inj here]
      exact ⟨rfl,rfl⟩
  · simp only [if_neg same,h name inode offset]
    constructor
    · rintro ⟨j,mem,at',here⟩
      exact ⟨j,.inl mem,at',here⟩
    · rintro ⟨j,mem,at',here⟩
      refine ⟨j,mem.resolve_right ?_,at',here⟩
      rintro rfl
      rw [found] at here
      exact same (congrArg MlfsDirent.name (Option.some.inj here)).symm

theorem cachesCongr {cache S T} {l : List MlfsDirent} (h : Caches cache es S) (slots : ∀ j, S j ↔ T j)
    (same : ∀ j, T j → es[j]? = l[j]?) : Caches cache l T := by
  intro name inode offset
  rw [h name inode offset]
  constructor
  · rintro ⟨j,mem,at',here⟩
    exact ⟨j,(slots j).mp mem,at',same j ((slots j).mp mem) ▸ here⟩
  · rintro ⟨j,mem,at',here⟩
    exact ⟨j,(slots j).mpr mem,at',(same j mem).symm ▸ here⟩

theorem cachesSome {cache S name} (h : Caches cache es S) :
    (cache name).isSome ↔ ∃ i e, S i ∧ es[i]? = some e ∧ e.name = name := by
  rw [Option.isSome_iff_exists]
  constructor
  · rintro ⟨⟨inode,offset⟩,hit⟩
    obtain ⟨i,mem,_,here⟩ := (h name inode offset).mp hit
    exact ⟨i,_,mem,here,rfl⟩
  · rintro ⟨i,e,mem,here,rfl⟩
    exact ⟨⟨e.inum,i * sizeofDirent⟩,(h _ _ _).mpr ⟨i,mem,rfl,here⟩⟩

end Slots

def recached (d : Inode) (cache : Name → Option DirentData) (n : Nat) : Inode :=
  { d with deCache := cache, nDeCacheEntry := n }

theorem deCacheDelEq (d : Inode) (name : Name) : deCacheDel d name =
    recached d (fun m => if m = name then none else d.deCache m) (d.nDeCacheEntry - if (d.deCache name).isSome then 1 else 0) := by
  unfold deCacheDel recached
  split
  · rfl
  · rename_i missing
    have same : (fun m => if m = name then none else d.deCache m) = d.deCache := by
      funext m
      split
      · rename_i here
        rw [here]
        exact (Option.not_isSome_iff_eq_none.mp missing).symm
      · rfl
    rw [same,Nat.sub_zero]

def Missing (es : List MlfsDirent) (name : Name) : Prop := ∀ (i : Nat) (e : MlfsDirent), 2 ≤ i → es[i]? = some e → e.name ≠ name

def Answers (d : Inode) (es : List MlfsDirent) (name : Name) : Option DirentData → Prop
  | some x => ∃ i, prefixed d.nDeCacheEntry i ∧ x.offset = i * sizeofDirent ∧ es[i]? = some ⟨x.inode,name⟩
  | none => d.nDeCacheEntry + 2 = es.length ∧ Missing es name

section Lookup
variable {d : Inode} {h : List Entry} {es : List MlfsDirent}

theorem holdsAdd {e} (holds : Holds d h es) (next : es[d.nDeCacheEntry + 2]? = some e) :
    Holds (deCacheAdd d e.name e.inum ((d.nDeCacheEntry + 2) * sizeofDirent)) h es ∧
    ∃ cache, deCacheAdd d e.name e.inum ((d.nDeCacheEntry + 2) * sizeofDirent) = recached d cache (d.nDeCacheEntry + 1) := by
  have plain := notDots holds.names holds.links (Nat.le_add_left _ _) next
  have inside := (List.getElem?_eq_some_iff.mp next).1
  have added := cachesAdd holds.cache holds.names next
  simp only [deCacheAdd,if_neg plain]
  refine ⟨⟨holds.size,holds.slots,fun i low => holds.seen i (by simp only at low; omega),holds.names,holds.links,?_,?_⟩,_,rfl⟩
  · simp only; omega
  · refine cachesCongr added (fun j => ?_) (fun _ _ => rfl)
    simp only [prefixed]
    omega

theorem cachedName {name i e} (holds : Holds d h es) (missing : d.deCache name = none) (mem : prefixed d.nDeCacheEntry i)
    (here : es[i]? = some e) : e.name ≠ name := by
  intro same
  have hit := (cachesSome holds.cache).mpr ⟨i,e,mem,here,same⟩
  simp [missing] at hit

theorem fullAnswers {name} (holds : Holds d h es) (missing : d.deCache name = none) (full : es.length ≤ d.nDeCacheEntry + 2) :
    Answers d es name none := by
  refine ⟨Nat.le_antisymm holds.count full,fun i e low here => cachedName holds missing ⟨low,?_⟩ here⟩
  have := (List.getElem?_eq_some_iff.mp here).1
  omega

theorem searchAnswers {name} (rounds : Nat) (holds : Holds d h es) (missing : d.deCache name = none)
    (enough : es.length ≤ d.nDeCacheEntry + 2 + rounds) :
    let r := searchFrom d name ((d.nDeCacheEntry + 2) * sizeofDirent) rounds
    Holds r.1 h es ∧ (∃ cache n, r.1 = recached d cache n) ∧ Answers r.1 es name r.2 := by
  induction rounds generalizing d with
  | zero =>
    have full := fullAnswers holds missing enough
    exact ⟨holds,⟨d.deCache,d.nDeCacheEntry,rfl⟩,full⟩
  | succ rounds ih =>
    have size := holds.size
    simp only [searchFrom]
    by_cases more : d.nDeCacheEntry + 2 < es.length
    · have next := List.getElem?_eq_getElem more
      have read : getDirent d ((d.nDeCacheEntry + 2) * sizeofDirent) = some es[d.nDeCacheEntry + 2] := by
        rw [getDirent,if_pos (by simp only [sizeofDirent] at *; omega),holds.seen _ (Nat.le_refl _) more,holds.slots _ _ next]
      obtain ⟨added,cache,moved⟩ := holdsAdd holds next
      rw [if_pos (by simp only [sizeofDirent] at *; omega),read]
      simp only
      rw [moved] at added ⊢
      by_cases same : name = es[d.nDeCacheEntry + 2].name
      · rw [if_pos same]
        exact ⟨added,⟨cache,_,rfl⟩,_,⟨Nat.le_add_left _ _,by simp [recached]⟩,rfl,same ▸ next⟩
      · rw [if_neg same]
        have shift : (d.nDeCacheEntry + 2) * sizeofDirent + sizeofDirent =
            ((recached d cache (d.nDeCacheEntry + 1)).nDeCacheEntry + 2) * sizeofDirent := by
          simp only [recached,sizeofDirent]; omega
        have still : (recached d cache (d.nDeCacheEntry + 1)).deCache name = none := by
          rw [← Option.not_isSome_iff_eq_none,cachesSome added.cache]
          rintro ⟨i,e,mem,here,rfl⟩
          by_cases old : i < d.nDeCacheEntry + 2
          · exact cachedName holds missing ⟨mem.1,old⟩ here rfl
          · have last : i = d.nDeCacheEntry + 2 := by simp only [prefixed,recached] at mem; omega
            rw [last,next] at here
            exact same (congrArg MlfsDirent.name (Option.some.inj here)).symm
        rw [shift]
        obtain ⟨good,⟨cache',n,cached⟩,answer⟩ := ih added still (by simp only [recached]; omega)
        exact ⟨good,⟨cache',n,cached⟩,answer⟩
    · have full := fullAnswers holds missing (Nat.le_of_not_lt more)
      rw [if_neg (by simp only [sizeofDirent] at *; omega)]
      exact ⟨holds,⟨d.deCache,d.nDeCacheEntry,rfl⟩,full⟩

theorem lookupAnswers (name : Name) (holds : Holds d h es) :
    Holds (dirLookup d name).1 h es ∧ (∃ cache n, (dirLookup d name).1 = recached d cache n) ∧
    Answers (dirLookup d name).1 es name (dirLookup d name).2 := by
  have same : d = recached d d.deCache d.nDeCacheEntry := rfl
  unfold dirLookup deCacheFind
  cases hit : d.deCache name with
  | some x =>
    obtain ⟨i,mem,offset,here⟩ := (holds.cache name x.inode x.offset).mp hit
    exact ⟨holds,⟨_,_,same⟩,i,mem,offset,here⟩
  | none =>
    have size := holds.size
    by_cases full : (d.nDeCacheEntry + 2) * sizeofDirent = d.size
    · simp only [if_pos full]
      exact ⟨holds,⟨_,_,same⟩,fullAnswers holds hit (by simp only [sizeofDirent] at *; omega)⟩
    · simp only [if_neg full]
      exact searchAnswers d.size holds hit (by simp only [sizeofDirent] at *; omega)

theorem lookupFound {name i ip} (holds : Holds d h es) (low : 2 ≤ i) (here : es[i]? = some ⟨ip,name⟩) :
    ∃ cache n, dirLookup d name = (recached d cache n,some ⟨ip,i * sizeofDirent⟩) ∧ Holds (recached d cache n) h es ∧
    prefixed n i ∧ (cache name).isSome := by
  obtain ⟨looked,⟨cache,n,moved⟩,answer⟩ := lookupAnswers name holds
  generalize dirLookup d name = r at looked moved answer
  obtain ⟨d₁,found⟩ := r
  cases found with
  | none => exact absurd rfl (answer.2 i _ low here)
  | some x =>
    obtain ⟨j,mem,place,there⟩ := answer
    cases sameSlot holds.names here there rfl
    rw [here] at there
    obtain ⟨inode,offset⟩ := x
    simp only [Option.some.injEq,MlfsDirent.mk.injEq,and_true] at there place
    simp only at moved looked mem
    subst moved there place
    exact ⟨cache,n,rfl,looked,mem,(cachesSome looked.cache).mpr ⟨i,_,mem,here,rfl⟩⟩

theorem lookupMissing {name} (holds : Holds d h es) (missing : Missing es name) :
    ∃ cache n, dirLookup d name = (recached d cache n,none) ∧ Holds (recached d cache n) h es ∧ n + 2 = es.length := by
  obtain ⟨looked,⟨cache,n,moved⟩,answer⟩ := lookupAnswers name holds
  generalize dirLookup d name = r at looked moved answer
  obtain ⟨d₁,found⟩ := r
  simp only at moved looked answer
  subst moved
  cases found with
  | none => exact ⟨cache,n,rfl,looked,answer.1⟩
  | some x =>
    obtain ⟨j,mem,_,there⟩ := answer
    exact absurd rfl (missing j _ mem.1 there)

theorem foundOrMissing (es : List MlfsDirent) (name : Name) :
    Missing es name ∨ ∃ (i ip : Nat), 2 ≤ i ∧ es[i]? = some ⟨ip,name⟩ := by
  by_cases missing : Missing es name
  · exact .inl missing
  · simp only [Missing,not_forall,not_not] at missing
    obtain ⟨i,e,low,here,rfl⟩ := missing
    exact .inr ⟨i,e.inum,low,here⟩

end Lookup

theorem slotInside {es : List MlfsDirent} {i e} (here : es[i]? = some e) : i < es.length := (List.getElem?_eq_some_iff.mp here).1

def Absent (es : List MlfsDirent) (name : Name) : Prop := ∀ e ∈ es, e.name ≠ name
deriving Decidable

section Changes
variable {d : Inode} {h : List Entry} {es : List MlfsDirent} {cache : Name → Option DirentData} {n inode off i : Nat}
  {name newname : Name} {e f : MlfsDirent}

theorem setNames (names : (es.map MlfsDirent.name).Nodup) (here : es[i]? = some e)
    (fresh : Absent es f.name) : ((es.set i f).map MlfsDirent.name).Nodup := by
  have inside := slotInside here
  have moved := (List.set_perm_cons_eraseIdx inside f).map MlfsDirent.name
  rw [moved.nodup_iff,List.map_cons,List.nodup_cons]
  constructor
  · intro mem
    obtain ⟨g,there,same⟩ := List.mem_map.mp mem
    exact fresh g (List.mem_of_mem_eraseIdx there) same
  · exact names.sublist ((List.eraseIdx_sublist es i).map _)

theorem setLinks (links : ∃ self parent rest, es = ⟨self,dot⟩::⟨parent,dotdot⟩::rest) (low : 2 ≤ i) :
    ∃ self parent rest, es.set i f = ⟨self,dot⟩::⟨parent,dotdot⟩::rest := by
  obtain ⟨self,parent,rest,rfl⟩ := links
  obtain ⟨k,rfl⟩ := Nat.exists_eq_add_of_le' low
  exact ⟨self,parent,rest.set k f,rfl⟩

theorem changeEq (looked : dirLookup d name = (recached d cache n,some ⟨inode,off⟩)) (hit : (cache name).isSome)
    (few : 0 < n) (inside : off + sizeofDirent ≤ d.size) (plain : ¬Dots newname) :
    dirChangeEntry d h name newname =
      (recached d (fun m => if m = newname then some ⟨inode,off⟩ else if m = name then none else cache m) n,
       addToLoghdr h .dirRename d.inum off sizeofDirent [⟨inode,newname⟩],some inode) := by
  have fixed : ¬d.size < off + sizeofDirent := Nat.not_lt.mpr inside
  have back : n - 1 + 1 = n := Nat.sub_add_cancel few
  simp only [dirChangeEntry,looked,deCacheDel,recached,hit,if_true,addToLog,List.length_singleton,Nat.one_mul,
    deCacheAdd,if_neg plain,fixed,and_false,if_false,back]

theorem changeHolds (holds : Holds (recached d cache n) h es) (mem : prefixed n i) (here : es[i]? = some ⟨inode,name⟩)
    (fresh : Absent es newname) :
    Holds (recached d (fun m => if m = newname then some ⟨inode,i * sizeofDirent⟩ else if m = name then none else cache m) n)
      (addToLoghdr h .dirRename d.inum (i * sizeofDirent) sizeofDirent [⟨inode,newname⟩]) (es.set i ⟨inode,newname⟩) := by
  have inside := slotInside here
  have names := setNames holds.names here (f := ⟨inode,newname⟩) fresh
  have there : (es.set i ⟨inode,newname⟩)[i]? = some ⟨inode,newname⟩ := by simp [inside]
  have logged := @currentLogged (recached d cache n) h .dirRename (i * sizeofDirent) sizeofDirent ⟨inode,newname⟩ (.inr rfl)
  have dropped := cachesDel holds.cache holds.names here
  have kept := cachesCongr (l := es.set i ⟨inode,newname⟩) dropped (fun _ => Iff.rfl)
    (fun j mem => by rw [List.getElem?_set_ne (Ne.symm mem.2)])
  have added := cachesAdd kept names there
  refine ⟨?_,?_,?_,names,setLinks holds.links mem.1,?_,?_⟩
  · rw [List.length_set]; exact holds.size
  · intro j g found
    refine (logged (j * sizeofDirent)).trans ?_
    by_cases same : j = i
    · subst same
      rw [there] at found
      rw [if_pos rfl,Option.some.inj found]
    · rw [if_neg (by simp only [sizeofDirent]; omega)]
      rw [List.getElem?_set_ne (Ne.symm same)] at found
      exact holds.slots j g found
  · intro j low high
    rw [List.length_set] at high
    refine (holds.seen j low high).trans (.trans ?_ (logged (j * sizeofDirent)).symm)
    have behind : n + 2 ≤ j := low
    have before := mem.2
    rw [if_neg (by simp only [sizeofDirent]; omega)]
  · rw [List.length_set]; exact holds.count
  · refine cachesCongr added (fun j => ?_) (fun _ _ => rfl)
    simp only [prefixed,recached] at mem ⊢
    omega

theorem addEq (plain : ¬Dots name) : dirAddEntry d h name inode =
    ({ recached d (fun m => if m = name then some ⟨inode,d.size⟩ else d.deCache m) (d.nDeCacheEntry + 1) with
       size := d.size + sizeofDirent },
     addToLoghdr h .dirAdd d.inum d.size sizeofDirent [⟨inode,name⟩]) := by
  have grows : 0 < sizeofDirent ∧ d.size < d.size + sizeofDirent := by simp only [sizeofDirent]; omega
  simp only [dirAddEntry,addToLog,List.length_singleton,Nat.one_mul,deCacheAdd,if_neg plain,recached,if_pos grows]

theorem appendNames (names : (es.map MlfsDirent.name).Nodup) (fresh : Absent es f.name) :
    ((es ++ [f]).map MlfsDirent.name).Nodup := by
  rw [List.map_append,List.map_singleton,List.nodup_append]
  refine ⟨names,List.nodup_singleton _,?_⟩
  intro a mem b last
  obtain ⟨g,there,rfl⟩ := List.mem_map.mp mem
  cases List.mem_singleton.mp last
  exact fresh g there

theorem addHolds (holds : Holds d h es) (full : d.nDeCacheEntry + 2 = es.length) (plain : ¬Dots name)
    (fresh : Absent es name) (inode : Nat) :
    Holds (dirAddEntry d h name inode).1 (dirAddEntry d h name inode).2 (es ++ [⟨inode,name⟩]) := by
  have size := holds.size
  have names := appendNames holds.names (f := ⟨inode,name⟩) fresh
  have there : (es ++ [⟨inode,name⟩])[es.length]? = some ⟨inode,name⟩ := List.getElem?_concat_length
  have logged := @currentLogged d h .dirAdd d.size sizeofDirent ⟨inode,name⟩ (.inl rfl)
  have kept := cachesCongr (l := es ++ [⟨inode,name⟩]) holds.cache (fun _ => Iff.rfl)
    (fun j mem => by rw [List.getElem?_append_left (by simp only [prefixed] at mem; omega)])
  have added := cachesAdd kept names there
  rw [addEq plain]
  refine ⟨?_,?_,?_,names,?_,?_,?_⟩
  · simp only [List.length_append,List.length_singleton,sizeofDirent] at *; omega
  · intro j g found
    refine (logged (j * sizeofDirent)).trans ?_
    have inside := slotInside found
    rw [List.length_append,List.length_singleton] at inside
    by_cases last : j = es.length
    · subst last
      rw [there] at found
      rw [if_pos size.symm,Option.some.inj found]
    · rw [if_neg (by simp only [sizeofDirent] at *; omega)]
      rw [List.getElem?_append_left (by omega)] at found
      exact holds.slots j g found
  · intro j low high
    simp only [recached,List.length_append,List.length_singleton] at low high
    omega
  · obtain ⟨self,parent,rest,rfl⟩ := holds.links
    exact ⟨self,parent,rest ++ [⟨inode,name⟩],rfl⟩
  · simp only [recached,List.length_append,List.length_singleton]; omega
  · rw [← size] at added
    refine cachesCongr added (fun j => ?_) (fun _ _ => rfl)
    simp only [prefixed,recached]
    omega

theorem removeLastEq (looked : dirLookup d name = (recached d cache n,some ⟨inode,off⟩)) (hit : (cache name).isSome)
    (last : d.size - sizeofDirent ≤ off) : dirRemoveEntry d h name =
      ({ recached d (fun m => if m = name then none else cache m) (n - 1) with size := d.size - sizeofDirent },
       iupdate d h,some inode) := by
  have stays : ¬off < d.size - sizeofDirent := Nat.not_lt.mpr last
  simp only [dirRemoveEntry,looked,deCacheDel,recached,hit,if_true,if_neg stays,itrunc,iupdate]

theorem removeMovedEq (looked : dirLookup d name = (recached d cache n,some ⟨inode,off⟩)) (hit : (cache name).isSome)
    (before : off + sizeofDirent ≤ d.size - sizeofDirent) (last : MlfsDirent) (read : d.file (d.size - sizeofDirent) = last)
    (plain : ¬Dots last.name) (other : last.name ≠ name) :
    dirRemoveEntry d h name =
      ({ recached d (fun m => if m = last.name then some ⟨last.inum,off⟩ else if m = last.name then none
           else if m = name then none else cache m) (n - 1 - (if (cache last.name).isSome then 1 else 0) + 1) with
         size := d.size - sizeofDirent },
       iupdate d (addToLoghdr h .dirAdd d.inum off sizeofDirent [last]),some inode) := by
  have moves : off < d.size - sizeofDirent := by simp only [sizeofDirent] at *; omega
  have fits : d.size - sizeofDirent + sizeofDirent ≤ d.size := by simp only [sizeofDirent] at *; omega
  have fixed : ¬d.size < off + sizeofDirent := by simp only [sizeofDirent] at *; omega
  simp only [dirRemoveEntry,looked,deCacheDelEq,recached,hit,if_true,if_pos moves,getDirent,if_pos fits,Option.getD_some,
    read,if_neg other,addToLog,List.length_singleton,Nat.one_mul,deCacheAdd,if_neg plain,fixed,and_false,if_false,itrunc,iupdate]

theorem removeNames (names : (es.map MlfsDirent.name).Nodup) (here : es[i]? = some e) :
    ((swapRemove es i).map MlfsDirent.name).Nodup := by
  have whole := ((swapRemovePerm here).map MlfsDirent.name).nodup_iff.mpr names
  rw [List.map_cons,List.nodup_cons] at whole
  exact whole.2

theorem removeLinks (links : ∃ self parent rest, es = ⟨self,dot⟩::⟨parent,dotdot⟩::rest) (low : 2 ≤ i) (inside : i < es.length) :
    ∃ self parent rest, swapRemove es i = ⟨self,dot⟩::⟨parent,dotdot⟩::rest := by
  obtain ⟨self,parent,rest,rfl⟩ := links
  have length := swapRemoveLength (⟨self,dot⟩::⟨parent,dotdot⟩::rest) i
  have first := swapRemoveGet inside 0
  have second := swapRemoveGet inside 1
  simp only [List.length_cons] at inside length first second
  rw [if_pos (by omega),if_neg (by omega)] at first second
  match swapped : swapRemove (⟨self,dot⟩::⟨parent,dotdot⟩::rest) i with
  | [] => simp [swapped] at first
  | [a] => simp [swapped] at second
  | a::b::more =>
    rw [swapped] at first second
    cases first
    cases second
    exact ⟨self,parent,more,swapped⟩

section
variable (holds : Holds d h es)
include holds

theorem removeHolds {d' : Inode} {h' : List Entry} (here : es[i]? = some e) (low : 2 ≤ i)
    (file : d'.file = d.file) (size : d'.size = d.size - sizeofDirent)
    (moved : ∀ j, j + 1 < es.length → current d' h' (j * sizeofDirent) =
      if j = i then current d h ((es.length - 1) * sizeofDirent) else current d h (j * sizeofDirent))
    (count : d'.nDeCacheEntry + 2 ≤ es.length - 1)
    (behind : d'.nDeCacheEntry + 3 = es.length ∨ d'.nDeCacheEntry = d.nDeCacheEntry ∧ i < d.nDeCacheEntry + 2)
    (cached : Caches d'.deCache (swapRemove es i) (prefixed d'.nDeCacheEntry)) : Holds d' h' (swapRemove es i) := by
  have inside := slotInside here
  have length := swapRemoveLength es i
  refine ⟨?_,?_,?_,removeNames holds.names here,removeLinks holds.links low inside,by rw [length]; exact count,cached⟩
  · rw [size,holds.size,length]; simp only [sizeofDirent]; omega
  · intro j g found
    rw [swapRemoveGet inside] at found
    split at found <;> try contradiction
    rename_i short
    rw [moved j short]
    split at found
    · rename_i same; rw [if_pos same]; exact holds.slots _ _ found
    · rename_i same; rw [if_neg same]; exact holds.slots _ _ found
  · intro j low high
    rw [length] at high
    rw [moved j (by omega),file]
    rcases behind with full | ⟨same,before⟩
    · omega
    · rw [same] at low
      rw [if_neg (by omega)]
      exact holds.seen j low (by omega)

theorem removeFound {ip} (settled : d.file (d.size - sizeofDirent) = current d h (d.size - sizeofDirent))
    (low : 2 ≤ i) (here : es[i]? = some ⟨ip,name⟩) :
    ∃ cache n more, dirRemoveEntry d h name = ({ recached d cache n with size := d.size - sizeofDirent },h ++ more,some ip) ∧
    Holds { recached d cache n with size := d.size - sizeofDirent } (h ++ more) (swapRemove es i) ∧
    more.length = (if i + 1 < es.length then 2 else 1) ∧ (∀ e ∈ more, e.inodeNo = d.inum) ∧
    (i + 1 = es.length → n + 3 = es.length) := by
  obtain ⟨cache,n,looked,after,mem,hit⟩ := lookupFound holds low here
  have inside := slotInside here
  have size := holds.size
  have many := after.count
  have whole : Caches cache es (prefixed n) := after.cache
  have last : d.size - sizeofDirent = (es.length - 1) * sizeofDirent := by simp only [sizeofDirent] at *; omega
  simp only [recached] at many
  have dropped := cachesDel whole after.names here
  simp only [prefixed] at mem
  by_cases moves : i + 1 < es.length
  · obtain ⟨e,there⟩ : ∃ e, es[es.length - 1]? = some e := ⟨_,List.getElem?_eq_getElem (by omega)⟩
    have read : d.file (d.size - sizeofDirent) = e := by rw [settled,last]; exact holds.slots _ _ there
    have plain := notDots holds.names holds.links (by omega : 2 ≤ es.length - 1) there
    have other : e.name ≠ name := fun same => by have := sameSlot holds.names there here same; omega
    have cached : (cache e.name).isSome ↔ n + 2 = es.length := by
      rw [cachesSome whole]
      constructor
      · rintro ⟨j,f,mem,found,same⟩
        cases sameSlot holds.names found there same
        simp only [prefixed] at mem
        omega
      · exact fun full => ⟨es.length - 1,e,⟨by omega,by omega⟩,there,rfl⟩
    have hole : (swapRemove es i)[i]? = some e := by rw [swapRemoveGet inside,if_pos moves,if_pos rfl,there]
    have twice := cachesDel dropped after.names there
    have rest := cachesCongr (l := swapRemove es i) twice (fun _ => Iff.rfl) (fun j mem => by
      simp only [prefixed] at mem
      rw [swapRemoveGet inside,if_pos (by omega),if_neg (by omega)])
    have added := cachesAdd rest (removeNames holds.names here) hole
    have logged : iupdate d (addToLoghdr h .dirAdd d.inum (i * sizeofDirent) sizeofDirent [e]) =
        h ++ [⟨.dirAdd,d.inum,i * sizeofDirent,sizeofDirent,[e]⟩,⟨.inodeUpdate,d.inum,0,sizeofDinode,[]⟩] := by
      simp [iupdate,addToLoghdr]
    rw [removeMovedEq looked hit (by simp only [sizeofDirent] at *; omega) e read plain other,logged]
    refine ⟨_,_,_,rfl,?_,by simp [moves],by simp,?_⟩
    · refine removeHolds after here low rfl rfl ?_ ?_ ?_ ?_
      · intro j short
        rw [← logged]
        refine (congrFun (currentUpdated d _) _).trans ((currentLogged (.inl rfl) _).trans ?_)
        by_cases same : j = i
        · rw [if_pos (by rw [same]),if_pos same]
          exact (holds.slots _ _ there).symm
        · rw [if_neg (by simp only [sizeofDirent]; omega),if_neg same]
          rfl
      · simp only [recached,cached]; split <;> omega
      · simp only [recached,cached]; split <;> omega
      · refine cachesCongr added (fun j => ?_) (fun _ _ => rfl)
        simp only [prefixed,recached,cached]
        split <;> omega
    · omega
  · have logged : iupdate d h = h ++ [⟨.inodeUpdate,d.inum,0,sizeofDinode,[]⟩] := by simp [iupdate,addToLoghdr]
    rw [removeLastEq looked hit (by simp only [sizeofDirent] at *; omega),logged]
    refine ⟨_,_,_,rfl,?_,by simp [moves],by simp,?_⟩
    · refine removeHolds after here low rfl rfl ?_ ?_ ?_ ?_
      · intro j short
        rw [← logged]
        refine (congrFun (currentUpdated d h) _).trans ?_
        rw [if_neg (by omega)]
        rfl
      · simp only [recached]; omega
      · simp only [recached]; omega
      · refine cachesCongr dropped (fun j => ?_) (fun j mem => ?_)
        · simp only [prefixed,recached]; omega
        · simp only [prefixed,recached] at mem
          rw [swapRemoveGet inside,if_pos (by omega),if_neg (by omega)]
    · omega

theorem removeMissing (missing : Missing es name) :
    ∃ cache n, dirRemoveEntry d h name = (recached d cache n,h,none) ∧ Holds (recached d cache n) h es ∧ n + 2 = es.length := by
  obtain ⟨cache,n,looked,after,full⟩ := lookupMissing holds missing
  exact ⟨cache,n,by simp only [dirRemoveEntry,looked],after,full⟩

theorem changeMissing (missing : Missing es name) (newname : Name) :
    ∃ cache n, dirChangeEntry d h name newname = (recached d cache n,h,none) ∧ Holds (recached d cache n) h es := by
  obtain ⟨cache,n,looked,after,_⟩ := lookupMissing holds missing
  exact ⟨cache,n,by simp only [dirChangeEntry,looked],after⟩

theorem changeFound {ip} (low : 2 ≤ i) (here : es[i]? = some ⟨ip,name⟩) (newname : Name) :
    ∃ cache n, dirChangeEntry d h name newname = (recached d cache n,
      addToLoghdr h .dirRename d.inum (i * sizeofDirent) sizeofDirent [⟨ip,newname⟩],some ip) ∧
    (¬Dots newname → Absent es newname → Holds (recached d cache n)
      (addToLoghdr h .dirRename d.inum (i * sizeofDirent) sizeofDirent [⟨ip,newname⟩]) (es.set i ⟨ip,newname⟩)) := by
  obtain ⟨cache,n,looked,after,mem,hit⟩ := lookupFound holds low here
  have inside := slotInside here
  have size := holds.size
  have few : 0 < n := by simp only [prefixed] at mem; omega
  have fixed : i * sizeofDirent + sizeofDirent ≤ d.size := by simp only [sizeofDirent] at *; omega
  by_cases plain : Dots newname
  · refine ⟨fun m => if m = name then none else cache m,n - 1,?_,absurd plain⟩
    simp only [dirChangeEntry,looked,deCacheDel,recached,hit,if_true,addToLog,List.length_singleton,Nat.one_mul,
      deCacheAdd,if_pos plain,Nat.not_lt.mpr fixed,and_false,if_false]
  · exact ⟨_,n,changeEq looked hit few fixed plain,fun _ fresh => changeHolds after mem here fresh⟩

end

end Changes

def Foreign (inum : Nat) (more : List Entry) : Prop := ∀ e ∈ more, e.inodeNo = inum → e.dirents = []

theorem foreignCurrent {d h more} (foreign : Foreign (Inode.inum d) more) : current d (h ++ more) = current d h := by
  induction more generalizing h with
  | nil => rw [List.append_nil]
  | cons e more ih =>
    rw [List.append_cons,ih (fun f mem => foreign f (.tail _ mem)),currentAppend]
    split
    · rw [foreign e (.head _) ‹_›]; rfl
    · rfl

theorem foreignHolds {d h more es} (holds : Holds d h es) (foreign : Foreign d.inum more) : Holds d (h ++ more) es := by
  have same := foreignCurrent (h := h) foreign
  exact ⟨holds.size,fun i e here => same ▸ holds.slots i e here,fun i low high => same ▸ holds.seen i low high,
    holds.names,holds.links,holds.count,holds.cache⟩

theorem commitHolds {d h es} (holds : Holds d h es) : Holds (commitLog d h) [] es := by
  have same : current (commitLog d h) [] = current d h := rfl
  exact ⟨holds.size,fun i e here => same ▸ holds.slots i e here,fun _ _ _ => rfl,holds.names,holds.links,holds.count,holds.cache⟩

def opened (inum : Nat) (es : List MlfsDirent) : Inode :=
  ⟨inum,.dir,es.length * sizeofDirent,1,false,0,fun _ => none,fun off => es.getD (off / sizeofDirent) ⟨0,noName⟩⟩

def WellFormed (es : List MlfsDirent) : Prop :=
  (es.map MlfsDirent.name).Nodup ∧ ∃ self parent rest, es = ⟨self,dot⟩::⟨parent,dotdot⟩::rest

theorem openedHolds {es} (inum : Nat) (formed : WellFormed es) : Holds (opened inum es) [] es := by
  obtain ⟨names,self,parent,rest,rfl⟩ := formed
  refine ⟨rfl,?_,fun _ _ _ => rfl,names,⟨self,parent,rest,rfl⟩,by simp [opened],?_⟩
  · intro i e here
    simp only [current,List.foldl_nil,opened,Nat.mul_div_cancel i (show 0 < sizeofDirent by decide)]
    rw [List.getD_eq_getElem?_getD,here]
    rfl
  · intro name inode offset
    simp only [opened,reduceCtorEq,false_iff]
    rintro ⟨i,mem,_⟩
    simp only [prefixed] at mem
    omega

structure State where
  dir : Inode
  loghdr : List Entry

inductive Action where
  | lookup (name : Name)
  | add (name : Name) (ip : Nat)
  | remove (name : Name)
  | change (oldname newname : Name)
  | commit
  deriving DecidableEq, Repr

def step (s : State) : Action → Option State
  | .lookup name => some { s with dir := (dirLookup s.dir name).1 }
  | .add name ip => let r := dirAddEntry s.dir s.loghdr name ip; some ⟨r.1,r.2⟩
  | .remove name => let r := dirRemoveEntry s.dir s.loghdr name; some ⟨r.1,r.2.1⟩
  | .change oldname newname => let r := dirChangeEntry s.dir s.loghdr oldname newname; some ⟨r.1,r.2.1⟩
  | .commit => some ⟨commitLog s.dir s.loghdr,[]⟩

def entries (d : Inode) (h : List Entry) : List MlfsDirent :=
  (List.range (d.size / sizeofDirent)).map fun i => current d h (i * sizeofDirent)

theorem holdsEntries {d h es} (holds : Holds d h es) : entries d h = es := by
  refine List.ext_getElem? fun i => ?_
  simp only [entries,holds.size,Nat.mul_div_cancel _ (show 0 < sizeofDirent by decide),List.getElem?_map]
  by_cases inside : i < es.length
  · rw [List.getElem?_range inside,List.getElem?_eq_getElem inside,Option.map_some,
      holds.slots i _ (List.getElem?_eq_getElem inside)]
  · rw [List.getElem?_eq_none (by simpa using inside),List.getElem?_eq_none (by simpa using inside),Option.map_none]

/- New names only, and only in a directory that is cached as a whole; nothing is removed while the last
entry waits for its commit. -/
def Tidy (s : State) : Action → Prop
  | .add name _ => ¬Dots name ∧ Absent (entries s.dir s.loghdr) name ∧ (s.dir.nDeCacheEntry + 2) * sizeofDirent = s.dir.size
  | .remove _ => s.dir.file (s.dir.size - sizeofDirent) = current s.dir s.loghdr (s.dir.size - sizeofDirent)
  | .change _ newname => ¬Dots newname ∧ Absent (entries s.dir s.loghdr) newname
  | .lookup _ => True
  | .commit => True
instance (s a) : Decidable (Tidy s a) := by cases a <;> unfold Tidy <;> infer_instance

theorem stepHolds {s a t} (before : ∃ es, Holds s.dir s.loghdr es) (tidy : Tidy s a) (taken : step s a = some t) :
    ∃ es, Holds t.dir t.loghdr es := by
  obtain ⟨es,holds⟩ := before
  cases a with
  | lookup name =>
    cases taken
    exact ⟨es,(lookupAnswers name holds).1⟩
  | add name ip =>
    cases taken
    obtain ⟨plain,fresh,full⟩ := tidy
    rw [holdsEntries holds] at fresh
    have size := holds.size
    exact ⟨_,addHolds holds (by simp only [sizeofDirent] at *; omega) plain fresh _⟩
  | remove name =>
    rcases foundOrMissing es name with missing | ⟨i,ip,low,here⟩
    · obtain ⟨cache,n,removed,after,_⟩ := removeMissing holds missing
      simp only [step,removed,Option.some.injEq] at taken
      exact taken ▸ ⟨es,after⟩
    · obtain ⟨cache,n,more,removed,after,_⟩ := removeFound holds tidy low here
      simp only [step,removed,Option.some.injEq] at taken
      exact taken ▸ ⟨_,after⟩
  | change oldname newname =>
    obtain ⟨plain,fresh⟩ := tidy
    rw [holdsEntries holds] at fresh
    rcases foundOrMissing es oldname with missing | ⟨i,ip,low,here⟩
    · obtain ⟨cache,n,changed,after⟩ := changeMissing holds missing newname
      simp only [step,changed,Option.some.injEq] at taken
      exact taken ▸ ⟨es,after⟩
    · obtain ⟨cache,n,changed,after⟩ := changeFound holds low here newname
      simp only [step,changed,Option.some.injEq] at taken
      exact taken ▸ ⟨_,after plain fresh⟩
  | commit =>
    cases taken
    exact ⟨es,commitHolds holds⟩

def Exact (s : State) (name : Name) : Prop := ∀ inode offset,
  (dirLookup s.dir name).2 = some ⟨inode,offset⟩ ↔
    ∃ i, offset = i * sizeofDirent ∧ (entries s.dir s.loghdr)[i]? = some ⟨inode,name⟩

theorem tidyLookup {inum es s name} (formed : WellFormed es) (reached : Reach step Tidy ⟨opened inum es,[]⟩ s)
    (plain : ¬Dots name) : Exact s name := by
  obtain ⟨es',holds⟩ := reachInvariant (fun s : State => ∃ es, Holds s.dir s.loghdr es) ⟨es,openedHolds inum formed⟩
    (fun _ _ _ => stepHolds) reached
  intro inode offset
  rw [holdsEntries holds]
  rcases foundOrMissing es' name with missing | ⟨i,ip,low,here⟩
  · obtain ⟨cache,n,looked,_⟩ := lookupMissing holds missing
    simp only [looked,reduceCtorEq,false_iff]
    rintro ⟨i,_,here⟩
    obtain ⟨self,parent,rest,rfl⟩ := holds.links
    match i, here with
    | 0, here => exact plain (.inl (congrArg MlfsDirent.name (Option.some.inj here)).symm)
    | 1, here => exact plain (.inr (congrArg MlfsDirent.name (Option.some.inj here)).symm)
    | i + 2, here => exact missing (i + 2) _ (Nat.le_add_left _ _) here rfl
  · obtain ⟨cache,n,looked,_⟩ := lookupFound holds low here
    simp only [looked,Option.some.injEq,DirentData.mk.injEq]
    constructor
    · rintro ⟨rfl,rfl⟩
      exact ⟨i,rfl,here⟩
    · rintro ⟨j,rfl,there⟩
      cases sameSlot holds.names here there rfl
      rw [here] at there
      exact ⟨congrArg MlfsDirent.inum (Option.some.inj there),rfl⟩

def letter (c : Char) : Name := ⟨[c],by simp [dirSiz]⟩
def links (inum : Nat) : List MlfsDirent := [⟨inum,dot⟩,⟨1,dotdot⟩]

theorem linksFormed (inum : Nat) {rest : List MlfsDirent} (names : ((links inum ++ rest).map MlfsDirent.name).Nodup) :
    WellFormed (links inum ++ rest) := ⟨names,inum,1,rest,rfl⟩

theorem tidyLookupMoved : ∃ s, (dirLookup s.dir (letter 'c')).2 = some ⟨5,2 * sizeofDirent⟩ ∧ Exact s (letter 'c') := by
  obtain ⟨s,reached,found⟩ : ∃ s, Reach step Tidy ⟨opened 2 (links 2 ++ [⟨3,letter 'a'⟩,⟨4,letter 'b'⟩,⟨5,letter 'c'⟩]),[]⟩ s ∧
      (dirLookup s.dir (letter 'c')).2 = some ⟨5,2 * sizeofDirent⟩ :=
    traceReach [.lookup (letter 'b'),.remove (letter 'a'),.commit,.lookup (letter 'd'),.add (letter 'd') 6,.commit] (by decide +kernel)
  have formed : WellFormed (links 2 ++ [⟨3,letter 'a'⟩,⟨4,letter 'b'⟩,⟨5,letter 'c'⟩]) := linksFormed 2 (by decide)
  exact ⟨s,found,tidyLookup formed reached (by decide)⟩

theorem skippedByLookup : ¬∀ inum es s name, WellFormed es → Reach step Any ⟨opened inum es,[]⟩ s → ¬Dots name → Exact s name := by
  intro claim
  obtain ⟨s,reached,lost,there⟩ : ∃ s, Reach step Any ⟨opened 2 (links 2 ++ [⟨3,letter 'a'⟩]),[]⟩ s ∧ (dirLookup s.dir (letter 'a')).2 = none ∧
      (entries s.dir s.loghdr)[2]? = some ⟨3,letter 'a'⟩ := traceAny [.add (letter 'b') 4,.commit] (by decide +kernel)
  have exact := claim 2 _ s (letter 'a') (linksFormed 2 (by decide)) reached (by decide) 3 (2 * sizeofDirent)
  rw [lost] at exact
  exact absurd (exact.mpr ⟨2,rfl,there⟩) nofun

end LineFS.Dirent
