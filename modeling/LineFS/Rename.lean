import LineFS.Namespace

/-! What a call of `mlfs_posix_rename` leaves behind when it fails or has nothing to do. The
target is removed first; `abort_log_tx` drops the header and leaves the inodes, the directory
and the dentry caches as the removal has changed them. -/
namespace LineFS.Rename
open Base Namespace Function
open Dirent hiding State Action step

def renameCall (s : FS) (oldDir : Nat) (oldName : Name) (newDir : Nat) (newName : Name) : Option (FS × Bool) :=
  (mlfsPosixRename s oldDir oldName newDir newName).bind endTx

def listed (s : FS) (dir : Nat) : List MlfsDirent := entries (s.inode dir) []

structure Same (s t : FS) : Prop where
  inodes : ∀ i, (t.inode i).size = (s.inode i).size ∧ (t.inode i).nlink = (s.inode i).nlink ∧
    (t.inode i).itype = (s.inode i).itype ∧ (t.inode i).deleting = (s.inode i).deleting
  listed : ∀ i, listed t i = listed s i
  bitmap : t.bitmap = s.bitmap

def Found (es : List MlfsDirent) (name : Name) (i ip : Nat) : Prop := 2 ≤ i ∧ es[i]? = some ⟨ip,name⟩

/- An error changes nothing, and neither does a rename of an object to a path it has. -/
def Unharmed (s : FS) (oldDir : Nat) (oldName : Name) (newDir : Nat) (newName : Name) : Prop :=
  ∀ t ok, renameCall s oldDir oldName newDir newName = some (t,ok) → (ok = false → Same s t) ∧
    ((∃ ip, ⟨ip,oldName⟩ ∈ listed s oldDir ∧ ⟨ip,newName⟩ ∈ listed s newDir) → Same s t)

/- The source is missing or is the target, or another link of it; or its new path is a link `.` or `..` to it. -/
def Harmful (s : FS) (oldDir : Nat) (oldName : Name) (newDir : Nat) (newName : Name) : Prop :=
  (∃ i target, Found (listed s newDir) newName i target ∧ target ≠ newDir ∧ target ≠ oldDir ∧
    (Missing (listed s oldDir) oldName ∨ (oldDir = newDir ∧ oldName = newName) ∨ ∃ j, Found (listed s oldDir) oldName j target ∧
      (oldDir = newDir ∨ i + 1 = (listed s newDir).length ∧ j + 1 = (listed s oldDir).length))) ∨
  (Missing (listed s newDir) newName ∧ ∃ j ip, Found (listed s oldDir) oldName j ip ∧ ⟨ip,newName⟩ ∈ listed s newDir)

theorem sameTrans {s t u : FS} (one : Same s t) (two : Same t u) : Same s u :=
  ⟨fun i => ⟨(two.inodes i).1.trans (one.inodes i).1,(two.inodes i).2.1.trans (one.inodes i).2.1,
    (two.inodes i).2.2.1.trans (one.inodes i).2.2.1,(two.inodes i).2.2.2.trans (one.inodes i).2.2.2⟩,
   fun i => (two.listed i).trans (one.listed i),two.bitmap.trans one.bitmap⟩

theorem recachedSame {s : FS} {k : Nat} (inum : (s.inode k).inum = k) (cache : Name → Option DirentData) (n : Nat) :
    Same s (s.put (recached (s.inode k) cache n)) := by
  have inode (i : Nat) : (s.put (recached (s.inode k) cache n)).inode i = s.inode i ∨
      i = k ∧ (s.put (recached (s.inode k) cache n)).inode i = recached (s.inode k) cache n := by
    by_cases here : i = k
    · exact .inr ⟨here,by rw [here]; exact putHere inum⟩
    · exact .inl (putOther (show i ≠ (s.inode k).inum by rw [inum]; exact here))
  refine ⟨fun i => ?_,fun i => ?_,rfl⟩
  · rcases inode i with same | ⟨rfl,same⟩
    · rw [same]; exact ⟨rfl,rfl,rfl,rfl⟩
    · rw [same]; exact ⟨rfl,rfl,rfl,rfl⟩
  · rcases inode i with same | ⟨rfl,same⟩
    · rw [listed,same]; rfl
    · rw [listed,same]; rfl

theorem resized {s t : FS} {i : Nat} (changed : (t.inode i).size ≠ (s.inode i).size) : ¬Same s t :=
  fun same => changed (same.inodes i).1

section Calls
variable {s : FS} {E : Nat → Option (List MlfsDirent)} {es os : List MlfsDirent} {oldDir newDir i j target ip : Nat}
  {oldName newName : Name}

theorem wholeListed {dir} (whole : Whole s [] E) (known : E dir = some es) : listed s dir = es :=
  holdsEntries (whole.dirs dir es known).2.2.2

theorem foundUnique {name k ip'} (names : (es.map MlfsDirent.name).Nodup) (here : Found es name i ip) (there : Found es name k ip') :
    i = k ∧ ip = ip' := by
  cases sameSlot names here.2 there.2 rfl
  have same := here.2.symm.trans there.2
  exact ⟨rfl,congrArg MlfsDirent.inum (Option.some.inj same)⟩

theorem foundMember {name ip'} (names : (es.map MlfsDirent.name).Nodup) (here : Found es name i ip) (mem : ⟨ip',name⟩ ∈ es) :
    ip = ip' := by
  obtain ⟨k,there⟩ := List.mem_iff_getElem?.mp mem
  cases sameSlot names here.2 there rfl
  exact congrArg MlfsDirent.inum (Option.some.inj (here.2.symm.trans there))

theorem endCall {t h ok} (few : h.length ≤ gMaxBlocksPerOperation)
    (renamed : mlfsPosixRename s oldDir oldName newDir newName = some (t,h,ok)) :
    renameCall s oldDir oldName newDir newName = some (if ok then commitLogTx t h else t,ok) := by
  simp only [renameCall,renamed,Option.bind_some,endTx,if_pos few]

theorem renameEq {s₁ h₁} (replaced : replaceTarget s newDir newName = (s₁,h₁)) (aliveOld : (s₁.inode oldDir).deleting = false)
    (aliveNew : (s₁.inode newDir).deleting = false) : mlfsPosixRename s oldDir oldName newDir newName =
    some (if newDir = oldDir then renameWithin s₁ h₁ newDir oldName newName
      else renameAcross s₁ h₁ oldDir oldName newDir newName) := by
  simp only [mlfsPosixRename,replaced,aliveOld,aliveNew,Bool.false_eq_true,or_self,if_false]
  split <;> rfl

theorem sourceMissing {s₁ h₁ E₁} (whole : Whole s₁ h₁ E₁) (known : E₁ oldDir = some os) (missing : Missing os oldName) :
    ∃ cache n, (if newDir = oldDir then renameWithin s₁ h₁ newDir oldName newName
      else renameAcross s₁ h₁ oldDir oldName newDir newName) = (s₁.put (recached (s₁.inode oldDir) cache n),h₁,false) := by
  have holds := (whole.dirs oldDir os known).2.2.2
  split
  · rename_i within
    subst within
    obtain ⟨cache,n,changed,_⟩ := changeMissing holds missing newName
    exact ⟨cache,n,by simp only [renameWithin,changed]⟩
  · obtain ⟨cache,n,removed,_⟩ := removeMissing holds missing
    exact ⟨cache,n,by simp only [renameAcross,removed]⟩

theorem destroysCaches (whole : Whole s [] E) (known : E newDir = some es) (here : Found es newName i target)
    (parent : target = newDir ∨ target = oldDir) : renameCall s oldDir oldName newDir newName = none := by
  obtain ⟨s₁,h₁,replaced,_,dead,_⟩ := replaceFound whole known here.1 here.2
  have crash : (s₁.inode oldDir).deleting = true ∨ (s₁.inode newDir).deleting = true := by
    rcases parent with rfl | rfl
    · exact .inr dead
    · exact .inl dead
  simp only [renameCall,mlfsPosixRename,replaced,if_pos crash,Option.bind_none]

theorem missingIff {name} (names : (es.map MlfsDirent.name).Nodup) (links : ∃ self parent rest, es = ⟨self,dot⟩::⟨parent,dotdot⟩::rest) :
    Missing es name ↔ Dots name ∨ Absent es name := by
  constructor
  · intro missing
    by_cases plain : Dots name
    · exact .inl plain
    · exact .inr (missingAbsent links plain missing)
  · rintro (dots | absent) k e low there same
    · exact notDots names links low there (same ▸ dots)
    · exact absent e (List.mem_of_getElem? there) same

theorem missingRemoved (holds : Holds (s.inode newDir) [] es) (here : Found es newName i target) :
    Missing (swapRemove es i) oldName ↔ Missing es oldName ∨ oldName = newName := by
  have perm := swapRemovePerm here.2
  have names := (perm.map MlfsDirent.name).nodup_iff.mpr holds.names
  rw [List.map_cons,List.nodup_cons] at names
  rw [missingIff holds.names holds.links,missingIff names.2 (removeLinks holds.links here.1 (slotInside here.2)),or_assoc]
  refine or_congr_right ⟨fun absent => ?_,?_⟩
  · refine or_iff_not_imp_right.mpr fun differ e mem same => ?_
    rcases List.mem_cons.mp (perm.mem_iff.mpr mem) with rfl | left
    · exact differ same.symm
    · exact absent e left same
  · rintro (absent | rfl) e mem same
    · exact absent e (perm.subset (.tail _ mem)) same
    · exact names.1 (List.mem_map.mpr ⟨e,mem,same⟩)

section known
variable (whole : Whole s [] E) (known : E newDir = some es) (knownOld : E oldDir = some os)
include whole known knownOld

theorem targetMissing (missing : Missing es newName) (oldName : Name) : ∃ s₁, mlfsPosixRename s oldDir oldName newDir newName =
      some (if newDir = oldDir then renameWithin s₁ [] newDir oldName newName else renameAcross s₁ [] oldDir oldName newDir newName) ∧
    Whole s₁ [] E ∧ Same s s₁ := by
  obtain ⟨cache,n,removed,holds,_⟩ := removeMissing (whole.dirs newDir es known).2.2.2 missing
  have after := recachedWhole whole known holds
  exact ⟨_,renameEq (by simp only [replaceTarget,removed]) (after.dirs _ _ knownOld).2.1 (after.dirs _ _ known).2.1,after,
    recachedSame (whole.inums newDir) cache n⟩

theorem abortsClean (missing : Missing es newName) (source : Missing os oldName) :
    ∃ t, renameCall s oldDir oldName newDir newName = some (t,false) ∧ Same s t := by
  obtain ⟨s₁,renamed,after,first⟩ := targetMissing whole known knownOld missing oldName
  obtain ⟨cache,n,ended⟩ := sourceMissing after knownOld source
  rw [ended] at renamed
  exact ⟨_,endCall (Nat.zero_le _) renamed,sameTrans first (recachedSame (after.inums oldDir) cache n)⟩

theorem movesSource (missing : Missing es newName) (source : Found os oldName j ip) :
    ∃ t, renameCall s oldDir oldName newDir newName = some (t,true) ∧ ¬Same s t := by
  obtain ⟨s₁,renamed,after,first⟩ := targetMissing whole known knownOld missing oldName
  have holds := (whole.dirs oldDir os knownOld).2.2.2
  have inside := slotInside source.2
  have size := holds.size
  by_cases within : newDir = oldDir
  · subst within
    cases known.symm.trans knownOld
    obtain ⟨t,h',moved,counted,_,shown,_⟩ := withinWhole after known source.1 source.2 newName
    rw [if_pos rfl,moved] at renamed
    refine ⟨_,endCall (by rw [counted]; decide) renamed,fun same => ?_⟩
    have listing := same.listed newDir
    rw [wholeListed whole known] at listing
    have entry := source.2
    rw [← listing] at entry
    simp only [if_true,listed,entries,List.getElem?_map,Option.map_eq_some_iff] at entry
    obtain ⟨k,here,read⟩ := entry
    obtain ⟨_,same⟩ := List.getElem?_eq_some_iff.mp here
    rw [List.getElem_range] at same
    subst same
    exact missing j _ source.1 source.2 (congrArg MlfsDirent.name (read.symm.trans shown))
  · obtain ⟨t,h',moved,counted,shrunk,_⟩ := acrossWhole after within known knownOld (fun _ mem => by cases mem)
      source.1 source.2 newName
    rw [if_neg within,moved] at renamed
    refine ⟨_,endCall (by rw [counted]; split <;> decide) renamed,resized (i := oldDir) ?_⟩
    rw [(first.inodes oldDir).1] at shrunk
    refine shrunk.trans_ne ?_
    simp only [sizeofDirent] at *
    omega

variable (here : Found es newName i target) (notNew : target ≠ newDir) (notOld : target ≠ oldDir)
include here notNew notOld

theorem targetGone (oldName : Name) :
    ∃ s₁ h₁ E₁, mlfsPosixRename s oldDir oldName newDir newName = some (if newDir = oldDir then
      renameWithin s₁ h₁ newDir oldName newName else renameAcross s₁ h₁ oldDir oldName newDir newName) ∧
    Replaced E es newDir newName s₁ h₁ E₁ (swapRemove es i) ∧ h₁.length = (if i + 1 < es.length then 3 else 2) ∧
    (s₁.inode newDir).size ≠ (s.inode newDir).size ∧
    E₁ oldDir = some (if newDir = oldDir then swapRemove es i else os) := by
  obtain ⟨s₁,h₁,replaced,counted,_,facts⟩ := replaceFound whole known here.1 here.2
  obtain ⟨size,facts⟩ := facts notNew
  have inside := slotInside here.2
  have before := (whole.dirs newDir es known).2.2.2.size
  have left : update (update E newDir (some (swapRemove es i))) target none oldDir =
      some (if newDir = oldDir then swapRemove es i else os) := by
    rw [update_of_ne notOld.symm]
    by_cases within : newDir = oldDir
    · rw [if_pos within,within,update_self]
    · rw [if_neg within,update_of_ne (Ne.symm within)]
      exact knownOld
  refine ⟨s₁,h₁,_,renameEq replaced (facts.whole.dirs _ _ left).2.1 (facts.whole.dirs _ _ facts.known).2.1,facts,counted,?_,left⟩
  simp only [sizeofDirent] at *
  omega

theorem losesTarget (source : Missing os oldName ∨ oldDir = newDir ∧ oldName = newName) :
    ∃ t, renameCall s oldDir oldName newDir newName = some (t,false) ∧ ¬Same s t := by
  obtain ⟨s₁,h₁,E₁,renamed,facts,counted,shrunk,left⟩ := targetGone whole known knownOld here notNew notOld oldName
  have missing : Missing (if newDir = oldDir then swapRemove es i else os) oldName := by
    split
    · rename_i within
      subst within
      cases known.symm.trans knownOld
      rw [missingRemoved (whole.dirs newDir es known).2.2.2 here]
      exact source.imp_right And.right
    · rename_i apart
      exact source.resolve_right fun same => apart same.1.symm
  obtain ⟨cache,n,ended⟩ := sourceMissing facts.whole left missing
  rw [ended] at renamed
  have few : h₁.length ≤ gMaxBlocksPerOperation := by rw [counted]; split <;> decide
  refine ⟨_,endCall few renamed,resized (i := newDir) ?_⟩
  exact ((recachedSame (facts.whole.inums oldDir) cache n).inodes newDir).1.trans_ne shrunk

theorem replacesTarget (source : Found os oldName j ip) (differ : ¬(oldDir = newDir ∧ oldName = newName)) :
    if oldDir = newDir ∨ i + 1 = es.length ∧ j + 1 = os.length then
      ∃ t, renameCall s oldDir oldName newDir newName = some (t,true) ∧ ¬Same s t
    else renameCall s oldDir oldName newDir newName = none := by
  obtain ⟨s₁,h₁,E₁,renamed,facts,counted,shrunk,left⟩ := targetGone whole known knownOld here notNew notOld oldName
  have inside := slotInside here.2
  have insideOld := slotInside source.2
  by_cases within : newDir = oldDir
  · subst within
    cases known.symm.trans knownOld
    have present : ¬Missing (swapRemove es i) oldName := by
      rw [missingRemoved (whole.dirs newDir es known).2.2.2 here]
      rintro (missing | same)
      · exact missing j _ source.1 source.2 rfl
      · exact differ ⟨rfl,same⟩
    obtain ⟨k,ip',low,there⟩ := (foundOrMissing _ _).resolve_left present
    obtain ⟨t,h',moved,grown,size,_⟩ := withinWhole facts.whole facts.known low there newName
    rw [if_pos rfl,moved] at renamed
    have few : h'.length ≤ gMaxBlocksPerOperation := by rw [grown,counted]; split <;> decide
    rw [if_pos (.inl rfl)]
    exact ⟨_,endCall few renamed,resized (i := newDir) (size.trans_ne shrunk)⟩
  · have settled : Foreign oldDir h₁ := fun e mem mine => (facts.own e mem).resolve_left (by rw [mine]; exact Ne.symm within)
    rw [if_neg within] at left renamed
    obtain ⟨t,h',moved,grown,size,_⟩ := acrossWhole facts.whole within facts.known left settled source.1 source.2 newName
    rw [moved] at renamed
    have oldSize := (facts.whole.dirs oldDir os left).2.2.2.size
    have oldBefore := (whole.dirs oldDir os knownOld).2.2.2.size
    rw [counted] at grown
    split
    · rename_i last
      obtain ⟨lastNew,lastOld⟩ := last.resolve_left (Ne.symm within)
      rw [if_neg (by omega),if_neg (by omega)] at grown
      refine ⟨_,endCall (by rw [grown]; decide) renamed,resized (i := oldDir) (size.trans_ne ?_)⟩
      simp only [sizeofDirent] at *
      omega
    · rename_i moves
      have many : ¬h'.length ≤ gMaxBlocksPerOperation := by
        rw [grown,gMaxBlocksPerOperation]
        split <;> split <;> omega
      simp only [renameCall,renamed,Option.bind_some,endTx,if_neg many]

end known
end Calls

theorem unharmedChanged {s t oldDir oldName newDir newName ok}
    (called : renameCall s oldDir oldName newDir newName = some (t,ok)) (changed : ¬Same s t) :
    Unharmed s oldDir oldName newDir newName ↔
      ok = true ∧ ¬∃ ip, ⟨ip,oldName⟩ ∈ listed s oldDir ∧ ⟨ip,newName⟩ ∈ listed s newDir := by
  constructor
  · intro unharmed
    obtain ⟨failed,self⟩ := unharmed t ok called
    exact ⟨Bool.of_not_eq_false fun no => changed (failed no),fun both => changed (self both)⟩
  · rintro ⟨succeeded,apart⟩ t' ok' called'
    cases called.symm.trans called'
    exact ⟨fun failed => by rw [succeeded] at failed; contradiction,fun both => absurd both apart⟩

section Cases
variable {s : FS} {E : Nat → Option (List MlfsDirent)} {es os : List MlfsDirent} {oldDir newDir i target : Nat}
  {oldName newName : Name} (whole : Whole s [] E) (known : E newDir = some es) (knownOld : E oldDir = some os)
include whole known

theorem unharmedParent (here : Found es newName i target) (parent : target = newDir ∨ target = oldDir) :
    Unharmed s oldDir oldName newDir newName ↔ ¬Harmful s oldDir oldName newDir newName := by
  have crash := @destroysCaches s E es oldDir newDir i target oldName newName whole known here parent
  refine iff_of_true (fun t ok called => by rw [crash] at called; contradiction) ?_
  rw [Harmful,wholeListed whole known]
  rintro (⟨k,target',found,notNew,notOld,_⟩ | ⟨missing,_⟩)
  · obtain ⟨_,rfl⟩ := foundUnique (whole.dirs newDir es known).2.2.2.names found here
    exact parent.elim notNew notOld
  · exact missing i _ here.1 here.2 rfl

include knownOld

theorem unharmedFree (missing : Missing es newName) :
    Unharmed s oldDir oldName newDir newName ↔ ¬Harmful s oldDir oldName newDir newName := by
  have shown := wholeListed whole known
  have shownOld := wholeListed whole knownOld
  have nowhere (k target) : ¬Found es newName k target := fun found => missing k _ found.1 found.2 rfl
  rcases foundOrMissing os oldName with source | ⟨j,ip,there⟩
  · obtain ⟨t,called,same⟩ := abortsClean whole known knownOld missing source
    have absent (k ip) : ¬Found os oldName k ip := fun found => source k _ found.1 found.2 rfl
    refine iff_of_true (fun t' ok called' => ?_) (by simp [Harmful,shown,shownOld,nowhere,absent])
    cases called.symm.trans called'
    exact ⟨fun _ => same,fun _ => same⟩
  · obtain ⟨t,called,changed⟩ := movesSource whole known knownOld missing there
    rw [unharmedChanged called changed]
    simp only [Harmful,shown,shownOld,nowhere,missing,false_and,exists_false,false_or,true_and]
    refine not_congr ⟨fun ⟨ip',source,link⟩ => ?_,fun ⟨k,ip',found,link⟩ => ⟨ip',List.mem_of_getElem? found.2,link⟩⟩
    cases foundMember (whole.dirs oldDir os knownOld).2.2.2.names there source
    exact ⟨j,ip,there,link⟩

theorem harmfulTaken (here : Found es newName i target) (notNew : target ≠ newDir) (notOld : target ≠ oldDir) :
    Harmful s oldDir oldName newDir newName ↔ Missing os oldName ∨ (oldDir = newDir ∧ oldName = newName) ∨
      ∃ j, Found os oldName j target ∧ (oldDir = newDir ∨ i + 1 = es.length ∧ j + 1 = os.length) := by
  rw [Harmful,wholeListed whole known,wholeListed whole knownOld]
  constructor
  · rintro (⟨k,target',found,_,_,harm⟩ | ⟨missing,_⟩)
    · obtain ⟨rfl,rfl⟩ := foundUnique (whole.dirs newDir es known).2.2.2.names found here
      exact harm
    · exact absurd rfl (missing i _ here.1 here.2)
  · exact fun harm => .inl ⟨i,target,here,notNew,notOld,harm⟩

theorem unharmedTaken (here : Found es newName i target) (notNew : target ≠ newDir) (notOld : target ≠ oldDir) :
    Unharmed s oldDir oldName newDir newName ↔ ¬Harmful s oldDir oldName newDir newName := by
  rw [harmfulTaken whole known knownOld here notNew notOld]
  by_cases lost : Missing os oldName ∨ oldDir = newDir ∧ oldName = newName
  · obtain ⟨t,called,changed⟩ := losesTarget whole known knownOld here notNew notOld lost
    rw [unharmedChanged called changed]
    exact iff_of_false (fun ok => by simp at ok) (not_not.mpr (lost.imp_right .inl))
  · obtain ⟨source,differ⟩ := not_or.mp lost
    obtain ⟨j,ip,there⟩ := (foundOrMissing _ _).resolve_left source
    have namesOld := (whole.dirs oldDir os knownOld).2.2.2.names
    have outcome := replacesTarget whole known knownOld here notNew notOld there differ
    simp only [source,differ,false_or]
    split at outcome
    · rename_i room
      obtain ⟨t,called,changed⟩ := outcome
      rw [unharmedChanged called changed,wholeListed whole known,wholeListed whole knownOld]
      simp only [true_and]
      refine not_congr ⟨fun ⟨ip',mem,link⟩ => ?_,fun ⟨k,found,_⟩ => ⟨target,List.mem_of_getElem? found.2,List.mem_of_getElem? here.2⟩⟩
      cases foundMember namesOld there mem
      cases foundMember (whole.dirs newDir es known).2.2.2.names here link
      exact ⟨j,there,room⟩
    · rename_i full
      refine iff_of_true (fun t ok called => by rw [outcome] at called; contradiction) ?_
      rintro ⟨k,found,room⟩
      obtain ⟨rfl,_⟩ := foundUnique namesOld found there
      exact full room

end Cases

theorem renameUnharmedIff {s E oldDir oldName newDir newName} (whole : Whole s [] E) (isDirOld : IsDir s oldDir) (isDirNew : IsDir s newDir) :
    Unharmed s oldDir oldName newDir newName ↔ ¬Harmful s oldDir oldName newDir newName := by
  obtain ⟨es,known⟩ := knownDir whole isDirNew
  obtain ⟨os,knownOld⟩ := knownDir whole isDirOld
  rcases foundOrMissing es newName with missing | ⟨i,target,here⟩
  · exact unharmedFree whole known knownOld missing
  · by_cases parent : target = newDir ∨ target = oldDir
    · exact unharmedParent whole known here parent
    · obtain ⟨notNew,notOld⟩ := not_or.mp parent
      exact unharmedTaken whole known knownOld here notNew notOld

def oneFile : List Action := [.create none rootino (letter 'a') 2]

theorem renameUnharmedMissing : ∃ s, (listed s rootino).map MlfsDirent.name = [dot,dotdot,letter 'a'] ∧
    Unharmed s rootino (letter 'b') rootino (letter 'c') := by
  obtain ⟨s,reached,isDir,names⟩ : ∃ s, Reach step Proper init s ∧ IsDir s.fs rootino ∧
      (listed s.fs rootino).map MlfsDirent.name = [dot,dotdot,letter 'a'] := traceReach oneFile (by decide +kernel)
  obtain ⟨E,whole,_⟩ := reachWhole reached
  have nowhere {name k ip} (other : name ∉ [dot,dotdot,letter 'a']) : ¬Found (listed s.fs rootino) name k ip := fun found =>
    other (names ▸ List.mem_map.mpr ⟨_,List.mem_of_getElem? found.2,rfl⟩)
  refine ⟨s.fs,names,(renameUnharmedIff whole isDir isDir).mpr ?_⟩
  rintro (⟨_,_,found,_⟩ | ⟨_,_,_,found,_⟩)
  · exact nowhere (by decide) found
  · exact nowhere (by decide) found

/- A file that is renamed to its own path is removed, and the call fails. -/
theorem selfRenameRemoves : ¬∀ s E oldDir oldName newDir newName, Whole s [] E → IsDir s oldDir → IsDir s newDir →
    Unharmed s oldDir oldName newDir newName := by
  intro claim
  obtain ⟨s,reached,isDir,before,called⟩ : ∃ s, Reach step Proper init s ∧ IsDir s.fs rootino ∧
      (s.fs.inode rootino).size = 96 ∧
      ((renameCall s.fs rootino (letter 'a') rootino (letter 'a')).map fun r => (r.2,(r.1.inode rootino).size)) = some (false,64) :=
    traceReach oneFile (by decide +kernel)
  obtain ⟨⟨t,ok⟩,called,after⟩ := Option.map_eq_some_iff.mp called
  obtain ⟨failed,after⟩ := Prod.mk.inj after
  obtain ⟨E,whole,_⟩ := reachWhole reached
  have same := (claim s.fs E rootino (letter 'a') rootino (letter 'a') whole isDir isDir t ok called).1 failed
  exact resized (i := rootino) (by rw [before,after]; decide) same

end LineFS.Rename
