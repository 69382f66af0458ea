import Mathlib.Logic.Function.Basic
import Mathlib.Logic.Function.Iterate
import LineFS.Base.Run

/-! The buffer cache of a device and the digests that use it. Blocks of the extent trees are changed in
cached buffers, which `sync_all_buffers` writes back at the end of a digest; file data is written
straight to the device. Freeing a block of a tree does not touch its buffer. -/
namespace LineFS.WriteBack
open Base Function

structure BufferHead (γ : Type) where
  data : γ
  count : Nat
  uptodate : Bool
  dirty : Bool
  deriving DecidableEq

inductive Use where
  | free | tree | data
  deriving DecidableEq

/- `dirtyList` and `freelist` are `bd_bh_dirty` and `bd_bh_free`, by block number. `written` is what
`digest_file` wrote last, `stored` the blocks written back, with their use at that time. -/
structure State (γ : Type) where
  device : Nat → γ
  cache : Nat → Option (BufferHead γ)
  dirtyList : List Nat
  freelist : List Nat
  use : Nat → Use
  written : Nat → γ
  stored : List (Nat × Use)

variable {γ : Type}

def bufferFreeThreshold : Nat := 90000

def setBuffer (s : State γ) (b : Nat) (bh : BufferHead γ) : State γ := { s with cache := Function.update s.cache b (some bh) }

def moveBufferToWriteback (s : State γ) (b : Nat) : State γ :=
  if b ∈ s.dirtyList then s else { s with dirtyList := s.dirtyList ++ [b] }

def attachBhToFreelist (s : State γ) (b : Nat) : State γ := if b ∈ s.freelist then s else { s with freelist := s.freelist ++ [b] }

def detachBhFromFreelist (s : State γ) (b : Nat) : State γ := { s with freelist := s.freelist.erase b }

def removeFirstBhFromFreelist (s : State γ) : State γ :=
  match s.freelist with
  | [] => s
  | b::bs => { s with freelist := bs, cache := Function.update s.cache b none }

def tryToDropBuffers (s : State γ) : State γ := Nat.iterate removeFirstBhFromFreelist (s.freelist.length - bufferFreeThreshold) s

def reclaimBuffer (s : State γ) (b : Nat) : State γ := attachBhToFreelist (tryToDropBuffers s) b

-- A new buffer has the bytes `fresh` of the memory it was allocated in.
def getblk (s : State γ) (b : Nat) (fresh : γ) : State γ :=
  match s.cache b with
  | some bh => setBuffer (detachBhFromFreelist s b) b { bh with count := bh.count + 1 }
  | none => setBuffer s b ⟨fresh,1,false,false⟩

def fsBread (s : State γ) (b : Nat) (fresh : γ) : State γ :=
  let s := getblk s b fresh
  match s.cache b with
  | some bh => if bh.uptodate then s else setBuffer s b { bh with data := s.device b, uptodate := true }
  | none => s

/- The two ways in which the tree code leaves a changed buffer: a block of a path is also put
on the dirty list, a new block only by its release. -/
def handleDirtyMetadata (s : State γ) (b : Nat) (v : γ) : State γ :=
  match s.cache b with
  | some bh => setBuffer s b { bh with data := v, uptodate := true, dirty := true }
  | none => s

def extDirty (s : State γ) (p : Nat × γ) : State γ := handleDirtyMetadata (moveBufferToWriteback s p.1) p.1 p.2

def brelse (s : State γ) (b : Nat) : State γ :=
  match s.cache b with
  | some bh =>
    let s := setBuffer s b { bh with count := bh.count - 1 }
    if 1 ≤ bh.count - 1 then s else if bh.dirty then moveBufferToWriteback s b else reclaimBuffer s b
  | none => s

def setUse (s : State γ) (b : Nat) (u : Use) : State γ := { s with use := Function.update s.use b u }

def newMetaBlock (s : State γ) (b : Nat) : State γ := setUse s b .tree

def freeBlocks (s : State γ) (b : Nat) : State γ := setUse s b .free

/- `path` has the levels above the removed block that are blocks of their own, from below,
with their new contents. -/
def extRmIdx (s : State γ) (leaf : Nat) (path : List (Nat × γ)) : State γ :=
  (path.drop 1).foldl extDirty (freeBlocks ((path.take 1).foldl extDirty s) leaf)

def extTryToMergeUp (s : State γ) (leaf : Nat) : State γ := freeBlocks (brelse s leaf) leaf

def digestFile (s : State γ) (b : Nat) (v : γ) : State γ :=
  { setUse s b .data with device := Function.update s.device b v, written := Function.update s.written b v }

-- Second component: the buffer stays on the dirty list.
def syncDirtyBuffer (s : State γ) (b : Nat) : State γ × Bool :=
  match s.cache b with
  | some bh =>
    if bh.dirty then
      let s := { s with device := Function.update s.device b bh.data, stored := s.stored ++ [(b,s.use b)] }
      if bh.count = 0 then (attachBhToFreelist (setBuffer s b { bh with uptodate := true, dirty := false }) b,false) else (s,true)
    else (s,false)
  | none => (s,false)

def syncListed (s : State γ) (b : Nat) : State γ :=
  let (t,stays) := syncDirtyBuffer s b
  if stays then t else { t with dirtyList := t.dirtyList.erase b }

def syncAllBuffers (s : State γ) : State γ := s.dirtyList.foldl syncListed s

inductive Action (γ : Type) where
  | newMetaBlock (b : Nat)
  | getBh (b : Nat) (fresh : γ)
  | bread (b : Nat) (fresh : γ)
  | handleDirtyMetadata (b : Nat) (v : γ)
  | extDirty (b : Nat) (v : γ)
  | brelse (b : Nat)
  | rmIdx (leaf : Nat) (path : List (Nat × γ))
  | tryToMergeUp (leaf : Nat)
  | digestFile (b : Nat) (v : γ)
  | freeData (b : Nat)
  | persist

def Held (s : State γ) (b : Nat) : Prop := ∃ bh, s.cache b = some bh ∧ 0 < bh.count
instance (s : State γ) (b) : Decidable (Held s b) :=
  match h : s.cache b with
  | some bh => decidable_of_iff (0 < bh.count) (by simp [Held,h])
  | none => isFalse (by simp [Held,h])

def step (s : State γ) : Action γ → Option (State γ)
  | .newMetaBlock b => if s.use b = .free then some (newMetaBlock s b) else none
  | .getBh b fresh => if s.use b = .tree then some (getblk s b fresh) else none
  | .bread b fresh => if s.use b = .tree then some (fsBread s b fresh) else none
  | .handleDirtyMetadata b v => if s.use b = .tree ∧ Held s b then some (handleDirtyMetadata s b v) else none
  | .extDirty b v => if s.use b = .tree ∧ Held s b then some (extDirty s (b,v)) else none
  | .brelse b => if Held s b then some (brelse s b) else none
  | .rmIdx leaf path =>
    if s.use leaf = .tree ∧ ∀ p ∈ path, s.use p.1 = .tree ∧ Held s p.1 ∧ p.1 ≠ leaf then some (extRmIdx s leaf path) else none
  | .tryToMergeUp leaf => if s.use leaf = .tree ∧ Held s leaf then some (extTryToMergeUp s leaf) else none
  | .digestFile b v => if s.use b = .tree then none else some (digestFile s b v)
  | .freeData b => if s.use b = .data then some (freeBlocks s b) else none
  | .persist => some (syncAllBuffers s)

def init (device : Nat → γ) (use : Nat → Use) : State γ := ⟨device,fun _ => none,[],[],use,device,[]⟩

def Dirty (s : State γ) (b : Nat) : Prop := ∃ bh, s.cache b = some bh ∧ bh.dirty
instance (s : State γ) (b) : Decidable (Dirty s b) :=
  match h : s.cache b with
  | some bh => decidable_of_iff (bh.dirty = true) (by simp [Dirty,h])
  | none => isFalse (by simp [Dirty,h])

/- No buffer was written back over file data, and file data is what was digested. -/
structure Intact (s : State γ) : Prop where
  stored : ∀ p ∈ s.stored, p.2 ≠ .data
  written : ∀ b, s.use b = .data → s.device b = s.written b

/- A block is taken for file data only when no dirty buffer of it is cached. -/
def Settled (s : State γ) : Action γ → Prop
  | .digestFile b _ => s.use b = .free → ¬Dirty s b
  | _ => True
instance (s : State γ) (a) : Decidable (Settled s a) := by cases a <;> unfold Settled <;> infer_instance

structure Kept (s : State γ) : Prop extends Intact s where
  clean : ∀ b, s.use b = .data → ¬Dirty s b

structure Quiet (marked : Nat → Prop) (s t : State γ) : Prop where
  device : t.device = s.device
  use : t.use = s.use
  written : t.written = s.written
  stored : t.stored = s.stored
  dirty : ∀ b, Dirty t b → Dirty s b ∨ marked b

section Quiet
variable {s t r : State γ} {marked : Nat → Prop}

theorem quietRefl : Quiet marked s s := ⟨rfl,rfl,rfl,rfl,fun _ h => .inl h⟩

theorem quietTrans (first : Quiet marked s t) (second : Quiet marked t r) : Quiet marked s r where
  device := second.device.trans first.device
  use := second.use.trans first.use
  written := second.written.trans first.written
  stored := second.stored.trans first.stored
  dirty := by
    intro b h
    rcases second.dirty b h with h | h
    · exact first.dirty b h
    · exact .inr h

theorem quietKept (h : Kept s) (quiet : Quiet marked s t) (safe : ∀ b, marked b → s.use b ≠ .data) : Kept t where
  stored := by rw [quiet.stored]; exact h.stored
  written := by rw [quiet.use,quiet.device,quiet.written]; exact h.written
  clean := by
    intro b isData isDirty
    rw [quiet.use] at isData
    rcases quiet.dirty b isDirty with old | new
    · exact h.clean b isData old
    · exact safe b new isData

theorem calmKept (h : Kept s) (quiet : Quiet (fun _ => False) s t) : Kept t := quietKept h quiet fun _ => False.elim

theorem treeKept (h : Kept s) (quiet : Quiet (fun b => s.use b = .tree) s t) : Kept t := by
  refine quietKept h quiet ?_
  intro b isTree
  simp [isTree]

theorem quietSet {b : Nat} {bh : BufferHead γ} (allowed : bh.dirty = true → Dirty s b ∨ marked b) :
    Quiet marked s (setBuffer s b bh) where
  device := rfl
  use := rfl
  written := rfl
  stored := rfl
  dirty := by
    rintro c ⟨found,cached,isDirty⟩
    simp only [setBuffer] at cached
    by_cases same : c = b
    · subst same
      rw [update_self] at cached
      cases cached
      exact allowed isDirty
    · rw [update_of_ne same] at cached
      exact .inl ⟨found,cached,isDirty⟩

theorem quietLists {dirtyList freelist : List Nat} : Quiet marked s { s with dirtyList, freelist } := ⟨rfl,rfl,rfl,rfl,fun _ h => .inl h⟩

theorem moveQuiet (b : Nat) : Quiet marked s (moveBufferToWriteback s b) := by
  unfold moveBufferToWriteback
  split
  · exact quietRefl
  · exact quietLists

theorem attachQuiet (b : Nat) : Quiet marked s (attachBhToFreelist s b) := by
  unfold attachBhToFreelist
  split
  · exact quietRefl
  · exact quietLists

theorem removeFirstQuiet : Quiet marked s (removeFirstBhFromFreelist s) := by
  unfold removeFirstBhFromFreelist
  split
  · exact quietRefl
  · rename_i c bs _
    refine ⟨rfl,rfl,rfl,rfl,?_⟩
    rintro b ⟨bh,cached,isDirty⟩
    dsimp only at cached
    by_cases same : b = c
    · subst same
      rw [update_self] at cached
      contradiction
    · rw [update_of_ne same] at cached
      exact .inl ⟨bh,cached,isDirty⟩

theorem dropQuiet : Quiet marked s (tryToDropBuffers s) := by
  unfold tryToDropBuffers
  generalize s.freelist.length - bufferFreeThreshold = n
  induction n with
  | zero => exact quietRefl
  | succ n ih =>
    rw [Function.iterate_succ_apply']
    exact quietTrans ih removeFirstQuiet

theorem getblkQuiet (b : Nat) (fresh : γ) : Quiet marked s (getblk s b fresh) := by
  unfold getblk
  split
  · rename_i bh cached
    exact quietTrans quietLists (quietSet fun isDirty => .inl ⟨bh,cached,isDirty⟩)
  · exact quietSet (by simp)

theorem breadQuiet (b : Nat) (fresh : γ) : Quiet marked s (fsBread s b fresh) := by
  refine quietTrans (getblkQuiet b fresh) ?_
  unfold fsBread
  dsimp only
  split
  · rename_i bh cached
    split
    · exact quietRefl
    · exact quietSet fun isDirty => .inl ⟨bh,cached,isDirty⟩
  · exact quietRefl

theorem markQuiet {b : Nat} (isMarked : marked b) (v : γ) : Quiet marked s (handleDirtyMetadata s b v) := by
  unfold handleDirtyMetadata
  split
  · exact quietSet fun _ => .inr isMarked
  · exact quietRefl

theorem extDirtyQuiet {p : Nat × γ} (isMarked : marked p.1) : Quiet marked s (extDirty s p) :=
  quietTrans (moveQuiet p.1) (markQuiet isMarked p.2)

theorem pathQuiet {path : List (Nat × γ)} (isMarked : ∀ p ∈ path, marked p.1) : Quiet marked s (path.foldl extDirty s) := by
  induction path generalizing s with
  | nil => exact quietRefl
  | cons p path ih =>
    exact quietTrans (extDirtyQuiet (isMarked p (.head _))) (ih fun q mem => isMarked q (.tail p mem))

theorem brelseQuiet (b : Nat) : Quiet marked s (brelse s b) := by
  unfold brelse
  split
  · rename_i bh cached
    have put : Quiet marked s (setBuffer s b { bh with count := bh.count - 1 }) := quietSet fun isDirty => .inl ⟨bh,cached,isDirty⟩
    dsimp only
    split
    · exact put
    · split
      · exact quietTrans put (moveQuiet b)
      · exact quietTrans put (quietTrans dropQuiet (attachQuiet b))
  · exact quietRefl

end Quiet

section Steps
variable {s t : State γ}

theorem useElsewhere {b c : Nat} {u v : Use} (other : c ≠ b) (h : (setUse s b u).use c = v) : s.use c = v := by
  simpa [setUse,update_of_ne other] using h

section
variable (h : Kept s)
include h

theorem setUseKept (b : Nat) {u : Use} (notData : u ≠ .data) : Kept (setUse s b u) := by
  have before : ∀ c, (setUse s b u).use c = .data → s.use c = .data := by
    intro c isData
    by_cases same : c = b
    · subst same
      exact absurd (by simpa [setUse] using isData) notData
    · exact useElsewhere same isData
  exact ⟨⟨h.stored,fun c isData => h.written c (before c isData)⟩,fun c isData => h.clean c (before c isData)⟩

theorem rmIdxKept {leaf : Nat} {path : List (Nat × γ)} (levels : ∀ p ∈ path, s.use p.1 = .tree ∧ p.1 ≠ leaf) :
    Kept (extRmIdx s leaf path) := by
  have parent : Quiet (fun b => s.use b = .tree) s ((path.take 1).foldl extDirty s) :=
    pathQuiet fun p mem => (levels p (List.mem_of_mem_take mem)).1
  have freed : Kept (freeBlocks ((path.take 1).foldl extDirty s) leaf) := setUseKept (treeKept h parent) leaf nofun
  refine treeKept freed (pathQuiet ?_)
  intro p mem
  obtain ⟨isTree,other⟩ := levels p (List.mem_of_mem_drop mem)
  simp [freeBlocks,setUse,update_of_ne other,parent.use,isTree]

theorem digestFileKept {b : Nat} (notTree : s.use b ≠ .tree) (settled : s.use b = .free → ¬Dirty s b) (v : γ) :
    Kept (digestFile s b v) where
  stored := h.stored
  written := by
    intro c isData
    by_cases same : c = b
    · simp [digestFile,setUse,same]
    · have before : s.use c = .data := useElsewhere same isData
      simpa [digestFile,setUse,update_of_ne same] using h.written c before
  clean := by
    intro c isData
    by_cases same : c = b
    · subst same
      cases use : s.use c with
      | free => exact settled use
      | tree => exact absurd use notTree
      | data => exact h.clean c use
    · exact h.clean c (useElsewhere same isData)

theorem syncDirtyKept (b : Nat) : Kept (syncDirtyBuffer s b).1 := by
  unfold syncDirtyBuffer
  split
  · rename_i bh cached
    split
    · rename_i isDirty
      have other : s.use b ≠ .data := fun isData => h.clean b isData ⟨bh,cached,isDirty⟩
      have wrote : Kept { s with device := update s.device b bh.data, stored := s.stored ++ [(b,s.use b)] } := by
        refine ⟨⟨?_,?_⟩,h.clean⟩
        · intro p mem
          rcases memSnoc mem with mem | rfl
          · exact h.stored p mem
          · exact other
        · intro c isData
          have different : c ≠ b := fun same => other (same ▸ isData)
          simpa [update_of_ne different] using h.written c isData
      dsimp only
      split
      · exact calmKept wrote (quietTrans (quietSet (by simp)) (attachQuiet b))
      · exact wrote
    · exact h
  · exact h

theorem syncListedKept (b : Nat) : Kept (syncListed s b) := by
  have kept := syncDirtyKept h b
  unfold syncListed
  dsimp only
  split
  · exact kept
  · exact calmKept kept quietLists

theorem syncAllKept : Kept (syncAllBuffers s) := by
  unfold syncAllBuffers
  generalize s.dirtyList = listed
  induction listed generalizing s with
  | nil => exact h
  | cons b listed ih => exact ih (syncListedKept h b)

theorem stepKept {a : Action γ} (allowed : Settled s a) (taken : step s a = some t) : Kept t := by
  cases a with
  | persist =>
    cases taken
    exact syncAllKept h
  | digestFile b v =>
    obtain ⟨notTree,rfl⟩ := unlessTaken taken
    exact digestFileKept h notTree allowed v
  | newMetaBlock b =>
    obtain ⟨_,rfl⟩ := ifTaken taken
    exact setUseKept h b nofun
  | freeData b =>
    obtain ⟨_,rfl⟩ := ifTaken taken
    exact setUseKept h b nofun
  | rmIdx leaf path =>
    obtain ⟨guard,rfl⟩ := ifTaken taken
    exact rmIdxKept h fun p mem => ⟨(guard.2 p mem).1,(guard.2 p mem).2.2⟩
  | tryToMergeUp leaf =>
    obtain ⟨_,rfl⟩ := ifTaken taken
    exact setUseKept (calmKept h (brelseQuiet leaf)) leaf nofun
  | brelse b =>
    obtain ⟨_,rfl⟩ := ifTaken taken
    exact calmKept h (brelseQuiet b)
  | getBh b fresh =>
    obtain ⟨_,rfl⟩ := ifTaken taken
    exact calmKept h (getblkQuiet b fresh)
  | bread b fresh =>
    obtain ⟨_,rfl⟩ := ifTaken taken
    exact calmKept h (breadQuiet b fresh)
  | handleDirtyMetadata b v =>
    obtain ⟨guard,rfl⟩ := ifTaken taken
    exact treeKept h (markQuiet guard.1 v)
  | extDirty b v =>
    obtain ⟨guard,rfl⟩ := ifTaken taken
    exact treeKept h (extDirtyQuiet guard.1)

end

end Steps

theorem initKept (device : Nat → γ) (use : Nat → Use) : Kept (init device use) where
  stored := by simp [init]
  written := fun _ _ => rfl
  clean := by simp [init,Dirty]

theorem dataNotOverwritten {device : Nat → γ} {use : Nat → Use} {s : State γ} (reached : Reach step Settled (init device use) s) :
    Intact s :=
  (reachInvariant Kept (initKept device use) (fun _ _ _ h allowed taken => stepKept h allowed taken) reached).toIntact

def reuse (between : List (Action Nat)) : List (Action Nat) :=
  ([.newMetaBlock 5,.getBh 5 0,.handleDirtyMetadata 5 7,.brelse 5,.bread 5 0,.extDirty 5 8,.rmIdx 5 [],.brelse 5] : List (Action Nat)) ++
    between ++
    ([.digestFile 5 9,.persist] : List (Action Nat))

theorem dataNotOverwrittenReused : ∃ s : State Nat, Reach step Settled (init (fun _ => 0) fun _ => .free) s ∧
    s.use 5 = .data ∧ s.written 5 = 9 ∧ s.stored = [(5,.free)] ∧ Intact s := by
  obtain ⟨s,reached,isData,wrote,stored⟩ : ∃ s, Reach step Settled (init (fun _ => 0) fun _ => Use.free) s ∧
      s.use 5 = .data ∧ s.written 5 = 9 ∧ s.stored = [(5,.free)] :=
    traceReach (reuse [.persist]) (by decide +kernel)
  exact ⟨s,reached,isData,wrote,stored,dataNotOverwritten reached⟩

-- The block is reused in the digest that freed it, while its buffer is on the dirty list.
theorem treeOverData : ∃ s : State Nat, Reach step Any (init (fun _ => 0) fun _ => .free) s ∧
    (5,.data) ∈ s.stored ∧ s.use 5 = .data ∧ s.written 5 = 9 ∧ s.device 5 = 8 := by
  exact traceAny (reuse []) (by decide +kernel)

end LineFS.WriteBack
