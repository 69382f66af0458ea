import LineFS.Base.RbErase
import LineFS.Base.Run
import LineFS.InodeSlices

/-! Dirty inodes of KernFS. Every LibFS id has a red-black tree of the inodes its digests made dirty;
an inode has one embedded node for all of them. `persist_dirty_objects_nvm` walks the tree of an id,
removes the node it stands on and writes the inode. An inode is seen as its number. -/
namespace LineFS.DirtyInodes
open Base Base.Rb
open InodeSlices (ninodes)

def rounds : Nat := ninodes + 2

/- `node` is `i_rb_node` of every inode, `dirtyRoot` the array `s_dirty_root`. `marked` lists the ids and
inodes marked since the last persist call of the id. -/
structure State where
  node : Nat → Rb.Node Nat
  dirtyRoot : Nat → Option Nat
  marked : List (Nat × Nat)

def State.tree (s : State) (id : Nat) : Store Nat := ⟨s.node,s.dirtyRoot id⟩

def State.setTree (s : State) (id : Nat) (st : Store Nat) : State :=
  { s with node := st.node, dirtyRoot := Function.update s.dirtyRoot id st.root }

def init (node : Nat → Rb.Node Nat) : State := ⟨node,fun _ => none,[]⟩

def mlfsMarkInodeDirty (s : State) (id inum : Nat) : Option State :=
  ((s.tree id).rbInsert (fun i => i) rounds inum).map fun st => s.setTree id st

def persistLoop : Nat → Store Nat → Option Nat → List Nat → Option (Store Nat × List Nat)
  | 0, _, _, _ => none
  | _ + 1, st, none, written => some (st,written)
  | fuel + 1, st, some node, written =>
    (st.rbErase rounds node).bind fun st =>
      (st.rbNext rounds node).bind fun next => persistLoop fuel st next (written ++ [node])

def persistDirtyObjectsNvm (s : State) (logId : Nat) : Option (State × List Nat) :=
  ((s.tree logId).rbFirst rounds).bind fun node =>
    (persistLoop rounds (s.tree logId) node []).map fun r => (s.setTree logId r.1,r.2)

inductive Action where
  | mark (id inum : Nat)
  | persist (id : Nat)

def step (s : State) : Action → Option State
  | .mark id inum =>
    if inum < ninodes then (mlfsMarkInodeDirty s id inum).map fun t => { t with marked := (id,inum)::s.marked } else none
  | .persist id => (persistDirtyObjectsNvm s id).map fun r => { r.1 with marked := s.marked.filter fun e => e.1 ≠ id }

def contents (st : Store Nat) : Nat → Option Nat → Option (List Nat)
  | _, none => some []
  | 0, some _ => none
  | fuel + 1, some x =>
    (contents st fuel (st.node x).left).bind fun l => (contents st fuel (st.node x).right).map fun r => l ++ x::r

def dirtyInodes (s : State) (id : Nat) : Option (List Nat) := contents (s.tree id) rounds (s.dirtyRoot id)

/- An inode is marked for one id at a time. -/
def Separate (s : State) : Action → Prop
  | .mark id inum => ∀ e ∈ s.marked, e.2 = inum → e.1 = id
  | .persist _ => True
instance (s a) : Decidable (Separate s a) := by cases a <;> unfold Separate <;> infer_instance

section Trees
variable {st st' : Store Nat} {t : Rb.Tree Nat} {rest : Nat → Rb.Node Nat} {fuel n : Nat} {q : Option Nat}

theorem contentsShows (h : Shows st.node q t) (enough : t.toList.length ≤ fuel) : contents st fuel t.ptr = some t.toList := by
  induction t generalizing q fuel with
  | nil => cases fuel <;> rfl
  | node b l x r left right =>
    simp only [Tree.toList,List.length_append,List.length_cons] at enough
    obtain ⟨k,rfl⟩ : ∃ k, fuel = k + 1 := ⟨fuel - 1,by omega⟩
    rw [nodePtr,contents,h.1,left h.2.1 (by omega),Option.bind_some,right h.2.2 (by omega)]
    rfl

theorem firstHolds (h : Holds rest st [] t) (enough : t.toList.length ≤ fuel) : st.rbFirst fuel = some t.toList.head? := by
  have root : st.root = t.ptr := h.root
  unfold Store.rbFirst
  cases here : t.ptr with
  | none =>
    rw [root,here,ptrNone here]
    rfl
  | some x =>
    obtain ⟨m,walked,head⟩ := firstShows h.subtree here enough
    rw [root,here,head]
    simp only [walked,Option.map_some]

theorem loopDrains (written : List Nat) (h : Holds rest st [] t) (balanced : Rb.Balanced true n t)
    (few : t.toList.length ≤ rounds) (enough : t.toList.length < fuel) :
    ∃ st', persistLoop fuel st t.toList.head? written = some (st',written ++ t.toList) ∧ st'.root = none ∧
      ∀ x, x ∉ t.toList → st'.node x = st.node x := by
  induction list : t.toList generalizing st t fuel written n rest with
  | nil =>
    obtain ⟨k,rfl⟩ : ∃ k, fuel = k + 1 := ⟨fuel - 1,by omega⟩
    have none_ : t = .nil := by
      cases t with
      | nil => rfl
      | node b l x r => simp [Tree.toList] at list
    subst none_
    exact ⟨st,by simp [persistLoop],h.root,fun _ _ => rfl⟩
  | cons m ms ih =>
    obtain ⟨k,rfl⟩ : ∃ k, fuel = k + 1 := ⟨fuel - 1,by omega⟩
    obtain ⟨st1,t1,erased,holds,⟨n1,balanced1⟩,list1,next⟩ := eraseFirst h balanced list few
    rw [list,List.length_cons] at few enough
    obtain ⟨st2,ran,root,far⟩ := @ih st1 t1 st.node k n1 (written ++ [m]) holds balanced1 (by rw [list1]; omega) (by rw [list1]; omega) list1
    refine ⟨st2,?_,root,fun x out => ?_⟩
    · simp only [List.head?_cons,persistLoop,erased,next,Option.bind_some,ran,List.append_assoc,List.singleton_append]
    · have later : x ∉ ms := fun mem => out (.tail _ mem)
      exact (far x later).trans (holds.frame x (by rw [list1]; exact later) List.not_mem_nil)

end Trees

def Tracks (s : State) (id : Nat) (t : Rb.Tree Nat) : Prop :=
  Ordered s.node (s.tree id) (fun i => i) t ∧ ∀ i, i ∈ t.toList ↔ (id,i) ∈ s.marked

structure Kept (s : State) : Prop where
  trees : ∀ id, ∃ t, Tracks s id t
  alone : ∀ a ∈ s.marked, ∀ b ∈ s.marked, a.2 = b.2 → a = b
  known : ∀ e ∈ s.marked, e.2 < ninodes

section Calls
variable {s u : State} {id other inum : Nat} {t : Rb.Tree Nat} {st : Store Nat}

theorem tracksShort (h : Kept s) (tracks : Tracks s id t) : t.toList.length ≤ ninodes := by
  have nodup := (List.nodup_append.mp tracks.1.holds.nodup).1
  have inside : t.toList ⊆ List.range ninodes := fun i mem => List.mem_range.mpr (h.known _ ((tracks.2 i).mp mem))
  have few := (List.subperm_of_subset nodup inside).length_le
  rwa [List.length_range] at few

theorem tracksHold (h : Kept s) (tracks : Tracks s id t) : dirtyInodes s id = some t.toList := by
  have root : s.dirtyRoot id = t.ptr := tracks.1.holds.root
  rw [dirtyInodes,root]
  exact contentsShows tracks.1.holds.subtree (Nat.le_trans (tracksShort h tracks) (Nat.le_add_right _ 2))

theorem tracksFrame {marked : List (Nat × Nat)} (tracks : Tracks s other t) (apart : other ≠ id) (kept : ∀ i ∈ t.toList, st.node i = s.node i)
    (same : ∀ i, (other,i) ∈ marked ↔ (other,i) ∈ s.marked) : Tracks { s.setTree id st with marked } other t := by
  obtain ⟨⟨⟨nodup,subtree,_,root,_⟩,balanced,sorted⟩,members⟩ := tracks
  have root' : Function.update s.dirtyRoot id st.root other = t.ptr := (Function.update_of_ne apart ..).trans root
  exact ⟨⟨⟨nodup,showsFrame kept subtree,trivial,root',fun _ _ _ => rfl⟩,balanced,sorted⟩,fun i => (members i).trans (same i).symm⟩

theorem markTracks (inum : Nat) (h : Kept s) (tracks : Tracks s id t) : ∃ st u, mlfsMarkInodeDirty s id inum = some (s.setTree id st) ∧
    Ordered s.node st (fun i => i) u ∧ ∀ i, i ∈ u.toList ↔ i = inum ∨ i ∈ t.toList := by
  have few := tracksShort h tracks
  by_cases present : inum ∈ t.toList
  · have found := insertPresent (x := inum) tracks.1 (show t.toList.length < rounds by unfold rounds; omega) present
    refine ⟨s.tree id,t,by rw [mlfsMarkInodeDirty,found]; rfl,tracks.1,fun i => ⟨.inr,?_⟩⟩
    rintro (rfl | old)
    · exact present
    · exact old
  · obtain ⟨st,u,done,ordered,members⟩ := insertAbsent (x := inum) tracks.1 (show t.toList.length + 1 < rounds by unfold rounds; omega)
      fun i mem same => present (same ▸ mem)
    exact ⟨st,u,by rw [mlfsMarkInodeDirty,done]; rfl,ordered,members⟩

theorem treeTracks {marked : List (Nat × Nat)} {rest : Nat → Rb.Node Nat} (h : Ordered rest st (fun i => i) t)
    (members : ∀ i, i ∈ t.toList ↔ (id,i) ∈ marked) : Tracks { s.setTree id st with marked } id t := by
  have same : State.tree { s.setTree id st with marked } id = st := by
    simp [State.tree,State.setTree]
  refine ⟨?_,members⟩
  rw [same]
  exact orderedRebase h

theorem markKept (h : Kept s) (separate : Separate s (.mark id inum)) (valid : inum < ninodes) :
    ∃ u, step s (.mark id inum) = some u ∧ Kept u := by
  obtain ⟨t,tracks⟩ := h.trees id
  obtain ⟨st,u,done,ordered,members⟩ := markTracks inum h tracks
  refine ⟨{ s.setTree id st with marked := (id,inum)::s.marked },by simp only [step,if_pos valid,done,Option.map_some],fun other => ?_,?_,?_⟩
  · by_cases same : other = id
    · subst same
      refine ⟨u,treeTracks ordered fun i => ?_⟩
      rw [members,tracks.2,List.mem_cons,Prod.mk.injEq]
      exact or_congr_left (and_iff_right rfl).symm
    · obtain ⟨t',tracks'⟩ := h.trees other
      refine ⟨t',tracksFrame tracks' same (fun i mem => ordered.holds.frame i (fun mem' => ?_) List.not_mem_nil) fun i => ?_⟩
      · have marked := (tracks'.2 i).mp mem
        rcases (members i).mp mem' with rfl | old
        · exact same (separate _ marked rfl)
        · exact same (Prod.mk.inj (h.alone _ marked _ ((tracks.2 i).mp old) rfl)).1
      · rw [List.mem_cons,Prod.mk.injEq]
        exact or_iff_right fun both => same both.1
  · intro a memA b memB equal
    rcases List.mem_cons.mp memA with rfl | oldA
    · rcases List.mem_cons.mp memB with rfl | oldB
      · rfl
      · exact Prod.ext (separate b oldB equal.symm).symm equal
    · rcases List.mem_cons.mp memB with rfl | oldB
      · exact Prod.ext (separate a oldA equal) equal
      · exact h.alone a oldA b oldB equal
  · intro e mem
    rcases List.mem_cons.mp mem with rfl | old
    · exact valid
    · exact h.known e old

theorem persistDrains (h : Kept s) (tracks : Tracks s id t) : ∃ st, persistDirtyObjectsNvm s id = some (s.setTree id st,t.toList) ∧
    st.root = none ∧ ∀ i, i ∉ t.toList → st.node i = s.node i := by
  have few := tracksShort h tracks
  obtain ⟨n,balanced⟩ := tracks.1.balanced
  have first := firstHolds tracks.1.holds (show t.toList.length ≤ rounds by unfold rounds; omega)
  obtain ⟨st,ran,root,far⟩ := loopDrains [] tracks.1.holds balanced (show t.toList.length ≤ rounds by unfold rounds; omega)
    (show t.toList.length < rounds by unfold rounds; omega)
  exact ⟨st,by rw [persistDirtyObjectsNvm,first,Option.bind_some,ran]; rfl,root,far⟩

theorem persistKept (id : Nat) (h : Kept s) : ∃ u written, persistDirtyObjectsNvm s id = some (u,written) ∧
    Kept { u with marked := s.marked.filter fun e => e.1 ≠ id } ∧ Tracks { u with marked := s.marked.filter fun e => e.1 ≠ id } id .nil ∧
    written.Nodup ∧ (∀ i, i ∈ written ↔ (id,i) ∈ s.marked) ∧
    ∀ other, other ≠ id → ∀ t, Tracks s other t → Tracks { u with marked := s.marked.filter fun e => e.1 ≠ id } other t := by
  obtain ⟨t,tracks⟩ := h.trees id
  obtain ⟨st,done,root,far⟩ := persistDrains h tracks
  have empty : Ordered st.node st (fun i => i) .nil := ⟨⟨List.nodup_nil,trivial,trivial,root,fun _ _ _ => rfl⟩,⟨0,.nil⟩,List.Pairwise.nil⟩
  have own : Tracks { s.setTree id st with marked := s.marked.filter fun e => e.1 ≠ id } id .nil :=
    treeTracks empty fun i => by simp [Rb.Tree.toList]
  have others (other : Nat) (apart : other ≠ id) (t' : Rb.Tree Nat) (tracks' : Tracks s other t') :
      Tracks { s.setTree id st with marked := s.marked.filter fun e => e.1 ≠ id } other t' := by
    refine tracksFrame tracks' apart (fun i mem => far i fun mem' => apart ?_) fun i => by simp [apart]
    exact (Prod.mk.inj (h.alone _ ((tracks'.2 i).mp mem) _ ((tracks.2 i).mp mem') rfl)).1
  refine ⟨_,_,done,⟨fun other => ?_,?_,?_⟩,own,(List.nodup_append.mp tracks.1.holds.nodup).1,tracks.2,others⟩
  · by_cases same : other = id
    · exact ⟨.nil,same ▸ own⟩
    · obtain ⟨t',tracks'⟩ := h.trees other
      exact ⟨t',others other same t' tracks'⟩
  · exact fun a memA b memB => h.alone a (List.mem_of_mem_filter memA) b (List.mem_of_mem_filter memB)
  · exact fun e mem => h.known e (List.mem_of_mem_filter mem)

end Calls

section Runs
variable {s u : State}

theorem initKept (node : Nat → Rb.Node Nat) : Kept (init node) :=
  ⟨fun _ => ⟨.nil,⟨⟨List.nodup_nil,trivial,trivial,rfl,fun _ _ _ => rfl⟩,⟨0,.nil⟩,List.Pairwise.nil⟩,
    fun _ => iff_of_false List.not_mem_nil List.not_mem_nil⟩,nofun,nofun⟩

theorem stepKept {a : Action} (h : Kept s) (separate : Separate s a) (taken : step s a = some u) : Kept u := by
  cases a with
  | mark id inum =>
    by_cases valid : inum < ninodes
    · obtain ⟨u',done,kept⟩ := markKept h separate valid
      cases taken.symm.trans done
      exact kept
    · simp only [step,if_neg valid] at taken
      contradiction
  | persist id =>
    obtain ⟨u',written,done,kept,_⟩ := persistKept id h
    simp only [step,done,Option.map_some] at taken
    cases taken
    exact kept

theorem persistWritesMarked {node : Nat → Rb.Node Nat} (reached : Reach step Separate (init node) s) (id : Nat) :
    (∀ inum, inum < ninodes → Separate s (.mark id inum) → ∃ u, step s (.mark id inum) = some u) ∧
    ∃ u written, persistDirtyObjectsNvm s id = some (u,written) ∧ written.Nodup ∧ (∀ i, i ∈ written ↔ (id,i) ∈ s.marked) ∧
      dirtyInodes u id = some [] ∧ ∀ other, other ≠ id → ∃ held, dirtyInodes s other = some held ∧ dirtyInodes u other = some held := by
  have kept : Kept s := reachInvariant Kept (initKept node) (fun _ _ _ h separate taken => stepKept h separate taken) reached
  refine ⟨fun inum valid separate => (markKept kept separate valid).imp fun _ both => both.1,?_⟩
  obtain ⟨u,written,done,after,own,nodup,members,others⟩ := persistKept id kept
  have holds (other : Nat) (t : Rb.Tree Nat) (tracks : Tracks { u with marked := s.marked.filter fun e => e.1 ≠ id } other t) :
      dirtyInodes u other = some t.toList := by
    have same := tracksHold after tracks
    exact same
  refine ⟨u,written,done,nodup,members,holds id .nil own,fun other apart => ?_⟩
  obtain ⟨t,tracks⟩ := kept.trees other
  exact ⟨t.toList,tracksHold kept tracks,holds other t (others other apart t tracks)⟩

end Runs

def blank : Nat → Rb.Node Nat := fun _ => ⟨none,false,none,none⟩

def separateMarks : List Action := [.mark 0 5,.mark 0 3,.mark 1 4,.mark 0 9,.mark 0 5]

theorem persistWritesMarkedThree : ∃ s, Reach step Separate (init blank) s ∧ dirtyInodes s 0 = some [3,5,9] ∧
    ∃ u written, persistDirtyObjectsNvm s 0 = some (u,written) ∧ written.Nodup ∧ (∀ i, i ∈ written ↔ (0,i) ∈ s.marked) ∧
      dirtyInodes u 0 = some [] ∧ ∀ other, other ≠ 0 → ∃ held, dirtyInodes s other = some held ∧ dirtyInodes u other = some held := by
  obtain ⟨s,reached,holds⟩ : ∃ s, Reach step Separate (init blank) s ∧ dirtyInodes s 0 = some [3,5,9] :=
    traceReach separateMarks (by decide +kernel)
  exact ⟨s,reached,holds,(persistWritesMarked reached 0).2⟩

def sharedMarks : List Action := [.mark 1 5,.mark 0 3,.mark 0 5]

theorem sharedNodeLeaksTree : ∃ s, run step (init blank) sharedMarks = some s ∧ s.marked = [(0,5),(0,3),(1,5)] ∧ dirtyInodes s 0 = some [3,5] ∧
    ∃ u, persistDirtyObjectsNvm s 1 = some (u,[5,3]) ∧ dirtyInodes u 0 = some [3] := by
  have trace : (run step (init blank) sharedMarks).bind (fun s => (persistDirtyObjectsNvm s 1).map fun r =>
      (s.marked,dirtyInodes s 0,r.2,dirtyInodes r.1 0)) = some ([(0,5),(0,3),(1,5)],some [3,5],[5,3],some [3]) := by decide +kernel
  obtain ⟨s,ran,rest⟩ := Option.bind_eq_some_iff.mp trace
  obtain ⟨⟨u,written⟩,persisted,all⟩ := Option.map_eq_some_iff.mp rest
  simp only [Prod.mk.injEq] at all
  obtain ⟨marked,before,rfl,after⟩ := all
  exact ⟨s,ran,marked,before,u,persisted,after⟩

end LineFS.DirtyInodes
