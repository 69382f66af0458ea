import LineFS.Base.Run
import LineFS.Bitmap

/-! Inode numbers of several LibFS instances. Each instance has an id and an inode bitmap of its own,
loaded when it started, and searches it from `g_self_id * NINODES / MAX_LIBFS_PROCESSES` up to
`ninodes`, not up to the next slice. No instance sees the bits that another one sets. -/
namespace LineFS.InodeSlices
open Base Bitmap

def ninodes : Nat := 300000
def maxLibfsProcesses : Nat := 8

def gNKernfsNic : Nat := 3
def gNNodes : Nat := 2 * gNKernfsNic
def peerBitmapSize : Nat := maxLibfsProcesses + gNNodes

def sliceStart (id : Nat) : Nat := id * ninodes / maxLibfsProcesses
def InSlice (id n : Nat) : Prop := sliceStart id ≤ n ∧ n < sliceStart (id + 1)

structure Instance where
  selfId : Nat
  inodeBitmap : Words

structure State where
  peerBitmap : Words
  instances : List Instance
  area : Nat → Bool
  alive : Nat → Bool
  made : List (Nat × Nat)

inductive Action where
  | registerPeerLog
  | icreate (k : Nat)
  | iget (k inum : Nat)
  | persistLogInode (k inum : Nat)
  | digestInode (inum : Nat)
  deriving DecidableEq, Repr

def readSuperblock (area : Nat → Bool) : Words :=
  (List.range' 1 (ninodes - 1)).foldl (fun m inum => if area inum then bitmapSet m inum 1 else m) empty

def init (area : Nat → Bool) : State :=
  ⟨bitmapSet empty 0 gNNodes,[],area,fun inum => decide (0 < inum ∧ inum < ninodes) && area inum,[]⟩

def Instance.icreate (i : Instance) : Nat := findNextZeroBit i.inodeBitmap ninodes (sliceStart i.selfId)
def Instance.ialloc (i : Instance) (inum : Nat) : Instance := { i with inodeBitmap := bitmapSet i.inodeBitmap inum 1 }

def Instance.persistLogInode (i : Instance) (inum : Nat) : Instance :=
  { i with inodeBitmap := bitmapClear i.inodeBitmap inum 1 }

def step (s : State) : Action → Option State
  | .registerPeerLog =>
    if s.instances.length < maxLibfsProcesses then
      let idx := findFirstZeroBit s.peerBitmap peerBitmapSize
      some { s with peerBitmap := bitmapSet s.peerBitmap idx 1,
                    instances := s.instances ++ [⟨idx,readSuperblock s.area⟩] }
    else none
  | .icreate k =>
    s.instances[k]?.map fun i =>
      { s with instances := s.instances.set k (i.ialloc i.icreate),
               alive := fun n => n == i.icreate || s.alive n, made := s.made ++ [(i.selfId,i.icreate)] }
  | .iget k inum => s.instances[k]?.map fun i => { s with instances := s.instances.set k (i.ialloc inum) }
  | .persistLogInode k inum =>
    if s.alive inum then
      s.instances[k]?.map fun i =>
        { s with instances := s.instances.set k (i.persistLogInode inum), alive := fun n => n != inum && s.alive n,
                 made := s.made.filter fun e => e.2 != inum }
    else none
  | .digestInode inum =>
    some { s with area := fun n => if n = inum then s.alive n else s.area n }

def Roomy (i : Instance) : Prop :=
  i.selfId < maxLibfsProcesses ∧ ∃ n, InSlice i.selfId n ∧ bit i.inodeBitmap n = false

def Allowed (s : State) : Action → Prop
  | .icreate k => ∀ i ∈ s.instances[k]?, Roomy i
  | _ => True

section Slices
variable {s s' : State} {i j : Instance} {k n id id' : Nat} {area : Nat → Bool}

theorem sliceApart (left : InSlice id n) (right : InSlice id' n) : id = id' := by
  have mono {a b : Nat} (less : a < b) : sliceStart (a + 1) ≤ sliceStart b :=
    Nat.div_le_div_right (Nat.mul_le_mul_right _ less)
  unfold InSlice at left right
  rcases Nat.lt_trichotomy id id' with less | same | less
  · have bound := mono less
    omega
  · exact same
  · have bound := mono less
    omega

theorem sliceInside (low : id < maxLibfsProcesses) (inside : InSlice id n) : n < ninodes := by
  have bound : sliceStart (id + 1) ≤ sliceStart maxLibfsProcesses := Nat.div_le_div_right (Nat.mul_le_mul_right _ low)
  have top : sliceStart maxLibfsProcesses = ninodes := rfl
  unfold InSlice at inside
  omega

theorem icreateFree (roomy : Roomy i) : InSlice i.selfId i.icreate ∧ bit i.inodeBitmap i.icreate = false := by
  obtain ⟨low,n,inside,free⟩ := roomy
  have found : Next (fun n => !bit i.inodeBitmap n) ninodes (sliceStart i.selfId) i.icreate :=
    findNextZeroBitSpec i.inodeBitmap ninodes (sliceStart i.selfId)
  have below : n < ninodes := sliceInside low inside
  have reached : i.icreate ≤ n := by
    by_contra past
    have skipped := found.skipped n inside.1 (by omega)
    simp [free] at skipped
  have start := found.low
  have clear := found.found (by omega)
  unfold InSlice at inside ⊢
  exact ⟨by omega,by simpa using clear⟩

theorem loadedBit (area : Nat → Bool) (inums : List Nat) (m : Words) (n : Nat) :
    bit (inums.foldl (fun m inum => if area inum then bitmapSet m inum 1 else m) m) n =
      (bit m n || (decide (n ∈ inums) && area n)) := by
  induction inums generalizing m with
  | nil => simp
  | cons inum inums ih =>
    rw [List.foldl_cons,ih]
    have first : bit (if area inum then bitmapSet m inum 1 else m) n = (bit m n || (decide (n = inum) && area n)) := by
      by_cases same : n = inum
      · subst same
        split <;> simp_all [bitmapSetOne]
      · split <;> simp [bitmapSetOne,same]
    rw [first]
    by_cases same : n = inum
    · subst same
      cases area n <;> simp
    · simp [same]

theorem readSuperblockBit (area : Nat → Bool) (n : Nat) :
    bit (readSuperblock area) n = (decide (0 < n ∧ n < ninodes) && area n) := by
  have listed : n ∈ List.range' 1 (ninodes - 1) ↔ 0 < n ∧ n < ninodes := by
    unfold ninodes
    simp only [List.mem_range'_1]
    omega
  simp only [readSuperblock,loadedBit,bitEmpty,Bool.false_or,listed]

structure Inv (s : State) : Prop where
  peers : ∀ n, bit s.peerBitmap n = decide (n < gNNodes + s.instances.length)
  ids : ∀ (k : Nat) (i : Instance), s.instances[k]? = some i → i.selfId = gNNodes + k
  marked : ∀ (k : Nat) (i : Instance), s.instances[k]? = some i → ∀ n, InSlice i.selfId n → s.alive n = true → bit i.inodeBitmap n = true
  known : ∀ n, s.alive n = true →
    (0 < n ∧ n < ninodes ∧ s.area n = true) ∨ ∃ (k : Nat) (i : Instance), s.instances[k]? = some i ∧ InSlice i.selfId n
  held : ∀ e ∈ s.made, s.alive e.2 = true
  once : (s.made.map Prod.snd).Nodup

theorem initInv (area : Nat → Bool) : Inv (init area) where
  peers n := by simp [init,bitmapSetBit]
  ids k i at' := by simp [init] at at'
  marked k i at' := by simp [init] at at'
  known n alive := by
    simp only [init,Bool.and_eq_true,decide_eq_true_eq] at alive
    exact Or.inl ⟨alive.1.1,alive.1.2,alive.2⟩
  held e mem := by simp [init] at mem
  once := by simp [init]

theorem nextId (inv : Inv s) (room : s.instances.length < maxLibfsProcesses) :
    findFirstZeroBit s.peerBitmap peerBitmapSize = gNNodes + s.instances.length := by
  have first := findFirstZeroBitSpec s.peerBitmap peerBitmapSize
  have size : gNNodes + s.instances.length < peerBitmapSize := by unfold peerBitmapSize; omega
  have skipped := first.skipped (gNNodes + s.instances.length) (Nat.zero_le _)
  simp only [inv.peers] at skipped
  have low : findFirstZeroBit s.peerBitmap peerBitmapSize ≤ gNNodes + s.instances.length := by
    by_contra past
    simpa using skipped (by omega)
  have found := first.found (by omega)
  simp only [inv.peers,Bool.not_eq_true',decide_eq_false_iff_not] at found
  omega

theorem setAt {l : List Instance} {k' : Nat} (at' : (l.set k j)[k']? = some i) :
    (k' = k ∧ i = j) ∨ (k' ≠ k ∧ l[k']? = some i) := by
  rw [List.getElem?_set] at at'
  split at at'
  · rename_i same
    split at at'
    · exact Or.inl ⟨same.symm,(Option.some.inj at').symm⟩
    · contradiction
  · rename_i other
    exact Or.inr ⟨Ne.symm other,at'⟩

theorem concatAt {l : List Instance} (at' : (l ++ [j])[k]? = some i) : l[k]? = some i ∨ (k = l.length ∧ i = j) := by
  rcases Nat.lt_or_ge k l.length with short | long
  · rw [List.getElem?_append_left short] at at'
    exact Or.inl at'
  · rw [List.getElem?_append_right long,List.getElem?_singleton] at at'
    split at at'
    · exact Or.inr ⟨by omega,(Option.some.inj at').symm⟩
    · contradiction

theorem setSlice {l : List Instance} {j' : Instance} (at' : l[k]? = some j) (same : j'.selfId = j.selfId)
    (inSlice : ∃ (k' : Nat) (i : Instance), l[k']? = some i ∧ InSlice i.selfId n) :
    ∃ (k' : Nat) (i : Instance), (l.set k j')[k']? = some i ∧ InSlice i.selfId n := by
  obtain ⟨k',i,found,inside⟩ := inSlice
  by_cases here : k' = k
  · subst here
    have short : k' < l.length := (List.getElem?_eq_some_iff.mp at').1
    cases at'.symm.trans found
    exact ⟨k',j',by simp [short],same ▸ inside⟩
  · exact ⟨k',i,by rw [List.getElem?_set_ne (Ne.symm here)]; exact found,inside⟩

theorem setIds (inv : Inv s) (at' : s.instances[k]? = some i) {j j' : Instance} {k' : Nat}
    (found : (s.instances.set k j)[k']? = some j') (same : j.selfId = i.selfId) : j'.selfId = gNNodes + k' := by
  rcases setAt found with ⟨here,new⟩ | ⟨_,old⟩
  · rw [new,here,same]
    exact inv.ids k i at'
  · exact inv.ids k' j' old

theorem registerInv (inv : Inv s) :
    Inv { s with peerBitmap := bitmapSet s.peerBitmap (gNNodes + s.instances.length) 1,
                 instances := s.instances ++ [⟨gNNodes + s.instances.length,readSuperblock s.area⟩] } where
  peers n := by
    rw [bitmapSetOne,inv.peers,List.length_append,List.length_singleton,← Bool.decide_or,decide_eq_decide]
    omega
  ids k i at' := by
    rcases concatAt at' with old | ⟨last,new⟩
    · exact inv.ids k i old
    · rw [new,last]
  marked k i at' n inside alive := by
    rcases concatAt at' with old | ⟨last,new⟩
    · exact inv.marked k i old n inside alive
    · subst new
      rcases inv.known n alive with stored | ⟨k',i',old,within⟩
      · simpa [readSuperblockBit,and_assoc] using stored
      · have same := sliceApart inside within
        have short := (List.getElem?_eq_some_iff.mp old).1
        rw [inv.ids k' i' old] at same
        simp only [Nat.add_left_cancel_iff] at same
        omega
  known n alive := by
    rcases inv.known n alive with stored | ⟨k,i,at',inside⟩
    · exact Or.inl stored
    · exact Or.inr ⟨k,i,by rw [List.getElem?_append_left (List.getElem?_eq_some_iff.mp at').1]; exact at',inside⟩
  held := inv.held
  once := inv.once

theorem icreateUnused (inv : Inv s) (at' : s.instances[k]? = some i) (roomy : Roomy i) : s.alive i.icreate = false := by
  obtain ⟨inside,clear⟩ := icreateFree roomy
  by_contra used
  have marked := inv.marked k i at' i.icreate inside (by simpa using used)
  rw [clear] at marked
  contradiction

theorem iallocBit (i : Instance) (inum n : Nat) : bit (i.ialloc inum).inodeBitmap n = (decide (n = inum) || bit i.inodeBitmap n) := by
  simp only [Instance.ialloc,bitmapSetOne,Bool.or_comm]

section
variable (inv : Inv s)
include inv

section
variable (at' : s.instances[k]? = some i)
include at'

theorem createInv {inum : Nat} (own : InSlice i.selfId inum) (unused : s.alive inum = false) :
    Inv { s with instances := s.instances.set k (i.ialloc inum),
                 alive := fun n => n == inum || s.alive n, made := s.made ++ [(i.selfId,inum)] } where
  peers n := by simpa using inv.peers n
  ids _ _ found := setIds inv at' found rfl
  marked k' j found n inside alive := by
    simp only [Bool.or_eq_true,beq_iff_eq] at alive
    rcases setAt found with ⟨_,new⟩ | ⟨other,old⟩
    · subst new
      rw [iallocBit]
      rcases alive with fresh | before
      · simp [fresh]
      · simp [inv.marked k i at' n inside before]
    · rcases alive with fresh | before
      · -- The new number lies in the slice of the instance that made it, and the ids differ.
        have same := sliceApart inside (fresh ▸ own)
        rw [inv.ids k' j old,inv.ids k i at'] at same
        omega
      · exact inv.marked k' j old n inside before
  known n alive := by
    simp only [Bool.or_eq_true,beq_iff_eq] at alive
    rcases alive with fresh | before
    · exact Or.inr (setSlice at' rfl ⟨k,i,at',fresh ▸ own⟩)
    · exact (inv.known n before).imp_right (setSlice at' rfl)
  held e mem := by
    rcases List.mem_append.mp mem with old | new
    · simp [inv.held e old]
    · simp [List.mem_singleton.mp new]
  once := by
    rw [List.map_append,List.nodup_append]
    refine ⟨inv.once,by simp,fun n old n' new same => ?_⟩
    obtain ⟨e,mem,number⟩ := List.mem_map.mp old
    have alive := inv.held e mem
    simp only [List.map_cons,List.map_nil,List.mem_singleton] at new
    rw [number,same,new,unused] at alive
    contradiction

theorem icreateInv (roomy : Roomy i) :
    Inv { s with instances := s.instances.set k (i.ialloc i.icreate),
                 alive := fun n => n == i.icreate || s.alive n, made := s.made ++ [(i.selfId,i.icreate)] } :=
  createInv inv at' (icreateFree roomy).1 (icreateUnused inv at' roomy)

theorem igetInv (inum : Nat) :
    Inv { s with instances := s.instances.set k (i.ialloc inum) } where
  peers n := by simpa using inv.peers n
  ids _ _ found := setIds inv at' found rfl
  marked k' j found n inside alive := by
    rcases setAt found with ⟨_,new⟩ | ⟨_,old⟩
    · subst new
      rw [iallocBit,inv.marked k i at' n inside alive,Bool.or_true]
    · exact inv.marked k' j old n inside alive
  known n alive := (inv.known n alive).imp_right (setSlice at' rfl)
  held := inv.held
  once := inv.once

theorem persistInv (inum : Nat) :
    Inv { s with instances := s.instances.set k (i.persistLogInode inum), alive := fun n => n != inum && s.alive n,
                 made := s.made.filter fun e => e.2 != inum } where
  peers n := by simpa using inv.peers n
  ids _ _ found := setIds inv at' found rfl
  marked k' j found n inside alive := by
    simp only [Bool.and_eq_true,bne_iff_ne] at alive
    rcases setAt found with ⟨_,new⟩ | ⟨_,old⟩
    · subst new
      rw [Instance.persistLogInode,bitmapClearOne,inv.marked k i at' n inside alive.2,decide_eq_false alive.1]
      rfl
    · exact inv.marked k' j old n inside alive.2
  known n alive := by
    simp only [Bool.and_eq_true] at alive
    exact (inv.known n alive.2).imp_right (setSlice at' rfl)
  held e mem := by
    obtain ⟨old,other⟩ := List.mem_filter.mp mem
    rw [Bool.and_eq_true]
    exact ⟨other,inv.held e old⟩
  once := inv.once.sublist (List.filter_sublist.map Prod.snd)

end

theorem digestInv (inum : Nat) : Inv { s with area := fun n => if n = inum then s.alive n else s.area n } where
  peers := inv.peers
  ids := inv.ids
  marked := inv.marked
  known n alive := by
    refine (inv.known n alive).imp_left fun ⟨positive,below,stored⟩ => ⟨positive,below,?_⟩
    have living : s.alive n = true := alive
    simp [living,stored]
  held := inv.held
  once := inv.once

theorem stepInv {a : Action} (allowed : Allowed s a) (taken : step s a = some s') : Inv s' := by
  cases a with
  | registerPeerLog =>
    obtain ⟨room,rfl⟩ := ifTaken taken
    rw [nextId inv room]
    exact registerInv inv
  | icreate k =>
    obtain ⟨i,at',rfl⟩ := Option.map_eq_some_iff.mp taken
    exact icreateInv inv at' (allowed i at')
  | iget k inum =>
    obtain ⟨i,at',rfl⟩ := Option.map_eq_some_iff.mp taken
    exact igetInv inv at' inum
  | persistLogInode k inum =>
    simp only [step] at taken
    split at taken <;> try contradiction
    obtain ⟨i,at',rfl⟩ := Option.map_eq_some_iff.mp taken
    exact persistInv inv at' inum
  | digestInode inum =>
    cases taken
    exact digestInv inv inum

end

theorem inodeNumbersUnique (area : Nat → Bool) (s : State) (reached : Reach step Allowed (init area) s) :
    (∀ (k : Nat) (i : Instance), s.instances[k]? = some i → Roomy i →
      i.icreate < ninodes ∧ bit i.inodeBitmap i.icreate = false ∧ s.alive i.icreate = false) ∧
    (∀ e ∈ s.made, s.alive e.2 = true) ∧ (s.made.map Prod.snd).Nodup := by
  have inv : Inv s := reachInvariant Inv (initInv area) (fun _ _ _ inv allowed taken => stepInv inv allowed taken) reached
  refine ⟨fun k i at' roomy => ?_,inv.held,inv.once⟩
  obtain ⟨inside,clear⟩ := icreateFree roomy
  exact ⟨sliceInside roomy.1 inside,clear,icreateUnused inv at' roomy⟩

end Slices

def startedFresh (id : Nat) : Instance := ⟨id,readSuperblock fun _ => false⟩

theorem startedFreshBit (id n : Nat) : bit (startedFresh id).inodeBitmap n = false := by
  simp [startedFresh,readSuperblockBit]

theorem sliceFirst (id : Nat) : InSlice id (sliceStart id) :=
  ⟨Nat.le_refl _,by unfold sliceStart ninodes maxLibfsProcesses; omega⟩

theorem icreateFirst {i : Instance} (low : i.selfId < maxLibfsProcesses) (clear : bit i.inodeBitmap (sliceStart i.selfId) = false) :
    i.icreate = sliceStart i.selfId := by
  have found := findNextZeroBitSpec i.inodeBitmap ninodes (sliceStart i.selfId)
  have start : sliceStart i.selfId < ninodes := sliceInside low (sliceFirst i.selfId)
  refine Nat.le_antisymm ?_ (by have := found.low; unfold Instance.icreate; omega)
  by_contra past
  have skipped := found.skipped _ (Nat.le_refl _) (by unfold Instance.icreate at past; omega)
  simp [clear] at skipped

theorem freshRoomy {id : Nat} (low : id < maxLibfsProcesses) : Roomy (startedFresh id) :=
  ⟨low,sliceStart id,sliceFirst id,startedFreshBit id _⟩

def twoStarted : State :=
  { init (fun _ => false) with
      peerBitmap := [6,7].foldl (fun m id => bitmapSet m id 1) (bitmapSet empty 0 gNNodes), instances := [6,7].map startedFresh }

def twoCreated : State :=
  { twoStarted with
      instances := [(startedFresh 6).ialloc 225000,(startedFresh 7).ialloc 262500],
      alive := fun n => n == 262500 || (n == 225000 || twoStarted.alive n), made := [(6,225000),(7,262500)] }

theorem inodeNumbersUniqueTwo :
    ∃ s, Reach step Allowed (init fun _ => false) s ∧ s.made = [(6,225000),(7,262500)] ∧ (∀ e ∈ s.made, s.alive e.2 = true) ∧
      (s.made.map Prod.snd).Nodup ∧ ∀ i ∈ s.instances[0]?, i.icreate < ninodes ∧ s.alive i.icreate = false := by
  have started : Reach step Allowed (init fun _ => false) twoStarted :=
    .next (a := .registerPeerLog) (.next (a := .registerPeerLog) .start trivial rfl) trivial rfl
  have sixth : (startedFresh 6).icreate = 225000 := icreateFirst (i := startedFresh 6) (by decide) (startedFreshBit 6 _)
  have seventh : (startedFresh 7).icreate = 262500 := icreateFirst (i := startedFresh 7) (by decide) (startedFreshBit 7 _)
  have first : step twoStarted (.icreate 0) = some { twoStarted with
      instances := [(startedFresh 6).ialloc 225000,startedFresh 7], alive := fun n => n == 225000 || twoStarted.alive n,
      made := [(6,225000)] } := by
    simp [step,twoStarted,sixth,init]
    rfl
  have reached : Reach step Allowed (init fun _ => false) twoCreated := by
    refine .next (a := .icreate 1) (.next (a := .icreate 0) started ?_ first) ?_ ?_
    · rintro i ⟨⟩
      exact freshRoomy (by decide)
    · rintro i ⟨⟩
      exact freshRoomy (by decide)
    · simp [step,twoCreated,seventh]
      rfl
  obtain ⟨free,alive,once⟩ := inodeNumbersUnique _ _ reached
  refine ⟨twoCreated,reached,rfl,alive,once,?_⟩
  rintro i ⟨⟩
  have roomy : Roomy ((startedFresh 6).ialloc 225000) :=
    ⟨by decide,225001,⟨by decide,by decide⟩,by simp [iallocBit,startedFreshBit]⟩
  have next := free 0 _ rfl roomy
  exact ⟨next.1,next.2.2⟩

theorem icreateBeyond (i : Instance) (late : maxLibfsProcesses ≤ i.selfId) : i.icreate = ninodes := by
  have start : sliceStart maxLibfsProcesses ≤ sliceStart i.selfId := Nat.div_le_div_right (Nat.mul_le_mul_right ninodes late)
  have top : sliceStart maxLibfsProcesses = ninodes := rfl
  rw [top] at start
  have found := findNextZeroBitSpec i.inodeBitmap ninodes (sliceStart i.selfId)
  have low := found.low
  rw [Nat.min_eq_right start] at low
  exact Nat.le_antisymm found.high low

def fourStarted : State :=
  { init (fun _ => false) with
      peerBitmap := [6,7,8,9].foldl (fun m id => bitmapSet m id 1) (bitmapSet empty 0 gNNodes),
      instances := [6,7,8,9].map startedFresh }

def lateCreated : State :=
  { fourStarted with
      instances := [startedFresh 6,startedFresh 7,(startedFresh 8).ialloc ninodes,(startedFresh 9).ialloc ninodes],
      alive := fun n => n == ninodes || (n == ninodes || fourStarted.alive n), made := [(8,ninodes),(9,ninodes)] }

theorem lateInstancesCollide :
    ∃ s, Reach step Any (init fun _ => false) s ∧ s.made = [(8,ninodes),(9,ninodes)] ∧ s.alive ninodes = true ∧
      ∀ i ∈ s.instances, ∃ n, InSlice i.selfId n ∧ bit i.inodeBitmap n = false := by
  have started : run step (init fun _ => false) (List.replicate 4 .registerPeerLog) = some fourStarted := rfl
  have created : run step fourStarted [.icreate 2,.icreate 3] = some lateCreated := by
    have third : (startedFresh 8).icreate = ninodes := icreateBeyond _ (by decide)
    have fourth : (startedFresh 9).icreate = ninodes := icreateBeyond _ (by decide)
    simp [run,step,fourStarted,lateCreated,third,fourth,init]
    exact ⟨rfl,rfl⟩
  refine ⟨lateCreated,reachTrans (runReach started) (runReach created),rfl,rfl,fun i mem => ?_⟩
  refine ⟨sliceStart i.selfId + 1,?_⟩
  simp only [lateCreated,List.mem_cons,List.not_mem_nil,or_false] at mem
  rcases mem with rfl | rfl | rfl | rfl <;>
    exact ⟨⟨by decide,by decide⟩,by simp [iallocBit,startedFreshBit]; try decide⟩

end LineFS.InodeSlices
