import LineFS.ExtentRemove
import LineFS.Base.Run

/-! The extent tree of an inode under any sequence of creations and truncations. A creation records
the blocks it returns, a truncation forgets those of its range; as long as no creation reaches over
the first extent, the tree is exactly the recorded map. -/
namespace LineFS.Extents
open List (map_append map_cons mem_append mem_cons mem_map)
open Base Kernfs

section Lookup
variable {σ : Type} {A : Allocator σ} {space : σ} {t : Tree} {p : Path} {pre post : List Extent} {x : Extent}
  {lblk len b : Nat}

theorem mapAt (sound : Sound t) (found : Located t p pre x post lblk) : t.map lblk = x.seg.maps lblk := by
  have ordered := sound.valid.ordered
  rw [Tree.map]
  rw [locatedExtents found,map_append,map_cons] at ordered ⊢
  refine Seg.lookupAt ordered (fun more => found.here ?_) fun s mem => ?_
  · rintro empty
    rw [empty] at more
    exact more rfl
  · obtain ⟨e,inside,rfl⟩ := mem_map.mp mem
    exact found.above e inside

theorem listedOf (mapped : t.map lblk = some b) : t.extents ≠ [] := by
  intro empty
  rw [Tree.map,empty] at mapped
  cases mapped

theorem getMapped (A : Allocator σ) (space : σ) (len : Nat) (create : Bool) (sound : Sound t)
    (mapped : t.map lblk = some b) :
    ∃ n, mlfsExtGetBlocks A space t lblk len create = some ⟨space,t,b,n⟩ ∧ n ≤ len ∧ (0 < len → 0 < n) ∧
      ∀ i < n, t.map (lblk + i) = some (b + i) := by
  obtain ⟨p,pre,x,post,sought,found⟩ := located sound (listedOf mapped) lblk
  obtain ⟨low,high,rfl⟩ := Seg.mapsSome ((mapAt sound found).symm.trans mapped)
  have inside : x.eeBlock ≤ lblk ∧ lblk < x.stop := ⟨low,high⟩
  have extents := locatedExtents found
  have plain := (sound.valid.plain x (by rw [extents]; simp)).1
  refine ⟨min (x.stop - lblk) len,?_,Nat.min_le_right _ _,by omega,fun i less => ?_⟩
  · simp only [mlfsExtGetBlocks,sought,locatedNear found,Option.filter_some,decide_eq_true inside,if_true,plainWritten plain,
      Bool.false_eq_true,if_false,Extent.seg]
    congr 2
    omega
  · have ordered := sound.valid.ordered
    have within : x.seg.maps (lblk + i) = some (x.seg.image + (lblk + i - x.seg.low)) :=
      Seg.mapsIn (Nat.le_trans low (Nat.le_add_right _ _)) (show lblk + i < x.stop by omega)
    rw [Tree.map]
    rw [extents,map_append,map_cons] at ordered ⊢
    rw [Seg.lookupInsert ordered,within,Option.some_or]
    congr 1
    have low' : x.seg.low ≤ lblk := low
    omega

theorem holeOutside (sound : Sound t) (found : Located t p pre x post lblk) (hole : t.map lblk = none) :
    ¬(x.eeBlock ≤ lblk ∧ lblk < x.stop) := by
  intro inside
  have maps : x.seg.maps lblk = some _ := Seg.mapsIn inside.1 inside.2
  rw [mapAt sound found,maps] at hole
  cases hole

theorem nextAllocated (found : Located t p pre x post lblk) :
    mlfsExtNextAllocatedBlock p = (first Extent.eeBlock (post ++ after 0 p.frames)).getD extMaxBlocks := by
  have at_ : p.leaf[pre.length + 1]? = post.head? := by
    rw [found.leaf]
    cases post <;> simp
  rw [mlfsExtNextAllocatedBlock,found.ext]
  simp only [Option.bind_some,at_]
  cases post with
  | nil => exact nextLeafFirst found.fits.sides
  | cons => rfl

-- What lies behind the hole begins above the block, unless the block is the last there is.
theorem holeDetermined (found : Located t p pre x post lblk) (outside : ¬(x.eeBlock ≤ lblk ∧ lblk < x.stop))
    (low : lblk < extMaxBlocks) : ∃ n, mlfsExtDetermineHole p lblk = some n := by
  rw [mlfsExtDetermineHole,locatedNear found]
  by_cases above : lblk < x.eeBlock
  · exact ⟨_,if_pos above⟩
  · have behind : lblk < mlfsExtNextAllocatedBlock p := by
      rw [nextAllocated found]
      cases next : post ++ after 0 p.frames with
      | nil => exact low
      | cons y ys => exact found.above y (by rw [next]; exact .head _)
    have past : x.stop ≤ lblk ∧ mlfsExtNextAllocatedBlock p ≠ x.stop := by omega
    exact ⟨_,(if_neg above).trans (if_pos past)⟩

theorem getHole (A : Allocator σ) (space : σ) (len : Nat) (sound : Sound t) (hole : t.map lblk = none) (low : lblk < extMaxBlocks) :
    mlfsExtGetBlocks A space t lblk len false = some ⟨space,t,0,0⟩ := by
  by_cases listed : t.extents = []
  · obtain ⟨rfl,sought⟩ := locatedEmpty sound listed lblk
    rw [mlfsExtGetBlocks,sought]
    rfl
  obtain ⟨p,pre,x,post,sought,found⟩ := located sound listed lblk
  have outside := holeOutside sound found hole
  obtain ⟨n,determined⟩ := holeDetermined found outside low
  simp [mlfsExtGetBlocks,sought,locatedNear found,Option.filter_some,outside,found.ext,determined]

end Lookup

/- A block that is mapped, or blocks from one that is not on; where nothing is mapped before the block,
nothing is mapped in the range either. -/
def Fitting (map : Nat → Option Nat) (lblk len : Nat) : Prop :=
  map lblk = none → 0 < len ∧ lblk < extMaxBlocks ∧
    (len ≤ extInitMaxLen ∨ ∃ i ≤ extInitMaxLen, map (lblk + i) ≠ none) ∧
    ((∀ l < lblk, map l = none) → ∀ i < len, map (lblk + i) = none)

section Create
variable {σ : Type} {A : Allocator σ} {used : σ → Nat → Prop} {space : σ} {t : Tree} {p : Path}
  {pre post ss ts : List Extent} {x new : Extent} {lblk len : Nat}

theorem validInsert (valid : Valid (ss ++ ts)) (plain : Plain new) (bound : new.stop ≤ extMaxBlocks)
    (left : ∀ e ∈ ss, e.stop ≤ new.eeBlock) (right : ∀ e ∈ ts, new.stop ≤ e.eeBlock) : Valid (ss ++ new::ts) := by
  have ordered := valid.ordered
  rw [map_append] at ordered
  obtain ⟨one,two,apart⟩ := List.pairwise_append.mp ordered
  refine ⟨fun e mem => ?_,?_⟩
  · rcases mem_append.mp mem with mem | mem
    · exact valid.plain e (List.mem_append_left _ mem)
    rcases mem_cons.mp mem with rfl | mem
    · exact ⟨plain,bound⟩
    · exact valid.plain e (List.mem_append_right _ mem)
  · rw [map_append,map_cons]
    refine List.pairwise_append.mpr ⟨one,List.pairwise_cons.mpr ⟨fun s mem => ?_,two⟩,fun a mem s inside => ?_⟩
    · obtain ⟨e,inE,rfl⟩ := mem_map.mp mem
      exact right e inE
    · rcases mem_cons.mp inside with rfl | inside
      · obtain ⟨e,inE,rfl⟩ := mem_map.mp mem
        exact left e inE
      · exact apart a mem s inside

structure Hole (t : Tree) (lblk len n : Nat) (ss ts : List Extent) : Prop where
  pos : 0 < n
  most : n ≤ len
  short : n ≤ extInitMaxLen
  bound : lblk + n ≤ extMaxBlocks
  extents : t.extents = ss ++ ts
  left : ∀ e ∈ ss, e.stop ≤ lblk
  right : ∀ e ∈ ts, lblk + n ≤ e.eeBlock
  full : n = len ∨ lblk + n = extMaxBlocks ∨ t.map (lblk + n) ≠ none

theorem mappedIn {l : Nat} (mapped : t.map l ≠ none) : ∃ e ∈ t.extents, e.eeBlock ≤ l ∧ l < e.stop := by
  obtain ⟨b,found⟩ := Option.ne_none_iff_exists'.mp mapped
  obtain ⟨s,mem,maps⟩ := Seg.lookupSome found
  obtain ⟨e,inside,rfl⟩ := mem_map.mp mem
  obtain ⟨low,high,_⟩ := Seg.mapsSome maps
  exact ⟨e,inside,low,high⟩

theorem mapsStart (sound : Sound t) (mem : x ∈ t.extents) : t.map x.eeBlock ≠ none := by
  have ordered := sound.valid.ordered
  have less := plainStop (sound.valid.plain x mem).1
  obtain ⟨a,b,extents⟩ := List.append_of_mem mem
  rw [Tree.map]
  rw [extents,map_append,map_cons] at ordered ⊢
  have maps : x.seg.maps x.eeBlock = some _ := Seg.mapsIn (Nat.le_refl _) less
  rw [Seg.lookupInsert ordered,maps]
  exact Option.some_ne_none _

theorem clearOf {n i : Nat} (extents : t.extents = ss ++ ts) (left : ∀ e ∈ ss, e.stop ≤ lblk)
    (right : ∀ e ∈ ts, lblk + n ≤ e.eeBlock) (mapped : t.map (lblk + i) ≠ none) : n ≤ i := by
  obtain ⟨e,mem,low,high⟩ := mappedIn mapped
  rw [extents] at mem
  rcases mem_append.mp mem with mem | mem
  · have ends := left e mem
    omega
  · have begins := right e mem
    omega

theorem holeOf {n : Nat} (pos : 0 < n) (most : n ≤ len) (bound : lblk + n ≤ extMaxBlocks)
    (short : len ≤ extInitMaxLen ∨ ∃ i ≤ extInitMaxLen, t.map (lblk + i) ≠ none) (extents : t.extents = ss ++ ts)
    (left : ∀ e ∈ ss, e.stop ≤ lblk) (right : ∀ e ∈ ts, lblk + n ≤ e.eeBlock)
    (full : n = len ∨ lblk + n = extMaxBlocks ∨ t.map (lblk + n) ≠ none) : Hole t lblk len n ss ts := by
  refine ⟨pos,most,?_,bound,extents,left,right,full⟩
  rcases short with short | ⟨i,small,mapped⟩
  · exact Nat.le_trans most short
  · exact Nat.le_trans (clearOf extents left right mapped) small

theorem holeFree {n : Nat} (hole : Hole t lblk len n ss ts) : ∀ i < n, t.map (lblk + i) = none := by
  intro i less
  by_contra mapped
  exact absurd less (Nat.not_lt.mpr (clearOf hole.extents hole.left hole.right mapped))

theorem nextAbove {b : List Extent} (valid : Valid b) (low : lblk < extMaxBlocks) (above : ∀ e ∈ b, lblk < e.eeBlock) :
    let next := (first Extent.eeBlock b).getD extMaxBlocks
    lblk < next ∧ next ≤ extMaxBlocks ∧ (∀ e ∈ b, next ≤ e.eeBlock) ∧ (next = extMaxBlocks ∨ ∃ e ∈ b, e.eeBlock = next) := by
  cases b with
  | nil => exact ⟨low,Nat.le_refl _,by simp,.inl rfl⟩
  | cons e b =>
    have less := plainStop (valid.plain e (.head _)).1
    have bound := (valid.plain e (.head _)).2
    have later := (List.pairwise_cons.mp (validSorted valid)).1
    refine ⟨above e (.head _),?_,fun d mem => ?_,.inr ⟨e,.head _,rfl⟩⟩
    · exact Nat.le_trans (Nat.le_of_lt less) bound
    · rcases mem_cons.mp mem with rfl | mem
      · exact Nat.le_refl _
      · exact Nat.le_of_lt (later d mem)

theorem firstClear (sound : Sound t) (found : Located t p [] x post lblk) (front : before 0 p.frames = [])
    (less : lblk < x.eeBlock) (clear : (∀ l < lblk, t.map l = none) → ∀ i < len, t.map (lblk + i) = none) :
    lblk + len ≤ x.eeBlock := by
  have extents := locatedExtents found
  rw [front] at extents
  have unmapped : ∀ l < lblk, t.map l = none := by
    intro l low
    by_contra mapped
    obtain ⟨e,mem,begins,_⟩ := mappedIn mapped
    rw [extents] at mem
    rcases mem_cons.mp mem with rfl | mem
    · omega
    · have above := found.above e mem
      omega
  by_contra reach
  have mapped := clear unmapped (x.eeBlock - lblk) (by omega)
  have at_ : lblk + (x.eeBlock - lblk) = x.eeBlock := by omega
  rw [at_] at mapped
  exact mapsStart sound (by rw [extents]; simp) mapped

theorem holeFound (sound : Sound t) (found : Located t p pre x post lblk) (hole : t.map lblk = none)
    (fitting : Fitting t.map lblk len) :
    ∃ ss ts, Hole t lblk len (min (mlfsExtNextAllocatedBlock p - lblk) len) ss ts ∧ lblk < mlfsExtNextAllocatedBlock p ∧
      ∀ new : Extent, new.eeBlock = lblk → new.eeBlock ≠ x.eeBlock ∧ p.placed pre x post new = ss ++ new::ts := by
  obtain ⟨pos,low,short,clear⟩ := fitting hole
  have outside := holeOutside sound found hole
  have extents := locatedExtents found
  have valid := sound.valid
  rw [extents] at valid
  have less := plainStop (valid.plain x (by simp)).1
  rw [← List.singleton_append,← List.append_assoc] at valid
  have validB : Valid (post ++ after 0 p.frames) := validSublist valid (List.sublist_append_right _ _)
  obtain ⟨next,bound,above,begins⟩ := nextAbove validB low found.above
  rw [nextAllocated found]
  generalize (first Extent.eeBlock (post ++ after 0 p.frames)).getD extMaxBlocks = nextBlk at next bound above begins ⊢
  have keep : ∀ e ∈ post ++ after 0 p.frames, lblk + min (nextBlk - lblk) len ≤ e.eeBlock := by
    intro e mem
    have bound := above e mem
    omega
  have full : min (nextBlk - lblk) len = len ∨ lblk + min (nextBlk - lblk) len = extMaxBlocks ∨
      t.map (lblk + min (nextBlk - lblk) len) ≠ none := by
    rcases Nat.lt_or_ge (nextBlk - lblk) len with less | less
    · have at_ : lblk + min (nextBlk - lblk) len = nextBlk := by omega
      rw [at_]
      refine .inr (begins.imp id ?_)
      rintro ⟨e,mem,rfl⟩
      exact mapsStart sound (by rw [extents]; simp [mem_append.mp mem])
    · exact .inl (Nat.min_eq_right less)
  clear begins
  by_cases behind : x.eeBlock ≤ lblk
  · refine ⟨before 0 p.frames ++ pre ++ [x],post ++ after 0 p.frames,?_,next,fun new at_ => ⟨by omega,?_⟩⟩
    · refine holeOf (by omega) (Nat.min_le_right _ _) (by omega) short (by rw [extents]; simp) (fun e mem => ?_) keep full
      rcases memSnoc mem with mem | rfl
      · rw [List.append_assoc] at valid
        have apart := validApart valid mem (y := x) (by simp)
        omega
      · omega
    · rw [Path.placed,placed,if_pos (by omega)]
      simp
  · have front : before 0 p.frames ++ pre = [] := by
      by_contra more
      exact behind (found.here more)
    obtain ⟨frames,rfl⟩ := List.append_eq_nil_iff.mp front
    have reach := firstClear sound found frames (by omega) clear
    refine ⟨[],x::(post ++ after 0 p.frames),?_,next,fun new at_ => ⟨by omega,?_⟩⟩
    · refine holeOf (by omega) (Nat.min_le_right _ _) (by omega) short (by rw [extents,front,List.nil_append]) (by simp) (fun e mem => ?_) full
      rcases mem_cons.mp mem with rfl | mem
      · omega
      · exact keep e mem
    · rw [Path.placed,placed,if_neg (by omega),front]

theorem grantedPlain {n : Nat} (law : Lawful A used) (space : σ) (hole : Hole t lblk len n ss ts) (sound : Sound t) :
    let g := A.alloc space n
    let new : Extent := ⟨lblk,g.count,g.first⟩
    g.count % 65536 = g.count ∧ Plain new ∧ Valid (ss ++ new::ts) := by
  intro g new
  have count := law.counted space n hole.pos
  have short := hole.short
  have bound := hole.bound
  have plain : Plain new := ⟨count.1,Nat.le_trans count.2 short⟩
  have stop : new.stop ≤ lblk + n := by
    rw [Extent.stop,plainLen plain]
    exact Nat.add_le_add_left count.2 lblk
  have valid := sound.valid
  rw [hole.extents] at valid
  refine ⟨Nat.mod_eq_of_lt ?_,plain,validInsert valid plain (Nat.le_trans stop bound) hole.left fun e mem => ?_⟩
  · exact Nat.lt_of_le_of_lt plain.2 (by decide)
  · exact Nat.le_trans stop (hole.right e mem)

theorem getCreates {c : Change σ} (sought : mlfsFindExtent t lblk = some p)
    (outside : (p.near.filter fun ex => decide (ex.eeBlock ≤ lblk ∧ lblk < ex.stop)) = none)
    (listed : ¬(p.ext = none ∧ t.depth ≠ 0)) (next : lblk < mlfsExtNextAllocatedBlock p) :
    let g := A.alloc space (min (mlfsExtNextAllocatedBlock p - lblk) len)
    g.count % 65536 = g.count → Plain ⟨lblk,g.count,g.first⟩ →
    mlfsExtInsertExtent A g.space t p ⟨lblk,g.count,g.first⟩ false = some c →
    mlfsExtGetBlocks A space t lblk len true = some ⟨c.space,c.tree,g.first,g.count⟩ := by
  intro g small plain inserts
  rw [mlfsExtGetBlocks,sought]
  simp only [outside,if_neg listed,if_true,if_neg (Nat.not_le.mpr next)]
  have written := plainWritten plain
  have same : A.alloc space (min (mlfsExtNextAllocatedBlock p - lblk) len) = g := rfl
  rw [same,small,inserts]
  simp only [written,Bool.false_eq_true,if_false]
  rfl

theorem createHole (law : Lawful A used) (space : σ) (sound : Sound t) (hole : t.map lblk = none)
    (fitting : Fitting t.map lblk len) :
    ∃ n ss ts, Hole t lblk len n ss ts ∧ ∃ c : Change σ,
      mlfsExtGetBlocks A space t lblk len true = some ⟨c.space,c.tree,(A.alloc space n).first,(A.alloc space n).count⟩ ∧
      Inserted A (A.alloc space n).space t.blks (ss ++ ⟨lblk,(A.alloc space n).count,(A.alloc space n).first⟩::ts) false c := by
  by_cases listed : t.extents = []
  · obtain ⟨pos,low,short,_⟩ := fitting hole
    have empty : Hole t lblk len (min (extMaxBlocks - lblk) len) [] [] :=
      holeOf (by omega) (Nat.min_le_right _ _) (by omega) short listed (by simp) (by simp) (by omega)
    obtain ⟨small,plain,valid⟩ := grantedPlain law space empty sound
    obtain ⟨rfl,sought⟩ := locatedEmpty sound listed lblk
    refine ⟨_,_,_,empty,?_⟩
    obtain ⟨c,done,inserted⟩ := insertEmpty A (A.alloc space (min (extMaxBlocks - lblk) len)).space false plain valid
    exact ⟨c,getCreates sought rfl (fun h => h.2 rfl) low small plain done,inserted⟩
  · obtain ⟨p,pre,x,post,sought,found⟩ := located sound listed lblk
    obtain ⟨ss,ts,room,next,place⟩ := holeFound sound found hole fitting
    obtain ⟨small,plain,valid⟩ := grantedPlain law space room sound
    refine ⟨_,ss,ts,room,?_⟩
    obtain ⟨other,same⟩ := place ⟨lblk,_,_⟩ rfl
    rw [← same] at valid ⊢
    obtain ⟨c,done,inserted⟩ := insertInserted A _ false sound found plain other valid
    refine ⟨c,getCreates sought ?_ ?_ next small plain done,inserted⟩
    · simp only [locatedNear found,Option.filter_some,decide_eq_false (holeOutside sound found hole)]
      rfl
    · rw [found.ext]
      exact fun h => absurd h.1 (Option.some_ne_none _)

end Create

structure Creates {σ : Type} (t : Tree) (lblk len : Nat) (g : Got σ) : Prop where
  least : 0 < len → 0 < g.len
  most : g.len ≤ len
  leading : (∀ i < g.len, t.map (lblk + i) = some (g.pblk + i)) ∨ ∀ i < g.len, t.map (lblk + i) = none
  map : g.tree.map = mapRange t.map lblk g.pblk g.len

structure State (σ : Type) where
  space : σ
  tree : Tree
  recorded : Nat → Option Nat

inductive Action where
  | create (lblk len : Nat)
  | truncate (start last : Nat)

def initial {σ : Type} (space : σ) : State σ := ⟨space,emptyTree,fun _ => none⟩

section Run
variable {σ : Type} (A : Allocator σ)

def step (s : State σ) : Action → Option (State σ)
  | .create lblk len =>
    (mlfsExtGetBlocks A s.space s.tree lblk len true).map fun g =>
      ⟨g.space,g.tree,mapRange s.recorded lblk g.pblk g.len⟩
  | .truncate start last =>
    (mlfsExtRemoveSpace start last A s.space s.tree).map fun r =>
      ⟨r.space,r.tree,fun l => if start ≤ l ∧ l ≤ last then none else s.recorded l⟩

/- The path of `mlfs_ext_remove_space` is set only for an end below `EXT_MAX_BLOCKS - 1`. -/
def Allowed (s : State σ) : Action → Prop
  | .create lblk len => Fitting s.tree.map lblk len
  | .truncate _ last => last + 1 < extMaxBlocks

instance (map : Nat → Option Nat) (lblk len : Nat) : Decidable (Fitting map lblk len) :=
  inferInstanceAs (Decidable (_ → _ ∧ _ ∧ (_ ∨ ∃ i ≤ extInitMaxLen, _) ∧ ((∀ l < lblk, _) → ∀ i < len, _)))

instance (s : State σ) (a) : Decidable (Allowed s a) := by cases a <;> unfold Allowed <;> infer_instance

structure Exact (used : σ → Nat → Prop) (s : State σ) : Prop where
  sound : Sound s.tree
  same : s.tree.map = s.recorded
  held : Held used s.space (s.tree.blks ++ s.tree.data)

variable {A} {used : σ → Nat → Prop} {space : σ} {s s' : State σ} {t : Tree} {lblk len : Nat}

theorem mapRangeSame {map : Nat → Option Nat} {b n : Nat} (mapped : ∀ i < n, map (lblk + i) = some (b + i)) :
    mapRange map lblk b n = map := by
  funext l
  rw [mapRange]
  split_ifs with inside
  · have at_ := mapped (l - lblk) (by omega)
    rw [Nat.add_sub_cancel' inside.1] at at_
    exact at_.symm
  · rfl

theorem insertedMap {ss ts : List Extent} {first count : Nat} {c : Change σ} (extents : t.extents = ss ++ ts)
    (plain : Plain ⟨lblk,count,first⟩) (valid : Valid (ss ++ ⟨lblk,count,first⟩::ts))
    (inserted : Inserted A space t.blks (ss ++ ⟨lblk,count,first⟩::ts) false c) :
    (∀ i < count, t.map (lblk + i) = none) ∧ c.tree.map = mapRange t.map lblk first count ∧
      c.tree.data.Perm (List.range' first count ++ t.data) := by
  have alike := mergedAlike inserted.merged valid
  have ordered := valid.ordered
  have seg : (⟨lblk,count,first⟩ : Extent).seg = ⟨lblk,count,first⟩ := by rw [Extent.seg,plainLen plain]
  rw [map_append,map_cons,seg] at ordered
  have same := alike.same
  have images := alike.images
  simp only [map_append,map_cons,seg] at same images
  refine ⟨fun i less => ?_,?_,?_⟩
  · rw [Tree.map,extents,map_append]
    refine Seg.lookupApart ordered (Nat.le_add_right lblk i) ?_
    exact Nat.add_lt_add_left less lblk
  · funext l
    rw [Tree.map,same,Seg.lookupInsert ordered,Tree.map,extents,map_append,mapRange]
    split_ifs with inside
    · have maps : (⟨lblk,count,first⟩ : Seg).maps l = some (first + (l - lblk)) := Seg.mapsIn inside.1 inside.2
      rw [maps,Option.some_or]
    · have none_ : (⟨lblk,count,first⟩ : Seg).maps l = none := if_neg inside
      rw [none_,Option.none_or]
  · rw [Tree.data,images,Tree.data,extents,map_append,Seg.imagesAppend,Seg.imagesCons,Seg.imagesAppend]
    exact List.perm_append_comm_assoc _ _ _

theorem getCreated (law : Lawful A used) (sound : Sound t) (held : Held used space (t.blks ++ t.data))
    (fitting : Fitting t.map lblk len) :
    ∃ g, mlfsExtGetBlocks A space t lblk len true = some g ∧ Creates t lblk len g ∧ Sound g.tree ∧
      Held used g.space (g.tree.blks ++ g.tree.data) := by
  cases at_ : t.map lblk with
  | some b =>
    obtain ⟨n,done,most,pos,mapped⟩ := getMapped A space len true sound at_
    exact ⟨_,done,⟨pos,most,.inl mapped,(mapRangeSame mapped).symm⟩,sound,held⟩
  | none =>
    obtain ⟨n,ss,ts,hole,c,done,inserted⟩ := createHole law space sound at_ fitting
    obtain ⟨_,plain,valid⟩ := grantedPlain law space hole sound
    obtain ⟨free,map,data⟩ := insertedMap hole.extents plain valid inserted
    have count := law.counted space n hole.pos
    refine ⟨_,done,⟨fun _ => count.1,Nat.le_trans count.2 hole.most,.inr free,map⟩,inserted.sound,?_⟩
    have granted := heldPerm (heldGrant law held n) (List.perm_append_comm_assoc _ _ _)
    exact heldPerm (booksHeld law inserted.books granted) (List.Perm.append_left _ data.symm)

theorem gapFull {map : Nat → Option Nat} {n : Nat} (most : n ≤ len) (free : ∀ i < n, map (lblk + i) = none)
    (full : n = len ∨ map (lblk + n) ≠ none) : gapLength map lblk len = n := by
  induction len generalizing lblk n with
  | zero => exact (Nat.le_zero.mp most).symm
  | succ len ih =>
    rw [gapLength]
    cases n with
    | zero => exact if_neg (full.resolve_left (Nat.succ_ne_zero len).symm)
    | succ n =>
      have here : map lblk = none := free 0 (Nat.succ_pos n)
      have rest : ∀ i < n, map (lblk + 1 + i) = none := fun i less => by
        rw [Nat.add_right_comm]
        exact free (i + 1) (Nat.succ_lt_succ less)
      have last : n = len ∨ map (lblk + 1 + n) ≠ none := full.imp Nat.succ.inj fun mapped => by
        rw [Nat.add_right_comm]
        exact mapped
      rw [if_pos here,ih (Nat.le_of_succ_le_succ most) rest last]

theorem runReaches {map : Nat → Option Nat} {b n : Nat} (most : n ≤ len) (mapped : ∀ i < n, map (lblk + i) = some (b + i)) :
    n ≤ runLength map lblk b len := by
  induction len generalizing lblk b n with
  | zero => exact most
  | succ len ih =>
    cases n with
    | zero => exact Nat.zero_le _
    | succ n =>
      have here : map lblk = some b := mapped 0 (Nat.succ_pos n)
      rw [runLength,if_pos here]
      refine Nat.succ_le_succ (ih (Nat.le_of_succ_le_succ most) fun i less => ?_)
      rw [Nat.add_right_comm lblk,Nat.add_right_comm b]
      exact mapped (i + 1) (Nat.succ_lt_succ less)

theorem stepExact (law : Lawful A used) {a : Action} (exact_ : Exact used s) (allowed : Allowed s a)
    (taken : step A s a = some s') : Exact used s' := by
  cases a with
  | create lblk len =>
    obtain ⟨g,done,creates,sound,held⟩ := getCreated law exact_.sound exact_.held allowed
    rw [step,done] at taken
    cases taken
    exact ⟨sound,by rw [creates.map,exact_.same],held⟩
  | truncate start last =>
    obtain ⟨r,done,removes⟩ := removeSpaceRemoves law (heldLeft exact_.held) exact_.sound allowed start
    rw [step,done] at taken
    cases taken
    refine ⟨removes.sound,?_,(removesHeld law removes exact_.held).1⟩
    rw [← exact_.same]
    exact funext removes.map

theorem reachedExact (law : Lawful A used) (reserved : ∀ b ≤ spaceRoot, used space b)
    (reached : Reach (step A) Allowed (initial space) s) : Exact used s := by
  refine reachInvariant (Exact used) ?_ (fun _ _ _ => stepExact law) reached
  exact ⟨emptySound,rfl,List.nodup_nil,nofun,nofun,reserved⟩

-- A hole at the last block number may run into the `BUG_ON` of `mlfs_ext_determine_hole`.
def Finds (A : Allocator σ) (s : State σ) (lblk len : Nat) : Prop :=
  match s.recorded lblk with
  | none => lblk < extMaxBlocks → mlfsExtGetBlocks A s.space s.tree lblk len false = some ⟨s.space,s.tree,0,0⟩
  | some b => ∃ n, mlfsExtGetBlocks A s.space s.tree lblk len false = some ⟨s.space,s.tree,b,n⟩ ∧ n ≤ len ∧
      (0 < len → 0 < n) ∧ ∀ i < n, s.recorded (lblk + i) = some (b + i)

theorem exactFinds (exact_ : Exact used s) (lblk len : Nat) : Finds A s lblk len := by
  unfold Finds
  rw [← exact_.same]
  cases at_ : s.tree.map lblk with
  | none => exact fun low => getHole A s.space len exact_.sound at_ low
  | some b => exact getMapped A s.space len false exact_.sound at_

theorem treeIsRecorded (law : Lawful A used) (reserved : ∀ b ≤ spaceRoot, used space b)
    (reached : Reach (step A) Allowed (initial space) s) :
    (s.tree.extents.Pairwise fun a b => a.eeBlock < b.eeBlock ∧ a.stop ≤ b.eeBlock) ∧
    (∀ lblk len, Fitting s.tree.map lblk len →
      ∃ g, mlfsExtGetBlocks A s.space s.tree lblk len true = some g ∧ Creates s.tree lblk len g) ∧
    ∀ lblk len, Finds A s lblk len := by
  have exact_ := reachedExact law reserved reached
  refine ⟨?_,fun lblk len fitting => ?_,exactFinds exact_⟩
  · exact (validSorted exact_.sound.valid).and (List.pairwise_map.mp exact_.sound.valid.ordered)
  · obtain ⟨g,done,creates,_⟩ := getCreated law exact_.sound exact_.held fitting
    exact ⟨g,done,creates⟩

def reservedBlks : List Nat := [0,1,2,3,4]
def fiveExtents : List Action := [.create 10 2,.create 20 2,.create 30 2,.create 40 2,.create 50 2]

theorem reservedLow : ∀ b ≤ spaceRoot, b ∈ reservedBlks := by decide

theorem treeIsRecordedGrown : ∃ s : State (List Nat), Reach (step topAllocator) Allowed (initial reservedBlks) s ∧
    s.tree.depth = 1 ∧ s.recorded 41 = some 12 ∧ Finds topAllocator s 41 5 := by
  obtain ⟨s,reached,is⟩ : ∃ s, Reach (step topAllocator) Allowed (initial reservedBlks) s ∧ s.tree.depth = 1 ∧
      s.recorded 41 = some 12 := traceReach fiveExtents (by decide +kernel)
  exact ⟨s,reached,is.1,is.2,(treeIsRecorded topLawful reservedLow reached).2.2 41 5⟩

/- In a hole the tree asks the allocator for the same number of blocks as the map of the digest; a mapped
block is answered with a stretch of the run it begins. -/
def Answers (A : Allocator σ) (space : σ) (map : Nat → Option Nat) (lblk len : Nat) (g : Got σ) : Prop :=
  let m := Kernfs.mlfsExtGetBlocks A space map lblk len
  g.tree.map = m.ext ∧ g.pblk = m.pblk ∧
  match map lblk with
  | none => g.len = m.len
  | some b => (0 < len → 0 < g.len) ∧ g.len ≤ runLength map lblk b len

theorem treeAnswers (law : Lawful A used) (space : σ) (sound : Sound t) (fitting : Fitting t.map lblk len)
    (inside : lblk + len ≤ extMaxBlocks) :
    ∃ g, mlfsExtGetBlocks A space t lblk len true = some g ∧ Sound g.tree ∧ Answers A space t.map lblk len g := by
  unfold Answers
  cases at_ : t.map lblk with
  | some b =>
    obtain ⟨n,done,most,pos,mapped⟩ := getMapped A space len true sound at_
    simp only [Kernfs.mlfsExtGetBlocks,at_]
    exact ⟨_,done,sound,rfl,rfl,pos,runReaches most mapped⟩
  | none =>
    obtain ⟨n,ss,ts,hole,c,done,inserted⟩ := createHole law space sound at_ fitting
    obtain ⟨_,plain,valid⟩ := grantedPlain law space hole sound
    obtain ⟨_,map,_⟩ := insertedMap hole.extents plain valid inserted
    have gap : gapLength t.map lblk len = n := by
      refine gapFull hole.most (holeFree hole) ?_
      have most := hole.most
      rcases hole.full with whole | top | mapped
      · exact .inl whole
      · exact .inl (by omega)
      · exact .inr mapped
    simp only [Kernfs.mlfsExtGetBlocks,at_,gap]
    exact ⟨_,done,inserted.sound,map,rfl,rfl⟩

theorem treeRefinesMap (law : Lawful A used) (reserved : ∀ b ≤ spaceRoot, used space b)
    (reached : Reach (step A) Allowed (initial space) s) (fitting : Fitting s.tree.map lblk len)
    (inside : lblk + len ≤ extMaxBlocks) :
    ∃ g, mlfsExtGetBlocks A s.space s.tree lblk len true = some g ∧
      let m := Kernfs.mlfsExtGetBlocks A s.space s.tree.map lblk len
      g.tree.map = m.ext ∧ g.pblk = m.pblk ∧
      match s.tree.map lblk with
      | none => g.len = m.len
      | some b => (0 < len → 0 < g.len) ∧ g.len ≤ runLength s.tree.map lblk b len := by
  obtain ⟨g,done,_,answers⟩ := treeAnswers law s.space (reachedExact law reserved reached).sound fitting inside
  exact ⟨g,done,answers⟩

theorem treeRefinesMapGrown : ∃ s : State (List Nat), Reach (step topAllocator) Allowed (initial reservedBlks) s ∧
    s.tree.depth = 1 ∧ ∃ g, mlfsExtGetBlocks topAllocator s.space s.tree 15 9 true = some g ∧
      g.tree.map = (Kernfs.mlfsExtGetBlocks topAllocator s.space s.tree.map 15 9).ext := by
  obtain ⟨s,reached,is⟩ : ∃ s, Reach (step topAllocator) Allowed (initial reservedBlks) s ∧ s.tree.depth = 1 ∧
      Fitting s.tree.map 15 9 := traceReach fiveExtents (by decide +kernel)
  obtain ⟨g,done,map,_⟩ := treeRefinesMap topLawful reservedLow reached is.2 (by decide)
  exact ⟨s,reached,is.1,g,done,map⟩

def overFirst : List Action := [.create 10 1,.create 5 10]

theorem overlapHidesBlock : ∃ s : State (List Nat), Reach (step topAllocator) Any (initial reservedBlks) s ∧
    s.tree.extents = [⟨5,10,6⟩,⟨10,1,5⟩] ∧ s.recorded 11 = some 12 ∧
    (mlfsExtGetBlocks topAllocator s.space s.tree 11 1 false).map (fun g => (g.pblk,g.len)) = some (0,0) := by
  exact traceAny overFirst (by decide +kernel)

theorem truncationExact (law : Lawful A used) (reserved : ∀ b ≤ spaceRoot, used space b)
    (reached : Reach (step A) Allowed (initial space) s) (start : Nat) {last : Nat} (range : last + 1 < extMaxBlocks) :
    ∃ r, mlfsExtRemoveSpace start last A s.space s.tree = some r ∧
      (∀ l, r.tree.map l = if start ≤ l ∧ l ≤ last then none else s.tree.map l) ∧ r.freed.Nodup ∧
      ∃ grown, (∀ b ∈ grown, ¬used s.space b) ∧
        Frees r.freed (s.tree.mapped start last) (s.tree.blks ++ grown) r.tree.blks := by
  have exact_ := reachedExact law reserved reached
  obtain ⟨r,done,removes⟩ := removeSpaceRemoves law (heldLeft exact_.held) exact_.sound range start
  obtain ⟨grown,_,drawn,_,frees⟩ := removes.books
  exact ⟨r,done,removes.map,(removesHeld law removes exact_.held).2,grown,drawnFresh law drawn,frees⟩

theorem truncationExactInside : ∃ s : State (List Nat), Reach (step topAllocator) Allowed (initial reservedBlks) s ∧
    s.tree.mapped 21 40 = [8,9,10,11] ∧ ∃ r, mlfsExtRemoveSpace 21 40 topAllocator s.space s.tree = some r ∧
      (∀ l, r.tree.map l = if 21 ≤ l ∧ l ≤ 40 then none else s.tree.map l) ∧ r.freed.Nodup ∧
      ∃ grown, (∀ b ∈ grown, b ∉ s.space) ∧ Frees r.freed (s.tree.mapped 21 40) (s.tree.blks ++ grown) r.tree.blks := by
  obtain ⟨s,reached,is⟩ : ∃ s, Reach (step topAllocator) Allowed (initial reservedBlks) s ∧ s.tree.mapped 21 40 = [8,9,10,11] :=
    traceReach fiveExtents (by decide +kernel)
  exact ⟨s,reached,is,truncationExact topLawful reservedLow reached 21 (by decide)⟩

theorem overlapNotTruncated : ∃ s : State (List Nat), Reach (step topAllocator) Any (initial reservedBlks) s ∧
    s.tree.map 10 = some 11 ∧ mlfsExtRemoveSpace 10 10 topAllocator s.space s.tree = none := by
  obtain ⟨s,reached,is⟩ : ∃ s, Reach (step topAllocator) Any (initial reservedBlks) s ∧ s.tree.map 10 = some 11 ∧
      (mlfsExtRemoveSpace 10 10 topAllocator s.space s.tree).isNone = true := traceAny overFirst (by decide +kernel)
  exact ⟨s,reached,is.1,Option.isNone_iff_eq_none.mp is.2⟩

end Run

end LineFS.Extents
