import LineFS.Kernfs

/-! What `digest_file` does to an extent tree and where its copies go. The tree
only grows, by blocks that were unused; every copied byte of a write lands in the
block that the tree maps for its file position, and every position of the write
is covered. -/
namespace LineFS.Placement
open Base Kernfs

variable {σ : Type} {A : Allocator σ} {used : σ → Nat → Prop}

def Injective (ext : Nat → Option Nat) : Prop := ∀ l k b, ext l = some b → ext k = some b → l = k
def Backed (used : σ → Nat → Prop) (space : σ) (ext : Nat → Option Nat) : Prop := ∀ l b, ext l = some b → used space b

structure Grows (used : σ → Nat → Prop) (touch : Nat → Prop) (space : σ) (ext : Nat → Option Nat)
    (space' : σ) (ext' : Nat → Option Nat) : Prop where
  keeps : ∀ l b, ext l = some b → ext' l = some b
  adds : ∀ l b, ext' l = some b → ext l = some b ∨ touch l ∧ ¬ used space b ∧ used space' b
  marks : ∀ b, used space b → used space' b
  injective : Injective ext → Backed used space ext → Injective ext'

theorem growsRefl (touch : Nat → Prop) (space : σ) (ext : Nat → Option Nat) : Grows used touch space ext space ext :=
  ⟨fun _ _ h => h,fun _ _ h => .inl h,fun _ h => h,fun h _ => h⟩

variable {touch : Nat → Prop} {ext ext' : Nat → Option Nat} {length offset : Nat} {ms : List Memcpy}

theorem growsBacked {space space' : σ}
    (h : Grows used touch space ext space' ext') (backed : Backed used space ext) : Backed used space' ext' := by
  intro l b mapped
  rcases h.adds l b mapped with old | ⟨_,_,new⟩
  · exact h.marks b (backed l b old)
  · exact new

theorem growsTrans {first second : Nat → Prop} {s t r : σ} {e f g : Nat → Option Nat}
    (h : Grows used first s e t f) (k : Grows used second t f r g) (within : ∀ l, first l ∨ second l → touch l) :
    Grows used touch s e r g where
  keeps l b mapped := k.keeps l b (h.keeps l b mapped)
  adds l b mapped := by
    rcases k.adds l b mapped with old | ⟨here,fresh,new⟩
    · rcases h.adds l b old with old | ⟨here,fresh,new⟩
      · exact .inl old
      · exact .inr ⟨within l (.inl here),fresh,k.marks b new⟩
    · exact .inr ⟨within l (.inr here),fun old => fresh (h.marks b old),new⟩
  marks b old := k.marks b (h.marks b old)
  injective inj backed := k.injective (h.injective inj backed) (growsBacked h backed)

structure Owned (used : σ → Nat → Prop) (fs : Fs σ) : Prop where
  owned : ∀ i j ino jno l k b, fs.inode i = some ino → fs.inode j = some jno → ino.ext l = some b →
    jno.ext k = some b → i = j ∧ l = k
  backed : ∀ i ino l b, fs.inode i = some ino → ino.ext l = some b → used fs.space b

section lawful
variable (law : Lawful A used)
include law

theorem allocGrows (space : σ) (ext : Nat → Option Nat) (lblk n : Nat)
    (hole : ∀ j < (A.alloc space n).count, ext (lblk + j) = none) :
    let g := A.alloc space n
    Grows used (fun l => lblk ≤ l ∧ l < lblk + g.count) space ext g.space (mapRange ext lblk g.first g.count) := by
  intro g
  have hole : ∀ j < g.count, ext (lblk + j) = none := hole
  have marked (b : Nat) : used g.space b ↔ used space b ∨ g.first ≤ b ∧ b < g.first + g.count := law.marked space n b
  have outside {l b : Nat} (mapped : ext l = some b) : ¬ (lblk ≤ l ∧ l < lblk + g.count) := by
    rintro ⟨low,high⟩
    have empty := hole (l - lblk) (by omega)
    rw [Nat.add_sub_of_le low,mapped] at empty
    contradiction
  have origin {l b : Nat} (mapped : mapRange ext lblk g.first g.count l = some b) :
      (lblk ≤ l ∧ l < lblk + g.count) ∧ b = g.first + (l - lblk) ∨ ext l = some b := by
    unfold mapRange at mapped
    split at mapped
    · exact .inl ⟨‹_›,(Option.some.inj mapped).symm⟩
    · exact .inr mapped
  have fresh (b : Nat) (low : g.first ≤ b) (high : b < g.first + g.count) : ¬ used space b :=
    law.fresh space n b low high
  refine ⟨fun l b mapped => (if_neg (outside mapped)).trans mapped,fun l b mapped => ?_,
    fun b old => (marked b).mpr (.inl old),fun inj backed l k b here there => ?_⟩
  · rcases origin mapped with ⟨here,rfl⟩ | old
    · exact .inr ⟨here,fresh _ (by omega) (by omega),(marked _).mpr (.inr ⟨by omega,by omega⟩)⟩
    · exact .inl old
  · rcases origin here with ⟨_,rfl⟩ | old <;> rcases origin there with ⟨_,same⟩ | old'
    · omega
    · exact absurd (backed k _ old') (fresh _ (by omega) (by omega))
    · subst same
      exact absurd (backed l _ old) (fresh _ (by omega) (by omega))
    · exact inj l k b old old'

theorem getBlocksGrows (space : σ) (ext : Nat → Option Nat) (lblk : Nat) {len : Nat} (ask : 0 < len) :
    let m := mlfsExtGetBlocks A space ext lblk len
    Grows used (fun l => lblk ≤ l ∧ l < lblk + m.len) space ext m.space m.ext ∧
      ∀ j < m.len, m.ext (lblk + j) = some (m.pblk + j) := by
  simp only [mlfsExtGetBlocks]
  split
  · rename_i pblk mapped
    refine ⟨growsRefl _ space ext,fun j lt => ?_⟩
    have got := law.extent space pblk _ (runPositive mapped ask)
    exact (runWithin ext lblk pblk len).2 j (Nat.lt_of_lt_of_le lt got.2)
  · rename_i hole
    have got := law.counted space _ (gapPositive hole ask)
    refine ⟨allocGrows law space ext lblk _ fun j lt => ?_,fun j lt => ?_⟩
    · exact (gapWithin ext lblk len).2 j (Nat.lt_of_lt_of_le lt got.2)
    · simp only [mapRange]
      rw [if_pos ⟨Nat.le_add_right lblk j,Nat.add_lt_add_left lt lblk⟩,Nat.add_sub_cancel_left]

end lawful

/- Every cell the copy covers is the cell of a position of the write, and gets the byte logged for it; `src`
is the log address of the first byte. -/
def Lands (ext : Nat → Option Nat) (offset length src : Nat) (m : Memcpy) : Prop :=
  ∀ a, m.dst ≤ a → a < m.dst + m.size → ∃ pos, offset ≤ pos ∧ pos < offset + length ∧
    ext (pos / gBlockSizeBytes) = some (a / gBlockSizeBytes) ∧ a % gBlockSizeBytes = pos % gBlockSizeBytes ∧
    m.data + (a - m.dst) = src + (pos - offset)

def Filled (ext : Nat → Option Nat) (offset length : Nat) (ms : List Memcpy) : Prop :=
  ∀ pos, offset ≤ pos → pos < offset + length → ∃ b, ext (pos / gBlockSizeBytes) = some b ∧
    ∃ m ∈ ms, m.dst ≤ b * gBlockSizeBytes + pos % gBlockSizeBytes ∧
      b * gBlockSizeBytes + pos % gBlockSizeBytes < m.dst + m.size

theorem landsGrown {src : Nat} {m : Memcpy}
    (h : Lands ext offset length src m) (keeps : ∀ l b, ext l = some b → ext' l = some b) :
    Lands ext' offset length src m := by
  intro a low high
  obtain ⟨pos,first,last,mapped,rest⟩ := h a low high
  exact ⟨pos,first,last,keeps _ _ mapped,rest⟩

theorem filledGrown
    (h : Filled ext offset length ms) (keeps : ∀ l b, ext l = some b → ext' l = some b) :
    Filled ext' offset length ms := by
  intro pos low high
  obtain ⟨b,mapped,rest⟩ := h pos low high
  exact ⟨b,keeps _ _ mapped,rest⟩

theorem landsPart {src skip part : Nat} {m : Memcpy}
    (h : Lands ext (offset + skip) part (src + skip) m) (fits : skip + part ≤ length) :
    Lands ext offset length src m := by
  intro a low high
  obtain ⟨pos,first,last,mapped,place,byte⟩ := h a low high
  exact ⟨pos,by omega,by omega,mapped,place,by omega⟩

theorem filledJoin {skip part : Nat} {ns : List Memcpy}
    (head : Filled ext offset skip ms) (tail : Filled ext (offset + skip) part ns) :
    Filled ext offset (skip + part) (ms ++ ns) := by
  intro pos low high
  by_cases first : pos < offset + skip
  · obtain ⟨b,mapped,m,mem,cover⟩ := head pos low first
    exact ⟨b,mapped,m,List.mem_append_left _ mem,cover⟩
  · obtain ⟨b,mapped,m,mem,cover⟩ := tail pos (by omega) (by omega)
    exact ⟨b,mapped,m,List.mem_append_right _ mem,cover⟩

theorem copyLands {m : Memcpy} {src : Nat} (data : m.data = src) (b : Nat → Nat)
    (cell : ∀ k < m.size, ext ((offset + k) / gBlockSizeBytes) = some (b k) ∧
      m.dst + k = b k * gBlockSizeBytes + (offset + k) % gBlockSizeBytes) :
    Lands ext offset m.size src m ∧ Filled ext offset m.size [m] := by
  constructor
  · intro a low high
    obtain ⟨k,rfl⟩ := Nat.exists_eq_add_of_le low
    obtain ⟨mapped,same⟩ := cell k (by omega)
    refine ⟨offset + k,by omega,by omega,?_,?_,by omega⟩
    · rw [mapped,same]
      congr 1
      simp only [gBlockSizeBytes]
      omega
    · rw [same]
      simp only [gBlockSizeBytes]
      omega
  · intro pos low high
    obtain ⟨mapped,same⟩ := cell (pos - offset) (by omega)
    rw [Nat.add_sub_of_le low] at mapped same
    exact ⟨_,mapped,m,List.mem_singleton_self m,by omega⟩

theorem runLands {src pblk n : Nat} (aligned : offset % gBlockSizeBytes = 0)
    (mapped : ∀ j < n, ext (offset / gBlockSizeBytes + j) = some (pblk + j)) :
    let m : Memcpy := ⟨false,pblk,src,n * gBlockSizeBytes,0⟩
    Lands ext offset (n * gBlockSizeBytes) src m ∧ Filled ext offset (n * gBlockSizeBytes) [m] := by
  refine copyLands rfl (fun k => pblk + k / gBlockSizeBytes) fun k inside => ?_
  have here := mapped (k / gBlockSizeBytes) (Nat.div_lt_of_lt_mul (by rw [Nat.mul_comm]; exact inside))
  have place : (offset + k) / gBlockSizeBytes = offset / gBlockSizeBytes + k / gBlockSizeBytes := by
    simp only [gBlockSizeBytes] at *
    omega
  refine ⟨place ▸ here,?_⟩
  simp only [Memcpy.dst,ite_self,gBlockSizeBytes] at *
  omega

structure Places (used : σ → Nat → Prop) (touch : Nat → Prop) (offset length src : Nat) (p q : Placed σ)
    (ms : List Memcpy) : Prop where
  grows : Grows used touch p.space p.ext q.space q.ext
  whole : ∀ l, touch l → ∃ b, q.ext l = some b
  lands : ∀ m ∈ ms, Lands q.ext offset length src m
  filled : Filled q.ext offset length ms
  copies : q.memcpys = p.memcpys ++ ms

theorem placesNone (p : Placed σ) (offset src : Nat) (touch : Nat → Prop) (none : ∀ l, ¬ touch l) :
    Places used touch offset 0 src p p [] :=
  ⟨growsRefl _ p.space p.ext,fun l here => absurd here (none l),nofun,
    fun _ low high => absurd high (Nat.not_lt.mpr low),(List.append_nil _).symm⟩

theorem placesJoin {first second : Nat → Prop} {skip part src : Nat} {p q r : Placed σ}
    {ns : List Memcpy} (head : Places used first offset skip src p q ms)
    (tail : Places used second (offset + skip) part (src + skip) q r ns)
    (split : ∀ l, touch l ↔ first l ∨ second l) : Places used touch offset (skip + part) src p r (ms ++ ns) where
  grows := growsTrans head.grows tail.grows fun l => (split l).mpr
  whole l here := by
    rcases (split l).mp here with first | second
    · obtain ⟨b,mapped⟩ := head.whole l first
      exact ⟨b,tail.grows.keeps l b mapped⟩
    · exact tail.whole l second
  lands m mem := by
    rcases List.mem_append.mp mem with mem | mem
    · have here : Lands r.ext (offset + 0) skip (src + 0) m := landsGrown (head.lands m mem) tail.grows.keeps
      exact landsPart here (by omega)
    · exact landsPart (tail.lands m mem) (Nat.le_refl _)
  filled := filledJoin (filledGrown head.filled tail.grows.keeps) tail.filled
  copies := by rw [tail.copies,head.copies,List.append_assoc]

section lawful
variable (law : Lawful A used)
include law

theorem blocksPlaced {rounds : Nat} {p q : Placed σ} {curOffset data left : Nat}
    (aligned : curOffset % gBlockSizeBytes = 0) (h : digestBlocks A rounds p curOffset data left = some q) :
    ∃ ms, Places used (fun l => curOffset / gBlockSizeBytes ≤ l ∧ l < curOffset / gBlockSizeBytes + left)
      curOffset (left * gBlockSizeBytes) data p q ms := by
  induction rounds generalizing p curOffset data left with
  | zero =>
    cases left with
    | zero =>
      cases h
      exact ⟨[],by rw [Nat.zero_mul]; exact placesNone _ _ _ _ fun l here => Nat.not_lt.mpr here.1 here.2⟩
    | succ left => contradiction
  | succ rounds ih =>
    cases left with
    | zero =>
      cases h
      exact ⟨[],by rw [Nat.zero_mul]; exact placesNone _ _ _ _ fun l here => Nat.not_lt.mpr here.1 here.2⟩
    | succ left =>
      have got := getBlocksLen law p.space p.ext (curOffset / gBlockSizeBytes) (show 0 < left + 1 from Nat.succ_pos left)
      obtain ⟨grows,mapped⟩ := getBlocksGrows law p.space p.ext (curOffset / gBlockSizeBytes)
        (show 0 < left + 1 from Nat.succ_pos left)
      simp only [digestBlocks,aligned,ne_eq,not_true_eq_false,if_false] at h
      generalize mlfsExtGetBlocks A p.space p.ext (curOffset / gBlockSizeBytes) (left + 1) = m at *
      rw [if_neg (by omega)] at h
      obtain ⟨ms,rest⟩ := ih (by rw [Nat.add_mul_mod_self_right]; exact aligned) h
      have run : Lands m.ext curOffset (m.len * gBlockSizeBytes) data ⟨false,m.pblk,data,m.len * gBlockSizeBytes,0⟩ ∧
          Filled m.ext curOffset (m.len * gBlockSizeBytes) [⟨false,m.pblk,data,m.len * gBlockSizeBytes,0⟩] :=
        runLands aligned mapped
      refine ⟨[⟨false,m.pblk,data,m.len * gBlockSizeBytes,0⟩] ++ ms,?_⟩
      have head : Places used (fun l => curOffset / gBlockSizeBytes ≤ l ∧ l < curOffset / gBlockSizeBytes + m.len)
          curOffset (m.len * gBlockSizeBytes) data p
          ⟨m.space,m.ext,p.memcpys ++ [⟨false,m.pblk,data,m.len * gBlockSizeBytes,0⟩]⟩
          [⟨false,m.pblk,data,m.len * gBlockSizeBytes,0⟩] :=
        ⟨grows,fun l here => ⟨m.pblk + (l - curOffset / gBlockSizeBytes),by
          have this := mapped (l - curOffset / gBlockSizeBytes) (by omega)
          rwa [Nat.add_sub_of_le here.1] at this⟩,
          fun c mem => by rw [List.mem_singleton.mp mem]; exact run.1,run.2,rfl⟩
      have size : (left + 1) * gBlockSizeBytes = m.len * gBlockSizeBytes + (left + 1 - m.len) * gBlockSizeBytes := by
        rw [← Nat.add_mul,Nat.add_sub_of_le got.2]
      have next : (curOffset + m.len * gBlockSizeBytes) / gBlockSizeBytes = curOffset / gBlockSizeBytes + m.len :=
        Nat.add_mul_div_right _ _ (by simp [gBlockSizeBytes])
      rw [size]
      rw [next] at rest
      exact placesJoin head rest fun l => by omega

end lawful

def Shaped (offset length : Nat) : Prop :=
  0 < length ∧ (length < gBlockSizeBytes ∧ offset % gBlockSizeBytes + length ≤ gBlockSizeBytes ∨
    length % gBlockSizeBytes = 0 ∧ offset % gBlockSizeBytes = 0)
deriving Decidable

def Touched (offset length l : Nat) : Prop :=
  offset / gBlockSizeBytes ≤ l ∧ l < offset / gBlockSizeBytes + getBlkCntFromLength length
deriving Decidable

theorem touchedSpan {l : Nat} (shaped : Shaped offset length) :
    Touched offset length l ↔ offset / gBlockSizeBytes ≤ l ∧ l * gBlockSizeBytes < offset + length := by
  obtain ⟨some,small | whole⟩ := shaped
  · simp only [Touched,getBlkCntFromLength,if_pos small.1]
    simp only [gBlockSizeBytes] at *
    omega
  · have size : ¬ length < gBlockSizeBytes := fun lt => by
      rw [Nat.mod_eq_of_lt lt] at whole
      omega
    simp only [Touched,getBlkCntFromLength,if_neg size,whole.1,ne_eq,not_true_eq_false,if_false]
    simp only [gBlockSizeBytes] at *
    omega

theorem touchedInside {pos : Nat} (shaped : Shaped offset length) (low : offset ≤ pos)
    (high : pos < offset + length) : Touched offset length (pos / gBlockSizeBytes) :=
  (touchedSpan shaped).mpr ⟨Nat.div_le_div_right low,Nat.lt_of_le_of_lt (Nat.div_mul_le_self ..) high⟩

theorem singleLands {pblk : Nat} (src : Nat)
    (fits : offset % gBlockSizeBytes + length ≤ gBlockSizeBytes) (mapped : ext (offset / gBlockSizeBytes) = some pblk) :
    let m : Memcpy := ⟨true,pblk,src,length,offset % gBlockSizeBytes⟩
    Lands ext offset length src m ∧ Filled ext offset length [m] := by
  refine copyLands rfl (fun _ => pblk) fun k inside => ?_
  have place : (offset + k) / gBlockSizeBytes = offset / gBlockSizeBytes := by
    simp only [gBlockSizeBytes] at *
    omega
  refine ⟨place ▸ mapped,?_⟩
  simp only [Memcpy.dst,if_true,gBlockSizeBytes] at *
  omega

theorem filePlaced (law : Lawful A used) {space : σ} {blknr : Nat}
    {q : Placed σ} (shaped : Shaped offset length) (h : placeFile A space ext offset length blknr = some q) :
    Places used (Touched offset length) offset length (blknr * gBlockSizeBytes + offset % gBlockSizeBytes)
      ⟨space,ext,[]⟩ q q.memcpys := by
  simp only [placeFile] at h
  split at h
  · rename_i single
    have small : length < gBlockSizeBytes ∧ offset % gBlockSizeBytes + length ≤ gBlockSizeBytes := by
      unfold Shaped at shaped
      omega
    have one : getBlkCntFromLength length = 1 := if_pos small.1
    have len : min length (gBlockSizeBytes - offset % gBlockSizeBytes) = length := by omega
    rw [one,Nat.sub_self,digestBlocksDone,len] at h
    obtain ⟨grows,mapped⟩ := getBlocksGrows law space ext (offset / gBlockSizeBytes) Nat.one_pos
    have got := getBlocksLen law space ext (offset / gBlockSizeBytes) Nat.one_pos
    generalize mlfsExtGetBlocks A space ext (offset / gBlockSizeBytes) 1 = m at *
    cases h
    have first : m.ext (offset / gBlockSizeBytes) = some m.pblk := mapped 0 got.1
    obtain ⟨lands,filled⟩ := singleLands (blknr * gBlockSizeBytes + offset % gBlockSizeBytes) small.2 first
    refine ⟨growsTrans grows (growsRefl (fun _ => False) _ _) fun l here => ?_,fun l here => ?_,?_,filled,rfl⟩
    · unfold Touched
      have near := here.resolve_right id
      omega
    · unfold Touched at here
      obtain rfl : l = offset / gBlockSizeBytes := by omega
      exact ⟨_,first⟩
    · exact fun c mem => by rw [List.mem_singleton.mp mem]; exact lands
  · rename_i whole
    have aligned : offset % gBlockSizeBytes = 0 ∧ length % gBlockSizeBytes = 0 ∧ gBlockSizeBytes ≤ length := by
      unfold Shaped at shaped
      omega
    have size : getBlkCntFromLength length * gBlockSizeBytes = length := by
      simp only [getBlkCntFromLength,if_neg (Nat.not_lt.mpr aligned.2.2),aligned.2.1,ne_eq,not_true_eq_false,if_false]
      exact Nat.div_mul_cancel (Nat.dvd_of_mod_eq_zero aligned.2.1)
    obtain ⟨ms,places⟩ := blocksPlaced law aligned.1 h
    rw [size] at places
    have copies : q.memcpys = ms := places.copies
    rw [aligned.1,Nat.add_zero,copies]
    exact places

section owned
variable {fs : Fs σ} {inum : Nat} (h : Owned used fs)
include h

theorem ownedPart {ino : Inode} {space : σ}
    (part : ∀ l b, ino.ext l = some b → ∃ old, fs.inode inum = some old ∧ old.ext l = some b)
    (marks : ∀ i x l b, (fs.put inum ino space).inode i = some x → x.ext l = some b → used fs.space b → used space b) :
    Owned used (fs.put inum ino space) := by
  have before {i : Nat} {x : Inode} {l b : Nat} (found : (fs.put inum ino space).inode i = some x)
      (mapped : x.ext l = some b) : ∃ old, fs.inode i = some old ∧ old.ext l = some b := by
    by_cases same : inum = i
    · subst same
      rw [putSame] at found
      cases found
      exact part l b mapped
    · rw [putOther same] at found
      exact ⟨x,found,mapped⟩
  refine ⟨fun i j x y l k b fx fy mx my => ?_,fun i x l b fx mx => ?_⟩
  · obtain ⟨old,fx,mx⟩ := before fx mx
    obtain ⟨other,fy,my⟩ := before fy my
    exact h.owned i j old other l k b fx fy mx my
  · obtain ⟨old,oldFound,oldMapped⟩ := before fx mx
    exact marks i x l b fx mx (h.backed i old l b oldFound oldMapped)

variable {ino : Inode} (found : fs.inode inum = some ino) {touch : Nat → Prop} {space : σ} {ext : Nat → Option Nat}
  (grows : Grows used touch fs.space ino.ext space ext)
include found grows

theorem grownInjective : Injective ext :=
  grows.injective (fun l k b here there => (h.owned inum inum ino ino l k b found found here there).2)
    fun l b mapped => h.backed inum ino l b found mapped

theorem grownApart {j k l b : Nat} {jno : Inode} (other : fs.inode j = some jno) (differ : inum ≠ j)
    (theirs : jno.ext k = some b) : ext l ≠ some b := by
  intro mapped
  rcases grows.adds l b mapped with old | ⟨_,free,_⟩
  · exact differ (h.owned inum j ino jno l k b found other old theirs).1
  · exact free (h.backed j jno k b other theirs)

theorem ownedGrown (size : Nat) : Owned used (fs.put inum { ino with size := size, ext := ext } space) := by
  have owner {i : Nat} {x : Inode} (here : (fs.put inum { ino with size := size, ext := ext } space).inode i = some x) :
      inum = i ∧ x.ext = ext ∨ inum ≠ i ∧ fs.inode i = some x := by
    by_cases same : inum = i
    · subst same
      rw [putSame] at here
      cases here
      exact .inl ⟨rfl,rfl⟩
    · rw [putOther same] at here
      exact .inr ⟨same,here⟩
  refine ⟨fun i j x y l k b fx fy mx my => ?_,fun i x l b fx mx => ?_⟩
  · rcases owner fx with ⟨rfl,ex⟩ | ⟨ix,fx⟩ <;> rcases owner fy with ⟨iy,ey⟩ | ⟨iy,fy⟩
    · rw [ex] at mx
      rw [ey] at my
      exact ⟨iy,grownInjective h found grows l k b mx my⟩
    · rw [ex] at mx
      exact absurd mx (grownApart h found grows fy iy my)
    · rw [ey] at my
      exact absurd my (grownApart h found grows fx ix mx)
    · exact h.owned i j x y l k b fx fy mx my
  · rcases owner fx with ⟨rfl,ex⟩ | ⟨_,fx⟩
    · rw [ex] at mx
      exact growsBacked grows (fun l b mapped => h.backed inum ino l b found mapped) l b mx
    · exact grows.marks b (h.backed i x l b fx mx)

end owned

end LineFS.Placement
