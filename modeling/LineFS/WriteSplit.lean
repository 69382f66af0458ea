import LineFS.Descriptors

/-! `mlfs_file_write` with the arithmetic of its types: offsets and sizes have 64 bits, the size that
`add_to_log` takes has 32, and what it returns is an `int`. Each piece is recorded with its file
offset and its place in the caller's buffer. -/
namespace LineFS.WriteSplit
open Descriptors (File toInt toIntExact eperm)

def offsetMod : Nat := 2 ^ 64
def add64 (a b : Nat) : Nat := (a + b) % offsetMod
def sub64 (a b : Nat) : Nat := (a + (offsetMod - b)) % offsetMod
def align64 (x : Nat) : Nat := add64 x (gBlockSizeBytes - 1) / gBlockSizeBytes * gBlockSizeBytes

def maxIoSize : Nat := 128 * 2 ^ 20
def maxIovec : Nat := 9

structure Piece where
  off : Nat
  buf : Nat
  size : Nat
  deriving DecidableEq, Repr

/- The position of the descriptor, the bytes written so far and the pieces in the log header. -/
structure Progress where
  off : Nat
  i : Nat
  pieces : List Piece
  deriving DecidableEq, Repr

def portions64 (off n : Nat) : Option Portions :=
  let offsetEnd := add64 off n
  let offsetAligned := align64 off
  if offsetEnd < offsetAligned then some ⟨n,0,0⟩
  else
    let prepended := if off < offsetAligned then sub64 offsetAligned off else 0
    if gBlockSizeBytes ≤ prepended then none
    else
      let slack := sub64 (align64 offsetEnd) offsetEnd
      let appended := if 0 < slack then sub64 gBlockSizeBytes slack else slack
      some ⟨prepended,sub64 (sub64 n prepended) appended,appended⟩

def addToLog (s : Progress) (size : Nat) : Option (Int × Progress) :=
  let size := size % 2 ^ 32
  if add64 s.off size ≤ s.off then none
  else if maxIovec < s.pieces.length + 1 then none
  else some (toInt size,{ s with pieces := s.pieces ++ [⟨s.off,s.i,size⟩] })

def addUnaligned (s : Progress) (size : Nat) : Option Progress :=
  if size = 0 then some s
  else
    (addToLog s size).bind fun (r,s) =>
      if r ≤ 0 then none else some { s with off := add64 s.off r.toNat, i := add64 s.i r.toNat }

/- The loop over the aligned portion. Every turn takes an entry of the I/O vector, so that ten are enough. -/
def addAligned (stop : Nat) : Nat → Progress → Option Progress
  | 0,_ => none
  | fuel+1,s =>
    if stop ≤ s.i then some s
    else if s.off % gBlockSizeBytes ≠ 0 then none
    else
      let ioSize := min (sub64 stop s.i % 2 ^ 32) maxIoSize
      (addToLog s ioSize).bind fun (r,s) =>
        let s := if 0 < r then { s with off := add64 s.off r.toNat } else s
        if r < 0 then some s
        else if r ≠ ioSize then none
        else addAligned stop fuel { s with i := add64 s.i r.toNat }

structure Written where
  reply : Int
  file : File
  pieces : List Piece
  deriving DecidableEq, Repr

def mlfsFileWrite (f : File) (n : Nat) : Option Written :=
  if f.writable = false then some ⟨-eperm,f,[]⟩
  else do
    let p ← portions64 f.off n
    let s ← addUnaligned ⟨f.off,0,[]⟩ p.prepended
    let s ← addAligned (sub64 n p.appended) (maxIovec + 1) s
    let s ← addUnaligned s p.appended
    some ⟨if s.i = n then toInt n else -1,{ f with off := s.off },s.pieces⟩

def computeLogBlocks (ps : List Piece) : Nat := (ps.map fun p => entryBlocks p.size).sum

def persistLogFile (nrLogBlocks pos : Nat) (p : Piece) : Option Nat :=
  if p.size < gBlockSizeBytes then
    if p.off % gBlockSizeBytes + p.size ≤ gBlockSizeBytes then some (pos + 1) else none
  else if p.off % gBlockSizeBytes ≠ 0 ∨ p.size % gBlockSizeBytes ≠ 0 then none
  else
    let nrLogblocks := p.size / gBlockSizeBytes
    if nrLogblocks = 0 ∨ nrLogBlocks < pos + nrLogblocks then none else some (pos + nrLogblocks)

def persistLogBlocks (ps : List Piece) : Option Nat := ps.foldlM (persistLogFile (computeLogBlocks ps + 1)) 1

/- The pieces follow one another without a gap, each from its place in the buffer, and the value returned says
that all bytes were written. -/
structure Partitions (f : File) (n : Nat) (w : Written) : Prop where
  ordered : w.pieces.Pairwise fun p q => p.off + p.size ≤ q.off
  covers : ∀ a, (∃ p ∈ w.pieces, p.off ≤ a ∧ a < p.off + p.size) ↔ f.off ≤ a ∧ a < f.off + n
  placed : ∀ p ∈ w.pieces, p.off = f.off + p.buf
  shaped : ∀ p ∈ w.pieces, Placement.Shaped p.off p.size
  persists : (persistLogBlocks w.pieces).isSome = true
  moved : w.file = { f with off := f.off + n }
  reply : w.reply = n

section Arithmetic
variable {a b off n : Nat}

theorem add64Exact (less : a + b < offsetMod) : add64 a b = a + b := Nat.mod_eq_of_lt less

theorem sub64Exact (less : b ≤ a) (bounded : a < offsetMod) : sub64 a b = a - b := by
  simp only [sub64,offsetMod] at *
  omega

theorem align64Exact (low : off + gBlockSizeBytes ≤ offsetMod) : align64 off = align off := by
  rw [align64,add64Exact (by simp only [gBlockSizeBytes] at *; omega)]
  rfl

theorem align64Wraps (high : offsetMod < off + gBlockSizeBytes) (bounded : off < offsetMod) : align64 off = 0 := by
  simp only [align64,add64,offsetMod,gBlockSizeBytes] at *
  omega

theorem slackExact (bounded : off < offsetMod) : sub64 (align64 off) off = align off - off := by
  simp only [sub64,align64,align,add64,offsetMod,gBlockSizeBytes] at *
  omega

theorem portions64Exact (low : off + gBlockSizeBytes ≤ offsetMod) (high : off + n < offsetMod) : portions64 off n = some (portions off n) := by
  obtain ⟨head,tail,total⟩ := portionsSplit off n
  have up := alignUp off
  have last := alignUp (off + n)
  simp only [portions64,add64Exact high,align64Exact low]
  simp only [portions] at *
  split
  · rfl
  · rename_i reaches
    simp only [if_neg reaches] at *
    have prepended : (if off < align off then sub64 (align off) off else 0) = if off < align off then align off - off else 0 := by
      split
      · exact sub64Exact up.1 (by simp only [offsetMod,gBlockSizeBytes] at *; omega)
      · rfl
    have appended : (if 0 < sub64 (align64 (off + n)) (off + n) then sub64 gBlockSizeBytes (sub64 (align64 (off + n)) (off + n))
        else sub64 (align64 (off + n)) (off + n)) =
        if 0 < align (off + n) - (off + n) then gBlockSizeBytes - (align (off + n) - (off + n)) else align (off + n) - (off + n) := by
      rw [slackExact high]
      split
      · exact sub64Exact (by omega) (by decide)
      · rfl
    rw [prepended,appended,if_neg (Nat.not_le.mpr head)]
    generalize (if off < align off then align off - off else 0) = x at *
    generalize (if 0 < align (off + n) - (off + n) then gBlockSizeBytes - (align (off + n) - (off + n))
      else align (off + n) - (off + n)) = y at *
    have less : n < offsetMod := by omega
    rw [sub64Exact (show x ≤ n by omega) less,sub64Exact (show y ≤ n - x by omega) (by omega)]

end Arithmetic

section Pieces
variable {s : Progress} {size : Nat}

def Progress.next (s : Progress) (size : Nat) : Progress :=
  if size = 0 then s else ⟨s.off + size,s.i + size,s.pieces ++ [⟨s.off,s.i,size⟩]⟩

theorem addToLogExact (positive : 0 < size) (small : size < 2 ^ 31) (high : s.off + size < offsetMod) (room : s.pieces.length < maxIovec) :
    addToLog s size = some ((size : Int),{ s with pieces := s.pieces ++ [⟨s.off,s.i,size⟩] }) := by
  have fits : size % 2 ^ 32 = size := Nat.mod_eq_of_lt (by omega)
  simp only [addToLog,fits]
  rw [if_neg (by rw [add64Exact high]; omega),if_neg (Nat.not_lt.mpr room),toIntExact small]

theorem addToLogRefused (small : size < 2 ^ 32) (wraps : add64 s.off size ≤ s.off) : addToLog s size = none := by
  have fits : size % 2 ^ 32 = size := Nat.mod_eq_of_lt small
  simp only [addToLog,fits]
  exact if_pos wraps

theorem addUnalignedExact (small : size < 2 ^ 31) (high : s.off + size < offsetMod) (count : s.i + size < offsetMod)
    (room : s.pieces.length < maxIovec) : addUnaligned s size = some (s.next size) := by
  simp only [addUnaligned,Progress.next]
  split
  · rfl
  · rename_i some
    rw [addToLogExact (by omega) small high room,Option.bind_some,if_neg (by omega)]
    simp only [Int.toNat_natCast,add64Exact high,add64Exact count]

theorem addAlignedExact (small : size ≤ maxIoSize) (high : s.off + size < offsetMod) (count : s.i + size < offsetMod)
    (room : s.pieces.length < maxIovec) (aligned : s.off % gBlockSizeBytes = 0 ∨ size = 0) (fuel : Nat) :
    addAligned (s.i + size) (fuel + 2) s = some (s.next size) := by
  have short : size < 2 ^ 31 := Nat.lt_of_le_of_lt small (by decide)
  rw [addAligned]
  by_cases empty : size = 0
  · rw [if_pos (by omega),Progress.next,if_pos empty]
  · have positive : 0 < size := Nat.pos_of_ne_zero empty
    have io : min (sub64 (s.i + size) s.i % 2 ^ 32) maxIoSize = size := by
      rw [sub64Exact (Nat.le_add_right _ _) count,Nat.add_sub_cancel_left,Nat.mod_eq_of_lt (by omega),Nat.min_eq_left small]
    have sign : (0 : Int) < size := Int.natCast_pos.mpr positive
    have start : s.off % gBlockSizeBytes = 0 := aligned.resolve_right empty
    rw [if_neg (by omega),if_neg (not_not.mpr start),io]
    simp only [addToLogExact positive short high room,Option.bind_some,if_pos sign,if_neg (Int.not_lt.mpr (Int.le_of_lt sign)),
      ne_eq,not_true,if_false,Int.toNat_natCast,add64Exact high,
      add64Exact count]
    rw [addAligned,if_pos (Nat.le_refl _),Progress.next,if_neg empty]

theorem nextOff (s : Progress) (size : Nat) : (s.next size).off = s.off + size := by
  simp only [Progress.next]
  split
  · rename_i zero
    rw [zero]
    rfl
  · rfl

theorem nextI (s : Progress) (size : Nat) : (s.next size).i = s.i + size := by
  simp only [Progress.next]
  split
  · rename_i zero
    rw [zero]
    rfl
  · rfl

theorem nextPieces (s : Progress) (size : Nat) :
    (s.next size).pieces = s.pieces ++ if size = 0 then [] else [⟨s.off,s.i,size⟩] := by
  simp only [Progress.next]
  split
  · exact (List.append_nil _).symm
  · rfl

theorem nextLength (s : Progress) (size : Nat) : (s.next size).pieces.length ≤ s.pieces.length + 1 := by
  rw [nextPieces,List.length_append]
  split <;> simp

structure Chained (start : Nat) (s : Progress) : Prop where
  place : s.off = start + s.i
  ordered : s.pieces.Pairwise fun p q => p.off + p.size ≤ q.off
  covers : ∀ a, (∃ p ∈ s.pieces, p.off ≤ a ∧ a < p.off + p.size) ↔ start ≤ a ∧ a < s.off
  placed : ∀ p ∈ s.pieces, p.off = start + p.buf
  shaped : ∀ p ∈ s.pieces, Placement.Shaped p.off p.size

theorem chainedStart (off : Nat) : Chained off ⟨off,0,[]⟩ :=
  ⟨rfl,.nil,fun a => by simp only [List.not_mem_nil,false_and,exists_false,false_iff]; omega,nofun,nofun⟩

theorem chainedNext {start : Nat} (h : Chained start s) (shape : 0 < size → Placement.Shaped s.off size) : Chained start (s.next size) := by
  simp only [Progress.next]
  split
  · exact h
  · rename_i nonzero
    have before {p : Piece} (mem : p ∈ s.pieces) : p.off + p.size ≤ s.off := by
      have positive : 0 < p.size := (h.shaped p mem).1
      have last := ((h.covers (p.off + p.size - 1)).mp ⟨p,mem,by omega,by omega⟩).2
      omega
    refine ⟨?_,List.pairwise_append.mpr ⟨h.ordered,List.pairwise_singleton _ _,?_⟩,fun a => ?_,fun p mem => ?_,fun p mem => ?_⟩
    · show s.off + size = start + (s.i + size)
      rw [h.place,Nat.add_assoc]
    · intro p mem q last
      cases List.mem_singleton.mp last
      exact before mem
    · have place := h.place
      have old := h.covers a
      constructor
      · rintro ⟨p,mem,low,high⟩
        rcases List.mem_append.mp mem with earlier | last
        · have inside := old.mp ⟨p,earlier,low,high⟩
          exact ⟨inside.1,Nat.lt_of_lt_of_le inside.2 (Nat.le_add_right _ _)⟩
        · cases List.mem_singleton.mp last
          exact ⟨Nat.le_trans (by simp only; omega) low,high⟩
      · rintro ⟨low,high⟩
        by_cases earlier : a < s.off
        · obtain ⟨p,mem,inside⟩ := old.mpr ⟨low,earlier⟩
          exact ⟨p,List.mem_append_left _ mem,inside⟩
        · exact ⟨_,List.mem_append_right _ (List.mem_singleton.mpr rfl),Nat.not_lt.mp earlier,high⟩
    · rcases List.mem_append.mp mem with earlier | last
      · exact h.placed p earlier
      · cases List.mem_singleton.mp last
        exact h.place
    · rcases List.mem_append.mp mem with earlier | last
      · exact h.shaped p earlier
      · cases List.mem_singleton.mp last
        exact shape (Nat.pos_of_ne_zero nonzero)

theorem persistsShaped (limit : Nat) (ps : List Piece) (shaped : ∀ p ∈ ps, Placement.Shaped p.off p.size) (pos : Nat)
    (room : pos + computeLogBlocks ps ≤ limit) : ps.foldlM (persistLogFile limit) pos = some (pos + computeLogBlocks ps) := by
  induction ps generalizing pos with
  | nil => rfl
  | cons p ps ih =>
    have sum : computeLogBlocks (p::ps) = entryBlocks p.size + computeLogBlocks ps := rfl
    obtain ⟨positive,shape⟩ := shaped p (.head _)
    rw [sum] at room
    have one : persistLogFile limit pos p = some (pos + entryBlocks p.size) := by
      by_cases small : p.size < gBlockSizeBytes
      · have inside : p.off % gBlockSizeBytes + p.size ≤ gBlockSizeBytes := by
          simp only [gBlockSizeBytes] at *
          omega
        simp only [persistLogFile,entryBlocks,if_pos small,if_pos inside]
      · have whole : ¬(p.off % gBlockSizeBytes ≠ 0 ∨ p.size % gBlockSizeBytes ≠ 0) := by
          simp only [gBlockSizeBytes] at *
          omega
        have blocks : p.size / gBlockSizeBytes ≠ 0 := by
          simp only [gBlockSizeBytes] at *
          omega
        simp only [persistLogFile,entryBlocks,if_neg small,if_neg whole] at room ⊢
        exact if_neg (by omega)
    rw [List.foldlM_cons,one,sum,← Nat.add_assoc]
    exact ih (fun q mem => shaped q (.tail _ mem)) _ (by omega)

end Pieces

section Writes
variable {f : File} {n : Nat}

theorem writeExact (writable : f.writable = true) (bounded : n ≤ maxWriteBytes) (low : f.off + gBlockSizeBytes ≤ offsetMod)
    (high : f.off + n < offsetMod) : let p := portions f.off n
    let s := (((⟨f.off,0,[]⟩ : Progress).next p.prepended).next p.aligned).next p.appended
    mlfsFileWrite f n = some ⟨n,{ f with off := f.off + n },s.pieces⟩ ∧ Chained f.off s := by
  obtain ⟨total,head,tail,shape⟩ := Overlay.portionsShape f.off n
  have exact' := portions64Exact low high
  have small : n < offsetMod := by omega
  have short : n < 2 ^ 31 := Nat.lt_of_le_of_lt bounded (by decide)
  have body : n ≤ maxIoSize := Nat.le_trans bounded (by decide)
  simp only at *
  generalize portions f.off n = p at *
  obtain ⟨a,b,c⟩ := p
  simp only at *
  have first := nextLength (⟨f.off,0,[]⟩ : Progress) a
  have second := nextLength ((⟨f.off,0,[]⟩ : Progress).next a) b
  have room : ∀ k, k ≤ 2 → k < maxIovec := fun k two => Nat.lt_of_le_of_lt two (by decide)
  have stop : sub64 n c = ((⟨f.off,0,[]⟩ : Progress).next a).i + b := by
    rw [sub64Exact (by omega) small,nextI]
    simp only
    omega
  have one : addUnaligned ⟨f.off,0,[]⟩ a = some ((⟨f.off,0,[]⟩ : Progress).next a) :=
    addUnalignedExact (by omega) (by simp only; omega) (by simp only; omega) (room 0 (by decide))
  have two : addAligned (sub64 n c) (maxIovec + 1) ((⟨f.off,0,[]⟩ : Progress).next a) = some (((⟨f.off,0,[]⟩ : Progress).next a).next b) := by
    rw [stop]
    refine addAlignedExact (by omega) ?_ ?_ (room _ (by simpa using Nat.le_trans first (by simp))) ?_ _
    · rw [nextOff]
      simp only
      omega
    · rw [nextI]
      simp only
      omega
    · rw [nextOff]
      exact shape.elim (fun alone => .inr alone.1) fun split => .inl split.1
  have three : addUnaligned (((⟨f.off,0,[]⟩ : Progress).next a).next b) c =
      some ((((⟨f.off,0,[]⟩ : Progress).next a).next b).next c) := by
    refine addUnalignedExact (by omega) ?_ ?_ (room _ ?_)
    · rw [nextOff,nextOff]
      simp only
      omega
    · rw [nextI,nextI]
      simp only
      omega
    · simp only [List.length_nil] at first
      omega
  have finalOff : ((((⟨f.off,0,[]⟩ : Progress).next a).next b).next c).off = f.off + n := by
    rw [nextOff,nextOff,nextOff]
    simp only
    omega
  have finalI : ((((⟨f.off,0,[]⟩ : Progress).next a).next b).next c).i = n := by
    rw [nextI,nextI,nextI]
    simp only
    omega
  refine ⟨?_,?_⟩
  · simp only [mlfsFileWrite,writable,exact',one,two,three,bind,Option.bind_some,Bool.true_eq_false,if_false,finalI,finalOff,
      if_true,toIntExact short]
  · refine chainedNext (chainedNext (chainedNext (chainedStart _) fun positive => ?_) fun positive => ?_) fun positive => ?_
    · refine ⟨positive,.inl ⟨head,?_⟩⟩
      simp only [gBlockSizeBytes] at *
      omega
    · rw [nextOff]
      refine ⟨positive,.inr ?_⟩
      rcases shape with alone | split
      · omega
      · exact ⟨split.2,split.1⟩
    · rw [nextOff,nextOff]
      refine ⟨positive,.inl ⟨tail,?_⟩⟩
      simp only [gBlockSizeBytes] at *
      omega

theorem sub64Positive {a b : Nat} (other : b ≠ a) (less : a < offsetMod) (bounded : b < offsetMod) : 0 < sub64 a b := by
  simp only [sub64,offsetMod] at *
  omega

theorem nextExtents (s : Progress) (size : Nat) : (s.next size).pieces.map (fun p => (p.off,p.size)) =
    s.pieces.map (fun p => (p.off,p.size)) ++ if 0 < size then [(s.off,size)] else [] := by
  rw [nextPieces,List.map_append]
  by_cases empty : size = 0
  · rw [if_pos empty,if_neg (by omega)]
    rfl
  · rw [if_neg empty,if_pos (by omega)]
    rfl

/- Within the address space the pieces are those that the model of the file cache writes. -/
theorem piecesAgree {β : Type} (byte : Nat → β) (writable : f.writable = true) (bounded : n ≤ maxWriteBytes)
    (low : f.off + gBlockSizeBytes ≤ offsetMod) (high : f.off + n < offsetMod) : ∃ w, mlfsFileWrite f n = some w ∧
      w.pieces.map (fun p => (p.off,p.size)) = (Overlay.pieces ⟨f.off,n,byte⟩).map fun e => (e.dst,e.len) := by
  obtain ⟨wrote,_⟩ := writeExact writable bounded low high
  refine ⟨_,wrote,?_⟩
  simp only [nextExtents,nextOff,Overlay.pieces,List.map_nil,List.nil_append]
  generalize portions f.off n = p
  by_cases head : 0 < p.prepended <;> by_cases body : 0 < p.aligned <;> by_cases tail : 0 < p.appended <;> simp [head,body,tail]

theorem tailOther {off e c : Nat} (last : offsetMod < off + gBlockSizeBytes) (offset : off < offsetMod)
    (wrapped : e = off + n ∧ off + n < offsetMod ∨ e + offsetMod = off + n) (up : e ≤ c ∧ c < e + gBlockSizeBytes ∧ gBlockSizeBytes ∣ c) :
    (0 < c - e → gBlockSizeBytes - (c - e) ≠ n) ∧ (c - e = 0 → n ≠ 0) := by
  obtain ⟨low,high,q,rfl⟩ := up
  simp only [offsetMod,gBlockSizeBytes] at *
  omega

theorem portionsHigh (bounded : n ≤ maxWriteBytes) (last : offsetMod < f.off + gBlockSizeBytes) (offset : f.off < offsetMod) :
    ∃ body tail, portions64 f.off n = some ⟨0,body,tail⟩ ∧ tail ≠ n ∧ tail ≤ gBlockSizeBytes := by
  have ended : add64 f.off n < offsetMod := Nat.mod_lt _ (by decide)
  have wrapped : add64 f.off n = f.off + n ∧ f.off + n < offsetMod ∨ add64 f.off n + offsetMod = f.off + n := by
    simp only [add64,maxWriteBytes,offsetMod] at *
    omega
  have other := tailOther last offset wrapped (alignUp _)
  simp only [portions64,align64Wraps last offset,Nat.not_lt_zero,if_false,slackExact ended]
  have less : align (add64 f.off n) - add64 f.off n ≤ gBlockSizeBytes := by
    have high := (alignUp (add64 f.off n)).2.1
    omega
  generalize align (add64 f.off n) - add64 f.off n = slack at *
  rw [if_neg (by decide)]
  by_cases some : 0 < slack
  · rw [if_pos some,sub64Exact less (by decide)]
    exact ⟨_,_,rfl,other.1 some,Nat.sub_le _ _⟩
  · rw [if_neg some]
    exact ⟨_,_,rfl,fun same => other.2 (by omega) (by omega),by omega⟩

theorem writeHigh (writable : f.writable = true) (bounded : n ≤ maxWriteBytes) (last : offsetMod < f.off + gBlockSizeBytes)
    (offset : f.off < offsetMod) : mlfsFileWrite f n = none := by
  obtain ⟨body,tail,portions,other,short⟩ := portionsHigh bounded last offset
  have unaligned : f.off % gBlockSizeBytes ≠ 0 := by
    simp only [offsetMod,gBlockSizeBytes] at *
    omega
  have more : 0 < sub64 n tail :=
    sub64Positive other (Nat.lt_of_le_of_lt bounded (by decide)) (Nat.lt_of_le_of_lt short (by decide))
  have aborts : addAligned (sub64 n tail) (maxIovec + 1) ⟨f.off,0,[]⟩ = none := by
    rw [addAligned,if_neg (Nat.not_le.mpr more),if_pos unaligned]
  have first : addUnaligned ⟨f.off,0,[]⟩ 0 = some ⟨f.off,0,[]⟩ := if_pos rfl
  simp only [mlfsFileWrite,writable,portions,first,aborts,bind,Option.bind_some,Option.bind_none,Bool.true_eq_false,if_false]

theorem writeAcross (writable : f.writable = true) (bounded : n ≤ maxWriteBytes) (low : f.off + gBlockSizeBytes ≤ offsetMod)
    (across : offsetMod ≤ f.off + n) : mlfsFileWrite f n = none := by
  have up := alignUp f.off
  have wrapped : add64 f.off n = f.off + n - offsetMod := by
    simp only [add64,maxWriteBytes,offsetMod,gBlockSizeBytes] at *
    omega
  have portions : portions64 f.off n = some ⟨n,0,0⟩ := by
    simp only [portions64,wrapped,align64Exact low]
    rw [if_pos]
    simp only [maxWriteBytes,offsetMod,gBlockSizeBytes] at *
    omega
  have refused : addUnaligned ⟨f.off,0,[]⟩ n = none := by
    have short : n < 2 ^ 32 := Nat.lt_of_le_of_lt bounded (by decide)
    simp only [addUnaligned]
    rw [if_neg (by simp only [offsetMod,gBlockSizeBytes] at *; omega),addToLogRefused short,Option.bind_none]
    rw [wrapped]
    simp only [maxWriteBytes,offsetMod] at *
    omega
  simp only [mlfsFileWrite,writable,portions,refused,bind,Option.bind_some,Option.bind_none,Bool.true_eq_false,if_false]

theorem writePartitions (writable : f.writable = true) (offset : f.off < offsetMod) (bounded : n ≤ maxWriteBytes) :
    (∃ w, mlfsFileWrite f n = some w ∧ Partitions f n w) ↔ f.off + gBlockSizeBytes ≤ offsetMod ∧ f.off + n < offsetMod := by
  constructor
  · rintro ⟨w,wrote,_⟩
    by_cases last : f.off + gBlockSizeBytes ≤ offsetMod
    · refine ⟨last,Nat.not_le.mp fun across => ?_⟩
      rw [writeAcross writable bounded last across] at wrote
      cases wrote
    · rw [writeHigh writable bounded (Nat.not_le.mp last) offset] at wrote
      cases wrote
  · rintro ⟨low,high⟩
    obtain ⟨wrote,chained⟩ := writeExact writable bounded low high
    refine ⟨_,wrote,chained.ordered,fun a => ?_,chained.placed,chained.shaped,?_,rfl,rfl⟩
    · refine (chained.covers a).trans ?_
      have total := (portionsSplit f.off n).2.2
      rw [nextOff,nextOff,nextOff]
      simp only
      omega
    · rw [persistLogBlocks,persistsShaped _ _ chained.shaped 1 (Nat.le_of_eq (Nat.add_comm _ _))]
      rfl

end Writes

def atOffset (off : Nat) : File := ⟨true,true,off⟩

theorem writePartitionsThree : mlfsFileWrite (atOffset 4086) 4111 =
      some ⟨4111,atOffset 8197,[⟨4086,0,10⟩,⟨4096,10,4096⟩,⟨8192,4106,5⟩]⟩ ∧
    ∃ w, mlfsFileWrite (atOffset 4086) 4111 = some w ∧ Partitions (atOffset 4086) 4111 w := by
  have small : (atOffset 4086).off < offsetMod := by decide
  exact ⟨by decide +kernel,(writePartitions rfl small (by decide)).mpr (by decide)⟩

/- The next block boundary is zero in 64 bits, so the tail is longer than the write, and the loop over the aligned
portion asserts an aligned position. -/
theorem writeNearWrap : (Descriptors.mlfsPosixLseek 0 (atOffset 0) (-10) .set).file = atOffset (2 ^ 64 - 10) ∧
    portions64 (2 ^ 64 - 10) 5 = some ⟨0,sub64 5 4091,4091⟩ ∧ mlfsFileWrite (atOffset (2 ^ 64 - 10)) 5 = none ∧
    ¬∀ (f : File) (n : Nat), f.writable = true → f.off < offsetMod → n ≤ maxWriteBytes →
      ∃ w, mlfsFileWrite f n = some w ∧ Partitions f n w := by
  have aborts : mlfsFileWrite (atOffset (2 ^ 64 - 10)) 5 = none := by decide +kernel
  refine ⟨by decide +kernel,by decide +kernel,aborts,fun all => ?_⟩
  obtain ⟨w,wrote,_⟩ := all (atOffset (2 ^ 64 - 10)) 5 rfl (by decide) (by decide)
  rw [aborts] at wrote
  cases wrote

end LineFS.WriteSplit
