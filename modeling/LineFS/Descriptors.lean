import LineFS.ReadPath

/-! Positions of the open descriptors of one file and its size, which is kept in the in-memory inode
that all descriptors share. Beside them stands the model of seeking, reading and writing that an
application expects. -/
namespace LineFS.Descriptors
open Base

structure File where
  readable : Bool
  writable : Bool
  off : Nat
  deriving DecidableEq, Repr

inductive Whence where
  | set
  | cur
  | fromEnd
  deriving DecidableEq, Repr

inductive Call where
  | read (fd count : Nat)
  | write (fd count : Nat)
  | lseek (fd : Nat) (offset : Int) (origin : Whence)
  deriving DecidableEq, Repr

def Call.fd : Call → Nat
  | .read fd _ | .write fd _ | .lseek fd _ _ => fd

def eperm : Int := 1

def readi (size off ioSize : Nat) : Nat :=
  let ioSize := if size < off + ioSize then size - off else ioSize
  let p := ReadPath.parts off ioSize
  p.small + p.prepended + p.aligned + p.appended

structure State where
  size : Nat
  files : List File
  replies : List Int
  deriving DecidableEq, Repr

structure Effect where
  size : Nat
  file : File
  reply : Int
  deriving DecidableEq, Repr

def mlfsFileRead (size : Nat) (f : File) (n : Nat) : Effect :=
  if f.readable = false then ⟨size,f,-eperm⟩
  else if size ≤ f.off then ⟨size,f,0⟩
  else
    let r := readi size f.off n
    ⟨size,{ f with off := f.off + r },r⟩

def addPortion (t : Nat × Nat × Nat) (len : Nat) : Nat × Nat × Nat :=
  if len = 0 then t else (if t.1 < t.2.1 + len then t.2.1 + len else t.1,t.2.1 + len,t.2.2 + len)

-- The aligned portion is one piece: it is at most 16 MB long, and a piece may have 128 MB.
def mlfsFileWrite (size : Nat) (f : File) (n : Nat) : Effect :=
  if f.writable = false then ⟨size,f,-eperm⟩
  else
    let p := portions f.off n
    let t := [p.prepended,p.aligned,p.appended].foldl addPortion (size,f.off,0)
    ⟨t.1,{ f with off := t.2.1 },if t.2.2 = n then n else -1⟩

def toOffset (x : Int) : Nat := (x % 2 ^ 64).toNat
def toInt (n : Nat) : Int := (n + 2 ^ 31) % 2 ^ 32 - 2 ^ 31

def mlfsPosixLseek (size : Nat) (f : File) (offset : Int) (origin : Whence) : Effect :=
  let size' := if origin = .fromEnd then toOffset (size + offset) else size
  let off := match origin with
    | .set => toOffset offset
    | .cur => toOffset (f.off + offset)
    | .fromEnd => size'
  ⟨size',{ f with off := off },toInt off⟩

def effect (size : Nat) (f : File) : Call → Option Effect
  | .read _ count => some (mlfsFileRead size f count)
  | .write _ count => if maxWriteBytes < count then none else some (mlfsFileWrite size f count)
  | .lseek _ offset origin => some (mlfsPosixLseek size f offset origin)

def step (s : State) (c : Call) : Option State := do
  let f ← s.files[c.fd]?
  let e ← effect s.size f c
  some ⟨e.size,s.files.set c.fd e.file,s.replies ++ [e.reply]⟩

/- The expected behaviour. `ends` are the ends of the writes so far; `none` is a call that is refused. -/
structure Model where
  initial : Nat
  ends : List Nat
  files : List File
  replies : List (Option Nat)
  deriving DecidableEq, Repr

def Model.size (m : Model) : Nat := m.ends.foldl max m.initial

def Model.target (m : Model) (f : File) (offset : Int) : Whence → Int
  | .set => offset
  | .cur => f.off + offset
  | .fromEnd => m.size + offset

def Model.put (m : Model) (fd : Nat) (f : File) (reply : Option Nat) : Model :=
  { m with files := m.files.set fd f, replies := m.replies ++ [reply] }

def Model.on (m : Model) (f : File) : Call → Model
  | .read fd count =>
    let r := min count (m.size - f.off)
    if f.readable then m.put fd { f with off := f.off + r } (some r) else m.put fd f none
  | .write fd count =>
    if f.writable then
      { m with ends := if count = 0 then m.ends else m.ends ++ [f.off + count] }.put fd { f with off := f.off + count } (some count)
    else m.put fd f none
  | .lseek fd offset origin =>
    let off := (m.target f offset origin).toNat
    m.put fd { f with off := off } (some off)

def model (m : Model) (c : Call) : Option Model := (m.files[c.fd]?).map fun f => m.on f c

/- Positions are not negative, also when they are taken as signed, and arguments fit their types. -/
def TypedOn (m : Model) (f : File) : Call → Prop
  | .read _ count => count < 2 ^ 31 ∧ f.off + count < 2 ^ 63
  | .write _ count => f.off + count < 2 ^ 63
  | .lseek _ offset origin => 0 ≤ m.target f offset origin ∧ m.target f offset origin < 2 ^ 63

-- `SEEK_END` with an offset changes the size, `lseek` returns an `int`, and one write has at most 16 MB.
def WithinOn (m : Model) (f : File) : Call → Prop
  | .read _ _ => True
  | .write _ count => count ≤ maxWriteBytes
  | .lseek _ offset origin => m.target f offset origin < 2 ^ 31 ∧ (origin = .fromEnd → offset = 0)

instance (m f c) : Decidable (TypedOn m f c) := by cases c <;> unfold TypedOn <;> infer_instance
instance (m f c) : Decidable (WithinOn m f c) := by cases c <;> unfold WithinOn <;> infer_instance

def Typed (m : Model) (c : Call) : Prop := ∀ f ∈ m.files[c.fd]?, TypedOn m f c
deriving Decidable
def Within (m : Model) (c : Call) : Prop := ∀ f ∈ m.files[c.fd]?, TypedOn m f c ∧ WithinOn m f c
deriving Decidable

def opened (size : Nat) (files : List File) : State := ⟨size,files,[]⟩
def expected (size : Nat) (files : List File) : Model := ⟨size,[],files,[]⟩

def reply (r : Int) : Option Nat := if r < 0 then none else some r.toNat

structure Follows (m : Model) (s : State) : Prop where
  size : s.size = m.size
  files : s.files = m.files
  replies : s.replies.map reply = m.replies

section Calls
variable {m m' : Model} {s : State} {f : File} {c : Call} {size n off : Nat}

theorem readiClipped (inside : off < size) : readi size off n = min n (size - off) := by
  have total (k : Nat) : (ReadPath.parts off k).small + (ReadPath.parts off k).prepended + (ReadPath.parts off k).aligned +
      (ReadPath.parts off k).appended = k := by
    have shape := ReadPath.partsShape off k
    simp only at shape
    omega
  simp only [readi,total]
  split <;> omega

theorem portionAdded (size off i len : Nat) :
    addPortion (size,off,i) len = (if len = 0 then size else max size (off + len),off + len,i + len) := by
  simp only [addPortion]
  split
  · rename_i none'
    simp [none']
  · rw [Nat.max_def]
    split_ifs <;> simp only [Prod.mk.injEq,and_true] <;> omega

theorem portionsWritten (size off n : Nat) : let p := portions off n
    [p.prepended,p.aligned,p.appended].foldl addPortion (size,off,0) = (if n = 0 then size else max size (off + n),off + n,n) := by
  have total := (Overlay.portionsShape off n).1
  simp only at total ⊢
  generalize portions off n = p at *
  simp only [List.foldl_cons,List.foldl_nil,portionAdded,Prod.mk.injEq]
  exact ⟨by split_ifs <;> omega,by omega,by omega⟩

theorem toOffsetExact {x : Int} (low : 0 ≤ x) (high : x < 2 ^ 63) : toOffset x = x.toNat := by
  unfold toOffset
  rw [Int.emod_eq_of_lt low (by omega)]

theorem toIntExact (small : n < 2 ^ 31) : toInt n = n := by
  unfold toInt
  omega

theorem sizeWritten (m : Model) (k : Nat) : { m with ends := m.ends ++ [k] }.size = max m.size k := by
  simp [Model.size]

structure Agrees (m' : Model) (m : Model) (fd : Nat) (e : Effect) : Prop where
  size : e.size = m'.size
  files : m'.files = m.files.set fd e.file
  replies : m'.replies = m.replies ++ [reply e.reply]

theorem replyCount (n : Nat) : reply n = some n := by simp [reply]

theorem readAgrees (m : Model) (f : File) (fd n : Nat) : Agrees (m.on f (.read fd n)) m fd (mlfsFileRead m.size f n) := by
  cases readable : f.readable with
  | false =>
    simp only [mlfsFileRead,Model.on,readable,if_pos,Bool.false_eq_true,if_false]
    exact ⟨rfl,rfl,rfl⟩
  | true =>
    simp only [mlfsFileRead,Model.on]
    rw [if_pos readable,if_neg (by simp [readable])]
    split
    · rename_i past
      have zero : min n (m.size - f.off) = 0 := by omega
      rw [zero]
      exact ⟨rfl,rfl,rfl⟩
    · rename_i before
      rw [readiClipped (Nat.not_le.mp before)]
      exact ⟨rfl,rfl,by simp only [Model.put,replyCount]⟩

theorem writeAgrees (m : Model) (f : File) (fd n : Nat) : Agrees (m.on f (.write fd n)) m fd (mlfsFileWrite m.size f n) := by
  cases writable : f.writable with
  | false =>
    simp only [mlfsFileWrite,Model.on,writable,if_pos,Bool.false_eq_true,if_false]
    exact ⟨rfl,rfl,rfl⟩
  | true =>
    simp only [mlfsFileWrite,Model.on,writable,if_true,Bool.true_eq_false,if_false,portionsWritten]
    refine ⟨?_,rfl,by simp only [Model.put,replyCount]⟩
    show _ = Model.size _
    split
    · rfl
    · exact (sizeWritten m (f.off + n)).symm

theorem lseekAgrees {offset : Int} {origin : Whence} (fd : Nat) (typed : TypedOn m f (.lseek fd offset origin))
    (within : WithinOn m f (.lseek fd offset origin)) :
    Agrees (m.on f (.lseek fd offset origin)) m fd (mlfsPosixLseek m.size f offset origin) := by
  obtain ⟨low,high⟩ := typed
  obtain ⟨short,still⟩ := within
  have off : (mlfsPosixLseek m.size f offset origin).file.off = (m.target f offset origin).toNat := by
    cases origin <;> exact toOffsetExact low high
  have returned : reply (toInt (m.target f offset origin).toNat) = some (m.target f offset origin).toNat := by
    rw [toIntExact (by omega),replyCount]
  refine ⟨?_,?_,?_⟩
  · cases origin with
    | set | cur => rfl
    | fromEnd =>
      have exact' : toOffset (m.size + offset) = (m.size + offset).toNat := toOffsetExact low high
      show toOffset (m.size + offset) = m.size
      rw [exact',still rfl]
      simp
  · show m.files.set fd { f with off := _ } = m.files.set fd { f with off := (mlfsPosixLseek m.size f offset origin).file.off }
    rw [off]
  · show m.replies ++ [_] = m.replies ++ [reply (toInt (mlfsPosixLseek m.size f offset origin).file.off)]
    rw [off,returned]

theorem callAgrees (typed : TypedOn m f c) (within : WithinOn m f c) :
    ∃ e, effect m.size f c = some e ∧ Agrees (m.on f c) m c.fd e := by
  cases c with
  | read fd count => exact ⟨_,rfl,readAgrees m f fd count⟩
  | write fd count =>
    have small : count ≤ maxWriteBytes := within
    exact ⟨_,by simp only [effect,if_neg (Nat.not_lt.mpr small)],writeAgrees m f fd count⟩
  | lseek fd offset origin => exact ⟨_,rfl,lseekAgrees fd typed within⟩

theorem stepFollows (follows : Follows m s) (within : Within m c) (taken : model m c = some m') :
    ∃ s', step s c = some s' ∧ Follows m' s' := by
  obtain ⟨f,at',rfl⟩ := Option.map_eq_some_iff.mp taken
  obtain ⟨typed,bounded⟩ := within f at'
  obtain ⟨e,done,agrees⟩ := callAgrees typed bounded
  refine ⟨⟨e.size,s.files.set c.fd e.file,s.replies ++ [e.reply]⟩,?_,agrees.size,?_,?_⟩
  · simp only [step,bind,follows.files,at',Option.bind_some,follows.size,done]
  · rw [agrees.files,follows.files]
  · rw [List.map_append,follows.replies,agrees.replies]
    rfl

theorem onInitial (m : Model) (f : File) (c : Call) : (m.on f c).initial = m.initial := by
  cases c <;> simp only [Model.on] <;> (try split) <;> rfl

theorem descriptorsFollow (size : Nat) (files : List File) (cs : List Call) (m : Model)
    (ran : run (guarded model Within) (expected size files) cs = some m) :
    ∃ s, run step (opened size files) cs = some s ∧ s.size = m.ends.foldl max size ∧ s.files = m.files ∧
      s.replies.map reply = m.replies := by
  have follows (m : Model) (s : State) (c : Call) (m' : Model) (related : Follows m s ∧ m.initial = size) (within : Within m c)
      (taken : model m c = some m') : ∃ s', step s c = some s' ∧ Follows m' s' ∧ m'.initial = size := by
    obtain ⟨s',stepped,after⟩ := stepFollows related.1 within taken
    obtain ⟨f,_,rfl⟩ := Option.map_eq_some_iff.mp taken
    exact ⟨s',stepped,after,(onInitial m f c).trans related.2⟩
  have start : Follows (expected size files) (opened size files) := ⟨rfl,rfl,rfl⟩
  obtain ⟨s,ran',after,initial⟩ := runFollows follows ⟨start,rfl⟩ ran
  have grown : m.size = m.ends.foldl max size := by rw [Model.size,initial]
  exact ⟨s,ran',after.size.trans grown,after.files,after.replies⟩

end Calls

def readWrite (off : Nat) : File := ⟨true,true,off⟩

def shared : List Call := [.write 0 5000,.lseek 1 0 .fromEnd,.lseek 1 (-2000) .cur,.read 1 4096,.lseek 0 100 .set]

def sharedEnd : Model := ⟨10,[5000],[readWrite 100,readWrite 5000],[some 5000,some 5000,some 3000,some 2000,some 100]⟩

theorem descriptorsFollowShared : run (guarded model Within) (expected 10 [readWrite 0,readWrite 0]) shared = some sharedEnd ∧
    ∃ s, run step (opened 10 [readWrite 0,readWrite 0]) shared = some s ∧ s.size = 5000 ∧
      s.files = [readWrite 100,readWrite 5000] ∧ s.replies.map reply = sharedEnd.replies := by
  have ran : run (guarded model Within) (expected 10 [readWrite 0,readWrite 0]) shared = some sharedEnd := by decide +kernel
  exact ⟨ran,descriptorsFollow 10 _ shared sharedEnd ran⟩

def behindEnd : List Call := [.lseek 0 5 .fromEnd,.lseek 0 0 .set,.read 0 20]

theorem seekGrowsFile :
    run (guarded model Typed) (expected 10 [readWrite 0]) behindEnd = some ⟨10,[],[readWrite 10],[some 15,some 0,some 10]⟩ ∧
    run step (opened 10 [readWrite 0]) behindEnd = some ⟨15,[readWrite 15],[15,0,15]⟩ := by
  decide +kernel

section Bytes
variable {β : Type} {s : Overlay.LibFS β} {pub : ReadPath.Published β} {f : File} {buf : Nat → β} {n off : Nat}

abbrev Answer (β : Type) : Type := File × Int × (Nat → β)

def checkedReply (count : Nat) : Option Int := if toInt count < 0 then none else some (toInt count)

def readiAnswer (s : Overlay.LibFS β) (pub : ReadPath.Published β) (buf : Nat → β) (off n : Nat) : Option (Int × (Nat → β)) :=
  (ReadPath.readi s pub buf off (n % 2 ^ 32)).bind fun r => (checkedReply r.1).map fun reply => (reply,r.2)

def Bytes.mlfsFileRead (s : Overlay.LibFS β) (pub : ReadPath.Published β) (f : File) (buf : Nat → β) (n : Nat) : Option (Answer β) :=
  if f.readable = false then some (f,-eperm,buf)
  else if s.size ≤ f.off then some (f,0,buf)
  else (readiAnswer s pub buf f.off n).map fun r => ({ f with off := f.off + r.1.toNat },r)

def Bytes.mlfsFileReadOffset (s : Overlay.LibFS β) (pub : ReadPath.Published β) (f : File) (buf : Nat → β) (n off : Nat) :
    Option (Answer β) :=
  if f.readable = false then some (f,-eperm,buf)
  else if s.size ≤ f.off then some (f,0,buf)
  else (readiAnswer s pub buf off n).map fun r => (f,r)

def Bytes.mlfsPosixRead (s : Overlay.LibFS β) (pub : ReadPath.Published β) (f : File) (buf : Nat → β) (count : Int) :
    Option (Answer β) := Bytes.mlfsFileRead s pub f buf (toOffset count)

def Bytes.mlfsPosixPread64 (s : Overlay.LibFS β) (pub : ReadPath.Published β) (f : File) (buf : Nat → β) (count off : Int) :
    Option (Answer β) := Bytes.mlfsFileReadOffset s pub f buf (toOffset count) (toOffset off)

def seekRead (s : Overlay.LibFS β) (pub : ReadPath.Published β) (f : File) (buf : Nat → β) (count off : Int) : Option (Answer β) :=
  Bytes.mlfsPosixRead s pub (mlfsPosixLseek s.size f off .set).file buf count

def Positioned (s : Overlay.LibFS β) (pub : ReadPath.Published β) (f : File) (buf : Nat → β) (count off : Int) : Prop :=
  (Bytes.mlfsPosixPread64 s pub f buf count off).map Prod.snd = (seekRead s pub f buf count off).map Prod.snd ∧
  ∀ r ∈ Bytes.mlfsPosixPread64 s pub f buf count off, r.1 = f

theorem readiCounts (inside : off < s.size) : ∃ out, ReadPath.readi s pub buf off n = some (min n (s.size - off),out) := by
  have count := readiClipped (n := n) inside
  simp only [readi] at count
  simp only [ReadPath.readi,if_neg (Nat.not_le.mpr inside),count]
  exact ⟨_,rfl⟩

theorem readiBehind (past : s.size ≤ off) : ReadPath.readi s pub buf off n = none := if_pos past

theorem readiNothing (inside : off < s.size) : ReadPath.readi s pub buf off 0 = some (0,buf) := by
  have shape := ReadPath.partsShape off 0
  simp only at shape
  have clipped : (if s.size < off + 0 then s.size - off else 0) = 0 := if_neg (by omega)
  have parts : ReadPath.parts off 0 = ⟨0,0,0,0⟩ := by
    generalize ReadPath.parts off 0 = p at *
    obtain ⟨small,prepended,aligned,appended⟩ := p
    simp only [ReadPath.Parts.mk.injEq] at *
    omega
  simp only [ReadPath.readi,if_neg (Nat.not_le.mpr inside),clipped,parts]
  rfl

theorem checkedZero : checkedReply 0 = some 0 := by
  have zero : toInt 0 = 0 := toIntExact (by decide)
  simp only [checkedReply,zero,Int.lt_irrefl,if_false]

theorem checkedPositive {k : Nat} (positive : 0 < k) (small : k < 2 ^ 32) : checkedReply k ≠ some 0 := by
  have returned : toInt k ≠ 0 := by
    unfold toInt
    omega
  unfold checkedReply
  generalize toInt k = r at *
  split
  · exact nofun
  · exact fun zero => returned (Option.some.inj zero)

theorem readiReturns (inside : off < s.size) (positive : 0 < n % 2 ^ 32) : (readiAnswer s pub buf off n).map Prod.fst ≠ some 0 := by
  have short : n % 2 ^ 32 < 2 ^ 32 := Nat.mod_lt _ (by decide)
  unfold readiAnswer
  generalize n % 2 ^ 32 = k at *
  have counted : ∃ out, ReadPath.readi s pub buf off k = some (min k (s.size - off),out) := readiCounts inside
  obtain ⟨out,done⟩ := counted
  have nonzero : checkedReply (min k (s.size - off)) ≠ some 0 := checkedPositive (by omega) (by omega)
  rw [done,Option.bind_some,Option.map_map]
  refine fun zero => nonzero ?_
  obtain ⟨reply,checked,rfl⟩ := Option.map_eq_some_iff.mp zero
  exact checked

theorem readAsked {count off : Int} (readable : f.readable = true) : seekRead s pub f buf count off =
    if s.size ≤ toOffset off then some ({ f with off := toOffset off },0,buf)
    else (readiAnswer s pub buf (toOffset off) (toOffset count)).map fun r => ({ f with off := toOffset off + r.1.toNat },r) := by
  simp only [seekRead,Bytes.mlfsPosixRead,Bytes.mlfsFileRead,mlfsPosixLseek,readable,Bool.true_eq_false,if_false]

theorem preadAsked {count off : Int} (readable : f.readable = true) : Bytes.mlfsPosixPread64 s pub f buf count off =
    if s.size ≤ f.off then some (f,0,buf) else (readiAnswer s pub buf (toOffset off) (toOffset count)).map fun r => (f,r) := by
  simp only [Bytes.mlfsPosixPread64,Bytes.mlfsFileReadOffset,readable,Bool.true_eq_false,if_false]

theorem preadStays {count off : Int} : ∀ r ∈ Bytes.mlfsPosixPread64 s pub f buf count off, r.1 = f := by
  intro r read
  simp only [Bytes.mlfsPosixPread64,Bytes.mlfsFileReadOffset] at read
  split at read
  · exact (Option.some.inj read) ▸ rfl
  · split at read
    · exact (Option.some.inj read) ▸ rfl
    · obtain ⟨_,_,rfl⟩ := Option.map_eq_some_iff.mp read
      rfl

/- Both tests of the end of the file have to fall out alike, unless the descriptor cannot be read or no
bytes are asked for before the end. -/
theorem preadPositioned (s : Overlay.LibFS β) (pub : ReadPath.Published β) (f : File) (buf : Nat → β) (count off : Int) :
    Positioned s pub f buf count off ↔ f.readable = false ∨ (s.size ≤ f.off ↔ s.size ≤ toOffset off) ∨
      s.size ≤ f.off ∧ toOffset count % 2 ^ 32 = 0 := by
  cases readable : f.readable with
  | false =>
    refine iff_of_true ⟨?_,preadStays⟩ (.inl rfl)
    simp [Bytes.mlfsPosixPread64,Bytes.mlfsFileReadOffset,seekRead,Bytes.mlfsPosixRead,Bytes.mlfsFileRead,mlfsPosixLseek,readable]
  | true =>
    rw [Positioned,and_iff_left preadStays,preadAsked readable,readAsked readable]
    simp only [Bool.true_eq_false,false_or]
    by_cases behind : s.size ≤ f.off
    · by_cases past : s.size ≤ toOffset off
      · simp [behind,past]
      · rw [if_pos behind,if_neg past]
        simp only [behind,past,true_and,iff_false,not_true,false_or,Option.map_map,Option.map_some]
        constructor
        · intro same
          by_contra asked
          have fst := congrArg (Option.map Prod.fst) same
          rw [Option.map_map] at fst
          exact readiReturns (Nat.not_le.mp past) (Nat.pos_of_ne_zero asked) fst.symm
        · intro nothing
          have answer : readiAnswer s pub buf (toOffset off) (toOffset count) = some (0,buf) := by
            rw [readiAnswer,nothing,readiNothing (Nat.not_le.mp past),Option.bind_some,checkedZero,Option.map_some]
          rw [answer]
          rfl
    · by_cases past : s.size ≤ toOffset off
      · have aborted : readiAnswer s pub buf (toOffset off) (toOffset count) = none := by
          rw [readiAnswer,readiBehind past,Option.bind_none]
        simp [behind,past,aborted]
      · rw [if_neg behind,if_neg past]
        simp only [behind,past,Option.map_map,false_and,or_false,iff_true]
        rfl

end Bytes

theorem preadTestsPosition :
    ¬(∀ (s : Overlay.LibFS UInt8) (pub : ReadPath.Published UInt8) (f : File) (buf : Nat → UInt8) (count off : Int),
      Positioned s pub f buf count off) ∧
    (Bytes.mlfsPosixPread64 (ReadPath.opened ReadPath.oneBlock (fun _ => 0) 10 1) ReadPath.oneBlock (readWrite 4096) (fun _ => 0) 5 0).map
      (·.2.1) = some 0 ∧
    (seekRead (ReadPath.opened ReadPath.oneBlock (fun _ => 0) 10 1) ReadPath.oneBlock (readWrite 4096) (fun _ => 0) 5 0).map
      (·.2.1) = some 5 ∧
    (Bytes.mlfsPosixPread64 (ReadPath.opened ReadPath.oneBlock (fun _ => 0) 10 1) ReadPath.oneBlock (readWrite 0) (fun _ => 0) 5 4096).map
      (·.2.1) = none ∧
    (seekRead (ReadPath.opened ReadPath.oneBlock (fun _ => 0) 10 1) ReadPath.oneBlock (readWrite 0) (fun _ => 0) 5 4096).map
      (·.2.1) = some 0 := by
  have atEnd : (Bytes.mlfsPosixPread64 (ReadPath.opened ReadPath.oneBlock (fun _ => 0) 10 1) ReadPath.oneBlock (readWrite 4096)
      (fun _ => 0) 5 0).map (·.2.1) = some 0 := by decide +kernel
  have sought : (seekRead (ReadPath.opened ReadPath.oneBlock (fun _ => 0) 10 1) ReadPath.oneBlock (readWrite 4096)
      (fun _ => 0) 5 0).map (·.2.1) = some 5 := by decide +kernel
  refine ⟨fun all => ?_,atEnd,sought,by decide +kernel,by decide +kernel⟩
  have same := congrArg (Option.map Prod.fst) (all (ReadPath.opened ReadPath.oneBlock (fun _ => 0) 10 1) ReadPath.oneBlock
    (readWrite 4096) (fun _ => 0) 5 0).1
  rw [Option.map_map,Option.map_map] at same
  have zero : some (0 : Int) = some 5 := (atEnd.symm.trans same).trans sought
  exact absurd zero (by decide)

end LineFS.Descriptors
