import LineFS.Bitmap

/-! `_find_peer`. The open sockets and the registered peers are in two tables with holes, each with a
bitmap and a counter. The two loops run as often as their counter says and find the next place with
`find_next_bit`. A failed dereference is `none`. -/
namespace LineFS.PeerLookup
open List (mem_cons pairwise_cons)
open Bitmap

def sockTypeCount : Nat := 4
def sockBitmapSize (peerBitmapSize : Nat) : Nat := peerBitmapSize * sockTypeCount

structure PeerId where
  ip : String
  pid : BitVec 32
  deriving DecidableEq, Repr

structure PeerSocket where
  peer : Option PeerId
  deriving DecidableEq, Repr

/- The bitmaps and tables of the sockets and of the peers; `peer_bitmap_size` differs between LibFS and KernFS. -/
structure Tables (peerBitmapSize : Nat) where
  sockBitmap : Words
  gRpcSocks : Nat → Option PeerSocket
  gSockCount : Nat
  peerBitmap : Words
  gPeers : Nat → Option PeerId
  gPeerCount : Nat
  socksCounted : gSockCount = bitmapWeight sockBitmap (sockBitmapSize peerBitmapSize)
  peersCounted : gPeerCount = bitmapWeight peerBitmap peerBitmapSize
  peersHeld : ∀ i < peerBitmapSize, bit peerBitmap i = true → gPeers i ≠ none

def PeerId.Is (p : PeerId) (ip : String) (pid : BitVec 32) : Prop := p.ip = ip ∧ p.pid = pid
deriving Decidable

section lookup
variable {size : Nat} (t : Tables size) (ip : String) (pid : BitVec 32)

-- A socket without a peer is skipped by `continue`, which leaves `idx` where it is.
def socketLoop : Nat → Nat → Option (Option PeerId)
  | 0, _ => some none
  | i + 1, idx =>
    let idx := findNextBit t.sockBitmap (sockBitmapSize size) idx
    match t.gRpcSocks idx with
    | none => none
    | some ⟨none⟩ => socketLoop i idx
    | some ⟨some p⟩ => if p.Is ip pid then some (some p) else socketLoop i (idx + 1)

def peerLoop : Nat → Nat → Option (Option PeerId)
  | 0, _ => some none
  | i + 1, idx =>
    let idx := findNextBit t.peerBitmap size idx
    match t.gPeers idx with
    | none => none
    | some p => if p.Is ip pid then some (some p) else peerLoop i (idx + 1)

def findPeer : Option (Option PeerId) := do
  match ← socketLoop t ip pid t.gSockCount 0 with
  | some p => some (some p)
  | none => peerLoop t ip pid t.gPeerCount 0

def OpenSocket (i : Nat) : Prop := i < sockBitmapSize size ∧ bit t.sockBitmap i = true
def AttachedAt (i : Nat) (p : PeerId) : Prop := OpenSocket t i ∧ t.gRpcSocks i = some ⟨some p⟩
def Attached (p : PeerId) : Prop := ∃ i, AttachedAt t i p
def Registered (p : PeerId) : Prop := ∃ i < size, bit t.peerBitmap i = true ∧ t.gPeers i = some p

structure Found (r : Option PeerId) : Prop where
  sound : ∀ p, r = some p → p.Is ip pid ∧ (Attached t p ∨ Registered t p)
  complete : r = none → ∀ p, Attached t p ∨ Registered t p → ¬p.Is ip pid

def Reached (i : Nat) : Prop := ∀ j < i, OpenSocket t j → ∃ p, AttachedAt t j p

/- The peer is attached to a socket below all sockets without a peer; or the lowest of those is not a NULL
entry, and the peer is registered or attached nowhere. -/
def Visible : Prop :=
  (∃ i p, Reached t i ∧ AttachedAt t i p ∧ p.Is ip pid) ∨
  (∀ i, Reached t i → OpenSocket t i → t.gRpcSocks i ≠ none) ∧
    ((∃ p, Registered t p ∧ p.Is ip pid) ∨ ∀ p, Attached t p → ¬p.Is ip pid)

end lookup

def onesFrom (m : Words) (nbits start : Nat) : List Nat := (List.range' start (nbits - start)).filter (bit m)

section ones
variable {m : Words} {nbits start k : Nat} {rest : List Nat}

theorem onesMem {i : Nat} : i ∈ onesFrom m nbits start ↔ start ≤ i ∧ i < nbits ∧ bit m i = true := by
  rw [onesFrom,List.mem_filter,List.mem_range'_1,← and_assoc]
  exact and_congr_left fun _ => by omega

theorem onesCount : (onesFrom m nbits 0).length = bitmapWeight m nbits := by
  rw [bitmapWeightCount,onesFrom,← List.countP_eq_length_filter,Nat.sub_zero,List.range_eq_range']

theorem onesSkip (inside : start < nbits) (clear : bit m start = false) : onesFrom m nbits start = onesFrom m nbits (start + 1) := by
  have more : nbits - start = (nbits - (start + 1)) + 1 := by omega
  rw [onesFrom,more,List.range'_succ,List.filter_cons_of_neg (by simp [clear])]
  rfl

theorem onesHere (inside : start < nbits) (set : bit m start = true) : onesFrom m nbits start = start::onesFrom m nbits (start + 1) := by
  have more : nbits - start = (nbits - (start + 1)) + 1 := by omega
  rw [onesFrom,more,List.range'_succ,List.filter_cons_of_pos set]
  rfl

theorem onesNext (from_ : onesFrom m nbits start = k::rest) :
    findNextBit m nbits start = k ∧ findNextBit m nbits k = k ∧ onesFrom m nbits k = k::rest ∧ onesFrom m nbits (k + 1) = rest := by
  have next := findNextBitSpec m nbits start
  have again := findNextBitSpec m nbits k
  have listed : k ∈ onesFrom m nbits start := by rw [from_]; exact .head _
  obtain ⟨low,inside,set⟩ := onesMem.mp listed
  have first : findNextBit m nbits start = k := by
    by_contra other
    rcases Nat.lt_or_gt_of_ne other with before | behind
    · have low := next.low
      have found := next.found (by omega)
      have mem : findNextBit m nbits start ∈ onesFrom m nbits start := onesMem.mpr ⟨by omega,by omega,found⟩
      have sorted : (onesFrom m nbits start).Pairwise (· < ·) := List.Pairwise.filter _ List.pairwise_lt_range'
      rw [from_] at mem sorted
      rcases mem_cons.mp mem with same | later
      · exact other same
      · have above := (pairwise_cons.mp sorted).1 _ later
        omega
    · have clear := next.skipped k low behind
      rw [set] at clear
      cases clear
  have stays : findNextBit m nbits k = k := by
    have low := again.low
    by_contra other
    have clear := again.skipped k (Nat.le_refl k) (by omega)
    rw [set] at clear
    cases clear
  have moved : onesFrom m nbits start = onesFrom m nbits k := by
    have passed : ∀ d, start + d ≤ k → onesFrom m nbits start = onesFrom m nbits (start + d) := by
      intro d
      induction d with
      | zero => exact fun _ => rfl
      | succ d ih =>
        intro upto
        have clear := next.skipped (start + d) (by omega) (by omega)
        rw [ih (by omega),onesSkip (by omega) clear,Nat.add_assoc]
    have all := passed (k - start) (by omega)
    rwa [Nat.add_sub_cancel' low] at all
  have here := onesHere inside set
  rw [← moved,from_] at here
  exact ⟨first,stays,moved ▸ from_,(List.cons.inj here).2.symm⟩

end ones

section loops
variable {size : Nat} {t : Tables size} {ip : String} {pid : BitVec 32}

def Tables.openSockets (t : Tables size) : List Nat := onesFrom t.sockBitmap (sockBitmapSize size) 0

def Passed (t : Tables size) (ip : String) (pid : BitVec 32) (k : Nat) : Prop := ∃ p, t.gRpcSocks k = some ⟨some p⟩ ∧ ¬p.Is ip pid

inductive Scans (t : Tables size) (ip : String) (pid : BitVec 32) : List Nat → Option (Option PeerId) → Prop where
  | done : Scans t ip pid [] (some none)
  | stuck {k rest} (bare : t.gRpcSocks k = some ⟨none⟩) : Scans t ip pid (k::rest) (some none)
  | null {k rest} (none_ : t.gRpcSocks k = none) : Scans t ip pid (k::rest) none
  | hit {k rest p} (here : t.gRpcSocks k = some ⟨some p⟩) (is : p.Is ip pid) : Scans t ip pid (k::rest) (some (some p))
  | pass {k rest r} (passed : Passed t ip pid k) (later : Scans t ip pid rest r) : Scans t ip pid (k::rest) r

theorem socketLoopStuck {k : Nat} (stays : findNextBit t.sockBitmap (sockBitmapSize size) k = k) (bare : t.gRpcSocks k = some ⟨none⟩)
    (i : Nat) : socketLoop t ip pid i k = some none := by
  induction i with
  | zero => rfl
  | succ i ih => simp only [socketLoop,stays,bare,ih]

theorem socketLoopScans (i idx : Nat) (counted : (onesFrom t.sockBitmap (sockBitmapSize size) idx).length = i) :
    Scans t ip pid (onesFrom t.sockBitmap (sockBitmapSize size) idx) (socketLoop t ip pid i idx) := by
  induction i generalizing idx with
  | zero =>
    rw [List.length_eq_zero_iff.mp counted]
    exact .done
  | succ i ih =>
    cases listed : onesFrom t.sockBitmap (sockBitmapSize size) idx with
    | nil =>
      rw [listed] at counted
      cases counted
    | cons k rest =>
      obtain ⟨next,stays,_,later⟩ := onesNext listed
      rw [listed,List.length_cons] at counted
      simp only [socketLoop,next]
      cases entry : t.gRpcSocks k with
      | none => exact .null entry
      | some sock =>
        obtain ⟨peer⟩ := sock
        cases peer with
        | none =>
          simp only [socketLoopStuck stays entry]
          exact .stuck entry
        | some p =>
          dsimp only
          split
          · rename_i is
            exact .hit entry is
          · rename_i other
            have tail := ih (k + 1) (by rw [later]; omega)
            rw [later] at tail
            exact .pass ⟨p,entry,other⟩ tail

theorem peerLoopFinds (ip : String) (pid : BitVec 32) (i idx : Nat) (counted : (onesFrom t.peerBitmap size idx).length = i) :
    ∃ r, peerLoop t ip pid i idx = some r ∧
      (∀ p, r = some p → p.Is ip pid ∧ Registered t p) ∧
      (r = none → ∀ k ∈ onesFrom t.peerBitmap size idx, ∀ p, t.gPeers k = some p → ¬p.Is ip pid) := by
  induction i generalizing idx with
  | zero =>
    rw [List.length_eq_zero_iff.mp counted]
    exact ⟨none,rfl,nofun,fun _ => nofun⟩
  | succ i ih =>
    cases listed : onesFrom t.peerBitmap size idx with
    | nil =>
      rw [listed] at counted
      cases counted
    | cons k rest =>
      obtain ⟨next,_,_,later⟩ := onesNext listed
      obtain ⟨_,inside,set⟩ := onesMem.mp (show k ∈ onesFrom t.peerBitmap size idx by rw [listed]; exact .head _)
      obtain ⟨p,entry⟩ := Option.ne_none_iff_exists'.mp (t.peersHeld k inside set)
      simp only [peerLoop,next,entry]
      by_cases is : p.Is ip pid
      · rw [if_pos is]
        refine ⟨some p,rfl,fun q same => ?_,nofun⟩
        cases same
        exact ⟨is,k,inside,set,entry⟩
      · rw [if_neg is]
        rw [listed,List.length_cons] at counted
        obtain ⟨r,done,sound,complete⟩ := ih (k + 1) (by rw [later]; omega)
        refine ⟨r,done,sound,fun missing j mem q found => ?_⟩
        rcases mem_cons.mp mem with rfl | mem
        · cases entry.symm.trans found
          exact is
        · exact complete missing j (later ▸ mem) q found

theorem scansAt {xs : List Nat} {r : Option (Option PeerId)} {i : Nat} (h : Scans t ip pid xs r) (sorted : xs.Pairwise (· < ·))
    (mem : i ∈ xs) (below : ∀ j ∈ xs, j < i → ∃ p, t.gRpcSocks j = some ⟨some p⟩) :
    Passed t ip pid i ∨ t.gRpcSocks i = some ⟨none⟩ ∧ r = some none ∨ t.gRpcSocks i = none ∧ r = none ∨ ∃ p, r = some (some p) := by
  induction h with
  | done => cases mem
  | @stuck k rest bare =>
    rcases mem_cons.mp mem with rfl | later
    · exact .inr (.inl ⟨bare,rfl⟩)
    · obtain ⟨p,attached⟩ := below k (.head _) ((pairwise_cons.mp sorted).1 i later)
      rw [bare] at attached
      cases attached
  | @null k rest none_ =>
    rcases mem_cons.mp mem with rfl | later
    · exact .inr (.inr (.inl ⟨none_,rfl⟩))
    · obtain ⟨p,attached⟩ := below k (.head _) ((pairwise_cons.mp sorted).1 i later)
      rw [none_] at attached
      cases attached
  | @hit k rest p here is => exact .inr (.inr (.inr ⟨p,rfl⟩))
  | @pass k rest r passed later ih =>
    rcases mem_cons.mp mem with rfl | behind
    · exact .inl passed
    · exact ih (pairwise_cons.mp sorted).2 behind fun j mem => below j (.tail k mem)

theorem scansEnd {xs : List Nat} {r : Option (Option PeerId)} (h : Scans t ip pid xs r) (ended : r ≠ some none)
    (sorted : xs.Pairwise (· < ·)) :
    ∃ k ∈ xs, (r = none ∧ t.gRpcSocks k = none ∨ ∃ p, r = some (some p) ∧ t.gRpcSocks k = some ⟨some p⟩ ∧ p.Is ip pid) ∧
    ∀ j ∈ xs, j < k → ∃ q, t.gRpcSocks j = some ⟨some q⟩ := by
  have least {k : Nat} {rest : List Nat} (sorted : (k::rest).Pairwise (· < ·)) (j : Nat) (mem : j ∈ k::rest) : ¬j < k := by
    rcases mem_cons.mp mem with rfl | later
    · exact Nat.lt_irrefl _
    · exact Nat.lt_asymm ((pairwise_cons.mp sorted).1 j later)
  induction h with
  | done | stuck => contradiction
  | @null k rest none_ => exact ⟨k,.head _,.inl ⟨rfl,none_⟩,fun j mem less => absurd less (least sorted j mem)⟩
  | @hit k rest p here is => exact ⟨k,.head _,.inr ⟨p,rfl,here,is⟩,fun j mem less => absurd less (least sorted j mem)⟩
  | @pass k rest r passed later ih =>
    obtain ⟨i,mem,stop,below⟩ := ih ended (pairwise_cons.mp sorted).2
    refine ⟨i,.tail k mem,stop,fun j listed less => ?_⟩
    rcases mem_cons.mp listed with rfl | behind
    · exact ⟨passed.choose,passed.choose_spec.1⟩
    · exact below j behind less

theorem openMem {i : Nat} : i ∈ t.openSockets ↔ OpenSocket t i := by
  rw [Tables.openSockets,onesMem]
  exact ⟨fun h => h.2,fun h => ⟨Nat.zero_le i,h⟩⟩

theorem openSorted : t.openSockets.Pairwise (· < ·) := List.Pairwise.filter _ List.pairwise_lt_range'

theorem reachedOpen {k : Nat} (below : ∀ j ∈ t.openSockets, j < k → ∃ q, t.gRpcSocks j = some ⟨some q⟩) : Reached t k := by
  intro j less open_
  obtain ⟨q,attached⟩ := below j (openMem.mpr open_) less
  exact ⟨q,open_,attached⟩

theorem socketsScanned : Scans t ip pid t.openSockets (socketLoop t ip pid t.gSockCount 0) :=
  socketLoopScans t.gSockCount 0 (onesCount.trans t.socksCounted.symm)

theorem reachedAt {i : Nat} (ip : String) (pid : BitVec 32) (reached : Reached t i) (open_ : OpenSocket t i) :
    Passed t ip pid i ∨ t.gRpcSocks i = some ⟨none⟩ ∧ socketLoop t ip pid t.gSockCount 0 = some none ∨
      t.gRpcSocks i = none ∧ socketLoop t ip pid t.gSockCount 0 = none ∨ ∃ p, socketLoop t ip pid t.gSockCount 0 = some (some p) := by
  refine scansAt socketsScanned openSorted (openMem.mpr open_) fun j mem less => ?_
  obtain ⟨p,_,attached⟩ := reached j less (openMem.mp mem)
  exact ⟨p,attached⟩

theorem missedUnseen (missed : ∀ p, socketLoop t ip pid t.gSockCount 0 ≠ some (some p)) :
    ¬∃ i p, Reached t i ∧ AttachedAt t i p ∧ p.Is ip pid := by
  rintro ⟨i,p,reached,⟨open_,attached⟩,is⟩
  rcases reachedAt ip pid reached open_ with ⟨q,here,other⟩ | ⟨bare,_⟩ | ⟨none_,_⟩ | ⟨q,found⟩
  · rw [attached] at here
    cases here
    exact other is
  · rw [attached] at bare
    cases bare
  · rw [attached] at none_
    cases none_
  · exact missed q found

theorem findPeerComplete (t : Tables size) (ip : String) (pid : BitVec 32) :
    (∃ r, findPeer t ip pid = some r ∧ Found t ip pid r) ↔ Visible t ip pid := by
  obtain ⟨r,looked,sound,complete⟩ := peerLoopFinds ip pid t.gPeerCount 0 (onesCount.trans t.peersCounted.symm)
  have registered : r = none → ∀ p, Registered t p → ¬p.Is ip pid := by
    rintro missing p ⟨i,inside,set,entry⟩
    exact complete missing i (onesMem.mpr ⟨Nat.zero_le i,inside,set⟩) p entry
  cases scanned : socketLoop t ip pid t.gSockCount 0 with
  | none =>
    have fails : findPeer t ip pid = none := by simp [findPeer,scanned]
    have scan : Scans t ip pid t.openSockets none := scanned ▸ socketsScanned
    obtain ⟨k,mem,⟨_,null⟩ | ⟨_,found,_⟩,below⟩ := scansEnd scan nofun openSorted <;> try contradiction
    refine ⟨fun ⟨q,done,_⟩ => absurd (fails.symm.trans done) nofun,fun visible => ?_⟩
    rcases visible with seen | ⟨entries,_⟩
    · exact absurd seen (missedUnseen fun p found => absurd (scanned.symm.trans found) nofun)
    · exact absurd null (entries k (reachedOpen below) (openMem.mp mem))
  | some answer =>
    cases answer with
    | some p =>
      have finds : findPeer t ip pid = some (some p) := by simp [findPeer,scanned]
      have scan : Scans t ip pid t.openSockets (some (some p)) := scanned ▸ socketsScanned
      obtain ⟨k,mem,⟨found,_⟩ | ⟨_,⟨⟩,here,is⟩,below⟩ := scansEnd scan nofun openSorted <;> try contradiction
      refine ⟨fun _ => .inl ⟨k,p,reachedOpen below,⟨openMem.mp mem,here⟩,is⟩,fun _ => ⟨some p,finds,fun q same => ?_,nofun⟩⟩
      cases Option.some.inj same
      exact ⟨is,.inl ⟨k,openMem.mp mem,here⟩⟩
    | none =>
      have goesOn : findPeer t ip pid = some r := by simp [findPeer,scanned,looked]
      have unseen : ¬∃ i p, Reached t i ∧ AttachedAt t i p ∧ p.Is ip pid :=
        missedUnseen fun p found => absurd (scanned.symm.trans found) nofun
      constructor
      · rintro ⟨q,done,found⟩
        cases Option.some.inj (goesOn.symm.trans done)
        refine .inr ⟨fun i reached open_ null => ?_,?_⟩
        · rcases reachedAt ip pid reached open_ with ⟨p,here,_⟩ | ⟨bare,_⟩ | ⟨_,crashed⟩ | ⟨p,hit⟩
          · exact absurd (null.symm.trans here) nofun
          · exact absurd (null.symm.trans bare) nofun
          · exact absurd (scanned.symm.trans crashed) nofun
          · exact absurd (scanned.symm.trans hit) nofun
        · cases r with
          | none => exact .inr fun p attached => found.complete rfl p (.inl attached)
          | some p => exact .inl ⟨p,(sound p rfl).2,(sound p rfl).1⟩
      · rintro (seen | ⟨_,known⟩)
        · exact absurd seen unseen
        · refine ⟨r,goesOn,fun p same => ⟨(sound p same).1,.inr (sound p same).2⟩,fun missing p held => ?_⟩
          rcases held with attached | listed
          · rcases known with ⟨q,listed,is⟩ | nowhere
            · exact absurd is (registered missing q listed)
            · exact nowhere p attached
          · exact registered missing p listed

end loops

def bareFirst : Tables 14 where
  sockBitmap := bitmapSet empty 0 2
  gRpcSocks := fun i => if i = 0 then some ⟨none⟩ else if i = 1 then some ⟨some ⟨"192.168.13.115",7⟩⟩ else none
  gSockCount := 2
  peerBitmap := empty
  gPeers := fun _ => none
  gPeerCount := 0
  socksCounted := by decide
  peersCounted := by decide
  peersHeld := fun i _ set => by simp at set

theorem bareSocketHidesPeer : ¬∀ size (t : Tables size) ip pid, ∃ r, findPeer t ip pid = some r ∧ Found t ip pid r := by
  intro claim
  have missed : findPeer bareFirst "192.168.13.115" 7 = some none := by decide
  obtain ⟨r,done,found⟩ := claim 14 bareFirst "192.168.13.115" 7
  cases Option.some.inj (missed.symm.trans done)
  exact found.complete rfl ⟨"192.168.13.115",7⟩ (.inl ⟨1,⟨by decide,by decide⟩,rfl⟩) ⟨rfl,rfl⟩

end LineFS.PeerLookup
