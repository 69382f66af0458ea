import Mathlib.Algebra.Order.BigOperators.Group.List
import LineFS.Replay

/-! How many entries a memcpy list has. `digest_file` adds one for every call of `mlfs_ext_get_blocks`, so
the list of a request has at most as many entries as the request has data blocks, and on a device with
single free blocks that many. -/
namespace LineFS.MemcpyList
open List (countP_append length_append map_congr_left map_cons map_map mem_map sum_cons)
open Base Kernfs Replay

def opEntries : Op → Nat
  | .file _ _ length _ => getBlkCntFromLength length
  | _ => 0

theorem blkCntPositive (length : Nat) : 0 < getBlkCntFromLength length := by
  unfold getBlkCntFromLength
  split
  · exact Nat.one_pos
  · exact Nat.add_pos_left (Nat.div_pos (Nat.le_of_not_lt ‹_›) (by decide)) _

section lists
variable {σ : Type} {A : Allocator σ}

theorem digestBlocksEntries (rounds : Nat) {p q : Placed σ} {curOffset data left : Nat}
    (h : digestBlocks A rounds p curOffset data left = some q) : q.memcpys.length ≤ p.memcpys.length + left := by
  induction rounds generalizing p curOffset data left with
  | zero =>
    cases left with
    | zero => cases h; exact Nat.le_refl _
    | succ left => cases h
  | succ rounds ih =>
    cases left with
    | zero => cases h; exact Nat.le_refl _
    | succ left =>
      simp only [digestBlocks] at h
      split at h <;> try contradiction
      split at h <;> try contradiction
      have rest := ih h
      simp only [length_append,List.length_singleton] at rest
      omega

theorem placeEntries {space : σ} {ext : Nat → Option Nat} {offset length blknr : Nat} {p : Placed σ}
    (h : placeFile A space ext offset length blknr = some p) : p.memcpys.length ≤ getBlkCntFromLength length := by
  simp only [placeFile] at h
  split at h
  · have rest := digestBlocksEntries _ h
    have positive := blkCntPositive length
    simp only [List.length_singleton] at rest
    omega
  · simpa using digestBlocksEntries _ h

theorem digestedEntries {area : Nat → Dinode} {ops : List Op} {d e : Digest σ} (h : run (digestOp A area) d ops = some e) :
    e.memcpys.length ≤ d.memcpys.length + (ops.map opEntries).sum := by
  induction ops generalizing d with
  | nil => cases h; exact Nat.le_refl _
  | cons op ops ih =>
    obtain ⟨m,first,rest⟩ := Option.bind_eq_some_iff.mp h
    have later := ih rest
    have one : m.memcpys.length ≤ d.memcpys.length + opEntries op := by
      cases op with
      | inode inum blknr => cases first; exact Nat.le_refl _
      | unlink inum blknr => cases first; exact Nat.le_refl _
      | file inum offset length blknr =>
        obtain ⟨r,placed,rfl⟩ := Option.map_eq_some_iff.mp first
        unfold digestFile at placed
        split at placed <;> try contradiction
        obtain ⟨p,found,rfl⟩ := Option.map_eq_some_iff.mp placed
        have := placeEntries found
        simp only [length_append,opEntries]
        omega
    simp only [map_cons,sum_cons]
    omega

end lists

def itemEntries (it : Item) : Nat := (it.ops.map opEntries).sum
def itemsEntries (items : List Item) : Nat := (items.map itemEntries).sum

def OneFile (items : List Item) : Prop := ∀ key, items.countP (Item.isFile key) ≤ 1

section replay
variable {key : Key} {items : List Item}

theorem setBlknrEntries (blknr : Nat) (items : List Item) : itemsEntries (items.map (Item.setBlknr key blknr)) = itemsEntries items := by
  unfold itemsEntries
  rw [map_map]
  refine congrArg List.sum (map_congr_left fun it _ => ?_)
  cases it <;> rfl

theorem addIovecEntries (v : Iovec) (items : List Item) : itemsEntries (items.map (Item.addIovec key v)) =
    itemsEntries items + items.countP (Item.isFile key) * getBlkCntFromLength v.length := by
  induction items with
  | nil => simp [itemsEntries]
  | cons it items ih =>
    have one : itemEntries (it.addIovec key v) =
        itemEntries it + if Item.isFile key it then getBlkCntFromLength v.length else 0 := by
      cases it with
      | inode k create b => rfl
      | unlink k b => rfl
      | file k vs =>
        by_cases same : k = key <;>
          simp [Item.addIovec,Item.isFile,itemEntries,Item.ops,same,opEntries]
    simp only [itemsEntries,map_cons,sum_cons] at ih ⊢
    rw [one,ih,List.countP_cons]
    split <;> simp only [Nat.add_mul] <;> omega

theorem filterEntries (test : Item → Bool) (items : List Item) : itemsEntries (items.filter test) ≤ itemsEntries items := by
  unfold itemsEntries
  exact ((List.filter_sublist).map _).sum_le_sum (fun _ _ => Nat.zero_le _)

theorem snocEntries (it : Item) : itemsEntries (items ++ [it]) = itemsEntries items + itemEntries it := by
  simp [itemsEntries]

theorem countMap {f : Item → Item} (kept : ∀ k it, Item.isFile k (f it) = Item.isFile k it) (one : OneFile items) :
    OneFile (items.map f) := by
  intro k
  rw [List.countP_map]
  exact (congrArg (fun p => items.countP p) (funext (kept k))).symm ▸ one k

theorem replayInodeEntries (create : Bool) (blknr : Nat) (one : OneFile items) :
    itemsEntries (replayInode key create blknr items) ≤ itemsEntries items ∧ OneFile (replayInode key create blknr items) := by
  unfold replayInode
  split
  · exact ⟨Nat.le_of_eq (setBlknrEntries blknr items),countMap (fun k it => by cases it <;> rfl) one⟩
  · refine ⟨Nat.le_of_eq (snocEntries _),fun k => ?_⟩
    simpa [countP_append,Item.isFile] using one k

theorem replayFileEntries (v : Iovec) (one : OneFile items) :
    itemsEntries (replayFile key v items) ≤ itemsEntries items + getBlkCntFromLength v.length ∧ OneFile (replayFile key v items) := by
  unfold replayFile
  split
  · refine ⟨?_,countMap (fun k it => by cases it <;> rfl) one⟩
    rw [addIovecEntries]
    have := Nat.mul_le_mul_right (getBlkCntFromLength v.length) (one key)
    omega
  · rename_i absent
    refine ⟨Nat.le_of_eq (by rw [snocEntries]; simp [itemEntries,Item.ops,opEntries]),fun k => ?_⟩
    by_cases same : key = k
    · subst same
      have none : items.countP (Item.isFile key) = 0 := by
        rw [List.countP_eq_zero]
        intro it mem yes
        exact absent (List.any_eq_true.mpr ⟨it,mem,yes⟩)
      simp [countP_append,none,Item.isFile]
    · simpa [countP_append,Item.isFile,same] using one k

theorem replayUnlinkEntries (blknr : Nat) (one : OneFile items) :
    itemsEntries (replayUnlink key blknr items) ≤ itemsEntries items ∧ OneFile (replayUnlink key blknr items) := by
  have smaller {xs ys : List Item} (test : Item → Bool) (few : itemsEntries xs ≤ itemsEntries ys) (one : OneFile xs) :
      itemsEntries (xs.filter test) ≤ itemsEntries ys ∧ OneFile (xs.filter test) :=
    ⟨Nat.le_trans (filterEntries test xs) few,fun k => Nat.le_trans (List.filter_sublist.countP_le) (one k)⟩
  unfold replayUnlink
  split
  · have first := smaller (fun it => !Item.isInode key it) (Nat.le_refl (itemsEntries items)) one
    exact smaller _ first.1 first.2
  · refine smaller _ (Nat.le_of_eq (snocEntries _)) fun k => ?_
    simpa [countP_append,Item.isFile] using one k

theorem replayItemsEntries (key : Key) (e : Entry) (one : OneFile items) :
    itemsEntries (replayItems e key items) ≤ itemsEntries items + opEntries e.op ∧ OneFile (replayItems e key items) := by
  have file : itemsEntries (replayFile key ⟨e.data,e.length,e.blocks⟩ items) ≤ itemsEntries items + getBlkCntFromLength e.length ∧
      OneFile (replayFile key ⟨e.data,e.length,e.blocks⟩ items) := replayFileEntries ⟨e.data,e.length,e.blocks⟩ one
  unfold replayItems Entry.op
  cases type : e.type <;> simp only [opEntries]
  · exact replayInodeEntries _ _ one
  · exact replayInodeEntries _ _ one
  · exact file
  · exact file
  · exact file
  · exact file
  · exact replayUnlinkEntries _ one

end replay

theorem coalescedEntries (table : VersionTable) (r : Range) :
    ((r.coalesced table).map opEntries).sum ≤ (r.entries.map fun e => opEntries e.op).sum := by
  have fold (es : List Entry) (s : ReplayList) (one : OneFile s.items) :
      itemsEntries (es.foldl replayEntry s).items ≤ itemsEntries s.items + (es.map fun e => opEntries e.op).sum := by
    induction es generalizing s with
    | nil => exact Nat.le_refl _
    | cons e es ih =>
      obtain ⟨few,kept⟩ := replayItemsEntries ⟨e.inodeNo,bump e (s.inodeVersionTable e.inodeNo)⟩ e one
      have rest := ih (replayEntry s e) kept
      simp only [List.foldl_cons,map_cons,sum_cons]
      simp only [replayEntry] at rest ⊢
      omega
  have whole := fold r.entries ⟨table,[]⟩ (fun _ => Nat.zero_le _)
  have flat : ((r.coalesced table).map opEntries).sum = itemsEntries (r.entries.foldl replayEntry ⟨table,[]⟩).items := by
    rw [Range.coalesced,replayEntries,digestLogFromReplayList,List.map_flatMap,List.flatMap,List.sum_flatten,map_map]
    rfl
  rw [flat]
  simpa [itemsEntries] using whole

def hdrEntries (h : Loghdr) : Nat := (h.entries.map fun e => opEntries e.op).sum

def Lists (hdrs : List Loghdr) (n : Nat) : Prop :=
  ∃ (σ : Type) (A : Allocator σ) (used : σ → Nat → Prop) (fs : Fs σ) (table : VersionTable) (area : Nat → Dinode) (d : Digest σ),
    Lawful A used ∧ run (digestOp A area) ⟨fs,[]⟩ (Range.coalesced table ⟨hdrs,area⟩) = some d ∧ d.memcpys.length = n

theorem loggedEntries (h : Loghdr) : (h.logged.map fun e => opEntries e.op).sum = hdrEntries h := by
  unfold Loghdr.logged hdrEntries
  rw [map_map]
  refine congrArg List.sum (map_congr_left fun e _ => ?_)
  simp only [Function.comp_apply,Entry.op]
  cases e.type <;> rfl

theorem rangeEntries (hdrs : List Loghdr) (area : Nat → Dinode) :
    ((Range.entries ⟨hdrs,area⟩).map fun e => opEntries e.op).sum = (hdrs.map hdrEntries).sum := by
  rw [Range.entries,List.map_flatMap,List.flatMap,List.sum_flatten,map_map]
  exact congrArg List.sum (map_congr_left fun h _ => loggedEntries h)

theorem listsBound {hdrs : List Loghdr} {n : Nat} (h : Lists hdrs n) : n ≤ (hdrs.map hdrEntries).sum := by
  obtain ⟨σ,A,used,fs,table,area,d,-,digested,rfl⟩ := h
  have few := digestedEntries digested
  have coalesced := coalescedEntries table ⟨hdrs,area⟩
  rw [rangeEntries] at coalesced
  simp only [List.length_nil] at few
  omega

def singles : Allocator Nat where
  alloc next _ := ⟨next + 1,next,1⟩
  free next _ := next
  extentLen _ _ _ := 1

theorem singlesLawful : Lawful singles fun next b => b < next where
  counted _ _ ask := ⟨Nat.one_pos,ask⟩
  fresh s n b low high := Nat.not_lt.mpr low
  marked s n b := by simp only [singles]; omega
  kept _ _ _ used _ := used
  unmarked _ _ _ used := used
  extent _ _ _ ask := ⟨Nat.one_pos,ask⟩

theorem singlesLen (space : Nat) (ext : Nat → Option Nat) (lblk len : Nat) : (mlfsExtGetBlocks singles space ext lblk len).len = 1 := by
  unfold mlfsExtGetBlocks
  split <;> rfl

theorem singlesBlocks (rounds : Nat) (p : Placed Nat) (curOffset data left : Nat) (aligned : curOffset % gBlockSizeBytes = 0)
    (enough : left ≤ rounds) : ∃ q, digestBlocks singles rounds p curOffset data left = some q ∧ q.memcpys.length = p.memcpys.length + left := by
  induction rounds generalizing p curOffset data left with
  | zero =>
    obtain rfl : left = 0 := Nat.le_zero.mp enough
    exact ⟨p,rfl,rfl⟩
  | succ rounds ih =>
    cases left with
    | zero => exact ⟨p,rfl,rfl⟩
    | succ left =>
      have fine : ¬(1 = 0 ∨ left + 1 < 1) := by omega
      simp only [digestBlocks,aligned,ne_eq,not_true_eq_false,if_false,singlesLen,if_neg fine]
      have next : (curOffset + 1 * gBlockSizeBytes) % gBlockSizeBytes = 0 := by rw [Nat.one_mul,Nat.add_mod_right]; exact aligned
      obtain ⟨q,rest,count⟩ := ih ⟨_,_,p.memcpys ++ [_]⟩ _ (data + 1 * gBlockSizeBytes) (left + 1 - 1) next (by omega)
      refine ⟨q,rest,?_⟩
      simp only [count,length_append,List.length_singleton]
      omega

theorem singlesPlace (space : Nat) (ext : Nat → Option Nat) (offset length blknr : Nat) :
    ∃ p, placeFile singles space ext offset length blknr = some p ∧ p.memcpys.length = getBlkCntFromLength length := by
  obtain ⟨p,placed⟩ := placeSome singlesLawful space ext offset length blknr
  refine ⟨p,placed,?_⟩
  simp only [placeFile] at placed
  split at placed
  · rename_i head
    by_cases short : length < gBlockSizeBytes
    · have one : getBlkCntFromLength length = 1 := by simp [getBlkCntFromLength,short]
      rw [one,digestBlocksDone] at placed
      cases placed
      exact one.symm
    · have aligned : (offset + min length (gBlockSizeBytes - offset % gBlockSizeBytes)) % gBlockSizeBytes = 0 := by
        simp only [gBlockSizeBytes] at *
        omega
      have positive := blkCntPositive length
      obtain ⟨q,same,count⟩ := singlesBlocks _ _ _ _ _ aligned (Nat.sub_le _ 1)
      rw [same] at placed
      cases placed
      rw [count,List.length_singleton]
      omega
  · rename_i whole
    obtain ⟨q,same,count⟩ := singlesBlocks (getBlkCntFromLength length) ⟨space,ext,[]⟩ offset
      (blknr * gBlockSizeBytes) _ (by omega) (Nat.le_refl _)
    rw [same] at placed
    cases placed
    simpa using count

theorem singlesDigest (area : Nat → Dinode) (i : Nat) (ops : List Op) (files : ∀ op ∈ ops, op.isFile = true ∧ op.inum = i) (d : Digest Nat)
    (there : (d.fs.inode i).isSome) :
    ∃ e, run (digestOp singles area) d ops = some e ∧ e.memcpys.length = d.memcpys.length + (ops.map opEntries).sum := by
  induction ops generalizing d with
  | nil => exact ⟨d,rfl,rfl⟩
  | cons op ops ih =>
    obtain ⟨file,inum⟩ := files op (.head _)
    cases op with
    | inode _ _ => cases file
    | unlink _ _ => cases file
    | file j offset length blknr =>
      obtain rfl : j = i := inum
      obtain ⟨ino,found⟩ := Option.isSome_iff_exists.mp there
      obtain ⟨p,placed,count⟩ := singlesPlace d.fs.space ino.ext offset length blknr
      obtain ⟨e,rest,total⟩ := ih (fun op mem => files op (.tail _ mem))
        ⟨d.fs.put j { ino with size := max ino.size (offset + length), ext := p.ext } p.space,d.memcpys ++ p.memcpys⟩
        (by simp [Fs.put])
      refine ⟨e,?_,?_⟩
      · simpa [run,digestOp,digestFile,found,placed] using rest
      · simp only [total,length_append,count,map_cons,sum_cons,opEntries]
        omega

def iovec (e : Entry) : Iovec := ⟨e.data,e.length,e.blocks⟩

theorem replayWrite {e : Entry} (type : e.type = .file) (table : VersionTable) (items : List Item) :
    replayEntry ⟨table,items⟩ e = ⟨table,replayFile ⟨e.inodeNo,table e.inodeNo⟩ (iovec e) items⟩ := by
  have same : (fun j => if j = e.inodeNo then table e.inodeNo else table j) = table := by
    funext j
    split <;> simp_all
  simp [replayEntry,replayItems,bump,type,same,iovec]

theorem filesReplay (table : VersionTable) (i : Nat) (es : List Entry) (files : ∀ e ∈ es, e.type = .file ∧ e.inodeNo = i) (vs : List Iovec) :
    es.foldl replayEntry ⟨table,[.file ⟨i,table i⟩ vs]⟩ = ⟨table,[.file ⟨i,table i⟩ (vs ++ es.map iovec)]⟩ := by
  induction es generalizing vs with
  | nil => simp
  | cons e es ih =>
    obtain ⟨type,rfl⟩ := files e (.head _)
    have one : replayFile ⟨e.inodeNo,table e.inodeNo⟩ (iovec e) [.file ⟨e.inodeNo,table e.inodeNo⟩ vs] =
        [.file ⟨e.inodeNo,table e.inodeNo⟩ (vs ++ [iovec e])] := by
      simp [replayFile,Item.isFile,Item.addIovec]
    rw [List.foldl_cons,replayWrite type,one,ih fun x mem => files x (.tail _ mem)]
    simp

theorem filesCoalesced (table : VersionTable) (i : Nat) (hdrs : List Loghdr) (area : Nat → Dinode)
    (files : ∀ h ∈ hdrs, ∀ e ∈ h.entries, e.type = .file ∧ e.inodeNo = i) :
    Range.coalesced table ⟨hdrs,area⟩ = (Range.entries ⟨hdrs,area⟩).map Entry.op := by
  have logged : ∀ e ∈ Range.entries ⟨hdrs,area⟩, e.type = .file ∧ e.inodeNo = i := by
    intro e mem
    obtain ⟨h,listed,mem⟩ := List.mem_flatMap.mp mem
    obtain ⟨x,known,rfl⟩ := mem_map.mp mem
    exact files h listed x known
  rw [Range.coalesced,replayEntries]
  generalize Range.entries ⟨hdrs,area⟩ = es at logged
  cases es with
  | nil => rfl
  | cons e es =>
    obtain ⟨type,rfl⟩ := logged e (.head _)
    have one : replayFile ⟨e.inodeNo,table e.inodeNo⟩ (iovec e) [] = [.file ⟨e.inodeNo,table e.inodeNo⟩ [iovec e]] := rfl
    rw [List.foldl_cons,replayWrite type,one,filesReplay table e.inodeNo es fun x mem => logged x (.tail _ mem)]
    simp only [digestLogFromReplayList,List.flatMap_cons,List.flatMap_nil,List.append_nil,Item.ops,map_cons,
      map_map,List.singleton_append]
    refine congrArg₂ List.cons (by simp [Entry.op,type,iovec]) (map_congr_left fun x mem => ?_)
    obtain ⟨type,inum⟩ := logged x (.tail _ mem)
    simp [Entry.op,type,iovec,inum]

theorem listsWhole {i : Nat} {hdrs : List Loghdr} (files : ∀ h ∈ hdrs, ∀ e ∈ h.entries, e.type = .file ∧ e.inodeNo = i) :
    Lists hdrs (hdrs.map hdrEntries).sum := by
  let area : Nat → Dinode := fun _ => ⟨.file,0⟩
  let fs : Fs Nat := ⟨fun _ => some ⟨.file,0,false,emptyExt⟩,0⟩
  have ops : ∀ op ∈ Range.coalesced (fun _ => 0) ⟨hdrs,area⟩, op.isFile = true ∧ op.inum = i := by
    rw [filesCoalesced (fun _ => 0) i hdrs area files]
    intro op mem
    obtain ⟨e,logged,rfl⟩ := mem_map.mp mem
    obtain ⟨h,listed,mem⟩ := List.mem_flatMap.mp logged
    obtain ⟨x,known,rfl⟩ := mem_map.mp mem
    obtain ⟨type,inum⟩ := files h listed x known
    simp [Entry.op,type,Op.isFile,Op.inum,inum]
  obtain ⟨d,digested,count⟩ := singlesDigest area i _ ops ⟨fs,[]⟩ rfl
  refine ⟨Nat,singles,_,fs,fun _ => 0,area,d,singlesLawful,digested,?_⟩
  rw [count,filesCoalesced (fun _ => 0) i hdrs area files,map_map,List.length_nil,Nat.zero_add]
  exact rangeEntries hdrs area

end LineFS.MemcpyList
