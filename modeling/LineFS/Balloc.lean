import LineFS.Base.Run
import LineFS.Base.Cover
import LineFS.Kernfs
import Mathlib.Data.List.TakeWhile
import Mathlib.Data.List.Basic

/-! The block allocator of `io/balloc.c`: one list of free ranges for each partition of
the block area. The red-black tree of a list is its ranges in order; a pointer into the
tree is a position in that order. -/
namespace LineFS.Balloc
open List (mem_append mem_append_left mem_append_right mem_cons mem_singleton pairwise_append pairwise_cons)
open Base

structure SuperBlock where
  numBlocks : Nat
  nPartition : Nat
  reservedBlocks : Nat
  deriving DecidableEq, Repr

def perListBlocks (sb : SuperBlock) : Nat := sb.numBlocks / sb.nPartition

inductive AllocType where
  | tree
  | data
  | dataLog
  deriving DecidableEq, Repr

inductive Errno where
  | einval
  | enospc
  deriving DecidableEq, Repr

structure FreeList where
  blockStart : Nat
  blockEnd : Nat
  nodes : List Stretch
  firstNode : Option Nat
  numFreeBlocks : Nat
  deriving DecidableEq, Repr

structure FreeLists where
  lists : List FreeList
  shared : FreeList
  deriving DecidableEq, Repr

def initList (sb : SuperBlock) (fresh : Bool) (i : Nat) : FreeList :=
  let blockStart := perListBlocks sb * i
  let blockEnd := blockStart + perListBlocks sb - 1
  if fresh then
    let reserved := if i = 0 then sb.reservedBlocks else 0
    ⟨blockStart + reserved,blockEnd,[⟨blockStart + reserved,blockEnd⟩],some 0,perListBlocks sb - reserved⟩
  else ⟨blockStart,blockEnd,[],none,0⟩

-- The shared list is given the remaining blocks as its bounds, but no node.
def mlfsInitBlockmap (sb : SuperBlock) (fresh : Bool) : FreeLists :=
  let blockEnd := perListBlocks sb * sb.nPartition - 1
  ⟨(List.range sb.nPartition).map (initList sb fresh),
   if blockEnd + 1 < sb.numBlocks then ⟨blockEnd + 1,sb.numBlocks - 1,[],none,0⟩ else ⟨0,0,[],none,0⟩⟩

/- The nodes below the range that is to be freed and those above. The descent ends at one of the two
neighbours, whichever the shape of the tree puts deeper (`below`), and compares the range with it only. -/
def mlfsFindFreeSlot (below : Bool) (nodes : List Stretch) (rangeLow rangeHigh : Nat) :
    Except Errno (List Stretch × List Stretch) :=
  let prevs := nodes.takeWhile fun r => r.high < rangeLow
  match nodes.dropWhile fun r => r.high < rangeLow with
  | [] => .ok (prevs,[])
  | next::nexts =>
    if next.low ≤ rangeLow then .error .einval
    else if below ∧ prevs ≠ [] then .ok (prevs,next::nexts)
    else if rangeHigh < next.low then .ok (prevs,next::nexts)
    else .error .einval

def erased (k : Nat) (firstNode : Option Nat) : Option Nat := firstNode.map fun f => if k < f then f - 1 else f
def inserted (k : Nat) (firstNode : Option Nat) : Option Nat := firstNode.map fun f => if k ≤ f then f + 1 else f

/- The freed range joins the neighbours it touches: it fits the hole between both,
aligns left or right, or becomes a node of its own. -/
def freeInList (below : Bool) (l : FreeList) (blocknr num : Nat) : Except Errno FreeList :=
  let blockHigh := blocknr + num - 1
  (mlfsFindFreeSlot below l.nodes blocknr blockHigh).map fun (prevs,nexts) =>
    let l := { l with numFreeBlocks := l.numFreeBlocks + num }
    match prevs.getLast?.filter fun prev => blocknr = prev.high + 1,nexts.head?.filter fun next => blockHigh + 1 = next.low with
    | some prev,some next =>
      { l with nodes := prevs.dropLast ++ ⟨prev.low,next.high⟩::nexts.tail, firstNode := erased prevs.length l.firstNode }
    | some prev,none => { l with nodes := prevs.dropLast ++ ⟨prev.low,prev.high + num⟩::nexts }
    | none,some next => { l with nodes := prevs ++ ⟨next.low - num,next.high⟩::nexts.tail }
    | none,none =>
      { l with nodes := prevs ++ ⟨blocknr,blockHigh⟩::nexts
               firstNode := if prevs = [] then some 0 else inserted prevs.length l.firstNode }

def mlfsFreeBlocksNode (sb : SuperBlock) (s : FreeLists) (below : Bool) (blocknr num : Nat) : Except Errno FreeLists :=
  if num = 0 then .error .einval
  else
    let id := blocknr / perListBlocks sb
    match s.lists[id]? with
    | some l => (freeInList below l blocknr num).map fun l => { s with lists := s.lists.set id l }
    | none => (freeInList below s.shared blocknr num).map fun l => { s with shared := l }

/- A tree request takes from the high end of the last node, the others from the low end of the first one;
a node that is not larger than the request is taken whole. -/
def mlfsAllocBlocksInFreeList (l : FreeList) (atype : AllocType) (num : Nat) : FreeList × Option (Nat × Nat) :=
  let at_ := if atype = .tree then (if l.nodes = [] then none else some (l.nodes.length - 1)) else l.firstNode
  match at_.bind fun i => (l.nodes[i]?).map fun curr => (i,curr) with
  | none => ({ l with numFreeBlocks := l.numFreeBlocks - num },none)
  | some (i,curr) =>
    if curr.size ≤ num then
      ({ l with nodes := l.nodes.eraseIdx i, numFreeBlocks := l.numFreeBlocks - curr.size
                firstNode := if l.firstNode = some i then (if i + 1 < l.nodes.length then some i else none)
                             else erased i l.firstNode },
       some (curr.low,curr.size))
    else if atype = .tree then
      ({ l with nodes := l.nodes.set i ⟨curr.low,curr.high - num⟩, numFreeBlocks := l.numFreeBlocks - num },
       some (curr.high,num))
    else
      ({ l with nodes := l.nodes.set i ⟨curr.low + num,curr.high⟩, numFreeBlocks := l.numFreeBlocks - num },
       some (curr.low,num))

def mlfsFindFreeList (s : FreeLists) (num : Nat) : Option Nat := s.lists.findIdx? fun l => num < l.numFreeBlocks

/- The list has more free blocks than requested, so `mlfs_new_blocks` does not retry. Block 0 is a failure. -/
def mlfsNewBlocks (s : FreeLists) (num : Nat) (atype : AllocType) : FreeLists × Except Errno (Nat × Nat) :=
  if num = 0 then (s,.error .einval)
  else
    match (mlfsFindFreeList s num).bind fun id => (s.lists[id]?).map fun l => (id,l) with
    | none => (s,.error .enospc)
    | some (id,l) =>
      let l := if l.firstNode = none ∧ l.nodes ≠ [] then { l with firstNode := some 0 } else l
      let r := mlfsAllocBlocksInFreeList l atype num
      let s := { s with lists := s.lists.set id r.1 }
      match r.2 with
      | none => (s,.error .enospc)
      | some (newBlocknr,retBlocks) => (s,if newBlocknr = 0 then .error .enospc else .ok (newBlocknr,retBlocks))

def Sorted (nodes : List Stretch) : Prop := nodes.Pairwise fun r q => r.high < q.low

structure Sound (l : FreeList) : Prop where
  sorted : Sorted l.nodes
  proper : ∀ r ∈ l.nodes, r.Proper
  first : l.firstNode = if l.nodes = [] then none else some 0
  count : l.numFreeBlocks = sizes l.nodes

def taken (blocknr num b : Nat) : Nat := if blocknr ≤ b ∧ b < blocknr + num then 1 else 0

section Alloc
variable {l : FreeList} {pre post : List Stretch} {curr : Stretch} {num : Nat}

theorem sortedPart {r : Stretch} (sorted : Sorted (pre ++ curr::post)) (low : curr.low ≤ r.low) (high : r.high ≤ curr.high) :
    Sorted (pre ++ r::post) := by
  simp only [Sorted,pairwise_append,pairwise_cons,mem_cons,forall_eq_or_imp] at sorted ⊢
  obtain ⟨before,⟨behind,after⟩,across⟩ := sorted
  refine ⟨before,⟨fun q mem => ?_,after⟩,fun q mem => ⟨?_,(across q mem).2⟩⟩
  · exact Nat.lt_of_le_of_lt high (behind q mem)
  · exact Nat.lt_of_lt_of_le (across q mem).1 low

theorem properPart {r : Stretch} (proper : ∀ q ∈ pre ++ curr::post, q.Proper) (part : r.Proper) :
    ∀ q ∈ pre ++ r::post, q.Proper := by
  intro q mem
  rcases mem_append.mp mem with before | rest
  · exact proper q (mem_append_left _ before)
  · rcases mem_cons.mp rest with rfl | after
    · exact part
    · exact proper q (mem_append_right _ (.tail _ after))

theorem wholeSound (h : Sound l) (nodes : l.nodes = pre ++ curr::post) :
    Sound { l with nodes := pre ++ post, numFreeBlocks := l.numFreeBlocks - curr.size
                   firstNode := if l.firstNode = some pre.length then (if pre.length + 1 < l.nodes.length then some pre.length else none)
                                else erased pre.length l.firstNode } := by
  obtain ⟨sorted,proper,first,count⟩ := h
  rw [nodes] at sorted proper first count
  have there : pre ++ curr::post ≠ [] := by simp
  rw [if_neg there] at first
  refine ⟨sorted.sublist (List.Sublist.append_left (List.sublist_cons_self _ _) _),?_,?_,?_⟩
  · exact fun q mem => proper q (List.Sublist.mem mem (List.Sublist.append_left (List.sublist_cons_self _ _) _))
  · rw [first,nodes]
    cases pre with
    | nil => cases post <;> simp
    | cons r pre => simp [erased]
  · simp only [sizesAppend,sizesCons] at count ⊢
    omega

theorem partSound {r : Stretch} (h : Sound l) (nodes : l.nodes = pre ++ curr::post) (low : curr.low ≤ r.low)
    (high : r.high ≤ curr.high) (part : r.Proper) (size : r.size + num = curr.size) :
    Sound { l with nodes := pre ++ r::post, numFreeBlocks := l.numFreeBlocks - num } := by
  obtain ⟨sorted,proper,first,count⟩ := h
  rw [nodes] at sorted proper first count
  refine ⟨sortedPart sorted low high,properPart proper part,?_,?_⟩
  · simpa using first
  · simp only [sizesAppend,sizesCons] at count ⊢
    omega

theorem allocPlace (h : Sound l) (holds : l.nodes ≠ []) (atype : AllocType) : ∃ pre curr post, l.nodes = pre ++ curr::post ∧
    (if atype = .tree then (if l.nodes = [] then none else some (l.nodes.length - 1)) else l.firstNode) = some pre.length := by
  by_cases tree : atype = .tree
  · refine ⟨l.nodes.dropLast,l.nodes.getLast holds,[],(List.dropLast_concat_getLast holds).symm,?_⟩
    rw [if_pos tree,if_neg holds,List.length_dropLast]
  · obtain ⟨curr,post,nodes⟩ := List.exists_cons_of_ne_nil holds
    refine ⟨[],curr,post,nodes,?_⟩
    rw [if_neg tree,h.first,if_neg holds]
    rfl

theorem allocAt {atype : AllocType} (nodes : l.nodes = pre ++ curr::post)
    (place : (if atype = .tree then (if l.nodes = [] then none else some (l.nodes.length - 1)) else l.firstNode) = some pre.length) :
    mlfsAllocBlocksInFreeList l atype num =
    if curr.size ≤ num then
      ({ l with nodes := pre ++ post, numFreeBlocks := l.numFreeBlocks - curr.size
                firstNode := if l.firstNode = some pre.length then (if pre.length + 1 < l.nodes.length then some pre.length else none)
                             else erased pre.length l.firstNode },some (curr.low,curr.size))
    else if atype = .tree then
      ({ l with nodes := pre ++ ⟨curr.low,curr.high - num⟩::post, numFreeBlocks := l.numFreeBlocks - num },some (curr.high,num))
    else
      ({ l with nodes := pre ++ ⟨curr.low + num,curr.high⟩::post, numFreeBlocks := l.numFreeBlocks - num },some (curr.low,num)) := by
  have here : l.nodes[pre.length]? = some curr := by simp [nodes]
  have gone : l.nodes.eraseIdx pre.length = pre ++ post := by
    rw [nodes,List.eraseIdx_append_of_length_le (Nat.le_refl _)]; simp
  have changed (r : Stretch) : l.nodes.set pre.length r = pre ++ r::post := by
    rw [nodes,List.set_append_right _ _ (Nat.le_refl _)]; simp
  simp only [mlfsAllocBlocksInFreeList,place,Option.bind_some,here,Option.map_some,gone,changed]

theorem allocInList {atype : AllocType} (h : Sound l) (holds : l.nodes ≠ []) (positive : 0 < num)
    (single : atype = .tree → num = 1) : ∃ blocknr n, (mlfsAllocBlocksInFreeList l atype num).2 = some (blocknr,n) ∧
    0 < n ∧ n ≤ num ∧ Sound (mlfsAllocBlocksInFreeList l atype num).1 ∧
    ∀ b, cover l.nodes b = cover (mlfsAllocBlocksInFreeList l atype num).1.nodes b + taken blocknr n b := by
  obtain ⟨pre,curr,post,nodes,place⟩ := allocPlace h holds atype
  have proper : curr.low ≤ curr.high := h.proper curr (by simp [nodes])
  have split (b : Nat) : cover l.nodes b = cover pre b + cover post b + if curr.low ≤ b ∧ b ≤ curr.high then 1 else 0 := by
    rw [nodes,coverAppend,coverCons,Nat.add_assoc]
  rw [allocAt nodes place]
  by_cases whole : curr.size ≤ num
  · rw [if_pos whole]
    have size : curr.low + curr.size = curr.high + 1 := by simp only [Stretch.size]; omega
    refine ⟨_,_,rfl,by omega,whole,wholeSound h nodes,fun b => ?_⟩
    rw [split,coverAppend]
    simp only [taken]
    split_ifs <;> omega
  · rw [if_neg whole]
    simp only [Stretch.size] at whole
    by_cases tree : atype = .tree
    · rw [if_pos tree]
      have one := single tree
      refine ⟨_,_,rfl,positive,Nat.le_refl _,partSound h nodes (Nat.le_refl _) (Nat.sub_le _ _) ?_ ?_,fun b => ?_⟩
      · simp only [Stretch.Proper]; omega
      · simp only [Stretch.size]; omega
      · rw [split,coverAppend,coverCons]
        simp only [taken]
        split_ifs <;> omega
    · rw [if_neg tree]
      refine ⟨_,_,rfl,positive,Nat.le_refl _,partSound h nodes (Nat.le_add_right _ _) (Nat.le_refl _) ?_ ?_,fun b => ?_⟩
      · simp only [Stretch.Proper]; omega
      · simp only [Stretch.size]; omega
      · rw [split,coverAppend,coverCons]
        simp only [taken]
        split_ifs <;> omega

end Alloc

section Free
variable {l : FreeList} {prevs nexts : List Stretch} {blocknr num : Nat}

variable {r : Stretch} {pre rest : List Stretch}

theorem sortedHigh {q : Stretch} (sorted : Sorted (r::rest)) (proper : ∀ q ∈ r::rest, q.Proper)
    (mem : q ∈ r::rest) : r.high ≤ q.high := by
  rcases mem_cons.mp mem with rfl | behind
  · exact Nat.le_refl _
  · have order := (pairwise_cons.mp sorted).1 q behind
    have low := proper q mem
    simp only [Stretch.Proper] at low
    omega

theorem freeSlot (below : Bool) {nodes : List Stretch} (sorted : Sorted nodes) (proper : ∀ r ∈ nodes, r.Proper) (positive : 0 < num)
    (apart : ∀ b, blocknr ≤ b → b < blocknr + num → cover nodes b = 0) : ∃ prevs nexts, nodes = prevs ++ nexts ∧
    mlfsFindFreeSlot below nodes blocknr (blocknr + num - 1) = .ok (prevs,nexts) ∧
    (∀ r ∈ prevs, r.high < blocknr) ∧ ∀ r ∈ nexts, blocknr + num ≤ r.low := by
  have whole := List.takeWhile_append_dropWhile (p := fun r : Stretch => decide (r.high < blocknr)) (l := nodes)
  have prevs : ∀ r ∈ nodes.takeWhile (fun r => decide (r.high < blocknr)), r.high < blocknr := by
    intro r mem
    simpa using List.mem_takeWhile_imp mem
  have nexts : ∀ r ∈ nodes.dropWhile (fun r => decide (r.high < blocknr)), blocknr + num ≤ r.low := by
    intro r mem
    have there : r ∈ nodes := whole ▸ mem_append_right _ mem
    have up : blocknr ≤ r.high := by
      cases rest : nodes.dropWhile (fun r => decide (r.high < blocknr)) with
      | nil => rw [rest] at mem; cases mem
      | cons q qs =>
        have first := List.head_dropWhile_not (fun r : Stretch => decide (r.high < blocknr)) (show nodes.dropWhile _ ≠ [] by simp [rest])
        simp only [rest,List.head_cons,decide_eq_false_iff_not,Nat.not_lt] at first
        rw [rest] at mem
        have tail : Sorted (q::qs) := rest ▸ sorted.sublist (List.dropWhile_sublist _)
        have order := sortedHigh tail (fun r mem => proper r (List.dropWhile_sublist _ |>.mem (rest ▸ mem))) mem
        omega
    by_contra meets
    have low := proper r there
    simp only [Stretch.Proper] at low
    have none := coverZero.mp (apart (max r.low blocknr) (by omega) (by omega)) r there
    exact none ⟨by omega,by omega⟩
  refine ⟨_,_,whole.symm,?_,prevs,nexts⟩
  simp only [mlfsFindFreeSlot]
  cases rest : nodes.dropWhile (fun r => decide (r.high < blocknr)) with
  | nil => rfl
  | cons q qs =>
    have far := nexts q (by simp [rest])
    simp only [if_neg (show ¬q.low ≤ blocknr by omega),if_pos (show blocknr + num - 1 < q.low by omega),ite_self]

/- The list with the range freed: sound, and its blocks are those of before and the range. -/
structure Freed (l : FreeList) (blocknr num : Nat) (freed : FreeList) : Prop where
  sound : Sound freed
  covers : ∀ b, cover freed.nodes b = cover l.nodes b + taken blocknr num b

theorem spliceFreed {mid post : List Stretch} {first : Option Nat} (h : Sound l) (nodes : l.nodes = pre ++ (mid ++ post))
    (above : ∀ q ∈ pre, q.high < r.low) (below : ∀ q ∈ post, r.high < q.low) (proper : r.Proper) (size : r.size = sizes mid + num)
    (zero : first = some 0) (covers : ∀ b, (if r.low ≤ b ∧ b ≤ r.high then 1 else 0) = cover mid b + taken blocknr num b) :
    Freed l blocknr num { l with nodes := pre ++ r::post, firstNode := first, numFreeBlocks := l.numFreeBlocks + num } := by
  obtain ⟨sorted,properAll,_,count⟩ := h
  rw [nodes] at sorted properAll count
  simp only [Sorted,pairwise_append] at sorted
  obtain ⟨before,⟨_,after,_⟩,across⟩ := sorted
  refine ⟨⟨?_,?_,by simpa using zero,?_⟩,fun b => ?_⟩
  · refine pairwise_append.mpr ⟨before,pairwise_cons.mpr ⟨below,after⟩,fun p mem q there => ?_⟩
    rcases mem_cons.mp there with rfl | behind
    · exact above p mem
    · exact across p mem q (mem_append_right _ behind)
  · intro q mem
    rcases mem_append.mp mem with here | there
    · exact properAll q (mem_append_left _ here)
    · rcases mem_cons.mp there with rfl | behind
      · exact proper
      · exact properAll q (mem_append_right _ (mem_append_right _ behind))
  · simp only [sizesAppend,sizesCons] at count ⊢
    omega
  · have here := covers b
    rw [nodes]
    simp only [coverAppend,coverCons]
    omega

theorem touchesLeft {prev : Stretch} (left : prevs.getLast?.filter (fun prev => decide (blocknr = prev.high + 1)) = some prev) :
    prevs = prevs.dropLast ++ [prev] ∧ blocknr = prev.high + 1 := by
  obtain ⟨last,touches⟩ := Option.filter_eq_some_iff.mp left
  exact ⟨(List.dropLast_append_getLast? prev last).symm,of_decide_eq_true touches⟩

theorem touchesRight {next : Stretch} {high : Nat} (right : nexts.head?.filter (fun next => decide (high = next.low)) = some next) :
    nexts = next::nexts.tail ∧ high = next.low := by
  obtain ⟨first,touches⟩ := Option.filter_eq_some_iff.mp right
  exact ⟨List.eq_cons_of_mem_head? first,of_decide_eq_true touches⟩

theorem sortedAbove (sorted : Sorted (pre ++ r::rest)) : ∀ q ∈ pre, q.high < r.low :=
  fun q mem => (pairwise_append.mp sorted).2.2 q mem r (.head _)

theorem sortedBelow (sorted : Sorted (pre ++ r::rest)) : ∀ q ∈ rest, r.high < q.low :=
  (pairwise_cons.mp (pairwise_append.mp sorted).2.1).1

section splices
variable {before after : List Stretch} {prev next : Stretch}

theorem firstZero (h : Sound l) (nodes : l.nodes = before ++ r::after) : l.firstNode = some 0 := by
  rw [h.first,if_neg (by simp [nodes])]

-- The range fits the hole between two nodes.
theorem fillsFreed {k : Nat} (h : Sound l) (nodes : l.nodes = before ++ ([prev,next] ++ after)) (low : blocknr = prev.high + 1)
    (high : blocknr + num = next.low) :
    Freed l blocknr num { l with
      nodes := before ++ ⟨prev.low,next.high⟩::after, firstNode := erased k l.firstNode, numFreeBlocks := l.numFreeBlocks + num } := by
  have sorted := h.sorted
  rw [nodes] at sorted
  have above := sortedBelow (r := next) (show Sorted ((before ++ [prev]) ++ next::after) by simpa using sorted)
  have lowPrev := h.proper prev (by simp [nodes])
  have lowNext := h.proper next (by simp [nodes])
  simp only [Stretch.Proper] at lowPrev lowNext
  refine spliceFreed h nodes (sortedAbove (r := prev) sorted) above (show prev.low ≤ next.high by omega) ?_ ?_ fun b => ?_
  · simp only [sizesCons,sizesNil,Stretch.size]; omega
  · rw [firstZero h nodes]; simp [erased]
  · simp only [coverCons,coverNil,taken]
    split_ifs <;> omega

theorem leftFreed (h : Sound l) (nodes : l.nodes = before ++ ([prev] ++ after)) (low : blocknr = prev.high + 1)
    (behind : ∀ q ∈ after, blocknr + num ≤ q.low) :
    Freed l blocknr num { l with nodes := before ++ ⟨prev.low,prev.high + num⟩::after, numFreeBlocks := l.numFreeBlocks + num } := by
  have proper := h.proper prev (by simp [nodes])
  simp only [Stretch.Proper] at proper
  refine spliceFreed h nodes (sortedAbove (r := prev) (nodes ▸ h.sorted)) (fun q mem => ?_)
    (show prev.low ≤ prev.high + num by omega) ?_ (firstZero h nodes) fun b => ?_
  · have far := behind q mem
    show prev.high + num < q.low
    omega
  · simp only [sizesCons,sizesNil,Stretch.size]; omega
  · simp only [coverCons,coverNil,taken]
    split_ifs <;> omega

theorem rightFreed (h : Sound l) (nodes : l.nodes = before ++ ([next] ++ after)) (high : blocknr + num = next.low)
    (above : ∀ q ∈ before, q.high < blocknr) :
    Freed l blocknr num { l with nodes := before ++ ⟨next.low - num,next.high⟩::after, numFreeBlocks := l.numFreeBlocks + num } := by
  have proper := h.proper next (by simp [nodes])
  simp only [Stretch.Proper] at proper
  refine spliceFreed h nodes (fun q mem => ?_) (sortedBelow (r := next) (nodes ▸ h.sorted))
    (show next.low - num ≤ next.high by omega) ?_ (firstZero h nodes) fun b => ?_
  · have far := above q mem
    show q.high < next.low - num
    omega
  · simp only [sizesCons,sizesNil,Stretch.size]; omega
  · simp only [coverCons,coverNil,taken]
    split_ifs <;> omega

theorem ownFreed (h : Sound l) (nodes : l.nodes = before ++ after) (positive : 0 < num) (above : ∀ q ∈ before, q.high < blocknr)
    (behind : ∀ q ∈ after, blocknr + num ≤ q.low) :
    Freed l blocknr num { l with
      nodes := before ++ ⟨blocknr,blocknr + num - 1⟩::after
      firstNode := if before = [] then some 0 else inserted before.length l.firstNode
      numFreeBlocks := l.numFreeBlocks + num } := by
  refine spliceFreed h (show l.nodes = before ++ ([] ++ after) from nodes) above (fun q mem => ?_)
    (show blocknr ≤ blocknr + num - 1 by omega) ?_ ?_ fun b => ?_
  · have far := behind q mem
    show blocknr + num - 1 < q.low
    omega
  · simp only [sizesNil,Stretch.size]; omega
  · split_ifs with none
    · rfl
    · rw [h.first,if_neg (by simp [nodes,none])]
      simp [inserted,none]
  · simp only [coverNil,taken]
    split_ifs <;> omega

end splices

theorem freeInListSound (below : Bool) (h : Sound l) (positive : 0 < num)
    (apart : ∀ b, blocknr ≤ b → b < blocknr + num → cover l.nodes b = 0) :
    ∃ freed, freeInList below l blocknr num = .ok freed ∧ Freed l blocknr num freed := by
  obtain ⟨prevs,nexts,split,slot,above,behind⟩ := freeSlot below h.sorted h.proper positive apart
  simp only [freeInList,slot,Except.map]
  refine ⟨_,rfl,?_⟩
  split
  · rename_i prev next left right
    obtain ⟨lastPrev,touchPrev⟩ := touchesLeft left
    obtain ⟨firstNext,touchNext⟩ := touchesRight right
    have nodes : l.nodes = prevs.dropLast ++ ([prev,next] ++ nexts.tail) := by
      rw [split,lastPrev,firstNext,List.append_assoc]
      simp
    exact fillsFreed h nodes touchPrev (by omega)
  · rename_i prev left right
    obtain ⟨lastPrev,touchPrev⟩ := touchesLeft left
    exact leftFreed h (by rw [split,← List.append_assoc,← lastPrev]) touchPrev behind
  · rename_i next left right
    obtain ⟨firstNext,touchNext⟩ := touchesRight right
    exact rightFreed h (by rw [split,List.singleton_append,← firstNext]) (by omega) above
  · exact ownFreed h split positive above behind

end Free

def allLists (s : FreeLists) : List FreeList := s.lists ++ [s.shared]
def freeNodes (s : FreeLists) : List Stretch := (allLists s).flatMap FreeList.nodes

theorem coverFree (s : FreeLists) (b : Nat) : cover (freeNodes s) b = cover (s.lists.flatMap FreeList.nodes) b + cover s.shared.nodes b := by
  simp [freeNodes,allLists]

theorem coverList {s : FreeLists} {l : FreeList} (mem : l ∈ allLists s) (b : Nat) : cover l.nodes b ≤ cover (freeNodes s) b := by
  rw [freeNodes,List.flatMap_def]
  exact (List.sublist_flatten_of_mem (List.mem_map_of_mem mem)).countP_le

theorem setSound {s : FreeLists} {id : Nat} {l : FreeList} (sound : ∀ l ∈ allLists s, Sound l) (new : Sound l) :
    ∀ q ∈ allLists { s with lists := s.lists.set id l }, Sound q := by
  intro q mem
  rcases mem_append.mp mem with here | last
  · rcases List.mem_or_eq_of_mem_set here with old | rfl
    · exact sound q (mem_append_left _ old)
    · exact new
  · exact sound q (mem_append_right _ last)

section Requests
variable {s : FreeLists} {num blocknr : Nat}

theorem newBlocksSound {atype : AllocType} (sound : ∀ l ∈ allLists s, Sound l) (single : atype = .tree → num = 1)
    (zero : cover (freeNodes s) 0 = 0) :
    (∃ e, mlfsNewBlocks s num atype = (s,.error e)) ∨
    ∃ t blocknr n, mlfsNewBlocks s num atype = (t,.ok (blocknr,n)) ∧ 0 < n ∧ n ≤ num ∧ t.lists.length = s.lists.length ∧
      (∀ l ∈ allLists t, Sound l) ∧ ∀ b, cover (freeNodes s) b = cover (freeNodes t) b + taken blocknr n b := by
  by_cases none : num = 0
  · exact .inl ⟨_,by rw [mlfsNewBlocks,if_pos none]⟩
  rw [mlfsNewBlocks,if_neg none]
  cases found : mlfsFindFreeList s num with
  | none => exact .inl ⟨_,rfl⟩
  | some id =>
    obtain ⟨inside,more,_⟩ := List.findIdx?_eq_some_iff_getElem.mp found
    have listed : s.lists[id]? = some s.lists[id] := List.getElem?_eq_getElem inside
    have mem : s.lists[id] ∈ allLists s := mem_append_left _ (List.getElem_mem inside)
    generalize s.lists[id] = l at listed mem more
    have h := sound l mem
    have holds : l.nodes ≠ [] := by
      intro empty
      have count := h.count
      rw [empty,sizesNil] at count
      simp only [count,decide_eq_true_eq] at more
      omega
    have set : ¬(l.firstNode = Option.none ∧ l.nodes ≠ []) := by
      rw [h.first,if_neg holds]; simp
    obtain ⟨blocknr,n,answer,positive,bound,kept,covers⟩ := allocInList h holds (Nat.pos_of_ne_zero none) single
    have whole (b : Nat) : cover (freeNodes s) b =
        cover (freeNodes { s with lists := s.lists.set id (mlfsAllocBlocksInFreeList l atype num).1 }) b + taken blocknr n b := by
      have changed := coverSet (f := FreeList.nodes) (y := (mlfsAllocBlocksInFreeList l atype num).1) listed b
      have here := covers b
      simp only [coverFree]
      omega
    have real : blocknr ≠ 0 := by
      rintro rfl
      have here := whole 0
      rw [zero,taken,if_pos ⟨Nat.le_refl _,by omega⟩] at here
      omega
    simp only [Option.bind_some,listed,Option.map_some,if_neg set,answer,if_neg real]
    exact .inr ⟨_,_,_,rfl,positive,bound,List.length_set ..,setSound sound kept,whole⟩

theorem freeBlocksSound (sb : SuperBlock) (below : Bool) (sound : ∀ l ∈ allLists s, Sound l) (positive : 0 < num)
    (apart : ∀ b, blocknr ≤ b → b < blocknr + num → cover (freeNodes s) b = 0) :
    ∃ t, mlfsFreeBlocksNode sb s below blocknr num = .ok t ∧ t.lists.length = s.lists.length ∧
      (∀ l ∈ allLists t, Sound l) ∧ ∀ b, cover (freeNodes t) b = cover (freeNodes s) b + taken blocknr num b := by
  simp only [mlfsFreeBlocksNode,if_neg (Nat.ne_of_gt positive)]
  cases listed : s.lists[blocknr / perListBlocks sb]? with
  | some l =>
    have mem : l ∈ allLists s := mem_append_left _ (List.mem_of_getElem? listed)
    obtain ⟨freed,done,kept,covers⟩ := freeInListSound below (sound l mem) positive
      (fun b low high => Nat.le_zero.mp (apart b low high ▸ coverList mem b))
    simp only [done,Except.map]
    refine ⟨_,rfl,List.length_set ..,setSound sound kept,fun b => ?_⟩
    have changed := coverSet (f := FreeList.nodes) (y := freed) listed b
    have here := covers b
    simp only [coverFree]
    omega
  | none =>
    have mem : s.shared ∈ allLists s := by simp [allLists]
    obtain ⟨freed,done,kept,covers⟩ := freeInListSound below (sound _ mem) positive
      (fun b low high => Nat.le_zero.mp (apart b low high ▸ coverList mem b))
    simp only [done,Except.map]
    refine ⟨_,rfl,rfl,fun q here => ?_,fun b => ?_⟩
    · rcases memSnoc here with old | rfl
      · exact sound q (mem_append_left _ old)
      · exact kept
    · have here := covers b
      simp only [coverFree]
      omega

end Requests

structure State where
  free : FreeLists
  out : List Stretch
  deriving DecidableEq, Repr

def init (sb : SuperBlock) : State := ⟨mlfsInitBlockmap sb true,[]⟩

inductive Action where
  | newBlocks (num : Nat) (atype : AllocType)
  | freeBlocks (i blocknr num : Nat) (below : Bool)
  deriving DecidableEq, Repr

def remains (r : Stretch) (blocknr num : Nat) : List Stretch :=
  (if r.low < blocknr then [⟨r.low,blocknr - 1⟩] else []) ++ if blocknr + num ≤ r.high then [⟨blocknr + num,r.high⟩] else []

def step (sb : SuperBlock) (s : State) : Action → Option State
  | .newBlocks num atype =>
    if atype = .tree → num = 1 then
      match mlfsNewBlocks s.free num atype with
      | (free,.ok (blocknr,n)) => some ⟨free,s.out ++ [⟨blocknr,blocknr + n - 1⟩]⟩
      | (free,.error _) => some { s with free }
    else none
  | .freeBlocks i blocknr num below =>
    s.out[i]?.bind fun r =>
      if 0 < num ∧ r.low ≤ blocknr ∧ blocknr + num ≤ r.high + 1 then
        match mlfsFreeBlocksNode sb s.free below blocknr num with
        | .ok free => some ⟨free,s.out.eraseIdx i ++ remains r blocknr num⟩
        | .error _ => some s
      else none

def blockEnd (sb : SuperBlock) : Nat := sb.numBlocks - sb.numBlocks % sb.nPartition

structure Conserved (sb : SuperBlock) (s : State) : Prop where
  outApart : s.out.Pairwise Separate
  freeApart : (freeNodes s.free).Pairwise Separate
  across : ∀ r ∈ freeNodes s.free, ∀ q ∈ s.out, Separate r q
  inside : ∀ r ∈ freeNodes s.free ++ s.out, sb.reservedBlocks ≤ r.low ∧ r.Proper ∧ r.high < blockEnd sb
  whole : ∀ b, sb.reservedBlocks ≤ b → b < blockEnd sb → (∃ r ∈ freeNodes s.free, r.Has b) ∨ ∃ r ∈ s.out, r.Has b
  counted : ∀ l ∈ allLists s.free, l.numFreeBlocks = (List.range (blockEnd sb)).countP fun b => decide (∃ r ∈ l.nodes, r.Has b)
  frees : ∀ r ∈ s.out, ∀ blocknr num below, 0 < num → r.low ≤ blocknr → blocknr + num ≤ r.high + 1 →
    ∃ t, mlfsFreeBlocksNode sb s.free below blocknr num = .ok t

structure Conserving (sb : SuperBlock) (s : State) : Prop where
  sound : ∀ l ∈ allLists s.free, Sound l
  proper : ∀ r ∈ s.out, r.Proper
  once : ∀ b, cover (freeNodes s.free) b + cover s.out b = if sb.reservedBlocks ≤ b ∧ b < blockEnd sb then 1 else 0

theorem blockEndParts (sb : SuperBlock) : blockEnd sb = perListBlocks sb * sb.nPartition := by
  have := Nat.div_add_mod sb.numBlocks sb.nPartition
  rw [Nat.mul_comm] at this
  simp only [blockEnd,perListBlocks]
  omega

theorem initCover (sb : SuperBlock) (room : sb.reservedBlocks < perListBlocks sb) (n b : Nat) :
    cover ((List.range n).flatMap fun i => (initList sb true i).nodes) b =
      if sb.reservedBlocks ≤ b ∧ b < perListBlocks sb * n then 1 else 0 := by
  induction n with
  | zero => simp
  | succ n ih =>
    rw [List.range_succ,List.flatMap_append,coverAppend,ih,Nat.mul_succ]
    simp only [List.flatMap_singleton,initList,if_true,coverCons,coverNil]
    have first : n ≠ 0 → perListBlocks sb ≤ perListBlocks sb * n := fun some => Nat.le_mul_of_pos_right _ (Nat.pos_of_ne_zero some)
    by_cases zero : n = 0
    · subst zero
      simp only [Nat.mul_zero,if_true]
      split_ifs <;> omega
    · have := first zero
      simp only [if_neg zero]
      split_ifs <;> omega

variable {sb : SuperBlock}

theorem initConserving (room : sb.reservedBlocks < perListBlocks sb) : Conserving sb (init sb) := by
  refine ⟨?_,by simp [init],fun b => ?_⟩
  · intro l mem
    rcases memSnoc mem with listed | rfl
    · obtain ⟨i,_,rfl⟩ := List.mem_map.mp listed
      simp only [initList,if_true]
      refine ⟨List.pairwise_singleton _ _,?_,by simp,?_⟩
      · simp only [mem_singleton,forall_eq,Stretch.Proper]
        split <;> omega
      · simp only [sizesCons,sizesNil,Stretch.size]
        split <;> omega
    · simp only [init,mlfsInitBlockmap]
      split <;> exact ⟨List.Pairwise.nil,by simp,by simp,by simp⟩
  · have lists : cover (((List.range sb.nPartition).map (initList sb true)).flatMap FreeList.nodes) b = _ :=
      (congrArg (cover · b) (List.flatMap_map ..)).trans (initCover sb room sb.nPartition b)
    have shared : cover (mlfsInitBlockmap sb true).shared.nodes b = 0 := by
      simp only [mlfsInitBlockmap]; split <;> rfl
    rw [init,coverFree,shared,blockEndParts]
    exact lists

theorem remainsCover {r : Stretch} {blocknr num : Nat} (positive : 0 < num) (low : r.low ≤ blocknr)
    (high : blocknr + num ≤ r.high + 1) (b : Nat) :
    (if r.low ≤ b ∧ b ≤ r.high then 1 else 0) = cover (remains r blocknr num) b + taken blocknr num b := by
  have one (p : Prop) [Decidable p] (q : Stretch) : cover (if p then [q] else []) b = if p ∧ q.low ≤ b ∧ b ≤ q.high then 1 else 0 := by
    by_cases holds : p <;> simp [holds]
  simp only [remains,coverAppend,one,taken]
  split_ifs <;> omega

theorem outApart {s : State} {r : Stretch} {blocknr num : Nat} (h : Conserving sb s) (mem : r ∈ s.out)
    (low : r.low ≤ blocknr) (high : blocknr + num ≤ r.high + 1) :
    ∀ b, blocknr ≤ b → b < blocknr + num → cover (freeNodes s.free) b = 0 := by
  intro b from_ upto
  have held : 0 < cover s.out b := coverPos.mpr ⟨r,mem,by omega,by omega⟩
  have once := h.once b
  split at once <;> omega

theorem stepConserving (reserved : 0 < sb.reservedBlocks) {s a t} (h : Conserving sb s)
    (stepped : step sb s a = some t) : Conserving sb t := by
  have zero : cover (freeNodes s.free) 0 = 0 := by
    have here := h.once 0
    rw [if_neg (by omega)] at here
    omega
  cases a with
  | newBlocks num atype =>
    simp only [step,Option.ite_none_right_eq_some] at stepped
    obtain ⟨single,answered⟩ := stepped
    rcases newBlocksSound h.sound single zero with ⟨e,failed⟩ | ⟨free,blocknr,n,done,positive,_,_,sound,covers⟩
    · rw [failed] at answered
      cases answered
      exact ⟨h.sound,h.proper,h.once⟩
    · rw [done] at answered
      cases answered
      refine ⟨sound,?_,fun b => ?_⟩
      · refine List.forall_mem_append.mpr ⟨h.proper,List.forall_mem_singleton.mpr ?_⟩
        simp only [Stretch.Proper]
        omega
      · have before := h.once b
        have change := covers b
        rw [coverAppend,coverCons,coverNil,← before,change]
        simp only [taken]
        split_ifs <;> omega
  | freeBlocks i blocknr num below =>
    simp only [step,Option.bind_eq_some_iff,Option.ite_none_right_eq_some] at stepped
    obtain ⟨r,held,⟨positive,low,high⟩,freed⟩ := stepped
    have apart := outApart h (List.mem_of_getElem? held) low high
    obtain ⟨free,done,_,sound,covers⟩ := freeBlocksSound sb below h.sound positive apart
    rw [done] at freed
    cases freed
    refine ⟨sound,?_,fun b => ?_⟩
    · refine List.forall_mem_append.mpr ⟨fun q mem => h.proper q (List.mem_of_mem_eraseIdx mem),fun q mem => ?_⟩
      simp only [remains] at mem
      rcases mem_append.mp mem with front | back
      · split at front <;> simp only [mem_singleton,List.not_mem_nil] at front
        subst front
        simp only [Stretch.Proper]
        omega
      · split at back <;> simp only [mem_singleton,List.not_mem_nil] at back
        subst back
        assumption
    · have before := h.once b
      have change := covers b
      have whole := coverErase held b
      have pieces := remainsCover positive low high b
      simp only [coverAppend,← before]
      omega

theorem conserved {sb : SuperBlock} {s : State} (reserved : 0 < sb.reservedBlocks) (room : sb.reservedBlocks < perListBlocks sb)
    (reached : Reach (step sb) Any (init sb) s) : Conserved sb s := by
  have h : Conserving sb s := reachInvariant (Conserving sb) (initConserving room)
    (fun _ _ _ before _ stepped => stepConserving reserved before stepped) reached
  have most (b : Nat) : cover (freeNodes s.free) b + cover s.out b ≤ 1 := by
    rw [h.once b]; split <;> omega
  have inArea {b : Nat} (some : 0 < cover (freeNodes s.free) b + cover s.out b) : sb.reservedBlocks ≤ b ∧ b < blockEnd sb := by
    by_contra outside
    rw [h.once b,if_neg outside] at some
    omega
  have nodes {l r} (listed : l ∈ allLists s.free) (mem : r ∈ l.nodes) : r ∈ freeNodes s.free := List.mem_flatMap.mpr ⟨l,listed,mem⟩
  have inside : ∀ r ∈ freeNodes s.free ++ s.out, sb.reservedBlocks ≤ r.low ∧ r.Proper ∧ r.high < blockEnd sb := by
    intro r mem
    have proper : r.low ≤ r.high := by
      rcases List.mem_append.mp mem with free | out
      · obtain ⟨l,listed,here⟩ := List.mem_flatMap.mp free
        exact (h.sound l listed).proper r here
      · exact h.proper r out
    have covered {b} (has : r.Has b) : 0 < cover (freeNodes s.free) b + cover s.out b := by
      rw [← coverAppend]; exact coverPos.mpr ⟨r,mem,has⟩
    exact ⟨(inArea (covered ⟨Nat.le_refl _,proper⟩)).1,proper,(inArea (covered ⟨proper,Nat.le_refl _⟩)).2⟩
  refine ⟨coverPairwise fun b => ?_,coverPairwise fun b => ?_,?_,inside,?_,?_,?_⟩
  · exact Nat.le_trans (Nat.le_add_left _ _) (most b)
  · exact Nat.le_trans (Nat.le_add_right _ _) (most b)
  · intro r free q out b both
    have here := most b
    have left := coverPos.mpr ⟨r,free,both.1⟩
    have right := coverPos.mpr ⟨q,out,both.2⟩
    omega
  · intro b low high
    have here := h.once b
    rw [if_pos ⟨low,high⟩] at here
    rcases Nat.eq_zero_or_pos (cover (freeNodes s.free) b) with none | some
    · exact .inr (coverPos.mp (by omega))
    · exact .inl (coverPos.mp some)
  · intro l listed
    rw [(h.sound l listed).count]
    refine sizesCount (h.sound l listed).proper (fun r mem => (inside r (List.mem_append_left _ (nodes listed mem))).2.2) (fun b => ?_)
    exact Nat.le_trans (coverList listed b) (Nat.le_trans (Nat.le_add_right _ _) (most b))
  · intro r mem blocknr num below positive low high
    obtain ⟨t,done,_⟩ := freeBlocksSound sb below h.sound positive (outApart h mem low high)
    exact ⟨t,done⟩

def mixed : List Action :=
  [.newBlocks 100 .data,.newBlocks 1 .tree,.freeBlocks 0 30 40 true,.newBlocks 50 .data,.freeBlocks 0 999 1 false]

theorem conservedMixed : ∃ s, s.out = [⟨10,29⟩,⟨70,109⟩,⟨30,69⟩] ∧ Conserved ⟨1000,1,10⟩ s := by
  obtain ⟨s,reached,out⟩ : ∃ s, Reach (step ⟨1000,1,10⟩) Any (init ⟨1000,1,10⟩) s ∧ s.out = [⟨10,29⟩,⟨70,109⟩,⟨30,69⟩] :=
    traceAny mixed (by decide +kernel)
  exact ⟨s,out,conserved (by decide) (by decide) reached⟩

section Contract
open Kernfs

/- The free lists as a space of the digest. Where `mlfs_new_blocks` fails the digest ends; so that every request has
an answer, the space goes on with the blocks from `next` on. -/
structure Space where
  free : FreeLists
  next : Nat

def Space.used (s : Space) (b : Nat) : Prop := cover (freeNodes s.free) b = 0 ∧ b < s.next
deriving Decidable

structure Space.Fit (s : Space) : Prop where
  sound : ∀ l ∈ allLists s.free, Sound l
  once : ∀ b, cover (freeNodes s.free) b ≤ 1
  inside : ∀ b, 0 < cover (freeNodes s.free) b → 0 < b ∧ b < s.next

def requestType (tree : Bool) (num : Nat) : AllocType := if tree ∧ num = 1 then .tree else .data

def Space.alloc (tree : Bool) (s : Space) (num : Nat) : Grant Space :=
  match mlfsNewBlocks s.free num (requestType tree num) with
  | (free,.ok (blocknr,n)) => ⟨{ s with free },blocknr,n⟩
  | (_,.error _) => ⟨{ s with next := s.next + num },s.next,num⟩

def Space.release (sb : SuperBlock) (s : Space) (b : Nat) : Space :=
  if 0 < b ∧ s.used b then
    match mlfsFreeBlocksNode sb s.free true b 1 with
    | .ok free => { s with free }
    | .error _ => s
  else s

theorem initFit (reserved : 0 < sb.reservedBlocks) (room : sb.reservedBlocks < perListBlocks sb) :
    Space.Fit ⟨mlfsInitBlockmap sb true,blockEnd sb⟩ := by
  obtain ⟨sound,_,once⟩ := initConserving room
  simp only [Balloc.init,coverNil] at once
  refine ⟨sound,fun b => ?_,fun b (some : 0 < cover (freeNodes (mlfsInitBlockmap sb true)) b) => ?_⟩ <;>
    have here := once b <;> split at here <;> simp only <;> omega

variable {s : Space}

theorem allocFit (fit : s.Fit) (tree : Bool) (num : Nat) : (s.alloc tree num).space.Fit ∧
    (0 < num → 0 < (s.alloc tree num).count ∧ (s.alloc tree num).count ≤ num) ∧
    ∀ b, ((s.alloc tree num).space.used b ↔ s.used b ∨ (s.alloc tree num).first ≤ b ∧ b < (s.alloc tree num).first + (s.alloc tree num).count) ∧
      ((s.alloc tree num).first ≤ b → b < (s.alloc tree num).first + (s.alloc tree num).count → ¬s.used b) := by
  have zero : cover (freeNodes s.free) 0 = 0 := by
    have := fit.inside 0
    omega
  have single : requestType tree num = .tree → num = 1 := by
    unfold requestType
    split
    · exact fun _ => (by assumption : _ ∧ _).2
    · nofun
  rcases newBlocksSound fit.sound single zero with ⟨e,failed⟩ | ⟨t,blocknr,n,done,positive,most,_,sound,covers⟩
  · simp only [Space.alloc,failed,Space.used]
    refine ⟨⟨fit.sound,fit.once,fun b some => ?_⟩,fun some => ⟨some,Nat.le_refl _⟩,fun b => ?_⟩
    · have := fit.inside b some
      simp only
      omega
    · have := fit.inside b
      omega
  · simp only [Space.alloc,done,Space.used]
    have once := fit.once
    have inside := fit.inside
    simp only [covers,taken] at once inside ⊢
    refine ⟨⟨sound,fun b => ?_,fun b some => inside b (Nat.lt_add_right _ some)⟩,fun _ => ⟨positive,most⟩,fun b => ?_⟩
    · exact Nat.le_trans (Nat.le_add_right _ _) (once b)
    · have once := once b
      have inside := inside b
      by_cases hit : blocknr ≤ b ∧ b < blocknr + n
      · rw [if_pos hit] at once inside ⊢
        omega
      · rw [if_neg hit] at once inside ⊢
        omega

theorem releaseFit (sb : SuperBlock) (fit : s.Fit) (b : Nat) : (s.release sb b).Fit ∧
    ∀ c, (s.release sb b).used c ↔ s.used c ∧ ¬(0 < b ∧ c = b) := by
  unfold Space.release
  split
  · rename_i held
    have apart : ∀ c, b ≤ c → c < b + 1 → cover (freeNodes s.free) c = 0 := fun c low high => by
      rw [show c = b by omega]
      exact held.2.1
    obtain ⟨t,done,_,sound,covers⟩ := freeBlocksSound sb true fit.sound Nat.one_pos apart
    have before := held.2
    have same (c : Nat) : b ≤ c ∧ c < b + 1 ↔ c = b := by omega
    simp only [done,Space.used,taken,same] at covers before ⊢
    refine ⟨⟨sound,fun c => ?_,fun c some => ?_⟩,fun c => ?_⟩
    · have := fit.once c
      rw [covers]
      split <;> simp_all
    · rw [covers] at some
      split at some
      · simp_all
      · exact fit.inside c some
    · rw [covers]
      split <;> omega
  · rename_i other
    exact ⟨fit,fun c => ⟨fun held => ⟨held,fun same => other ⟨same.1,same.2 ▸ held⟩⟩,And.left⟩⟩

/- `mlfs_new_blocks` and `mlfs_free_blocks_node` as the digest uses them. The third component belongs to the extent
trees; any answer will do. -/
def allocator (sb : SuperBlock) (tree : Bool) : Allocator { s : Space // s.Fit } where
  alloc s num := ⟨⟨(s.1.alloc tree num).space,(allocFit s.2 tree num).1⟩,(s.1.alloc tree num).first,(s.1.alloc tree num).count⟩
  free s b := ⟨s.1.release sb b,(releaseFit sb s.2 b).1⟩
  extentLen _ _ n := n

theorem allocatorLawful (reserved : 0 < sb.reservedBlocks) (room : sb.reservedBlocks < perListBlocks sb) (tree : Bool) :
    Space.Fit ⟨mlfsInitBlockmap sb true,blockEnd sb⟩ ∧ Lawful (allocator sb tree) fun s b => s.1.used b where
  left := initFit reserved room
  right :=
    { counted := fun s num some => (allocFit s.2 tree num).2.1 some
      fresh := fun s num b low high => ((allocFit s.2 tree num).2.2 b).2 low high
      marked := fun s num b => ((allocFit s.2 tree num).2.2 b).1
      kept := fun s b c held other => ((releaseFit sb s.2 b).2 c).mpr ⟨held,fun same => other same.2⟩
      unmarked := fun s b c held => (((releaseFit sb s.2 b).2 c).mp held).1
      extent := fun _ _ n some => ⟨some,Nat.le_refl n⟩ }

theorem allocatorLawfulSmall : Space.Fit ⟨mlfsInitBlockmap ⟨1000,1,10⟩ true,blockEnd ⟨1000,1,10⟩⟩ ∧
    Lawful (allocator ⟨1000,1,10⟩ true) fun s b => s.1.used b :=
  allocatorLawful (by decide) (by decide) true

end Contract
end LineFS.Balloc
