import LineFS.HostQueue

/-! Delivery from the two rings of a LibFS. The worker takes a host memcpy request and, on a replica,
the copy-done item that goes with it, in the order of their numbers whatever the order in which they
arrive. -/
namespace LineFS.Delivery
open Option (map_eq_some_iff)
open Base HostQueue Function

variable {α γ : Type} {ix : Index}

inductive Dequeued (ix : Index) (r : CircBuf α) : Taken α → Prop where
  | empty (unused : ix.cnt r.head r.tail = 0) : Dequeued ix r ⟨r,none⟩
  | front (used : 1 ≤ ix.cnt r.head r.tail) (turn : (r.buf r.tail).seqn = r.nextSeqn) :
      Dequeued ix r ⟨{ r with tail := ix.advance r.tail, nextSeqn := r.nextSeqn + 1 },some (r.buf r.tail)⟩
  | skipped (used : 1 ≤ ix.cnt r.head r.tail) (past : (r.buf r.tail).seqn < r.nextSeqn) :
      Dequeued ix r ⟨{ r with tail := ix.advance r.tail },none⟩
  | absent (used : 1 ≤ ix.cnt r.head r.tail) (missing : searchNextSeqn ix r = none) : Dequeued ix r ⟨r,none⟩
  | marked (cur : Nat) (found : searchNextSeqn ix r = some cur) (before : (r.buf cur).processed = true) :
      Dequeued ix r ⟨r,none⟩
  | inside (cur : Nat) (found : searchNextSeqn ix r = some cur) (fresh : (r.buf cur).processed = false) :
      Dequeued ix r ⟨{ r with
        buf := Function.update r.buf cur { r.buf cur with processed := true }
        nextSeqn := r.nextSeqn + 1 },some { r.buf cur with processed := true }⟩

theorem dequeued (r : CircBuf α) : Dequeued ix r (dequeue ix r) := by
  unfold dequeue
  split
  · rename_i used
    split
    · exact .front used ‹_›
    · split
      · exact .skipped used ‹_›
      · split
        · exact .absent used ‹_›
        · split
          · exact .marked _ ‹_› ‹_›
          · exact .inside _ ‹_› (Bool.eq_false_of_not_eq_true ‹_›)
  · rename_i unused
    exact .empty (Nat.lt_one_iff.mp (Nat.not_le.mp unused))

section search
variable {n : Nat} (w : Wraps ix n) {buf : Nat → Item α} {next cur k m : Nat}

theorem searchTurn (h : searchFrom ix buf next m cur = some k) : (buf k).seqn = next := by
  induction m generalizing cur with
  | zero => contradiction
  | succ m ih =>
    simp only [searchFrom] at h
    split at h
    · cases h
      assumption
    · exact ih h

include w

theorem searchBound (start : cur < n) (h : searchFrom ix buf next m cur = some k) : k < n := by
  induction m generalizing cur with
  | zero => contradiction
  | succ m ih =>
    simp only [searchFrom] at h
    split at h
    · cases h
      exact start
    · refine ih ?_ h
      rw [w.advance cur start]
      exact Nat.mod_lt _ (by omega)

theorem searchMisses (start : cur < n) (h : searchFrom ix buf next m cur = none) :
    ∀ i < m, (buf ((cur + i) % n)).seqn ≠ next := by
  induction m generalizing cur with
  | zero => exact fun i lt => absurd lt (Nat.not_lt_zero i)
  | succ m ih =>
    intro i lt
    simp only [searchFrom] at h
    split at h <;> try contradiction
    rename_i other
    cases i with
    | zero =>
      rw [Nat.add_zero,Nat.mod_eq_of_lt start]
      exact other
    | succ i =>
      rw [w.advance cur start] at h
      have rest := ih (Nat.mod_lt _ (by omega)) h i (by omega)
      rwa [Nat.mod_add_mod,Nat.add_right_comm] at rest

end search

def Distinct (c : Channel α) : Action α → Prop
  | .fill x => x.processed = false ∧ 1 ≤ x.seqn ∧ ∀ y ∈ c.items, y.seqn ≠ x.seqn
  | _ => True

def Roomy (n : Nat) (c : Channel α) : Action α → Prop
  | .fill _ => c.inUse.length + 1 < n
  | _ => True

def Admits (n : Nat) (c : Channel α) (a : Action α) : Prop := Distinct c a ∧ Roomy n c a
instance (n) (c : Channel α) (a : Action α) : Decidable (Admits n c a) := by
  cases a <;> unfold Admits Distinct Roomy <;> infer_instance

def Same (x y : Item α) : Prop := x.seqn = y.seqn ∧ x.arg = y.arg

structure InOrder (c : Channel α) : Prop where
  handled : c.handled.map Item.seqn = List.range' 1 (c.ring.nextSeqn - 1)
  known : ∀ x ∈ c.handled, ∃ y ∈ c.items, Same x y
  passed : ∀ x ∈ c.passed, x.seqn < c.ring.nextSeqn

structure Sound (c : Channel α) : Prop extends InOrder c where
  next : 1 ≤ c.ring.nextSeqn
  stored : ∀ k, (c.ring.buf k).seqn = 0 ∨ ∃ y ∈ c.items, Same (c.ring.buf k) y

theorem initSound (arg : α) : Sound (Channel.init ⟨0,false,arg⟩) :=
  ⟨⟨rfl,nofun,nofun⟩,Nat.le_refl 1,fun _ => .inl rfl⟩

section sound
variable {c d : Channel α}

theorem soundTaken (h : Sound c) {x : Item α} {r : CircBuf α} {passed : List (Item α)}
    (turn : x.seqn = c.ring.nextSeqn) (known : ∃ k, Same x (c.ring.buf k))
    (next : r.nextSeqn = c.ring.nextSeqn + 1) (stored : ∀ k, ∃ j, Same (r.buf k) (c.ring.buf j))
    (left : ∀ y ∈ passed, y ∈ c.passed ∨ y.seqn = c.ring.nextSeqn) :
    Sound { c with ring := r, passed := passed, handled := c.handled ++ [x] } := by
  have pos := h.next
  refine ⟨⟨?_,fun y mem => ?_,fun y mem => ?_⟩,?_,fun k => ?_⟩
  · simp only [List.map_append,h.handled,List.map_cons,List.map_nil,next]
    have count : c.ring.nextSeqn + 1 - 1 = c.ring.nextSeqn - 1 + 1 := by omega
    have last : 1 + 1 * (c.ring.nextSeqn - 1) = c.ring.nextSeqn := by omega
    rw [count,List.range'_concat,last,turn]
  · rcases memSnoc mem with old | rfl
    · exact h.known y old
    · obtain ⟨k,same⟩ := known
      rcases h.stored k with blank | ⟨z,in_,alike⟩
      · have := same.1
        omega
      · exact ⟨z,in_,same.1.trans alike.1,same.2.trans alike.2⟩
  · simp only [next]
    rcases left y mem with old | now
    · exact Nat.lt_succ_of_lt (h.passed y old)
    · omega
  · simp only [next]
    omega
  · obtain ⟨j,same⟩ := stored k
    rcases h.stored j with blank | ⟨z,in_,alike⟩
    · exact .inl (same.1.trans blank)
    · exact .inr ⟨z,in_,same.1.trans alike.1,same.2.trans alike.2⟩

theorem soundDequeue (h : Sound c) : Sound (c.dequeue ix) := by
  have did : Dequeued ix c.ring (HostQueue.dequeue ix c.ring) := dequeued c.ring
  simp only [Channel.dequeue]
  generalize HostQueue.dequeue ix c.ring = t at did
  cases did with
  | empty | absent | marked => simpa using h
  | front used turn =>
    refine soundTaken h turn ⟨_,rfl,rfl⟩ rfl (fun k => ⟨k,rfl,rfl⟩) fun y mem => ?_
    split at mem
    · exact .inl mem
    · refine (List.mem_append.mp mem).imp_right fun last => ?_
      rw [List.mem_singleton.mp last]
      exact turn
  | skipped used past =>
    simp only [Option.toList_none,List.append_nil]
    refine ⟨⟨h.handled,h.known,fun y mem => ?_⟩,h.next,h.stored⟩
    split at mem
    · exact h.passed y mem
    · rcases memSnoc mem with old | rfl
      · exact h.passed y old
      · exact past
  | inside cur found fresh =>
    refine soundTaken h (searchTurn found) ⟨cur,rfl,rfl⟩ rfl (fun k => ⟨k,?_⟩) fun y mem => .inl (by simpa using mem)
    by_cases same : k = cur
    · subst same
      simp [Same]
    · simp [Same,update_of_ne same]

theorem soundStep {a : Action α} (h : Sound c) (taken : step ix c a = some d) : Sound d := by
  rcases stepCases taken with ⟨x,rfl,_,_,rfl⟩ | ⟨rfl,_,rfl⟩ | ⟨rfl,rfl⟩
  · have grown {x' : Item α} : (∃ y ∈ c.items, Same x' y) → ∃ y ∈ c.items ++ [x], Same x' y :=
      fun ⟨y,mem,same⟩ => ⟨y,List.mem_append_left _ mem,same⟩
    refine ⟨⟨h.handled,fun y mem => grown (h.known y mem),h.passed⟩,h.next,fun k => ?_⟩
    by_cases same : k = c.ring.head
    · subst same
      exact .inr ⟨x,by simp,by simp [Same]⟩
    · simp only [update_of_ne same]
      exact (h.stored k).imp_right grown
  · exact ⟨⟨h.handled,h.known,h.passed⟩,h.next,h.stored⟩
  · exact soundDequeue h

end sound

structure Stored (n : Nat) (c : Channel α) : Prop where
  filled : c.items.length = c.slots.length + if c.filling then 1 else 0
  head : c.ring.head = c.slots.length % n
  tail : c.ring.tail = c.passed.length % n
  order : c.passed.length ≤ c.slots.length
  room : c.items.length < c.passed.length + n
  held : ∀ (j : Nat) (x : Item α), c.items[j]? = some x → c.passed.length ≤ j →
    ∃ p, c.ring.buf (j % n) = { x with processed := p } ∧ (p = true → x.seqn < c.ring.nextSeqn)
  gone : ∀ (j : Nat) (x : Item α), c.items[j]? = some x → j < c.passed.length → x.seqn < c.ring.nextSeqn
  stale : ∀ k < n, (c.ring.buf k).seqn < c.ring.nextSeqn ∨ ∃ j x, c.items[j]? = some x ∧ c.passed.length ≤ j ∧ j % n = k
  distinct : ∀ (i j : Nat) (x y : Item α), c.items[i]? = some x → c.items[j]? = some y → x.seqn = y.seqn → i = j

theorem initStored {n : Nat} (some : 0 < n) (arg : α) : Stored n (Channel.init ⟨0,false,arg⟩) :=
  ⟨rfl,(Nat.zero_mod n).symm,(Nat.zero_mod n).symm,Nat.le_refl 0,by simpa [Channel.init] using some,nofun,nofun,
    fun _ _ => .inl Nat.one_pos,nofun⟩

theorem slotApart {n i j low : Nat} (first : low ≤ i) (second : low ≤ j) (near : i < low + n) (close : j < low + n)
    (same : i % n = j % n) : i = j := by
  rcases Nat.lt_trichotomy i j with lt | eq | gt
  · have gap : (j - i) % n = 0 := Nat.sub_mod_eq_zero_of_mod_eq same.symm
    rw [Nat.mod_eq_of_lt (by omega)] at gap
    omega
  · exact eq
  · have gap : (i - j) % n = 0 := Nat.sub_mod_eq_zero_of_mod_eq same
    rw [Nat.mod_eq_of_lt (by omega)] at gap
    omega

section stored
variable {n : Nat} (w : Wraps ix n) {c d : Channel α}

theorem someSlots (h : Stored n c) : 0 < n := by
  have filled : c.slots.length ≤ c.items.length := h.filled ▸ Nat.le_add_right _ _
  have order := h.order
  have room := h.room
  omega

variable {x : Item α}

theorem itemBound (h : Stored n c) {j : Nat} (mem : c.items[j]? = some x) : j < c.passed.length + n :=
  Nat.lt_trans (List.getElem?_eq_some_iff.mp mem).1 h.room

theorem heldApart (h : Stored n c) {i j : Nat} {y : Item α} (mi : c.items[i]? = some x) (mj : c.items[j]? = some y)
    (first : c.passed.length ≤ i) (second : c.passed.length ≤ j) (same : i % n = j % n) : i = j :=
  slotApart first second (itemBound h mi) (itemBound h mj) same

theorem storedFill (h : Stored n c) (idle : c.filling = false) (new : x.processed = false)
    (other : ∀ y ∈ c.items, y.seqn ≠ x.seqn) (room : c.inUse.length + 1 < n) :
    Stored n { c with
      ring := { c.ring with buf := update c.ring.buf c.ring.head x }
      filling := true
      items := c.items ++ [x] } := by
  have filled : c.items.length = c.slots.length := by simpa [idle] using h.filled
  have used : c.inUse.length = c.slots.length - c.passed.length := List.length_drop
  have order := h.order
  have index {j : Nat} {y : Item α} (mem : (c.items ++ [x])[j]? = some y) :
      c.items[j]? = some y ∨ j = c.items.length ∧ y = x := by
    rw [List.getElem?_append] at mem
    split at mem
    · exact .inl mem
    · obtain ⟨lt,is⟩ := List.getElem?_eq_some_iff.mp mem
      simp only [List.length_singleton] at lt
      refine .inr ⟨by omega,?_⟩
      simpa using is.symm
  have old {j : Nat} {y : Item α} (mem : c.items[j]? = some y) : (c.items ++ [x])[j]? = some y := by
    rw [List.getElem?_append_left (List.getElem?_eq_some_iff.mp mem).1]
    exact mem
  have last : (c.items ++ [x])[c.items.length]? = some x := by simp
  have slot : c.ring.head = c.items.length % n := by rw [h.head,filled]
  refine ⟨by simp [filled],h.head,h.tail,order,?_,fun j y mem low => ?_,fun j y mem low => ?_,fun k lt => ?_,
    fun i j y z mi mj same => ?_⟩
  · simp only [List.length_append,List.length_singleton]
    omega
  · rcases index mem with mem | ⟨rfl,rfl⟩
    · have apart : j % n ≠ c.ring.head := by
        intro same
        rw [slot] at same
        have bound := (List.getElem?_eq_some_iff.mp mem).1
        have := slotApart low (Nat.le_trans order (Nat.le_of_eq filled.symm)) (itemBound h mem) h.room same
        omega
      simp only [update_of_ne apart]
      exact h.held j y mem low
    · refine ⟨false,?_,nofun⟩
      simp only [← slot,update_self,← new]
  · rcases index mem with mem | ⟨rfl,rfl⟩
    · exact h.gone j y mem low
    · simp only at low
      omega
  · by_cases same : k = c.ring.head
    · exact .inr ⟨c.items.length,x,last,by simp only; omega,by rw [same,slot]⟩
    · simp only [update_of_ne same]
      exact (h.stale k lt).imp_right fun ⟨j,y,mem,low,is⟩ => ⟨j,y,old mem,low,is⟩
  · rcases index mi with oldI | ⟨rfl,rfl⟩ <;> rcases index mj with oldJ | ⟨rfl,rfl⟩
    · exact h.distinct i j y z oldI oldJ same
    · exact absurd same (other y (List.mem_of_getElem? oldI))
    · exact absurd same.symm (other z (List.mem_of_getElem? oldJ))
    · rfl

include w

theorem storedPublish (h : Stored n c) (busy : c.filling = true) :
    Stored n { c with ring := publish ix c.ring, filling := false, slots := c.slots ++ [c.ring.head] } := by
  have filled : c.items.length = c.slots.length + 1 := by simpa [busy] using h.filled
  have order := h.order
  refine ⟨?_,?_,h.tail,?_,h.room,h.held,h.gone,h.stale,h.distinct⟩ <;> simp only [List.length_append,List.length_singleton]
  · exact filled
  · have small : c.slots.length % n < n := Nat.mod_lt _ (someSlots h)
    rw [publish,h.head,w.advance _ small,Nat.mod_add_mod]
  · omega

theorem usedSlots (h : Stored n c) (used : 1 ≤ ix.cnt c.ring.head c.ring.tail) : c.passed.length < c.slots.length := by
  refine Nat.lt_of_le_of_ne h.order fun same => ?_
  have small : c.slots.length % n < n := Nat.mod_lt _ (someSlots h)
  rw [h.head,h.tail,same,w.ahead _ _ (Nat.le_refl _) small] at used
  omega

omit w in
theorem frontItem (h : Stored n c) (used : c.passed.length < c.slots.length) :
    ∃ x, c.items[c.passed.length]? = some x ∧ ∃ p, c.ring.buf c.ring.tail = { x with processed := p } := by
  have lt : c.passed.length < c.items.length := Nat.lt_of_lt_of_le used (h.filled ▸ Nat.le_add_right _ _)
  have mem : c.items[c.passed.length]? = some c.items[c.passed.length] := List.getElem?_eq_getElem lt
  obtain ⟨p,is,_⟩ := h.held _ _ mem (Nat.le_refl _)
  exact ⟨_,mem,p,by rw [h.tail]; exact is⟩

theorem storedPass (h : Stored n c) {z : Item α} {next : Nat} {handled : List (Item α)}
    (used : c.passed.length < c.slots.length) (mem : c.items[c.passed.length]? = some x) (later : c.ring.nextSeqn ≤ next)
    (done : x.seqn < next) :
    Stored n { c with
      ring := { c.ring with tail := ix.advance c.ring.tail, nextSeqn := next }
      passed := c.passed ++ [z]
      handled := handled } := by
  obtain ⟨p,is,_⟩ := h.held _ _ mem (Nat.le_refl _)
  have room := h.room
  refine ⟨h.filled,h.head,?_,?_,?_,fun j y mj low => ?_,fun j y mj low => ?_,fun k lt => ?_,h.distinct⟩ <;>
    simp only [List.length_append,List.length_singleton] at *
  · have small : c.passed.length % n < n := Nat.mod_lt _ (someSlots h)
    rw [h.tail,w.advance _ small,Nat.mod_add_mod]
  · omega
  · omega
  · obtain ⟨q,at_,past⟩ := h.held j y mj (by omega)
    exact ⟨q,at_,fun yes => Nat.lt_of_lt_of_le (past yes) later⟩
  · rcases Nat.lt_succ_iff_lt_or_eq.mp low with before | rfl
    · exact Nat.lt_of_lt_of_le (h.gone j y mj before) later
    · cases mem.symm.trans mj
      exact done
  · rcases h.stale k lt with past | ⟨j,y,mj,low,here⟩
    · exact .inl (Nat.lt_of_lt_of_le past later)
    · rcases Nat.lt_or_eq_of_le low with after | rfl
      · exact .inr ⟨j,y,mj,after,here⟩
      · left
        rw [← here,is]
        cases mem.symm.trans mj
        exact done

omit w in
theorem storedMark (h : Stored n c) {j : Nat} {handled : List (Item α)} (mem : c.items[j]? = some x)
    (low : c.passed.length ≤ j) (turn : x.seqn = c.ring.nextSeqn) :
    Stored n { c with
      ring := { c.ring with
        buf := update c.ring.buf (j % n) { c.ring.buf (j % n) with processed := true }
        nextSeqn := c.ring.nextSeqn + 1 }
      handled := handled } := by
  obtain ⟨p,is,_⟩ := h.held j x mem low
  refine ⟨h.filled,h.head,h.tail,h.order,h.room,fun i y mi lowI => ?_,fun i y mi lowI => ?_,fun k lt => ?_,h.distinct⟩
  · by_cases same : i % n = j % n
    · obtain rfl := heldApart h mi mem lowI low same
      cases mem.symm.trans mi
      refine ⟨true,?_,fun _ => by simp only [turn]; omega⟩
      simp only [update_self,is]
    · obtain ⟨q,at_,past⟩ := h.held i y mi lowI
      refine ⟨q,?_,fun yes => Nat.lt_succ_of_lt (past yes)⟩
      simp only [update_of_ne same]
      exact at_
  · exact Nat.lt_succ_of_lt (h.gone i y mi lowI)
  · by_cases same : k = j % n
    · exact .inr ⟨j,x,mem,low,same.symm⟩
    · simp only [update_of_ne same]
      exact (h.stale k lt).imp_left Nat.lt_succ_of_lt

theorem searchItem (h : Stored n c) {cur : Nat} (found : searchNextSeqn ix c.ring = some cur) :
    ∃ j x, c.items[j]? = some x ∧ c.passed.length ≤ j ∧ j % n = cur ∧ x.seqn = c.ring.nextSeqn ∧
      c.ring.buf cur = { x with processed := false } := by
  have bound : cur < n := searchBound w (by rw [h.tail]; exact Nat.mod_lt _ (someSlots h)) found
  have turn : (c.ring.buf cur).seqn = c.ring.nextSeqn := searchTurn found
  rcases h.stale cur bound with past | ⟨j,x,mem,low,rfl⟩
  · omega
  · obtain ⟨p,is,past⟩ := h.held j x mem low
    rw [is] at turn
    refine ⟨j,x,mem,low,rfl,turn,?_⟩
    cases p with
    | false => exact is
    | true =>
      have := past rfl
      have same : x.seqn = c.ring.nextSeqn := turn
      omega

theorem storedDequeue (big : 1 < n) (h : Stored n c) : Stored n (c.dequeue ix) := by
  have did : Dequeued ix c.ring (HostQueue.dequeue ix c.ring) := dequeued c.ring
  have moves : ix.advance c.ring.tail ≠ c.ring.tail := by
    have small : c.ring.tail < n := by
      rw [h.tail]
      exact Nat.mod_lt _ (by omega)
    rw [w.advance _ small]
    intro same
    rcases Nat.lt_or_eq_of_le (Nat.succ_le_of_lt small) with lt | eq
    · rw [Nat.mod_eq_of_lt lt] at same
      omega
    · rw [show c.ring.tail + 1 = n from eq,Nat.mod_self] at same
      omega
  simp only [Channel.dequeue]
  generalize HostQueue.dequeue ix c.ring = t at did
  cases did with
  | empty | absent | marked => simpa using h
  | front used turn =>
    have some := usedSlots w h used
    obtain ⟨x,mem,p,is⟩ := frontItem h some
    simp only [if_neg moves]
    refine storedPass w h some mem (Nat.le_succ _) ?_
    rw [is] at turn
    exact Nat.lt_succ_of_le (Nat.le_of_eq turn)
  | skipped used past =>
    have some := usedSlots w h used
    obtain ⟨x,mem,p,is⟩ := frontItem h some
    simp only [if_neg moves]
    refine storedPass w h some mem (Nat.le_refl _) ?_
    rw [is] at past
    exact past
  | inside cur found fresh =>
    obtain ⟨j,x,mem,low,rfl,turn,is⟩ := searchItem w h found
    simp only [if_true]
    exact storedMark h mem low turn

theorem storedStep (big : 1 < n) {a : Action α} (h : Stored n c) (fresh : Distinct c a) (room : Roomy n c a)
    (taken : step ix c a = some d) : Stored n d := by
  rcases stepCases taken with ⟨x,rfl,idle,_,rfl⟩ | ⟨rfl,busy,rfl⟩ | ⟨rfl,rfl⟩
  · exact storedFill h idle fresh.1 fresh.2.2 room
  · exact storedPublish w h busy
  · exact storedDequeue w big h

theorem countCovers (h : Stored n c) : c.slots.length - c.passed.length ≤ ix.cnt c.ring.head c.ring.tail := by
  have some := someSlots h
  have near : c.slots.length - c.passed.length < n := by
    have filled : c.slots.length ≤ c.items.length := h.filled ▸ Nat.le_add_right _ _
    have room := h.room
    omega
  have tail : c.ring.tail < n := by
    rw [h.tail]
    exact Nat.mod_lt _ some
  have head : c.ring.head = (c.ring.tail + (c.slots.length - c.passed.length)) % n := by
    rw [h.head,h.tail,Nat.mod_add_mod,Nat.add_sub_of_le h.order]
  generalize c.slots.length - c.passed.length = used at *
  by_cases straight : c.ring.tail + used < n
  · rw [Nat.mod_eq_of_lt straight] at head
    rw [w.ahead _ _ (by omega) (by omega)]
    omega
  · rw [Nat.mod_eq_sub_mod (by omega),Nat.mod_eq_of_lt (by omega)] at head
    have behind := w.behind c.ring.head c.ring.tail (by omega) tail
    omega

theorem deliverNext (h : Stored n c) {j : Nat} (mem : c.items[j]? = some x)
    (published : j < c.slots.length) (turn : x.seqn = c.ring.nextSeqn) {k : Nat}
    (enough : c.slots.length - c.passed.length ≤ k) :
    ∃ r y, dequeueLoop ix k c.ring = some (r,y) ∧ Same y x := by
  induction k generalizing c with
  | zero =>
    have past := h.gone j x mem (by omega)
    omega
  | succ k ih =>
    have low : c.passed.length ≤ j := by
      by_contra before
      have past := h.gone j x mem (by omega)
      omega
    have did : Dequeued ix c.ring (HostQueue.dequeue ix c.ring) := dequeued c.ring
    have covers := countCovers w h
    simp only [dequeueLoop]
    generalize HostQueue.dequeue ix c.ring = t at did
    cases did with
    | empty unused => omega
    | front used now =>
      obtain ⟨y,here,p,is⟩ := frontItem h (by omega)
      rw [is] at now
      have same := h.distinct _ _ _ _ here mem (now.trans turn.symm)
      rw [same] at here
      cases mem.symm.trans here
      exact ⟨_,_,rfl,by rw [is]; exact ⟨rfl,rfl⟩⟩
    | skipped used past =>
      obtain ⟨y,here,p,is⟩ := frontItem h (by omega)
      rw [is] at past
      have left : Stored n { c with
          ring := { c.ring with tail := ix.advance c.ring.tail }
          passed := c.passed ++ [y]
          handled := c.handled } := storedPass w h (by omega) here (Nat.le_refl _) past
      refine ih left mem published turn ?_
      simp only [List.length_append,List.length_singleton]
      omega
    | absent used missing =>
      have misses := searchMisses w (by rw [h.tail]; exact Nat.mod_lt _ (someSlots h)) missing (j - c.passed.length)
        (by omega)
      obtain ⟨p,is,_⟩ := h.held j x mem low
      rw [h.tail,Nat.mod_add_mod,Nat.add_sub_of_le low,is] at misses
      exact absurd turn misses
    | marked cur found before =>
      obtain ⟨_,_,_,_,_,_,is⟩ := searchItem w h found
      rw [is] at before
      contradiction
    | inside cur found fresh =>
      obtain ⟨i,y,here,lowI,rfl,now,is⟩ := searchItem w h found
      have same := h.distinct _ _ _ _ here mem (now.trans turn.symm)
      rw [same] at here
      cases mem.symm.trans here
      exact ⟨_,_,rfl,by rw [is]; exact ⟨rfl,rfl⟩⟩

end stored

/- `holding` is the number of the host item the worker has taken and whose copy-done item it waits for. -/
structure State (α γ : Type) where
  host : Channel α
  done : Channel γ
  holding : Option Nat
  pairs : List (Nat × Nat)

inductive Event (α γ : Type) where
  | fillHost (x : Item α)
  | publishHost
  | fillDone (x : Item γ)
  | publishDone
  | poll

abbrev hostIndex : Index := masked circBufHostMemcpyReqSize
abbrev doneIndex : Index := masked circBufCopyDoneSize

def State.init (a : α) (b : γ) : State α γ := ⟨.init ⟨0,false,a⟩,.init ⟨0,false,b⟩,none,[]⟩

def poll (host done : Index) (first : Bool) (s : State α γ) : State α γ :=
  match s.holding with
  | none =>
    { s with
      host := s.host.dequeue host
      holding := if first then none else (dequeue host s.host.ring).item.map Item.seqn }
  | some n =>
    match (dequeue done s.done.ring).item with
    | none => { s with done := s.done.dequeue done }
    | some x => { s with done := s.done.dequeue done, holding := none, pairs := s.pairs ++ [(n,x.seqn)] }

def turn (host done : Index) (first : Bool) (s : State α γ) : Event α γ → Option (State α γ)
  | .fillHost x => (step host s.host (.fill x)).map fun c => { s with host := c }
  | .publishHost => (step host s.host .publish).map fun c => { s with host := c }
  | .fillDone x => (step done s.done (.fill x)).map fun c => { s with done := c }
  | .publishDone => (step done s.done .publish).map fun c => { s with done := c }
  | .poll => some (poll host done first s)

def Enqueues (host : Channel α → Action α → Prop) (done : Channel γ → Action γ → Prop) (s : State α γ) :
    Event α γ → Prop
  | .fillHost x => host s.host (.fill x)
  | .fillDone x => done s.done (.fill x)
  | _ => True

instance (host : Channel α → Action α → Prop) (done : Channel γ → Action γ → Prop) [∀ c a, Decidable (host c a)]
    [∀ c a, Decidable (done c a)] (s e) : Decidable (Enqueues host done s e) := by
  cases e <;> unfold Enqueues <;> infer_instance

structure Kept (ix : Index) (n : Nat) (c : Channel α) : Prop where
  stays : ∀ (j : Nat) (x : Item α), c.items[j]? = some x → x.seqn < c.ring.nextSeqn ∨
    c.passed.length ≤ j ∧ Same (c.ring.buf (j % n)) x
  delivered : ∀ (j : Nat) (x : Item α), c.items[j]? = some x → j < c.slots.length → x.seqn = c.ring.nextSeqn →
    ∃ r y, dequeueLoop ix (c.slots.length - c.passed.length) c.ring = some (r,y) ∧ Same y x

theorem storedKept {n : Nat} (w : Wraps ix n) {c : Channel α} (h : Stored n c) : Kept ix n c where
  stays j x mem := by
    by_cases left : j < c.passed.length
    · exact .inl (h.gone j x mem left)
    · obtain ⟨p,is,_⟩ := h.held j x mem (Nat.not_lt.mp left)
      exact .inr ⟨Nat.not_lt.mp left,by rw [is]; exact ⟨rfl,rfl⟩⟩
  delivered _ _ mem published turn := deliverNext w h mem published turn (Nat.le_refl _)

variable (ix) in
theorem takenNext (r : CircBuf α) : match (dequeue ix r).item with
    | none => (dequeue ix r).ring.nextSeqn = r.nextSeqn
    | some x => x.seqn = r.nextSeqn ∧ (dequeue ix r).ring.nextSeqn = r.nextSeqn + 1 := by
  have did : Dequeued ix r (dequeue ix r) := dequeued r
  generalize dequeue ix r = t at did
  cases did with
  | empty | absent | marked | skipped => rfl
  | front _ turn => exact ⟨turn,rfl⟩
  | inside cur found _ => exact ⟨searchTurn found,rfl⟩

section system
variable {host done : Index} {first : Bool} {s t : State α γ} {e : Event α γ}

theorem turnHost (taken : turn host done first s e = some t) :
    t.host = s.host ∨ ∃ a, step host s.host a = some t.host ∧ ∀ x, a = .fill x → e = .fillHost x := by
  cases e with
  | fillHost x =>
    obtain ⟨c,stepped,rfl⟩ := map_eq_some_iff.mp taken
    exact .inr ⟨_,stepped,fun y same => by cases same; rfl⟩
  | publishHost =>
    obtain ⟨c,stepped,rfl⟩ := map_eq_some_iff.mp taken
    exact .inr ⟨_,stepped,nofun⟩
  | fillDone | publishDone =>
    obtain ⟨c,_,rfl⟩ := map_eq_some_iff.mp taken
    exact .inl rfl
  | poll =>
    cases taken
    unfold poll
    split
    · exact .inr ⟨.dequeue,rfl,nofun⟩
    · split <;> exact .inl rfl

theorem turnDone (taken : turn host done first s e = some t) :
    t.done = s.done ∨ ∃ a, step done s.done a = some t.done ∧ ∀ x, a = .fill x → e = .fillDone x := by
  cases e with
  | fillHost | publishHost =>
    obtain ⟨c,_,rfl⟩ := map_eq_some_iff.mp taken
    exact .inl rfl
  | fillDone x =>
    obtain ⟨c,stepped,rfl⟩ := map_eq_some_iff.mp taken
    exact .inr ⟨_,stepped,fun y same => by cases same; rfl⟩
  | publishDone =>
    obtain ⟨c,stepped,rfl⟩ := map_eq_some_iff.mp taken
    exact .inr ⟨_,stepped,nofun⟩
  | poll =>
    cases taken
    unfold poll
    split
    · exact .inl rfl
    · split <;> exact .inr ⟨.dequeue,rfl,nofun⟩

structure Paired (s : State α γ) : Prop where
  pairs : s.pairs = s.done.handled.map fun x => (x.seqn,x.seqn)
  free : s.holding = none → s.host.ring.nextSeqn = s.done.ring.nextSeqn
  held : ∀ n, s.holding = some n → n = s.done.ring.nextSeqn ∧ s.host.ring.nextSeqn = n + 1

theorem fillNext {c d : Channel α} {a : Action α} (taken : step ix c a = some d) (other : a ≠ .dequeue) :
    d.ring.nextSeqn = c.ring.nextSeqn ∧ d.handled = c.handled := by
  rcases stepCases taken with ⟨x,_,_,_,rfl⟩ | ⟨_,_,rfl⟩ | ⟨rfl,_⟩
  · exact ⟨rfl,rfl⟩
  · exact ⟨rfl,rfl⟩
  · contradiction

theorem pollPaired (h : Paired s) : Paired (poll host done false s) := by
  unfold poll
  split
  · rename_i idle
    have next := takenNext host s.host.ring
    have level := h.free idle
    simp only [Channel.dequeue,Bool.false_eq_true,if_false]
    cases item : (dequeue host s.host.ring).item with
    | none =>
      simp only [item] at next
      exact ⟨h.pairs,fun _ => next.trans level,fun n some => by contradiction⟩
    | some x =>
      simp only [item] at next
      refine ⟨h.pairs,fun none => by contradiction,fun n some => ?_⟩
      obtain rfl : x.seqn = n := Option.some.inj some
      exact ⟨next.1.trans level,by rw [next.1]; exact next.2⟩
  · rename_i n busy
    have next := takenNext done s.done.ring
    obtain ⟨turn,level⟩ := h.held n busy
    split <;> rename_i item <;> simp only [item] at next
    · simp only [Channel.dequeue,item]
      refine ⟨?_,fun none => by simp_all,fun m some => ?_⟩
      · rw [Option.toList_none,List.append_nil]
        exact h.pairs
      · obtain rfl : n = m := Option.some.inj (busy.symm.trans some)
        exact ⟨turn.trans next.symm,level⟩
    · rename_i x
      simp only [Channel.dequeue,item]
      refine ⟨?_,fun _ => ?_,fun m some => by contradiction⟩
      · rw [h.pairs,Option.toList_some,List.map_append,turn,← next.1]
        rfl
      · rw [next.2,level,turn]

theorem pairedHost (h : Paired s) {c : Channel α} (next : c.ring.nextSeqn = s.host.ring.nextSeqn) :
    Paired { s with host := c } :=
  ⟨h.pairs,fun none => next.trans (h.free none),fun n some => ⟨(h.held n some).1,next.trans (h.held n some).2⟩⟩

theorem pairedDone (h : Paired s) {c : Channel γ} (next : c.ring.nextSeqn = s.done.ring.nextSeqn)
    (handled : c.handled = s.done.handled) : Paired { s with done := c } :=
  ⟨h.pairs.trans (by rw [handled]),fun none => (h.free none).trans next.symm,
    fun n some => ⟨(h.held n some).1.trans next.symm,(h.held n some).2⟩⟩

theorem turnPaired (h : Paired s) (taken : turn host done false s e = some t) : Paired t := by
  cases e with
  | fillHost | publishHost =>
    obtain ⟨c,stepped,rfl⟩ := map_eq_some_iff.mp taken
    exact pairedHost h (fillNext stepped nofun).1
  | fillDone | publishDone =>
    obtain ⟨c,stepped,rfl⟩ := map_eq_some_iff.mp taken
    obtain ⟨next,handled⟩ := fillNext stepped nofun
    exact pairedDone h next handled
  | poll =>
    cases taken
    exact pollPaired h

theorem turnSound (h : Sound s.host ∧ Sound s.done) (taken : turn host done first s e = some t) :
    Sound t.host ∧ Sound t.done := by
  constructor
  · rcases turnHost taken with same | ⟨a,stepped,_⟩
    · exact same ▸ h.1
    · exact soundStep h.1 stepped
  · rcases turnDone taken with same | ⟨a,stepped,_⟩
    · exact same ▸ h.2
    · exact soundStep h.2 stepped

theorem turnStored {n m : Nat} (w : Wraps host n) (v : Wraps done m) (big : 1 < n) (large : 1 < m)
    (h : Stored n s.host ∧ Stored m s.done)
    (fine : Enqueues (Admits n) (Admits m) s e)
    (taken : turn host done first s e = some t) : Stored n t.host ∧ Stored m t.done := by
  constructor
  · rcases turnHost taken with same | ⟨a,stepped,fills⟩
    · exact same ▸ h.1
    · have allowed : Admits n s.host a := by
        cases a with
        | fill x =>
          rw [fills x rfl] at fine
          exact fine
        | publish | dequeue => exact ⟨trivial,trivial⟩
      exact storedStep w big h.1 allowed.1 allowed.2 stepped
  · rcases turnDone taken with same | ⟨a,stepped,fills⟩
    · exact same ▸ h.2
    · have allowed : Admits m s.done a := by
        cases a with
        | fill x =>
          rw [fills x rfl] at fine
          exact fine
        | publish | dequeue => exact ⟨trivial,trivial⟩
      exact storedStep v large h.2 allowed.1 allowed.2 stepped

end system

theorem visitedMany : 1 < visited := by decide

section lost
variable {host done : Index} {first : Bool} {P : Channel α → Action α → Prop} {Q : Channel γ → Action γ → Prop}

theorem turnEnqueues {s : State α γ} {c : Channel α} (h : Reach (step host) (fun c a => a ≠ .dequeue ∧ P c a) s.host c) :
    Reach (turn host done first) (Enqueues P Q) s { s with host := c } := by
  induction h with
  | start => exact .start
  | @next c d a _ allowed taken ih =>
    cases a with
    | fill x => exact .next (a := .fillHost x) ih allowed.2 (by simp [turn,taken])
    | publish => exact .next (a := .publishHost) ih trivial (by simp [turn,taken])
    | dequeue => exact absurd rfl allowed.1

theorem emptyLoop {r : CircBuf α} (unused : ix.cnt r.head r.tail = 0) (k : Nat) : dequeueLoop ix k r = none := by
  induction k with
  | zero => rfl
  | succ k ih => simp [dequeueLoop,dequeue,unused,ih]

end lost

def numbered (k : Nat) : Item Unit := ⟨k + 1,false,()⟩

end LineFS.Delivery
