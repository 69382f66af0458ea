import Mathlib.Data.List.Forall2

/-! Copies into a flat memory, executed from the head of a list. A cell that no copy covers keeps its value;
otherwise the last copy that covers it decides. Where no cell is due a copy of two parties, every
interleaving ends in the memory in which each copy was executed as it was issued. -/
namespace LineFS.Base

universe u
variable {β : Type u}

structure Copy (β : Type u) where
  dst : Nat
  len : Nat
  byte : Nat → β

namespace Copy

def Covers (c : Copy β) (a : Nat) : Prop := c.dst ≤ a ∧ a < c.dst + c.len
deriving Decidable

def execute (mem : Nat → β) (c : Copy β) : Nat → β :=
  fun a => if c.Covers a then c.byte (a - c.dst) else mem a

def executeAll (cs : List (Copy β)) (mem : Nat → β) : Nat → β := cs.foldl execute mem

variable {cs ds : List (Copy β)} {mem other : Nat → β} {a : Nat}

theorem executeAppend : executeAll (cs ++ ds) mem = executeAll ds (executeAll cs mem) := List.foldl_append

theorem executeCongr (same : mem a = other a) : executeAll cs mem a = executeAll cs other a := by
  induction cs generalizing mem other with
  | nil => exact same
  | cons c cs ih =>
    apply ih
    simp only [execute,same]

theorem executeMiss (miss : ∀ c ∈ cs, ¬ c.Covers a) : executeAll cs mem a = mem a := by
  induction cs generalizing mem with
  | nil => rfl
  | cons c cs ih =>
    refine (ih fun d mem => miss d (.tail _ mem)).trans ?_
    exact if_neg (miss c (.head _))

theorem executeFrom (hit : ∃ c ∈ cs, c.Covers a) : ∃ c ∈ cs, c.Covers a ∧ executeAll cs mem a = c.byte (a - c.dst) := by
  induction cs generalizing mem with
  | nil =>
    obtain ⟨_,none,_⟩ := hit
    exact nomatch none
  | cons c cs ih =>
    by_cases later : ∃ d ∈ cs, d.Covers a
    · obtain ⟨d,known,covers,value⟩ := ih later
      exact ⟨d,.tail _ known,covers,value⟩
    · obtain ⟨d,known,covers⟩ := hit
      have head : d = c := (List.mem_cons.mp known).resolve_right fun tail => later ⟨d,tail,covers⟩
      subst head
      refine ⟨d,.head _,covers,(executeMiss fun x mem cover => later ⟨x,mem,cover⟩).trans ?_⟩
      exact if_pos covers

theorem executeHit {v : β} (agree : ∀ c ∈ cs, c.Covers a → c.byte (a - c.dst) = v)
    (hit : ∃ c ∈ cs, c.Covers a) : executeAll cs mem a = v := by
  obtain ⟨c,known,covers,value⟩ := executeFrom hit
  exact value.trans (agree c known covers)

theorem executeCovered (hit : ∃ c ∈ cs, c.Covers a) : executeAll cs mem a = executeAll cs other a := by
  induction cs generalizing mem other with
  | nil =>
    obtain ⟨_,none,_⟩ := hit
    exact nomatch none
  | cons c cs ih =>
    by_cases here : c.Covers a
    · show executeAll cs (execute mem c) a = executeAll cs (execute other c) a
      exact executeCongr ((if_pos here).trans (if_pos here).symm)
    · obtain ⟨d,known,covers⟩ := hit
      have later : d ∈ cs := (List.mem_cons.mp known).resolve_left fun same => here (same ▸ covers)
      exact ih ⟨d,later,covers⟩

theorem executeSplit (dst first second : Nat) (byte : Nat → β) : execute (execute mem ⟨dst,first,byte⟩)
    ⟨dst + first,second,fun i => byte (first + i)⟩ a = execute mem ⟨dst,first + second,byte⟩ a := by
  by_cases behind : dst + first ≤ a ∧ a < dst + first + second
  · have whole : dst ≤ a ∧ a < dst + (first + second) := by omega
    refine (if_pos behind).trans (Eq.trans ?_ (if_pos whole).symm)
    show byte (first + (a - (dst + first))) = byte (a - dst)
    congr 1
    omega
  · refine (if_neg behind).trans (if_congr ?_ rfl rfl)
    simp only [Covers]
    omega

theorem executeFilterMap {ι : Type} {xs : List ι} {g : ι → Option (Copy β)} {h : ι → Copy β}
    (same : ∀ x ∈ xs, ∀ mem, (g x).elim mem (execute mem) a = execute mem (h x) a) :
    executeAll (xs.filterMap g) mem a = executeAll (xs.map h) mem a := by
  induction xs generalizing mem with
  | nil => rfl
  | cons x xs ih =>
    have rest (mem : Nat → β) : executeAll (xs.filterMap g) mem a = executeAll (xs.map h) mem a :=
      ih fun y known => same y (.tail _ known)
    have here := same x (.head _) mem
    rw [List.map_cons]
    cases found : g x with
    | none =>
      rw [List.filterMap_cons_none found,rest]
      rw [found] at here
      exact executeCongr here
    | some c =>
      rw [List.filterMap_cons_some found]
      rw [found] at here
      exact (rest _).trans (executeCongr here)

theorem executeMap {ι : Type} {xs : List ι} {g h : ι → Copy β} (same : ∀ x ∈ xs, ∀ mem, execute mem (g x) a = execute mem (h x) a) :
    executeAll (xs.map g) mem a = executeAll (xs.map h) mem a := by
  rw [← List.filterMap_eq_map]
  exact executeFilterMap same

theorem executePositive : executeAll (cs.filter fun c => decide (0 < c.len)) mem a = executeAll cs mem a := by
  induction cs generalizing mem with
  | nil => rfl
  | cons c cs ih =>
    rw [List.filter_cons]
    split
    · exact ih
    · rename_i empty
      have miss : ¬c.Covers a := by
        rw [decide_eq_true_eq] at empty
        simp only [Covers]
        omega
      exact ih.trans (executeCongr (if_neg miss).symm)

theorem executeRange {g : Nat → List (Copy β)} {i n : Nat} (apart : ∀ j < n, j ≠ i → ∀ c ∈ g j, ¬c.Covers a) :
    executeAll ((List.range n).flatMap g) mem a = if i < n then executeAll (g i) mem a else mem a := by
  induction n with
  | zero => rfl
  | succ n ih =>
    have before := ih fun j less => apart j (by omega)
    rw [List.range_succ,List.flatMap_append,executeAppend,List.flatMap_singleton]
    by_cases here : i = n
    · subst here
      rw [if_neg (Nat.lt_irrefl i)] at before
      rw [if_pos (Nat.lt_succ_self i)]
      exact executeCongr before
    · rw [executeMiss (apart n (Nat.lt_succ_self n) (Ne.symm here)),before]
      exact if_congr (by omega) rfl rfl

def Alike (c d : Copy β) : Prop := c.dst = d.dst ∧ c.len = d.len ∧ ∀ i < c.len, c.byte i = d.byte i

theorem executeAlike (alike : List.Forall₂ Alike cs ds) : executeAll cs mem = executeAll ds mem := by
  induction alike generalizing mem with
  | nil => rfl
  | @cons c d cs ds first _ ih =>
    obtain ⟨start,count,bytes⟩ := first
    have same : execute mem c = execute mem d := by
      funext a
      have covers : c.Covers a ↔ d.Covers a := by rw [Covers,Covers,start,count]
      by_cases inside : c.Covers a
      · refine (if_pos inside).trans (Eq.trans ?_ (if_pos (covers.mp inside)).symm)
        rw [← start]
        exact bytes _ (Nat.sub_lt_left_of_lt_add inside.1 inside.2)
      · exact (if_neg inside).trans (if_neg (mt covers.mpr inside)).symm
    show executeAll cs (execute mem c) = executeAll ds (execute mem d)
    rw [same,ih]

section parties
variable {ι : Type} {pend next : ι → List (Copy β)} {issued : Nat → β} {p : ι}

structure Agrees (pend : ι → List (Copy β)) (mem issued : Nat → β) : Prop where
  lone : ∀ p q, ∀ c ∈ pend p, ∀ d ∈ pend q, ∀ a, c.Covers a → d.Covers a → p = q
  settled : ∀ a, (∀ p, ∀ c ∈ pend p, ¬ c.Covers a) → mem a = issued a
  due : ∀ p a, (∃ c ∈ pend p, c.Covers a) → executeAll (pend p) mem a = issued a

theorem agreesExecuted {c : Copy β} (h : Agrees pend mem issued) (was : pend p = c :: next p)
    (others : ∀ q, q ≠ p → next q = pend q) : Agrees next (execute mem c) issued := by
  have known {q : ι} {d : Copy β} (mem : d ∈ next q) : d ∈ pend q := by
    by_cases same : q = p
    · subst same
      rw [was]
      exact .tail c mem
    · exact others q same ▸ mem
  have first : c ∈ pend p := was ▸ (.head _)
  refine ⟨fun q r d md e me a cd ce => h.lone q r d (known md) e (known me) a cd ce,fun a free => ?_,
    fun q a ⟨d,md,cd⟩ => ?_⟩
  · by_cases covers : c.Covers a
    · have last := h.due p a ⟨c,first,covers⟩
      rw [was] at last
      exact (executeMiss (free p)).symm.trans last
    · refine (if_neg covers).trans (h.settled a fun q d md cd => ?_)
      by_cases same : q = p
      · subst same
        rw [was] at md
        rcases List.mem_cons.mp md with rfl | md
        · exact covers cd
        · exact free q d md cd
      · exact free q d (others q same ▸ md) cd
  · have before := h.due q a ⟨d,known md,cd⟩
    by_cases same : q = p
    · subst same
      rw [was] at before
      exact before
    · have miss : ¬ c.Covers a := fun covers => same (h.lone q p d (known md) c first a cd covers)
      rw [others q same]
      exact (executeCongr (if_neg miss)).trans before

theorem agreesIssued {new : List (Copy β)} (h : Agrees pend mem issued) (is : next p = pend p ++ new)
    (others : ∀ q, q ≠ p → next q = pend q)
    (apart : ∀ q, q ≠ p → ∀ d ∈ pend q, ∀ c ∈ new, ∀ a, c.Covers a → ¬ d.Covers a) :
    Agrees next mem (executeAll new issued) := by
  have cases {q : ι} {d : Copy β} (mem : d ∈ next q) : d ∈ pend q ∨ q = p ∧ d ∈ new := by
    by_cases same : q = p
    · subst same
      rw [is] at mem
      exact (List.mem_append.mp mem).imp_right fun mem => ⟨rfl,mem⟩
    · exact .inl (others q same ▸ mem)
  refine ⟨fun q r d md e me a cd ce => ?_,fun a free => ?_,fun q a ⟨d,md,cd⟩ => ?_⟩
  · rcases cases md with md | ⟨rfl,md⟩ <;> rcases cases me with me | ⟨rfl,me⟩
    · exact h.lone q r d md e me a cd ce
    · exact Classical.byContradiction fun other => apart q other d md e me a ce cd
    · exact Classical.byContradiction fun other => apart r (Ne.symm other) e me d md a cd ce
    · rfl
  · have miss : ∀ c ∈ new, ¬ c.Covers a := fun c mc => free p c (is ▸ List.mem_append_right _ mc)
    rw [executeMiss miss]
    refine h.settled a fun q d md => free q d ?_
    by_cases same : q = p
    · subst same
      exact is ▸ List.mem_append_left _ md
    · exact (others q same).symm ▸ md
  · by_cases same : q = p
    · subst same
      rw [is,executeAppend]
      apply executeCongr
      by_cases old : ∃ c ∈ pend q, c.Covers a
      · exact h.due q a old
      · have none : ∀ c ∈ pend q, ¬ c.Covers a := fun c mc cover => old ⟨c,mc,cover⟩
        have fresh : d ∈ new := (cases md).elim (fun md => absurd cd (none d md)) And.right
        rw [executeMiss none]
        refine h.settled a fun r e me ce => ?_
        by_cases mine : r = q
        · exact none e (mine ▸ me) ce
        · exact apart r mine e me d fresh a cd ce
    · rw [others q same] at md ⊢
      have miss : ∀ c ∈ new, ¬ c.Covers a := fun c mc cc => apart q same d md c mc a cc cd
      rw [executeMiss miss]
      exact h.due q a ⟨d,md,cd⟩

end parties

end Copy
end LineFS.Base
