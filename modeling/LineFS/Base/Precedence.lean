import Mathlib.Data.List.Nodup

/-! Work split into points that run in any order their prerequisites allow. `needs` lists the
direct prerequisites of a point. What has run is closed under them, so the ancestors of a point
that has run have run too, and where no point can run any more, all have. -/
namespace LineFS.Base

variable {P : Type*} {needs : P → List P} {done : P → Prop}

def Closed (needs : P → List P) (done : P → Prop) : Prop := ∀ p, done p → ∀ q ∈ needs p, done q

def ancestors [DecidableEq P] (needs : P → List P) (order : List P) (p : P) : List P :=
  order.foldl (fun known q => if q ∈ known then needs q ++ known else known) [p]

theorem ancestorsDone [DecidableEq P] (closed : Closed needs done) {order : List P} {p q : P} (ran : done p)
    (mem : q ∈ ancestors needs order p) : done q := by
  have pass (order known : List P) (all : ∀ q ∈ known, done q) :
      ∀ q ∈ order.foldl (fun known q => if q ∈ known then needs q ++ known else known) known, done q := by
    induction order generalizing known with
    | nil => exact all
    | cons x order ih =>
      refine ih _ fun q mem => ?_
      dsimp only at mem
      split at mem
      · rcases List.mem_append.mp mem with needed | old
        · exact closed x (all x ‹_›) q needed
        · exact all q old
      · exact all q mem
  exact pass order [p] (fun q mem => List.mem_singleton.mp mem ▸ ran) q mem

def Topological (needs : P → List P) : List P → List P → Prop
  | _, [] => True
  | seen, p::rest => (∀ q ∈ needs p, q ∈ seen) ∧ Topological needs (p::seen) rest

instance decideTopological [DecidableEq P] (needs : P → List P) : (seen order : List P) → Decidable (Topological needs seen order)
  | _, [] => .isTrue trivial
  | seen, p::rest =>
    have := decideTopological needs (p::seen) rest
    inferInstanceAs (Decidable ((∀ q ∈ needs p, q ∈ seen) ∧ Topological needs (p::seen) rest))

theorem stuckDone {seen order : List P} (sorted : Topological needs seen order) (before : ∀ p ∈ seen, done p)
    (stuck : ∀ p ∈ order, (∀ q ∈ needs p, done q) → done p) : ∀ p ∈ order, done p := by
  induction order generalizing seen with
  | nil => nofun
  | cons x order ih =>
    have ran : done x := stuck x (.head _) fun q needed => before q (sorted.1 q needed)
    have rest := ih sorted.2 (List.forall_mem_cons.mpr ⟨ran,before⟩) fun p mem => stuck p (.tail x mem)
    exact List.forall_mem_cons.mpr ⟨ran,rest⟩

end LineFS.Base
