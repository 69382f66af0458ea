import Mathlib.Data.List.Basic

/-! A worker pool: jobs wait in a FIFO queue until one of a fixed number of threads
is free, and running jobs finish in any order. With one thread they finish in the
order in which they were added. -/
namespace LineFS.Base

universe u

structure Pool (α : Type u) where
  queue : List α
  running : List α
  deriving DecidableEq, Repr

namespace Pool
variable {α : Type u} {p q : Pool α} {x : α}

def empty : Pool α := ⟨[],[]⟩
def add (p : Pool α) (x : α) : Pool α := { p with queue := p.queue ++ [x] }
def pull (threads : Nat) (p : Pool α) : Option (Pool α) :=
  match p.queue with
  | [] => none
  | x::rest => if p.running.length < threads then some ⟨rest,p.running ++ [x]⟩ else none
def finish (p : Pool α) (i : Nat) : Option (α × Pool α) :=
  p.running[i]?.map fun x => (x,{ p with running := p.running.eraseIdx i })

def jobs (p : Pool α) : List α := p.running ++ p.queue

inductive Event (α : Type u) where
  | add (x : α)
  | pull
  | finish (i : Nat)

/- With the jobs finished so far. -/
def step (threads : Nat) (s : Pool α × List α) : Event α → Option (Pool α × List α)
  | .add x => some (s.1.add x,s.2)
  | .pull => (s.1.pull threads).map fun p => (p,s.2)
  | .finish i => (s.1.finish i).map fun f => (f.2,s.2 ++ [f.1])

@[simp] theorem jobsAdd : (p.add x).jobs = p.jobs ++ [x] := by simp [add,jobs]
theorem pullExact {n} (h : p.pull n = some q) : q.jobs = p.jobs ∧ q.running.length ≤ n := by
  unfold pull at h
  split at h <;> try contradiction
  rename_i x rest queued
  split at h <;> try contradiction
  cases h
  refine ⟨?_,?_⟩
  · simp [jobs,queued]
  · simp only [List.length_append,List.length_singleton]; omega

theorem finishSingle {i} (single : p.running.length ≤ 1) (h : p.finish i = some (x,q)) :
    p.jobs = x::q.jobs ∧ q.running = [] := by
  obtain ⟨y,found,last⟩ := Option.map_eq_some_iff.mp h
  cases last
  match running : p.running,single with
  | [],_ => simp [running] at found
  | [z],_ =>
    rw [running] at found
    cases i with
    | zero => cases found; simp [jobs,running]
    | succ i => simp at found

end Pool
end LineFS.Base
