import Mathlib.Data.Finset.Card
import Mathlib.Order.Interval.Finset.Nat
import LineFS.Base.Run
import LineFS.Bitmap

/-! Persisted log copies and fsync acknowledgements in `kernfs/nic/copy_log.c`, for one LibFS. A
plain request sets its bit in `log_persisted_bitmap`; an fsync counts the bits below its own and,
when all are set, shifts the bitmap behind it. The shift keeps eight positions only. None of the three
stays inside the array: the word behind it is `log_persisted_bitmap_start_seqn`. -/
namespace LineFS.CopyLog
open Base Bitmap

structure Rctx where
  bitmap : Words
  startSeqn : Nat

def initRctx : Rctx := ⟨Bitmap.empty,1⟩
def copyNextBitmapSizeInBit : Nat := 1024 * 1024

def memory (r : Rctx) : Words := store r.bitmap (copyNextBitmapSizeInBit / 64) (BitVec.ofNat 64 r.startSeqn)

/- The assertion is `<=`: a store at the size itself is bit 0 of `start_seqn`. -/
def setLogPersistedBit (r : Rctx) (startSeqn seqn : Nat) : Option Rctx :=
  if startSeqn ≤ seqn ∧ seqn - startSeqn ≤ copyNextBitmapSizeInBit then
    some (if seqn - startSeqn < copyNextBitmapSizeInBit then { r with bitmap := bitmapSet r.bitmap (seqn - startSeqn) 1 }
      else { r with startSeqn := r.startSeqn ||| 1 })
  else none

def AllSet (r : Rctx) (startSeqn fsyncSeqn : Nat) : Prop :=
  startSeqn ≤ fsyncSeqn ∧ bitmapWeight (memory r) (fsyncSeqn - startSeqn) = fsyncSeqn - startSeqn
deriving Decidable

def shiftBehind (r : Rctx) (startSeqn fsyncSeqn : Nat) : Rctx :=
  ⟨bitmapShiftRight (memory r) (fsyncSeqn - startSeqn + 1) (fsyncSeqn - startSeqn + 1 + 8),fsyncSeqn + 1⟩

@[simp] theorem shiftStart (r a f) : (shiftBehind r a f).startSeqn = f + 1 := rfl

def allPreviousLogPersistedBitsSet (r : Rctx) (fsyncSeqn : Nat) : Bool × Rctx :=
  if AllSet r r.startSeqn fsyncSeqn then (true,shiftBehind r r.startSeqn fsyncSeqn) else (false,r)

def persisted (r : Rctx) (i : Nat) : Bool := decide (i < copyNextBitmapSizeInBit) && bit r.bitmap i

theorem memoryBit {r i} (inside : i < copyNextBitmapSizeInBit) : bit (memory r) i = persisted r i := by
  have other : i / 64 ≠ copyNextBitmapSizeInBit / 64 := by
    unfold copyNextBitmapSizeInBit at *
    omega
  simp [bit,memory,store,other,persisted,inside]

@[simp] theorem persistedNone (i) : persisted initRctx i = false := by simp [persisted,initRctx]

theorem persistedInside {r i} (set : persisted r i = true) : i < copyNextBitmapSizeInBit :=
  of_decide_eq_true (Bool.and_eq_true_iff.mp set).1

theorem setBit {r r' a q} (near : q < a + copyNextBitmapSizeInBit) (h : setLogPersistedBit r a q = some r') :
    a ≤ q ∧ ∃ bitmap, r' = { r with bitmap } ∧ ∀ i, persisted { r with bitmap } i = (persisted r i || decide (i = q - a)) := by
  obtain ⟨above,h⟩ := Option.ite_none_right_eq_some.mp h
  rw [if_pos (by omega)] at h
  cases h
  refine ⟨above.1,_,rfl,fun i => ?_⟩
  by_cases inside : i < copyNextBitmapSizeInBit
  · simp only [persisted,inside,decide_true,Bool.true_and,bitmapSetBit]
    congr 1
    rw [decide_eq_decide]
    omega
  · have other : i ≠ q - a := by omega
    simp [persisted,inside,other]

theorem allSetBits {r a f} (near : f ≤ a + copyNextBitmapSizeInBit) :
    AllSet r a f ↔ a ≤ f ∧ ∀ i < f - a, persisted r i = true := by
  rw [AllSet,bitmapWeightFull]
  refine and_congr_right fun _ => forall₂_congr fun i below => ?_
  rw [memoryBit (by omega)]

/- With room for the eight positions the shift reads nothing behind the array. -/
theorem shiftBit {r : Rctx} {a f : Nat} (near : f + 8 < a + copyNextBitmapSizeInBit) (low : a ≤ f) (i : Nat) :
    persisted (shiftBehind r a f) i =
      if i < 64 * ((f - a + 1 + 8 + 63) / 64) then decide (i < 8) && persisted r (i + (f - a + 1)) else persisted r i := by
  by_cases inside : i < copyNextBitmapSizeInBit
  · have width : i + (f - a + 1) < f - a + 1 + 8 ↔ i < 8 := by omega
    rw [persisted,shiftBehind,bitmapShiftRightBit _ _ _ _ (by omega),decide_eq_true inside,Bool.true_and]
    simp only [width]
    split
    · by_cases first : i < 8
      · rw [memoryBit (by omega)]
      · simp [first]
    · exact memoryBit inside
  · have outside : ¬i < 64 * ((f - a + 1 + 8 + 63) / 64) := by
      unfold copyNextBitmapSizeInBit at *
      omega
    simp [persisted,inside,outside]

structure State where
  rctx : Rctx
  recorded : List Nat
  fsynced : List Nat

def init : State := ⟨initRctx,[],[]⟩

inductive Action where
  | set (seqn : Nat)
  | fsync (seqn : Nat)
  deriving DecidableEq

def step (s : State) : Action → Option State
  | .set q =>
    if q ∉ s.recorded ∧ q ∉ s.fsynced then
      (setLogPersistedBit s.rctx s.rctx.startSeqn q).map fun rctx => { s with rctx, recorded := q::s.recorded }
    else none
  | .fsync f =>
    if f ∉ s.recorded ∧ f ∉ s.fsynced ∧ (allPreviousLogPersistedBitsSet s.rctx f).1 = true then
      some { s with rctx := (allPreviousLogPersistedBitsSet s.rctx f).2, fsynced := f::s.fsynced }
    else none

/- Every operation stays inside the array, and when an fsync check succeeds no sequence number more than
eight above it has been recorded yet. -/
def Near (s : State) : Action → Prop
  | .set q => q < s.rctx.startSeqn + copyNextBitmapSizeInBit
  | .fsync f => f + 8 < s.rctx.startSeqn + copyNextBitmapSizeInBit ∧ ∀ q ∈ s.recorded, q ≤ f + 8
instance (s a) : Decidable (Near s a) := by cases a <;> unfold Near <;> infer_instance

def Faithful (s : State) : Prop :=
  ∀ i, persisted s.rctx i = true ↔ s.rctx.startSeqn + i ∈ s.recorded

theorem fsyncExact {s t f} (h : step s (.fsync f) = some t) : AllSet s.rctx s.rctx.startSeqn f ∧
    t = { s with rctx := shiftBehind s.rctx s.rctx.startSeqn f, fsynced := f::s.fsynced } := by
  obtain ⟨allowed,h⟩ := Option.ite_none_right_eq_some.mp h
  by_cases full : AllSet s.rctx s.rctx.startSeqn f
  · simp only [allPreviousLogPersistedBitsSet,if_pos full] at h
    exact ⟨full,(Option.some.inj h).symm⟩
  · simp [allPreviousLogPersistedBitsSet,full] at allowed

theorem stepFaithful {s a t} (before : Faithful s) (near : Near s a) (h : step s a = some t) : Faithful t := by
  cases a with
  | set q =>
    obtain ⟨_,recorded⟩ := Option.ite_none_right_eq_some.mp h
    obtain ⟨rctx,set,rfl⟩ := Option.map_eq_some_iff.mp recorded
    obtain ⟨low,_,rfl,bits⟩ := setBit near set
    intro i
    have place : i = q - s.rctx.startSeqn ↔ s.rctx.startSeqn + i = q := by omega
    rw [bits,Bool.or_eq_true,before i,decide_eq_true_iff,List.mem_cons,place]
    exact or_comm
  | fsync f =>
    obtain ⟨room,near⟩ := near
    obtain ⟨full,rfl⟩ := fsyncExact h
    have none (q : Nat) (far : f + 8 < q) : q ∉ s.recorded := fun mem => absurd (near q mem) (by omega)
    intro i
    have place : s.rctx.startSeqn + (i + (f - s.rctx.startSeqn + 1)) = f + 1 + i := by have := full.1; omega
    rw [shiftBit room full.1,shiftStart]
    split
    · rw [Bool.and_eq_true,before,place,decide_eq_true_iff]
      refine ⟨And.right,fun mem => ⟨?_,mem⟩⟩
      by_contra far
      exact none _ (by omega) mem
    · rw [before]
      exact ⟨fun mem => absurd mem (none _ (by omega)),fun mem => absurd mem (none _ (by omega))⟩

theorem nearFaithful {s} (run : Reach step Near init s) : Faithful s :=
  reachInvariant Faithful (fun i => by simp [init]) (fun _ _ _ => stepFaithful) run

def PredecessorsRecorded (s : State) (f : Nat) : Prop :=
  s.rctx.startSeqn ≤ f ∧ ∀ q, s.rctx.startSeqn ≤ q → q < f → q ∈ s.recorded

theorem nearCheckReturns {s f} (run : Reach step Near init s) (recorded : PredecessorsRecorded s f) :
    (allPreviousLogPersistedBitsSet s.rctx f).1 = true := by
  have bits (i : Nat) (below : i < f - s.rctx.startSeqn) : persisted s.rctx i = true :=
    (nearFaithful run i).mpr (recorded.2 _ (by omega) (by omega))
  -- What is recorded is inside the array, so the check counts nothing behind it.
  have inside : f ≤ s.rctx.startSeqn + copyNextBitmapSizeInBit := by
    by_contra far
    exact absurd (persistedInside (bits copyNextBitmapSizeInBit (by omega))) (by omega)
  simp only [allPreviousLogPersistedBitsSet,if_pos ((allSetBits inside).mpr ⟨recorded.1,bits⟩)]

def complete (s : State) (f : Nat) : Bool :=
  s.rctx.startSeqn ≤ f && (List.range f).all fun q => q < s.rctx.startSeqn || q ∈ s.recorded

theorem completeRecorded {s f} (h : complete s f = true) : PredecessorsRecorded s f := by
  simp only [complete,Bool.and_eq_true,decide_eq_true_eq,List.all_eq_true,Bool.or_eq_true,List.mem_range] at h
  refine ⟨h.1,fun q low below => ?_⟩
  rcases h.2 q below with early | mem
  · omega
  · exact mem

theorem nearCheckReturnsEleven : ∃ s, PredecessorsRecorded s 11 ∧ (allPreviousLogPersistedBitsSet s.rctx 11).1 = true := by
  obtain ⟨s,reached,recorded⟩ : ∃ s, Reach step Near init s ∧ complete s 11 = true :=
    traceReach ([2,1,4,5,10].map .set ++ [.fsync 3] ++ [9,6,8,7].map .set) (by decide +kernel)
  exact ⟨s,completeRecorded recorded,nearCheckReturns reached (completeRecorded recorded)⟩

def farAhead : List Action := [.set 21,.fsync 1] ++ (List.range' 2 19).map .set

theorem checkNeverReturns : ¬∀ s f, Reach step Any init s → PredecessorsRecorded s f →
    (allPreviousLogPersistedBitsSet s.rctx f).1 = true := by
  intro claim
  obtain ⟨s,reached,bad⟩ : ∃ s, Reach step Any init s ∧ (complete s 22 && !(allPreviousLogPersistedBitsSet s.rctx 22).1) = true :=
    traceAny farAhead (by decide +kernel)
  simp only [Bool.and_eq_true,Bool.not_eq_true'] at bad
  have returns := claim s 22 reached (completeRecorded bad.1)
  exact Bool.false_ne_true (bad.2.symm.trans returns)

end LineFS.CopyLog
