import LineFS.ExtentMap

/-! The requests of a digest to the extent trees. `Kernfs` keeps a tree as the map it represents, and a map
answers every request. The tree of the source answers as its map does if the request fits. -/
namespace LineFS.TreeRequests
open Base Kernfs
open Extents (Tree Fitting Answers extMaxBlocks)

variable {σ : Type}

structure Request (σ : Type) where
  space : σ
  ext : Nat → Option Nat
  lblk : Nat
  len : Nat

def Request.Fits (r : Request σ) : Prop := Fitting r.ext r.lblk r.len ∧ r.lblk + r.len ≤ extMaxBlocks
instance (r : Request σ) : Decidable r.Fits := inferInstanceAs (Decidable (_ ∧ _))

def Request.Carried (A : Allocator σ) (r : Request σ) : Prop :=
  ∀ t : Tree, Extents.Sound t → t.map = r.ext → ∃ g, Extents.mlfsExtGetBlocks A r.space t r.lblk r.len true = some g ∧
    Extents.Sound g.tree ∧ Answers A r.space r.ext r.lblk r.len g

theorem fitsCarried {A : Allocator σ} {used : σ → Nat → Prop} (law : Lawful A used) {r : Request σ} (fits : r.Fits) : r.Carried A := by
  rintro t sound map
  obtain ⟨fitting,inside⟩ := fits
  rw [← map] at fitting ⊢
  exact Extents.treeAnswers law r.space sound fitting inside

section Digest
variable (A : Allocator σ)

-- The requests of `digestBlocks`, round by round.
def ofBlocks : Nat → σ → (Nat → Option Nat) → Nat → Nat → List (Request σ)
  | _, _, _, _, 0 => []
  | 0, _, _, _, _ => []
  | rounds + 1, space, ext, curOffset, left + 1 =>
    if curOffset % gBlockSizeBytes ≠ 0 then []
    else
      let lblk := curOffset / gBlockSizeBytes
      let m := mlfsExtGetBlocks A space ext lblk (left + 1)
      ⟨space,ext,lblk,left + 1⟩::if m.len = 0 ∨ left + 1 < m.len then []
        else ofBlocks rounds m.space m.ext (curOffset + m.len * gBlockSizeBytes) (left + 1 - m.len)

def ofFile (space : σ) (ext : Nat → Option Nat) (offset length : Nat) : List (Request σ) :=
  let nrBlocks := getBlkCntFromLength length
  let offsetInBlock := offset % gBlockSizeBytes
  if length < gBlockSizeBytes ∨ offsetInBlock ≠ 0 then
    let len := min length (gBlockSizeBytes - offsetInBlock)
    let m := mlfsExtGetBlocks A space ext (offset / gBlockSizeBytes) 1
    ⟨space,ext,offset / gBlockSizeBytes,1⟩::ofBlocks A nrBlocks m.space m.ext (offset + len) (nrBlocks - 1)
  else ofBlocks A nrBlocks space ext offset nrBlocks

def ofOp (fs : Fs σ) : Op → List (Request σ)
  | .file inum offset length _ => ((fs.inode inum).map fun ino => ofFile A fs.space ino.ext offset length).getD []
  | _ => []

def ofOps (area : Nat → Dinode) : Digest σ → List Op → List (Request σ)
  | _, [] => []
  | d, op::ops => ofOp A d.fs op ++ ((digestOp A area d op).map fun d => ofOps area d ops).getD []

end Digest

end LineFS.TreeRequests
