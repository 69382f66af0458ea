import Mathlib.Tactic.Linarith

/-! Constants of the NIC-offload build, with the values of `mlfs_config.sh`, and the size of one
write transaction in log blocks: `mlfs_file_write` logs an unaligned head, an aligned body and an
unaligned tail under one log header, and `compute_log_blocks` counts their blocks. -/
namespace LineFS

def gBlockSizeBytes : Nat := 4096
def gLogSize : Nat := 131072
def logPrefetchThreshold : Nat := 1024
def hostMemcpyBatchMax : Nat := 30
def threadNumLogPrefetch : Nat := 1
def threadNumCoalesce : Nat := 1
def threadNumFsync : Nat := 1
def threadNumLoghdrBuild : Nat := 1
def threadNumLoghdrFetch : Nat := 1
def threadNumBuildMemcpyList : Nat := 1
def maxWriteBytes : Nat := 16384 * 1024

def align (x : Nat) : Nat := (x + (gBlockSizeBytes - 1)) / gBlockSizeBytes * gBlockSizeBytes

structure Portions where
  prepended : Nat
  aligned : Nat
  appended : Nat
  deriving DecidableEq, Repr

def portions (off n : Nat) : Portions :=
  let offsetEnd := off + n
  let offsetAligned := align off
  if offsetEnd < offsetAligned then ⟨n,0,0⟩
  else
    let prepended := if off < offsetAligned then offsetAligned - off else 0
    let slack := align offsetEnd - offsetEnd
    let appended := if 0 < slack then gBlockSizeBytes - slack else slack
    ⟨prepended,n - prepended - appended,appended⟩

def entryBlocks (size : Nat) : Nat := if size < gBlockSizeBytes then 1 else size / gBlockSizeBytes

def portionBlocks (size : Nat) : Nat := if size = 0 then 0 else entryBlocks size

def writeBlocks (off n : Nat) : Nat :=
  let p := portions off n
  portionBlocks p.prepended + portionBlocks p.aligned + portionBlocks p.appended + 1

-- A write of `maxWriteBytes` from inside a block: the header, 4095 whole blocks and one at either end.
def maxTransaction : Nat := 4098

theorem alignUp (x : Nat) : x ≤ align x ∧ align x < x + gBlockSizeBytes ∧ gBlockSizeBytes ∣ align x := by
  refine ⟨?_,?_,Nat.dvd_mul_left _ _⟩ <;> simp only [align,gBlockSizeBytes] <;> omega

theorem portionsSplit (off n : Nat) : (portions off n).prepended < gBlockSizeBytes ∧
    (portions off n).appended < gBlockSizeBytes ∧
    (portions off n).prepended + (portions off n).aligned + (portions off n).appended = n := by
  have head := alignUp off
  have tail := alignUp (off + n)
  simp only [portions,gBlockSizeBytes] at *
  split_ifs <;> simp only <;> omega

end LineFS
