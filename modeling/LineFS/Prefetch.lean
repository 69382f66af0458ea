import LineFS.Base.Run
import LineFS.Base.Pool
import LineFS.Config

/-! What a prefetch request covers: `calculate_prefetch_meta` takes a part of the log from the counters of the
peer. -/
namespace LineFS.Prefetch

structure PeerMeta where
  localStart : Nat
  nUnsyncBlk : Nat
  nUnsync : Nat
  nUnsyncUptoEnd : Nat
  deriving DecidableEq, Repr

structure PrefetchArg where
  prefetchStart : Nat
  nPrefetchBlk : Nat
  nPrefetch : Nat
  resetMeta : Bool
  isFsync : Bool
  deriving DecidableEq, Repr

def updatePeerSyncState (p : PeerMeta) (nrLogBlocks : Nat) : PeerMeta :=
  { p with nUnsyncBlk := p.nUnsyncBlk + nrLogBlocks, nUnsync := p.nUnsync + 1 }

def resetPrefetchMeta (logBegin : Nat) (p : PeerMeta) : PeerMeta :=
  { p with localStart := logBegin, nUnsyncUptoEnd := 0 }

-- The first request after a rotation starts over at the begin of the log.
def groupStart (logBegin endBlknr : Nat) (p : PeerMeta) : PeerMeta × Bool :=
  if endBlknr ≠ 0 ∧ endBlknr < p.localStart then (resetPrefetchMeta logBegin p,true) else (p,false)

def takeGroup (p : PeerMeta) (resetMeta isFsync : Bool) (blks n : Nat) : PeerMeta × PrefetchArg :=
  ({ p with localStart := p.localStart + blks, nUnsyncBlk := p.nUnsyncBlk - blks, nUnsync := p.nUnsync - n },
   ⟨p.localStart,blks,n,resetMeta,isFsync⟩)

/- The group ends at `endBlknr` when transactions from before a rotation are still unrequested. The two
assertions guard this case. -/
def calculatePrefetchMeta (logBegin endBlknr : Nat) (p : PeerMeta) (isFsync : Bool) :
    Option (PeerMeta × PrefetchArg) :=
  let g := groupStart logBegin endBlknr p
  if g.1.nUnsyncUptoEnd ≠ 0 then
    if endBlknr ≠ 0 ∧ g.1.localStart < endBlknr then
      some (takeGroup g.1 g.2 isFsync (endBlknr - g.1.localStart + 1) g.1.nUnsyncUptoEnd)
    else none
  else some (takeGroup g.1 g.2 isFsync g.1.nUnsyncBlk g.1.nUnsync)

end LineFS.Prefetch
