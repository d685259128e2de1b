import FsMeta.Chain.Block
import FsMeta.Chain.Removal

set_option autoImplicit false

namespace FsMeta

namespace Chain

def fits (n : Int) : Bool := Int64.minValue.toInt ≤ n && n ≤ Int64.maxValue.toInt

-- The sum of the sizes from the front; none if it leaves the range of a size on the way.
def total? : (total : Int64) → List ChainBlock → Option Int64
  | total, [] => some total
  | total, head :: rest =>
    if fits (total.toInt + head.block.numberBytes.toInt) then total? (total + head.block.numberBytes) rest
    else none

structure Cut where
  last : ChainBlock
  residual : Int64
  dropped : List ChainBlock
  deriving Repr, DecidableEq

-- No sum leaves the range of a size here, because none did when all were added up.
def cut? (size : Int64) : (cumulative : Int64) → List ChainBlock → Option Cut
  | _, [] => none
  | before, head :: rest =>
    let cumulative := before + head.block.numberBytes
    if size ≤ cumulative then some { last := head, residual := size - before, dropped := rest }
    else cut? size cumulative rest

def shorten (file : Int64) (last : ChainBlock) (residual : Int64) : Scoped Unit := do
  let terminal : FileBlock :=
    { blockId := last.block.id, numberBytes := residual, nextBlockId := 0 }
  if terminal ≠ last.entry then putEntry file last.index terminal
  if last.block.numberBytes ≠ residual then
    Scoped.put (Key.blockMeta last.block.id).bytes
      { last.block.info with numberBytes := residual }

def truncate (file size : Int64) : Scoped Unit := do
  if size < 0 then throw (.invalid s!"truncate size {size} is negative")
  let chain ← resolved file
  let some total := total? 0 chain | throw (.corrupted s!"file {file} size overflows i64")
  if total < size then
    throw (.invalid s!"cannot truncate file {file} of {total} bytes to {size} bytes")
  if size = 0 then chain.forM fun entry => remove file entry.toChainEntry
  else
    let some cut := cut? size 0 chain
      | throw (.corrupted s!"file {file} chain sizes do not add up")
    cut.dropped.forM fun entry => remove file entry.toChainEntry
    shorten file cut.last cut.residual

end Chain

end FsMeta
