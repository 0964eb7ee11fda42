/-!
# Consecutive blocks

The parameters of a model are laid out in consecutive blocks, one per modifier name,
and its bins in consecutive blocks, one per channel. A block starts where the blocks
before it end.
-/

namespace BinnedModel

/-- Length of blocks put side by side. -/
def blockTotal (lengths : List Nat) : Nat :=
  lengths.foldr (· + ·) 0

/-- Where consecutive blocks of the given lengths start. -/
def blockStarts (start : Nat) : List Nat → List Nat
  | [] => []
  | n :: ns => start :: blockStarts (start + n) ns

/-- A block starts behind all blocks before it. -/
theorem getElem?_blockStarts (start : Nat) (lengths : List Nat) (i : Nat)
    (h : i < lengths.length) :
    (blockStarts start lengths)[i]? = some (start + blockTotal (lengths.take i)) := by
  induction lengths generalizing start i with
  | nil => simp at h
  | cons n ns ih =>
    cases i with
    | zero => simp [blockStarts, blockTotal]
    | succ i =>
      have h' : i < ns.length := by simpa using h
      simp [blockStarts, blockTotal, ih (start + n) i h', Nat.add_assoc]

end BinnedModel
