import Ucore.Mm.Pages

/- lab2/kern/mm/buddy_pmm.c. The tree is kept in an array of nodes, numbered as a binary
   heap; the sizes in it are `unsigned char` and never pass 63. Page descriptors are
   known by their index, NULL is `none` among the results. -/
namespace Ucore.BuddyPmm
open Words

structure Node where
  leftMax : Nat
  rightMax : Nat
  deriving DecidableEq, Repr

abbrev Nodes := Nat → Node

structure State where
  binaryTreeRoot : Nat
  totalSize : Nat
  pages : Pages
  nodes : Nodes

def leftLeaf (index : Nat) : Nat := index <<< 1 ||| 1
def rightLeaf (index : Nat) : Nat := (index + 1) <<< 1
def parent (index : Nat) : Nat := (index + 1) >>> 1 - 1
def isPowerOf2 (x : Nat) : Bool := x &&& (x - 1) = 0

/- Halvings of an `int`: 31 of them leave none above 1. -/
def log2Loop : Nat → Int → Nat → Nat
  | 0, _, i => i
  | fuel + 1, x, i => if x > 1 then log2Loop fuel (x >>> (1 : Nat)) (i + 1) else i

def log2 (x : Int) : Nat := log2Loop 31 (i32 x) 0

def smear (size k : Nat) : Nat := size ||| size >>> k

def fixsize (size : Nat) : Nat :=
  u32 (smear (smear (smear (smear (smear size 1) 2) 4) 8) 16 + 1 : Nat)

/- What `buddy_alloc_pages` and `buddy_free_pages` make of their `size_t n`. -/
def roundUp (n : Nat) : Nat := if isPowerOf2 n then n else fixsize (u32 n)

/- The loop of `get_index`: its size halves, so that a loop of more than 32 steps never ends. -/
def getIndexLoop : Nat → Nat → Int → Int → Int → Option Nat
  | 0, _, _, _, _ => none
  | fuel + 1, index, offset, property, totSize =>
      if totSize > property then
        let half := totSize >>> (1 : Nat)
        if offset < half then getIndexLoop fuel (leftLeaf index) offset property half
        else getIndexLoop fuel (rightLeaf index) (offset - half) property half
      else some index

def getIndex (offset property totSize : Int) : Option Nat :=
  getIndexLoop 33 0 (i32 offset) (i32 property) (i32 totSize)

/- The node loop of `buddy_init_memmap`, `k` nodes from `i` on. -/
def initTree (nodes : Nodes) (blockSize i : Nat) : Nat → Nodes
  | 0 => nodes
  | k + 1 =>
      let blockSize := if isPowerOf2 (i + 1) then blockSize - 1 else blockSize
      initTree (Function.update nodes i ⟨blockSize, blockSize⟩) blockSize (i + 1) k

def buddyInitMemmap (s : State) (base n : Nat) : Option State :=
  if n = 0 then none
  else do
    let n := if isPowerOf2 n then n else fixsize (u32 n) >>> 1
    let pages ← initPages s.pages base n
    let treeSize := i32 (2 * n - 1)
    some { binaryTreeRoot := base, totalSize := u32 n, pages,
           nodes := initTree s.nodes (log2 n + 1) 0 treeSize.toNat }

/- The search from the root: the size reached, the node and its offset. -/
def descend (nodes : Nodes) (log2n : Nat) : Nat → Nat → Nat → Nat × Nat × Nat
  | 0, index, offset => (0, index, offset)
  | blockSize + 1, index, offset =>
      if blockSize + 1 > log2n then
        if (nodes index).rightMax ≥ log2n then
          descend nodes log2n blockSize (rightLeaf index) (offset + 1 <<< (blockSize - 1))
        else if (nodes index).leftMax ≥ log2n then
          descend nodes log2n blockSize (leftLeaf index) offset
        else (blockSize + 1, index, offset)
      else (blockSize + 1, index, offset)

/- The way back up of an allocation. A parent has a smaller index, so that `index` steps
   are enough. -/
def ascendAlloc : Nat → Nodes → Nat → Nat → Nodes
  | 0, nodes, _, _ => nodes
  | fuel + 1, nodes, index, maxn =>
      if index > 0 then
        let pnode := nodes (parent index)
        if index = leftLeaf (parent index) then
          ascendAlloc fuel (Function.update nodes (parent index) { pnode with leftMax := maxn })
            (parent index) (max maxn pnode.rightMax)
        else
          ascendAlloc fuel (Function.update nodes (parent index) { pnode with rightMax := maxn })
            (parent index) (max maxn pnode.leftMax)
      else nodes

/- The way back up of a release. -/
def ascendFree : Nat → Nodes → Nat → Nat → Nat → Nodes
  | 0, nodes, _, _, _ => nodes
  | fuel + 1, nodes, index, blockSize, maxn =>
      if index > 0 then
        let pnode :=
          if index = leftLeaf (parent index) then { nodes (parent index) with leftMax := maxn }
          else { nodes (parent index) with rightMax := maxn }
        let maxn :=
          if pnode.rightMax = blockSize ∧ pnode.leftMax = blockSize then blockSize + 1
          else max pnode.rightMax pnode.leftMax
        ascendFree fuel (Function.update nodes (parent index) pnode) (parent index)
          (blockSize + 1) maxn
      else nodes

def buddyAllocPages (s : State) (n : Nat) : Option (Option Nat × State) :=
  if n = 0 then none
  else
    let n := roundUp n
    if n > s.totalSize then some (none, s)
    else
      let log2n := log2 n + 1
      let (blockSize, index, offset) := descend s.nodes log2n (log2 s.totalSize + 1) 0 0
      if blockSize > log2n then some (none, s)
      else
        let ret := s.binaryTreeRoot + offset
        let nodes := Function.update s.nodes index ⟨0, 0⟩
        some (some ret, { s with
          pages := s.pages.setProperty ret ((1 <<< (blockSize - 1) : Nat) : Int)
          nodes := ascendAlloc index nodes index 0 })

def buddyFreePages (s : State) (base n : Nat) : Option State :=
  if n = 0 then none
  else do
    let n := roundUp n
    let pages ← releasePages s.pages base n
    let index ← getIndex (base - s.binaryTreeRoot) n s.totalSize
    let blockSize := log2 n + 1
    let nodes := Function.update s.nodes index ⟨blockSize - 1, blockSize - 1⟩
    some { s with
      pages := pages.setProperty base 0
      nodes := ascendFree index nodes index blockSize blockSize }

/- What `nr_free_pages` of the manager is. -/
def buddyTotalSizePages (s : State) : Nat := s.totalSize

end Ucore.BuddyPmm
