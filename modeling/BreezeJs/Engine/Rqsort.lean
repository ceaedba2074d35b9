import BreezeJs.Library.Segments
import BreezeJs.Library.Yields

set_option autoImplicit false

namespace BreezeJs.Rqsort

-- Pointers are places counted in elements from the start of the array, and `s.ctx` is what `cmp` may
-- read and change through `opaque`. An access outside of the array is a fault.

structure Sorting (σ α : Type) where
  ctx : σ
  base : Array α

variable {σ α : Type} (cmp : σ → α → α → Int × σ)

def compare (i j : Nat) (s : Sorting σ α) : Option (Int × Sorting σ α) :=
  match s.base[i]?, s.base[j]? with
  | some x, some y =>
      let (c, ctx) := cmp s.ctx x y
      some (c, { s with ctx })
  | _, _ => none

def swap (i j : Nat) (s : Sorting σ α) : Option (Sorting σ α) :=
  if inside : i < s.base.size ∧ j < s.base.size then
    some { s with base := s.base.swap i j }
  else none

def swapBlock : Nat → Nat → Nat → Sorting σ α → Option (Sorting σ α)
  | _, _, 0, s => some s
  | i, j, span + 1, s => do
      let s ← swap i j s
      swapBlock (i + 1) (j + 1) span s

def greaterChild (ptr n c : Nat) (s : Sorting σ α) : Option (Nat × Sorting σ α) :=
  if c < n - 1 then do
    let (d, s) ← compare cmp (ptr + c) (ptr + (c + 1)) s
    pure (if d ≤ 0 then c + 1 else c, s)
  else some (c, s)

-- The inner loop of `heapsortx`, which stands there twice.
def siftDown (ptr n : Nat) : Nat → Nat → Sorting σ α → Option (Sorting σ α)
  | 0, _, _ => none
  | fuel + 1, r, s =>
      if r * 2 + 1 < n then do
        let (c, s) ← greaterChild cmp ptr n (r * 2 + 1) s
        let (d, s) ← compare cmp (ptr + r) (ptr + c) s
        if 0 < d then
          pure s
        else do
          let s ← swap (ptr + r) (ptr + c) s
          siftDown ptr n fuel c s
      else some s

def buildHeap (ptr n : Nat) : Nat → Sorting σ α → Option (Sorting σ α)
  | 0, s => some s
  | i + 1, s => do
      let s ← siftDown cmp ptr n n i s
      buildHeap ptr n i s

def drainHeap (ptr : Nat) : Nat → Sorting σ α → Option (Sorting σ α)
  | 0, s => some s
  | i + 1, s => do
      let s ← swap ptr (ptr + (i + 1)) s
      let s ← siftDown cmp ptr (i + 1) (i + 1) 0 s
      drainHeap ptr i s

def heapsortx (ptr nmemb : Nat) (s : Sorting σ α) : Option (Sorting σ α) :=
  if 1 < nmemb then do
    let s ← buildHeap cmp ptr nmemb (nmemb / 2) s
    drainHeap cmp ptr (nmemb - 1) s
  else some s

def med3 (a b c : Nat) (s : Sorting σ α) : Option (Nat × Sorting σ α) := do
  let (first, s) ← compare cmp a b s
  let (second, s) ← compare cmp b c s
  if first < 0 then
    if second < 0 then
      pure (b, s)
    else do
      let (third, s) ← compare cmp a c s
      pure (if third < 0 then c else a, s)
  else if 0 < second then
    pure (b, s)
  else do
    let (third, s) ← compare cmp a c s
    pure (if third < 0 then a else c, s)

-- `i`, `lt` and `gt` of the source are `pi`, `plt` and `pgt` counted from `ptr`.
structure Scan where
  pi : Nat
  plt : Nat
  pj : Nat
  pgt : Nat
deriving DecidableEq, Repr

def scanUp (ptr : Nat) : Nat → Scan → Sorting σ α → Option (Scan × Sorting σ α)
  | 0, _, _ => none
  | fuel + 1, p, s =>
      if p.pi < p.pj then do
        let (c, s) ← compare cmp ptr p.pi s
        if 0 < c then
          scanUp ptr fuel { p with pi := p.pi + 1 } s
        else if c = 0 then do
          let s ← swap p.plt p.pi s
          scanUp ptr fuel { p with pi := p.pi + 1, plt := p.plt + 1 } s
        else pure (p, s)
      else some (p, s)

-- The condition of the loop takes `pj` down before it looks at it.
def scanDown (ptr : Nat) : Nat → Scan → Sorting σ α → Option (Scan × Sorting σ α)
  | 0, _, _ => none
  | fuel + 1, p, s =>
      if p.pi < p.pj - 1 then do
        let (c, s) ← compare cmp ptr (p.pj - 1) s
        if c < 0 then
          scanDown ptr fuel { p with pj := p.pj - 1 } s
        else if c = 0 then do
          let s ← swap (p.pgt - 1) (p.pj - 1) s
          scanDown ptr fuel { p with pj := p.pj - 1, pgt := p.pgt - 1 } s
        else pure ({ p with pj := p.pj - 1 }, s)
      else some ({ p with pj := p.pj - 1 }, s)

def scan (ptr : Nat) : Nat → Scan → Sorting σ α → Option (Scan × Sorting σ α)
  | 0, _, _ => none
  | fuel + 1, p, s => do
      let (p, s) ← scanUp cmp ptr (p.pj - p.pi + 1) p s
      let (p, s) ← scanDown cmp ptr (p.pj - p.pi + 1) p s
      if p.pj ≤ p.pi then
        pure (p, s)
      else do
        let s ← swap p.pi p.pj s
        scan ptr fuel { p with pi := p.pi + 1 } s

def gather (ptr top : Nat) (p : Scan) (s : Sorting σ α) : Option (Sorting σ α) := do
  let span := min (p.plt - ptr) (p.pi - p.plt)
  let s ← swapBlock ptr (p.pi - span) span s
  let span := min (top - p.pgt) (p.pgt - p.pi)
  swapBlock p.pi (top - span) span s

def partition (ptr nmemb : Nat) (s : Sorting σ α) : Option (Nat × Nat × Sorting σ α) := do
  let m4 := nmemb / 4
  let top := ptr + nmemb
  let (m, s) ← med3 cmp (ptr + m4) (ptr + 2 * m4) (ptr + 3 * m4) s
  let s ← swap ptr m s
  let (p, s) ← scan cmp ptr nmemb ⟨ptr + 1, ptr + 1, top, top⟩ s
  let s ← gather ptr top p s
  pure (p.pi - p.plt, p.pgt - p.pi, s)

structure Segment where
  ptr : Nat
  nmemb : Nat
  depth : Nat
deriving DecidableEq, Repr

def stackSize : Nat := 50

def push (segment : Segment) (stack : List Segment) : Option (List Segment) :=
  if stack.length < stackSize then some (segment :: stack) else none

def split : Nat → Segment → List Segment → Sorting σ α →
    Option (Segment × List Segment × Sorting σ α)
  | 0, _, _, _ => none
  | fuel + 1, segment, stack, s =>
      if 6 < segment.nmemb then
        if 50 < segment.depth + 1 then do
          let s ← heapsortx cmp segment.ptr segment.nmemb s
          pure (⟨segment.ptr, 0, segment.depth + 1⟩, stack, s)
        else do
          let (lt, gt, s) ← partition cmp segment.ptr segment.nmemb s
          let less : Segment := ⟨segment.ptr, lt, segment.depth + 1⟩
          let greater : Segment := ⟨segment.ptr + segment.nmemb - gt, gt, segment.depth + 1⟩
          if gt < lt then do
            let stack ← push less stack
            split fuel greater stack s
          else do
            let stack ← push greater stack
            split fuel less stack s
      else some (segment, stack, s)

def insert (ptr : Nat) : Nat → Sorting σ α → Option (Sorting σ α)
  | 0, s => some s
  | k + 1, s => do
      let (c, s) ← compare cmp (ptr + k) (ptr + (k + 1)) s
      if 0 < c then do
        let s ← swap (ptr + (k + 1)) (ptr + k) s
        insert ptr k s
      else pure s

def insertionSort (ptr : Nat) : Nat → Nat → Sorting σ α → Option (Sorting σ α)
  | _, 0, s => some s
  | n, left + 1, s => do
      let s ← insert cmp ptr n s
      insertionSort ptr (n + 1) left s

def sortLoop : Nat → List Segment → Sorting σ α → Option (Sorting σ α)
  | _, [], s => some s
  | 0, _ :: _, _ => none
  | fuel + 1, segment :: stack, s => do
      let (segment, stack, s) ← split cmp (segment.nmemb + 1) segment stack s
      let s ← insertionSort cmp segment.ptr 1 (segment.nmemb - 1) s
      sortLoop fuel stack s

def rqsort (s : Sorting σ α) : Option (Sorting σ α) :=
  if s.base.size < 2 then some s
  else sortLoop cmp (s.base.size + 1) [⟨0, s.base.size, 0⟩] s

end BreezeJs.Rqsort
