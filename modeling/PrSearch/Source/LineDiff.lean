import Mathlib
import PrSearch.Lib.EditScript
import PrSearch.Lib.Matching

/-! # The difference of two texts by lines

Equal lines at the start and at the end are paired. Between them a shortest edit script is looked for
within a budget. When there is none, lines that occur once on each side are anchors, and the gaps between
the longest increasing run of anchors are aligned in the same way. Rows are made from the pairs.
-/
namespace PrSearch.Source.Lines

open EditScript (Change)

/-! ### What comes from outside -/

structure DiffOptions where
  timeout : WithTop Int
  maxEditLength : WithTop Int

/-- The answers of `diffArrays` and the readings of the clock, by the number of the call. -/
structure Outside where
  diffArrays : Nat → List Nat → List Nat → DiffOptions → Option (List Change)
  now : Nat → Int

structure DiffBudget where
  timeoutMs : Option (WithTop Int) := none
  maxEditLength : Option (WithTop Int) := none

/-- `EXACT_BUDGET` -/
def exactBudget : DiffOptions := ⟨(2000 : Int), (50000 : Int)⟩

/-- `GAP_BUDGET` -/
def gapBudget : DiffOptions := ⟨(50 : Int), (2000 : Int)⟩

def gapTotalMs : Int := 500

def anchorWorkFactor : Nat := 32

inductive RowKind
  | equal
  | change
  deriving DecidableEq, Repr

/-- A row: a line of each side, or of one side only. -/
structure Row where
  kind : RowKind
  before : Option Nat
  after : Option Nat
  deriving DecidableEq, Repr

structure LineDiff where
  rows : List Row
  approximate : Bool

/-! ### Rows -/

/-- Removed and added lines, paired by their positions. -/
def changeRows (b a removed added : Nat) : List Row :=
  (List.range (max removed added)).map fun j =>
    ⟨.change, if j < removed then some (b + j) else none, if j < added then some (a + j) else none⟩

/-- The rows from line `i` on, when the rows before have come up to `b` and `a`. -/
def rowsFrom (pairs : Matches) (n m : Nat) : Nat → Nat → Nat → Nat → List Row
  | 0, _, b, a => changeRows b a (n - b) (m - a)
  | rest + 1, i, b, a =>
      match pairs i with
      | none => rowsFrom pairs n m rest (i + 1) b a
      | some j =>
          changeRows b a (i - b) (j - a) ++
            ⟨.equal, some i, some j⟩ :: rowsFrom pairs n m rest (i + 1) (i + 1) (j + 1)

def buildRows (pairs : Matches) (n m : Nat) : List Row := rowsFrom pairs n m n 0 0 0

/-! ### Runs of pairs -/

def pairRun : Nat → Nat → Nat → Matches → Matches
  | 0, _, _, pairs => pairs
  | count + 1, b, a, pairs => pairRun count (b + 1) (a + 1) (pairs.place b a)

def recordChanges : List Change → Nat → Nat → Matches → Matches
  | [], _, _, pairs => pairs
  | change :: changes, b, a, pairs =>
      if change.added then recordChanges changes b (a + change.count) pairs
      else if change.removed then recordChanges changes (b + change.count) a pairs
      else recordChanges changes (b + change.count) (a + change.count) (pairRun change.count b a pairs)

/-! ### Anchors -/

/-- The arrays of a fallback, used again for every range. -/
structure Scratch where
  countB : Nat → Nat
  countA : Nat → Nat
  positionA : Nat → Nat
  pairB : Nat → Nat
  pairA : Nat → Nat
  tails : Nat → Nat
  links : Nat → Option Nat
  chain : Nat → Nat

def Scratch.zero : Scratch :=
  ⟨fun _ => 0, fun _ => 0, fun _ => 0, fun _ => 0, fun _ => 0, fun _ => 0, fun _ => some 0,
    fun _ => 0⟩

def cell (lines : List Nat) (i : Nat) : Nat := lines.getD i 0

/-- The places from `start` up to `stop`. -/
def places (start stop : Nat) : List Nat := List.range' start (stop - start)

section Anchors

variable (b a : List Nat)

/-- Adds the lines at these places to the counts. -/
def countLines (lines : List Nat) (places : List Nat) (count : Nat → Nat) : Nat → Nat :=
  places.foldl (fun count i => Function.update count (cell lines i) (count (cell lines i) + 1)) count

def clearLines (lines : List Nat) (places : List Nat) (count : Nat → Nat) : Nat → Nat :=
  places.foldl (fun count i => Function.update count (cell lines i) 0) count

def notePositions (lines : List Nat) (places : List Nat) (position : Nat → Nat) : Nat → Nat :=
  places.foldl (fun position j => Function.update position (cell lines j) j) position

/-- The lines that are there once on each side: how many pairs there are, and the pairs. -/
def collectPairs (scratch : Scratch) (places : List Nat) : Nat × (Nat → Nat) × (Nat → Nat) :=
  places.foldl (fun found i =>
    if scratch.countB (cell b i) = 1 ∧ scratch.countA (cell b i) = 1 then
      (found.1 + 1, Function.update found.2.1 found.1 i,
        Function.update found.2.2 found.1 (scratch.positionA (cell b i)))
    else found) (0, scratch.pairB, scratch.pairA)

/-- Where a value goes: behind the tails that are smaller. -/
def lowerBound (values tails : Nat → Nat) (value : Nat) : Nat → Nat → Nat → Nat
  | 0, low, _ => low
  | fuel + 1, low, high =>
      if low < high then
        let middle := (low + high) / 2
        if values (tails middle) < value then lowerBound values tails value fuel (middle + 1) high
        else lowerBound values tails value fuel low middle
      else low

/-- The tails of the increasing runs so far, and the one before each. -/
structure Piles where
  length : Nat
  tails : Nat → Nat
  links : Nat → Option Nat

def addToPiles (values : Nat → Nat) (piles : Piles) (i : Nat) : Piles :=
  let low := lowerBound values piles.tails (values i) piles.length 0 piles.length
  { length := if low = piles.length then piles.length + 1 else piles.length
    tails := Function.update piles.tails low i
    links := Function.update piles.links i (if 0 < low then some (piles.tails (low - 1)) else none) }

/-- Follows the links back from the last one of a run. -/
def unwind (links : Nat → Option Nat) : Nat → Nat → (Nat → Nat) → Nat → Nat
  | 0, _, chain => chain
  | t + 1, index, chain => unwind links t ((links index).getD 0) (Function.update chain t index)

/-- The length of the run that is found, and the arrays it leaves. -/
def longestIncreasing (values : Nat → Nat) (count : Nat) (scratch : Scratch) : Nat × Scratch :=
  let piles := (List.range count).foldl (addToPiles values) ⟨0, scratch.tails, scratch.links⟩
  (piles.length, { scratch with
    tails := piles.tails
    links := piles.links
    chain := unwind piles.links piles.length (piles.tails (piles.length - 1)) scratch.chain })

/-! ### Ranges -/

variable (offset : Nat)

/-- Pairs equal lines at the start of a range. -/
def trimStart : Nat → Box → Matches → Box × Matches
  | 0, box, pairs => (box, pairs)
  | fuel + 1, box, pairs =>
      if box.b0 < box.b1 ∧ box.a0 < box.a1 ∧ cell b box.b0 = cell a box.a0 then
        trimStart fuel { box with b0 := box.b0 + 1, a0 := box.a0 + 1 }
          (pairs.place (offset + box.b0) (offset + box.a0))
      else (box, pairs)

/-- Pairs equal lines at its end. -/
def trimEnd : Nat → Box → Matches → Box × Matches
  | 0, box, pairs => (box, pairs)
  | fuel + 1, box, pairs =>
      if box.b0 < box.b1 ∧ box.a0 < box.a1 ∧ cell b (box.b1 - 1) = cell a (box.a1 - 1) then
        trimEnd fuel { box with b1 := box.b1 - 1, a1 := box.a1 - 1 }
          (pairs.place (offset + (box.b1 - 1)) (offset + (box.a1 - 1)))
      else (box, pairs)

/-- The pairs and the ranges to come, and how far the anchors have come. -/
structure Gaps where
  pairs : Matches
  stack : List Box
  previousB : Nat
  previousA : Nat

def addGap (b1 a1 : Nat) (gaps : Gaps) : List Box :=
  if gaps.previousB < b1 ∧ gaps.previousA < a1 then
    ⟨gaps.previousB, b1, gaps.previousA, a1⟩ :: gaps.stack
  else gaps.stack

def addAnchor (scratch : Scratch) (gaps : Gaps) (t : Nat) : Gaps :=
  let anchorB := scratch.pairB (scratch.chain t)
  let anchorA := scratch.pairA (scratch.chain t)
  ⟨gaps.pairs.place (offset + anchorB) (offset + anchorA), addGap anchorB anchorA gaps, anchorB + 1,
    anchorA + 1⟩

/-- `calls`: how often the clock has been read and `diffArrays` called. -/
structure AlignState where
  pairs : Matches
  stack : List Box
  work : Nat
  scratch : Scratch
  calls : Nat

/-- The counts of a range. -/
def countRange (box : Box) (scratch : Scratch) : Scratch :=
  { scratch with
    countB := countLines b (places box.b0 box.b1) scratch.countB
    countA := countLines a (places box.a0 box.a1) scratch.countA
    positionA := notePositions a (places box.a0 box.a1) scratch.positionA }

def clearRange (box : Box) (scratch : Scratch) : Scratch :=
  { scratch with
    countB := clearLines b (places box.b0 box.b1) scratch.countB
    countA := clearLines a (places box.a0 box.a1) scratch.countA }

def slice (lines : List Nat) (start stop : Nat) : List Nat := (lines.drop start).take (stop - start)

variable (outside : Outside) (workCap : Nat) (gapDeadline : Int)

/-- A range without anchors: a small exact diff, if there is a common line and time is left. -/
def alignGap (box : Box) (common : Bool) (s : AlignState) : AlignState :=
  let remaining := gapDeadline - outside.now s.calls
  if !common || remaining ≤ 0 then { s with calls := s.calls + 1 }
  else
    match outside.diffArrays (s.calls + 1) (slice b box.b0 box.b1) (slice a box.a0 box.a1)
        { gapBudget with timeout := min gapBudget.timeout remaining } with
    | none => { s with calls := s.calls + 2 }
    | some changes =>
        { s with
          pairs := recordChanges changes (offset + box.b0) (offset + box.a0) s.pairs
          calls := s.calls + 2 }

/-- A range with anchors: the gaps between them are ranges to come. -/
def alignAnchors (box : Box) (count : Nat) (s : AlignState) : AlignState :=
  let (anchors, scratch) := longestIncreasing s.scratch.pairA count s.scratch
  let gaps := (List.range anchors).foldl (addAnchor offset scratch) ⟨s.pairs, s.stack, box.b0, box.a0⟩
  { s with
    pairs := gaps.pairs
    stack := addGap box.b1 box.a1 gaps
    scratch := scratch }

/-- A range that is trimmed and within the cap of the work. -/
def alignRange (box : Box) (s : AlignState) : AlignState :=
  let counted := countRange b a box s.scratch
  let common := (places box.b0 box.b1).any fun i => 0 < counted.countA (cell b i)
  let (count, pairB, pairA) := collectPairs b counted (places box.b0 box.b1)
  let s := { s with
    scratch := { clearRange b a box counted with
      pairB := pairB
      pairA := pairA } }
  if count = 0 then alignGap b a offset outside gapDeadline box common s
  else alignAnchors offset box count s

def alignStep (box : Box) (s : AlignState) : AlignState :=
  let (box, pairs) := trimStart b a offset (box.b1 - box.b0) box s.pairs
  let (box, pairs) := trimEnd b a offset (box.b1 - box.b0) box pairs
  let s := { s with pairs := pairs }
  if box.b0 = box.b1 ∨ box.a0 = box.a1 then s
  else
    let work := s.work + (box.b1 - box.b0 + (box.a1 - box.a0))
    let s := { s with work := work }
    if workCap < work then s else alignRange b a offset outside gapDeadline box s

/-- The loop over the stack; every turn needs a line of the first side. -/
def alignLoop : Nat → AlignState → AlignState
  | 0, s => s
  | fuel + 1, s =>
      match s.stack with
      | [] => s
      | box :: rest =>
          alignLoop fuel (alignStep b a offset outside workCap gapDeadline box { s with stack := rest })

end Anchors

def anchorAlign (outside : Outside) (b a : List Nat) (offset : Nat) (pairs : Matches) (calls : Nat) :
    AlignState :=
  alignLoop b a offset outside (anchorWorkFactor * (b.length + a.length))
    (outside.now calls + gapTotalMs) b.length
    ⟨pairs, [⟨0, b.length, 0, a.length⟩], 0, .zero, calls + 1⟩

/-! ### The whole -/

section Whole

variable {L : Type*} [DecidableEq L]

/-- Lines become integers, in the order in which they come. -/
def intern : List L → List L → List L × List Nat
  | ids, [] => (ids, [])
  | ids, line :: lines =>
      if line ∈ ids then
        let (known, out) := intern ids lines
        (known, ids.idxOf line :: out)
      else
        let (known, out) := intern (ids ++ [line]) lines
        (known, ids.length :: out)

def multisetDistance (b a : List Nat) (idCount : Nat) : Nat :=
  let removed := b.foldl (fun balance id => Function.update balance id (balance id + 1))
    (fun _ => (0 : Int))
  let balance := a.foldl (fun balance id => Function.update balance id (balance id - 1)) removed
  (List.range idCount).foldl (fun total id => total + (balance id).natAbs) 0

-- The comparison that can be run, also where the numbers are known as a complete order.
instance (priority := high) decidableLimit : DecidableLE (WithTop Int) :=
  @WithTop.decidableLE Int Int.instLEInt Int.decLe

/-- Aligns what is between the first and the last lines: whether the exact pass has done it, and the
pairs. -/
def alignMiddle (outside : Outside) (before after : List L) (start : Nat) (pairs : Matches)
    (budget : DiffBudget) : Bool × Matches :=
  let (ids, b) := intern [] before
  let (ids, a) := intern ids after
  let maxEditLength := budget.maxEditLength.getD exactBudget.maxEditLength
  let timeout := budget.timeoutMs.getD exactBudget.timeout
  if ((multisetDistance b a ids.length : Int) : WithTop Int) ≤ maxEditLength then
    match outside.diffArrays 0 b a ⟨timeout, maxEditLength⟩ with
    | some changes => (true, recordChanges changes start start pairs)
    | none => (false, (anchorAlign outside b a start pairs 1).pairs)
  else (false, (anchorAlign outside b a start pairs 0).pairs)

/-- How many lines are equal at the start. -/
def commonPrefix : List L → List L → Nat
  | x :: xs, y :: ys => if x = y then commonPrefix xs ys + 1 else 0
  | _, _ => 0

/-- The pairs of the lines that are equal at the start and at the end. -/
def endPairs (first last n m : Nat) : Matches := fun i =>
  if i < first then some i else if n - last ≤ i ∧ i < n then some (m - (n - i)) else none

def diffLineArrays (outside : Outside) (before after : List L) (budget : DiffBudget) : LineDiff :=
  let n := before.length
  let m := after.length
  let first := commonPrefix before after
  let last := commonPrefix (before.drop first).reverse (after.drop first).reverse
  let pairs := endPairs first last n m
  if 0 < n - first - last ∧ 0 < m - first - last then
    let middle := alignMiddle outside ((before.drop first).take (n - last - first))
      ((after.drop first).take (m - last - first)) first pairs budget
    ⟨buildRows middle.2 n m, !middle.1⟩
  else ⟨buildRows pairs n m, false⟩

end Whole

end PrSearch.Source.Lines
