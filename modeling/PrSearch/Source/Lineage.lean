import PrSearch.Source.LineRows
import PrSearch.Source.TreePaths

/-! # The lineage of lines

Every line of every revision has a node; a node that an edit has made knows the one it was made from. The
builder keeps the nodes of every 64th revision, and of those in between the runs against the revision
before. The naive lineage keeps the nodes of every revision.

The arrays of nodes and of runs are shared between a builder and its results, so they are on a heap, and
a reference is the number of an array on it. All other arrays are copied when a result is taken.
-/
namespace PrSearch.Source.Lineages

open Lines (LineDiff Row)

abbrev Line := List CodeUnit

/-- The difference of a revision to the one before, by the index of the revision. -/
abbrev Diff := Nat → List Line → List Line → LineDiff

inductive LineageKind
  | baseline
  | added
  | edited
  deriving DecidableEq, Repr

/-- `CHECKPOINT_EVERY` -/
def checkpointEvery : Nat := 64

inductive RunKind
  | equal
  | new
  deriving DecidableEq, Repr

/-- The source of an equal run is a line of the previous revision, that of a new run its first node. -/
structure Run where
  kind : RunKind
  start : Nat
  count : Nat
  source : Nat
  deriving DecidableEq, Repr

/-- The arrays, in the order in which they were allocated. -/
structure Heap where
  nodes : List (List Nat)
  runs : List (List Run)
  deriving DecidableEq

/-- `NO_RUNS` -/
def noRuns : Nat := 0

/-- `NO_RUNS` is there from the start. -/
def Heap.start : Heap := ⟨[], [[]]⟩

/-- `new Int32Array(length)`, as the last array of the heap. -/
def Heap.allocate (heap : Heap) (length : Nat) : Heap :=
  { heap with nodes := heap.nodes ++ [List.replicate length 0] }

/-- `nodes[index] = value` -/
def Heap.write (heap : Heap) (nodes index value : Nat) : Heap :=
  { heap with nodes := heap.nodes.modify nodes fun cells => cells.set index value }

def Heap.cell (heap : Heap) (nodes index : Nat) : Nat := (heap.nodes.getD nodes []).getD index 0

/-- The columns of the nodes. -/
structure NodeTable where
  parent : List (Option Nat)
  revision : List Nat
  line : List Nat
  kind : List LineageKind
  depth : List Nat
  text : List Line
  deriving DecidableEq

structure Lineage where
  revisions : List String
  lineCounts : List Nat
  checkpoints : List Nat
  runs : List Nat
  nodes : NodeTable
  approximatePairs : Nat

/-! ### Reading -/

/-- Writes one value after the other; behind the end nothing is written. -/
def writeFrom {α : Type*} : List α → Nat → List α → List α
  | next, _, [] => next
  | next, start, value :: values => writeFrom (next.set start value) (start + 1) values

/-- `none`: there is no room for an equal run. -/
def applyRun (previous next : List Nat) (run : Run) : Option (List Nat) :=
  match run.kind with
  | .equal =>
      let values := (previous.drop run.source).take run.count
      if run.start + values.length ≤ next.length then some (writeFrom next run.start values) else none
  | .new => some (writeFrom next run.start (List.range' run.source run.count))

def applyRuns (previous : List Nat) (runs : List Run) (length : Nat) : Option (List Nat) :=
  runs.foldlM (applyRun previous) (List.replicate length 0)

/-- The nodes after so many more revisions, from revision `r` on. -/
def nodesFrom (lineage : Lineage) : Nat → Nat → Heap → Nat → Option (Heap × Nat)
  | 0, _, heap, nodes => some (heap, nodes)
  | more + 1, r, heap, nodes => do
      let previous ← heap.nodes[nodes]?
      let runs ← lineage.runs[r]?.bind fun runs => heap.runs[runs]?
      let length ← lineage.lineCounts[r]?
      let next ← applyRuns previous runs length
      nodesFrom lineage more (r + 1) { heap with nodes := heap.nodes ++ [next] } heap.nodes.length

/-- The array of the nodes of a revision; it may be a checkpoint. -/
def nodesAt (heap : Heap) (lineage : Lineage) (revision : Nat) : Option (Heap × Nat) :=
  if lineage.revisions.length ≤ revision then none
  else
    let checkpoint := revision / checkpointEvery
    match lineage.checkpoints[checkpoint]? with
    | none => none
    | some nodes =>
        nodesFrom lineage (revision - checkpoint * checkpointEvery) (checkpoint * checkpointEvery + 1)
          heap nodes

/-- What is in that array. -/
def nodesRead (heap : Heap) (lineage : Lineage) (revision : Nat) : Option (List Nat) :=
  (nodesAt heap lineage revision).bind fun found => found.1.nodes[found.2]?

structure LineEvent where
  sha : String
  line : Nat
  text : Line
  kind : LineageKind
  deriving DecidableEq

def eventAt (lineage : Lineage) (node : Nat) : LineEvent where
  sha := lineage.revisions.getD (lineage.nodes.revision.getD node 0) ""
  line := lineage.nodes.line.getD node 0
  text := lineage.nodes.text.getD node []
  kind := lineage.nodes.kind.getD node .baseline

/-- The events of a node and of those it comes from; `none`: there are more than `fuel`. -/
def eventsFrom (lineage : Lineage) : Nat → Option Nat → Option (List LineEvent)
  | _, none => some []
  | 0, some _ => none
  | fuel + 1, some node => do
      let earlier ← eventsFrom lineage fuel (lineage.nodes.parent.getD node none)
      some (eventAt lineage node :: earlier)

def lineEvents (fuel : Nat) (heap : Heap) (lineage : Lineage) (revision line : Nat) :
    Option (List LineEvent) :=
  match (nodesRead heap lineage revision).bind fun nodes => nodes[line]? with
  | none => some []
  | some node => (eventsFrom lineage fuel (some node)).map List.reverse

/-! ### Nodes -/

/-- The node arrays of a builder: they have room for more than `count` nodes. -/
structure NodeStore where
  parent : List (Option Nat)
  revision : List Nat
  line : List Nat
  kind : List LineageKind
  depth : List Nat
  texts : List Line
  count : Nat
  bytes : Nat

/-- `INITIAL_NODES` -/
def initialNodes : Nat := 1024

/-- `NODE_BYTES` -/
def nodeBytes : Nat := 4 * 4 + 1 + 8

def textBytes (text : Line) : Nat := 2 * text.length + 32

/-- A JSON round trip gives the same string. -/
def detach (text : Line) : Line := text

def NodeStore.start : NodeStore where
  parent := List.replicate initialNodes (some 0)
  revision := List.replicate initialNodes 0
  line := List.replicate initialNodes 0
  kind := List.replicate initialNodes .baseline
  depth := List.replicate initialNodes 0
  texts := []
  count := 0
  bytes := 0

/-- A new array that starts with the old one. -/
def widen {α : Type*} (zero : α) (capacity : Nat) (old : List α) : List α :=
  old ++ List.replicate (capacity - old.length) zero

def NodeStore.grow (store : NodeStore) : NodeStore :=
  let capacity := store.parent.length * 2
  { store with
    parent := widen (some 0) capacity store.parent
    revision := widen 0 capacity store.revision
    line := widen 0 capacity store.line
    kind := widen .baseline capacity store.kind
    depth := widen 0 capacity store.depth }

/-- The depth of a node that is made from another one, or from none. -/
def depthFrom (depth : List Nat) : Option Nat → Nat
  | none => 1
  | some parent => depth.getD parent 0 + 1

def NodeStore.addNode (store : NodeStore) (parent : Option Nat) (revision index : Nat)
    (kind : LineageKind) (text : Line) : Nat × NodeStore :=
  let node := store.count
  let store := if node = store.parent.length then store.grow else store
  (node, {
    parent := store.parent.set node parent
    revision := store.revision.set node revision
    line := store.line.set node (index + 1)
    kind := store.kind.set node kind
    depth := store.depth.set node (depthFrom store.depth parent)
    texts := store.texts ++ [text]
    count := node + 1
    bytes := store.bytes + (nodeBytes + textBytes text) })

/-! ### The builder -/

structure Builder where
  revisions : List String
  lineCounts : List Nat
  checkpoints : List Nat
  runs : List Nat
  store : NodeStore
  previous : List Line
  previousNodes : Nat
  approximatePairs : Nat

def Builder.new (heap : Heap) : Heap × Builder :=
  (heap.allocate 0, ⟨[], [], [], [], .start, [], heap.nodes.length, 0⟩)

/-- A run of one line continues the last run, or it is a run of its own. -/
def pushRun (runs : List Run) (run : Run) : List Run :=
  match runs.getLast? with
  | none => runs ++ [run]
  | some last =>
      if last.kind = run.kind ∧ last.start + last.count = run.start ∧
          last.source + last.count = run.source then
        runs.dropLast ++ [{ last with count := last.count + 1 }]
      else runs ++ [run]

/-- What the loop over the lines of a revision writes. -/
structure RowState where
  heap : Heap
  store : NodeStore
  runs : List Run

section Rows

variable (nodes : Nat)

/-- The lines of the first revision, from `index` on. -/
def addBaseline : Nat → List Line → RowState → RowState
  | _, [], s => s
  | index, line :: lines, s =>
      let (node, store) := s.store.addNode none 0 index .baseline line
      addBaseline (index + 1) lines ⟨s.heap.write nodes index node, store, s.runs⟩

variable (previousNodes revision : Nat) (lines : List Line)

def addRow (s : RowState) (row : Row) : RowState :=
  match row.after with
  | none => s
  | some after =>
      match row.kind with
      | .equal =>
          let before := row.before.getD 0
          { s with
            heap := s.heap.write nodes after (s.heap.cell previousNodes before)
            runs := pushRun s.runs ⟨.equal, after, 1, before⟩ }
      | .change =>
          let text := detach (lines.getD after [])
          let (node, store) :=
            match row.before with
            | some before =>
                s.store.addNode (some (s.heap.cell previousNodes before)) revision after .edited text
            | none => s.store.addNode none revision after .added text
          ⟨s.heap.write nodes after node, store, pushRun s.runs ⟨.new, after, 1, node⟩⟩

end Rows

/-- Bytes of an array of nodes, and of an array of runs. -/
def nodesByteLength (heap : Heap) (nodes : Nat) : Nat := 4 * (heap.nodes.getD nodes []).length

def runsByteLength (heap : Heap) (runs : Nat) : Nat := 16 * (heap.runs.getD runs []).length

/-- Keeps the nodes of a checkpoint, and the runs of the other revisions. -/
def keepRevision (revision nodes : Nat) (s : RowState) (b : Builder) : Heap × Builder :=
  if revision % checkpointEvery = 0 then
    (s.heap, { b with
      checkpoints := b.checkpoints ++ [nodes]
      runs := b.runs ++ [noRuns]
      store := { s.store with bytes := s.store.bytes + nodesByteLength s.heap nodes } })
  else
    let heap := { s.heap with runs := s.heap.runs ++ [s.runs] }
    (heap, { b with
      runs := b.runs ++ [s.heap.runs.length]
      store := { s.store with bytes := s.store.bytes + runsByteLength heap s.heap.runs.length } })

/-- The loop over the lines, and whether the alignment was approximate. -/
def addLines (diff : Diff) (heap : Heap) (b : Builder) (lines : List Line) : RowState × Bool :=
  let revision := b.revisions.length
  let nodes := heap.nodes.length
  let started : RowState := ⟨heap.allocate lines.length, b.store, []⟩
  if revision = 0 then (addBaseline nodes 0 lines started, false)
  else
    let found := diff revision b.previous lines
    (found.rows.foldl (addRow nodes b.previousNodes revision lines) started, found.approximate)

/-- The heap, the builder and whether the alignment was approximate. -/
def addRevision (diff : Diff) (heap : Heap) (b : Builder) (sha : String) (lines : List Line) :
    Heap × Builder × Bool :=
  let revision := b.revisions.length
  let nodes := heap.nodes.length
  let (s, approximate) := addLines diff heap b lines
  let (heap, b) := keepRevision revision nodes s { b with
    revisions := b.revisions ++ [sha]
    lineCounts := b.lineCounts ++ [lines.length]
    approximatePairs := if approximate then b.approximatePairs + 1 else b.approximatePairs }
  (heap, { b with
    previousNodes := nodes
    previous := lines }, approximate)

/-- The used part of the node arrays, in new arrays. -/
def NodeStore.used (store : NodeStore) : NodeTable where
  parent := store.parent.take store.count
  revision := store.revision.take store.count
  line := store.line.take store.count
  kind := store.kind.take store.count
  depth := store.depth.take store.count
  text := store.texts.take store.count

def Builder.result (b : Builder) : Lineage where
  revisions := b.revisions
  lineCounts := b.lineCounts
  checkpoints := b.checkpoints
  runs := b.runs
  nodes := b.store.used
  approximatePairs := b.approximatePairs

def Builder.storedBytes (b : Builder) : Nat := b.store.bytes

/-- The bytes of what a lineage keeps. -/
def keptBytes (heap : Heap) (texts : List Line) (count : Nat) (checkpoints runs : List Nat) : Nat :=
  count * nodeBytes + (texts.map textBytes).sum + (checkpoints.map (nodesByteLength heap)).sum +
    (runs.map (runsByteLength heap)).sum

def changedText : String := "The last analyzed revision changed. Analyze again from the start."

/-- The columns of a result in arrays that have room again. -/
def NodeStore.restored (nodes : NodeTable) (bytes : Nat) : NodeStore :=
  let count := nodes.parent.length
  let capacity := max initialNodes count
  { parent := widen (some 0) capacity nodes.parent
    revision := widen 0 capacity nodes.revision
    line := widen 0 capacity nodes.line
    kind := widen .baseline capacity nodes.kind
    depth := widen 0 capacity nodes.depth
    texts := nodes.text
    count := count
    bytes := bytes }

/-- Continues a lineage after its last revision. -/
def restore (heap : Heap) (lineage : Lineage) (previousLines : List Line) :
    Except String (Heap × Builder) :=
  if lineage.revisions.length = 0 then .ok (Builder.new heap)
  else
    let last := lineage.revisions.length - 1
    if lineage.lineCounts[last]? ≠ some previousLines.length then .error changedText
    else
      let (heap', previousNodes) := (nodesAt heap lineage last).getD (heap, heap.nodes.length)
      .ok (heap', {
        revisions := lineage.revisions
        lineCounts := lineage.lineCounts
        checkpoints := lineage.checkpoints
        runs := lineage.runs
        store := .restored lineage.nodes
          (keptBytes heap' lineage.nodes.text lineage.nodes.parent.length lineage.checkpoints lineage.runs)
        previous := previousLines
        previousNodes := previousNodes
        approximatePairs := lineage.approximatePairs })

structure Version where
  sha : String
  lines : List Line

/-- One revision after the other. -/
def addRevisions (diff : Diff) (s : Heap × Builder) (versions : List Version) : Heap × Builder :=
  versions.foldl (fun s version =>
    let (heap, b, _) := addRevision diff s.1 s.2 version.sha version.lines
    (heap, b)) s

/-! ### The naive lineage -/

structure NaiveLineage where
  revisions : List String
  lineNodes : List (List Nat)
  nodes : NodeTable
  deriving DecidableEq

def NodeTable.add (table : NodeTable) (from_ : Option Nat) (at_ index : Nat) (kind : LineageKind)
    (value : Line) : Nat × NodeTable :=
  (table.parent.length, {
    parent := table.parent ++ [from_]
    revision := table.revision ++ [at_]
    line := table.line ++ [index + 1]
    kind := table.kind ++ [kind]
    depth := table.depth ++ [depthFrom table.depth from_]
    text := table.text ++ [value] })

/-- The nodes of the lines of a revision, as they are found. -/
abbrev NaiveRows := NodeTable × List Nat

def naiveBaseline : Nat → List Line → NaiveRows → NaiveRows
  | _, [], s => s
  | index, line :: lines, (table, nodes) =>
      let (node, table) := table.add none 0 index .baseline line
      naiveBaseline (index + 1) lines (table, nodes.set index node)

def naiveRow (before : List Nat) (at_ : Nat) (lines : List Line) (s : NaiveRows) (row : Row) :
    NaiveRows :=
  match row.after with
  | none => s
  | some after =>
      match row.kind with
      | .equal => (s.1, s.2.set after (before.getD (row.before.getD 0) 0))
      | .change =>
          let text := lines.getD after []
          let (node, table) :=
            match row.before with
            | some from_ => s.1.add (some (before.getD from_ 0)) at_ after .edited text
            | none => s.1.add none at_ after .added text
          (table, s.2.set after node)

def naiveLines (diff : Diff) (naive : NaiveLineage) (previous lines : List Line) : NaiveRows :=
  let at_ := naive.revisions.length
  let started : NaiveRows := (naive.nodes, List.replicate lines.length 0)
  if at_ = 0 then naiveBaseline 0 lines started
  else
    (diff at_ previous lines).rows.foldl (naiveRow (naive.lineNodes.getD (at_ - 1) []) at_ lines) started

def naiveVersion (diff : Diff) (s : NaiveLineage × List Line) (version : Version) :
    NaiveLineage × List Line :=
  let (naive, previous) := s
  let (table, nodes) := naiveLines diff naive previous version.lines
  (⟨naive.revisions ++ [version.sha], naive.lineNodes ++ [nodes], table⟩, version.lines)

def NaiveLineage.start : NaiveLineage := ⟨[], [], ⟨[], [], [], [], [], []⟩⟩

def naiveLineage (diff : Diff) (versions : List Version) : NaiveLineage :=
  (versions.foldl (naiveVersion diff) (.start, [])).1

end PrSearch.Source.Lineages
