import PrSearch.Source.LineExact
import PrSearch.Source.LineageEvents

/-! # A compact lineage is the naive one

What a builder has on the heap is determined by the revisions that were added, and it gives the naive
lineage back. A restored builder has the same on the heap as the one that stopped.
-/
namespace PrSearch.Source.Lineages

open Lines (ValidRows)

/-- A lineage gives the naive lineage of the versions back, and its events come to an end. -/
structure Agrees (diff : Diff) (versions : List Version) (heap : Heap) (lineage : Lineage) : Prop where
  revisions : lineage.revisions = (naiveLineage diff versions).revisions
  table : lineage.nodes = (naiveLineage diff versions).nodes
  analysed : (naiveLineage diff versions).lineNodes.length = versions.length
  nodes : ∀ r, nodesRead heap lineage r = (naiveLineage diff versions).lineNodes[r]?
  texts : ∀ r version, versions[r]? = some version → ∃ nodes, nodesRead heap lineage r = some nodes ∧
    nodes.map (lineage.nodes.text[·]?) = version.lines.map some
  chain : ∀ node parent : Nat, lineage.nodes.parent[node]? = some (some parent) →
    ∃ earlier own : Nat, lineage.nodes.revision[parent]? = some earlier ∧
      lineage.nodes.revision[node]? = some own ∧ earlier < own
  events : ∀ (r line : Nat) (nodes : List Nat) (node : Nat), nodesRead heap lineage r = some nodes →
    nodes[line]? = some node →
    ∃ (depth : Nat) (events : List LineEvent), lineage.nodes.depth[node]? = some depth ∧ events.length = depth ∧
      ∀ fuel, depth ≤ fuel → lineEvents fuel heap lineage r line = some events
  chains : ∀ node : Nat, node < lineage.nodes.parent.length →
    ∃ (depth : Nat) (events : List LineEvent), lineage.nodes.depth[node]? = some depth ∧ events.length = depth ∧
      ∀ fuel, depth ≤ fuel → eventsFrom lineage fuel (some node) = some events
  outside : ∀ r line fuel : Nat, (nodesRead heap lineage r).bind (·[line]?) = none →
    lineEvents fuel heap lineage r line = some []

section Whole

variable {diff : Diff} {versions : List Version} {heap : Heap} {lineage : Lineage}

theorem getElem?_eq_some_getD {α : Type*} {xs : List α} {i : Nat} (less : i < xs.length) (zero : α) :
    xs[i]? = some (xs.getD i zero) := by
  rw [List.getD_eq_getElem?_getD, List.getElem?_eq_getElem less, Option.getD_some]

theorem agrees_of_contents (valid : ∀ r xs ys, ValidRows xs ys (diff r xs ys).rows)
    (contents : lineage.contents heap = (kept diff versions).contents) :
    Agrees diff versions heap lineage := by
  have stored := stored_kept valid versions
  have traced := traced_kept valid versions
  have naive := naive_kept diff versions
  have revisions : lineage.revisions = (kept diff versions).naive.revisions :=
    congrArg Contents.revisions contents
  have table : lineage.nodes = (kept diff versions).naive.nodes := congrArg Contents.nodes contents
  have chained := traced.chained
  rw [← table] at chained
  have analysed := traced.count
  have size := stored.count
  have reads : ∀ r, nodesRead heap lineage r = (kept diff versions).naive.lineNodes[r]? := by
    intro r
    by_cases less : r < (kept diff versions).naive.lineNodes.length
    · rw [List.getElem?_eq_getElem less]
      exact nodesRead_spec stored contents (List.getElem?_eq_getElem less)
    · rw [List.getElem?_eq_none (by omega)]
      exact nodesRead_outside contents (by omega)
  have chains : ∀ node, node < lineage.nodes.parent.length →
      ∃ (depth : Nat) (events : List LineEvent), lineage.nodes.depth[node]? = some depth ∧ events.length = depth ∧
        ∀ fuel, depth ≤ fuel → eventsFrom lineage fuel (some node) = some events := by
    intro node less
    obtain ⟨events, length, all⟩ := eventsFrom_spec chained node less
    exact ⟨_, events, getElem?_eq_some_getD (by rw [chained.even.depth]; exact less) 0, length, all⟩
  have shown : ∀ r version, versions[r]? = some version → ∃ nodes,
      nodesRead heap lineage r = some nodes ∧ Shows lineage.nodes r nodes version.lines := by
    intro r version own
    have less : r < (kept diff versions).naive.lineNodes.length := by
      rw [analysed]
      exact (List.getElem?_eq_some_iff.mp own).1
    have found := List.getElem?_eq_getElem less
    rw [table]
    exact ⟨_, by rw [reads, found], traced.shows_ r _ version found own⟩
  refine ⟨by rw [revisions, naive], by rw [table, naive], by rw [← naive, analysed],
    fun r => by rw [reads, naive], ?_, ?_, ?_, chains, ?_⟩
  · intro r version own
    obtain ⟨nodes, found, shows_⟩ := shown r version own
    exact ⟨nodes, found, shows_.texts⟩
  · intro node parent is
    obtain ⟨before, early, _⟩ := chained.later node parent is
    have less := (List.getElem?_eq_some_iff.mp is).1
    have even := chained.even.revision
    exact ⟨_, _, getElem?_eq_some_getD (by omega) 0, getElem?_eq_some_getD (by omega) 0, early⟩
  · intro r line nodes node found isNode
    have some_ : r < versions.length := by
      rw [reads] at found
      rw [← analysed]
      exact (List.getElem?_eq_some_iff.mp found).1
    obtain ⟨nodes', found', shows_⟩ := shown r _ (List.getElem?_eq_getElem some_)
    obtain rfl : nodes = nodes' := Option.some.inj (found.symm.trans found')
    have less := (shows_.revisions node (List.mem_of_getElem? isNode)).1
    obtain ⟨depth, events, isDepth, length, all⟩ := chains node less
    refine ⟨depth, events.reverse, isDepth, by rw [List.length_reverse, length], fun fuel enough => ?_⟩
    rw [lineEvents, found, Option.bind_some, isNode]
    simp [all fuel enough]
  · intro r line fuel none_
    rw [lineEvents, none_]

theorem tracks_addRevisions (started : Heap.start.Extends heap) (diff : Diff) (versions : List Version) :
    Tracks (addRevisions diff (Builder.new heap) versions).1
      (addRevisions diff (Builder.new heap) versions).2 (kept diff versions) :=
  ((tracks_new heap (getElem?_of_begins started.runs rfl)).addAll diff versions).2

theorem addRevisions_append (diff : Diff) (s : Heap × Builder) (first rest : List Version) :
    addRevisions diff s (first ++ rest) = addRevisions diff (addRevisions diff s first) rest :=
  List.foldl_append

theorem kept_append_all (diff : Diff) (first rest : List Version) :
    rest.foldl (Kept.add diff) (kept diff first) = kept diff (first ++ rest) :=
  List.foldl_append.symm

theorem storedBytes_eq {b : Builder} {k : Kept} (tracks : Tracks heap b k) :
    b.storedBytes = k.naive.nodes.parent.length * nodeBytes +
      (k.naive.nodes.text.map textBytes).sum + k.arrayBytes := tracks.store.bytes

def lastLines (versions : List Version) : List Line :=
  (versions.getLast?.map Version.lines).getD []

/-- Stopping and continuing. -/
theorem restore_tracks (valid : ∀ r xs ys, ValidRows xs ys (diff r xs ys).rows)
    (started : Heap.start.Extends heap) (first : List Version) {later : Heap}
    (extends_ : (addRevisions diff (Builder.new heap) first).1.Extends later) :
    ∃ restored, restore later (addRevisions diff (Builder.new heap) first).2.result (lastLines first) =
        .ok restored ∧ Tracks restored.1 restored.2 (kept diff first) := by
  have tracks := tracks_addRevisions started diff first
  have traced := traced_kept valid first
  rw [lastLines, ← traced.previous]
  by_cases some_ : (kept diff first).naive.revisions.length = 0
  · have none_ : first = [] := by
      rw [traced.revisions, List.length_map] at some_
      exact List.eq_nil_of_length_eq_zero some_
    subst none_
    exact ⟨Builder.new later, rfl, tracks_new later (getElem?_of_begins extends_.runs tracks.noRuns)⟩
  · obtain ⟨heap', b', is, _, restored⟩ := restore_spec (stored_kept valid first) tracks extends_ some_
    exact ⟨(heap', b'), is, restored⟩

/-- The line difference of the builder, with the answers from outside at each revision. -/
def lineDiffs (outside : Nat → Lines.Outside) (budget : Lines.DiffBudget) : Diff :=
  fun r before after => Lines.diffLineArrays (outside r) before after budget

/-- The builder over the line difference, whatever is answered from outside at each revision. -/
theorem agrees_lineDiffs (outside : Nat → Lines.Outside) (budget : Lines.DiffBudget)
    (spec : ∀ r call xs ys options changes,
      (outside r).diffArrays call xs ys options = some changes → EditScript.Shortest xs ys changes)
    (started : Heap.start.Extends heap) (versions : List Version) :
    Agrees (lineDiffs outside budget) versions
      (addRevisions (lineDiffs outside budget) (Builder.new heap) versions).1
      (addRevisions (lineDiffs outside budget) (Builder.new heap) versions).2.result :=
  agrees_of_contents (fun r xs ys => Lines.validRows_diffLineArrays (spec r) xs ys budget)
    (tracks_addRevisions started _ versions).contents

end Whole

/-- The compact lineage is the naive one, also when it is continued, and an earlier result stays. -/
theorem lineage_is_naive (diff : Diff) (valid : ∀ r xs ys, ValidRows xs ys (diff r xs ys).rows)
    (heap : Heap) (started : Heap.start.Extends heap) (first rest : List Version) :
    let stopped := addRevisions diff (Builder.new heap) first
    let whole := addRevisions diff (Builder.new heap) (first ++ rest)
    Agrees diff (first ++ rest) whole.1 whole.2.result ∧
      stopped.2.result.contents whole.1 = stopped.2.result.contents stopped.1 ∧
      Agrees diff first whole.1 stopped.2.result ∧
      ∀ later, stopped.1.Extends later → ∃ restored,
        restore later stopped.2.result (lastLines first) = .ok restored ∧
          (addRevisions diff restored rest).2.result.contents (addRevisions diff restored rest).1 =
            whole.2.result.contents whole.1 ∧
          (addRevisions diff restored rest).2.storedBytes = whole.2.storedBytes ∧
          Agrees diff (first ++ rest) (addRevisions diff restored rest).1
            (addRevisions diff restored rest).2.result := by
  intro stopped whole
  have tracks : Tracks stopped.1 stopped.2 (kept diff first) := tracks_addRevisions started diff first
  have all : Tracks whole.1 whole.2 (kept diff (first ++ rest)) :=
    tracks_addRevisions started diff (first ++ rest)
  have more : stopped.1.Extends whole.1 := by
    have extends_ := (tracks.addAll diff rest).1
    rwa [← addRevisions_append] at extends_
  have earlier := contents_of_extends more tracks.contents
  refine ⟨agrees_of_contents valid all.contents, earlier.trans tracks.contents.symm,
    agrees_of_contents valid earlier, fun later extends_ => ?_⟩
  obtain ⟨restored, is, restoredTracks⟩ := restore_tracks valid started first extends_
  have continued := (restoredTracks.addAll diff rest).2
  rw [kept_append_all] at continued
  exact ⟨restored, is, continued.contents.trans all.contents.symm,
    (storedBytes_eq continued).trans (storedBytes_eq all).symm,
    agrees_of_contents valid continued.contents⟩

/-- `diffArrays` always gives up. -/
def givesUp : Lines.Outside := ⟨fun _ _ _ _ => none, fun _ => 0⟩

theorem agrees_lineDiffs_twice :
    Agrees (lineDiffs (fun _ => givesUp) {}) [⟨"a", [[97]]⟩, ⟨"b", [[98], [97]]⟩]
      (addRevisions (lineDiffs (fun _ => givesUp) {}) (Builder.new .start)
        [⟨"a", [[97]]⟩, ⟨"b", [[98], [97]]⟩]).1
      (addRevisions (lineDiffs (fun _ => givesUp) {}) (Builder.new .start)
        [⟨"a", [[97]]⟩, ⟨"b", [[98], [97]]⟩]).2.result :=
  agrees_lineDiffs (fun _ => givesUp) {} (by rintro _ _ _ _ _ _ ⟨⟩) (Heap.Extends.refl _) _

/-- The line difference of every revision, when the exact pass always gives up. -/
def approximately : Diff := fun _ before after => Lines.diffLineArrays givesUp before after {}

theorem validRows_approximately (r : Nat) (xs ys : List Line) :
    ValidRows xs ys (approximately r xs ys).rows :=
  Lines.validRows_diffLineArrays
    (fun call _ _ _ changes found => (nomatch (found : givesUp.diffArrays call _ _ _ = some changes)))
    xs ys {}

theorem lineage_is_naive_approximately :
    ∃ restored, restore (addRevisions approximately (Builder.new .start) [⟨"a", [[97], [98]]⟩]).1
        (addRevisions approximately (Builder.new .start) [⟨"a", [[97], [98]]⟩]).2.result [[97], [98]] =
          .ok restored ∧
      Agrees approximately [⟨"a", [[97], [98]]⟩, ⟨"b", [[98], [99], [97]]⟩]
        (addRevisions approximately restored [⟨"b", [[98], [99], [97]]⟩]).1
        (addRevisions approximately restored [⟨"b", [[98], [99], [97]]⟩]).2.result := by
  obtain ⟨_, _, _, continued⟩ := lineage_is_naive approximately validRows_approximately
    .start (Heap.Extends.refl _) [⟨"a", [[97], [98]]⟩] [⟨"b", [[98], [99], [97]]⟩]
  obtain ⟨restored, is, _, _, agrees⟩ := continued _ (Heap.Extends.refl _)
  exact ⟨restored, is, agrees⟩

end PrSearch.Source.Lineages
