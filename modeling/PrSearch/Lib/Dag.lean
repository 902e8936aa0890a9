import Mathlib.Data.List.Basic
import Mathlib.Data.List.Infix
import Mathlib.Data.List.Nodup
import Mathlib.Logic.Relation

/-! # Growing directed acyclic graphs with ordered parents

A graph is kept as its own construction history: the list of its nodes, newest first, each with
the ordered list of its parents, all of which were recorded before it. Such a history cannot
contain a cycle, and a graph that has only grown is one whose history has the old history as a
suffix. Ancestry ranges over all parents; the first-parent chain of a node follows the head of each
parent list down to a root.
-/
namespace Dag

variable {V : Type*}

/-! ### Histories -/

/-- Every node is recorded once, after all of its parents. -/
def Closed : List (V × List V) → Prop
  | [] => True
  | (v, parents) :: older =>
      v ∉ older.map Prod.fst ∧ (∀ p ∈ parents, p ∈ older.map Prod.fst) ∧ Closed older

theorem Closed.tail {node : V × List V} {older : List (V × List V)}
    (closed : Closed (node :: older)) : Closed older := closed.2.2

instance Closed.decidable [DecidableEq V] : (nodes : List (V × List V)) → Decidable (Closed nodes)
  | [] => isTrue trivial
  | (v, parents) :: older =>
      haveI := Closed.decidable older
      inferInstanceAs (Decidable (v ∉ older.map Prod.fst ∧
        (∀ p ∈ parents, p ∈ older.map Prod.fst) ∧ Closed older))

/-- The parents recorded for `v`; a node outside the history has none. -/
def parentsIn [DecidableEq V] : List (V × List V) → V → List V
  | [], _ => []
  | (w, parents) :: older, v => if v = w then parents else parentsIn older v

/-- Ancestry by descent through the history. -/
def reaches [DecidableEq V] : List (V × List V) → V → V → Bool
  | [], a, v => a == v
  | (w, parents) :: older, a, v =>
      if v = w then a == w || parents.any (fun p => reaches older a p) else reaches older a v

/-- The first-parent chain of `v`, root first. -/
def chainIn [DecidableEq V] : List (V × List V) → V → List V
  | [], _ => []
  | (w, parents) :: older, v =>
      if v = w then
        (match parents with
          | [] => []
          | p :: _ => chainIn older p) ++ [w]
      else chainIn older v

end Dag

/-- A directed acyclic graph, as the history of its construction. -/
structure Dag (V : Type*) [DecidableEq V] where
  nodes : List (V × List V)
  closed : Dag.Closed nodes

namespace Dag

variable {V : Type*} [DecidableEq V]

/-- The recorded nodes, newest first. -/
def ids (g : Dag V) : List V := g.nodes.map Prod.fst

instance : Membership V (Dag V) := ⟨fun g v => v ∈ g.ids⟩

theorem mem_def (g : Dag V) (v : V) : v ∈ g ↔ v ∈ g.nodes.map Prod.fst := Iff.rfl

instance (g : Dag V) (v : V) : Decidable (v ∈ g) := inferInstanceAs (Decidable (v ∈ g.ids))

def parents (g : Dag V) (v : V) : List V := parentsIn g.nodes v

/-- `a` is `v` or reachable from `v` along parents of any position. -/
def Ancestor (g : Dag V) (a v : V) : Prop :=
  Relation.ReflTransGen (fun p c => p ∈ g.parents c) a v

def firstParents (g : Dag V) (v : V) : List V := chainIn g.nodes v

/-- The graph has only grown from `g` to `h`. -/
def Extends (g h : Dag V) : Prop := g.nodes <:+ h.nodes

/-! ### Parents and ancestors along a history -/

theorem parentsIn_of_not_mem (nodes : List (V × List V)) (v : V)
    (absent : v ∉ nodes.map Prod.fst) : parentsIn nodes v = [] := by
  induction nodes with
  | nil => rfl
  | cons node older ih =>
    simp only [List.map_cons, List.mem_cons, not_or] at absent
    simp only [parentsIn, absent.1, if_false]
    exact ih absent.2

variable {nodes : List (V × List V)} {p v a u : V} {g h : Dag V}

theorem nodup_of_closed (closed : Closed nodes) : (nodes.map Prod.fst).Nodup := by
  induction nodes with
  | nil => exact List.nodup_nil
  | cons node older ih => exact List.nodup_cons.mpr ⟨closed.1, ih closed.tail⟩

theorem nodup_ids (g : Dag V) : g.ids.Nodup := nodup_of_closed g.closed

theorem mem_of_mem_parentsIn (closed : Closed nodes) (member : p ∈ parentsIn nodes v) :
    p ∈ nodes.map Prod.fst := by
  induction nodes with
  | nil => simp [parentsIn] at member
  | cons node older ih =>
    obtain ⟨w, ps⟩ := node
    simp only [parentsIn] at member
    split at member
    · exact List.mem_cons_of_mem _ (closed.2.1 p member)
    · exact List.mem_cons_of_mem _ (ih closed.tail member)

theorem mem_of_mem_parents (g : Dag V) (member : p ∈ g.parents v) : p ∈ g :=
  mem_of_mem_parentsIn g.closed member

theorem mem_of_parents_ne_nil (g : Dag V) (some : g.parents v ≠ []) : v ∈ g := by
  by_contra absent
  exact some (parentsIn_of_not_mem g.nodes v absent)

private theorem ancestorIn_iff (closed : Closed nodes) (a v : V) :
    Relation.ReflTransGen (fun p c => p ∈ parentsIn nodes c) a v ↔ reaches nodes a v = true := by
  induction nodes generalizing v with
  | nil =>
    simp only [parentsIn, List.not_mem_nil, reaches, beq_iff_eq]
    constructor
    · intro path
      cases path with
      | refl => rfl
      | tail _ last => cases last
    · rintro rfl
      exact .refl
  | cons node older ih =>
    obtain ⟨w, ps⟩ := node
    have fresh : ∀ c, w ∉ parentsIn older c :=
      fun c member => closed.1 (mem_of_mem_parentsIn closed.tail member)
    -- A path that ends at an older node never visits the new one.
    have stays : ∀ c, c ≠ w →
        (Relation.ReflTransGen (fun p c => p ∈ parentsIn ((w, ps) :: older) c) a c ↔
          Relation.ReflTransGen (fun p c => p ∈ parentsIn older c) a c) := by
      intro c differs
      constructor
      · intro path
        induction path with
        | refl => exact .refl
        | @tail b c _ last ih =>
          simp only [parentsIn, differs, if_false] at last
          have before : b ≠ w := fun equal => fresh c (by rwa [equal] at last)
          exact (ih before).tail last
      · intro path
        induction path with
        | refl => exact .refl
        | @tail b c _ last ih =>
          have before : b ≠ w := fun equal => fresh c (by rwa [equal] at last)
          exact (ih before).tail (by simpa only [parentsIn, differs, if_false] using last)
    simp only [reaches]
    split
    next equal =>
      subst equal
      simp only [Bool.or_eq_true, beq_iff_eq, List.any_eq_true]
      constructor
      · intro path
        cases path with
        | refl => exact Or.inl rfl
        | tail before last =>
          simp only [parentsIn, if_true] at last
          have differs : _ ≠ v := fun equal => closed.1 (equal ▸ closed.2.1 _ last)
          exact Or.inr ⟨_, last, (ih closed.tail _).mp ((stays _ differs).mp before)⟩
      · rintro (rfl | ⟨p, member, reached⟩)
        · exact .refl
        · have differs : p ≠ v := fun equal => closed.1 (equal ▸ closed.2.1 _ member)
          exact ((stays p differs).mpr ((ih closed.tail p).mpr reached)).tail
            (by simpa only [parentsIn, if_true] using member)
    next differs => exact (stays v differs).trans (ih closed.tail v)

/-- Ancestry is decided by descent through the history. -/
theorem ancestor_iff_reaches (g : Dag V) (a v : V) :
    g.Ancestor a v ↔ reaches g.nodes a v = true :=
  ancestorIn_iff g.closed a v

instance (g : Dag V) (a v : V) : Decidable (g.Ancestor a v) :=
  decidable_of_iff _ (g.ancestor_iff_reaches a v).symm

@[refl] theorem Ancestor.refl (g : Dag V) (v : V) : g.Ancestor v v := Relation.ReflTransGen.refl

variable {b c w : V} {older : List (V × List V)}

theorem Ancestor.trans (first : g.Ancestor a b) (second : g.Ancestor b c) : g.Ancestor a c :=
  Relation.ReflTransGen.trans first second

theorem ancestor_of_parent (member : p ∈ g.parents v) : g.Ancestor p v :=
  Relation.ReflTransGen.single member

theorem Ancestor.mem (path : g.Ancestor a v) (member : v ∈ g) : a ∈ g := by
  induction path with
  | refl => exact member
  | tail _ last ih => exact ih (g.mem_of_mem_parents last)

/-- The newest node of a history is an ancestor of no older one. -/
private theorem not_reaches_older {ps : List V} (closed : Closed ((w, ps) :: older))
    (member : v ∈ older.map Prod.fst) : reaches older w v = false := by
  by_contra reached
  rw [Bool.not_eq_false] at reached
  have path := (Dag.ancestor_iff_reaches ⟨older, closed.tail⟩ w v).mpr reached
  exact closed.1 (path.mem member)

private theorem reaches_antisymm (closed : Closed nodes) (down : reaches nodes a v = true)
    (up : reaches nodes v a = true) : a = v := by
  induction nodes generalizing a v with
  | nil => simpa [reaches] using down
  | cons node older ih =>
    obtain ⟨w, ps⟩ := node
    simp only [reaches] at down up
    split at down
    next isNew =>
      subst isNew
      split at up
      next equal => exact equal
      next differs =>
        simp only [Bool.or_eq_true, beq_iff_eq, List.any_eq_true] at down
        rcases down with equal | ⟨p, member, reached⟩
        · exact equal
        · have older_a : a ∈ older.map Prod.fst :=
            ((Dag.ancestor_iff_reaches ⟨older, closed.tail⟩ a p).mpr reached).mem
              (closed.2.1 p member)
          rw [not_reaches_older closed older_a] at up
          cases up
    next old =>
      split at up
      next isNew =>
        subst isNew
        simp only [Bool.or_eq_true, beq_iff_eq, List.any_eq_true] at up
        rcases up with equal | ⟨p, member, reached⟩
        · exact equal.symm
        · have older_v : v ∈ older.map Prod.fst :=
            ((Dag.ancestor_iff_reaches ⟨older, closed.tail⟩ v p).mpr reached).mem
              (closed.2.1 p member)
          rw [not_reaches_older closed older_v] at down
          cases down
      next => exact ih closed.tail down up

/-- A history has no cycles. -/
theorem Ancestor.antisymm (down : g.Ancestor a v) (up : g.Ancestor v a) : a = v :=
  reaches_antisymm g.closed ((g.ancestor_iff_reaches a v).mp down)
    ((g.ancestor_iff_reaches v a).mp up)

theorem parent_ne (member : p ∈ g.parents v) : p ≠ v := by
  rintro rfl
  obtain ⟨nodes, closed⟩ := g
  induction nodes with
  | nil => simp [parents, parentsIn] at member
  | cons node older ih =>
    obtain ⟨w, ps⟩ := node
    simp only [parents, parentsIn] at member
    split at member
    next equal => exact closed.1 (equal ▸ closed.2.1 p member)
    next => exact ih closed.tail member

/-! ### First-parent chains -/

private theorem chainIn_of_not_mem (nodes : List (V × List V)) (v : V)
    (absent : v ∉ nodes.map Prod.fst) : chainIn nodes v = [] := by
  induction nodes with
  | nil => rfl
  | cons node older ih =>
    simp only [List.map_cons, List.mem_cons, not_or] at absent
    simp only [chainIn, absent.1, if_false]
    exact ih absent.2

private theorem chainIn_cons_of_mem {node : V × List V} (closed : Closed (node :: older))
    (member : v ∈ older.map Prod.fst) : chainIn (node :: older) v = chainIn older v := by
  have differs : v ≠ node.1 := fun equal => closed.1 (equal ▸ member)
  simp only [chainIn, differs, if_false]

private theorem chainIn_eq (closed : Closed nodes) (member : v ∈ nodes.map Prod.fst) :
    chainIn nodes v = (match parentsIn nodes v with
      | [] => []
      | p :: _ => chainIn nodes p) ++ [v] := by
  induction nodes with
  | nil => simp at member
  | cons node older ih =>
    obtain ⟨w, ps⟩ := node
    by_cases equal : v = w
    · subst equal
      simp only [chainIn, parentsIn, if_true]
      cases ps with
      | nil => rfl
      | cons p rest =>
        have differs : p ≠ v := fun equal => closed.1 (equal ▸ closed.2.1 p (by simp))
        simp only [differs, if_false]
    · have old : v ∈ older.map Prod.fst := by simpa [equal] using member
      rw [chainIn_cons_of_mem closed old, ih closed.tail old]
      simp only [parentsIn, equal, if_false]
      cases h : parentsIn older v with
      | nil => rfl
      | cons p rest =>
        have parent : p ∈ parentsIn older v := by rw [h]; simp
        have known := mem_of_mem_parentsIn closed.tail parent
        simp only [chainIn_cons_of_mem closed known]

theorem firstParents_of_not_mem (g : Dag V) (absent : v ∉ g) : g.firstParents v = [] :=
  chainIn_of_not_mem g.nodes v absent

theorem firstParents_of_root (g : Dag V) (member : v ∈ g) (root : g.parents v = []) :
    g.firstParents v = [v] := by
  have step := chainIn_eq g.closed member
  change parentsIn g.nodes v = [] at root
  rw [root] at step
  exact step

theorem firstParents_of_parent (g : Dag V) {rest : List V} (parents : g.parents v = p :: rest) :
    g.firstParents v = g.firstParents p ++ [v] := by
  have member : v ∈ g := g.mem_of_parents_ne_nil (by rw [parents]; simp)
  have step := chainIn_eq g.closed member
  change parentsIn g.nodes v = p :: rest at parents
  rw [parents] at step
  exact step

/-- Induction along first parents: a root, then each child whose first parent is done. -/
theorem firstParents_induction (g : Dag V) {motive : V → Prop}
    (root : ∀ v ∈ g, g.parents v = [] → motive v)
    (child : ∀ v p rest, g.parents v = p :: rest → motive p → motive v) :
    ∀ v ∈ g, motive v := by
  obtain ⟨nodes, closed⟩ := g
  -- The induction is over a suffix of the history, whose nodes keep their recorded parents.
  suffices along : ∀ newer older, nodes = newer ++ older → ∀ v ∈ older.map Prod.fst, motive v from
    fun v member => along [] nodes rfl v member
  intro newer older
  induction older generalizing newer with
  | nil => intro _ v member; simp at member
  | cons node older ih =>
    intro split v member
    have below := ih (newer ++ [node]) (by simpa using split)
    by_cases old : v ∈ older.map Prod.fst
    · exact below v old
    · have equal : v = node.1 := by simpa [old] using member
      subst equal
      have known : node.1 ∈ nodes.map Prod.fst := by rw [split]; simp
      have recorded : parentsIn nodes node.1 = node.2 ∧ ∀ p ∈ node.2, p ∈ older.map Prod.fst := by
        subst split
        clear ih below member known root child
        induction newer with
        | nil => exact ⟨by simp [parentsIn], closed.2.1⟩
        | cons first newer ih =>
          have differs : node.1 ≠ first.1 := fun equal =>
            closed.1 (equal ▸ by simp)
          have inner := ih closed.tail
          exact ⟨by simpa only [List.cons_append, parentsIn, differs, if_false] using inner.1,
            inner.2⟩
      cases h : node.2 with
      | nil => exact root _ known (recorded.1.trans h)
      | cons p rest =>
        exact child _ p rest (recorded.1.trans h) (below p (recorded.2 p (h ▸ by simp)))

theorem firstParents_ne_nil (g : Dag V) (member : v ∈ g) : g.firstParents v ≠ [] := by
  cases h : g.parents v with
  | nil => rw [g.firstParents_of_root member h]; simp
  | cons p rest => rw [g.firstParents_of_parent h]; simp

theorem self_mem_firstParents (g : Dag V) (member : v ∈ g) : v ∈ g.firstParents v := by
  cases h : g.parents v with
  | nil => rw [g.firstParents_of_root member h]; simp
  | cons p rest => rw [g.firstParents_of_parent h]; simp

theorem getLast?_firstParents (g : Dag V) (member : v ∈ g) :
    (g.firstParents v).getLast? = some v := by
  cases h : g.parents v with
  | nil => rw [g.firstParents_of_root member h]; rfl
  | cons p rest => rw [g.firstParents_of_parent h]; simp

/-- A node of a first-parent chain cuts it exactly at its own chain. -/
theorem firstParents_prefix (g : Dag V) (member : u ∈ g.firstParents v) :
    g.firstParents u <+: g.firstParents v := by
  by_cases known : v ∈ g
  · revert member
    refine g.firstParents_induction
      (motive := fun v => u ∈ g.firstParents v → g.firstParents u <+: g.firstParents v) ?_ ?_ v known
    · intro v known root member
      rw [g.firstParents_of_root known root, List.mem_singleton] at member
      subst member
      exact List.prefix_rfl
    · intro v p rest parents ih member
      rw [g.firstParents_of_parent parents, List.mem_append, List.mem_singleton] at member
      rcases member with onChain | rfl
      · rw [g.firstParents_of_parent parents]
        exact (ih onChain).trans (List.prefix_append _ _)
      · exact List.prefix_rfl
  · rw [g.firstParents_of_not_mem known] at member
    cases member

theorem ancestor_of_mem_firstParents (g : Dag V) (member : u ∈ g.firstParents v) :
    g.Ancestor u v := by
  by_cases known : v ∈ g
  · revert member
    refine g.firstParents_induction
      (motive := fun v => u ∈ g.firstParents v → g.Ancestor u v) ?_ ?_ v known
    · intro v known root member
      rw [g.firstParents_of_root known root, List.mem_singleton] at member
      subst member
      exact .refl g u
    · intro v p rest parents ih member
      rw [g.firstParents_of_parent parents, List.mem_append, List.mem_singleton] at member
      rcases member with onChain | rfl
      · exact (ih onChain).trans (ancestor_of_parent (by rw [parents]; simp))
      · exact .refl g u
  · rw [g.firstParents_of_not_mem known] at member
    cases member

theorem mem_of_mem_firstParents (g : Dag V) (member : u ∈ g.firstParents v) : u ∈ g := by
  by_cases known : v ∈ g
  · exact (g.ancestor_of_mem_firstParents member).mem known
  · rw [g.firstParents_of_not_mem known] at member
    cases member

/-- On a first-parent chain every node stands at the end of its own chain. -/
theorem getElem?_firstParents (g : Dag V) (member : u ∈ g.firstParents v) :
    (g.firstParents v)[(g.firstParents u).length - 1]? = some u := by
  have known := g.mem_of_mem_firstParents member
  have nonempty : 0 < (g.firstParents u).length :=
    List.length_pos_of_ne_nil (g.firstParents_ne_nil known)
  have last := g.getLast?_firstParents known
  rw [List.getLast?_eq_getElem?] at last
  obtain ⟨rest, split⟩ := g.firstParents_prefix member
  rw [← split, List.getElem?_append_left (by omega)]
  exact last

theorem nodup_firstParents (g : Dag V) (v : V) : (g.firstParents v).Nodup := by
  by_cases known : v ∈ g
  · refine g.firstParents_induction (motive := fun v => (g.firstParents v).Nodup) ?_ ?_ v known
    · intro v known root
      rw [g.firstParents_of_root known root]
      simp
    · intro v p rest parents ih
      rw [g.firstParents_of_parent parents, List.nodup_append]
      refine ⟨ih, by simp, ?_⟩
      intro u onChain w equal
      rw [List.mem_singleton] at equal
      rintro rfl
      subst equal
      have parent : p ∈ g.parents u := by rw [parents]; simp
      -- A node on its own parent's chain would close a cycle.
      have back : g.Ancestor u p := g.ancestor_of_mem_firstParents onChain
      exact parent_ne parent (Ancestor.antisymm (ancestor_of_parent parent) back)
  · rw [g.firstParents_of_not_mem known]
    exact List.nodup_nil

/-- A node of a chain that an ancestor of `u` bounds from above lies at or below `u`. -/
theorem mem_firstParents_of_ancestor (g : Dag V) (onChain : u ∈ g.firstParents v)
    (other : w ∈ g.firstParents v) (above : g.Ancestor w u) : w ∈ g.firstParents u := by
  obtain ⟨rest, split⟩ := g.firstParents_prefix onChain
  obtain ⟨start, cut⟩ := g.firstParents_prefix other
  have known : ∀ {x}, x ∈ g.firstParents v → x ∈ g := fun {x} member => by
    by_contra absent
    have head := g.firstParents_prefix member
    have path := g.ancestor_of_mem_firstParents member
    by_cases inside : v ∈ g
    · exact absent (path.mem inside)
    · rw [g.firstParents_of_not_mem inside] at member
      cases member
  -- Two prefixes of one chain are comparable, and the longer one would close a cycle.
  rcases List.prefix_or_prefix_of_prefix (g.firstParents_prefix other)
      (g.firstParents_prefix onChain) with shorter | longer
  · exact shorter.subset (g.self_mem_firstParents (known other))
  · have below := g.ancestor_of_mem_firstParents
      (longer.subset (g.self_mem_firstParents (known onChain)))
    rw [Ancestor.antisymm above below]
    exact g.self_mem_firstParents (known onChain)

/-! ### Ranges -/

/-- The first-parent chain of `tip` without what `exclude` reaches along any parents. -/
def range (g : Dag V) (exclude : Option V) (tip : V) : List V :=
  match exclude with
  | none => g.firstParents tip
  | some base => (g.firstParents tip).filter fun v => ¬ g.Ancestor v base

@[simp] theorem range_none (g : Dag V) (tip : V) : g.range none tip = g.firstParents tip := rfl

/-- When the excluded node is on the chain, the range is exactly what follows it. -/
theorem firstParents_append_range (g : Dag V) {base tip : V} (onChain : base ∈ g.firstParents tip) :
    g.firstParents base ++ g.range (some base) tip = g.firstParents tip := by
  obtain ⟨rest, split⟩ := g.firstParents_prefix onChain
  have distinct := g.nodup_firstParents tip
  rw [← split, List.nodup_append] at distinct
  have kept : g.range (some base) tip = rest := by
    rw [range, ← split, List.filter_append]
    have dropped : (g.firstParents base).filter (fun v => ¬ g.Ancestor v base) = [] := by
      rw [List.filter_eq_nil_iff]
      intro v member
      simpa using g.ancestor_of_mem_firstParents member
    have all : rest.filter (fun v => ¬ g.Ancestor v base) = rest := by
      rw [List.filter_eq_self]
      intro v member
      simp only [decide_not, Bool.not_eq_true', decide_eq_false_iff_not]
      intro above
      have later : v ∈ g.firstParents tip := by rw [← split]; simp [member]
      exact distinct.2.2 v (g.mem_firstParents_of_ancestor onChain later above) v member rfl
    rw [dropped, all, List.nil_append]
  rw [kept, split]

/-! ### Merge bases -/

def CommonAncestor (g : Dag V) (c a b : V) : Prop := g.Ancestor c a ∧ g.Ancestor c b

instance (g : Dag V) (c a b : V) : Decidable (g.CommonAncestor c a b) :=
  inferInstanceAs (Decidable (_ ∧ _))

/-- A best common ancestor: no other common ancestor descends from it. -/
def IsMergeBase (g : Dag V) (c a b : V) : Prop :=
  g.CommonAncestor c a b ∧ ∀ d, g.CommonAncestor d a b → g.Ancestor c d → d = c

/-- What a merge-base query may answer: some best common ancestor, or none when there is none. -/
def MergeBaseAnswer (g : Dag V) (a b : V) : Option V → Prop
  | none => ∀ c, ¬ g.CommonAncestor c a b
  | some c => g.IsMergeBase c a b

/-- The most recently recorded common ancestor. -/
def mergeBase (g : Dag V) (a b : V) : Option V :=
  g.ids.find? fun c => g.CommonAncestor c a b

private theorem newest_is_maximal (closed : Closed nodes) (accept : V → Bool) {d : V}
    (found : (nodes.map Prod.fst).find? accept = some c) (member : d ∈ nodes.map Prod.fst)
    (accepted : accept d = true) (above : reaches nodes c d = true) : d = c := by
  induction nodes with
  | nil => simp at member
  | cons node older ih =>
    obtain ⟨w, ps⟩ := node
    simp only [List.map_cons, List.find?_cons] at found
    simp only [List.map_cons, List.mem_cons] at member
    cases h : accept w with
    | true =>
      rw [h, Option.some.injEq] at found
      subst found
      rcases member with equal | old
      · exact equal
      · have differs : d ≠ w := fun equal => closed.1 (equal ▸ old)
        simp only [reaches, differs, if_false] at above
        rw [not_reaches_older closed old] at above
        cases above
    | false =>
      rw [h] at found
      have differs : d ≠ w := fun equal => by rw [equal, h] at accepted; cases accepted
      simp only [reaches, differs, if_false] at above
      exact ih closed.tail found (member.resolve_left differs) above

theorem mergeBase_answers (g : Dag V) (known : a ∈ g) :
    g.MergeBaseAnswer a b (g.mergeBase a b) := by
  cases h : g.mergeBase a b with
  | none =>
    intro c common
    have refused := List.find?_eq_none.mp h c (common.1.mem known)
    simp [common] at refused
  | some c =>
    have common : g.CommonAncestor c a b := by simpa using List.find?_some h
    refine ⟨common, fun d other above => ?_⟩
    exact newest_is_maximal g.closed _ h (other.1.mem known) (by simpa using other)
      ((g.ancestor_iff_reaches c d).mp above)

/-! ### Growth -/

theorem Extends.mem (grown : g.Extends h) (member : v ∈ g) : v ∈ h :=
  (List.IsSuffix.map Prod.fst grown).subset member

private theorem parentsIn_append {newer : List (V × List V)} (closed : Closed (newer ++ older))
    (member : v ∈ older.map Prod.fst) : parentsIn (newer ++ older) v = parentsIn older v := by
  induction newer with
  | nil => rfl
  | cons node newer ih =>
    have differs : v ≠ node.1 := fun equal => closed.1 (by
      change node.1 ∈ (newer ++ older).map Prod.fst
      rw [← equal, List.map_append]
      exact List.mem_append_right _ member)
    simp only [List.cons_append, parentsIn, differs, if_false]
    exact ih closed.tail

theorem Extends.parents (grown : g.Extends h) (member : v ∈ g) : h.parents v = g.parents v := by
  obtain ⟨newer, split⟩ := grown
  have closed := h.closed
  rw [← split] at closed
  change parentsIn h.nodes v = parentsIn g.nodes v
  rw [← split]
  exact parentsIn_append closed member

theorem Extends.firstParents (grown : g.Extends h) (member : v ∈ g) :
    h.firstParents v = g.firstParents v := by
  refine g.firstParents_induction
    (motive := fun v => h.firstParents v = g.firstParents v) ?_ ?_ v member
  · intro v known root
    rw [g.firstParents_of_root known root,
      h.firstParents_of_root (grown.mem known) ((grown.parents known).trans root)]
  · intro v p rest parents ih
    have known : v ∈ g := g.mem_of_parents_ne_nil (by rw [parents]; simp)
    rw [g.firstParents_of_parent parents,
      h.firstParents_of_parent ((grown.parents known).trans parents), ih]

end Dag
