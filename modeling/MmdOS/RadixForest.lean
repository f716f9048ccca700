import Mathlib.Data.Finset.Card
import Mathlib.Data.List.Infix
import Mathlib.Logic.Function.Basic
import Mathlib.Tactic.Common

/-!
# Forests of radix tables

A store assigns to every node a row of entries, and an entry may point to a
child node.  A ghost height separates the tables of one level from those of
the next: entries of a node of height `h + 1` point to nodes of height `h`,
and the rows of height `0` hold the values.  Below the roots no node has two
parents; roots may share a child, but only at the same index.

The operations of a radix table are three changes of a store: writing a value
into a leaf row, linking a blank node under an empty entry, and adding a root
that copies another root's row.  For each one this file states what it does to
the forest, to descents and to lookups.
-/

namespace Radix

open Function (update update_self update_of_ne)

variable {Node Index Entry : Type*}
variable {h : Nat}

section Descent

variable (child : Entry → Option Node) (store : Node → Index → Entry)

def descend : Node → List Index → Option Node
  | node, [] => some node
  | node, index :: path =>
      match child (store node index) with
      | none => none
      | some next => descend next path

def missing : Node → List Index → Nat
  | _, [] => 0
  | node, index :: path =>
      match child (store node index) with
      | none => path.length + 1
      | some next => missing next path

/-- The value at the end of a path, or `blank` when a node on it is missing. -/
def lookup (blank : Entry) (root : Node) (path : List Index) (last : Index) : Entry :=
  match descend child store root path with
  | none => blank
  | some leaf => store leaf last

/-- Every node of positive height points one level down, and a shared child is
shared by roots at one index. -/
structure Forest (top : Nat) (height : Node → Option Nat) : Prop where
  height_le : ∀ {node h}, height node = some h → h ≤ top
  closed : ∀ {node index next h}, height node = some (h + 1) →
    child (store node index) = some next → height next = some h
  unique : ∀ {node node' index index' next h},
    height node = some (h + 1) → height node' = some (h + 1) →
    child (store node index) = some next → child (store node' index') = some next →
    index = index' ∧ (h + 1 = top ∨ node = node')

def Linked (top : Nat) (height : Node → Option Nat) : Prop :=
  ∀ node h, height node = some h → h < top → ∃ parent index,
    height parent = some (h + 1) ∧ child (store parent index) = some node

end Descent

variable {child : Entry → Option Node} {store store' : Node → Index → Entry}
variable {top : Nat} {height : Node → Option Nat}

theorem descend_cons_some {node node' : Node} {index : Index} {path : List Index} :
    descend child store node (index :: path) = some node' ↔
      ∃ next, child (store node index) = some next ∧
        descend child store next path = some node' := by
  cases points : child (store node index) with
  | none => simp [descend, points]
  | some next => simp [descend, points]

theorem descend_cons_congr {first second : Node} {index : Index}
    (shared : child (store first index) = child (store second index)) (path : List Index) :
    descend child store first (index :: path) = descend child store second (index :: path) := by
  rw [descend, descend, shared]

theorem lookup_cons_congr {first second : Node} {index : Index}
    (shared : child (store first index) = child (store second index)) (blank : Entry)
    (path : List Index) (last : Index) :
    lookup child store blank first (index :: path) last =
      lookup child store blank second (index :: path) last := by
  rw [lookup, lookup, descend_cons_congr shared]

theorem descend_three (node : Node) (first second third : Index) :
    descend child store node [first, second, third] =
      (child (store node first)).bind fun middle =>
        (child (store middle second)).bind fun last => child (store last third) := by
  cases points : child (store node first) with
  | none => simp [descend, points]
  | some middle =>
      cases points' : child (store middle second) with
      | none => simp [descend, points, points']
      | some last =>
          cases points'' : child (store last third) <;>
            simp [descend, points, points', points'']

theorem descend_append (node : Node) (first second : List Index) :
    descend child store node (first ++ second) =
      (descend child store node first).bind
        fun middle => descend child store middle second := by
  induction first generalizing node with
  | nil => rfl
  | cons index first ih =>
      cases points : child (store node index) with
      | none => simp [descend, points]
      | some next => simp [descend, points, ih]

theorem missing_cons_of_absent {node : Node} {index : Index}
    (absent : child (store node index) = none)
    (path : List Index) : missing child store node (index :: path) = path.length + 1 := by
  simp [missing, absent]

theorem missing_cons_of_points {node next : Node} {index : Index}
    (points : child (store node index) = some next) (path : List Index) :
    missing child store node (index :: path) = missing child store next path := by
  simp [missing, points]

theorem missing_le_length (node : Node) (path : List Index) :
    missing child store node path ≤ path.length := by
  induction path generalizing node with
  | nil => exact le_rfl
  | cons index path ih =>
      cases points : child (store node index) with
      | none => rw [missing_cons_of_absent points, List.length_cons]
      | some next =>
          have := ih next
          rw [missing_cons_of_points points, List.length_cons]
          omega

/-- The missing nodes are the ends of the initial segments that lead
nowhere. -/
theorem missing_eq (node : Node) (path : List Index) :
    missing child store node path =
      (path.inits.filter fun start => (descend child store node start).isNone).length := by
  induction path generalizing node with
  | nil => simp [missing, descend]
  | cons index path ih =>
      rw [List.inits_cons, List.filter_cons_of_neg (by simp [descend]), List.filter_map,
        List.length_map]
      cases points : child (store node index) with
      | none => simp [missing, descend, points, Function.comp_def]
      | some next => simp [missing, descend, points, Function.comp_def, ih]

theorem inits_nodup (path : List Index) : path.inits.Nodup := by
  induction path with
  | nil => simp
  | cons index path ih =>
      rw [List.inits_cons, List.nodup_cons]
      exact ⟨by simp, ih.map (List.cons_injective)⟩

theorem missing_le_card [DecidableEq Index] {node : Node} {reached : Finset (List Index)}
    (isReached : ∀ start ∈ reached, descend child store node start ≠ none) (path : List Index) :
    missing child store node path ≤ (path.inits.toFinset \ reached).card := by
  have distinct := (inits_nodup path).filter
    fun start => (descend child store node start).isNone
  rw [missing_eq, ← List.toFinset_card_of_nodup distinct]
  apply Finset.card_le_card
  intro start member
  rw [List.mem_toFinset, List.mem_filter, Option.isNone_iff_eq_none] at member
  rw [Finset.mem_sdiff, List.mem_toFinset]
  exact ⟨member.1, fun old => isReached start old member.2⟩

theorem Forest.descend_height (forest : Forest child store top height) {root node : Node}
    {path : List Index} (rootHeight : height root = some (path.length + h))
    (reached : descend child store root path = some node) :
    height node = some h := by
  induction path generalizing root with
  | nil =>
      simp only [descend, Option.some.injEq] at reached
      simpa [reached] using rootHeight
  | cons index path ih =>
      obtain ⟨next, points, rest⟩ := descend_cons_some.mp reached
      refine ih (forest.closed ?_ points) rest
      rw [rootHeight, List.length_cons]
      congr 1
      omega

theorem Linked.reached (linked : Linked child store top height) {node : Node}
    (heightEq : height node = some h) (heightLe : h ≤ top) :
    ∃ root path, height root = some top ∧ path.length + h = top ∧
      descend child store root path = some node := by
  obtain ⟨depth, rfl⟩ := Nat.exists_eq_add_of_le heightLe
  induction depth generalizing node h with
  | zero => exact ⟨node, [], heightEq, Nat.zero_add h, rfl⟩
  | succ depth ih =>
      obtain ⟨parent, index, parentHeight, points⟩ := linked node h heightEq (by omega)
      have shifted : h + 1 + depth = h + (depth + 1) := by omega
      obtain ⟨root, path, rootHeight, lengthEq, reached⟩ :=
        ih parentHeight (by rwa [shifted]) (by omega)
      rw [shifted] at rootHeight lengthEq
      refine ⟨root, path ++ [index], rootHeight, ?_, ?_⟩
      · rw [List.length_append, List.length_singleton]
        omega
      · rw [descend_append, reached, Option.bind_some, descend, points]
        rfl

section

variable (forest : Forest child store top height)
include forest

theorem Forest.descend_congr {root : Node} {path : List Index}
    (rootHeight : height root = some (path.length + h))
    (agree : ∀ node k index, height node = some k → h < k → store' node index = store node index) :
    descend child store' root path = descend child store root path := by
  induction path generalizing root with
  | nil => rfl
  | cons index path ih =>
      have rowEq := agree root _ index rootHeight (by rw [List.length_cons]; omega)
      rw [descend, descend, rowEq]
      cases points : child (store root index) with
      | none => rfl
      | some next =>
          refine ih (forest.closed ?_ points)
          rw [rootHeight, List.length_cons]
          congr 1
          omega

theorem Forest.lookup_congr (blank : Entry) {root : Node} {path : List Index} (last : Index)
    (rootHeight : height root = some path.length)
    (agree : ∀ node k index, height node = some k → store' node index = store node index) :
    lookup child store' blank root path last = lookup child store blank root path last := by
  have same := forest.descend_congr (h := 0) rootHeight
    (fun node k index nodeHeight _ => agree node k index nodeHeight)
  rw [lookup, lookup, same]
  cases reached : descend child store root path with
  | none => rfl
  | some leaf => exact agree leaf 0 last (forest.descend_height rootHeight reached)

theorem Forest.congr
    (agree : ∀ node k index, height node = some k → store' node index = store node index) :
    Forest child store' top height where
  height_le := forest.height_le
  closed := by
    intro node index next h nodeHeight points
    rw [agree node _ index nodeHeight] at points
    exact forest.closed nodeHeight points
  unique := by
    intro node node' index index' next h nodeHeight nodeHeight' points points'
    rw [agree node _ index nodeHeight] at points
    rw [agree node' _ index' nodeHeight'] at points'
    exact forest.unique nodeHeight nodeHeight' points points'

/-- Below the roots the forest is a tree: one node is reached in one way. -/
theorem Forest.descend_injective {first second node : Node} {path path' : List Index}
    (firstHeight : height first = some (path.length + h))
    (secondHeight : height second = some (path'.length + h)) (lengthEq : path.length = path'.length)
    (below : path.length + h < top) (reached : descend child store first path = some node)
    (reached' : descend child store second path' = some node) :
    first = second ∧ path = path' := by
  induction path generalizing first second path' with
  | nil =>
      have nil' : path' = [] := List.eq_nil_of_length_eq_zero (by simpa using lengthEq.symm)
      subst nil'
      simp only [descend, Option.some.injEq] at reached reached'
      exact ⟨reached.trans reached'.symm, rfl⟩
  | cons index path ih =>
      cases path' with
      | nil => simp at lengthEq
      | cons index' path' =>
          obtain ⟨next, points, rest⟩ := descend_cons_some.mp reached
          obtain ⟨next', points', rest'⟩ := descend_cons_some.mp reached'
          simp only [List.length_cons] at firstHeight secondHeight lengthEq below
          have tailLength : path.length = path'.length := by omega
          have height1 : height first = some (path.length + h + 1) := by
            rw [firstHeight]
            congr 1
            omega
          have height2 : height second = some (path.length + h + 1) := by
            rw [secondHeight]
            congr 1
            omega
          obtain ⟨nextEq, pathEq⟩ := ih (forest.closed height1 points)
            (by rw [← tailLength]; exact forest.closed height2 points')
            tailLength (by omega) rest rest'
          subst nextEq
          obtain ⟨indexEq, atTop | nodeEq⟩ := forest.unique height1 height2 points points'
          · omega
          · exact ⟨nodeEq, by rw [indexEq, pathEq]⟩

/-- Two roots reach one node only along one path, through one shared child. -/
theorem Forest.root_descend_injective {first second node : Node} {index index' : Index}
    {path path' : List Index} (firstHeight : height first = some top)
    (secondHeight : height second = some top) (topEq : top = path.length + h + 1)
    (lengthEq : path.length = path'.length)
    (reached : descend child store first (index :: path) = some node)
    (reached' : descend child store second (index' :: path') = some node) :
    index = index' ∧ path = path' ∧
      child (store first index) = child (store second index') := by
  obtain ⟨next, points, rest⟩ := descend_cons_some.mp reached
  obtain ⟨next', points', rest'⟩ := descend_cons_some.mp reached'
  rw [topEq] at firstHeight secondHeight
  obtain ⟨nextEq, pathEq⟩ := forest.descend_injective
    (forest.closed firstHeight points)
    (by rw [← lengthEq]; exact forest.closed secondHeight points')
    lengthEq (by omega) rest rest'
  subst nextEq
  obtain ⟨indexEq, -⟩ := forest.unique firstHeight secondHeight points points'
  exact ⟨indexEq, pathEq, points.trans points'.symm⟩

theorem Forest.path_unique {root node : Node} {path path' : List Index}
    (rootHeight : height root = some top) (lengthLe : path.length ≤ top)
    (lengthLe' : path'.length ≤ top) (reached : descend child store root path = some node)
    (reached' : descend child store root path' = some node) : path = path' := by
  have nodeHeight : height node = some (top - path.length) :=
    forest.descend_height (by rw [rootHeight]; congr 1; omega) reached
  have nodeHeight' : height node = some (top - path'.length) :=
    forest.descend_height (by rw [rootHeight]; congr 1; omega) reached'
  have lengthEq : path.length = path'.length := by
    rw [nodeHeight, Option.some.injEq] at nodeHeight'
    omega
  cases path with
  | nil => exact (List.eq_nil_of_length_eq_zero lengthEq.symm).symm
  | cons index path =>
      cases path' with
      | nil => cases lengthEq
      | cons index' path' =>
          rw [List.length_cons] at lengthLe
          rw [List.length_cons, List.length_cons, Nat.succ.injEq] at lengthEq
          obtain ⟨indexEq, pathEq, -⟩ := forest.root_descend_injective (h := top - path.length - 1)
            rootHeight rootHeight (by omega) lengthEq reached reached'
          rw [indexEq, pathEq]

end

section Updates

variable [DecidableEq Node]

/-- A node outside the forest whose row copies a root's row is a new root. -/
theorem Forest.addRoot (forest : Forest child store top height)
    {root fresh : Node}
    (rootHeight : height root = some top) (freshHeight : height fresh = none)
    (copied : ∀ index, store fresh index = store root index) :
    Forest child store top (update height fresh (some top)) := by
  -- the source root stands in for the new one
  have source : ∀ {other h}, update height fresh (some top) other = some h →
      ∃ old, height old = some h ∧ (∀ index, store other index = store old index) ∧
        (h = top ∨ old = other) := by
    intro other h otherHeight
    by_cases isFresh : other = fresh
    · subst isFresh
      rw [update_self] at otherHeight
      cases otherHeight
      exact ⟨root, rootHeight, copied, Or.inl rfl⟩
    · rw [update_of_ne isFresh] at otherHeight
      exact ⟨other, otherHeight, fun _ => rfl, Or.inr rfl⟩
  refine ⟨?_, ?_, ?_⟩
  · intro other h otherHeight
    obtain ⟨old, oldHeight, -⟩ := source otherHeight
    exact forest.height_le oldHeight
  · intro other index next h otherHeight points
    obtain ⟨old, oldHeight, rowEq, -⟩ := source otherHeight
    rw [rowEq] at points
    have nextHeight := forest.closed oldHeight points
    have nextNe : next ≠ fresh := by
      rintro rfl
      simp [freshHeight] at nextHeight
    rw [update_of_ne nextNe]
    exact nextHeight
  · intro other other' index index' next h otherHeight otherHeight' points points'
    obtain ⟨old, oldHeight, rowEq, atTop⟩ := source otherHeight
    obtain ⟨old', oldHeight', rowEq', atTop'⟩ := source otherHeight'
    rw [rowEq] at points
    rw [rowEq'] at points'
    obtain ⟨indexEq, same⟩ := forest.unique oldHeight oldHeight' points points'
    refine ⟨indexEq, ?_⟩
    rcases same with isTop | oldEq
    · exact Or.inl isTop
    · rcases atTop with isTop | rfl
      · exact Or.inl isTop
      · rcases atTop' with isTop | rfl
        · exact Or.inl isTop
        · exact Or.inr oldEq

variable [DecidableEq Index]

def setEntry (store : Node → Index → Entry) (node : Node) (index : Index)
    (entry : Entry) : Node → Index → Entry :=
  fun other position => if other = node ∧ position = index then entry else store other position

@[simp]
theorem setEntry_self (node : Node) (index : Index) (entry : Entry) :
    setEntry store node index entry node index = entry := by
  simp [setEntry]

theorem setEntry_of_ne_node {node other : Node} (different : other ≠ node)
    (index position : Index) (entry : Entry) :
    setEntry store node index entry other position = store other position := by
  simp [setEntry, different]

theorem setEntry_of_ne {node other : Node} {index position : Index}
    (different : ¬(other = node ∧ position = index)) (entry : Entry) :
    setEntry store node index entry other position = store other position := by
  simp [setEntry, different]

section

variable (forest : Forest child store top height)
include forest

theorem Forest.setEntry_leaf {node : Node} (leafHeight : height node = some 0) (index : Index)
    (entry : Entry) :
    Forest child (setEntry store node index entry) top height := by
  have rowEq : ∀ {other h position}, height other = some (h + 1) →
      setEntry store node index entry other position = store other position := by
    intro other h position otherHeight
    apply setEntry_of_ne_node
    rintro rfl
    simp [leafHeight] at otherHeight
  refine ⟨forest.height_le, ?_, ?_⟩
  · intro other position next h otherHeight points
    rw [rowEq otherHeight] at points
    exact forest.closed otherHeight points
  · intro other other' position position' next h otherHeight otherHeight' points points'
    rw [rowEq otherHeight] at points
    rw [rowEq otherHeight'] at points'
    exact forest.unique otherHeight otherHeight' points points'

theorem Forest.descend_setEntry_leaf {node root : Node} (leafHeight : height node = some 0)
    (index : Index) (entry : Entry) {path : List Index}
    (rootHeight : height root = some path.length) :
    descend child (setEntry store node index entry) root path =
      descend child store root path := by
  refine forest.descend_congr (h := 0) rootHeight ?_
  intro other k position otherHeight positive
  apply setEntry_of_ne_node
  rintro rfl
  rw [leafHeight, Option.some.injEq] at otherHeight
  omega

/-- A leaf write changes the lookups that end in the written slot and no
other. -/
theorem Forest.lookup_setEntry_leaf {node root : Node} (leafHeight : height node = some 0)
    (index : Index) (entry : Entry) (blank : Entry) {path : List Index} (last : Index)
    (rootHeight : height root = some path.length) :
    lookup child (setEntry store node index entry) blank root path last =
      if descend child store root path = some node ∧ last = index then entry
      else lookup child store blank root path last := by
  rw [lookup, lookup, forest.descend_setEntry_leaf leafHeight index entry rootHeight]
  cases reached : descend child store root path with
  | none => simp
  | some leaf => simp [setEntry]

theorem Forest.link {node fresh : Node} {index : Index} {entry : Entry}
    (nodeHeight : height node = some (h + 1)) (freshHeight : height fresh = none)
    (empty : ∀ position, child (store fresh position) = none) (points : child entry = some fresh) :
    Forest child (setEntry store node index entry) top
      (update height fresh (some h)) := by
  have nodeNe : node ≠ fresh := by
    rintro rfl
    simp [freshHeight] at nodeHeight
  have freshRow : ∀ position,
      child (setEntry store node index entry fresh position) = none := by
    intro position
    rw [setEntry_of_ne_node nodeNe.symm]
    exact empty position
  -- a positive row is old, and its slot is either the linked one or unchanged
  have slot : ∀ {other k position next},
      update height fresh (some h) other = some (k + 1) →
      child (setEntry store node index entry other position) = some next →
      height other = some (k + 1) ∧
        ((other = node ∧ position = index ∧ next = fresh ∧ k = h) ∨
          (child (store other position) = some next ∧ height next = some k)) := by
    intro other k position next otherHeight pointsTo
    by_cases isFresh : other = fresh
    · rw [isFresh, freshRow] at pointsTo
      simp at pointsTo
    · rw [update_of_ne isFresh] at otherHeight
      refine ⟨otherHeight, ?_⟩
      by_cases linked : other = node ∧ position = index
      · obtain ⟨rfl, rfl⟩ := linked
        rw [setEntry_self, points, Option.some.injEq] at pointsTo
        rw [nodeHeight, Option.some.injEq] at otherHeight
        exact Or.inl ⟨rfl, rfl, pointsTo.symm, by omega⟩
      · rw [setEntry_of_ne linked] at pointsTo
        exact Or.inr ⟨pointsTo, forest.closed otherHeight pointsTo⟩
  refine ⟨?_, ?_, ?_⟩
  · intro other k otherHeight
    by_cases isFresh : other = fresh
    · rw [isFresh, update_self, Option.some.injEq] at otherHeight
      have := forest.height_le nodeHeight
      omega
    · rw [update_of_ne isFresh] at otherHeight
      exact forest.height_le otherHeight
  · intro other position next k otherHeight pointsTo
    obtain ⟨-, ⟨rfl, rfl, rfl, rfl⟩ | ⟨-, nextHeight⟩⟩ := slot otherHeight pointsTo
    · exact update_self _ _ _
    · have nextNe : next ≠ fresh := by
        rintro rfl
        simp [freshHeight] at nextHeight
      rw [update_of_ne nextNe]
      exact nextHeight
  · intro other other' position position' next k otherHeight otherHeight' pointsTo pointsTo'
    obtain ⟨height1, ⟨node1, index1, next1, -⟩ | ⟨old1, nextHeight1⟩⟩ :=
      slot otherHeight pointsTo <;>
    obtain ⟨height2, ⟨node2, index2, next2, -⟩ | ⟨old2, nextHeight2⟩⟩ :=
      slot otherHeight' pointsTo'
    · exact ⟨index1.trans index2.symm, Or.inr (node1.trans node2.symm)⟩
    · rw [next1, freshHeight] at nextHeight2
      simp at nextHeight2
    · rw [next2, freshHeight] at nextHeight1
      simp at nextHeight1
    · exact forest.unique height1 height2 old1 old2

theorem Forest.lookup_link {node fresh : Node} {index : Index} {entry blank : Entry}
    (nodeHeight : height node = some (h + 1)) (freshHeight : height fresh = none)
    (absent : child (store node index) = none) (blankRow : ∀ position, store fresh position = blank)
    (blankChild : child blank = none) (points : child entry = some fresh) {root : Node}
    {path : List Index} (last : Index) (rootHeight : height root = some path.length) :
    lookup child (setEntry store node index entry) blank root path last =
      lookup child store blank root path last := by
  have nodeNe : fresh ≠ node := by
    rintro rfl
    simp [freshHeight] at nodeHeight
  have freshLookup : ∀ path : List Index,
      lookup child (setEntry store node index entry) blank fresh path last = blank := by
    intro path
    cases path with
    | nil => simp [lookup, descend, setEntry_of_ne_node nodeNe, blankRow]
    | cons position path =>
        simp [lookup, descend, setEntry_of_ne_node nodeNe, blankRow, blankChild]
  induction path generalizing root with
  | nil =>
      have rootNe : root ≠ node := by
        rintro rfl
        simp [rootHeight] at nodeHeight
      simp [lookup, descend, setEntry_of_ne_node rootNe]
  | cons position path ih =>
      by_cases linked : root = node ∧ position = index
      · obtain ⟨rfl, rfl⟩ := linked
        have before : lookup child store blank root (position :: path) last = blank := by
          simp [lookup, descend, absent]
        have after : lookup child (setEntry store root position entry) blank root
            (position :: path) last =
              lookup child (setEntry store root position entry) blank fresh path last := by
          simp [lookup, descend, points]
        rw [before, after, freshLookup]
      · cases pointsTo : child (store root position) with
        | none => simp [lookup, descend, setEntry_of_ne linked, pointsTo]
        | some next =>
            have nextHeight : height next = some path.length := by
              refine forest.closed ?_ pointsTo
              simpa using rootHeight
            have step := ih nextHeight
            simpa [lookup, descend, setEntry_of_ne linked, pointsTo] using step

end

end Updates

end Radix
