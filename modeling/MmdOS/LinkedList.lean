import Mathlib.Data.List.Nodup
import Mathlib.Logic.Function.Basic
import Mathlib.Tactic.Common

/-!
# Null-terminated linked lists

A linked list is given by the successor of every node.  `Links` says which
nodes are visited from a head on before the null node is reached.  Changing the
successor of one node replaces what comes behind it.
-/

namespace LinkedList

variable {Node : Type*}

/-- From `head` on, exactly the given nodes are visited. -/
def Links (next : Node → Node) (null : Node) : Node → List Node → Prop
  | head, [] => head = null
  | head, node :: nodes => head = node ∧ node ≠ null ∧ Links next null (next node) nodes

variable {next next' : Node → Node} {null head : Node} {nodes : List Node}

@[simp]
theorem links_nil : Links next null head [] ↔ head = null :=
  Iff.rfl

@[simp]
theorem links_cons {node : Node} :
    Links next null head (node :: nodes) ↔
      head = node ∧ node ≠ null ∧ Links next null (next node) nodes :=
  Iff.rfl

section

variable (links : Links next null head nodes)
include links

theorem Links.ne_null {node : Node} (member : node ∈ nodes) :
    node ≠ null := by
  induction nodes generalizing head with
  | nil => simp at member
  | cons first nodes ih =>
      rcases List.mem_cons.mp member with rfl | inRest
      · exact links.2.1
      · exact ih links.2.2 inRest

theorem Links.head_eq_null :
    head = null ↔ nodes = [] := by
  cases nodes with
  | nil => simpa using links
  | cons node nodes =>
      rw [links.1]
      simp [links.2.1]

theorem Links.head_mem (notEmpty : nodes ≠ []) :
    head ∈ nodes := by
  cases nodes with
  | nil => exact absurd rfl notEmpty
  | cons node nodes =>
      rw [links.1]
      exact List.mem_cons_self

theorem Links.unique {others : List Node} (links' : Links next null head others) :
    nodes = others := by
  induction nodes generalizing head others with
  | nil =>
      cases others with
      | nil => rfl
      | cons other others => exact absurd (links'.1.symm.trans links) links'.2.1
  | cons node nodes ih =>
      cases others with
      | nil => exact absurd (links.1.symm.trans links') links.2.1
      | cons other others =>
          obtain ⟨rfl, -, rest⟩ := links
          obtain ⟨rfl, -, rest'⟩ := links'
          rw [ih rest rest']

theorem Links.congr (agree : ∀ node ∈ nodes, next' node = next node) :
    Links next' null head nodes := by
  induction nodes generalizing head with
  | nil => exact links
  | cons node nodes ih =>
      obtain ⟨headEq, notNull, rest⟩ := links
      refine ⟨headEq, notNull, ?_⟩
      rw [agree node List.mem_cons_self]
      exact ih rest fun other member => agree other (List.mem_cons_of_mem _ member)

end

theorem Links.behind {before after : List Node} {node : Node}
    (links : Links next null head (before ++ node :: after)) :
    Links next null (next node) after := by
  induction before generalizing head with
  | nil => exact links.2.2
  | cons first before ih => exact ih links.2.2

theorem Links.nodup (links : Links next null head nodes) : nodes.Nodup := by
  induction nodes generalizing head with
  | nil => exact List.nodup_nil
  | cons node nodes ih =>
      refine List.nodup_cons.mpr ⟨?_, ih links.2.2⟩
      intro again
      obtain ⟨before, after, split⟩ := List.append_of_mem again
      -- the rest behind both occurrences would be the same list
      have short := links.2.2
      rw [split] at short
      have same := links.2.2.unique short.behind
      rw [split] at same
      have := congrArg List.length same
      simp only [List.length_append, List.length_cons] at this
      omega

theorem Links.splice {before after after' : List Node} {node : Node}
    (links : Links next null head (before ++ node :: after))
    (agree : ∀ other ∈ before, next' other = next other)
    (behind : Links next' null (next' node) after') :
    Links next' null head (before ++ node :: after') := by
  induction before generalizing head with
  | nil => exact ⟨links.1, links.2.1, behind⟩
  | cons first before ih =>
      obtain ⟨headEq, notNull, rest⟩ := links
      refine ⟨headEq, notNull, ?_⟩
      rw [agree first List.mem_cons_self]
      exact ih rest fun other member => agree other (List.mem_cons_of_mem _ member)

theorem Links.next_eq_null {before after : List Node} {node : Node}
    (links : Links next null head (before ++ node :: after)) : next node = null ↔ after = [] :=
  links.behind.head_eq_null

theorem Links.next_mem {node : Node} (links : Links next null head nodes) (member : node ∈ nodes)
    (more : next node ≠ null) : next node ∈ nodes := by
  obtain ⟨before, after, rfl⟩ := List.append_of_mem member
  have behind := links.behind
  cases after with
  | nil => exact absurd behind more
  | cons following after =>
      rw [behind.1]
      simp

/-- The same nodes have the same last one. -/
theorem Links.next_ne_null {head' node : Node} (links : Links next null head nodes)
    (links' : Links next' null head' nodes) (member : node ∈ nodes) (more : next node ≠ null) :
    next' node ≠ null := by
  obtain ⟨before, after, rfl⟩ := List.append_of_mem member
  rwa [Ne, links'.next_eq_null, ← links.next_eq_null]

/-- Taking a node out leaves a successor to every other node, except to the
last but one when the last node goes. -/
theorem Links.next_ne_null_of_removed {head' node removed : Node} {before after : List Node}
    (links : Links next null head (before ++ removed :: after))
    (links' : Links next' null head' (before ++ after)) (member : node ∈ before ++ after)
    (more : next node ≠ null) (notLast : next node = removed → next removed ≠ null) :
    next' node ≠ null := by
  rcases List.mem_append.mp member with inBefore | inAfter
  · obtain ⟨front, middle, rfl⟩ := List.append_of_mem inBefore
    rw [List.append_assoc, List.cons_append] at links links'
    have whole : Links next null head ((front ++ node :: middle) ++ removed :: after) := by
      simpa using links
    rw [Ne, links'.next_eq_null]
    rw [Ne, whole.next_eq_null] at notLast
    intro isNil
    obtain ⟨rfl, rfl⟩ := List.append_eq_nil_iff.mp isNil
    exact notLast links.behind.1 rfl
  · obtain ⟨middle, back, rfl⟩ := List.append_of_mem inAfter
    have whole : Links next null head ((before ++ removed :: middle) ++ node :: back) := by
      simpa using links
    have whole' : Links next' null head' ((before ++ middle) ++ node :: back) := by
      simpa using links'
    rwa [Ne, whole'.next_eq_null, ← whole.next_eq_null]

end LinkedList
