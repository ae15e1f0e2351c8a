import CrossSafety.Proofs.Arrangement
import Mathlib.Data.List.Perm.Subperm

/-!
# Graphs of logs

A graph over numbered nodes, and Kahn's way to put the nodes in order: a node is taken once no edge
from a node that is left leads to it, which is told by counting those edges. All nodes can be taken
exactly if they have ranks that go up along every edge.
-/
namespace CrossSafety

/-- A graph over the nodes below `nodes`. An edge may be there several times. -/
structure LogGraph where
  nodes : Nat
  edges : List (Nat × Nat)

namespace LogGraph

def addEdge (graph : LogGraph) (source target : Nat) : LogGraph :=
  { graph with edges := graph.edges ++ [(source, target)] }

/-- How many edges lead to a node. -/
def inDegree (edges : List (Nat × Nat)) (node : Nat) : Nat :=
  edges.countP fun edge => edge.2 = node

/-- The ends of the edges that leave a node. -/
def successors (edges : List (Nat × Nat)) (node : Nat) : List Nat :=
  (edges.filter fun edge => edge.1 = node).map Prod.snd

/-- The edges without those that leave a node. -/
def cut (edges : List (Nat × Nat)) (node : Nat) : List (Nat × Nat) :=
  edges.filter fun edge => edge.1 ≠ node

/-- The degrees when one edge to a node is taken away. -/
def lowered (degree : Nat → Nat) (target node : Nat) : Nat :=
  if node = target then degree node - 1 else degree node

/-- Takes one edge away for each target. A target without an edge left joins the queue. -/
def release : List Nat → List Nat → (Nat → Nat) → List Nat × (Nat → Nat)
  | [], queue, degree => (queue, degree)
  | target :: rest, queue, degree =>
    let next := lowered degree target
    release rest (if next target = 0 then queue ++ [target] else queue) next

theorem length_release_le {targets queue : List Nat} {degree : Nat → Nat} :
    (release targets queue degree).1.length ≤ queue.length + targets.length := by
  induction targets generalizing queue degree with
  | nil => exact Nat.le_refl _
  | cons target rest ih =>
    rw [release, List.length_cons]
    refine Nat.le_trans ih ?_
    split
    · rw [List.length_append, List.length_singleton]
      omega
    · omega

theorem length_successors_add (edges : List (Nat × Nat)) (node : Nat) :
    (successors edges node).length + (cut edges node).length = edges.length := by
  rw [successors, cut, List.length_map, ← List.countP_eq_length_filter,
    ← List.countP_eq_length_filter, edges.length_eq_countP_add_countP fun edge => edge.1 = node]
  simp

/-- Takes the nodes of the queue one after the other, with those that their edges release. -/
def take (queue : List Nat) (edges : List (Nat × Nat)) (degree : Nat → Nat) : List Nat :=
  match queue with
  | [] => []
  | node :: rest =>
    node :: take (release (successors edges node) rest degree).1 (cut edges node)
      (release (successors edges node) rest degree).2
termination_by queue.length + edges.length
decreasing_by
  have hqueue := @length_release_le (successors edges node) rest degree
  have hedges := length_successors_add edges node
  simp only [List.length_cons]
  omega

/-- The nodes that can be put in order, first one first. -/
def order (graph : LogGraph) : List Nat :=
  take ((List.range graph.nodes).filter fun node => inDegree graph.edges node = 0) graph.edges
    (inDegree graph.edges)

def isAcyclic (graph : LogGraph) : Bool := graph.order.length = graph.nodes

/-- Every edge joins nodes of the graph. -/
def Within (graph : LogGraph) : Prop :=
  ∀ edge ∈ graph.edges, edge.1 < graph.nodes ∧ edge.2 < graph.nodes

/-- Ranks that go up along every edge. -/
def Ascends (graph : LogGraph) (rank : Nat → Nat) : Prop :=
  ∀ edge ∈ graph.edges, rank edge.1 < rank edge.2

/-! ## Releasing nodes -/

theorem count_cons_eq (target : Nat) (rest : List Nat) (node : Nat) :
    (target :: rest).count node = (if node = target then 1 else 0) + rest.count node := by
  rw [List.count_cons, Nat.add_comm]
  simp only [beq_iff_eq, eq_comm (a := node)]

theorem lowered_add {degree : Nat → Nat} {target : Nat} (hpos : 0 < degree target) (node : Nat) :
    lowered degree target node + (if node = target then 1 else 0) = degree node := by
  rw [lowered]
  split
  · rename_i heq
    subst heq
    omega
  · rfl

/-- A release takes one off each degree for every target. -/
theorem release_degree (targets queue : List Nat) (degree : Nat → Nat) (node : Nat) :
    (release targets queue degree).2 node = degree node - targets.count node := by
  induction targets generalizing queue degree with
  | nil => rfl
  | cons target rest ih =>
    rw [release, ih, count_cons_eq, lowered]
    split <;> omega

/-- The nodes that no edge leads to any more join the queue, each of them once. -/
theorem release_queue {targets queue : List Nat} {degree : Nat → Nat}
    (hcount : ∀ node, targets.count node ≤ degree node) :
    ∃ fresh, (release targets queue degree).1 = queue ++ fresh ∧ fresh.Nodup ∧
      ∀ node, node ∈ fresh ↔ node ∈ targets ∧ degree node = targets.count node := by
  induction targets generalizing queue degree with
  | nil => exact ⟨[], by simp [release]⟩
  | cons target rest ih =>
    have hself := hcount target
    rw [count_cons_eq, if_pos rfl] at hself
    have hlowered := @lowered_add degree target (by omega)
    have hrest (node : Nat) : rest.count node ≤ lowered degree target node := by
      have hle := hcount node
      rw [count_cons_eq, ← hlowered] at hle
      omega
    obtain ⟨fresh, hqueue, hnodup, hfresh⟩ :=
      @ih (if lowered degree target target = 0 then queue ++ [target] else queue) _ hrest
    have htarget := hfresh target
    have hother {node : Nat} (hne : node ≠ target) :
        node ∈ fresh ↔ node ∈ target :: rest ∧ degree node = (target :: rest).count node := by
      rw [hfresh, count_cons_eq, ← hlowered node, if_neg hne, List.mem_cons, or_iff_right hne,
        Nat.add_zero, Nat.zero_add]
    have hone := hlowered target
    rw [if_pos rfl] at hone
    rw [release]
    by_cases hzero : lowered degree target target = 0
    · -- the last edge to this target is taken away, so it is not among the later ones
      have hlast : rest.count target = 0 := Nat.le_zero.mp (hzero ▸ hrest target)
      rw [if_pos hzero] at hqueue
      refine ⟨target :: fresh, ?_, List.nodup_cons.mpr ⟨fun hmem => ?_, hnodup⟩, fun node => ?_⟩
      · rw [if_pos hzero, hqueue, List.append_assoc, List.singleton_append]
      · exact List.count_eq_zero.mp hlast (htarget.mp hmem).1
      · by_cases heq : node = target
        · subst heq
          rw [count_cons_eq, if_pos rfl]
          simp only [List.mem_cons, true_or, true_and, true_iff]
          omega
        · rw [List.mem_cons, or_iff_right heq, hother heq]
    · rw [if_neg hzero] at hqueue
      refine ⟨fresh, by rw [if_neg hzero, hqueue], hnodup, fun node => ?_⟩
      by_cases heq : node = target
      · subst heq
        rw [htarget, count_cons_eq, if_pos rfl, ← hone]
        constructor
        · rintro ⟨-, hsame⟩
          exact ⟨List.mem_cons_self, by omega⟩
        · rintro ⟨-, hsame⟩
          exact ⟨List.count_pos_iff.mp (by omega), by omega⟩
      · exact hother heq

/-! ## Taking nodes -/

/-- Nodes are left, some of them in the queue. The queue holds the nodes that no edge leads to, and
the degrees count the edges. -/
structure Remaining (left : Nat → Prop) (queue : List Nat) (edges : List (Nat × Nat))
    (degree : Nat → Nat) : Prop where
  nodup : queue.Nodup
  mem_queue : ∀ node, node ∈ queue ↔ left node ∧ degree node = 0
  degree_eq : ∀ node, degree node = inDegree edges node
  inside : ∀ edge ∈ edges, left edge.1 ∧ left edge.2

variable {left : Nat → Prop} {queue : List Nat} {edges : List (Nat × Nat)} {degree : Nat → Nat}

theorem count_successors (edges : List (Nat × Nat)) (node target : Nat) :
    (successors edges node).count target =
      edges.countP fun edge => edge.1 = node ∧ edge.2 = target := by
  rw [successors, List.count_eq_countP, List.countP_map, List.countP_filter]
  refine List.countP_congr fun edge _ => ?_
  simp [and_comm]

theorem inDegree_split (edges : List (Nat × Nat)) (node target : Nat) :
    inDegree edges target = (successors edges node).count target +
      inDegree (cut edges node) target := by
  rw [count_successors, inDegree, inDegree, cut, List.countP_filter,
    List.countP_eq_countP_filter_add edges (fun edge => edge.2 = target)
      (fun edge => edge.1 = node), List.countP_filter, List.countP_filter]
  congr 1
  · exact List.countP_congr fun edge _ => by simp [and_comm]
  · exact List.countP_congr fun edge _ => by simp

namespace Remaining

variable {node : Nat} {rest : List Nat}

theorem not_target (h : Remaining left (node :: rest) edges degree) {edge : Nat × Nat}
    (hmem : edge ∈ edges) : edge.2 ≠ node := by
  have hzero := ((h.mem_queue node).mp List.mem_cons_self).2
  rw [h.degree_eq, inDegree, List.countP_eq_zero] at hzero
  exact fun heq => hzero edge hmem (decide_eq_true heq)

theorem count_le (h : Remaining left queue edges degree) (node target : Nat) :
    (successors edges node).count target ≤ degree target := by
  rw [h.degree_eq, inDegree_split edges node]
  exact Nat.le_add_right _ _

/-- A successor of the first node of the queue is left and not in the queue. -/
theorem of_successor (h : Remaining left (node :: rest) edges degree) {target : Nat}
    (hsuccessor : target ∈ successors edges node) :
    left target ∧ target ≠ node ∧ 0 < degree target := by
  have hpos := Nat.lt_of_lt_of_le (List.count_pos_iff.mpr hsuccessor) (h.count_le node target)
  obtain ⟨edge, hedge, rfl⟩ := List.mem_map.mp hsuccessor
  have hmem := (List.mem_filter.mp hedge).1
  exact ⟨(h.inside edge hmem).2, h.not_target hmem, hpos⟩

/-- The nodes that remain when the first one of the queue was taken. -/
theorem next (h : Remaining left (node :: rest) edges degree) :
    Remaining (fun other => left other ∧ other ≠ node)
      (release (successors edges node) rest degree).1
      (cut edges node)
      (release (successors edges node) rest degree).2 := by
  have hdegree := release_degree (successors edges node) rest degree
  obtain ⟨fresh, hqueue, hfresh, hmem⟩ := @release_queue _ rest _ (h.count_le node)
  obtain ⟨hnotin, hrest⟩ := List.nodup_cons.mp h.nodup
  have hnext (target : Nat) : (release (successors edges node) rest degree).2 target =
      inDegree (cut edges node) target := by
    rw [hdegree, h.degree_eq, inDegree_split edges node]
    omega
  rw [hqueue]
  refine ⟨?_, fun target => ?_, hnext, fun edge hedge => ?_⟩
  · refine List.nodup_append.mpr ⟨hrest, hfresh, fun a ha b hb heq => ?_⟩
    subst heq
    have hzero := ((h.mem_queue a).mp (List.mem_cons_of_mem _ ha)).2
    exact Nat.ne_of_gt (h.of_successor ((hmem a).mp hb).1).2.2 hzero
  · rw [List.mem_append, hmem, hdegree]
    constructor
    · rintro (hqueued | ⟨hsuccessor, hsame⟩)
      · obtain ⟨hleft, hzero⟩ := (h.mem_queue target).mp (List.mem_cons_of_mem _ hqueued)
        exact ⟨⟨hleft, fun heq => hnotin (heq ▸ hqueued)⟩, by omega⟩
      · obtain ⟨hleft, hne, -⟩ := h.of_successor hsuccessor
        exact ⟨⟨hleft, hne⟩, by omega⟩
    · rintro ⟨⟨hleft, hne⟩, hzero⟩
      have hle := h.count_le node target
      by_cases hsuccessor : target ∈ successors edges node
      · exact .inr ⟨hsuccessor, by omega⟩
      · rw [List.count_eq_zero.mpr hsuccessor] at hzero
        exact .inl ((List.mem_cons.mp ((h.mem_queue target).mpr ⟨hleft, hzero⟩)).resolve_left hne)
  · obtain ⟨hedge, hsource⟩ := List.mem_filter.mp hedge
    obtain ⟨hfrom, hto⟩ := h.inside edge hedge
    exact ⟨⟨hfrom, of_decide_eq_true hsource⟩, hto, h.not_target hedge⟩

end Remaining

/-- What was taken, in order: the sources of edges come first, and a node stays behind only if an
edge from such a node leads to it. -/
structure Taken (left : Nat → Prop) (edges : List (Nat × Nat)) (order : List Nat) : Prop where
  nodup : order.Nodup
  inside : ∀ node ∈ order, left node
  before : ∀ edge ∈ edges, edge.2 ∈ order → [edge.1, edge.2].Sublist order
  stuck : ∀ node, left node → node ∉ order → ∃ edge ∈ edges, edge.2 = node ∧ edge.1 ∉ order

theorem take_taken (h : Remaining left queue edges degree) :
    Taken left edges (take queue edges degree) := by
  induction queue, edges, degree using take.induct generalizing left with
  | case1 edges degree =>
    rw [take]
    refine ⟨.nil, fun _ hmem => absurd hmem List.not_mem_nil, fun _ _ hmem =>
      absurd hmem List.not_mem_nil, fun node hleft _ => ?_⟩
    have hpos : inDegree edges node ≠ 0 := fun hzero =>
      absurd ((h.mem_queue node).mpr ⟨hleft, (h.degree_eq node).trans hzero⟩) List.not_mem_nil
    obtain ⟨edge, hmem, hedge⟩ := List.countP_pos_iff.mp (Nat.pos_of_ne_zero hpos)
    exact ⟨edge, hmem, of_decide_eq_true hedge, List.not_mem_nil⟩
  | case2 edges degree node rest ih =>
    rw [take]
    have hrest := ih h.next
    have hnode := ((h.mem_queue node).mp List.mem_cons_self).1
    refine ⟨List.nodup_cons.mpr ⟨fun hmem => (hrest.inside node hmem).2 rfl, hrest.nodup⟩, ?_, ?_, ?_⟩
    · exact List.forall_mem_cons.mpr ⟨hnode, fun other hmem => (hrest.inside other hmem).1⟩
    · intro edge hedge htarget
      have htarget := (List.mem_cons.mp htarget).resolve_left (h.not_target hedge)
      by_cases hsource : edge.1 = node
      · rw [hsource]
        exact (List.singleton_sublist.mpr htarget).cons_cons node
      · exact (hrest.before edge (List.mem_filter.mpr ⟨hedge, by simpa using hsource⟩)
          htarget).cons node
    · intro other hleft hnotin
      obtain ⟨hne, hnotin⟩ := not_or.mp (mt List.mem_cons.mpr hnotin)
      obtain ⟨edge, hedge, htarget, hsource⟩ := hrest.stuck other ⟨hleft, hne⟩ hnotin
      obtain ⟨hedge, hother⟩ := List.mem_filter.mp hedge
      have hother : edge.1 ≠ node := by simpa using hother
      exact ⟨edge, hedge, htarget, fun hmem => (List.mem_cons.mp hmem).elim hother hsource⟩

/-! ## Acyclic graphs -/

variable {graph : LogGraph}

theorem Within.remaining (h : graph.Within) : Remaining (· < graph.nodes)
    ((List.range graph.nodes).filter fun node => inDegree graph.edges node = 0) graph.edges
    (inDegree graph.edges) where
  nodup := List.nodup_range.filter _
  mem_queue node := by rw [List.mem_filter, List.mem_range, decide_eq_true_iff]
  degree_eq _ := rfl
  inside := h

theorem Within.taken (h : graph.Within) : Taken (· < graph.nodes) graph.edges graph.order :=
  take_taken h.remaining

/-- A node with the lowest rank among those left behind has no edge that holds it. -/
theorem Taken.all_of_ascends {order : List Nat} (h : Taken left edges order) {rank : Nat → Nat}
    (hinside : ∀ edge ∈ edges, left edge.1)
    (hrank : ∀ edge ∈ edges, rank edge.1 < rank edge.2) {node : Nat} (hleft : left node) :
    node ∈ order := by
  by_contra hnotin
  generalize hn : rank node = n
  induction n using Nat.strongRecOn generalizing node with
  | ind n ih =>
    obtain ⟨edge, hedge, rfl, hsource⟩ := h.stuck node hleft hnotin
    exact ih _ (hn ▸ hrank edge hedge) (hinside edge hedge) hsource rfl

/-- The nodes of a graph can be put in order exactly if they have ranks. -/
theorem isAcyclic_iff (h : graph.Within) :
    graph.isAcyclic = true ↔ ∃ rank, graph.Ascends rank := by
  have htaken := h.taken
  have hrange : graph.order.Subperm (List.range graph.nodes) :=
    htaken.nodup.subperm fun node hmem => List.mem_range.mpr (htaken.inside node hmem)
  rw [isAcyclic, decide_eq_true_iff]
  constructor
  · intro hlength
    have hperm := hrange.perm_of_length_le (Nat.le_of_eq (List.length_range.trans hlength.symm))
    refine ⟨graph.order.idxOf, fun edge hedge => ?_⟩
    have htarget : edge.2 ∈ graph.order :=
      hperm.mem_iff.mpr (List.mem_range.mpr (h edge hedge).2)
    exact idxOf_lt_of_sublist htaken.nodup (htaken.before edge hedge htarget)
  · rintro ⟨rank, hrank⟩
    have hall : (List.range graph.nodes).Subperm graph.order :=
      List.nodup_range.subperm fun node hmem => htaken.all_of_ascends
        (fun edge hedge => (h edge hedge).1) hrank (List.mem_range.mp hmem)
    have hlength := Nat.le_antisymm hrange.length_le hall.length_le
    rwa [List.length_range] at hlength

end LogGraph

end CrossSafety
