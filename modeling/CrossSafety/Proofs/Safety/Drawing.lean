import CrossSafety.Proofs.Safety.LogGraph
import CrossSafety.Proofs.Safety.Order

/-!
# The graph of the logs of hazard blocks

The logs of all hazard blocks are numbered one after the other and make the nodes of a graph. An
edge leads from each log to the next one of its block, and from a log that initiates a message of the
timestamp to the log that executes it. Putting the nodes of this graph in order decides as the check
of the order does, error for error.
-/
namespace CrossSafety.Hazards

/-! ## Numbering the logs -/

def logTotal : List (MemberIndex × BlockContents) → Nat
  | [] => 0
  | (_, opened) :: rest => opened.logCount.toNat + logTotal rest

/-- The number of the first log of a chain's block. -/
def firstNode : List (MemberIndex × BlockContents) → MemberIndex → Nat
  | [], _ => 0
  | (chain, opened) :: rest, index =>
    if chain = index then 0 else opened.logCount.toNat + firstNode rest index

/-- The chain and the position of the log with a number. -/
def logAt : List (MemberIndex × BlockContents) → Nat → MemberIndex × Nat
  | [], node => (0, node)
  | (chain, opened) :: rest, node =>
    if node < opened.logCount.toNat then (chain, node) else logAt rest (node - opened.logCount.toNat)

def node (blocks : Table MemberIndex BlockContents) (log : MemberIndex × Nat) : Nat :=
  firstNode blocks.toList log.1 + log.2

theorem firstNode_add_le {entries : List (MemberIndex × BlockContents)} {index : MemberIndex}
    {opened : BlockContents} (hdistinct : (entries.map Prod.fst).Nodup)
    (hmem : (index, opened) ∈ entries) :
    firstNode entries index + opened.logCount.toNat ≤ logTotal entries := by
  induction entries with
  | nil => exact absurd hmem List.not_mem_nil
  | cons entry rest ih =>
    obtain ⟨chain, first⟩ := entry
    obtain ⟨hnotin, hrest⟩ := List.nodup_cons.mp hdistinct
    rw [firstNode, logTotal]
    rcases List.mem_cons.mp hmem with heq | hmem
    · cases heq
      rw [if_pos rfl]
      omega
    · have hne : chain ≠ index := fun heq =>
        hnotin (List.mem_map.mpr ⟨(index, opened), hmem, heq.symm⟩)
      have hle := ih hrest hmem
      rw [if_neg hne]
      omega

theorem logAt_firstNode {entries : List (MemberIndex × BlockContents)} {index : MemberIndex}
    {opened : BlockContents} {log : Nat} (hdistinct : (entries.map Prod.fst).Nodup)
    (hmem : (index, opened) ∈ entries) (hlog : log < opened.logCount.toNat) :
    logAt entries (firstNode entries index + log) = (index, log) := by
  induction entries with
  | nil => exact absurd hmem List.not_mem_nil
  | cons entry rest ih =>
    obtain ⟨chain, first⟩ := entry
    obtain ⟨hnotin, hrest⟩ := List.nodup_cons.mp hdistinct
    rw [firstNode, logAt]
    rcases List.mem_cons.mp hmem with heq | hmem
    · cases heq
      rw [if_pos rfl, Nat.zero_add, if_pos hlog]
    · have hne : chain ≠ index := fun heq =>
        hnotin (List.mem_map.mpr ⟨(index, opened), hmem, heq.symm⟩)
      rw [if_neg hne, if_neg (by omega), Nat.add_assoc, Nat.add_sub_cancel_left, ih hrest hmem]

section Numbering

variable {blocks : Table MemberIndex BlockContents} {index : MemberIndex} {opened : BlockContents}
  {log : Nat}

theorem node_lt (hget : blocks.get? index = some opened) (hlog : log < opened.logCount.toNat) :
    node blocks (index, log) < logTotal blocks.toList := by
  have hle := firstNode_add_le blocks.keys_nodup (Table.mem_toList.mpr hget)
  exact Nat.lt_of_lt_of_le (Nat.add_lt_add_left hlog _) hle

theorem logAt_node (hget : blocks.get? index = some opened) (hlog : log < opened.logCount.toNat) :
    logAt blocks.toList (node blocks (index, log)) = (index, log) :=
  logAt_firstNode blocks.keys_nodup (Table.mem_toList.mpr hget) hlog

end Numbering

/-! ## Drawing the edges -/

/-- Draws an edge from each log of a block to the next one. -/
def drawBlock (first count : Nat) (graph : LogGraph) : LogGraph :=
  (List.range (count - 1)).foldl (fun graph log => graph.addEdge (first + log) (first + log + 1))
    graph

/-- Draws an edge for each message that a log waits for. Stops at a message that may not be waited
for. -/
def drawMessages (blocks : Table MemberIndex BlockContents) (timestamp : UInt64)
    (index : MemberIndex) :
    List (UInt32 × ExecutingMessage) → LogGraph → LogGraph × Except RuleViolation Unit
  | [], graph => (graph, .ok ())
  | (logIndex, message) :: rest, graph =>
    match waitOf blocks timestamp index logIndex message with
    | .error violation => (graph, .error violation)
    | .ok none => drawMessages blocks timestamp index rest graph
    | .ok (some wait) => drawMessages blocks timestamp index rest
        (graph.addEdge (node blocks (wait.chain, wait.target)) (node blocks (index, wait.log)))

def drawBlocks (blocks : Table MemberIndex BlockContents) (timestamp : UInt64) :
    List (MemberIndex × BlockContents) → LogGraph → LogGraph × Except RuleViolation Unit
  | [], graph => (graph, .ok ())
  | (index, opened) :: rest, graph =>
    match drawMessages blocks timestamp index opened.messages.toList
      (drawBlock (node blocks (index, 0)) opened.logCount.toNat graph) with
    | (drawn, .ok ()) => drawBlocks blocks timestamp rest drawn
    | (drawn, .error violation) => (drawn, .error violation)

/-- The graph of the logs, as far as it is drawn, and how the drawing ends. -/
def logGraph (blocks : Table MemberIndex BlockContents) (timestamp : UInt64) :
    LogGraph × Except RuleViolation Unit :=
  drawBlocks blocks timestamp blocks.toList ⟨logTotal blocks.toList, []⟩

/-- Checks that the logs of the hazard blocks can be put in order, by their graph. -/
def checkGraph (view : SafetyView) (set : DependencySet) (timestamp : UInt64)
    (hazards : Hazards) : Check Unit := do
  let blocks ← openHazards view set hazards.toList .empty
  let (graph, drawn) := logGraph blocks timestamp
  .ofResult (drawn.mapError .conflict)
  if graph.isAcyclic then pure () else .reject (.cycle timestamp)

/-! ## The links between logs -/

/-- A log has to come before another one: it is the log before it in the block, or it initiates the
message that the other one executes. -/
inductive Link (blocks : Table MemberIndex BlockContents) (timestamp : UInt64) :
    MemberIndex × Nat → MemberIndex × Nat → Prop
  | next {index : MemberIndex} {opened : BlockContents} {log : Nat}
    (hget : blocks.get? index = some opened) (hlog : log + 1 < opened.logCount.toNat) :
    Link blocks timestamp (index, log) (index, log + 1)
  | message {index : MemberIndex} {opened : BlockContents} {logIndex : UInt32}
    {message : ExecutingMessage} {wait : LogWait} (hget : blocks.get? index = some opened)
    (hmessage : opened.messages.get? logIndex = some message)
    (hwait : waitOf blocks timestamp index logIndex message = .ok (some wait)) :
    Link blocks timestamp (wait.chain, wait.target) (index, wait.log)

/-- Ranks of the logs that go up along every link. -/
def RanksLinks (blocks : Table MemberIndex BlockContents) (timestamp : UInt64)
    (rank : MemberIndex × Nat → Nat) : Prop :=
  ∀ first second, Link blocks timestamp first second → rank first < rank second

/-- Drawing adds edges that satisfy `link`, and all of them unless it ends in an error. -/
structure Draws (link : Nat × Nat → Prop) (graph : LogGraph)
    (drawn : LogGraph × Except RuleViolation Unit) : Prop where
  nodes : drawn.1.nodes = graph.nodes
  kept : ∀ edge ∈ graph.edges, edge ∈ drawn.1.edges
  sound : ∀ edge ∈ drawn.1.edges, edge ∈ graph.edges ∨ link edge
  complete : drawn.2 = .ok () → ∀ edge, link edge → edge ∈ drawn.1.edges

namespace Draws

variable {link further : Nat × Nat → Prop} {graph : LogGraph}
  {drawn last : LogGraph × Except RuleViolation Unit}

theorem refl (h : ∀ edge, ¬link edge) : Draws link graph (graph, .ok ()) :=
  ⟨rfl, fun _ hmem => hmem, fun _ hmem => .inl hmem, fun _ edge hlink => absurd hlink (h edge)⟩

/-- Drawing goes on after all of the first edges were drawn. -/
theorem trans (h : Draws link graph drawn) (hok : drawn.2 = .ok ())
    (h' : Draws further drawn.1 last) : Draws (fun edge => link edge ∨ further edge) graph last where
  nodes := h'.nodes.trans h.nodes
  kept edge hmem := h'.kept edge (h.kept edge hmem)
  sound edge hmem := by
    rcases h'.sound edge hmem with hmem | hfurther
    · exact (h.sound edge hmem).imp_right .inl
    · exact .inr (.inr hfurther)
  complete hlast edge hlink := by
    rcases hlink with hlink | hfurther
    · exact h'.kept edge (h.complete hok edge hlink)
    · exact h'.complete hlast edge hfurther

/-- Drawing ended before the further edges. -/
theorem stop (h : Draws link graph drawn) {violation : RuleViolation}
    (herror : drawn.2 = .error violation) :
    Draws (fun edge => link edge ∨ further edge) graph drawn where
  nodes := h.nodes
  kept := h.kept
  sound edge hmem := (h.sound edge hmem).imp_right .inl
  complete hok := by
    rw [herror] at hok
    cases hok

theorem congr (h : Draws link graph drawn) (heq : ∀ edge, further edge ↔ link edge) :
    Draws further graph drawn := by
  rwa [funext fun edge => propext (heq edge)]

end Draws

section Drawing

variable {blocks : Table MemberIndex BlockContents} {timestamp : UInt64} {index : MemberIndex}

theorem addEdge_draws (source target : Nat) (graph : LogGraph) :
    Draws (· = (source, target)) graph (graph.addEdge source target, .ok ()) where
  nodes := rfl
  kept _ hmem := List.mem_append_left _ hmem
  sound _ hmem := (List.mem_append.mp hmem).imp_right List.mem_singleton.mp
  complete _ _ heq := List.mem_append_right _ (List.mem_singleton.mpr heq)

theorem drawBlock_draws (first count : Nat) (graph : LogGraph) :
    Draws (fun edge => ∃ log, log + 1 < count ∧ edge = (first + log, first + log + 1)) graph
      (drawBlock first count graph, .ok ()) := by
  have hlogs (logs : List Nat) (graph : LogGraph) :
      Draws (fun edge => ∃ log ∈ logs, edge = (first + log, first + log + 1)) graph
        (logs.foldl (fun graph log => graph.addEdge (first + log) (first + log + 1)) graph,
          .ok ()) := by
    induction logs generalizing graph with
    | nil => exact .refl fun edge => by simp
    | cons log rest ih =>
      refine ((addEdge_draws (first + log) (first + log + 1) graph).trans rfl (ih _)).congr
        fun edge => ?_
      rw [List.exists_mem_cons_iff]
  refine (hlogs (List.range (count - 1)) graph).congr fun edge => exists_congr fun log => ?_
  rw [List.mem_range, Nat.lt_sub_iff_add_lt]

/-- The edge of a message that a log of a block waits for. -/
def MessageEdge (blocks : Table MemberIndex BlockContents) (timestamp : UInt64)
    (index : MemberIndex) (entry : UInt32 × ExecutingMessage) (edge : Nat × Nat) : Prop :=
  ∃ wait, waitOf blocks timestamp index entry.1 entry.2 = .ok (some wait) ∧
    edge = (node blocks (wait.chain, wait.target), node blocks (index, wait.log))

theorem drawMessages_draws (messages : List (UInt32 × ExecutingMessage)) (graph : LogGraph) :
    Draws (fun edge => ∃ entry ∈ messages, MessageEdge blocks timestamp index entry edge) graph
      (drawMessages blocks timestamp index messages graph) := by
  induction messages generalizing graph with
  | nil => exact .refl fun edge => by simp
  | cons entry rest ih =>
    obtain ⟨logIndex, message⟩ := entry
    have hcons (edge : Nat × Nat) :
        (∃ entry ∈ (logIndex, message) :: rest, MessageEdge blocks timestamp index entry edge) ↔
          MessageEdge blocks timestamp index (logIndex, message) edge ∨
            ∃ entry ∈ rest, MessageEdge blocks timestamp index entry edge :=
      List.exists_mem_cons_iff _ _ _
    rw [drawMessages]
    split
    · rename_i violation hwait
      exact ⟨rfl, fun _ hmem => hmem, fun _ hmem => .inl hmem, fun hok => nomatch hok⟩
    · rename_i hwait
      refine (ih graph).congr fun edge => (hcons edge).trans (or_iff_right ?_)
      rintro ⟨wait, hsome, -⟩
      cases hwait.symm.trans hsome
    · rename_i wait hwait
      refine ((addEdge_draws _ _ graph).trans rfl (ih _)).congr fun edge => (hcons edge).trans
        (or_congr_left ⟨?_, fun heq => ⟨wait, hwait, heq⟩⟩)
      rintro ⟨other, hsome, rfl⟩
      cases hwait.symm.trans hsome
      rfl

/-- The edges that belong to a block. -/
def BlockEdge (blocks : Table MemberIndex BlockContents) (timestamp : UInt64)
    (entry : MemberIndex × BlockContents) (edge : Nat × Nat) : Prop :=
  (∃ log, log + 1 < entry.2.logCount.toNat ∧
    edge = (node blocks (entry.1, 0) + log, node blocks (entry.1, 0) + log + 1)) ∨
  ∃ message ∈ entry.2.messages.toList, MessageEdge blocks timestamp entry.1 message edge

theorem drawBlocks_draws (entries : List (MemberIndex × BlockContents)) (graph : LogGraph) :
    Draws (fun edge => ∃ entry ∈ entries, BlockEdge blocks timestamp entry edge) graph
      (drawBlocks blocks timestamp entries graph) := by
  induction entries generalizing graph with
  | nil => exact .refl fun edge => by simp
  | cons entry rest ih =>
    obtain ⟨index, opened⟩ := entry
    have hblock : Draws (BlockEdge blocks timestamp (index, opened)) graph
        (drawMessages blocks timestamp index opened.messages.toList
          (drawBlock (node blocks (index, 0)) opened.logCount.toNat graph)) :=
      (drawBlock_draws (node blocks (index, 0)) opened.logCount.toNat graph).trans rfl
        (drawMessages_draws opened.messages.toList _)
    have hcons (edge : Nat × Nat) :
        (∃ entry ∈ (index, opened) :: rest, BlockEdge blocks timestamp entry edge) ↔
          BlockEdge blocks timestamp (index, opened) edge ∨
            ∃ entry ∈ rest, BlockEdge blocks timestamp entry edge :=
      List.exists_mem_cons_iff _ _ _
    rw [drawBlocks]
    split
    · rename_i drawn hdrawn
      rw [hdrawn] at hblock
      exact (hblock.trans rfl (ih drawn)).congr hcons
    · rename_i drawn violation hdrawn
      rw [hdrawn] at hblock
      exact (hblock.stop rfl).congr hcons

theorem exists_blockEdge {edge : Nat × Nat} :
    (∃ entry ∈ blocks.toList, BlockEdge blocks timestamp entry edge) ↔
      ∃ first second, Link blocks timestamp first second ∧
        edge = (node blocks first, node blocks second) := by
  constructor
  · rintro ⟨⟨index, opened⟩, hmem, ⟨log, hlog, rfl⟩ | ⟨⟨logIndex, message⟩, hmessage, hedge⟩⟩
    · exact ⟨_, _, .next (Table.mem_toList.mp hmem) hlog, rfl⟩
    · obtain ⟨wait, hwait, rfl⟩ := hedge
      exact ⟨_, _, .message (Table.mem_toList.mp hmem) (Table.mem_toList.mp hmessage) hwait, rfl⟩
  · rintro ⟨first, second, hlink, rfl⟩
    cases hlink with
    | @next index opened log hget hlog =>
      exact ⟨(index, opened), Table.mem_toList.mpr hget, .inl ⟨log, hlog, rfl⟩⟩
    | @message index opened logIndex message wait hget hmessage hwait =>
      exact ⟨(index, opened), Table.mem_toList.mpr hget,
        .inr ⟨(logIndex, message), Table.mem_toList.mpr hmessage, wait, hwait, rfl⟩⟩

/-- The graph has the edges of the links, all of them if it was drawn to the end. -/
theorem logGraph_draws : Draws (fun edge => ∃ first second, Link blocks timestamp first second ∧
      edge = (node blocks first, node blocks second)) ⟨logTotal blocks.toList, []⟩
    (logGraph blocks timestamp) :=
  (drawBlocks_draws blocks.toList _).congr fun _ => exists_blockEdge.symm

/-! ## The drawing ends as the waits do -/

theorem drawMessages_result (messages : List (UInt32 × ExecutingMessage)) (graph : LogGraph) :
    (drawMessages blocks timestamp index messages graph).2 =
      (waitsOf blocks timestamp index messages).map fun _ => () := by
  induction messages generalizing graph with
  | nil => rfl
  | cons entry rest ih =>
    obtain ⟨logIndex, message⟩ := entry
    rw [drawMessages, waitsOf]
    cases waitOf blocks timestamp index logIndex message with
    | error violation => rfl
    | ok wait =>
      have hrest (graph : LogGraph) : (drawMessages blocks timestamp index rest graph).2 =
          (do return wait.toList ++ (← waitsOf blocks timestamp index rest) :
            Except RuleViolation (List LogWait)).map fun _ => () := by
        rw [ih]
        cases waitsOf blocks timestamp index rest <;> rfl
      cases wait <;> exact hrest _

theorem logGraph_result : (logGraph blocks timestamp).2 =
    (waits blocks timestamp).map fun _ => () := by
  rw [logGraph, waits]
  generalize (⟨logTotal blocks.toList, []⟩ : LogGraph) = graph
  induction blocks.toList generalizing graph with
  | nil => rfl
  | cons entry rest ih =>
    obtain ⟨index, opened⟩ := entry
    have hmessages := @drawMessages_result blocks timestamp index opened.messages.toList
      (drawBlock (node blocks (index, 0)) opened.logCount.toNat graph)
    rw [drawBlocks, List.mapM_cons]
    dsimp only
    cases hwaits : waitsOf blocks timestamp index opened.messages.toList with
    | error violation =>
      rw [hwaits] at hmessages
      split
      · rename_i hdrawn
        rw [hdrawn] at hmessages
        cases hmessages
      · rename_i hdrawn
        rw [hdrawn] at hmessages
        exact hmessages
    | ok found =>
      rw [hwaits] at hmessages
      split
      · rw [ih]
        simp only [Outcome.ok_bind, Outcome.pure_eq]
        generalize (rest.mapM _ : Except RuleViolation (List WaitingLogs)) = others
        cases others <;> rfl
      · rename_i hdrawn
        rw [hdrawn] at hmessages
        cases hmessages

/-! ## Ranks of the links -/

/-- The executing logs are logs of their blocks. -/
def Inside (blocks : Table MemberIndex BlockContents) : Prop :=
  ∀ index opened, blocks.get? index = some opened → ∀ logIndex message,
    opened.messages.get? logIndex = some message → logIndex < opened.logCount

theorem Link.inside (hinside : Inside blocks) {first second : MemberIndex × Nat}
    (h : Link blocks timestamp first second) :
    (∃ opened, blocks.get? first.1 = some opened ∧ first.2 < opened.logCount.toNat) ∧
      ∃ opened, blocks.get? second.1 = some opened ∧ second.2 < opened.logCount.toNat := by
  cases h with
  | next hget hlog => exact ⟨⟨_, hget, Nat.lt_of_succ_lt hlog⟩, _, hget, hlog⟩
  | message hget hmessage hwait =>
    obtain ⟨-, initiating, hinitiating, -, -, hlt, rfl⟩ := waitOf_eq_some.mp hwait
    exact ⟨⟨initiating, hinitiating, UInt32.lt_iff_toNat_lt.mp hlt⟩, _, hget,
      UInt32.lt_iff_toNat_lt.mp (hinside _ _ hget _ _ hmessage)⟩

/-- No edge leaves the graph, also if the drawing ends in an error. -/
theorem logGraph_within (hinside : Inside blocks) : (logGraph blocks timestamp).1.Within := by
  intro edge hmem
  have hdraws := @logGraph_draws blocks timestamp
  rw [hdraws.nodes]
  rcases hdraws.sound edge hmem with hnone | ⟨first, second, hlink, rfl⟩
  · exact absurd hnone List.not_mem_nil
  · obtain ⟨⟨_, hfirst, hlt⟩, _, hsecond, hlt'⟩ := hlink.inside hinside
    exact ⟨node_lt hfirst hlt, node_lt hsecond hlt'⟩

/-- A graph that was drawn to the end is acyclic exactly if the links have ranks. -/
theorem isAcyclic_iff_ranksLinks (hinside : Inside blocks)
    (hdrawn : (logGraph blocks timestamp).2 = .ok ()) :
    (logGraph blocks timestamp).1.isAcyclic = true ↔ ∃ rank, RanksLinks blocks timestamp rank := by
  have hdraws := @logGraph_draws blocks timestamp
  rw [LogGraph.isAcyclic_iff (logGraph_within hinside)]
  constructor
  · rintro ⟨rank, hrank⟩
    exact ⟨fun log => rank (node blocks log), fun first second hlink =>
      hrank _ (hdraws.complete hdrawn _ ⟨first, second, hlink, rfl⟩)⟩
  · rintro ⟨rank, hrank⟩
    refine ⟨fun number => rank (logAt blocks.toList number), fun edge hmem => ?_⟩
    rcases hdraws.sound edge hmem with hnone | ⟨first, second, hlink, rfl⟩
    · exact absurd hnone List.not_mem_nil
    · obtain ⟨⟨_, hfirst, hlt⟩, _, hsecond, hlt'⟩ := hlink.inside hinside
      have hlog : logAt blocks.toList (node blocks first) = first := logAt_node hfirst hlt
      have hlog' : logAt blocks.toList (node blocks second) = second := logAt_node hsecond hlt'
      dsimp only
      rw [hlog, hlog']
      exact hrank first second hlink

/-- Ranks of the links go up within a block. -/
theorem RanksLinks.lt_of_lt {rank : MemberIndex × Nat → Nat} (h : RanksLinks blocks timestamp rank)
    {opened : BlockContents} (hget : blocks.get? index = some opened) {a b : Nat} (hlt : a < b)
    (hb : b < opened.logCount.toNat) : rank (index, a) < rank (index, b) := by
  induction b with
  | zero => exact absurd hlt (Nat.not_lt_zero a)
  | succ b ih =>
    have hlast : rank (index, b) < rank (index, b + 1) := h _ _ (.next hget hb)
    rcases Nat.lt_succ_iff_lt_or_eq.mp hlt with hlt | rfl
    · exact Nat.lt_trans (ih hlt (Nat.lt_of_succ_lt hb)) hlast
    · exact hlast

/-- The position of the last log of a hazard block, or zero. -/
def lastPosition (blocks : Table MemberIndex BlockContents) (index : MemberIndex) : Nat :=
  ((blocks.get? index).map fun opened => opened.logCount.toNat - 1).getD 0

theorem min_lastPosition {index : MemberIndex} {opened : BlockContents} {log : UInt32}
    (hget : blocks.get? index = some opened) (hlog : log < opened.logCount) :
    min log.toNat (lastPosition blocks index) = log.toNat := by
  have hlt := UInt32.lt_iff_toNat_lt.mp hlog
  simp only [lastPosition, hget, Option.map_some, Option.getD_some]
  omega

/-- Beyond the last log of its block a position ranks like that log. -/
theorem RanksLinks.inOrder {rank : MemberIndex × Nat → Nat} (h : RanksLinks blocks timestamp rank)
    (hinside : Inside blocks) (hmay : AllMayWait blocks timestamp) :
    InOrder blocks timestamp fun index log => rank (index, min log (lastPosition blocks index)) where
  mono index a b hle := by
    rcases Nat.lt_or_ge (min a (lastPosition blocks index)) (min b (lastPosition blocks index)) with
      hlt | hge
    · cases hget : blocks.get? index with
      | none =>
        have hzero : lastPosition blocks index = 0 := by simp only [lastPosition, hget]; rfl
        omega
      | some opened =>
        have hcount : lastPosition blocks index = opened.logCount.toNat - 1 := by
          simp only [lastPosition, hget]
          rfl
        exact Nat.le_of_lt (h.lt_of_lt hget hlt (by omega))
    · have hsame : min a (lastPosition blocks index) = min b (lastPosition blocks index) := by omega
      exact Nat.le_of_eq (congrArg (fun log => rank (index, log)) hsame)
  before index opened logIndex message initiating hget hmessage htime hinitiating hnumber := by
    obtain ⟨found, hfound, hother, hlt⟩ := hmay index opened hget logIndex message hmessage htime
    cases hinitiating.symm.trans hfound
    rw [min_lastPosition hinitiating (hlt hnumber),
      min_lastPosition hget (hinside _ _ hget _ _ hmessage)]
    exact h _ _ (.message hget hmessage (waitOf_eq_some.mpr
      ⟨htime, initiating, hinitiating, hother, hnumber, hlt hnumber, rfl⟩))

/-- Logs of one block that rank the same are told apart by their positions. -/
theorem InOrder.ranksLinks {rank : MemberIndex → Nat → Nat} (h : InOrder blocks timestamp rank) :
    RanksLinks blocks timestamp fun log => rank log.1 log.2 * 4294967296 + log.2 := by
  intro first second hlink
  cases hlink with
  | @next index opened log hget hlog =>
    have hle := h.mono index log (log + 1) (Nat.le_succ log)
    dsimp only
    omega
  | @message index opened logIndex message wait hget hmessage hwait =>
    obtain ⟨htime, initiating, hinitiating, -, hnumber, -, rfl⟩ := waitOf_eq_some.mp hwait
    have hlt := h.before index opened logIndex message initiating hget hmessage htime hinitiating
      hnumber
    have hbound := message.logIndex.toNat_lt
    dsimp only
    omega

/-- The logs have ranks along the links exactly if they have ranks in which logs of one block may be
equal. -/
theorem exists_ranksLinks_iff (hinside : Inside blocks) (hmay : AllMayWait blocks timestamp) :
    (∃ rank, RanksLinks blocks timestamp rank) ↔ ∃ rank, InOrder blocks timestamp rank :=
  ⟨fun ⟨_, hrank⟩ => ⟨_, hrank.inOrder hinside hmay⟩, fun ⟨_, hrank⟩ => ⟨_, hrank.ranksLinks⟩⟩

/-! ## The two checks agree -/

theorem canBePlaced_eq_isAcyclic (hinside : Inside blocks) {waiting : List WaitingLogs}
    (hwaiting : waits blocks timestamp = .ok waiting) :
    WaitingLogs.canBePlaced waiting = (logGraph blocks timestamp).1.isAcyclic := by
  have hwaits := waitsAs_of_waits hwaiting
  have hdrawn : (logGraph blocks timestamp).2 = .ok () := by
    rw [logGraph_result, hwaiting]
    rfl
  rw [Bool.eq_iff_iff, isAcyclic_iff_ranksLinks hinside hdrawn,
    exists_ranksLinks_iff hinside hwaits.mayWait]
  constructor
  · intro hplaced
    obtain ⟨rank, -, hranks, -⟩ := WaitingLogs.exists_ranks hwaits.wellFormed hplaced
    exact ⟨rank, hwaits.ranks_iff.mp hranks⟩
  · rintro ⟨rank, hranks⟩
    exact WaitingLogs.canBePlaced_of_ranks hwaits.wellFormed hwaits.targeted
      (hwaits.ranks_iff.mpr hranks)

theorem OpenedAs.inside {view : SafetyView} {set : DependencySet} {hazards : Hazards}
    (h : OpenedAs view set hazards blocks) : Inside blocks := by
  intro index opened hget
  obtain ⟨hazard, -, hopens⟩ := h.opens index opened hget
  exact hopens.inside

/-- The graph decides as the waits do. -/
theorem checkOrder_eq_checkGraph (view : SafetyView) (set : DependencySet) (timestamp : UInt64)
    (hazards : Hazards) : (checkOrder view set timestamp hazards).result =
      (checkGraph view set timestamp hazards).result := by
  simp only [checkOrder, checkGraph, Check.result_bind, Check.result_ofResult]
  cases hblocks : (openHazards view set hazards.toList .empty).result with
  | error error => rfl
  | ok blocks =>
    simp only [Outcome.ok_bind]
    rw [logGraph_result]
    cases hwaiting : waits blocks timestamp with
    | error violation => rfl
    | ok waiting =>
      have hinside := (openedAs_of_openHazards hblocks).inside
      rw [Outcome.mapError_ok, Outcome.ok_bind, canBePlaced_eq_isAcyclic hinside hwaiting]
      rfl

end Drawing

end CrossSafety.Hazards
