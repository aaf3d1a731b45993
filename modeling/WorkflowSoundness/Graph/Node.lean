/-!
The nodes of a workflow graph: the start and end events, activities, and the three pairs of
gateways. A gateway either splits one flow into several or merges several into one.

Nodes are numbered from 0 in the order in which they were added, and edges from 0 when a
graph is closed; the texts of both kinds of number are here too.
-/

namespace WorkflowSoundness

/-- What a node of a workflow stands for. -/
inductive NodeKind where
  | start
  | finish
  | activity
  | fork
  | join
  | split
  | merge
  | orFork
  | orJoin
  deriving DecidableEq, Repr

namespace NodeKind

def all : List NodeKind :=
  [.start, .finish, .activity, .fork, .join, .split, .merge, .orFork, .orJoin]

def text : NodeKind → String
  | .start => "START"
  | .finish => "END"
  | .activity => "ACTIVITY"
  | .fork => "FORK"
  | .join => "JOIN"
  | .split => "SPLIT"
  | .merge => "MERGE"
  | .orFork => "OR_FORK"
  | .orJoin => "OR_JOIN"

/-- The spelling used in diagnostic dumps. -/
def label : NodeKind → String
  | .start => "Start"
  | .finish => "End"
  | .activity => "Activity"
  | .fork => "Fork"
  | .join => "Join"
  | .split => "Split"
  | .merge => "Merge"
  | .orFork => "OrFork"
  | .orJoin => "OrJoin"

def ofText? (text : String) : Option NodeKind :=
  all.find? fun kind => kind.text == text

/-- The gateway that closes this one, or that this one closes. -/
def counterpart : NodeKind → Option NodeKind
  | .fork => some .join
  | .join => some .fork
  | .split => some .merge
  | .merge => some .split
  | .orFork => some .orJoin
  | .orJoin => some .orFork
  | .start | .finish | .activity => none

def isSplitting : NodeKind → Bool
  | .fork | .split | .orFork => true
  | _ => false

def isMerging : NodeKind → Bool
  | .join | .merge | .orJoin => true
  | _ => false

def isGateway (kind : NodeKind) : Bool :=
  kind.isSplitting || kind.isMerging

/-- The splitting gateways that start concurrent branches. -/
def isForking : NodeKind → Bool
  | .fork | .orFork => true
  | _ => false

/-- The splitting gateways that may leave a branch out. -/
def isChoosing : NodeKind → Bool
  | .split | .orFork => true
  | _ => false

/-- The merging gateways that wait for several branches. -/
def isSynchronizing : NodeKind → Bool
  | .join | .orJoin => true
  | _ => false

theorem ofText?_text (kind : NodeKind) : ofText? kind.text = some kind := by
  cases kind <;> decide

section Classes

variable {kind : NodeKind}

theorem isSplitting_of_isForking (forking : kind.isForking = true) : kind.isSplitting = true := by
  revert forking
  cases kind <;> decide

theorem isSplitting_of_isChoosing (choosing : kind.isChoosing = true) :
    kind.isSplitting = true := by
  revert choosing
  cases kind <;> decide

theorem isMerging_of_isSynchronizing (waits : kind.isSynchronizing = true) :
    kind.isMerging = true := by
  revert waits
  cases kind <;> decide

/-- No gateway is of both kinds. -/
theorem not_isMerging_of_isSplitting (splitting : kind.isSplitting = true) :
    ¬ kind.isMerging = true := by
  revert splitting
  cases kind <;> decide

end Classes

end NodeKind

def nodeText (node : Nat) : String :=
  s!"n{node}"

def edgeText (edge : Nat) : String :=
  s!"e{edge}"

/-- The spelling of a node's number in diagnostic dumps. -/
def nodeLabel (node : Nat) : String :=
  s!"NodeId({node})"

def edgeLabel (edge : Nat) : String :=
  s!"EdgeId({edge})"

/-- An edge with its number and the nodes that it joins. -/
def edgeLine (edge source target : Nat) : String :=
  s!"{edgeText edge} ({nodeText source} -> {nodeText target})"

end WorkflowSoundness
