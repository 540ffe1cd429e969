import USprache.BuildSystem.BuildGraph

/-!
# Execution of a build

The second half of `PerformGraphBuild`: the nodes that are marked for rebuild are
executed.  Special commands are executed at once, all others in processes that run at the
same time, up to a limit.  A node is started when all nodes that produce its input files are
ready.

An environment says of each node whether it can be started and whether it succeeds, and of
each call of `DoWork` which processes have closed their pipes by then.  The log keeps what
happened; nothing in the code depends on it.
-/

namespace USprache.BuildSystem

inductive BuildGraphNodeState where
  | ready
  | rebuildRequired
  | rebuildInProgress
deriving DecidableEq

inductive Event where
  | started (index : Nat)
  | finished (index : Nat)
deriving DecidableEq

structure Environment where
  /-- `StartProcess` creates the process of a node. -/
  starts : Nat → Bool
  succeeds : Nat → Bool
  /-- The call of `poll` in the call of `DoWork` with this number succeeds. -/
  polls : Nat → Bool
  /-- The pipe of the process of a node is closed in the call of `DoWork` with this number,
  unless it was closed before. -/
  closes : Nat → Nat → Bool

/-- What the execution is given: the nodes and their marks. -/
structure Build where
  nodes : List LoadedNode
  nodesToRebuild : List Bool
  maxNumberOfParallelJobs : Nat
  size_eq : nodesToRebuild.length = nodes.length

structure ProcessGroup where
  runningProcesses : List Nat
  finishedProcesses : List Nat

/-- The group after a call of `DoWork` and the commands that finished in it. -/
structure WorkResult where
  ok : Bool
  group : ProcessGroup
  log : List Event

/-- `swap` with the last process and `pop_back`, for the process in front of `rest`. -/
def moveLast (rest : List Nat) : List Nat :=
  match rest.getLast? with
  | none => []
  | some last => last :: rest.dropLast

/-- The loop of `DoWork` over running processes.  Those before the current one are `kept`. -/
def removeFinished (closed succeeds : Nat → Bool) :
    Nat → List Nat → List Nat → List Nat → List Event → WorkResult
  | 0, kept, rest, finished, log => ⟨true, ⟨kept ++ rest, finished⟩, log⟩
  | _ + 1, kept, [], finished, log => ⟨true, ⟨kept, finished⟩, log⟩
  | fuel + 1, kept, id :: rest, finished, log =>
    if closed id then
      if succeeds id then
        removeFinished closed succeeds fuel kept (moveLast rest) (finished ++ [id])
          (log ++ [.finished id])
      else ⟨false, ⟨kept ++ moveLast rest, finished⟩, log⟩
    else removeFinished closed succeeds fuel (kept ++ [id]) rest finished log

def doWork (env : Environment) (call : Nat) (group : ProcessGroup) : WorkResult :=
  if group.runningProcesses = [] then ⟨true, group, []⟩
  else if env.polls call then
    removeFinished (env.closes call) env.succeeds group.runningProcesses.length []
      group.runningProcesses group.finishedProcesses []
  else ⟨false, group, []⟩

def destroyProcesses (env : Environment) (group : ProcessGroup) : List Event :=
  (group.runningProcesses.filter env.succeeds).map Event.finished

structure BuildState where
  nodesState : List BuildGraphNodeState
  buildStepsStarted : Nat
  buildStepsFinished : Nat
  processGroup : ProcessGroup
  log : List Event

namespace Build

variable (build : Build)

def numNodesToRebuild : Nat := build.nodesToRebuild.count true

def start : BuildState where
  nodesState := build.nodesToRebuild.map (fun rebuild =>
    if rebuild then .rebuildRequired else .ready)
  buildStepsStarted := 0
  buildStepsFinished := 0
  processGroup := ⟨[], []⟩
  log := []

def canStartRebuild (outputFileToNodeIdMap : FileToNodesMap)
    (nodesState : List BuildGraphNodeState) (n : LoadedNode) : Bool :=
  n.inputs.all (fun file => (outputFileToNodeIdMap.find file).all (fun inputNode =>
    nodesState[inputNode]? = some .ready))

def nodeToRebuildIndex (nodesState : List BuildGraphNodeState) : Option Nat :=
  build.nodes.zipIdx.findSome? (fun (n, i) =>
    if nodesState[i]? = some .rebuildRequired &&
      canStartRebuild (buildOutputFileToNodeIndexMap build.nodes) nodesState n then some i
    else none)

inductive StartResult where
  | started (st : BuildState)
  | wait (st : BuildState)
  | stuck (st : BuildState)
  | failed (st : BuildState)

/-- `nodes_state[node_to_rebuild_index]= RebuildInProgress`, and the step is counted. -/
def beginStep (st : BuildState) (i : Nat) : BuildState := { st with
    nodesState := st.nodesState.set i .rebuildInProgress
    buildStepsStarted := st.buildStepsStarted + 1
    log := st.log ++ [.started i] }

def endStep (st : BuildState) (i : Nat) : BuildState := { st with
    nodesState := st.nodesState.set i .ready
    buildStepsFinished := st.buildStepsFinished + 1 }

variable (env : Environment)

def startNode (st : BuildState) : StartResult :=
  if st.processGroup.runningProcesses.length < build.maxNumberOfParallelJobs ∧
      st.buildStepsStarted < build.numNodesToRebuild then
    match build.nodeToRebuildIndex st.nodesState with
    | none => if st.buildStepsFinished < st.buildStepsStarted then .wait st else .stuck st
    | some i =>
      let begun := beginStep st i
      if (build.nodes[i]?.map (·.node.program)).any (fun program =>
          program = SpecialBuildCommands.copyFile || program = SpecialBuildCommands.generateFile) then
        if env.succeeds i then
          .started { endStep begun i with log := begun.log ++ [.finished i] }
        else .failed begun
      else if env.starts i then
        .started { begun with processGroup :=
          { st.processGroup with runningProcesses := st.processGroup.runningProcesses ++ [i] } }
      else .failed begun
  else .wait st

/-- The loop that starts processes.  Each pass counts one more step as started. -/
def startNodes (build : Build) (env : Environment) : Nat → BuildState → StartResult
  | 0, st => .wait st
  | fuel + 1, st =>
    match build.startNode env st with
    | .started st => startNodes build env fuel st
    | result => result

/-- The finished processes are taken, the last one first. -/
def takeFinished (st : BuildState) : BuildState :=
  let st' := st.processGroup.finishedProcesses.foldr (fun i st => endStep st i) st
  { st' with processGroup := { st.processGroup with finishedProcesses := [] } }

inductive Progress where
  | running (st : BuildState)
  | returned (result : Bool) (st : BuildState)

def Progress.state : Progress → BuildState
  | .running st => st
  | .returned _ st => st

/-- The destructor of the process group on an early return. -/
def returnFalse (st : BuildState) : Progress :=
  .returned false { st with log := st.log ++ destroyProcesses env st.processGroup }

def lastCheck (st : BuildState) : Progress :=
  .returned (st.nodesState.all (fun state => state = .ready)) st

def turn (call : Nat) (st : BuildState) : Progress :=
  match build.startNodes env (build.numNodesToRebuild + 1) st with
  | .failed st => returnFalse env st
  | .stuck st => lastCheck st
  | .wait st | .started st =>
    let work := doWork env call st.processGroup
    let st := { st with processGroup := work.group, log := st.log ++ work.log }
    if work.ok then
      let st := takeFinished st
      if st.buildStepsFinished ≥ build.numNodesToRebuild then lastCheck st else .running st
    else returnFalse env st

def loop (build : Build) (env : Environment) : Nat → Nat → BuildState → Progress
  | 0, _, st => .running st
  | fuel + 1, call, st =>
    match build.turn env call st with
    | .running st => loop build env fuel (call + 1) st
    | result => result

def perform (fuel : Nat) : Progress :=
  if build.numNodesToRebuild = 0 then .returned true build.start
  else build.loop env fuel 0 build.start

end Build

end USprache.BuildSystem
