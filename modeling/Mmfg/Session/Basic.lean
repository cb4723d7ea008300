import Mmfg.Layout
import Mmfg.Lib.System

/-!
# Node sessions

`Dial` takes a node ID, does the handshake and lists the session under a name.  The session's
watchdog waits for the connection to fail; then it cleans up, frees the ID, deletes the name, closes
the connection and closes the eventfd, each in a critical section of its own.  Meanwhile `Next` and
`expandResponse` look up a session and push to the request queue of its ID, and the node's event loop
pops from that queue.  The queue belongs to the ID, not to the session, and is never reset.

Every access to the hub's tables, the node IDs and the queues is a step, in any interleaving.

Stripes, slots and handlers are left out: a command is no more than the session that it is for, and
may be sent whenever that session is found.  The models of the handoffs and of the growing bus have the
same tables; `Mmfg.Hub.Sessions` and `Mmfg.Growth.Tables` show that these are always ones that are
reached here.
-/

namespace Mmfg.Session

variable {ν : Type}

/-! ## States -/

/-- How far `Dial` and then the watchdog of a session have come: the ID is allocated; the handshake
is sent; `Dial` has failed; the session is listed and the watchdog reads from the connection; that
read has failed; the resources are cleaned up; the ID is free; the name is deleted; the connection is
closed; the eventfd is closed, too. -/
inductive Stage
  | dialing
  | sent
  | failed
  | live
  | lost
  | cleaned
  | freed
  | deleted
  | connClosed
  | closed
  deriving DecidableEq

/-- A `NodeInfo`; `looping` says whether the event loop of the node runs. -/
structure NodeInfo (ν : Type) where
  name : ν
  nodeID : ℕ
  stage : Stage
  looping : Bool

/-- How far `pushToNode` has come: the target is known; an entry is claimed; the entry is written;
the target is notified, or the push was given up. -/
inductive OpStage
  | found
  | claimed
  | pushed
  | done
  deriving DecidableEq

/-- A `submit` or `expandResponse` and the session it is for. -/
structure Op where
  target : ℕ
  stage : OpStage
  deriving DecidableEq

/-- An entry of a request queue, with the operation that claimed it and the session it is for. -/
structure Entry where
  op : ℕ
  target : ℕ
  ready : Bool
  deriving DecidableEq

/-- The hub's tables, the request queues and all threads.  Sessions are numbered in the order in
which they got their IDs, operations in the order of their lookups.  Two fields are history: the
session that was last listed under a name, and what was popped, as pairs of the session that popped
and the session it was for. -/
structure State (ν : Type) where
  sessions : ℕ → Option (NodeInfo ν)
  dialled : ℕ
  nodes : ν → Option ℕ
  nodeIDs : ℕ → Bool
  ops : ℕ → Option Op
  started : ℕ
  queues : ℕ → List Entry
  latest : ν → Option ℕ
  popped : List (ℕ × ℕ)

/-! ## Steps -/

/-- What can happen next. -/
inductive Action (ν : Type)
  | dial (name : ν)
  | handshake (i : ℕ)
  | handshakeFails (i : ℕ)
  | newChunksFail (i : ℕ)
  | list (i : ℕ)
  | disconnect (i : ℕ)
  | cleanupResources (i : ℕ)
  | freeNodeID (i : ℕ)
  | delete (i : ℕ)
  | closeConn (i : ℕ)
  | closeEventfd (i : ℕ)
  | next (name : ν)
  | expandResponse (nodeID : ℕ) (name : ν)
  | claim (k : ℕ)
  | giveUp (k : ℕ)
  | publish (k : ℕ)
  | notify (k : ℕ)
  | pop (i : ℕ)
  | stop (i : ℕ)

/-- The smallest ID that is free. -/
def allocNodeID (nodeIDs : ℕ → Bool) : Option ℕ :=
  (List.range MaxNodes).find? fun id => decide (1 ≤ id) && !nodeIDs id

namespace State

/-- The record of session `i` is set. -/
def setSession (s : State ν) (i : ℕ) (x : NodeInfo ν) : State ν :=
  { s with sessions := Function.update s.sessions i (some x) }

/-- Session `i` goes from one stage to another. -/
def move (s : State ν) (i : ℕ) (before after : Stage)
    (effect : NodeInfo ν → State ν → State ν) : Option (State ν) :=
  match s.sessions i with
  | some x =>
    if x.stage = before then some (effect x (s.setSession i { x with stage := after })) else none
  | none => none

/-- An operation for a session starts. -/
def startOp (s : State ν) (target : ℕ) : State ν :=
  { s with
    ops := Function.update s.ops s.started (some ⟨target, .found⟩)
    started := s.started + 1 }

/-- Operation `k`, which is for the session `x`, goes from one stage to another. -/
def moveOp (s : State ν) (k : ℕ) (before after : OpStage) (guard : NodeInfo ν → Bool)
    (effect : Op → NodeInfo ν → State ν → State ν) : Option (State ν) :=
  match s.ops k with
  | some op =>
    match s.sessions op.target with
    | some x =>
      if op.stage = before ∧ guard x then
        some (effect op x { s with ops := Function.update s.ops k (some { op with stage := after }) })
      else none
    | none => none
  | none => none

end State

variable [DecidableEq ν]

/-- A step of any of them. -/
def step (s : State ν) : Action ν → Option (State ν)
  | .dial name =>
    match allocNodeID s.nodeIDs with
    | some id =>
      some
        { s with
          nodeIDs := Function.update s.nodeIDs id true
          sessions := Function.update s.sessions s.dialled (some ⟨name, id, .dialing, false⟩)
          dialled := s.dialled + 1 }
    | none => none
  | .handshake i =>
    s.move i .dialing .sent fun x t => t.setSession i { x with stage := .sent, looping := true }
  -- an error return of `Dial` keeps the ID
  | .handshakeFails i => s.move i .dialing .failed fun _ t => t
  | .newChunksFail i => s.move i .sent .failed fun _ t => t
  | .list i =>
    s.move i .sent .live fun x t =>
      { t with
        nodes := Function.update t.nodes x.name (some i)
        latest := Function.update t.latest x.name (some i) }
  | .disconnect i => s.move i .live .lost fun _ t => t
  | .cleanupResources i => s.move i .lost .cleaned fun _ t => t
  | .freeNodeID i =>
    s.move i .cleaned .freed fun x t => { t with nodeIDs := Function.update t.nodeIDs x.nodeID false }
  | .delete i =>
    s.move i .freed .deleted fun x t => { t with nodes := Function.update t.nodes x.name none }
  | .closeConn i => s.move i .deleted .connClosed fun _ t => t
  | .closeEventfd i => s.move i .connClosed .closed fun _ t => t
  | .next name => (s.nodes name).map s.startOp
  | .expandResponse nodeID name =>
    match s.nodes name with
    | some i =>
      match s.sessions i with
      | some x => if x.nodeID = nodeID then some (s.startOp i) else none
      | none => none
    | none => none
  | .claim k =>
    s.moveOp k .found .claimed (fun x => decide ((s.queues x.nodeID).length < QueueSize - 1))
      fun op x t =>
        { t with
          queues := Function.update t.queues x.nodeID (t.queues x.nodeID ++ [⟨k, op.target, false⟩]) }
  | .giveUp k =>
    s.moveOp k .found .done
      (fun x => decide (QueueSize - 1 ≤ (s.queues x.nodeID).length ∧ x.stage = .closed))
      fun _ _ t => t
  | .publish k =>
    s.moveOp k .claimed .pushed (fun _ => true) fun _ x t =>
      { t with
        queues := Function.update t.queues x.nodeID
          ((t.queues x.nodeID).map fun e => if e.op = k then { e with ready := true } else e) }
  | .notify k => s.moveOp k .pushed .done (fun _ => true) fun _ _ t => t
  | .pop i =>
    match s.sessions i with
    | some x =>
      match s.queues x.nodeID with
      | e :: rest =>
        if x.looping && e.ready then
          some
            { s with
              queues := Function.update s.queues x.nodeID rest
              popped := s.popped ++ [(i, e.target)] }
        else none
      | [] => none
    | none => none
  | .stop i =>
    match s.sessions i with
    | some x => some (s.setSession i { x with looping := false })
    | none => none

/-- A hub to which no node has been dialled. -/
def initial : State ν :=
  { sessions := fun _ => none
    dialled := 0
    nodes := fun _ => none
    nodeIDs := fun _ => false
    ops := fun _ => none
    started := 0
    queues := fun _ => []
    latest := fun _ => none
    popped := [] }

/-- The sessions of a hub as a system. -/
def hub (ν : Type) [DecidableEq ν] : System (State ν) (Action ν) where
  Init s := s = initial
  step := step

/-! ## What a step can do -/

/-- The session has its ID: from `allocNodeID` on until the watchdog frees it. -/
def Stage.holds : Stage → Bool
  | .dialing | .sent | .failed | .live | .lost | .cleaned => true
  | .freed | .deleted | .connClosed | .closed => false

/-- `Dial` was successful. -/
def Stage.successful : Stage → Bool
  | .dialing | .sent | .failed => false
  | .live | .lost | .cleaned | .freed | .deleted | .connClosed | .closed => true

/-- The session is between its listing and the `delete` of its watchdog. -/
def Stage.watched : Stage → Bool
  | .live | .lost | .cleaned | .freed => true
  | .dialing | .sent | .failed | .deleted | .connClosed | .closed => false

/-- A step of a session that changes neither the tables nor the node IDs. -/
structure Goes (x y : NodeInfo ν) : Prop where
  name : y.name = x.name
  nodeID : y.nodeID = x.nodeID
  holds : y.stage.holds = x.stage.holds
  watched : y.stage.watched = x.stage.watched
  live : y.stage = .live → x.stage = .live
  successful : y.stage.successful = x.stage.successful
  looping : y.looping = true → x.looping = true ∨ x.stage.holds = true

/-- The steps, those alike taken together. -/
inductive Change (s : State ν) : Action ν → State ν → Prop
  | dial (name : ν) (id : ℕ) (hid : allocNodeID s.nodeIDs = some id) :
    Change s (.dial name)
      { s with
        nodeIDs := Function.update s.nodeIDs id true
        sessions := Function.update s.sessions s.dialled (some ⟨name, id, .dialing, false⟩)
        dialled := s.dialled + 1 }
  | session {a : Action ν} (i : ℕ) (x y : NodeInfo ν) (hx : s.sessions i = some x)
      (hgoes : Goes x y) (hlost : x.stage = .live → y.stage = .live ∨ a = .disconnect i) :
    Change s a (s.setSession i y)
  | list (i : ℕ) (x : NodeInfo ν) (hx : s.sessions i = some x) (hstage : x.stage = .sent) :
    Change s (.list i)
      { s.setSession i { x with stage := .live } with
        nodes := Function.update s.nodes x.name (some i)
        latest := Function.update s.latest x.name (some i) }
  | freeNodeID (i : ℕ) (x : NodeInfo ν) (hx : s.sessions i = some x) (hstage : x.stage = .cleaned) :
    Change s (.freeNodeID i)
      { s.setSession i { x with stage := .freed } with
        nodeIDs := Function.update s.nodeIDs x.nodeID false }
  | delete (i : ℕ) (x : NodeInfo ν) (hx : s.sessions i = some x) (hstage : x.stage = .freed) :
    Change s (.delete i)
      { s.setSession i { x with stage := .deleted } with
        nodes := Function.update s.nodes x.name none }
  | startOp {a : Action ν} (name : ν) (i : ℕ) (hi : s.nodes name = some i) :
    Change s a (s.startOp i)
  | claim (k : ℕ) (op : Op) (x : NodeInfo ν) (hop : s.ops k = some op)
      (hx : s.sessions op.target = some x) (hstage : op.stage = .found) :
    Change s (.claim k)
      { s with
        ops := Function.update s.ops k (some { op with stage := .claimed })
        queues :=
          Function.update s.queues x.nodeID (s.queues x.nodeID ++ [⟨k, op.target, false⟩]) }
  | publish (k : ℕ) (op : Op) (x : NodeInfo ν) (hop : s.ops k = some op)
      (hx : s.sessions op.target = some x) :
    Change s (.publish k)
      { s with
        ops := Function.update s.ops k (some { op with stage := .pushed })
        queues := Function.update s.queues x.nodeID
          ((s.queues x.nodeID).map fun e => if e.op = k then { e with ready := true } else e) }
  | finish {a : Action ν} (k : ℕ) (op : Op) (hop : s.ops k = some op) :
    Change s a { s with ops := Function.update s.ops k (some { op with stage := .done }) }
  | pop (i : ℕ) (x : NodeInfo ν) (e : Entry) (rest : List Entry) (hx : s.sessions i = some x)
      (hqueue : s.queues x.nodeID = e :: rest) (hloop : x.looping = true) :
    Change s (.pop i)
      { s with
        queues := Function.update s.queues x.nodeID rest
        popped := s.popped ++ [(i, e.target)] }

section

variable {s t : State ν} {a : Action ν} {i k : ℕ}

omit [DecidableEq ν] in
theorem move_eq_some {before after : Stage} {effect : NodeInfo ν → State ν → State ν}
    (h : s.move i before after effect = some t) :
    ∃ x, s.sessions i = some x ∧ x.stage = before ∧
      t = effect x (s.setSession i { x with stage := after }) := by
  unfold State.move at h
  split at h
  · rename_i x hx
    split_ifs at h with hstage
    exact ⟨x, hx, hstage, (Option.some.inj h).symm⟩
  · cases h

omit [DecidableEq ν] in
theorem moveOp_eq_some {before after : OpStage} {guard : NodeInfo ν → Bool}
    {effect : Op → NodeInfo ν → State ν → State ν}
    (h : s.moveOp k before after guard effect = some t) :
    ∃ op x, s.ops k = some op ∧ s.sessions op.target = some x ∧ op.stage = before ∧
      t = effect op x
        { s with ops := Function.update s.ops k (some { op with stage := after }) } := by
  unfold State.moveOp at h
  split at h
  · rename_i op hop
    split at h
    · rename_i x hx
      split_ifs at h with hguard
      exact ⟨op, x, hop, hx, hguard.1, (Option.some.inj h).symm⟩
    · cases h
  · cases h

theorem allocNodeID_eq_some {nodeIDs : ℕ → Bool} {id : ℕ} (h : allocNodeID nodeIDs = some id) :
    nodeIDs id = false := by
  have := List.find?_some h
  simp only [Bool.and_eq_true, Bool.not_eq_true'] at this
  exact this.2

/-- A move without further effect. -/
theorem change_of_move {before after : Stage} (h : s.move i before after (fun _ t => t) = some t)
    (hholds : after.holds = before.holds) (hwatched : after.watched = before.watched)
    (hlive : after ≠ .live) (hsucc : after.successful = before.successful)
    (hlost : before = .live → a = .disconnect i) : Change s a t := by
  obtain ⟨x, hx, rfl, rfl⟩ := move_eq_some h
  exact .session i x _ hx ⟨rfl, rfl, hholds, hwatched, fun hl => absurd hl hlive, hsucc, .inl⟩
    fun hl => .inr (hlost hl)

theorem change_of_step (h : step s a = some t) : Change s a t := by
  cases a with
  | dial name =>
    simp only [step] at h
    split at h
    · rename_i id hid
      cases h
      exact .dial name id hid
    · cases h
  | handshake i =>
    rw [step] at h
    obtain ⟨x, hx, hstage, rfl⟩ := move_eq_some h
    have ht : (s.setSession i { x with stage := .sent }).setSession i
        { x with stage := .sent, looping := true } =
          s.setSession i { x with stage := .sent, looping := true } := by
      simp only [State.setSession, Function.update_idem]
    rw [ht]
    refine .session i x _ hx ⟨rfl, rfl, ?_, ?_, nofun, ?_, fun _ => .inr ?_⟩ fun hl => ?_
    · rw [hstage]
      rfl
    · rw [hstage]
      rfl
    · rw [hstage]
      rfl
    · rw [hstage]
      rfl
    · rw [hstage] at hl
      cases hl
  | handshakeFails i =>
    rw [step] at h
    exact change_of_move h rfl rfl (by decide) rfl nofun
  | newChunksFail i =>
    rw [step] at h
    exact change_of_move h rfl rfl (by decide) rfl nofun
  | list i =>
    rw [step] at h
    obtain ⟨x, hx, hstage, rfl⟩ := move_eq_some h
    exact .list i x hx hstage
  | disconnect i =>
    rw [step] at h
    exact change_of_move h rfl rfl (by decide) rfl fun _ => rfl
  | cleanupResources i =>
    rw [step] at h
    exact change_of_move h rfl rfl (by decide) rfl nofun
  | freeNodeID i =>
    rw [step] at h
    obtain ⟨x, hx, hstage, rfl⟩ := move_eq_some h
    exact .freeNodeID i x hx hstage
  | delete i =>
    rw [step] at h
    obtain ⟨x, hx, hstage, rfl⟩ := move_eq_some h
    exact .delete i x hx hstage
  | closeConn i =>
    rw [step] at h
    exact change_of_move h rfl rfl (by decide) rfl nofun
  | closeEventfd i =>
    rw [step] at h
    exact change_of_move h rfl rfl (by decide) rfl nofun
  | next name =>
    rw [step] at h
    obtain ⟨i, hi, rfl⟩ := Option.map_eq_some_iff.1 h
    exact .startOp name i hi
  | expandResponse nodeID name =>
    simp only [step] at h
    split at h
    · rename_i i hi
      split at h
      · split_ifs at h
        cases h
        exact .startOp name i hi
      · cases h
    · cases h
  | claim k =>
    rw [step] at h
    obtain ⟨op, x, hop, hx, hstage, rfl⟩ := moveOp_eq_some h
    exact .claim k op x hop hx hstage
  | giveUp k =>
    rw [step] at h
    obtain ⟨op, x, hop, -, -, rfl⟩ := moveOp_eq_some h
    exact .finish k op hop
  | publish k =>
    rw [step] at h
    obtain ⟨op, x, hop, hx, -, rfl⟩ := moveOp_eq_some h
    exact .publish k op x hop hx
  | notify k =>
    rw [step] at h
    obtain ⟨op, x, hop, -, -, rfl⟩ := moveOp_eq_some h
    exact .finish k op hop
  | pop i =>
    simp only [step] at h
    split at h
    · rename_i x hx
      split at h
      · rename_i e rest hqueue
        split_ifs at h with hready
        cases h
        exact .pop i x e rest hx hqueue (Bool.and_eq_true_iff.1 hready).1
      · cases h
    · cases h
  | stop i =>
    simp only [step] at h
    split at h
    · rename_i x hx
      cases h
      exact .session i x _ hx ⟨rfl, rfl, rfl, rfl, id, rfl, nofun⟩ .inl
    · cases h

end

end Mmfg.Session
