import Mmfg.Session.Basic

/-!
# `Dial` and its error returns

`Hub.Dial` connects to the node, takes a node ID, makes an eventfd, sends the handshake, sends the
chunks that were appended meanwhile and lists the node.  Each of the first five can fail, and each of
the error returns would have to give back what was taken before it.  The first two do; after that the
ID is kept, and from the handshake on the socket and the eventfd stay open, too.

What fails is chosen by the environment, and so are the descriptors.  The node IDs are bits of words
here; `allocNodeID_refines` and `taken_freeNodeID` relate them to the sets of IDs of the sessions.
-/

namespace Mmfg.Dial

/-! ## Node IDs -/

/-- The words of `h.nodeIDs`. -/
abbrev NodeIDs := ℕ → UInt64

/-- The bit of a node ID in its word. -/
def mask (id : ℕ) : UInt64 := 1 <<< UInt64.ofNat (id % 64)

/-- The bit of an ID is set. -/
def taken (nodeIDs : NodeIDs) (id : ℕ) : Bool := nodeIDs (id / 64) &&& mask id ≠ 0

/-- The smallest ID that is free, and the words in which it is taken. -/
def allocNodeID (nodeIDs : NodeIDs) : Option (ℕ × NodeIDs) :=
  ((List.range' 1 (MaxNodes - 1)).find? fun i => !taken nodeIDs i).map fun i =>
    (i, Function.update nodeIDs (i / 64) (nodeIDs (i / 64) ||| mask i))

/-- `freeNodeID`. -/
def freeNodeID (nodeIDs : NodeIDs) (id : ℕ) : NodeIDs :=
  Function.update nodeIDs (id / 64) (nodeIDs (id / 64) &&& ~~~mask id)

/-! ## `Dial` -/

/-- A `NodeInfo`, with its descriptors. -/
structure NodeInfo where
  nodeID : ℕ
  conn : ℕ
  nodeEv : ℕ
  deriving DecidableEq

variable {ν : Type}

/-- What `Dial` reads and changes; `fds` are the descriptors that are open. -/
structure Hub (ν : Type) where
  nodeIDs : NodeIDs
  nodes : ν → Option NodeInfo
  fds : List ℕ
  chunkCount : ℕ

/-- The errors of `Dial`. -/
inductive DialError | connect | maxNodes | eventfd | handshake | newChunks
  deriving DecidableEq

/-- How the calls of `Dial` turn out: the descriptors of socket and eventfd, whether the messages are
sent, and the chunks that others append between the two critical sections. -/
structure Env where
  conn : Option ℕ
  nodeEv : Option ℕ
  handshake : Bool
  appended : ℕ
  newChunks : Bool

/-- A descriptor is opened. -/
def Hub.openFd (h : Hub ν) (fd : ℕ) : Hub ν := { h with fds := fd :: h.fds }

/-- A descriptor is closed. -/
def Hub.closeFd (h : Hub ν) (fd : ℕ) : Hub ν := { h with fds := h.fds.erase fd }

variable [DecidableEq ν]

/-- The end of `Dial`, in the second critical section: the chunks beyond `chunkCount` are sent and
the node is listed. -/
def finish (h : Hub ν) (nodeName : ν) (nodeInfo : NodeInfo) (chunkCount : ℕ) (newChunks : Bool) :
    Option DialError × Hub ν :=
  let afterChunkCount := h.chunkCount
  if chunkCount ≠ afterChunkCount ∧ afterChunkCount > chunkCount ∧ !newChunks then
    (some .newChunks, h)
  else (none, { h with nodes := Function.update h.nodes nodeName (some nodeInfo) })

/-- `Dial`, and the error that it returns. -/
def dial (h : Hub ν) (nodeName : ν) (env : Env) : Option DialError × Hub ν :=
  match env.conn with
  | none => (some .connect, h)
  | some conn =>
    let h := h.openFd conn
    match allocNodeID h.nodeIDs with
    | none => (some .maxNodes, h.closeFd conn)
    | some (nodeID, nodeIDs) =>
      let h := { h with nodeIDs := nodeIDs }
      match env.nodeEv with
      | none => (some .eventfd, h.closeFd conn)
      | some nodeEv =>
        let h := h.openFd nodeEv
        let chunkCount := h.chunkCount
        if env.handshake then
          let h := { h with chunkCount := h.chunkCount + env.appended }
          finish h nodeName ⟨nodeID, conn, nodeEv⟩ chunkCount env.newChunks
        else (some .handshake, h)

/-- Node IDs, node table and descriptors are as before. -/
structure NoTrace (h h' : Hub ν) : Prop where
  nodeIDs : h'.nodeIDs = h.nodeIDs
  nodes : h'.nodes = h.nodes
  fds : h'.fds = h.fds

/-- `Dial` cannot connect, or all IDs are taken. -/
def EarlyFailure (h : Hub ν) (a : ν × Env) : Prop :=
  a.2.conn = none ∨ allocNodeID h.nodeIDs = none

/-- Any number of calls of `Dial` that fail. -/
def failures (h₀ : Hub ν) : System (Hub ν) (ν × Env) where
  Init h := h = h₀
  step h a := if (dial h a.1 a.2).1 ≠ none then some (dial h a.1 a.2).2 else none

/-! ## Bits and sets -/

theorem getLsbD_mask (id k : ℕ) : (mask id).toBitVec.getLsbD k = decide (k = id % 64) := by
  have hlt : id % 64 < 64 := Nat.mod_lt _ (by norm_num)
  rw [Bool.eq_iff_iff]
  simp [mask, BitVec.getLsbD_one]
  omega

theorem taken_eq (nodeIDs : NodeIDs) (id : ℕ) :
    taken nodeIDs id = (nodeIDs (id / 64)).toBitVec.getLsbD (id % 64) := by
  rw [taken, Bool.eq_iff_iff, decide_eq_true_iff]
  constructor
  · intro h
    by_contra hc
    apply h
    apply UInt64.toBitVec_inj.1
    apply BitVec.eq_of_getLsbD_eq
    intro k _
    rw [UInt64.toBitVec_and, BitVec.getLsbD_and, getLsbD_mask]
    by_cases hk : k = id % 64
    · subst hk
      simpa using hc
    · simp [hk]
  · intro h he
    have := congrArg (fun w => w.toBitVec.getLsbD (id % 64)) he
    simp [getLsbD_mask, h] at this

/-- Changing the bit of an ID in its word changes no other ID. -/
theorem taken_update {nodeIDs : NodeIDs} {id : ℕ} {w : UInt64} {b : Bool}
    (h : ∀ k, w.toBitVec.getLsbD k =
      if k = id % 64 then b else (nodeIDs (id / 64)).toBitVec.getLsbD k) :
    taken (Function.update nodeIDs (id / 64) w) = Function.update (taken nodeIDs) id b := by
  funext k
  rw [taken_eq]
  by_cases hk : k = id
  · subst hk
    rw [Function.update_self, Function.update_self, h, if_pos rfl]
  · rw [Function.update_of_ne hk, taken_eq]
    by_cases hword : k / 64 = id / 64
    · rw [hword, Function.update_self, h, if_neg (by omega)]
    · rw [Function.update_of_ne hword]

theorem taken_alloc (nodeIDs : NodeIDs) (id : ℕ) :
    taken (Function.update nodeIDs (id / 64) (nodeIDs (id / 64) ||| mask id)) =
      Function.update (taken nodeIDs) id true := by
  refine taken_update fun k => ?_
  rw [UInt64.toBitVec_or, BitVec.getLsbD_or, getLsbD_mask]
  by_cases hk : k = id % 64 <;> simp [hk]

theorem taken_freeNodeID (nodeIDs : NodeIDs) (id : ℕ) :
    taken (freeNodeID nodeIDs id) = Function.update (taken nodeIDs) id false := by
  have hlt : id % 64 < 64 := Nat.mod_lt _ (by norm_num)
  refine taken_update fun k => ?_
  rw [UInt64.toBitVec_and, BitVec.getLsbD_and, UInt64.toBitVec_not, BitVec.getLsbD_not, getLsbD_mask]
  by_cases hk : k = id % 64
  · simp [hk]
  · rcases lt_or_ge k 64 with hk64 | hk64
    · simp [hk, hk64]
    · simp [hk, BitVec.getLsbD_of_ge _ _ hk64]

/-- The words do what the sessions' sets of IDs do. -/
theorem allocNodeID_refines (nodeIDs : NodeIDs) :
    Session.allocNodeID (taken nodeIDs) = (allocNodeID nodeIDs).map Prod.fst ∧
      ∀ id nodeIDs', allocNodeID nodeIDs = some (id, nodeIDs') →
        taken nodeIDs' = Function.update (taken nodeIDs) id true := by
  constructor
  · have hrange : List.range MaxNodes = 0 :: List.range' 1 (MaxNodes - 1) := by decide
    rw [Session.allocNodeID, allocNodeID, Option.map_map, hrange, List.find?_cons_of_neg (by simp)]
    refine (List.find?_congr fun i hi => ?_).trans Option.map_id'.symm
    have h1 : 1 ≤ i := (List.mem_range'_1.1 hi).1
    simp [h1]
  · intro id nodeIDs' h
    obtain ⟨i, -, hi⟩ := Option.map_eq_some_iff.1 h
    obtain ⟨rfl, rfl⟩ := Prod.mk.inj hi
    exact taken_alloc nodeIDs i

/-- An ID that `allocNodeID` returns was free and is not any more. -/
theorem allocNodeID_ne {nodeIDs nodeIDs' : NodeIDs} {id : ℕ}
    (h : allocNodeID nodeIDs = some (id, nodeIDs')) : nodeIDs' ≠ nodeIDs := by
  obtain ⟨i, hfind, hi⟩ := Option.map_eq_some_iff.1 h
  obtain ⟨rfl, rfl⟩ := Prod.mk.inj hi
  intro he
  have hfree : taken nodeIDs i = false := by simpa using List.find?_some hfind
  have hnow := congrFun (taken_alloc nodeIDs i) i
  rw [he, hfree, Function.update_self] at hnow
  cases hnow

/-! ## What a failed `Dial` leaves -/

variable {h h₀ : Hub ν} {nodeName : ν} {env : Env} {nodeInfo : NodeInfo} {chunkCount : ℕ}
  {newChunks : Bool}

theorem finish_nodeIDs : (finish h nodeName nodeInfo chunkCount newChunks).2.nodeIDs = h.nodeIDs := by
  unfold finish
  dsimp only
  split_ifs <;> rfl

theorem finish_ne_maxNodes :
    (finish h nodeName nodeInfo chunkCount newChunks).1 ≠ some .maxNodes := by
  unfold finish
  dsimp only
  split_ifs <;> exact nofun

theorem noTrace_of_early (he : EarlyFailure h (nodeName, env)) :
    (dial h nodeName env).1 ≠ none ∧ NoTrace h (dial h nodeName env).2 := by
  unfold dial
  cases hconn : env.conn with
  | none => exact ⟨nofun, rfl, rfl, rfl⟩
  | some conn =>
    have halloc : allocNodeID (h.openFd conn).nodeIDs = none :=
      he.resolve_left (by rw [hconn]; exact nofun)
    simp only [halloc]
    exact ⟨nofun, rfl, rfl, List.erase_cons_head ..⟩

/-- From the allocation of the ID on, the ID is gone. -/
theorem nodeIDs_of_late (he : ¬ EarlyFailure h (nodeName, env)) :
    (dial h nodeName env).2.nodeIDs ≠ h.nodeIDs := by
  obtain ⟨hconn, halloc⟩ := not_or.1 he
  obtain ⟨conn, hconn⟩ := Option.ne_none_iff_exists'.1 hconn
  obtain ⟨⟨id, nodeIDs⟩, halloc⟩ := Option.ne_none_iff_exists'.1 halloc
  have hne := allocNodeID_ne halloc
  unfold dial
  simp only [Hub.openFd, Hub.closeFd, halloc, show env.conn = some conn from hconn]
  cases env.nodeEv with
  | none => exact hne
  | some nodeEv =>
    cases env.handshake with
    | false => exact hne
    | true =>
      simp only [if_true, finish_nodeIDs]
      exact hne

theorem noTrace_of_reaches (hr : (failures h₀).Reaches EarlyFailure h) : NoTrace h₀ h := by
  refine hr.invariant (I := NoTrace h₀) (fun h hi => ?_) fun h a h' _ ht hok hs => ?_
  · rw [show h = h₀ from hi]
    exact ⟨rfl, rfl, rfl⟩
  · have hstep := (noTrace_of_early hok).2
    simp only [failures] at hs
    split_ifs at hs
    obtain rfl := Option.some.inj hs
    exact ⟨hstep.nodeIDs.trans ht.nodeIDs, hstep.nodes.trans ht.nodes, hstep.fds.trans ht.fds⟩

theorem maxNodes_iff : (dial h nodeName env).1 = some .maxNodes ↔
    env.conn ≠ none ∧ allocNodeID h.nodeIDs = none := by
  unfold dial
  cases hconn : env.conn with
  | none => exact iff_of_false nofun fun hc => hc.1 rfl
  | some conn =>
    cases halloc : allocNodeID h.nodeIDs with
    | none =>
      simp only [Hub.openFd, halloc]
      exact iff_of_true trivial ⟨nofun, trivial⟩
    | some r =>
      simp only [Hub.openFd, halloc]
      refine iff_of_false ?_ fun hc => nomatch hc.2
      cases env.nodeEv with
      | none => exact nofun
      | some nodeEv =>
        cases env.handshake with
        | false => exact nofun
        | true => exact finish_ne_maxNodes

/-- A `Dial` that fails leaves no trace if and only if it fails to connect or finds no ID; and any
number of such failures leave the later calls as they were. -/
theorem dial_no_trace_iff (h₀ : Hub ν) :
    (∀ nodeName env, (dial h₀ nodeName env).1 ≠ none →
      (NoTrace h₀ (dial h₀ nodeName env).2 ↔ EarlyFailure h₀ (nodeName, env))) ∧
    ∀ h, (failures h₀).Reaches EarlyFailure h → NoTrace h₀ h ∧
      ∀ nodeName env, (dial h nodeName env).1 = some .maxNodes ↔
        (dial h₀ nodeName env).1 = some .maxNodes := by
  refine ⟨fun nodeName env _ => ⟨fun ht => ?_, fun he => (noTrace_of_early he).2⟩, fun h hr => ?_⟩
  · by_contra he
    exact nodeIDs_of_late he ht.nodeIDs
  · have ht := noTrace_of_reaches hr
    refine ⟨ht, fun nodeName env => ?_⟩
    rw [maxNodes_iff, maxNodes_iff, ht.nodeIDs]

/-- A new hub, with one chunk. -/
def newHub : Hub ℕ := ⟨fun _ => 0, fun _ => none, [], 1⟩

/-- A call that succeeds. -/
def good : Env := ⟨some 3, some 4, true, 0, true⟩

/-- Two calls that cannot connect, and then one that succeeds. -/
theorem dial_no_trace_two : ∃ h, (failures newHub).Reaches EarlyFailure h ∧ NoTrace newHub h ∧
    (dial h 0 good).1 = none := by
  have hearly : ∀ h : Hub ℕ, EarlyFailure h (0, { good with conn := none }) := fun _ => .inl rfl
  have hr : (failures newHub).Reaches EarlyFailure newHub :=
    .step (.step (.init rfl) (hearly _) rfl) (hearly _) rfl
  exact ⟨newHub, hr, ((dial_no_trace_iff newHub).2 newHub hr).1, by decide +kernel⟩

/-- `n` calls in which the eventfd cannot be made. -/
def noEventfd (n : ℕ) : List (ℕ × Env) := List.replicate n (0, { good with nodeEv := none })

/-- After 63 failures there is no ID left for the next call, though no node is listed; and a failure
of the handshake leaves socket and eventfd open. -/
theorem dial_leaks :
    (∃ h, (failures newHub).Reachable h ∧ h.nodes 0 = none ∧
      (dial h 0 good).1 = some .maxNodes) ∧
    (dial newHub 0 { good with handshake := false }).1 = some .handshake ∧
    (dial newHub 0 { good with handshake := false }).2.fds = [4, 3] := by
  refine ⟨?_, by decide +kernel, by decide +kernel⟩
  obtain ⟨h, hr, hp⟩ := System.exists_reachable_of_run (failures newHub) (noEventfd 63)
    (fun h => decide (h.nodes 0 = none ∧ (dial h 0 good).1 = some .maxNodes)) rfl (by decide +kernel)
  exact ⟨h, hr, of_decide_eq_true hp⟩

end Mmfg.Dial
