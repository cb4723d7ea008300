import Mmfg.Growth.Locks

/-!
# Sessions, and how far a thread has come with them

A session records what the hub has sent to a node.  `Stage` keeps of a program point what matters
for the chunk lists: which session a `Dial` is setting up and what it has collected or sent, and
which chunk an append has still to broadcast.
-/

namespace Mmfg.Growth

open RWMutex (Role)

/-! ## Sessions -/

/-- The chunks that a message carries. -/
def Msg.fds : Msg → List Chunk
  | .handshake fds | .newChunk fds => fds

/-- The message is not a handshake. -/
def Msg.isNewChunk : Msg → Bool
  | .newChunk _ => true
  | .handshake _ => false

/-- The node's chunk list. -/
def Node.chunks : Node → List Chunk
  | .ready chunks => chunks
  | .waiting | .failed => []

/-- The chunks in flight on a socket. -/
def Session.inFlight (x : Session) : List Chunk := x.socket.flatMap Msg.fds

/-- The chunks that the node has or that are in flight. -/
def Session.delivered (x : Session) : List Chunk := x.node.chunks ++ x.inFlight

/-- Nothing has been sent. -/
def Session.Fresh (x : Session) : Prop := x.node = .waiting ∧ x.socket = []

/-- The handshake has been sent, and after it only new chunks. -/
def Session.Shaken (x : Session) : Prop :=
  (∃ l, x.node = .ready l ∧ ∀ m ∈ x.socket, m.isNewChunk = true) ∨
    (x.node = .waiting ∧ ∃ fds rest, x.socket = .handshake fds :: rest ∧
      ∀ m ∈ rest, m.isNewChunk = true)

/-- Two sessions with the same messages. -/
def Session.Same (x y : Session) : Prop := x.socket = y.socket ∧ x.node = y.node

theorem Session.Same.delivered {x y : Session} (h : x.Same y) : x.delivered = y.delivered := by
  rw [Session.delivered, Session.delivered, inFlight, inFlight, h.1, h.2]

theorem Session.Same.fresh {x y : Session} (h : x.Same y) (hy : y.Fresh) : x.Fresh := by
  rw [Fresh, h.1, h.2]
  exact hy

theorem Session.Same.shaken {x y : Session} (h : x.Same y) (hy : y.Shaken) : x.Shaken := by
  rw [Shaken, h.1, h.2]
  exact hy

theorem Session.Fresh.delivered {x : Session} (h : x.Fresh) : x.delivered = [] := by
  simp [Session.delivered, inFlight, h.1, h.2, Node.chunks]

theorem Session.Fresh.handshake {x : Session} (h : x.Fresh) (fds : List Chunk) :
    { x with socket := x.socket ++ [Msg.handshake fds] }.Shaken :=
  .inr ⟨h.1, fds, [], by simp [h.2], by simp⟩

theorem Session.Shaken.newChunk {x : Session} (h : x.Shaken) (fds : List Chunk) :
    { x with socket := x.socket ++ [Msg.newChunk fds] }.Shaken := by
  have hnew : ∀ {l : List Msg}, (∀ m ∈ l, m.isNewChunk = true) →
      ∀ m ∈ l ++ [.newChunk fds], m.isNewChunk = true := by
    intro l hl m hm
    rcases List.mem_append.1 hm with hm | hm
    · exact hl m hm
    · rw [List.mem_singleton.1 hm]
      rfl
  rcases h with ⟨l, hn, hl⟩ | ⟨hn, first, rest, hs, hl⟩
  · exact .inl ⟨l, hn, hnew hl⟩
  · exact .inr ⟨hn, first, rest ++ [.newChunk fds], by simp [hs], hnew hl⟩

theorem Session.delivered_send (x : Session) (m : Msg) :
    { x with socket := x.socket ++ [m] }.delivered = x.delivered ++ m.fds := by
  simp [Session.delivered, inFlight]

/-- A node that takes the next message has as many chunks more as are in flight less. -/
theorem Session.Shaken.recv {x y : Session} (h : x.Shaken) (hr : x.recv = some y) :
    y.Shaken ∧ y.delivered = x.delivered := by
  rcases h with ⟨l, hn, hl⟩ | ⟨hn, first, rest, hs, hl⟩
  · cases hs : x.socket with
    | nil => simp [Session.recv, hs] at hr
    | cons m rest =>
      rw [hs] at hl
      cases m with
      | handshake fds => simpa [Msg.isNewChunk] using hl (.handshake fds) (by simp)
      | newChunk fds =>
        simp only [Session.recv, hs, hn, Option.some.injEq] at hr
        subst hr
        refine ⟨.inl ⟨_, rfl, fun m hm => hl m (by simp [hm])⟩, ?_⟩
        simp [Session.delivered, inFlight, Node.chunks, Msg.fds, hs, hn]
  · simp only [Session.recv, hs, hn, Option.some.injEq] at hr
    subst hr
    refine ⟨.inl ⟨_, rfl, hl⟩, ?_⟩
    simp [Session.delivered, inFlight, Node.chunks, Msg.fds, hs, hn]

theorem Session.Fresh.recv {x : Session} (h : x.Fresh) : x.recv = none := by
  simp [Session.recv, h.2]

/-! ## How far a thread has come -/

/-- What a program point means for the chunk lists. -/
inductive Stage
  | other
  /-- A `Dial` that has sent nothing. -/
  | fresh (d : ℕ)
  /-- A `Dial` that collects `n` chunks for the handshake, and has `fds`. -/
  | collecting (d n : ℕ) (fds : List Chunk)
  /-- A `Dial` that is about to send the handshake. -/
  | collected (d n : ℕ) (fds : List Chunk)
  /-- A `Dial` that has sent the handshake with `n` chunks. -/
  | shaken (d n : ℕ)
  /-- A `Dial` that collects the chunks from `n` to `after`. -/
  | catching (d n after : ℕ) (fds : List Chunk)
  /-- A `Dial` that registers once it has sent `fds`. -/
  | synced (d : ℕ) (fds : List Chunk)
  /-- An append whose broadcast has not yet read the node table. -/
  | unsent (chunk : Chunk)
  /-- An append whose broadcast has still to tell `nodes`. -/
  | telling (chunk : Chunk) (nodes : List ℕ)
  | panicked

/-- The stage of a reader of `b.mu`. -/
def BReader.stage : BReader → Stage
  | .handshake d n fds => .collecting d n fds
  | .catchUp d n after fds => .catching d n after fds
  | .expand | .scan _ | .undo _ | .cleanup _ => .other

/-- The stage of a writer of `h.mu`. -/
def HWriter.stage : HWriter → Stage
  | .allocNodeID d => .fresh d
  | .register d n => .shaken d n
  | .freeNodeID _ | .delete _ => .other

/-- The stage of a reader of `h.mu`. -/
def HReader.stage : HReader → Stage
  | .handshake d => .fresh d
  | .expand | .respond => .other
  | .broadcast _ chunk => .unsent chunk

/-- The stage of a thread at a program point. -/
def PC.stage : PC → Stage
  | .hLock k | .hLockWait k => k.stage
  | .hRLock k | .hRLockWait k => k.stage
  | .bRLock k | .bRLockWait k | .bRead k => k.stage
  | .panicked _ => .panicked
  | .allocNodeID d | .handCount d => .fresh d
  | .handRUnlock d n fds | .handSend d n fds => .collected d n fds
  | .afterCount d n => .shaken d n
  | .catchSend d fds => .synced d fds
  | .register d => .synced d []
  | .snapshot _ chunk => .unsent chunk
  | .broadcast _ chunk nodes => .telling chunk nodes
  | _ => .other

namespace Stage

/-- The session of a `Dial` in progress. -/
def dial : Stage → List ℕ
  | fresh d | collecting d _ _ | collected d _ _ | shaken d _ | catching d _ _ _ | synced d _ => [d]
  | other | unsent _ | telling _ _ | panicked => []

/-- The sessions that the thread will send to. -/
def targets : Stage → List ℕ
  | telling _ nodes => nodes
  | x => x.dial

/-- The chunk that is in the list but not yet covered by a broadcast. -/
def pending : Stage → List Chunk
  | unsent chunk => [chunk]
  | _ => []

/-- The chunk that a broadcast is about to send to session `d`. -/
def todo (d : ℕ) : Stage → List Chunk
  | telling chunk nodes => if d ∈ nodes then [chunk] else []
  | _ => []

/-- What holds at a stage, with `len` chunks in the hub's list. -/
def Ok (sessions : ℕ → Session) (base : List Chunk) (len : ℕ) : Stage → Prop
  | other | unsent _ => True
  | fresh d => (sessions d).Fresh
  | collecting d n fds => (sessions d).Fresh ∧ fds <+: base ∧ n ≤ len ∧ fds.length < n
  | collected d n fds => (sessions d).Fresh ∧ fds <+: base ∧ fds.length = n
  | shaken d n => (sessions d).Shaken ∧ (sessions d).delivered.length = n
  | catching d n after fds =>
    (sessions d).Shaken ∧ (sessions d).delivered.length = n ∧
      (sessions d).delivered ++ fds <+: base ∧ base.length ≤ after ∧ after ≤ len ∧
      n + fds.length < after
  | synced d fds => (sessions d).Shaken ∧ (sessions d).delivered ++ fds = base
  | telling chunk nodes =>
    nodes.Nodup ∧ ∀ d ∈ nodes, (sessions d).Shaken ∧ (sessions d).delivered ++ [chunk] = base
  | panicked => False

variable {x : Stage} {f g : ℕ → Session} {base base' : List Chunk} {len len' : ℕ}

/-- Only freshness, the sent handshake and what was delivered matter at a stage. -/
theorem Ok.imp (h : x.Ok f base len) (hfresh : ∀ d ∈ x.targets, (f d).Fresh → (g d).Fresh)
    (hshaken : ∀ d ∈ x.targets, (f d).Shaken → (g d).Shaken)
    (hdel : ∀ d ∈ x.targets, (g d).delivered = (f d).delivered) : x.Ok g base len := by
  cases x with
  | other => trivial
  | unsent chunk => trivial
  | panicked => exact h
  | fresh d => exact hfresh d (by simp [targets, dial]) h
  | collecting d n fds => exact ⟨hfresh d (by simp [targets, dial]) h.1, h.2⟩
  | collected d n fds => exact ⟨hfresh d (by simp [targets, dial]) h.1, h.2⟩
  | shaken d n =>
    have hd : d ∈ targets (shaken d n) := by simp [targets, dial]
    exact ⟨hshaken d hd h.1, by rw [hdel d hd]; exact h.2⟩
  | catching d n after fds =>
    have hd : d ∈ targets (catching d n after fds) := by simp [targets, dial]
    exact ⟨hshaken d hd h.1, by rw [hdel d hd]; exact h.2⟩
  | synced d fds =>
    have hd : d ∈ targets (synced d fds) := by simp [targets, dial]
    exact ⟨hshaken d hd h.1, by rw [hdel d hd]; exact h.2⟩
  | telling chunk nodes =>
    exact ⟨h.1, fun d hd => ⟨hshaken d hd (h.2 d hd).1, by rw [hdel d hd]; exact (h.2 d hd).2⟩⟩

/-- A thread looks only at the sessions it sends to. -/
theorem Ok.congr (h : x.Ok f base len) (hs : ∀ d ∈ x.targets, (g d).Same (f d)) :
    x.Ok g base len :=
  h.imp (fun d hd => (hs d hd).fresh) (fun d hd => (hs d hd).shaken)
    fun d hd => (hs d hd).delivered

theorem Ok.mono_len (h : x.Ok f base len) (hl : len ≤ len') : x.Ok f base len' := by
  cases x with
  | collecting d n fds => exact ⟨h.1, h.2.1, h.2.2.1.trans hl, h.2.2.2⟩
  | catching d n after fds =>
    obtain ⟨h1, h2, h3, h4, h5, h6⟩ := h
    exact ⟨h1, h2, h3, h4, h5.trans hl, h6⟩
  | _ => exact h

/-- The stages that depend on the exact `base`. -/
def exact : Stage → Bool
  | catching .. | synced .. | telling .. => true
  | _ => false

theorem Ok.mono_base (h : x.Ok f base len) (he : x.exact = false) (hb : base <+: base') :
    x.Ok f base' len := by
  cases x with
  | collecting d n fds => exact ⟨h.1, h.2.1.trans hb, h.2.2⟩
  | collected d n fds => exact ⟨h.1, h.2.1.trans hb, h.2.2⟩
  | catching d n after fds => cases he
  | synced d fds => cases he
  | telling chunk nodes => cases he
  | _ => exact h

end Stage

/-! ## Stages and locks -/

/-- A chunk that is not in `base` is protected by `b.mu`. -/
theorem PC.bRole_of_pending {pc : PC} (h : pc.stage.pending ≠ []) : pc.bRole = .writing := by
  cases pc with
  | hLock k => cases k <;> simp [stage, HWriter.stage, Stage.pending] at h
  | hLockWait k => cases k <;> simp [stage, HWriter.stage, Stage.pending] at h
  | hRLock k =>
    cases k <;> first | rfl | simp [stage, HReader.stage, Stage.pending] at h
  | hRLockWait k =>
    cases k <;> first | rfl | simp [stage, HReader.stage, Stage.pending] at h
  | bRLock k => cases k <;> simp [stage, BReader.stage, Stage.pending] at h
  | bRLockWait k => cases k <;> simp [stage, BReader.stage, Stage.pending] at h
  | bRead k => cases k <;> simp [stage, BReader.stage, Stage.pending] at h
  | snapshot r chunk => rfl
  | _ => simp [stage, Stage.pending] at h

/-- A thread that relies on the exact `base` holds `h.mu` for writing, or broadcasts. -/
theorem PC.role_of_exact {pc : PC} (h : pc.stage.exact = true) :
    pc.hRole = .writing ∨ pc.bRole = .writing := by
  cases pc with
  | hLock k => cases k <;> simp [stage, HWriter.stage, Stage.exact] at h
  | hLockWait k => cases k <;> simp [stage, HWriter.stage, Stage.exact] at h
  | hRLock k => cases k <;> simp [stage, HReader.stage, Stage.exact] at h
  | hRLockWait k => cases k <;> simp [stage, HReader.stage, Stage.exact] at h
  | bRLock k => cases k <;> first | exact .inl rfl | simp [stage, BReader.stage, Stage.exact] at h
  | bRLockWait k =>
    cases k <;> first | exact .inl rfl | simp [stage, BReader.stage, Stage.exact] at h
  | bRead k => cases k <;> first | exact .inl rfl | simp [stage, BReader.stage, Stage.exact] at h
  | catchSend d fds => exact .inl rfl
  | register d => exact .inl rfl
  | broadcast r chunk nodes => exact .inr rfl
  | _ => simp [stage, Stage.exact] at h

theorem PC.stage_of_not_inMux {pc : PC} (h : pc.inMux = false) :
    pc.stage.pending = [] ∧ ∀ d, pc.stage.todo d = [] := by
  cases pc with
  | hLock k => cases k <;> exact ⟨rfl, fun _ => rfl⟩
  | hLockWait k => cases k <;> exact ⟨rfl, fun _ => rfl⟩
  | hRLock k => cases k <;> first | exact ⟨rfl, fun _ => rfl⟩ | cases h
  | hRLockWait k => cases k <;> first | exact ⟨rfl, fun _ => rfl⟩ | cases h
  | bRLock k => cases k <;> exact ⟨rfl, fun _ => rfl⟩
  | bRLockWait k => cases k <;> exact ⟨rfl, fun _ => rfl⟩
  | bRead k => cases k <;> exact ⟨rfl, fun _ => rfl⟩
  | snapshot r chunk => cases h
  | broadcast r chunk nodes => cases h
  | _ => exact ⟨rfl, fun _ => rfl⟩

end Mmfg.Growth
