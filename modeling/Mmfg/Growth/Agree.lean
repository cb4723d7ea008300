import Mmfg.Growth.Chunks

/-!
# Every node's chunk list is a prefix of the hub's

Every step keeps `Synced` for some `base`.  So in all runs in which the sends of broadcasts succeed,
the chunk list of a node is a prefix of the hub's list, and for a registered node the chunks in
flight and those about to be broadcast make up the rest (`chunks_agree`).
-/

namespace Mmfg.Growth

theorem prefix_snoc {l b : List Chunk} {c : Chunk} (h : l <+: b) (hc : b[l.length]? = some c) :
    l ++ [c] <+: b := by
  obtain ⟨r, rfl⟩ := h
  cases r with
  | nil => simp at hc
  | cons x r =>
    obtain rfl : x = c := by simpa using hc
    exact ⟨r, by simp⟩

section

variable {sessions : ℕ → Session} {base : List Chunk} {len d n after : ℕ} {fds : List Chunk}

theorem handLoop_ok (hf : (sessions d).Fresh) (hp : fds <+: base) (hn : n ≤ len)
    (hl : fds.length ≤ n) : (handLoop d n fds).stage.Ok sessions base len := by
  unfold handLoop
  split_ifs with hlt
  · exact ⟨hf, hp, hn, hlt⟩
  · exact ⟨hf, hp, by omega⟩

/-- When the loop over the added chunks ends, everything in `base` is sent or about to be sent. -/
theorem catchLoop_ok (hs : (sessions d).Shaken) (hd : (sessions d).delivered.length = n)
    (hp : (sessions d).delivered ++ fds <+: base) (hb : base.length ≤ after) (ha : after ≤ len)
    (hl : n + fds.length ≤ after) : (catchLoop d n after fds).stage.Ok sessions base len := by
  unfold catchLoop
  split_ifs with hlt
  · exact ⟨hs, hd, hp, hb, ha, by omega⟩
  · refine ⟨hs, hp.eq_of_length_le ?_⟩
    rw [List.length_append]
    omega

theorem handLoop_targets : (handLoop d n fds).stage.targets = [d] ∧
    (handLoop d n fds).stage.dial = [d] ∧ (handLoop d n fds).stage.pending = [] ∧
    ∀ e, (handLoop d n fds).stage.todo e = [] := by
  unfold handLoop
  split_ifs <;> exact ⟨rfl, rfl, rfl, fun _ => rfl⟩

theorem catchLoop_targets : (catchLoop d n after fds).stage.targets = [d] ∧
    (catchLoop d n after fds).stage.dial = [d] ∧ (catchLoop d n after fds).stage.pending = [] ∧
    ∀ e, (catchLoop d n after fds).stage.todo e = [] := by
  unfold catchLoop
  split_ifs <;> exact ⟨rfl, rfl, rfl, fun _ => rfl⟩

end

theorem Caller.done_stage (r : Caller) : r.done.stage = .other := by
  cases r <;> rfl

theorem HWriter.enter_stage (k : HWriter) : k.enter.stage = k.stage := by
  cases k <;> rfl

theorem HReader.enter_stage (k : HReader) : k.enter.stage = k.stage := by
  cases k <;> rfl

variable {ι : Type} [DecidableEq ι] {s t : State ι} {i : ι} {pc : PC} {base : List Chunk}

theorem Synced.dial (h : Synced s base) (hl : Locks s) (ht : Locks t) {d : ℕ}
    (hpc : t.pc = Function.update s.pc i pc) (hchunks : t.chunks = s.chunks)
    (hcount : t.count = s.count) (hnodes : t.nodes = s.nodes) (hnext : t.next = s.next)
    (hsess : ∀ d, (t.sessions d).Same (s.sessions d))
    (hold : (s.pc i).stage.dial = [d] ∧ (s.pc i).stage.pending = [] ∧
      ∀ e, (s.pc i).stage.todo e = [])
    (hnew : pc.stage.targets = [d] ∧ pc.stage.dial = [d] ∧ pc.stage.pending = [] ∧
      ∀ e, pc.stage.todo e = [])
    (hok : pc.stage.Ok s.sessions base s.chunks.length) : Synced t base := by
  obtain ⟨h1, h2, h3⟩ := hold
  obtain ⟨h4, h5, h6, h7⟩ := hnew
  refine h.move hl ht hpc hchunks hcount hnodes hnext hsess (by rw [h6, h2])
    (fun e => by rw [h7, h3]) (fun e he => Stage.mem_targets ?_) (by rw [h5, h1]; exact fun e he => he)
    hok
  rw [h1, ← h4]
  exact he

theorem Synced.stepLock (h : Synced s base) (hl : Locks s) (ht : Locks t) (hpc : s.pc i = pc)
    (hs : s.stepLock i pc = some t) : Synced t base := by
  cases pc with
  | hLock k =>
    simp only [State.stepLock] at hs
    split_ifs at hs
    cases hs
    exact h.stay hl ht rfl (by rw [hpc]; rfl) rfl rfl rfl rfl fun _ => same_refl _
  | hLockWait k =>
    simp only [State.stepLock] at hs
    split_ifs at hs
    cases hs
    exact h.stay hl ht rfl (by rw [hpc, k.enter_stage]; rfl) rfl rfl rfl rfl fun _ => same_refl _
  | hRLock k =>
    cases hs
    exact h.stay hl ht rfl (by rw [hpc]; rfl) rfl rfl rfl rfl fun _ => same_refl _
  | hRLockWait k =>
    simp only [State.stepLock] at hs
    split_ifs at hs
    cases hs
    exact h.stay hl ht rfl (by rw [hpc, k.enter_stage]; rfl) rfl rfl rfl rfl fun _ => same_refl _
  | bRLock k =>
    cases hs
    exact h.stay hl ht rfl (by rw [hpc]; rfl) rfl rfl rfl rfl fun _ => same_refl _
  | bRLockWait k =>
    simp only [State.stepLock] at hs
    split_ifs at hs
    cases hs
    exact h.stay hl ht rfl (by rw [hpc]; rfl) rfl rfl rfl rfl fun _ => same_refl _
  | bLock r chunk =>
    simp only [State.stepLock] at hs
    split_ifs at hs
    cases hs
    exact h.stay hl ht rfl (by rw [hpc]; rfl) rfl rfl rfl rfl fun _ => same_refl _
  | bLockWait r chunk =>
    simp only [State.stepLock] at hs
    split_ifs at hs
    cases hs
    exact h.stay hl ht rfl (by rw [hpc]; rfl) rfl rfl rfl rfl fun _ => same_refl _
  | _ => cases hs

theorem Synced.stepDial (h : Synced s base) (hl : Locks s) (ht : Locks t) {alt : Bool}
    (hpc : s.pc i = pc) (hs : s.stepDial i alt pc = some t) : Synced t base := by
  have hok := h.stages i
  have hlen : s.count = s.chunks.length := h.count
  have hbase : base.length ≤ s.chunks.length := by
    rw [h.split, List.length_append]
    exact Nat.le_add_right _ _
  rw [hpc] at hok
  cases pc with
  | allocNodeID d =>
    simp only [State.stepDial] at hs
    split at hs
    · rename_i id _
      cases hs
      have hsame := setSession_same s (x := { s.sessions d with nodeID := id }) ⟨rfl, rfl⟩
      cases alt with
      | true =>
        exact h.leave hl ht rfl rfl (by rw [hpc]; exact ⟨rfl, fun _ => rfl⟩) rfl rfl rfl rfl hsame
      | false => exact h.stay hl ht rfl (by rw [hpc]; rfl) rfl rfl rfl rfl hsame
    · cases hs
      exact h.leave hl ht rfl rfl (by rw [hpc]; exact ⟨rfl, fun _ => rfl⟩) rfl rfl rfl rfl
        fun _ => same_refl _
  | handCount d =>
    cases hs
    refine h.dial hl ht rfl rfl rfl rfl rfl (fun _ => same_refl _)
      (by rw [hpc]; exact ⟨rfl, rfl, fun _ => rfl⟩) handLoop_targets ?_
    exact handLoop_ok hok List.nil_prefix hlen.le (Nat.zero_le _)
  | handRUnlock d n fds =>
    cases hs
    exact h.stay hl ht rfl (by rw [hpc]; rfl) rfl rfl rfl rfl fun _ => same_refl _
  | handSend d n fds =>
    obtain ⟨hf, hp, hn⟩ := hok
    simp only [State.stepDial] at hs
    split_ifs at hs
    · cases hs
      exact h.leave hl ht rfl rfl (by rw [hpc]; exact ⟨rfl, fun _ => rfl⟩) rfl rfl rfl rfl
        fun _ => same_refl _
    · cases hs
      have hpre : (s.sessions d).delivered ++ (Msg.handshake fds).fds <+: base := by
        rw [hf.delivered]
        exact hp
      refine h.send hl ht rfl rfl rfl rfl rfl rfl (by rw [hpc]; rfl) (by rw [hpc]; rfl) rfl rfl
        (hf.handshake fds) hpre ?_
      have hd : ((s.send d (.handshake fds)).sessions d) =
          { s.sessions d with socket := (s.sessions d).socket ++ [Msg.handshake fds] } := by
        simp [State.send, State.setSession]
      refine ⟨?_, ?_⟩
      · change ((s.send d (.handshake fds)).sessions d).Shaken
        rw [hd]
        exact hf.handshake fds
      · change ((s.send d (.handshake fds)).sessions d).delivered.length = n
        rw [hd, Session.delivered_send, hf.delivered]
        exact hn
  | afterCount d n =>
    obtain ⟨hsh, hn⟩ := hok
    simp only [State.stepDial] at hs
    split_ifs at hs with hlt
    · cases hs
      refine h.dial hl ht rfl rfl rfl rfl rfl (fun _ => same_refl _)
        (by rw [hpc]; exact ⟨rfl, rfl, fun _ => rfl⟩) catchLoop_targets ?_
      refine catchLoop_ok hsh hn ?_ (by omega) hlen.le (by simpa using hlt.2.le)
      rw [List.append_nil]
      exact h.delivered d
    · cases hs
      refine h.dial hl ht rfl rfl rfl rfl rfl (fun _ => same_refl _)
        (by rw [hpc]; exact ⟨rfl, rfl, fun _ => rfl⟩) ⟨rfl, rfl, rfl, fun _ => rfl⟩ ⟨hsh, ?_⟩
      rw [List.append_nil]
      exact (h.delivered d).eq_of_length_le (by omega)
  | catchSend d fds =>
    obtain ⟨hsh, hb⟩ := hok
    simp only [State.stepDial] at hs
    split_ifs at hs
    · cases hs
      exact h.leave hl ht rfl rfl (by rw [hpc]; exact ⟨rfl, fun _ => rfl⟩) rfl rfl rfl rfl
        fun _ => same_refl _
    · cases hs
      refine h.send hl ht rfl rfl rfl rfl rfl rfl (by rw [hpc]; rfl) (by rw [hpc]; rfl) rfl rfl
        (hsh.newChunk fds) ⟨[], by rw [List.append_nil]; exact hb⟩ ?_
      have hd : ((s.send d (.newChunk fds)).sessions d) =
          { s.sessions d with socket := (s.sessions d).socket ++ [Msg.newChunk fds] } := by
        simp [State.send, State.setSession]
      refine ⟨?_, ?_⟩
      · change ((s.send d (.newChunk fds)).sessions d).Shaken
        rw [hd]
        exact hsh.newChunk fds
      · change ((s.send d (.newChunk fds)).sessions d).delivered ++ [] = base
        rw [hd, Session.delivered_send, List.append_nil]
        exact hb
  | register d =>
    cases hs
    exact h.register hl ht hpc rfl rfl rfl rfl rfl (setSession_same s ⟨rfl, rfl⟩)
  | _ => cases hs

theorem Synced.stepHub (h : Synced s base) (hl : Locks s) (ht : Locks t) {alt : Bool}
    (hpc : s.pc i = pc) (hs : s.stepHub i alt pc = some t) : Synced t base := by
  cases pc with
  | expandRUnlock =>
    cases hs
    refine h.stay hl ht rfl ?_ rfl rfl rfl rfl fun _ => same_refl _
    rw [hpc]
    cases alt <;> rfl
  | respond =>
    cases hs
    exact h.stay hl ht rfl (by rw [hpc]; rfl) rfl rfl rfl rfl fun _ => same_refl _
  | cleanup d =>
    cases hs
    refine h.stay hl ht rfl ?_ rfl rfl rfl rfl fun _ => same_refl _
    rw [hpc]
    cases alt <;> rfl
  | freeNodeID d =>
    cases hs
    exact h.stay hl ht rfl (by rw [hpc]; rfl) rfl rfl rfl rfl fun _ => same_refl _
  | delete d =>
    cases hs
    exact h.delete hl ht hpc rfl rfl rfl rfl rfl fun _ => same_refl _
  | _ => cases hs

/-- `GetChunk` in a `Dial` returns the next chunk of `base`. -/
theorem Synced.busRead (h : Synced s base) (hl : Locks s) {alt : Bool} {k : BReader}
    (ht : Locks { s.busRead i alt k with bmu := s.bmu.runlock i }) (hpc : s.pc i = .bRead k) :
    Synced { s.busRead i alt k with bmu := s.bmu.runlock i } base := by
  have hok := h.stages i
  rw [hpc] at hok
  have hchunks : s.chunks = base := h.chunks_eq hl (i := i) (by rw [hpc]; rfl)
  cases k with
  | handshake d n fds =>
    obtain ⟨hf, hp, hn, hlt⟩ := hok
    have hget : s.chunks[fds.length]? = some s.chunks[fds.length] :=
      List.getElem?_eq_getElem (by omega)
    simp only [State.busRead, hget] at ht ⊢
    refine h.dial hl ht rfl rfl rfl rfl rfl (fun _ => same_refl _)
      (by rw [hpc]; exact ⟨rfl, rfl, fun _ => rfl⟩) handLoop_targets
      (handLoop_ok hf (prefix_snoc hp (by rw [← hchunks]; exact hget)) hn ?_)
    rw [List.length_append, List.length_singleton]
    exact hlt
  | catchUp d n after fds =>
    obtain ⟨hsh, hn, hp, hb, ha, hlt⟩ := hok
    have hget : s.chunks[n + fds.length]? = some s.chunks[n + fds.length] :=
      List.getElem?_eq_getElem (by omega)
    simp only [State.busRead, hget] at ht ⊢
    refine h.dial hl ht rfl rfl rfl rfl rfl (fun _ => same_refl _)
      (by rw [hpc]; exact ⟨rfl, rfl, fun _ => rfl⟩) catchLoop_targets
      (catchLoop_ok hsh hn ?_ hb ha ?_)
    · rw [← List.append_assoc]
      refine prefix_snoc hp ?_
      rw [List.length_append, hn, ← hchunks]
      exact hget
    · rw [List.length_append, List.length_singleton]
      omega
  | expand => exact h.stay hl ht rfl (by rw [hpc]; rfl) rfl rfl rfl rfl fun _ => same_refl _
  | undo r => exact h.stay hl ht rfl (by rw [hpc]; rfl) rfl rfl rfl rfl fun _ => same_refl _
  | cleanup d => exact h.stay hl ht rfl (by rw [hpc]; rfl) rfl rfl rfl rfl fun _ => same_refl _
  | scan r =>
    refine h.stay hl ht rfl ?_ rfl rfl rfl rfl fun _ => same_refl _
    rw [hpc]
    cases alt
    · exact r.done_stage
    · rfl

theorem Synced.stepAppend (h : Synced s base) (hl : Locks s) (ht : Locks t) {alt : Bool}
    (hpc : s.pc i = pc) (hs : s.stepAppend i alt pc = some t) : ∃ base', Synced t base' := by
  cases pc with
  | bRead k =>
    cases hs
    exact ⟨base, h.busRead hl ht hpc⟩
  | chunkCount r =>
    simp only [State.stepAppend] at hs
    split_ifs at hs <;> cases hs <;>
      exact ⟨base, h.stay hl ht rfl (by rw [hpc]; rfl) rfl rfl rfl rfl fun _ => same_refl _⟩
  | muxLock r n =>
    simp only [State.stepAppend] at hs
    split_ifs at hs
    cases hs
    exact ⟨base, h.stay hl ht rfl (by rw [hpc]; rfl) rfl rfl rfl rfl fun _ => same_refl _⟩
  | recheck r n =>
    simp only [State.stepAppend] at hs
    split_ifs at hs <;> cases hs <;>
      exact ⟨base, h.stay hl ht rfl (by rw [hpc]; rfl) rfl rfl rfl rfl fun _ => same_refl _⟩
  | newChunk r n =>
    simp only [State.stepAppend] at hs
    split_ifs at hs <;> cases hs <;>
      exact ⟨base, h.stay hl ht rfl (by rw [hpc]; rfl) rfl rfl rfl rfl fun _ => same_refl _⟩
  | grow r chunk =>
    cases hs
    exact ⟨base, h.grow hl ht hpc rfl rfl rfl rfl rfl rfl⟩
  | snapshot r chunk =>
    cases hs
    exact ⟨_, h.snapshot hl ht hpc rfl rfl rfl rfl rfl rfl⟩
  | broadcast r chunk nodes =>
    simp only [State.stepAppend] at hs
    split_ifs at hs with hn
    cases hs
    subst hn
    exact ⟨base, h.leave hl ht rfl rfl (by rw [hpc]; exact ⟨rfl, fun _ => rfl⟩) rfl rfl rfl rfl
      fun _ => same_refl _⟩
  | bUnlock r =>
    cases hs
    exact ⟨base, h.stay hl ht rfl (by rw [hpc]; rfl) rfl rfl rfl rfl fun _ => same_refl _⟩
  | muxUnlock r failed =>
    cases hs
    refine ⟨base, h.stay hl ht rfl ?_ rfl rfl rfl rfl fun _ => same_refl _⟩
    rw [hpc]
    cases failed <;> rfl
  | undo r =>
    cases hs
    refine ⟨base, h.stay hl ht rfl ?_ rfl rfl rfl rfl fun _ => same_refl _⟩
    rw [hpc]
    cases alt
    · exact r.done_stage
    · rfl
  | _ => cases hs

/-- The sends of broadcasts succeed. -/
def SyncsOk (_ : State ι) : Action ι → Prop
  | .sync _ _ alt => alt = false
  | _ => True

theorem synced_step {a : Action ι} (h : Synced s base) (hl : Locks s) (ha : SyncsOk s a)
    (hs : (hub ι).step s a = some t) : ∃ base', Synced t base' := by
  have ht : Locks t := locks_step hl hs
  cases a with
  | callDial i name =>
    simp only [hub, step] at hs
    split_ifs at hs with hpc
    cases hs
    exact ⟨base, h.callDial hl ht hpc ⟨rfl, rfl⟩ rfl rfl rfl rfl rfl rfl⟩
  | callAlloc i =>
    simp only [hub, step] at hs
    split_ifs at hs with hpc
    cases hs
    exact ⟨base, h.stay hl ht rfl (by rw [hpc]; rfl) rfl rfl rfl rfl fun _ => same_refl _⟩
  | callExpand i =>
    simp only [hub, step] at hs
    split_ifs at hs with hpc
    cases hs
    exact ⟨base, h.stay hl ht rfl (by rw [hpc]; rfl) rfl rfl rfl rfl fun _ => same_refl _⟩
  | callWatchdog i d =>
    simp only [hub, step] at hs
    split_ifs at hs with hpc
    cases hs
    exact ⟨base, h.stay hl ht rfl (by rw [hpc.1]; rfl) rfl rfl rfl rfl
      (setSession_same s ⟨rfl, rfl⟩)⟩
  | run i alt =>
    simp only [hub, step, Option.orElse_eq_some] at hs
    rcases hs with hs | ⟨-, hs | ⟨-, hs | ⟨-, hs⟩⟩⟩
    · exact ⟨base, h.stepLock hl ht rfl hs⟩
    · exact ⟨base, h.stepDial hl ht rfl hs⟩
    · exact ⟨base, h.stepHub hl ht rfl hs⟩
    · exact h.stepAppend hl ht rfl hs
  | sync i d alt =>
    cases ha
    cases hpc : s.pc i with
    | broadcast r chunk nodes =>
      simp only [hub, step, hpc, State.sync, Bool.false_eq_true, if_false] at hs
      split_ifs at hs with hd
      · cases hs
        exact ⟨base, h.sync hl ht hpc hd rfl rfl rfl rfl rfl rfl⟩
    | _ => simp [hub, step, hpc, State.sync] at hs
  | recv d =>
    obtain ⟨y, hy, rfl⟩ := Option.map_eq_some_iff.1 hs
    exact ⟨base, h.recv hy⟩

theorem synced_of_reaches (hr : (hub ι).Reaches SyncsOk s) : ∃ base, Synced s base := by
  refine hr.invariant (I := fun s => ∃ base, Synced s base) ?_ ?_
  · rintro s rfl
    exact ⟨_, synced_newHub⟩
  · rintro s a t hr ⟨base, h⟩ ha hs
    exact synced_step h (locks_of_reaches hr) ha hs

/-- The chunks about to be broadcast to session `d`: those whose broadcast has not yet read the node
table, and that of a broadcast which still has to tell `d`. -/
def State.aboutToBroadcast (s : State ι) (d : ℕ) : List Chunk :=
  s.holder.todo d ++ s.holder.pending

/-- In every reachable state the chunk list of each node is a prefix of the hub's list, and for a
registered node it is followed by the chunks in flight and those about to be broadcast to it. -/
theorem chunks_agree (s : State ι) (hr : (hub ι).Reaches SyncsOk s) :
    (∀ d, (s.sessions d).node.chunks <+: s.chunks) ∧
    (∀ d, (s.sessions d).node ≠ .failed) ∧
    ∀ name d, (name, d) ∈ s.nodes →
      (s.sessions d).node.chunks ++ (s.sessions d).inFlight ++ s.aboutToBroadcast d =
        s.chunks := by
  obtain ⟨base, h⟩ := synced_of_reaches hr
  refine ⟨fun d => ?_, fun d hd => ?_, fun name d hm => ?_⟩
  · have h1 : (s.sessions d).node.chunks <+: (s.sessions d).delivered := List.prefix_append _ _
    have h2 : base <+: s.chunks := by
      rw [h.split]
      exact List.prefix_append _ _
    exact (h1.trans (h.delivered d)).trans h2
  · rcases h.sessions d with hf | ⟨l, hn, -⟩ | ⟨hn, -⟩
    · rw [hf.1] at hd
      cases hd
    · rw [hn] at hd
      cases hd
    · rw [hn] at hd
      cases hd
  · have hreg := (h.registered d (List.mem_map_of_mem hm)).2
    rw [State.aboutToBroadcast, ← List.append_assoc]
    change (s.sessions d).delivered ++ s.holder.todo d ++ s.holder.pending = s.chunks
    rw [hreg, h.split]

instance (s : State ι) : (a : Action ι) → Decidable (SyncsOk s a)
  | .sync _ _ alt => inferInstanceAs (Decidable (alt = false))
  | .callDial .. | .callAlloc _ | .callExpand _ | .callWatchdog .. | .run .. | .recv _ =>
    inferInstanceAs (Decidable True)

/-- One node connects, then a chunk is appended and broadcast: the node has taken the handshake, the
new chunk is in flight. -/
theorem chunks_agree_run : ∃ s : State Bool, (s.sessions 0).node = .ready [⟨0⟩] ∧
    (s.sessions 0).node.chunks ++ (s.sessions 0).inFlight ++ s.aboutToBroadcast 0 = s.chunks ∧
    s.chunks = [⟨0⟩, ⟨1⟩] := by
  obtain ⟨s, hr, hp⟩ := System.exists_reaches_of_runWith (hub Bool) SyncsOk
    (List.flatten [[.callDial true 5], List.replicate 15 (.run true false), [.callAlloc false],
      List.replicate 2 (.run false false), [.run false true], List.replicate 10 (.run false false),
      [.sync false 0 false, .recv 0]])
    (fun s => decide ((s.sessions 0).node = .ready [⟨0⟩] ∧ (5, 0) ∈ s.nodes ∧
      s.chunks = [⟨0⟩, ⟨1⟩])) rfl (by decide +kernel)
  obtain ⟨hnode, hreg, hchunks⟩ := of_decide_eq_true hp
  exact ⟨s, hnode, (chunks_agree s hr).2.2 5 0 hreg, hchunks⟩

end Mmfg.Growth
