import Mmfg.Growth.Sessions

/-!
# Chunk lists of hub and nodes agree

A chunk reaches a node with the handshake, with the catch-up message of `Dial` or by a broadcast.
`Synced` splits the hub's chunk list into `base` and the chunk whose broadcast has not yet read the
node table.  What a session has been sent or is about to be sent is a prefix of `base`, and for a
registered session it is `base`.  The reason is the order of the locks: a chunk that is in the list
but not yet in `base` is protected by `b.mu`, so no `GetChunk` of a `Dial` can return it; and `base`
does not change while a `Dial` holds `h.mu` for writing.
-/

namespace Mmfg.Growth

open RWMutex (Role)

variable {ι : Type}

/-- The stage of the thread that holds `tryAppendChunkMux`. -/
def State.holder (s : State ι) : Stage :=
  match s.mux with
  | some i => (s.pc i).stage
  | none => .other

/-- The sessions registered in the hub's table. -/
def State.registered (s : State ι) : List ℕ := s.nodes.map Prod.snd

/-- The invariant: `base` is the hub's chunk list without the chunk that no broadcast covers yet. -/
structure Synced (s : State ι) (base : List Chunk) : Prop where
  split : s.chunks = base ++ s.holder.pending
  count : s.count = s.chunks.length
  sessions : ∀ d, (s.sessions d).Fresh ∨ (s.sessions d).Shaken
  delivered : ∀ d, (s.sessions d).delivered <+: base
  nodup : s.registered.Nodup
  registered : ∀ d ∈ s.registered,
    (s.sessions d).Shaken ∧ (s.sessions d).delivered ++ s.holder.todo d = base
  stages : ∀ i, (s.pc i).stage.Ok s.sessions base s.chunks.length
  apart : ∀ i j, ∀ d ∈ (s.pc i).stage.targets, d ∈ (s.pc j).stage.targets → i = j
  unregistered : ∀ i, ∀ d ∈ (s.pc i).stage.dial, d ∉ s.registered
  known : ∀ i, ∀ d ∈ (s.pc i).stage.targets, d < s.next
  old : ∀ d ∈ s.registered, d < s.next

theorem Stage.mem_targets {x : Stage} {d : ℕ} (h : d ∈ x.dial) : d ∈ x.targets := by
  cases x <;> first | exact h | cases h

variable {s t : State ι} {i j : ι} {pc : PC} {base : List Chunk}

theorem holder_of_inMux (hl : Locks s) (hi : (s.pc i).inMux = true) :
    s.holder = (s.pc i).stage := by
  rw [State.holder, (hl.mux i).2 hi]

/-- While some thread reads under `b.mu`, every chunk is in `base`. -/
theorem Synced.chunks_eq (h : Synced s base) (hl : Locks s) (hi : (s.pc i).bRole = .reading) :
    s.chunks = base := by
  rw [h.split]
  suffices hp : s.holder.pending = [] by rw [hp, List.append_nil]
  by_contra hp
  unfold State.holder at hp
  split at hp
  · exact hl.b.not_reading (PC.bRole_of_pending hp) hi
  · exact hp rfl

theorem synced_newHub : Synced (newHub : State ι) [⟨0⟩] where
  split := rfl
  count := rfl
  sessions _ := .inl ⟨rfl, rfl⟩
  delivered _ := List.nil_prefix
  nodup := List.nodup_nil
  registered := by simp [State.registered, newHub]
  stages _ := trivial
  apart i j d hd := by simp [newHub, PC.stage, Stage.targets, Stage.dial] at hd
  unregistered i d hd := by simp [newHub, PC.stage, Stage.dial] at hd
  known i d hd := by simp [newHub, PC.stage, Stage.targets, Stage.dial] at hd
  old := by simp [State.registered, newHub]

theorem same_refl (x : Session) : x.Same x := ⟨rfl, rfl⟩

theorem setSession_same (s : State ι) {d : ℕ} {x : Session} (hx : x.Same (s.sessions d)) (e : ℕ) :
    ((s.setSession d x).sessions e).Same (s.sessions e) := by
  simp only [State.setSession, Function.update_apply]
  split_ifs with he
  · rw [he]
    exact hx
  · exact same_refl _

theorem Synced.recv (h : Synced s base) {d : ℕ} {y : Session}
    (hy : (s.sessions d).recv = some y) : Synced (s.setSession d y) base := by
  obtain ⟨hsh, hdel⟩ : y.Shaken ∧ y.delivered = (s.sessions d).delivered := by
    rcases h.sessions d with hf | hs
    · rw [hf.recv] at hy
      cases hy
    · exact hs.recv hy
  have hd : (s.setSession d y).sessions d = y := by simp [State.setSession]
  have hne : ∀ e, e ≠ d → (s.setSession d y).sessions e = s.sessions e := by
    intro e he
    simp [State.setSession, he]
  have hdelivered : ∀ e, ((s.setSession d y).sessions e).delivered = (s.sessions e).delivered := by
    intro e
    by_cases he : e = d
    · rw [he, hd, hdel]
    · rw [hne e he]
  have hshaken : ∀ e, (s.sessions e).Shaken → ((s.setSession d y).sessions e).Shaken := by
    intro e he
    by_cases hed : e = d
    · rw [hed, hd]
      exact hsh
    · rw [hne e hed]
      exact he
  have hfresh : ∀ e, (s.sessions e).Fresh → ((s.setSession d y).sessions e).Fresh := by
    intro e he
    have hed : e ≠ d := by
      rintro rfl
      rw [he.recv] at hy
      cases hy
    rw [hne e hed]
    exact he
  refine ⟨h.split, h.count, fun e => (h.sessions e).imp (hfresh e) (hshaken e),
    fun e => by rw [hdelivered]; exact h.delivered e, h.nodup, fun e he => ?_, fun j => ?_, h.apart,
    h.unregistered, h.known, h.old⟩
  · rw [hdelivered]
    exact ⟨hshaken e (h.registered e he).1, (h.registered e he).2⟩
  · exact (h.stages j).imp (fun e _ => hfresh e) (fun e _ => hshaken e) fun e _ => hdelivered e

variable [DecidableEq ι]

/-- What the holder of the mutex contributes changes only with the holder's own stage. -/
theorem holder_congr {β : Type} (f : Stage → β)
    (h0 : ∀ pc : PC, pc.inMux = false → f pc.stage = f .other) (hl : Locks s) (ht : Locks t)
    (hpc : t.pc = Function.update s.pc i pc) (hf : f pc.stage = f (s.pc i).stage) :
    f t.holder = f s.holder := by
  have hne : ∀ j, j ≠ i → t.pc j = s.pc j := fun j hj => by rw [hpc, Function.update_of_ne hj]
  have hi : t.pc i = pc := by rw [hpc, Function.update_self]
  have hout : ∀ j, s.mux ≠ some j → (s.pc j).inMux = false := fun j hj =>
    Bool.eq_false_iff.2 fun hm => hj ((hl.mux j).2 hm)
  have hout' : ∀ j, t.mux ≠ some j → (t.pc j).inMux = false := fun j hj =>
    Bool.eq_false_iff.2 fun hm => hj ((ht.mux j).2 hm)
  -- the two mutex owners, if any, can differ only in thread `i`
  have hown : ∀ j, s.mux = some j → j ≠ i → t.mux = some j := fun j hj hji =>
    (ht.mux j).2 (by rw [hne j hji]; exact (hl.mux j).1 hj)
  have hown' : ∀ j, t.mux = some j → j ≠ i → s.mux = some j := fun j hj hji =>
    (hl.mux j).2 (by rw [← hne j hji]; exact (ht.mux j).1 hj)
  unfold State.holder
  cases hs : s.mux with
  | none =>
    cases htm : t.mux with
    | none => rfl
    | some k =>
      have hk : k = i := by
        by_contra hk
        simp [hown' k htm hk] at hs
      subst hk
      simp only
      rw [hi, hf, h0 _ (hout k (by simp [hs]))]
  | some j =>
    by_cases hj : j = i
    · subst hj
      cases htm : t.mux with
      | none =>
        simp only
        rw [← hf, ← hi, h0 _ (hout' j (by simp [htm]))]
      | some k =>
        have hk : k = j := by
          by_contra hk
          have := hown' k htm hk
          rw [hs] at this
          exact hk (Option.some.inj this).symm
        subst hk
        simp only
        rw [hi, hf]
    · simp only [hown j hs hj, hne j hj]

theorem pending_congr (hl : Locks s) (ht : Locks t) (hpc : t.pc = Function.update s.pc i pc)
    (hp : pc.stage.pending = (s.pc i).stage.pending) : t.holder.pending = s.holder.pending :=
  holder_congr Stage.pending (fun _ hm => (PC.stage_of_not_inMux hm).1) hl ht hpc hp

theorem todo_congr (hl : Locks s) (ht : Locks t) (hpc : t.pc = Function.update s.pc i pc) {d : ℕ}
    (hp : pc.stage.todo d = (s.pc i).stage.todo d) : t.holder.todo d = s.holder.todo d :=
  holder_congr (Stage.todo d) (fun _ hm => (PC.stage_of_not_inMux hm).2 d) hl ht hpc hp

theorem stage_cases (hpc : t.pc = Function.update s.pc i pc) {P : ι → Stage → Prop}
    (hi : P i pc.stage) (hj : ∀ j, j ≠ i → P j (s.pc j).stage) (j : ι) : P j (t.pc j).stage := by
  rw [hpc, Function.update_apply]
  split_ifs with h
  · rw [h]
    exact hi
  · exact hj j h

/-- A step that sends nothing and leaves chunk list and node table alone. -/
theorem Synced.move (h : Synced s base) (hl : Locks s) (ht : Locks t)
    (hpc : t.pc = Function.update s.pc i pc) (hchunks : t.chunks = s.chunks)
    (hcount : t.count = s.count) (hnodes : t.nodes = s.nodes) (hnext : t.next = s.next)
    (hsess : ∀ d, (t.sessions d).Same (s.sessions d))
    (hp : pc.stage.pending = (s.pc i).stage.pending)
    (htodo : ∀ d, pc.stage.todo d = (s.pc i).stage.todo d)
    (htargets : ∀ d ∈ pc.stage.targets, d ∈ (s.pc i).stage.targets)
    (hdial : ∀ d ∈ pc.stage.dial, d ∈ (s.pc i).stage.dial)
    (hok : pc.stage.Ok s.sessions base s.chunks.length) : Synced t base where
  split := by rw [hchunks, pending_congr hl ht hpc hp, h.split]
  count := by rw [hcount, hchunks, h.count]
  sessions d := (h.sessions d).imp (hsess d).fresh (hsess d).shaken
  delivered d := by
    rw [(hsess d).delivered]
    exact h.delivered d
  nodup := by
    rw [State.registered, hnodes]
    exact h.nodup
  registered d hd := by
    rw [State.registered, hnodes] at hd
    rw [(hsess d).delivered, todo_congr hl ht hpc (htodo d)]
    exact ⟨(hsess d).shaken (h.registered d hd).1, (h.registered d hd).2⟩
  stages := by
    rw [hchunks]
    exact stage_cases hpc (P := fun _ x => x.Ok t.sessions base s.chunks.length)
      (hok.congr fun d _ => hsess d) fun j _ => (h.stages j).congr fun d _ => hsess d
  apart := by
    have hsub : ∀ j, ∀ d ∈ (t.pc j).stage.targets, d ∈ (s.pc j).stage.targets :=
      stage_cases hpc (P := fun j x => ∀ d ∈ x.targets, d ∈ (s.pc j).stage.targets) htargets
        fun j _ d hd => hd
    exact fun j k d hj hk => h.apart j k d (hsub j d hj) (hsub k d hk)
  unregistered := by
    rw [State.registered, hnodes]
    exact stage_cases hpc (P := fun _ x => ∀ d ∈ x.dial, d ∉ s.registered)
      (fun d hd => h.unregistered i d (hdial d hd)) fun j _ => h.unregistered j
  known := by
    rw [hnext]
    exact stage_cases hpc (P := fun _ x => ∀ d ∈ x.targets, d < s.next)
      (fun d hd => h.known i d (htargets d hd)) fun j _ => h.known j
  old := by
    rw [State.registered, hnodes, hnext]
    exact h.old

theorem Synced.stay (h : Synced s base) (hl : Locks s) (ht : Locks t)
    (hpc : t.pc = Function.update s.pc i pc) (hst : pc.stage = (s.pc i).stage)
    (hchunks : t.chunks = s.chunks) (hcount : t.count = s.count) (hnodes : t.nodes = s.nodes)
    (hnext : t.next = s.next) (hsess : ∀ d, (t.sessions d).Same (s.sessions d)) :
    Synced t base := by
  refine h.move hl ht hpc hchunks hcount hnodes hnext hsess ?_ ?_ ?_ ?_ ?_
  · rw [hst]
  · intro d
    rw [hst]
  · rw [hst]
    exact fun d hd => hd
  · rw [hst]
    exact fun d hd => hd
  · rw [hst]
    exact h.stages i

theorem Synced.leave (h : Synced s base) (hl : Locks s) (ht : Locks t)
    (hpc : t.pc = Function.update s.pc i pc) (hst : pc.stage = .other)
    (hmux : (s.pc i).stage.pending = [] ∧ ∀ d, (s.pc i).stage.todo d = [])
    (hchunks : t.chunks = s.chunks) (hcount : t.count = s.count) (hnodes : t.nodes = s.nodes)
    (hnext : t.next = s.next) (hsess : ∀ d, (t.sessions d).Same (s.sessions d)) :
    Synced t base := by
  refine h.move hl ht hpc hchunks hcount hnodes hnext hsess ?_ ?_ ?_ ?_ ?_
  · rw [hst, hmux.1]
    rfl
  · intro d
    rw [hst, hmux.2 d]
    rfl
  · simp [hst, Stage.targets, Stage.dial]
  · simp [hst, Stage.dial]
  · rw [hst]
    trivial

theorem Synced.send (h : Synced s base) (hl : Locks s) (ht : Locks t) {d : ℕ} {m : Msg}
    (hpc : t.pc = Function.update s.pc i pc) (hchunks : t.chunks = s.chunks)
    (hcount : t.count = s.count) (hnodes : t.nodes = s.nodes) (hnext : t.next = s.next)
    (hsess : t.sessions = (s.send d m).sessions) (hi : (s.pc i).stage.dial = [d])
    (hmux : (s.pc i).inMux = false) (hmux' : pc.inMux = false) (hst : pc.stage.targets = [d])
    (hshaken : { s.sessions d with socket := (s.sessions d).socket ++ [m] }.Shaken)
    (hpre : (s.sessions d).delivered ++ m.fds <+: base)
    (hok : pc.stage.Ok t.sessions base s.chunks.length) : Synced t base := by
  have hd : t.sessions d = { s.sessions d with socket := (s.sessions d).socket ++ [m] } := by
    simp [hsess, State.send, State.setSession]
  have hne : ∀ e, e ≠ d → t.sessions e = s.sessions e := by
    intro e he
    simp [hsess, State.send, State.setSession, he]
  have hdt : d ∈ (s.pc i).stage.targets := Stage.mem_targets (by rw [hi]; exact List.mem_singleton_self d)
  have hreg : d ∉ s.registered := h.unregistered i d (by rw [hi]; exact List.mem_singleton_self d)
  have hother : ∀ j, j ≠ i → d ∉ (s.pc j).stage.targets := fun j hj hm =>
    hj (h.apart j i d hm hdt)
  have hp : t.holder.pending = s.holder.pending := pending_congr hl ht hpc (by
    rw [(PC.stage_of_not_inMux hmux).1, (PC.stage_of_not_inMux hmux').1])
  have htodo : ∀ e, t.holder.todo e = s.holder.todo e := fun e => todo_congr hl ht hpc (by
    rw [(PC.stage_of_not_inMux hmux).2, (PC.stage_of_not_inMux hmux').2])
  have hsub : ∀ j, ∀ e ∈ (t.pc j).stage.targets, e ∈ (s.pc j).stage.targets := by
    refine stage_cases hpc (P := fun j x => ∀ e ∈ x.targets, e ∈ (s.pc j).stage.targets) ?_
      fun j _ e he => he
    intro e he
    rw [hst, List.mem_singleton] at he
    rw [he]
    exact hdt
  have hregs : t.registered = s.registered := by rw [State.registered, hnodes, State.registered]
  refine ⟨by rw [hchunks, hp, h.split], by rw [hcount, hchunks, h.count], fun e => ?_, fun e => ?_,
    by rw [hregs]; exact h.nodup, fun e he => ?_, ?_,
    fun j k e hj hk => h.apart j k e (hsub j e hj) (hsub k e hk), ?_,
    fun j e he => by rw [hnext]; exact h.known j e (hsub j e he), by rw [hregs, hnext]; exact h.old⟩
  · by_cases he : e = d
    · rw [he, hd]
      exact .inr hshaken
    · rw [hne e he]
      exact h.sessions e
  · by_cases he : e = d
    · rw [he, hd, Session.delivered_send]
      exact hpre
    · rw [hne e he]
      exact h.delivered e
  · rw [hregs] at he
    rw [hne e (fun hed => hreg (hed ▸ he)), htodo]
    exact h.registered e he
  · rw [hchunks]
    refine stage_cases hpc (P := fun _ x => x.Ok t.sessions base s.chunks.length) hok fun j hj => ?_
    refine (h.stages j).congr fun e he => ?_
    rw [hne e (fun hed => hother j hj (hed ▸ he))]
    exact same_refl _
  · rw [hregs]
    refine stage_cases hpc (P := fun _ x => ∀ e ∈ x.dial, e ∉ s.registered) ?_
      fun j _ => h.unregistered j
    intro e he
    have := Stage.mem_targets he
    rw [hst, List.mem_singleton] at this
    rw [this]
    exact hreg

/-! ## Steps that change the node table or the chunk list -/

/-- A `Dial` registers its session, of which everything in `base` has been sent. -/
theorem Synced.register (h : Synced s base) (hl : Locks s) (ht : Locks t) {d name : ℕ}
    (hi : s.pc i = .register d) (hpc : t.pc = Function.update s.pc i .idle)
    (hchunks : t.chunks = s.chunks) (hcount : t.count = s.count) (hnext : t.next = s.next)
    (hnodes : t.nodes = (name, d) :: s.nodes.filter (·.1 ≠ name))
    (hsess : ∀ d, (t.sessions d).Same (s.sessions d)) : Synced t base := by
  have hst : (s.pc i).stage = .synced d [] := by rw [hi]; rfl
  obtain ⟨hshaken, hbase⟩ : (s.sessions d).Shaken ∧ (s.sessions d).delivered ++ [] = base := by
    have := h.stages i
    rw [hst] at this
    exact this
  have hdt : d ∈ (s.pc i).stage.targets := by rw [hst]; exact List.mem_singleton_self d
  -- the other fields are those of a `Dial` that ends without registering
  have hleave : Synced { t with nodes := s.nodes } base :=
    h.leave hl ⟨ht.h, ht.b, ht.mux⟩ hpc rfl (by rw [hst]; exact ⟨rfl, fun _ => rfl⟩) hchunks hcount
      rfl hnext hsess
  have hsub : ∀ e ∈ t.registered, e = d ∨ e ∈ s.registered := by
    intro e he
    rw [State.registered, hnodes, List.map_cons, List.mem_cons] at he
    refine he.imp_right fun he => ?_
    obtain ⟨x, hx, rfl⟩ := List.mem_map.1 he
    exact List.mem_map_of_mem (List.mem_of_mem_filter hx)
  have hreg : d ∉ s.registered :=
    h.unregistered i d (by rw [hst]; exact List.mem_singleton_self d)
  have htodo : t.holder.todo d = [] := by
    unfold State.holder
    split
    · rename_i k hk
      cases hk' : (t.pc k).stage with
      | telling chunk nodes =>
        refine if_neg fun hm => ?_
        rw [hpc] at hk'
        by_cases hki : k = i
        · rw [hki, Function.update_self] at hk'
          cases hk'
        · rw [Function.update_of_ne hki] at hk'
          exact hki (h.apart k i d (by rw [hk']; exact hm) hdt)
      | _ => rfl
    · rfl
  refine { hleave with
    nodup := ?_, registered := fun e he => ?_, unregistered := fun j e he hm => ?_,
    old := fun e he => ?_ }
  · rw [State.registered, hnodes, List.map_cons, List.nodup_cons]
    have hfilter : List.Sublist ((s.nodes.filter (·.1 ≠ name)).map Prod.snd) s.registered :=
      List.filter_sublist.map Prod.snd
    exact ⟨fun hm => hreg (hfilter.subset hm), h.nodup.sublist hfilter⟩
  · rcases hsub e he with rfl | he
    · rw [htodo, (hsess e).delivered]
      exact ⟨(hsess e).shaken hshaken, hbase⟩
    · exact hleave.registered e he
  · rcases hsub e hm with rfl | hm
    · by_cases hji : j = i
      · rw [hji, hpc, Function.update_self] at he
        simp [PC.stage, Stage.dial] at he
      · rw [hpc, Function.update_of_ne hji] at he
        exact hji (h.apart j i e (Stage.mem_targets he) hdt)
    · exact hleave.unregistered j e he hm
  · rcases hsub e he with rfl | he
    · rw [hnext]
      exact h.known i e hdt
    · exact hleave.old e he

theorem Synced.delete (h : Synced s base) (hl : Locks s) (ht : Locks t) {d name : ℕ}
    (hi : s.pc i = .delete d) (hpc : t.pc = Function.update s.pc i .idle)
    (hchunks : t.chunks = s.chunks) (hcount : t.count = s.count) (hnext : t.next = s.next)
    (hnodes : t.nodes = s.nodes.filter (·.1 ≠ name))
    (hsess : ∀ d, (t.sessions d).Same (s.sessions d)) : Synced t base := by
  have hleave : Synced { t with nodes := s.nodes } base :=
    h.leave hl ⟨ht.h, ht.b, ht.mux⟩ hpc rfl (by rw [hi]; exact ⟨rfl, fun _ => rfl⟩) hchunks hcount
      rfl hnext hsess
  have hfilter : List.Sublist t.registered s.registered := by
    rw [State.registered, hnodes]
    exact List.filter_sublist.map Prod.snd
  exact { hleave with
    nodup := h.nodup.sublist hfilter
    registered := fun e he => hleave.registered e (hfilter.subset he)
    unregistered := fun j e he hm => hleave.unregistered j e he (hfilter.subset hm)
    old := fun e he => hleave.old e (hfilter.subset he) }

/-- A chunk is appended; it is not in `base` yet. -/
theorem Synced.grow (h : Synced s base) (hl : Locks s) (ht : Locks t) {r : Caller} {chunk : Chunk}
    (hi : s.pc i = .grow r chunk)
    (hpc : t.pc = Function.update s.pc i (.hRLock (.broadcast r chunk)))
    (hchunks : t.chunks = s.chunks ++ [chunk]) (hcount : t.count = s.count + 1)
    (hnodes : t.nodes = s.nodes) (hnext : t.next = s.next) (hsess : t.sessions = s.sessions) :
    Synced t base := by
  have hst : (s.pc i).stage = .other := by rw [hi]; rfl
  have hs : s.holder = .other := by
    rw [holder_of_inMux (i := i) hl (by rw [hi]; rfl), hst]
  have hti : t.pc i = .hRLock (.broadcast r chunk) := by rw [hpc, Function.update_self]
  have hth : t.holder = .unsent chunk := by
    rw [holder_of_inMux (i := i) ht (by rw [hti]; rfl), hti]
    rfl
  have hsub : ∀ j, ∀ e ∈ (t.pc j).stage.targets, e ∈ (s.pc j).stage.targets :=
    stage_cases hpc (P := fun j x => ∀ e ∈ x.targets, e ∈ (s.pc j).stage.targets)
      (fun e he => by simp [PC.stage, HReader.stage, Stage.targets, Stage.dial] at he)
      fun j _ e he => he
  have hregs : t.registered = s.registered := by rw [State.registered, hnodes, State.registered]
  refine ⟨?_, ?_, by rw [hsess]; exact h.sessions, by rw [hsess]; exact h.delivered,
    by rw [hregs]; exact h.nodup, fun e he => ?_, ?_,
    fun j k e hj hk => h.apart j k e (hsub j e hj) (hsub k e hk), ?_,
    fun j e he => by rw [hnext]; exact h.known j e (hsub j e he), by rw [hregs, hnext]; exact h.old⟩
  · rw [hchunks, h.split, hs, hth]
    simp [Stage.pending]
  · rw [hcount, hchunks, h.count, List.length_append, List.length_singleton]
  · rw [hregs] at he
    have := h.registered e he
    rw [hs] at this
    rw [hsess, hth]
    exact this
  · rw [hsess]
    refine stage_cases hpc (P := fun _ x => x.Ok s.sessions base t.chunks.length) trivial
      fun j _ => (h.stages j).mono_len ?_
    rw [hchunks, List.length_append]
    exact Nat.le_add_right _ _
  · rw [hregs]
    exact stage_cases hpc (P := fun _ x => ∀ e ∈ x.dial, e ∉ s.registered)
      (fun e he => by simp [PC.stage, HReader.stage, Stage.dial] at he) fun j _ => h.unregistered j

/-- The broadcast reads the node table: from now on the chunk is in `base`, and all registered
sessions have still to be told. -/
theorem Synced.snapshot (h : Synced s base) (hl : Locks s) (ht : Locks t) {r : Caller}
    {chunk : Chunk} (hi : s.pc i = .snapshot r chunk)
    (hpc : t.pc = Function.update s.pc i (.broadcast r chunk s.registered))
    (hchunks : t.chunks = s.chunks) (hcount : t.count = s.count)
    (hnodes : t.nodes = s.nodes) (hnext : t.next = s.next) (hsess : t.sessions = s.sessions) :
    Synced t (base ++ [chunk]) := by
  have hst : (s.pc i).stage = .unsent chunk := by rw [hi]; rfl
  have hs : s.holder = .unsent chunk := by
    rw [holder_of_inMux (i := i) hl (by rw [hi]; rfl), hst]
  have hti : t.pc i = .broadcast r chunk s.registered := by rw [hpc, Function.update_self]
  have hth : t.holder = .telling chunk s.registered := by
    rw [holder_of_inMux (i := i) ht (by rw [hti]; rfl), hti]
    rfl
  have hregs : t.registered = s.registered := by rw [State.registered, hnodes, State.registered]
  have hall : ∀ d ∈ s.registered, (s.sessions d).Shaken ∧ (s.sessions d).delivered = base := by
    intro d hd
    have := h.registered d hd
    rw [hs] at this
    simpa [Stage.todo] using this
  -- nobody else relies on the exact `base`: they would hold one of the two locks for writing
  have hexact : ∀ j, j ≠ i → (s.pc j).stage.exact = false := by
    intro j hj
    refine Bool.eq_false_iff.2 fun he => ?_
    rcases PC.role_of_exact he with hw | hw
    · exact hl.h.not_reading hw (by rw [hi]; rfl : (s.pc i).hRole = .reading)
    · exact hj (hl.b.writer_unique (.inr hw) (.inr (by rw [hi]; rfl)))
  have hdial : ∀ j, j ≠ i → ∀ e ∈ (s.pc j).stage.targets, e ∉ s.registered := by
    intro j hj e he
    refine h.unregistered j e ?_
    have hx := hexact j hj
    cases hstage : (s.pc j).stage with
    | telling c nodes => rw [hstage] at hx; cases hx
    | _ => rw [hstage] at he; exact he
  have htargets : ∀ j, j ≠ i → (t.pc j).stage = (s.pc j).stage := by
    intro j hj
    rw [hpc, Function.update_of_ne hj]
  have hpre : base <+: base ++ [chunk] := List.prefix_append base [chunk]
  refine ⟨?_, by rw [hcount, hchunks, h.count], by rw [hsess]; exact h.sessions,
    fun d => by rw [hsess]; exact (h.delivered d).trans hpre, by rw [hregs]; exact h.nodup,
    fun e he => ?_, ?_, fun j k e hj hk => ?_, ?_, ?_, by rw [hregs, hnext]; exact h.old⟩
  · rw [hchunks, h.split, hs, hth]
    simp [Stage.pending]
  · rw [hregs] at he
    rw [hsess, hth, (hall e he).2]
    refine ⟨(hall e he).1, ?_⟩
    simp [Stage.todo, he]
  · rw [hsess, hchunks]
    refine stage_cases hpc (P := fun _ x => x.Ok s.sessions (base ++ [chunk]) s.chunks.length) ?_
      fun j hj => (h.stages j).mono_base (hexact j hj) hpre
    exact ⟨h.nodup, fun d hd => ⟨(hall d hd).1, by rw [(hall d hd).2]⟩⟩
  · by_cases hji : j = i
    · by_cases hki : k = i
      · rw [hji, hki]
      · rw [hji, hti] at hj
        rw [htargets k hki] at hk
        exact absurd hj (hdial k hki e hk)
    · rw [htargets j hji] at hj
      by_cases hki : k = i
      · rw [hki, hti] at hk
        exact absurd hk (hdial j hji e hj)
      · rw [htargets k hki] at hk
        exact h.apart j k e hj hk
  · rw [hregs]
    exact stage_cases hpc (P := fun _ x => ∀ e ∈ x.dial, e ∉ s.registered)
      (fun e he => by simp [PC.stage, Stage.dial] at he) fun j _ => h.unregistered j
  · rw [hnext]
    exact stage_cases hpc (P := fun _ x => ∀ e ∈ x.targets, e < s.next) (fun e he => h.old e he)
      fun j _ => h.known j

theorem Synced.sync (h : Synced s base) (hl : Locks s) (ht : Locks t) {r : Caller} {chunk : Chunk}
    {nodes : List ℕ} {d : ℕ} (hi : s.pc i = .broadcast r chunk nodes) (hd : d ∈ nodes)
    (hpc : t.pc = Function.update s.pc i (.broadcast r chunk (nodes.erase d)))
    (hchunks : t.chunks = s.chunks) (hcount : t.count = s.count) (hnodes : t.nodes = s.nodes)
    (hnext : t.next = s.next) (hsess : t.sessions = (s.send d (.newChunk [chunk])).sessions) :
    Synced t base := by
  have hst : (s.pc i).stage = .telling chunk nodes := by rw [hi]; rfl
  obtain ⟨hnd, htell⟩ : nodes.Nodup ∧ ∀ d ∈ nodes, (s.sessions d).Shaken ∧
      (s.sessions d).delivered ++ [chunk] = base := by
    have := h.stages i
    rw [hst] at this
    exact this
  have hs : s.holder = .telling chunk nodes := by
    rw [holder_of_inMux (i := i) hl (by rw [hi]; rfl), hst]
  have hti : t.pc i = .broadcast r chunk (nodes.erase d) := by rw [hpc, Function.update_self]
  have hth : t.holder = .telling chunk (nodes.erase d) := by
    rw [holder_of_inMux (i := i) ht (by rw [hti]; rfl), hti]
    rfl
  have hsd : t.sessions d =
      { s.sessions d with socket := (s.sessions d).socket ++ [Msg.newChunk [chunk]] } := by
    simp [hsess, State.send, State.setSession]
  have hne : ∀ e, e ≠ d → t.sessions e = s.sessions e := by
    intro e he
    simp [hsess, State.send, State.setSession, he]
  have hdel : (t.sessions d).delivered = base := by
    rw [hsd, Session.delivered_send]
    exact (htell d hd).2
  have hother : ∀ j, j ≠ i → d ∉ (s.pc j).stage.targets := fun j hj hm =>
    hj (h.apart j i d hm (by rw [hst]; exact hd))
  have hsub : ∀ j, ∀ e ∈ (t.pc j).stage.targets, e ∈ (s.pc j).stage.targets := by
    refine stage_cases hpc (P := fun j x => ∀ e ∈ x.targets, e ∈ (s.pc j).stage.targets) ?_
      fun j _ e he => he
    intro e he
    rw [hst]
    exact List.mem_of_mem_erase he
  have hregs : t.registered = s.registered := by rw [State.registered, hnodes, State.registered]
  refine ⟨?_, by rw [hcount, hchunks, h.count], fun e => ?_, fun e => ?_,
    by rw [hregs]; exact h.nodup, fun e he => ?_, ?_,
    fun j k e hj hk => h.apart j k e (hsub j e hj) (hsub k e hk), ?_,
    fun j e he => by rw [hnext]; exact h.known j e (hsub j e he), by rw [hregs, hnext]; exact h.old⟩
  · rw [hchunks, h.split, hs, hth]
    rfl
  · by_cases he : e = d
    · rw [he, hsd]
      exact .inr ((htell d hd).1.newChunk [chunk])
    · rw [hne e he]
      exact h.sessions e
  · by_cases he : e = d
    · rw [he, hdel]
    · rw [hne e he]
      exact h.delivered e
  · rw [hregs] at he
    rw [hth]
    by_cases hed : e = d
    · subst hed
      rw [hdel, hsd]
      refine ⟨(htell e hd).1.newChunk [chunk], ?_⟩
      simp [Stage.todo, hnd.mem_erase_iff]
    · have := h.registered e he
      rw [hs] at this
      rw [hne e hed]
      simpa [Stage.todo, hnd.mem_erase_iff, hed] using this
  · rw [hchunks]
    refine stage_cases hpc (P := fun _ x => x.Ok t.sessions base s.chunks.length) ?_ fun j hj => ?_
    · refine ⟨hnd.erase d, fun e he => ?_⟩
      obtain ⟨hed, hm⟩ := hnd.mem_erase_iff.1 he
      rw [hne e hed]
      exact htell e hm
    · refine (h.stages j).congr fun e he => ?_
      rw [hne e (fun hed => hother j hj (hed ▸ he))]
      exact same_refl _
  · rw [hregs]
    exact stage_cases hpc (P := fun _ x => ∀ e ∈ x.dial, e ∉ s.registered)
      (fun e he => by simp [PC.stage, Stage.dial] at he) fun j _ => h.unregistered j

theorem Synced.callDial (h : Synced s base) (hl : Locks s) (ht : Locks t) {x : Session}
    (hi : s.pc i = .idle) (hx : x.Fresh)
    (hpc : t.pc = Function.update s.pc i (.hLock (.allocNodeID s.next)))
    (hchunks : t.chunks = s.chunks) (hcount : t.count = s.count) (hnodes : t.nodes = s.nodes)
    (hnext : t.next = s.next + 1) (hsess : t.sessions = (s.setSession s.next x).sessions) :
    Synced t base := by
  have hst : (s.pc i).stage = .other := by rw [hi]; rfl
  have hd : t.sessions s.next = x := by simp [hsess, State.setSession]
  have hne : ∀ e, e < s.next → t.sessions e = s.sessions e := by
    intro e he
    simp [hsess, State.setSession, he.ne]
  have hp : t.holder.pending = s.holder.pending := pending_congr hl ht hpc (by rw [hst]; rfl)
  have htodo : ∀ e, t.holder.todo e = s.holder.todo e := fun e =>
    todo_congr hl ht hpc (by rw [hst]; rfl)
  have hregs : t.registered = s.registered := by rw [State.registered, hnodes, State.registered]
  have hti : (t.pc i).stage.targets = [s.next] := by rw [hpc, Function.update_self]; rfl
  have htj : ∀ j, j ≠ i → t.pc j = s.pc j := fun j hj => by rw [hpc, Function.update_of_ne hj]
  have hnew : ∀ j, j ≠ i → s.next ∉ (t.pc j).stage.targets := by
    intro j hj hm
    rw [htj j hj] at hm
    exact lt_irrefl _ (h.known j _ hm)
  refine ⟨by rw [hchunks, hp, h.split], by rw [hcount, hchunks, h.count], fun e => ?_, fun e => ?_,
    by rw [hregs]; exact h.nodup, fun e he => ?_, ?_, fun j k e hj hk => ?_, ?_, ?_, fun e he => ?_⟩
  · by_cases he : e = s.next
    · rw [he, hd]
      exact .inl hx
    · simp only [hsess, State.setSession, Function.update_of_ne he]
      exact h.sessions e
  · by_cases he : e = s.next
    · rw [he, hd, hx.delivered]
      exact List.nil_prefix
    · simp only [hsess, State.setSession, Function.update_of_ne he]
      exact h.delivered e
  · rw [hregs] at he
    rw [hne e (h.old e he), htodo]
    exact h.registered e he
  · rw [hchunks]
    refine stage_cases hpc (P := fun _ x => x.Ok t.sessions base s.chunks.length) ?_ fun j _ => ?_
    · change (t.sessions s.next).Fresh
      rw [hd]
      exact hx
    · refine (h.stages j).congr fun e he => ?_
      rw [hne e (h.known j e he)]
      exact same_refl _
  · by_cases hji : j = i
    · rw [hji, hti, List.mem_singleton] at hj
      by_cases hki : k = i
      · rw [hji, hki]
      · rw [hj] at hk
        exact absurd hk (hnew k hki)
    · by_cases hki : k = i
      · rw [hki, hti, List.mem_singleton] at hk
        rw [hk] at hj
        exact absurd hj (hnew j hji)
      · rw [htj j hji] at hj
        rw [htj k hki] at hk
        exact h.apart j k e hj hk
  · rw [hregs]
    refine stage_cases hpc (P := fun _ x => ∀ e ∈ x.dial, e ∉ s.registered) ?_
      fun j _ => h.unregistered j
    intro e he hm
    rw [List.mem_singleton.1 he] at hm
    exact lt_irrefl _ (h.old _ hm)
  · rw [hnext]
    refine stage_cases hpc (P := fun _ x => ∀ e ∈ x.targets, e < s.next + 1) ?_
      fun j _ e he => (h.known j e he).trans (Nat.lt_succ_self _)
    intro e he
    rw [List.mem_singleton.1 he]
    exact Nat.lt_succ_self _
  · rw [hregs] at he
    rw [hnext]
    exact (h.old e he).trans (Nat.lt_succ_self _)

end Mmfg.Growth
