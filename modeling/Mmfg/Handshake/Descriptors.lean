import Mmfg.Handshake.Basic

/-!
# Who closes the descriptors

A function that has received descriptors owns them until it returns: on an error it must have closed
each of them once, on success each but those it hands on.  `OwnsBut` says this up to a list of
descriptors that are left open.

In Go that list is `lost`: `ReceiveMsgWithFDs` forgets what it has parsed when it comes to an
ancillary message of another kind.  In Rust it is `leftOver`: `Node::new` returns at the first chunk
that cannot be mapped and forgets those behind it.  So every path is right exactly when both lists
are empty (`descriptors_released_iff`).
-/

namespace Mmfg.Handshake

variable {α : Type} {t t' : List Event} {fds kept : List Fd}

/-! ## Traces -/

/-- The descriptor that an event brings. -/
def Event.parsedFd : Event → Option Fd
  | .parsed fd => some fd
  | _ => none

/-- The descriptor that an event closes. -/
def Event.closedFd : Event → Option Fd
  | .closed fd => some fd
  | _ => none

/-- The descriptors that come in. -/
def parsedFds (t : List Event) : List Fd := t.filterMap Event.parsedFd

/-- The descriptors that are closed. -/
def closedFds (t : List Event) : List Fd := t.filterMap Event.closedFd

@[simp] theorem parsedFds_append : parsedFds (t ++ t') = parsedFds t ++ parsedFds t' :=
  List.filterMap_append

@[simp] theorem closedFds_append : closedFds (t ++ t') = closedFds t ++ closedFds t' :=
  List.filterMap_append

@[simp] theorem parsedFds_nil : parsedFds [] = [] := rfl

@[simp] theorem closedFds_nil : closedFds [] = [] := rfl

/-- A trace of one kind of event, of which the function reads the descriptors. -/
theorem filterMap_map_some {read : Event → Option Fd} {event : Fd → Event}
    (h : ∀ fd, read (event fd) = some fd) : (fds.map event).filterMap read = fds := by
  rw [List.filterMap_map, show read ∘ event = some from funext h, List.filterMap_some]

theorem filterMap_map_none {read : Event → Option Fd} {event : Fd → Event}
    (h : ∀ fd, read (event fd) = none) : (fds.map event).filterMap read = [] := by
  rw [List.filterMap_map]
  exact List.filterMap_eq_nil_iff.2 fun fd _ => h fd

@[simp] theorem parsedFds_map_parsed : parsedFds (fds.map .parsed) = fds :=
  filterMap_map_some fun _ => rfl

@[simp] theorem closedFds_map_parsed : closedFds (fds.map .parsed) = [] :=
  filterMap_map_none fun _ => rfl

@[simp] theorem parsedFds_closeAll : parsedFds (closeAll fds) = [] :=
  filterMap_map_none fun _ => rfl

@[simp] theorem closedFds_closeAll : closedFds (closeAll fds) = fds :=
  filterMap_map_some fun _ => rfl

@[simp] theorem parsedFds_map_mapped : parsedFds (fds.map .mapped) = [] :=
  filterMap_map_none fun _ => rfl

@[simp] theorem closedFds_map_mapped : closedFds (fds.map .mapped) = [] :=
  filterMap_map_none fun _ => rfl

@[simp] theorem parsedFds_map_unmapped : parsedFds (fds.map .unmapped) = [] :=
  filterMap_map_none fun _ => rfl

@[simp] theorem closedFds_map_unmapped : closedFds (fds.map .unmapped) = [] :=
  filterMap_map_none fun _ => rfl

/-- Every descriptor that was parsed is kept or was closed, each once. -/
def Released (t : List Event) (kept : List Fd) : Prop := (closedFds t ++ kept).Perm (parsedFds t)

instance (t : List Event) (kept : List Fd) : Decidable (Released t kept) :=
  inferInstanceAs (Decidable (List.Perm _ _))

/-- The chunk was mapped and its descriptor closed after that. -/
def MappedFirst (t : List Event) (c : Chunk) : Prop :=
  [Event.mapped c.data, .closed c.data].Sublist t

/-- On an error all descriptors are closed; on success all but those kept, those of chunks after the
chunks were mapped. -/
def Owns (kept : α → List Fd) (chunks : α → List Chunk) (x : Except Err α × List Event) : Prop :=
  match x.1 with
  | .error _ => Released x.2 []
  | .ok a => Released x.2 (kept a) ∧ ∀ c ∈ chunks a, MappedFirst x.2 c

/-- The same, but on an error the descriptors in `extra` are left open; on success there are none. -/
def OwnsBut (extra : List Fd) (kept : α → List Fd) (chunks : α → List Chunk)
    (x : Except Err α × List Event) : Prop :=
  match x.1 with
  | .error _ => Released x.2 extra
  | .ok a => extra = [] ∧ Released x.2 (kept a) ∧ ∀ c ∈ chunks a, MappedFirst x.2 c

theorem OwnsBut.owns_iff {extra : List Fd} {kept : α → List Fd} {chunks : α → List Chunk}
    {x : Except Err α × List Event} (h : OwnsBut extra kept chunks x) :
    Owns kept chunks x ↔ extra = [] := by
  obtain ⟨err | a, t⟩ := x
  · refine ⟨fun hall => ?_, fun hnil => ?_⟩
    · have hlen := h.length_eq.trans hall.length_eq.symm
      rw [List.append_nil, List.length_append] at hlen
      exact List.eq_nil_of_length_eq_zero (by omega)
    · rw [hnil] at h
      exact h
  · exact iff_of_true h.2 h.1

/-! ## Receiving -/

/-- The descriptors that were parsed before an ancillary message of another kind. -/
def lost : Option Datagram → List Fd
  | none => []
  | some d =>
    if d.data = [] ∨ d.malformed = true ∨ d.scms.all ControlMessage.isRights = true then []
    else (d.scms.takeWhile ControlMessage.isRights).flatMap ControlMessage.fds

theorem parseLoop_eq (scms : List ControlMessage) (fds : List Fd) :
    parseLoop scms fds =
      (fds ++ (scms.takeWhile ControlMessage.isRights).flatMap ControlMessage.fds,
        !scms.all ControlMessage.isRights) := by
  induction scms generalizing fds with
  | nil => simp [parseLoop]
  | cons scm scms ih =>
    cases scm with
    | rights scmFDs =>
      rw [parseLoop, ih, List.takeWhile_cons_of_pos rfl, List.flatMap_cons, List.append_assoc]
      rfl
    | other => simp [parseLoop, ControlMessage.isRights]

/-- What a function that receives a message does with its descriptors: if it succeeds, they are in
the trace and nothing else. -/
structure Receives (extra : List Fd) (x : Except Err Message × List Event) : Prop where
  owns : OwnsBut extra Message.fds (fun _ => []) x
  trace : ∀ m, x.1 = .ok m → parsedFds x.2 = m.fds ∧ closedFds x.2 = []

theorem Receives.error {extra : List Fd} (err : Err) (h : Released t extra) :
    Receives extra (.error err, t) where
  owns := h
  trace m hm := by cases hm

theorem Receives.ok {m : Message} (hparsed : parsedFds t = m.fds) (hclosed : closedFds t = []) :
    Receives [] (.ok m, t) where
  owns := by
    refine ⟨rfl, ?_, fun c hc => by cases hc⟩
    rw [Released, hparsed, hclosed]
    exact .refl _
  trace m' hm' := by
    cases hm'
    exact ⟨hparsed, hclosed⟩

theorem receives_receiveMsgWithFDs (msgLen : ℕ) (hlen : 0 < msgLen) (r : Option Datagram) :
    Receives (lost r) (receiveMsgWithFDs msgLen r) := by
  cases r with
  | none => exact .error _ (.refl _)
  | some d =>
    rw [receiveMsgWithFDs, lost, parseLoop_eq]
    have hn : min d.data.length msgLen = 0 ↔ d.data = [] := by
      rw [← List.length_eq_zero_iff]
      omega
    by_cases hempty : d.data = []
    · rw [if_pos (hn.2 hempty), if_pos (.inl hempty)]
      exact .error _ (.refl _)
    rw [if_neg (mt hn.1 hempty)]
    by_cases hmal : d.malformed = true
    · rw [if_pos hmal, if_pos (.inr (.inl hmal))]
      exact .error _ (.refl _)
    rw [if_neg hmal]
    cases hall : d.scms.all ControlMessage.isRights with
    | true =>
      rw [if_pos (.inr (.inr rfl))]
      exact .ok parsedFds_map_parsed closedFds_map_parsed
    | false =>
      rw [if_neg (by simp [hempty, hmal])]
      refine .error _ ?_
      simp [Released, closeAll]

/-! ## The Go node -/

/-- A chunk in use; its field says that it has no descriptor. -/
def attached (fd : Fd) : Chunk := ⟨fd, -1⟩

section

variable (mmap : Fd → Bool)

theorem attachLoop_eq (fds : List Fd) (chunks : List Chunk) :
    attachLoop mmap fds chunks =
      if fds.all mmap then (.ok (chunks ++ fds.map attached), fds.map .mapped)
      else (.error .mmap, (fds.takeWhile mmap).map .mapped ++
        (chunks ++ (fds.takeWhile mmap).map attached).flatMap Chunk.close) := by
  induction fds generalizing chunks with
  | nil => simp [attachLoop]
  | cons fd fds ih =>
    rw [attachLoop, attachChunk, List.all_cons]
    cases hfd : mmap fd with
    | false => simp [hfd]
    | true =>
      simp only [if_true, ih, Bool.true_and, List.takeWhile_cons_of_pos hfd]
      split_ifs with hall
      · simp [attached]
      · simp [attached]

/-- A chunk whose field is -1 is only unmapped. -/
theorem close_attached (fds : List Fd) :
    (fds.map attached).flatMap Chunk.close = fds.map .unmapped := by
  rw [List.flatMap_map, ← List.flatMap_pure_eq_map]
  rfl

/-- The loop closes no descriptor; if it succeeds, it has mapped them all. -/
theorem attachLoop_spec (fds : List Fd) :
    parsedFds (attachLoop mmap fds []).2 = [] ∧ closedFds (attachLoop mmap fds []).2 = [] ∧
      ∀ chunks, (attachLoop mmap fds []).1 = .ok chunks →
        chunks = fds.map attached ∧ (attachLoop mmap fds []).2 = fds.map .mapped := by
  rw [attachLoop_eq]
  split_ifs with hall
  · refine ⟨parsedFds_map_mapped, closedFds_map_mapped, ?_⟩
    rintro chunks ⟨⟩
    exact ⟨rfl, rfl⟩
  · rw [List.nil_append, close_attached]
    exact ⟨by simp, by simp, nofun⟩

/-- Chunks that are mapped one after the other, before all descriptors are closed. -/
theorem mappedFirst_of_mem {closing : List Fd} {c : Chunk} (t : List Event)
    (hmap : c ∈ fds.map attached) (hclose : ∀ fd ∈ fds, fd ∈ closing) :
    MappedFirst (t ++ fds.map .mapped ++ closeAll closing) c := by
  obtain ⟨fd, hfd, rfl⟩ := List.mem_map.1 hmap
  have h1 : [Event.mapped fd].Sublist (t ++ fds.map .mapped) :=
    List.singleton_sublist.2 (List.mem_append_right _ (List.mem_map_of_mem hfd))
  have h2 : [Event.closed fd].Sublist (closeAll closing) :=
    List.singleton_sublist.2 (List.mem_map_of_mem (hclose fd hfd))
  exact h1.append h2

/-- What the body of `handshake` does with the descriptors of a message: it maps those of the chunks
and leaves the rest to the deferred function. -/
structure Leaves (m : Message) (x : Except Err Session × List Event) : Prop where
  parsed : parsedFds x.2 = []
  closed : closedFds x.2 = []
  ok : ∀ s, x.1 = .ok s → ∃ fds, m.fds = s.nodeEv :: s.hubEv :: fds ∧ s.chunks = fds.map attached ∧
    x.2 = fds.map .mapped

theorem leaves_openSession (m : Message) : Leaves m (openSession mmap m) := by
  have hnone : ∀ err : Err, Leaves m (.error err, []) := fun _ => ⟨rfl, rfl, nofun⟩
  unfold openSession
  dsimp only
  split_ifs
  · exact hnone _
  · exact hnone _
  · exact hnone _
  · exact hnone _
  · split
    · rename_i nodeEv hubEv control more hfds
      obtain ⟨hparsed, hclosed, hok⟩ := attachLoop_spec mmap (control :: more)
      generalize attachLoop mmap (control :: more) [] = x at hparsed hclosed hok
      obtain ⟨err | chunks, t⟩ := x
      · exact ⟨hparsed, hclosed, nofun⟩
      · obtain ⟨hchunks, ht⟩ := hok chunks rfl
        refine ⟨hparsed, hclosed, ?_⟩
        rintro s ⟨⟩
        exact ⟨control :: more, hfds, hchunks, ht⟩
    · exact hnone _

theorem handshake_owns (r : Option Datagram) :
    OwnsBut (lost r) (fun s => [s.nodeEv, s.hubEv]) Session.chunks (handshake mmap r) := by
  obtain ⟨hreceive, hmessage⟩ := receives_receiveMsgWithFDs 7 (by decide) r
  unfold handshake
  generalize receiveMsgWithFDs 7 r = x at hreceive hmessage
  obtain ⟨err | m, t⟩ := x
  · exact hreceive
  · obtain ⟨hparsed, hclosed⟩ := hmessage m rfl
    obtain ⟨hparsed', hclosed', hok⟩ := leaves_openSession mmap m
    dsimp only at hparsed hclosed ⊢
    generalize openSession mmap m = y at hparsed' hclosed' hok
    obtain ⟨err | s, t'⟩ := y
    · dsimp only at hparsed' hclosed'
      rw [hreceive.1]
      simp [OwnsBut, Released, hparsed, hclosed, hparsed', hclosed']
    · obtain ⟨fds, hfds, hchunks, ht'⟩ := hok s rfl
      dsimp only at hparsed' hclosed' ht'
      refine ⟨hreceive.1, ?_, fun c hc => ?_⟩
      · simp only [Released, parsedFds_append, closedFds_append, hparsed, hclosed, hparsed', hclosed',
          parsedFds_closeAll, closedFds_closeAll, List.append_nil, List.nil_append]
        rw [hfds]
        exact List.perm_append_comm
      · rw [hchunks] at hc
        rw [ht']
        refine mappedFirst_of_mem t hc fun fd hfd => ?_
        rwa [hfds]

theorem handleMessage_owns (r : Option Datagram) :
    OwnsBut (lost r) (fun _ => []) id (handleMessage mmap r) := by
  obtain ⟨hreceive, hmessage⟩ := receives_receiveMsgWithFDs 1 (by decide) r
  unfold handleMessage
  generalize receiveMsgWithFDs 1 r = x at hreceive hmessage
  obtain ⟨err | m, t⟩ := x
  · exact hreceive
  · obtain ⟨hparsed, hclosed⟩ := hmessage m rfl
    have hall : ∀ t', parsedFds t' = [] → closedFds t' = [] →
        Released (t ++ t' ++ closeAll m.fds) [] := by
      intro t' h1 h2
      simp only [Released, parsedFds_append, closedFds_append, hparsed, hclosed, h1, h2,
        parsedFds_closeAll, closedFds_closeAll, List.append_nil, List.nil_append]
      exact .refl _
    dsimp only
    split_ifs with hnew
    · obtain ⟨hparsed', hclosed', hok⟩ := attachLoop_spec mmap m.fds
      generalize attachLoop mmap m.fds [] = y at hparsed' hclosed' hok
      obtain ⟨err | chunks, t'⟩ := y
      · rw [hreceive.1]
        exact hall t' hparsed' hclosed'
      · obtain ⟨hchunks, ht'⟩ := hok chunks rfl
        refine ⟨hreceive.1, hall t' hparsed' hclosed', fun c hc => ?_⟩
        dsimp only at ht'
        rw [id, hchunks] at hc
        rw [ht']
        exact mappedFirst_of_mem t hc fun _ hfd => hfd
    · exact ⟨hreceive.1, hall [] rfl rfl, nofun⟩

end

/-! ## The Rust node -/

/-- The chunk descriptors behind the first that cannot be mapped. -/
def leftOver (mmap : Fd → Bool) (r : Option Datagram) : List Fd :=
  match (Rust.performHandshake r).1 with
  | .error _ => []
  | .ok h => (h.chunkFds.dropWhile mmap).tail

namespace Rust

theorem receives_recvMsgWithFds (bufLen : ℕ) (r : Option Datagram) :
    Receives [] (recvMsgWithFds bufLen r) := by
  cases r with
  | none => exact .error _ (.refl _)
  | some d =>
    unfold recvMsgWithFds
    dsimp only
    split_ifs
    · refine .error _ ?_
      simp [Released]
    · exact .ok parsedFds_map_parsed closedFds_map_parsed

theorem fds_of_checkMessage {m : Message} {h : HandshakeResult} (hm : checkMessage m = .ok h) :
    m.fds = h.nodeEvFd :: h.hubEvFd :: h.chunkFds := by
  unfold checkMessage at hm
  dsimp only at hm
  split_ifs at hm
  split at hm
  · rename_i hfds
    cases hm
    exact hfds
  · cases hm

theorem performHandshake_spec (r : Option Datagram) :
    OwnsBut [] (fun h => h.nodeEvFd :: h.hubEvFd :: h.chunkFds) (fun _ => []) (performHandshake r) ∧
      ∀ h, (performHandshake r).1 = .ok h →
        parsedFds (performHandshake r).2 = h.nodeEvFd :: h.hubEvFd :: h.chunkFds ∧
          closedFds (performHandshake r).2 = [] := by
  obtain ⟨hreceive, hmessage⟩ := receives_recvMsgWithFds 7 r
  unfold performHandshake
  generalize recvMsgWithFds 7 r = x at hreceive hmessage
  obtain ⟨err | m, t⟩ := x
  · exact ⟨hreceive, nofun⟩
  · obtain ⟨hparsed, hclosed⟩ := hmessage m rfl
    dsimp only at hparsed hclosed ⊢
    cases hm : checkMessage m with
    | error err =>
      refine ⟨?_, nofun⟩
      simp [OwnsBut, Released, hparsed, hclosed]
    | ok h =>
      rw [fds_of_checkMessage hm] at hparsed
      refine ⟨⟨rfl, ?_, nofun⟩, ?_⟩
      · simp [Released, hparsed, hclosed]
      · rintro h' ⟨⟩
        exact ⟨hparsed, hclosed⟩

variable (mmap : Fd → Bool)

/-- The loop closes all descriptors up to the first that cannot be mapped. -/
theorem attachChunks_spec (fds : List Fd) (chunks : List Chunk) :
    parsedFds (attachChunks mmap fds chunks).2 = [] ∧
    closedFds (attachChunks mmap fds chunks).2 ++ (fds.dropWhile mmap).tail = fds ∧
    match (attachChunks mmap fds chunks).1 with
    | .error soFar => ∃ more : List Fd, soFar = chunks ++ more.map attached
    | .ok all => fds.dropWhile mmap = [] ∧ all = chunks ++ fds.map attached ∧
        (attachChunks mmap fds chunks).2 = fds.flatMap fun fd => [.mapped fd, .closed fd] := by
  induction fds generalizing chunks with
  | nil => exact ⟨rfl, rfl, rfl, (List.append_nil _).symm, rfl⟩
  | cons fd fds ih =>
    rw [attachChunks]
    cases hfd : mmap fd with
    | false =>
      rw [if_neg (by decide), List.dropWhile_cons_of_neg (by rw [hfd]; decide)]
      exact ⟨rfl, rfl, [], (List.append_nil _).symm⟩
    | true =>
      rw [if_pos rfl, List.dropWhile_cons_of_pos hfd]
      obtain ⟨hparsed, hclosed, hresult⟩ := ih (chunks ++ [attached fd])
      refine ⟨hparsed, congrArg (fd :: ·) hclosed, ?_⟩
      dsimp only [attached] at hresult ⊢
      generalize attachChunks mmap fds (chunks ++ [⟨fd, -1⟩]) = x at hresult
      obtain ⟨soFar | all, t⟩ := x
      · obtain ⟨more, rfl⟩ := hresult
        exact ⟨fd :: more, by rw [List.append_assoc]; rfl⟩
      · obtain ⟨hdrop, rfl, ht⟩ := hresult
        dsimp only at ht
        exact ⟨hdrop, by rw [List.append_assoc]; rfl, by rw [ht]; rfl⟩

theorem drop_attached (fds : List Fd) :
    (fds.map attached).flatMap dropChunk = fds.map .unmapped := by
  rw [List.flatMap_map, ← List.flatMap_pure_eq_map]
  rfl

theorem new_owns (r : Option Datagram) :
    OwnsBut (leftOver mmap r) (fun s => [s.nodeEv, s.hubEv]) Session.chunks (new mmap r) := by
  obtain ⟨hperform, hresult⟩ := performHandshake_spec r
  have hconn : parsedFds [.connClosed] = [] ∧ closedFds [.connClosed] = [] := ⟨rfl, rfl⟩
  unfold new leftOver
  generalize performHandshake r = x at hperform hresult
  obtain ⟨err | h, t⟩ := x
  · change Released (t ++ [.connClosed]) []
    rw [Released, parsedFds_append, closedFds_append, hconn.1, hconn.2, List.append_nil,
      List.append_nil (parsedFds t)]
    exact hperform
  · obtain ⟨hparsed, hclosed⟩ := hresult h rfl
    dsimp only at hparsed hclosed ⊢
    obtain ⟨hparsed', hclosed', hloop⟩ := attachChunks_spec mmap h.chunkFds []
    generalize attachChunks mmap h.chunkFds [] = y at hparsed' hclosed' hloop
    -- the eventfds are closed after those of the chunks
    have hperm : ∀ left, closedFds y.2 ++ left = h.chunkFds →
        (closedFds y.2 ++ [h.nodeEvFd, h.hubEvFd] ++ left).Perm
          (h.nodeEvFd :: h.hubEvFd :: h.chunkFds) := by
      intro left hleft
      rw [← hleft]
      exact List.perm_append_comm.append_right left
    obtain ⟨soFar | all, t'⟩ := y
    · obtain ⟨more, rfl⟩ := hloop
      dsimp only at hparsed'
      rw [List.nil_append]
      dsimp only
      rw [drop_attached]
      simp only [OwnsBut, Released, parsedFds_append, closedFds_append, hparsed, hclosed, hparsed',
        hconn.1, hconn.2, parsedFds_closeAll, closedFds_closeAll, parsedFds_map_unmapped,
        closedFds_map_unmapped, List.append_nil, List.nil_append]
      exact hperm _ hclosed'
    · obtain ⟨hdrop, hall, ht'⟩ := hloop
      rw [hdrop, List.tail_nil, List.append_nil] at hclosed'
      dsimp only at hparsed' hclosed' ht'
      rw [List.nil_append] at hall
      cases all with
      | nil =>
        simp only [OwnsBut, Released, parsedFds_append, closedFds_append, hparsed, hclosed, hparsed',
          hconn.1, hconn.2, parsedFds_closeAll, closedFds_closeAll, List.append_nil,
          List.nil_append, hdrop, List.tail_nil]
        have := hperm [] (by rw [List.append_nil, hclosed'])
        rwa [List.append_nil] at this
      | cons control chunks =>
        refine ⟨by rw [hdrop, List.tail_nil], ?_, fun c hc => ?_⟩
        · simp only [Released, parsedFds_append, closedFds_append, hparsed, hclosed, hparsed',
            hclosed', List.append_nil, List.nil_append]
          exact List.perm_append_comm
        · dsimp only at hc ⊢
          rw [hall] at hc
          obtain ⟨fd, hfd, rfl⟩ := List.mem_map.1 hc
          rw [ht', List.flatMap_def]
          have hsub := List.sublist_flatten_of_mem
            (List.mem_map_of_mem (f := fun fd => [Event.mapped fd, .closed fd]) hfd)
          exact hsub.trans (List.sublist_append_right _ _)

end Rust

/-! ## All paths -/

/-- Every receive and handshake path, in both languages. -/
def AllReleased (mmap : Fd → Bool) (r : Option Datagram) : Prop :=
  (∀ msgLen > 0, Owns Message.fds (fun _ => []) (receiveMsgWithFDs msgLen r)) ∧
  Owns (fun s => [s.nodeEv, s.hubEv]) Session.chunks (handshake mmap r) ∧
  Owns (fun _ => []) id (handleMessage mmap r) ∧
  (∀ bufLen, Owns Message.fds (fun _ => []) (Rust.recvMsgWithFds bufLen r)) ∧
  Owns (fun h => h.nodeEvFd :: h.hubEvFd :: h.chunkFds) (fun _ => []) (Rust.performHandshake r) ∧
  Owns (fun s => [s.nodeEv, s.hubEv]) Session.chunks (Rust.new mmap r)

/-- For every message and every pattern of mappings that fail, descriptors are closed as they should
be on every path if and only if no descriptor comes before an ancillary message of another kind, and
none behind a chunk that cannot be mapped. -/
theorem descriptors_released_iff (mmap : Fd → Bool) (r : Option Datagram) :
    AllReleased mmap r ↔ lost r = [] ∧ leftOver mmap r = [] := by
  have hreceive := fun msgLen h => (receives_receiveMsgWithFDs msgLen h r).owns.owns_iff
  have hrecv := fun bufLen => (Rust.receives_recvMsgWithFds bufLen r).owns.owns_iff.2 rfl
  have hperform := (Rust.performHandshake_spec r).1.owns_iff.2 rfl
  rw [AllReleased, (handshake_owns mmap r).owns_iff, (handleMessage_owns mmap r).owns_iff,
    (Rust.new_owns mmap r).owns_iff]
  constructor
  · rintro ⟨-, hlost, -, -, -, hleft⟩
    exact ⟨hlost, hleft⟩
  · rintro ⟨hlost, hleft⟩
    exact ⟨fun msgLen h => (hreceive msgLen h).2 hlost, hlost, hlost, hrecv, hperform, hleft⟩

/-- A handshake for node 1. -/
def helloOne (scms : List ControlMessage) : Option Datagram :=
  some ⟨handshakeMessage 1, scms, false, false⟩

/-- Descriptors 3, 4 and 5 before another ancillary message are left open in Go; of the chunks 5, 6
and 7, if 5 cannot be mapped, 6 and 7 are left open in Rust. -/
theorem descriptors_leak :
    ((handshake (fun _ => true) (helloOne [.rights [3, 4, 5], .other])).1 = .error .notRights ∧
      closedFds (handshake (fun _ => true) (helloOne [.rights [3, 4, 5], .other])).2 = []) ∧
    ((Rust.new (· ≠ 5) (helloOne [.rights [3, 4, 5, 6, 7]])).1 = .error .mmap ∧
      closedFds (Rust.new (· ≠ 5) (helloOne [.rights [3, 4, 5, 6, 7]])).2 = [5, 3, 4]) ∧
    ¬ AllReleased (fun _ => true) (helloOne [.rights [3, 4, 5], .other]) ∧
    ¬ AllReleased (· ≠ 5) (helloOne [.rights [3, 4, 5, 6, 7]]) := by
  refine ⟨by decide, by decide, fun h => ?_, fun h => ?_⟩
  · exact absurd ((handshake_owns _ _).owns_iff.1 h.2.1) (by decide)
  · exact absurd ((Rust.new_owns _ _).owns_iff.1 h.2.2.2.2.2) (by decide)

end Mmfg.Handshake
