import Mmfg.Handshake.Descriptors

/-!
# The two handshake parsers

Go's `handshake` and Rust's `perform_handshake` with `Node::new` check the same seven bytes.  Rust also
checks the message type, and it refuses a message whose descriptors did not all fit in the buffer,
while Go goes on with those that did.  These are the only differences (`handshake_agrees_iff`).
-/

namespace Mmfg.Handshake

/-- The descriptors for which both nodes have room. -/
def maxFDs : ℕ := MaxChunks + 2

/-- A message of the given bytes that was sent with these descriptors, as the kernel delivers it. -/
def received (data : List UInt8) (sent : List Fd) : Option Datagram :=
  some
    { data := data
      scms := if sent = [] then [] else [.rights (sent.take maxFDs)]
      malformed := false
      truncated := maxFDs < sent.length }

/-- The session of a Go node if no mapping fails, and that of a Rust node. -/
def goSession (data : List UInt8) (sent : List Fd) : Option Session :=
  (handshake (fun _ => true) (received data sent)).1.toOption

/-- The session that a Rust node gets out of a handshake. -/
def rustSession (data : List UInt8) (sent : List Fd) : Option Session :=
  (Rust.new (fun _ => true) (received data sent)).1.toOption

/-- The nodes come to the same session or both to none, and to one with the right ID if the message
is that of the hub. -/
def Agree (data : List UInt8) (sent : List Fd) : Prop :=
  goSession data sent = rustSession data sent ∧
  ∀ id, 1 ≤ id → id < MaxNodes → data = handshakeMessage id → 3 ≤ sent.length →
    ∃ s, goSession data sent = some s ∧ rustSession data sent = some s ∧ s.nodeID = id

/-- Header, version and node ID are valid. -/
def Hello (data : List UInt8) : Prop :=
  7 ≤ data.length ∧ data.take 4 = connHeader ∧ data.getD 4 0 = connVersion ∧
    0 < (data.getD 6 0).toNat ∧ (data.getD 6 0).toNat < MaxNodes

instance (data : List UInt8) : Decidable (Hello data) := inferInstanceAs (Decidable (_ ∧ _))

/-- The session with a node ID and the descriptors of a message. -/
def sessionOf (nodeID : ℕ) : List Fd → Option Session
  | nodeEv :: hubEv :: control :: more =>
    some ⟨nodeID, nodeEv, hubEv, control, (control :: more).map attached⟩
  | _ => none

/-! ## The checks -/

section

variable {data : List UInt8} {sent : List Fd}

theorem take_fill (h : 7 ≤ data.length) : (fill 7 data).take 4 = data.take 4 := by
  rw [fill, List.take_append_of_le_length h, List.take_take]
  rfl

theorem getD_fill (h : 7 ≤ data.length) {i : ℕ} (hi : i < 7) :
    (fill 7 data).getD i 0 = data.getD i 0 := by
  rw [fill, List.take_append_of_le_length h, List.getD_eq_getElem?_getD, List.getD_eq_getElem?_getD,
    List.getElem?_take_of_lt hi]

theorem not_hello_of_short (h : ¬ 7 ≤ data.length) : ¬ Hello data := fun hhello => h hhello.1

theorem openSession_toOption (data : List UInt8) (fds : List Fd) :
    (openSession (fun _ => true) ⟨min data.length 7, fill 7 data, fds⟩).1.toOption =
      if Hello data then sessionOf (data.getD 6 0).toNat fds else none := by
  unfold openSession
  dsimp only
  by_cases h : 7 ≤ data.length
  swap
  · rw [if_neg (not_hello_of_short h), if_pos (by omega)]
    rfl
  rw [take_fill h, getD_fill h (by decide), getD_fill h (by decide), if_neg (by omega)]
  by_cases hhello : Hello data
  · obtain ⟨-, hheader, hversion, hpos, hlt⟩ := id hhello
    rw [if_neg (not_not.2 hheader), if_neg (not_not.2 hversion), if_neg (by omega), if_pos hhello]
    rcases fds with _ | ⟨nodeEv, _ | ⟨hubEv, _ | ⟨control, more⟩⟩⟩
    · rfl
    · rfl
    · rfl
    · dsimp only
      rw [attachLoop_eq, if_pos (List.all_eq_true.2 fun _ _ => rfl)]
      rfl
  · rw [if_neg hhello]
    split_ifs with hheader hversion hid
    · rfl
    · rfl
    · rfl
    · rw [not_not] at hheader hversion
      exact absurd ⟨h, hheader, hversion, by omega, by omega⟩ hhello

theorem checkMessage_toOption (data : List UInt8) (fds : List Fd) :
    (Rust.checkMessage ⟨min data.length 7, fill 7 data, fds⟩).toOption =
      if Hello data ∧ data.getD 5 0 = msgHandshake then
        match fds with
        | nodeEv :: hubEv :: control :: more =>
          some ⟨(data.getD 6 0).toNat, nodeEv, hubEv, control :: more⟩
        | _ => none
      else none := by
  unfold Rust.checkMessage
  dsimp only
  by_cases h : 7 ≤ data.length
  swap
  · rw [if_neg (mt And.left (not_hello_of_short h)), if_pos (by omega)]
    rfl
  rw [take_fill h, getD_fill h (by decide), getD_fill h (by decide), getD_fill h (by decide),
    if_neg (by omega)]
  by_cases hhello : Hello data ∧ data.getD 5 0 = msgHandshake
  · obtain ⟨⟨-, hheader, hversion, hpos, hlt⟩, htype⟩ := id hhello
    rw [if_neg (not_not.2 hheader), if_neg (not_not.2 hversion), if_neg (not_not.2 htype),
      if_neg (by omega), if_pos hhello]
    rcases fds with _ | ⟨nodeEv, _ | ⟨hubEv, _ | ⟨control, more⟩⟩⟩
    · rfl
    · rfl
    · rfl
    · rfl
  · rw [if_neg hhello]
    split_ifs with hheader hversion htype hid
    · rfl
    · rfl
    · rfl
    · rfl
    · rw [not_not] at hheader hversion htype
      exact absurd ⟨⟨h, hheader, hversion, by omega, by omega⟩, htype⟩ hhello

/-! ## The sessions -/

/-- Go reads what has arrived, unless there is not a single byte. -/
theorem receiveMsgWithFDs_received (h : data ≠ []) (sent : List Fd) :
    (receiveMsgWithFDs 7 (received data sent)).1 =
      .ok ⟨min data.length 7, fill 7 data, sent.take maxFDs⟩ := by
  have hpos := List.length_pos_iff.2 h
  have hn : ¬ min data.length 7 = 0 := by omega
  rw [received, receiveMsgWithFDs, if_neg hn, if_neg Bool.false_ne_true]
  cases sent with
  | nil => rfl
  | cons fd fds => rfl

theorem goSession_eq (data : List UInt8) (sent : List Fd) :
    goSession data sent =
      if Hello data then sessionOf (data.getD 6 0).toNat (sent.take maxFDs) else none := by
  by_cases hempty : data = []
  · subst hempty
    rfl
  have hreceive := receiveMsgWithFDs_received hempty sent
  have hopen := openSession_toOption data (sent.take maxFDs)
  unfold goSession handshake
  generalize receiveMsgWithFDs 7 (received data sent) = x at hreceive
  obtain ⟨result, t⟩ := x
  cases hreceive
  dsimp only
  generalize openSession (fun _ => true) _ = y at hopen ⊢
  obtain ⟨err | s, t'⟩ := y
  · exact hopen
  · exact hopen

/-- Rust goes on to its checks if all descriptors have arrived. -/
theorem performHandshake_received (data : List UInt8) (sent : List Fd) :
    (Rust.performHandshake (received data sent)).1.toOption =
      if sent.length ≤ maxFDs then
        (Rust.checkMessage ⟨min data.length 7, fill 7 data, sent.take maxFDs⟩).toOption
      else none := by
  have hfds : (if sent = [] then [] else [ControlMessage.rights (sent.take maxFDs)]).flatMap
      ControlMessage.fds = sent.take maxFDs := by
    cases sent with
    | nil => rfl
    | cons fd fds => exact List.append_nil _
  unfold Rust.performHandshake Rust.recvMsgWithFds received
  dsimp only
  rw [hfds]
  by_cases hfit : sent.length ≤ maxFDs
  · rw [if_pos hfit, if_neg (by rw [decide_eq_true_iff]; omega)]
    dsimp only
    cases Rust.checkMessage ⟨min data.length 7, fill 7 data, sent.take maxFDs⟩ with
    | error err => rfl
    | ok h => rfl
  · rw [if_neg hfit, if_pos (by rw [decide_eq_true_iff]; omega)]
    rfl

theorem attachChunks_of_all (fds : List Fd) (chunks : List Chunk) :
    (Rust.attachChunks (fun _ => true) fds chunks).1 = .ok (chunks ++ fds.map attached) := by
  induction fds generalizing chunks with
  | nil => exact congrArg Except.ok (List.append_nil _).symm
  | cons fd fds ih =>
    rw [Rust.attachChunks, if_pos rfl, ih, List.append_assoc]
    rfl

theorem new_toOption (r : Option Datagram) :
    (Rust.new (fun _ => true) r).1.toOption =
      (Rust.performHandshake r).1.toOption.bind fun h =>
        sessionOf h.nodeID (h.nodeEvFd :: h.hubEvFd :: h.chunkFds) := by
  unfold Rust.new
  generalize Rust.performHandshake r = x
  obtain ⟨err | h, t⟩ := x
  · rfl
  · have hattach := attachChunks_of_all h.chunkFds []
    dsimp only
    generalize Rust.attachChunks (fun _ => true) h.chunkFds [] = y at hattach
    obtain ⟨result, t'⟩ := y
    cases hattach
    change _ = sessionOf h.nodeID (h.nodeEvFd :: h.hubEvFd :: h.chunkFds)
    cases h.chunkFds with
    | nil => rfl
    | cons control more => rfl

theorem rustSession_eq (data : List UInt8) (sent : List Fd) :
    rustSession data sent =
      if (Hello data ∧ data.getD 5 0 = msgHandshake) ∧ sent.length ≤ maxFDs then
        sessionOf (data.getD 6 0).toNat (sent.take maxFDs)
      else none := by
  rw [rustSession, new_toOption, performHandshake_received, checkMessage_toOption]
  by_cases hfit : sent.length ≤ maxFDs
  swap
  · rw [if_neg hfit, if_neg (mt And.right hfit)]
    rfl
  by_cases hhello : Hello data ∧ data.getD 5 0 = msgHandshake
  swap
  · rw [if_pos hfit, if_neg hhello, if_neg (mt And.left hhello)]
    rfl
  rw [if_pos hfit, if_pos hhello, if_pos ⟨hhello, hfit⟩]
  rcases sent.take maxFDs with _ | ⟨nodeEv, _ | ⟨hubEv, _ | ⟨control, more⟩⟩⟩
  · rfl
  · rfl
  · rfl
  · rfl

theorem sessionOf_eq_none_iff {nodeID : ℕ} {fds : List Fd} :
    sessionOf nodeID fds = none ↔ fds.length < 3 := by
  rcases fds with _ | ⟨nodeEv, _ | ⟨hubEv, _ | ⟨control, more⟩⟩⟩
  · exact iff_of_true rfl (by simp)
  · exact iff_of_true rfl (by simp)
  · exact iff_of_true rfl (by simp)
  · refine iff_of_false nofun ?_
    simp only [List.length_cons]
    omega

theorem nodeID_sessionOf {nodeID : ℕ} {fds : List Fd} {s : Session}
    (h : sessionOf nodeID fds = some s) : s.nodeID = nodeID := by
  unfold sessionOf at h
  split at h
  · cases h
    rfl
  · cases h

/-- The hub's message, up to the byte of the node ID. -/
theorem hello_handshakeMessage {id : ℕ} (h1 : 1 ≤ id) (h2 : id < MaxNodes) :
    Hello (handshakeMessage id) ∧ (handshakeMessage id).getD 5 0 = msgHandshake ∧
      ((handshakeMessage id).getD 6 0).toNat = id := by
  have hmax : MaxNodes = 64 := rfl
  have hid : (UInt8.ofNat id).toNat = id := by
    rw [UInt8.toNat_ofNat']
    omega
  refine ⟨⟨le_rfl, rfl, rfl, ?_, ?_⟩, rfl, hid⟩
  · change 0 < (UInt8.ofNat id).toNat
    omega
  · change (UInt8.ofNat id).toNat < MaxNodes
    omega

end

/-- For all bytes and descriptors: the nodes agree, and take up the hub's own messages, if and only
if a message that Go accepts has the type of a handshake and no more descriptors than fit. -/
theorem handshake_agrees_iff (data : List UInt8) (sent : List Fd) :
    Agree data sent ↔ (Hello data → 3 ≤ sent.length →
      data.getD 5 0 = msgHandshake ∧ sent.length ≤ maxFDs) := by
  have hmax : maxFDs = 66 := rfl
  have hnone : sessionOf (data.getD 6 0).toNat (sent.take maxFDs) = none ↔ sent.length < 3 := by
    rw [sessionOf_eq_none_iff, List.length_take]
    omega
  rw [Agree, goSession_eq, rustSession_eq]
  constructor
  · rintro ⟨hsame, -⟩ hhello hfds
    by_contra hno
    rw [if_pos hhello, if_neg fun h => hno ⟨h.1.2, h.2⟩, hnone] at hsame
    omega
  · intro h
    have hsame : (if Hello data then sessionOf (data.getD 6 0).toNat (sent.take maxFDs) else none) =
        if (Hello data ∧ data.getD 5 0 = msgHandshake) ∧ sent.length ≤ maxFDs then
          sessionOf (data.getD 6 0).toNat (sent.take maxFDs) else none := by
      by_cases hhello : Hello data
      swap
      · rw [if_neg hhello, if_neg fun hall => hhello hall.1.1]
      by_cases hfds : 3 ≤ sent.length
      · obtain ⟨htype, hfit⟩ := h hhello hfds
        rw [if_pos hhello, if_pos ⟨⟨hhello, htype⟩, hfit⟩]
      · rw [hnone.2 (by omega), ite_self, ite_self]
    refine ⟨hsame, ?_⟩
    rintro id h1 h2 rfl hfds
    obtain ⟨hhello, -, hid⟩ := hello_handshakeMessage h1 h2
    rw [← hsame, if_pos hhello]
    obtain ⟨s, hs⟩ := Option.ne_none_iff_exists'.1 (mt hnone.1 (by omega))
    exact ⟨s, hs, hs, (nodeID_sessionOf hs).trans hid⟩

/-- A message of type 0 is a handshake for Go only, and so is the hub's own message with 67
descriptors. -/
theorem handshake_disagrees :
    goSession [77, 77, 70, 71, 2, 0, 1] [3, 4, 5] = some ⟨1, 3, 4, 5, [⟨5, -1⟩]⟩ ∧
    rustSession [77, 77, 70, 71, 2, 0, 1] [3, 4, 5] = none ∧
    (goSession (handshakeMessage 1) (List.range 67)).isSome = true ∧
    rustSession (handshakeMessage 1) (List.range 67) = none ∧
    ¬ Agree [77, 77, 70, 71, 2, 0, 1] [3, 4, 5] ∧
    ¬ Agree (handshakeMessage 1) (List.range 67) := by
  have h1 : goSession [77, 77, 70, 71, 2, 0, 1] [3, 4, 5] ≠
      rustSession [77, 77, 70, 71, 2, 0, 1] [3, 4, 5] := by decide
  have h2 : rustSession (handshakeMessage 1) (List.range 67) = none := by decide
  have h3 : (goSession (handshakeMessage 1) (List.range 67)).isSome = true := by decide
  refine ⟨by decide, by decide, h3, h2, fun h => h1 h.1, fun h => ?_⟩
  rw [h.1, h2] at h3
  cases h3

end Mmfg.Handshake
