import Mmfg.Lib.Simulation
import Mmfg.Expand.Basic

/-!
# Expansions that lose an update

`handleExpandRequest` is a read-modify-write of the header without a lock.  No update is lost if the
goroutines that earlier handoffs have left behind have done their updates (`Settled`), no two updates
overlap and the node does not store a length during one (`Alone`), and the sequences fit in the header
block: the block count has grown by two for each READY, the sequence has the blocks of every granted
expansion exactly once, and the data length covers what the node has written (`no_lost_update`).  On a
Go node updates and stores do not overlap, since it waits for the answer, provided that nothing was
left behind for the slot (`Quiet`).

A Rust node can do otherwise, by dropping the future of `request_expand` and then asking again or
writing; and what it leaves behind can do harm to the next handler, also to one in Go
(`expansion_loses_update`).
-/

namespace Mmfg.Expand

open Shm

/-! ## The property -/

/-- No update of this handoff is lost. -/
structure NoLostUpdate (s : State) : Prop where
  /-- The block count has grown by two for each READY that is sent or about to be sent. -/
  blockCount : (decodeHeader s.header).2.1 = s.blocks.length +
    2 * (s.expanders.countP Expander.ready + s.expanders.countP Expander.due)
  /-- The blocks of a granted expansion are in the sequence exactly once. -/
  sequence : ∀ blocks, Expander.answered (some blocks) ∈ s.expanders → ∀ b ∈ blocks,
    (resolve 0 (decodeHeader s.header).2.2).count b = 1
  /-- The data length covers what the node has written. -/
  dataLen : s.top ≤ (decodeHeader s.header).1.toNat

/-- No goroutine that was left behind is between its reading of a header and its last update. -/
def Settled (s : State) : Prop := ∀ e ∈ s.late, e.inUpdate = false

instance (s : State) : Decidable (Settled s) := inferInstanceAs (Decidable (∀ _ ∈ _, _))

/-- No goroutine is between its reading of the header and its last update. -/
def NoUpdate (s : State) : Prop := ∀ e ∈ s.expanders, e.inUpdate = false

instance (s : State) : Decidable (NoUpdate s) := inferInstanceAs (Decidable (∀ _ ∈ _, _))

/-- The header is read for an update, or a length is stored, only while no update is going on. -/
def Alone (s : State) : Action → Prop
  | .expander _ .decode | .node (.writeAt _ _) | .node .store => NoUpdate s
  | _ => True

instance (s : State) : (a : Action) → Decidable (Alone s a)
  | .expander _ .decode | .node (.writeAt _ _) | .node .store => inferInstanceAs (Decidable (NoUpdate s))
  | .dispatch | .hear | .expander _ (.alloc _) | .expander _ .update | .expander _ .respond
  | .late .. | .node (.requestExpand _) | .node (.pollWrite ..) | .node .getMeta => isTrue trivial

/-- An update leaves a sequence that fits in the header block. -/
def SequenceFits (s : State) : Action → Prop
  | .expander i .update => ∀ e ∈ s.expanders[i]?, e.Fits
  | _ => True

instance (s : State) : (a : Action) → Decidable (SequenceFits s a)
  | .expander i .update => inferInstanceAs (Decidable (∀ e ∈ s.expanders[i]?, e.Fits))
  | .dispatch | .hear | .expander _ (.alloc _) | .expander _ .decode | .expander _ .respond
  | .late .. | .node _ => isTrue trivial

/-- Both. -/
def AloneFits (s : State) (a : Action) : Prop := Alone s a ∧ SequenceFits s a

instance (s : State) (a : Action) : Decidable (AloneFits s a) := inferInstanceAs (Decidable (_ ∧ _))

/-! ## The invariant -/

namespace Expander

/-- The blocks that were added to the header. -/
def stored : Expander → List BlockId
  | .updated _ blocks => blocks
  | .answer grant | .answered grant => grant.getD []
  | .started | .decoded _ | .allocated _ _ => []

/-- Expansions are of two blocks. -/
def Two : Expander → Prop
  | .allocated _ blocks | .updated _ blocks | .answer (some blocks) | .answered (some blocks) =>
    blocks.length = 2
  | .started | .decoded _ | .answer none | .answered none => True

theorem stored_sublist_held (e : Expander) : e.stored.Sublist e.held := by
  cases e <;> simp [stored, held]

/-- Two blocks were added to the header for an expansion that is due or ready. -/
theorem length_stored {e : Expander} (h : e.Two) :
    e.stored.length = 2 * ((if e.ready then 1 else 0) + if e.due then 1 else 0) := by
  cases e with
  | answer grant | answered grant => cases grant <;> simp_all [stored, ready, due, Two]
  | _ => simp_all [stored, ready, due, Two]

end Expander

/-- What the handler knows of the length `len` in the header. -/
def Node.Ok (len : UInt32) : Node → Prop
  | .go c => c.dataLen = len
  | .rust c => c.writePos < 2 ^ 32 ∧ (c.pc = .store → len.toNat < c.writePos)

/-- The header has what the goroutines of this handoff have added, one of them at most is in its update
and knows the header as it is, and those that were left behind have at most their answers to send. -/
structure Inv (s : State) : Prop where
  blk : ∀ b ∈ s.owned, Blk b
  nodup : s.owned.Nodup
  two : ∀ e ∈ s.expanders, e.Two
  header : ∃ added, added.Perm (s.expanders.flatMap Expander.stored) ∧ Fits (s.blocks ++ added) ∧
    (decodeHeader s.header).2 = ((s.blocks ++ added).length, encode (s.blocks ++ added))
  one : s.expanders.countP Expander.inUpdate ≤ 1
  current : ∀ e ∈ s.expanders, ∀ stripe, e.current = some stripe →
    (stripe.dataLen, stripe.blockCount, stripe.sequence) = decodeHeader s.header
  late : ∀ e ∈ s.late, e.inUpdate = false ∧ e ≠ .started
  top : s.top ≤ (decodeHeader s.header).1.toNat
  node : s.node.Ok (decodeHeader s.header).1

/-- All of this holds in any order of the goroutines. -/
theorem Inv.perm {s : State} {es es' : List Expander} (h : Inv { s with expanders := es })
    (hp : es.Perm es') : Inv { s with expanders := es' } := by
  have howned : (s.blocks ++ es.flatMap Expander.held).Perm (s.blocks ++ es'.flatMap Expander.held) :=
    (hp.flatMap_right _).append_left _
  obtain ⟨added, hadd, hfit, hdec⟩ := h.header
  exact
    { blk := fun b hb => h.blk b (howned.mem_iff.2 hb)
      nodup := howned.nodup_iff.1 h.nodup
      two := fun e he => h.two e (hp.mem_iff.2 he)
      header := ⟨added, hadd.trans (hp.flatMap_right _), hfit, hdec⟩
      one := (hp.countP_eq _).symm.trans_le h.one
      current := fun e he => h.current e (hp.mem_iff.2 he)
      late := h.late
      top := h.top
      node := h.node }

theorem exists_others {es : List Expander} {i : ℕ} {e : Expander} (h : es[i]? = some e) :
    ∃ rest, es.Perm (e :: rest) ∧ ∀ e', (es.set i e').Perm (e' :: rest) := by
  obtain ⟨hi, rfl⟩ := List.getElem?_eq_some_iff.1 h
  exact ⟨es.eraseIdx i, (List.getElem_cons_eraseIdx_perm hi).symm, fun e' =>
    List.set_perm_cons_eraseIdx hi e'⟩

section Steps

variable {s : State} {rest : List Expander} {e : Expander} {stripe : Stripe} {blocks : List BlockId}

theorem Inv.others (h : Inv { s with expanders := e :: rest }) (he : e.inUpdate = true) :
    ∀ e' ∈ rest, e'.current = none := by
  intro e' he'
  have hone := h.one
  simp only [List.countP_cons, he, if_true] at hone
  have hnone := List.countP_eq_zero.1 (show rest.countP Expander.inUpdate = 0 by omega) e' he'
  by_contra hc
  obtain ⟨stripe, hstripe⟩ := Option.ne_none_iff_exists'.1 hc
  exact hnone (Expander.inUpdate_of_current hstripe)

theorem Inv.move {e' : Expander} (h : Inv { s with expanders := e :: rest })
    (hheld : e'.held = e.held) (hstored : e'.stored = e.stored) (htwo : e.Two → e'.Two)
    (hin : e'.inUpdate = true → e.inUpdate = true ∨ ∀ x ∈ rest, x.inUpdate = false)
    (hcur : ∀ stripe, e'.current = some stripe → e.current = some stripe ∨
      (stripe.dataLen, stripe.blockCount, stripe.sequence) = decodeHeader s.header) :
    Inv { s with expanders := e' :: rest } where
  blk b hb := h.blk b (by simpa [State.owned, hheld] using hb)
  nodup := by simpa [State.owned, hheld] using h.nodup
  two := by
    intro x hx
    rcases List.mem_cons.1 hx with rfl | hx
    · exact htwo (h.two e List.mem_cons_self)
    · exact h.two x (List.mem_cons_of_mem _ hx)
  header := by simpa [hstored] using h.header
  one := by
    have hone := h.one
    simp only [List.countP_cons] at hone ⊢
    cases hc : e'.inUpdate with
    | false => simp only [Bool.false_eq_true, if_false]; omega
    | true =>
      rcases hin hc with he | hnone
      · simpa [he] using hone
      · simpa using hnone
  current := by
    intro x hx stripe hs
    rcases List.mem_cons.1 hx with rfl | hx
    · rcases hcur stripe hs with hs | hs
      · exact h.current e List.mem_cons_self stripe hs
      · exact hs
    · exact h.current x (List.mem_cons_of_mem _ hx) stripe hs
  late := h.late
  top := h.top
  node := h.node

theorem Inv.alloc (h : Inv { s with expanders := .decoded stripe :: rest })
    (hg : Granted ({ s with expanders := .decoded stripe :: rest } : State).owned 2 blocks) :
    Inv { s with expanders := .allocated stripe blocks :: rest } := by
  obtain ⟨hlen, hvalid, hnodup, hnew⟩ := hg
  have howned : (({ s with expanders := .allocated stripe blocks :: rest } : State).owned).Perm
      (blocks ++ ({ s with expanders := .decoded stripe :: rest } : State).owned) := by
    simp only [State.owned, List.flatMap_cons, Expander.held, List.nil_append]
    exact (List.perm_append_comm_assoc _ _ _)
  exact
    { blk := by
        intro b hb
        rcases List.mem_append.1 (howned.mem_iff.1 hb) with hb | hb
        · exact (hvalid b hb).1
        · exact h.blk b hb
      nodup := howned.nodup_iff.2 (List.nodup_append.2 ⟨hnodup, h.nodup, by
        rintro b hb _ hb' rfl
        exact hnew b hb hb'⟩)
      two := by
        intro x hx
        rcases List.mem_cons.1 hx with rfl | hx
        · exact hlen
        · exact h.two x (List.mem_cons_of_mem _ hx)
      header := h.header
      one := h.one
      current := by
        intro x hx st hs
        rcases List.mem_cons.1 hx with rfl | hx
        · exact h.current _ List.mem_cons_self st hs
        · exact h.current x (List.mem_cons_of_mem _ hx) st hs
      late := h.late
      top := h.top
      node := h.node }

/-- The header is written so that it decodes to the same. -/
theorem Inv.rewrite (h : Inv s) {header : Bytes} (hd : decodeHeader header = decodeHeader s.header) :
    Inv { s with header := header } where
  blk := h.blk
  nodup := h.nodup
  two := h.two
  header := by simpa only [hd] using h.header
  one := h.one
  current e he stripe hs := (h.current e he stripe hs).trans hd.symm
  late := h.late
  top := by simpa only [hd] using h.top
  node := by simpa only [hd] using h.node

theorem Inv.updateHeader (h : Inv { s with expanders := .updated stripe blocks :: rest }) :
    decodeHeader (stripe.updateHeader s.header) = decodeHeader s.header := by
  obtain ⟨added, -, hfit, hdec⟩ := h.header
  have hcur := h.current _ List.mem_cons_self stripe rfl
  have hcur2 := congrArg Prod.snd hcur
  rw [hdec] at hcur2
  rw [← hcur, Stripe.updateHeader, show stripe.blockCount = _ from congrArg Prod.fst hcur2,
    show stripe.sequence = _ from congrArg Prod.snd hcur2]
  exact decodeHeader_encode hfit _ _

theorem Inv.extend (h : Inv { s with expanders := .allocated stripe blocks :: rest })
    (hfit : (stripe.allocBlocks blocks).sequence.length ≤ HeaderEntries) :
    Inv { s with
      header := (stripe.allocBlocks blocks).updateHeader s.header
      expanders := .updated (stripe.allocBlocks blocks) blocks :: rest } := by
  obtain ⟨added, hadd, -, hdec⟩ := h.header
  have hcur := h.current _ List.mem_cons_self stripe rfl
  obtain ⟨hlen, hcount, hseq⟩ : stripe.dataLen = (decodeHeader s.header).1 ∧
      stripe.blockCount = (s.blocks ++ added).length ∧ stripe.sequence = encode (s.blocks ++ added) := by
    have hcur2 := congrArg Prod.snd hcur
    rw [hdec] at hcur2
    exact ⟨congrArg Prod.fst hcur, congrArg Prod.fst hcur2, congrArg Prod.snd hcur2⟩
  have hstored : (added ++ blocks).Perm (blocks ++ rest.flatMap Expander.stored) :=
    List.perm_append_comm.trans (hadd.append_left _)
  have hsub : (s.blocks ++ (added ++ blocks)) ⊆
      ({ s with expanders := .allocated stripe blocks :: rest } : State).owned := by
    intro b hb
    rcases List.mem_append.1 hb with hb | hb
    · exact List.mem_append_left _ hb
    · refine List.mem_append_right _ ?_
      simp only [List.flatMap_cons, Expander.held]
      refine List.Sublist.subset (List.Sublist.append_left ?_ _) (hstored.mem_iff.1 hb)
      exact List.Sublist.flatMap_right rest fun x _ => x.stored_sublist_held
  have hblk : ∀ b ∈ s.blocks ++ added, Blk b := fun b hb => h.blk b (hsub (by
    simp only [List.mem_append] at hb ⊢
    tauto))
  have hseq' : (stripe.allocBlocks blocks).sequence = encode (s.blocks ++ (added ++ blocks)) := by
    rw [← List.append_assoc, encode_append hblk, ← hseq]
    rfl
  have hcount' : (stripe.allocBlocks blocks).blockCount = (s.blocks ++ (added ++ blocks)).length := by
    rw [← List.append_assoc, List.length_append, ← hcount]
    rfl
  have hfits : Fits (s.blocks ++ (added ++ blocks)) := by
    rw [Fits, ← length_encode, ← hseq']
    exact hfit
  have hnew : decodeHeader ((stripe.allocBlocks blocks).updateHeader s.header) =
      ((decodeHeader s.header).1, (s.blocks ++ (added ++ blocks)).length,
        encode (s.blocks ++ (added ++ blocks))) := by
    rw [Stripe.updateHeader, hseq', hcount', decodeHeader_encode hfits, ← hlen]
    rfl
  exact
    { blk := h.blk
      nodup := h.nodup
      two := by
        intro x hx
        rcases List.mem_cons.1 hx with rfl | hx
        · exact h.two (.allocated stripe blocks) List.mem_cons_self
        · exact h.two x (List.mem_cons_of_mem _ hx)
      header := ⟨added ++ blocks, hstored, hfits, by rw [hnew]⟩
      one := h.one
      current := by
        intro x hx st hs
        rcases List.mem_cons.1 hx with rfl | hx
        · cases hs
          rw [hnew, ← hlen, ← hcount', ← hseq']
          rfl
        · rw [h.others rfl x hx] at hs
          cases hs
      late := h.late
      top := by
        rw [hnew]
        exact h.top
      node := by
        rw [hnew]
        exact h.node }

theorem Inv.setLen (h : Inv s) (hno : NoUpdate s) (node : Node) {top : ℕ} {n : UInt32}
    (hnode : node.Ok n) (htop : top ≤ n.toNat) :
    Inv { s with header := putDataLen s.header n, node := node, top := top } where
  blk := h.blk
  nodup := h.nodup
  two := h.two
  header := by simpa only [decodeHeader_putDataLen] using h.header
  one := h.one
  current e he stripe hs := by
    have := Expander.inUpdate_of_current hs
    rw [hno e he] at this
    cases this
  late := h.late
  top := by simpa only [decodeHeader_putDataLen] using htop
  node := by simpa only [decodeHeader_putDataLen] using hnode

theorem Inv.setNode (h : Inv s) (node : Node) (hnode : node.Ok (decodeHeader s.header).1) {top : ℕ}
    (htop : top ≤ (decodeHeader s.header).1.toNat) (requests : ℕ) (answers : List Bool) :
    Inv { s with node := node, top := top, requests := requests, answers := answers } where
  blk := h.blk
  nodup := h.nodup
  two := h.two
  header := h.header
  one := h.one
  current := h.current
  late := h.late
  top := htop
  node := hnode

theorem Inv.setLate (h : Inv s) {late : List Expander}
    (hlate : ∀ e ∈ late, e.inUpdate = false ∧ e ≠ .started) (answers : List Bool) :
    Inv { s with late := late, answers := answers } where
  blk := h.blk
  nodup := h.nodup
  two := h.two
  header := h.header
  one := h.one
  current := h.current
  late := hlate
  top := h.top
  node := h.node

end Steps

/-! ## The steps -/

variable {s t : State}

theorem inv_start (l : Lang) {s : State} (h : (handoff l).Init s) (hsettled : Settled s) : Inv s := by
  obtain ⟨hv, hnodup, hfit, dataLen, mem, rest, hs⟩ := h
  rw [hs] at hsettled ⊢
  have hdec : decodeHeader (start l s.blocks dataLen mem rest).header =
      (dataLen, s.blocks.length, encode s.blocks) := decodeHeader_encode hfit _ _
  have hheld : (List.replicate rest.started Expander.started).flatMap Expander.held = [] := by
    simp [Expander.held]
  have hstored : (List.replicate rest.started Expander.started).flatMap Expander.stored = [] := by
    simp [Expander.stored]
  exact
    { blk := by simpa [State.owned, start, hheld] using fun a b hb => (hv (a, b) hb).1
      nodup := by simpa [State.owned, start, hheld] using hnodup
      two := by
        intro e he
        rw [List.eq_of_mem_replicate he]
        trivial
      header := ⟨[], by simp [start, hstored], by simpa [start] using hfit, by
        rw [hdec]; simp [start]⟩
      one := by simp [start, List.countP_replicate, Expander.inUpdate]
      current := by
        intro e he stripe hst
        rw [List.eq_of_mem_replicate he] at hst
        cases hst
      late := fun e he => ⟨hsettled e he, rest.decoded e he⟩
      top := Nat.zero_le _
      node := by
        cases l with
        | go => rfl
        | rust => exact ⟨by norm_num [Node.new], nofun⟩ }

theorem inv_expander (h : Inv s) {i : ℕ} {a : ExpanderAct} (halone : Alone s (.expander i a))
    (hfit : SequenceFits s (.expander i a)) (hs : stepExpander s i a = some t) : Inv t := by
  obtain ⟨e, he, hs⟩ := Option.bind_eq_some_iff.1 hs
  obtain ⟨hg, hs⟩ := Option.ite_none_right_eq_some.1 hs
  obtain ⟨⟨e', header⟩, hadv, rfl⟩ := Option.map_eq_some_iff.1 hs
  obtain ⟨rest, hperm, hset⟩ := exists_others he
  have h' := Inv.perm (s := s) h hperm
  cases Expander.advance_cases hadv with
  | decode =>
    refine Inv.perm (s := s) ?_ (hset _).symm
    refine h'.move rfl rfl (fun _ => trivial) (fun _ => .inr fun x hx => ?_) fun st hst => ?_
    · exact halone x (hperm.mem_iff.2 (List.mem_cons_of_mem _ hx))
    · cases hst
      exact .inr rfl
  | alloc stripe blocks =>
    refine Inv.perm (s := s) (h'.alloc ?_) (hset _).symm
    obtain ⟨hlen, hvalid, hnodup, hnew⟩ := hg
    refine ⟨hlen, hvalid, hnodup, fun b hb hmem => hnew b hb ?_⟩
    exact List.mem_append_left _ (((hperm.flatMap_right _).append_left _).mem_iff.2 hmem)
  | fail stripe =>
    refine Inv.perm (s := s) ?_ (hset _).symm
    exact h'.move rfl rfl (fun _ => trivial) nofun nofun
  | extend stripe blocks =>
    refine Inv.perm (s := { s with header := (stripe.allocBlocks blocks).updateHeader s.header })
      (h'.extend ?_) (hset _).symm
    exact hfit _ he
  | rewrite stripe blocks =>
    refine Inv.perm (s := { s with header := stripe.updateHeader s.header }) ?_ (hset _).symm
    exact Inv.move (s := { s with header := _ }) (h'.rewrite h'.updateHeader) rfl rfl id nofun nofun
  | respond grant =>
    refine Inv.perm (s := { s with answers := s.answers ++ [grant.isSome] }) ?_ (hset _).symm
    refine Inv.move (s := { s with answers := _ }) (h'.setNode _ h'.node h'.top s.requests _) rfl
      rfl (fun htwo => ?_) nofun nofun
    cases grant with
    | none => trivial
    | some blocks => exact htwo

theorem inv_late (h : Inv s) {i : ℕ} {a : ExpanderAct} (hs : stepLate s i a = some t) : Inv t := by
  obtain ⟨u, hu, rfl⟩ := Option.map_eq_some_iff.1 hs
  obtain ⟨e, he, hu⟩ := Option.bind_eq_some_iff.1 hu
  obtain ⟨-, hu⟩ := Option.ite_none_right_eq_some.1 hu
  obtain ⟨⟨e', header⟩, hadv, rfl⟩ := Option.map_eq_some_iff.1 hu
  obtain ⟨hin, hne⟩ := h.late e (List.mem_of_getElem? he)
  cases Expander.advance_cases hadv with
  | decode => exact absurd rfl hne
  | alloc | fail | extend | rewrite => cases hin
  | respond grant =>
    refine h.setLate (fun x hx => ?_) _
    rcases List.mem_or_eq_of_mem_set hx with hx | rfl
    · exact h.late x hx
    · exact ⟨rfl, nofun⟩

/-- The block count is a 16-bit field, so that a position within the blocks is a 32-bit number. -/
theorem pos_lt {header : Bytes} {pos : ℕ}
    (h : pos ≤ ((decodeHeader header).2.1 - 1) * BlockSize) : pos < 2 ^ 32 := by
  have hcnt : (decodeHeader header).2.1 < 2 ^ 16 := UInt16.toNat_lt _
  simp only [BlockSize] at h
  omega

theorem inv_go (h : Inv s) {c : GoNode} (hc : s.node = .go c) {a : NodeAct}
    (halone : Alone s (.node a)) (hs : stepGo s c a = some t) : Inv t := by
  have hok : c.dataLen = (decodeHeader s.header).1 := by simpa [hc, Node.Ok] using h.node
  unfold stepGo at hs
  split_ifs at hs with hw
  cases a with
  | requestExpand full =>
    cases hs
    refine h.setNode _ ?_ h.top _ s.answers
    exact hok
  | writeAt off len =>
    obtain ⟨⟨hlim, -⟩, hs⟩ := Option.ite_none_right_eq_some.1 hs
    have hlim' : StripeDataSizeLimit = 2097152 := rfl
    have hto : (UInt32.ofNat (off + len)).toNat = off + len := by
      rw [UInt32.toNat_ofNat']
      omega
    by_cases hlen : len = 0
    · rw [if_pos hlen] at hs
      cases hs
      exact h
    rw [if_neg hlen] at hs
    cases hs
    by_cases hgt : UInt32.ofNat (off + len) > c.dataLen
    · rw [if_pos hgt]
      refine h.setLen halone (.go _) rfl ?_
      have htop := h.top
      rw [← hok] at htop
      rw [gt_iff_lt, UInt32.lt_iff_toNat_lt] at hgt
      rw [hto] at hgt ⊢
      exact max_le (htop.trans hgt.le) le_rfl
    · rw [if_neg hgt]
      refine h.setNode _ h.node ?_ s.requests s.answers
      rw [gt_iff_lt, UInt32.lt_iff_toNat_lt, hto, not_lt, hok] at hgt
      exact max_le h.top hgt
  | _ => cases hs

/-- Asking for an expansion keeps position and program point. -/
theorem inv_tryWrite (h : Inv s) {c : RustNode} (hpos : c.writePos < 2 ^ 32) (hpc : c.pc = .idle)
    {len n : ℕ} {full : Bool} (hs : stepTryWrite s c len n full = some t) : Inv t := by
  have hidle : c.pc ≠ .store := by simp [hpc]
  unfold stepTryWrite at hs
  dsimp only at hs
  split_ifs at hs with h0 hcap hfull hn
  · cases hs
    refine h.setNode _ ?_ h.top _ s.answers
    exact ⟨hpos, fun he => (hidle he).elim⟩
  · cases hs
    refine h.setNode _ ?_ h.top _ s.answers
    exact ⟨hpos, fun he => (hidle he).elim⟩
  · cases hs
    refine h.setNode _ ?_ h.top s.requests s.answers
    refine ⟨@pos_lt s.header _ ?_, fun he => by cases he⟩
    dsimp only
    omega

theorem inv_rust (h : Inv s) {c : RustNode} (hc : s.node = .rust c) {a : NodeAct}
    (halone : Alone s (.node a)) (hs : stepRust s c a = some t) : Inv t := by
  obtain ⟨hpos, hstore⟩ : c.writePos < 2 ^ 32 ∧
      (c.pc = .store → (decodeHeader s.header).1.toNat < c.writePos) := by
    simpa [hc, Node.Ok] using h.node
  have hto : (UInt32.ofNat c.writePos).toNat = c.writePos := by
    rw [UInt32.toNat_ofNat']
    exact Nat.mod_eq_of_lt hpos
  unfold stepRust at hs
  cases hpc : c.pc with
  | idle =>
    have hidle : c.pc ≠ .store := by simp [hpc]
    rw [hpc] at hs
    cases a with
    | requestExpand full =>
      cases hs
      refine h.setNode _ ?_ h.top _ s.answers
      exact ⟨hpos, fun he => (hidle he).elim⟩
    | pollWrite len n full =>
      dsimp only at hs
      split at hs
      · cases hs
      · cases hs
        refine h.setNode _ ?_ h.top s.requests s.answers
        exact ⟨hpos, nofun⟩
      · exact inv_tryWrite (c := { c with pc := .idle, expansionRx := none }) h hpos rfl hs
      · exact inv_tryWrite (c := { c with pc := .idle, expansionRx := none }) h hpos rfl hs
    | _ => cases hs
  | getMeta =>
    rw [hpc] at hs
    cases a with
    | getMeta =>
      dsimp only at hs
      split_ifs at hs with hgt
      · cases hs
        rw [gt_iff_lt, UInt32.lt_iff_toNat_lt, hto] at hgt
        refine h.setNode _ ?_ h.top s.requests s.answers
        exact ⟨hpos, fun _ => hgt⟩
      · cases hs
        rw [gt_iff_lt, UInt32.lt_iff_toNat_lt, hto, not_lt] at hgt
        refine h.setNode _ ?_ (max_le h.top hgt) s.requests s.answers
        exact ⟨hpos, nofun⟩
    | _ => cases hs
  | store =>
    rw [hpc] at hs
    cases a with
    | store =>
      cases hs
      have hlt := hstore hpc
      refine h.setLen halone _ ?_ ?_
      · exact ⟨hpos, nofun⟩
      · rw [hto]
        exact max_le (h.top.trans hlt.le) le_rfl
    | _ => cases hs

theorem inv_step (h : Inv s) {a : Action} (halone : Alone s a) (hfit : SequenceFits s a)
    (hs : step s a = some t) : Inv t := by
  cases a with
  | dispatch =>
    rw [step] at hs
    split_ifs at hs
    cases hs
    have hp : (Expander.started :: s.expanders).Perm (s.expanders ++ [.started]) :=
      (List.perm_append_singleton _ _).symm
    refine Inv.perm (s := { s with requests := s.requests - 1 }) ?_ hp
    exact
      { blk := h.blk
        nodup := h.nodup
        two := by
          intro x hx
          rcases List.mem_cons.1 hx with rfl | hx
          · trivial
          · exact h.two x hx
        header := h.header
        one := h.one
        current := by
          intro x hx st hst
          rcases List.mem_cons.1 hx with rfl | hx
          · cases hst
          · exact h.current x hx st hst
        late := h.late
        top := h.top
        node := h.node }
  | expander i a => exact inv_expander h halone hfit hs
  | late i a => exact inv_late h hs
  | hear =>
    rw [step] at hs
    split at hs
    · cases hs
    · cases hs
      refine h.setNode _ ?_ h.top s.requests _
      have hnode := h.node
      cases hn : s.node with
      | go c => simpa [Node.hear, Node.Ok, hn] using hnode
      | rust c => simpa [Node.hear, Node.Ok, hn] using hnode
  | node a =>
    rw [step, stepNode] at hs
    cases hn : s.node with
    | go c =>
      rw [hn] at hs
      exact inv_go h hn halone hs
    | rust c =>
      rw [hn] at hs
      exact inv_rust h hn halone hs

/-! ## No update is lost -/

theorem length_flatMap_stored {es : List Expander} (h : ∀ e ∈ es, e.Two) :
    (es.flatMap Expander.stored).length =
      2 * (es.countP Expander.ready + es.countP Expander.due) := by
  induction es with
  | nil => rfl
  | cons e es ih =>
    rw [List.flatMap_cons, List.length_append, ih fun x hx => h x (List.mem_cons_of_mem _ hx),
      Expander.length_stored (h e List.mem_cons_self), List.countP_cons, List.countP_cons]
    ring

theorem Inv.noLostUpdate (h : Inv s) : NoLostUpdate s := by
  obtain ⟨added, hadd, -, hdec⟩ := h.header
  have hsub : (s.blocks ++ s.expanders.flatMap Expander.stored).Sublist s.owned :=
    List.Sublist.append_left (List.Sublist.flatMap_right _ fun x _ => x.stored_sublist_held) _
  have hperm : (s.blocks ++ added).Perm (s.blocks ++ s.expanders.flatMap Expander.stored) :=
    hadd.append_left _
  have hresolve : resolve 0 (decodeHeader s.header).2.2 = s.blocks ++ added := by
    rw [hdec]
    exact resolve_encode fun b hb => h.blk b (hsub.subset (hperm.mem_iff.1 hb))
  refine ⟨?_, fun blocks hm b hb => ?_, h.top⟩
  · rw [hdec]
    simp only [List.length_append, hadd.length_eq, length_flatMap_stored h.two]
  · rw [hresolve]
    refine List.count_eq_one_of_mem (hperm.nodup_iff.2 (hsub.nodup h.nodup)) ?_
    rw [hperm.mem_iff]
    exact List.mem_append_right _ (List.mem_flatMap.2 ⟨_, hm, hb⟩)

/-! ## A Go node waits -/

/-- The goroutine has not answered. -/
def Expander.active : Expander → Bool
  | .answered _ => false
  | _ => true

/-- Nothing is left behind for the slot. -/
def Quiet (s : State) : Prop :=
  s.requests = 0 ∧ s.expanders = [] ∧ s.answers = [] ∧ ∀ e ∈ s.late, e.active = false

/-- What a Go node has asked for and not heard of is one expansion while it waits, and none
otherwise. -/
def GoWaits (s : State) : Prop :=
  (∀ e ∈ s.late, e.active = false) ∧ ∃ c, s.node = .go c ∧
    s.requests + s.expanders.countP Expander.active + s.answers.length = if c.waiting then 1 else 0

/-- A goroutine that takes a step has not answered; the step that ends it is the answer. -/
theorem Expander.advance_active {e e' : Expander} {header header' : Bytes} {a : ExpanderAct}
    (h : e.advance header a = some (e', header')) (answers : List Bool) :
    e.active = true ∧ (if e'.active then 1 else 0) + (e.respond answers a).length =
      1 + answers.length := by
  cases Expander.advance_cases h with
  | respond grant => exact ⟨rfl, by simp [Expander.active, Expander.respond, Nat.add_comm]⟩
  | decode | alloc | fail | extend | rewrite => exact ⟨rfl, rfl⟩

theorem stepExpander_active {i : ℕ} {a : ExpanderAct} (hs : stepExpander s i a = some t) :
    (∃ e, s.expanders[i]? = some e ∧ e.active = true) ∧ t.late = s.late ∧ t.node = s.node ∧
      t.requests = s.requests ∧ t.expanders.countP Expander.active + t.answers.length =
        s.expanders.countP Expander.active + s.answers.length := by
  obtain ⟨e, he, hs⟩ := Option.bind_eq_some_iff.1 hs
  obtain ⟨-, hs⟩ := Option.ite_none_right_eq_some.1 hs
  obtain ⟨⟨e', header⟩, hadv, rfl⟩ := Option.map_eq_some_iff.1 hs
  obtain ⟨hactive, hcount⟩ := Expander.advance_active hadv s.answers
  obtain ⟨rest, hperm, hset⟩ := exists_others he
  refine ⟨⟨e, he, hactive⟩, rfl, rfl, rfl, ?_⟩
  dsimp only
  rw [(hset e').countP_eq, hperm.countP_eq, List.countP_cons, List.countP_cons, hactive]
  simp only [if_true]
  omega

theorem not_stepLate {i : ℕ} {a : ExpanderAct} (h : ∀ e ∈ s.late, e.active = false) :
    stepLate s i a = none := by
  rw [stepLate, Option.map_eq_none_iff, Option.eq_none_iff_forall_ne_some]
  intro t ht
  obtain ⟨⟨e, he, hactive⟩, -⟩ := stepExpander_active ht
  rw [h e (List.mem_of_getElem? he)] at hactive
  cases hactive

theorem goWaits_step (h : GoWaits s) {a : Action} (hs : step s a = some t) : GoWaits t := by
  obtain ⟨hlate, c, hc, hcount⟩ := h
  cases a with
  | dispatch =>
    rw [step] at hs
    split_ifs at hs with h0
    cases hs
    refine ⟨hlate, c, hc, ?_⟩
    simp only [List.countP_append, List.countP_cons, List.countP_nil, Expander.active]
    rw [← hcount]
    simp only [if_true]
    omega
  | expander i a =>
    obtain ⟨-, hlate', hnode, hreq, hactive⟩ := stepExpander_active hs
    refine ⟨hlate' ▸ hlate, c, hnode.trans hc, ?_⟩
    rw [hreq]
    omega
  | late i a =>
    rw [step, not_stepLate hlate] at hs
    cases hs
  | hear =>
    rw [step] at hs
    split at hs
    · cases hs
    · rename_i ok answers hans
      cases hs
      refine ⟨hlate, { c with waiting := false }, by simp [Node.hear, hc], ?_⟩
      rw [hans, List.length_cons] at hcount
      simp only [Bool.false_eq_true, if_false]
      split_ifs at hcount
      omega
  | node a =>
    rw [step, stepNode, hc] at hs
    dsimp only [stepGo] at hs
    split_ifs at hs with hw
    rw [Bool.not_eq_true] at hw
    rw [hw] at hcount
    cases a with
    | requestExpand full =>
      cases hs
      refine ⟨hlate, _, rfl, ?_⟩
      cases full with
      | true => simpa [State.request] using hcount
      | false =>
        simp only [State.request, Bool.false_eq_true, if_false, Bool.not_false, if_true] at hcount ⊢
        omega
    | writeAt off len =>
      obtain ⟨-, hs⟩ := Option.ite_none_right_eq_some.1 hs
      split_ifs at hs <;> cases hs
      · exact ⟨hlate, c, hc, by rw [hw]; exact hcount⟩
      · exact ⟨hlate, _, rfl, by rw [hw]; exact hcount⟩
      · exact ⟨hlate, c, hc, by rw [hw]; exact hcount⟩
    | _ => cases hs

theorem GoWaits.alone (h : GoWaits s) {a : Action} (hs : step s a = some t) : Alone s a := by
  obtain ⟨-, c, hc, hcount⟩ := h
  have hquiet : ∀ es : List Expander, es.countP Expander.active = 0 →
      ∀ e ∈ es, e.inUpdate = false := by
    intro es h0 e he
    have := List.countP_eq_zero.1 h0 e he
    cases e <;> simp_all [Expander.active, Expander.inUpdate]
  cases a with
  | dispatch | late | hear => trivial
  | expander i a =>
    cases a with
    | decode =>
      obtain ⟨e, he, hs⟩ := Option.bind_eq_some_iff.1 hs
      obtain ⟨-, hs⟩ := Option.ite_none_right_eq_some.1 hs
      obtain ⟨rest, hperm, -⟩ := exists_others he
      rw [hperm.countP_eq, List.countP_cons] at hcount
      intro x hx
      rcases List.mem_cons.1 (hperm.mem_iff.1 hx) with rfl | hx
      · cases x <;> first | rfl | cases hs
      · refine hquiet rest ?_ x hx
        have hactive : e.active = true := by cases e <;> first | rfl | cases hs
        rw [if_pos hactive] at hcount
        split_ifs at hcount <;> omega
    | alloc _ | update | respond => trivial
  | node a =>
    rw [step, stepNode, hc] at hs
    dsimp only [stepGo] at hs
    split_ifs at hs with hw
    rw [if_neg hw] at hcount
    cases a with
    | writeAt off len => exact hquiet _ (by omega)
    | store => cases hs
    | requestExpand _ | pollWrite _ _ _ | getMeta => trivial

/-! ## The theorem -/

variable {l : Lang} {as : List Action}

theorem inv_run (h : Inv s) (hok : (handoff l).RunOk AloneFits s as)
    (hr : (handoff l).run s as = some t) : Inv t := by
  induction as generalizing s with
  | nil =>
    cases hr
    exact h
  | cons a as ih =>
    rw [System.run_cons, Option.bind_eq_some_iff] at hr
    obtain ⟨u, hs, hr⟩ := hr
    exact ih (inv_step h hok.1.1 hok.1.2 hs) (hok.2 u hs) hr

/-- A Go node that waits for what it asks for keeps updates and stores apart. -/
theorem aloneFits_of_goWaits (h : GoWaits s) (hok : (handoff l).RunOk SequenceFits s as)
    (hr : (handoff l).run s as = some t) : (handoff l).RunOk AloneFits s as := by
  induction as generalizing s with
  | nil => trivial
  | cons a as ih =>
    rw [System.run_cons, Option.bind_eq_some_iff] at hr
    obtain ⟨u, hs, hr⟩ := hr
    refine ⟨⟨h.alone hs, hok.1⟩, fun v hv => ?_⟩
    obtain rfl : u = v := Option.some.inj (hs.symm.trans hv)
    exact ih (goWaits_step h hs) (hok.2 u hs) hr

theorem goWaits_start {s : State} (h : (handoff .go).Init s) (hquiet : Quiet s) : GoWaits s := by
  obtain ⟨-, -, -, dataLen, mem, rest, hs⟩ := h
  obtain ⟨hreq, hexp, hans, hlate⟩ := hquiet
  refine ⟨hlate, _, by rw [hs]; rfl, ?_⟩
  rw [hreq, hexp, hans]
  rfl

/-- In every run of a handoff that starts when the goroutines left behind have done their updates, and
in which no two updates overlap, no length is stored during one and the sequences fit, no update is
lost.  On a Go node for whose slot nothing was left behind it is enough that the sequences fit. -/
theorem no_lost_update {s₀ s : State} (hinit : (handoff l).Init s₀) (hsettled : Settled s₀)
    (hr : (handoff l).run s₀ as = some s) :
    ((handoff l).RunOk AloneFits s₀ as → NoLostUpdate s) ∧
    (l = .go → Quiet s₀ → (handoff l).RunOk SequenceFits s₀ as → NoLostUpdate s) := by
  have h := inv_start l hinit hsettled
  refine ⟨fun hok => (inv_run h hok hr).noLostUpdate, ?_⟩
  rintro rfl hquiet hok
  have hok' := aloneFits_of_goWaits (goWaits_start hinit hquiet) hok hr
  exact (inv_run h hok' hr).noLostUpdate

/-- A stripe with one block of data. -/
def twoBlocks : List BlockId := [(-1, 256), (-1, 257)]

/-- A handler starts on it. -/
def started (l : Lang) (rest : Leftover) : State := start l twoBlocks 0 (fun _ => 0) rest

theorem init_started (l : Lang) (rest : Leftover) : (handoff l).Init (started l rest) :=
  ⟨(by decide : ∀ b ∈ twoBlocks, Valid b), (by decide : twoBlocks.Nodup),
    (by decide : Fits twoBlocks), 0, _, rest, rfl⟩

/-- The steps of goroutine `i` up to its answer. -/
def expansion (i : ℕ) (blocks : List BlockId) : List Action :=
  [.expander i .decode, .expander i (.alloc (some blocks)), .expander i .update,
    .expander i .update, .expander i .respond]

/-- A goroutine of an earlier handoff has its answer to send. -/
def lateAnswer : Leftover := ⟨0, 0, [.answer none], by decide, [], false⟩

/-- An expansion that is awaited, and a write after it: in Go when nothing was left behind, in Rust
while a goroutine of an earlier handoff sends its answer. -/
theorem no_lost_update_awaited :
    (∃ s, NoLostUpdate s ∧ s.top = 100 ∧ s.expanders = [.answered (some [(-1, 258), (-1, 259)])]) ∧
    ∃ s, NoLostUpdate s ∧ s.top = 5000 ∧
      s.expanders = [.answered (some [(-1, 258), (-1, 259)])] := by
  constructor
  · obtain ⟨s, hr, hp⟩ := Option.map_eq_some_iff.1 (show
      ((handoff .go).runWith SequenceFits (started .go .none)
        ([.node (.requestExpand false), .dispatch] ++ expansion 0 [(-1, 258), (-1, 259)] ++
          [.hear, .node (.writeAt 0 100)])).map (fun s => decide (s.top = 100 ∧
            s.expanders = [.answered (some [(-1, 258), (-1, 259)])])) = some true by decide +kernel)
    obtain ⟨hrun, hok⟩ := System.runOk_of_runWith hr
    refine ⟨s, ?_, of_decide_eq_true hp⟩
    exact (no_lost_update (init_started _ _) (by decide) hrun).2 rfl ⟨rfl, rfl, rfl, nofun⟩ hok
  · obtain ⟨s, hr, hp⟩ := Option.map_eq_some_iff.1 (show
      ((handoff .rust).runWith AloneFits (started .rust lateAnswer)
        ([.node (.pollWrite 5000 5000 false), .dispatch] ++ expansion 0 [(-1, 258), (-1, 259)] ++
          [.hear, .late 0 .respond, .node (.pollWrite 5000 5000 false), .node .getMeta,
            .node .store])).map (fun s => decide (s.top = 5000 ∧
              s.expanders = [.answered (some [(-1, 258), (-1, 259)])])) = some true by decide +kernel)
    obtain ⟨hrun, hok⟩ := System.runOk_of_runWith hr
    refine ⟨s, ?_, of_decide_eq_true hp⟩
    exact (no_lost_update (init_started _ _) (by decide) hrun).1 hok

/-- A goroutine of an earlier handoff has decoded the header. -/
def lateUpdate : Leftover := ⟨0, 0, [.decoded ⟨encode twoBlocks, 2, [], 0⟩], by decide, [], false⟩

theorem not_noLostUpdate_of_top {s : State} (htop : s.top = 100)
    (hlen : (decodeHeader s.header).1 = 0) : ¬ NoLostUpdate s := by
  intro h
  have hcover := h.dataLen
  rw [htop, hlen] at hcover
  simp at hcover

/-- A Rust handler that drops the future of `request_expand`.  If it asks again, both goroutines read
the header before one of them writes it, and both answer READY: the block count grows by two, and the
blocks of one expansion are gone.  If it writes, the goroutine puts the old length back.  If it ends,
the goroutine does the same to the next handler, which may be one in Go. -/
theorem expansion_loses_update :
    (∃ s, (handoff .rust).Reachable s ∧
      s.expanders = [.answered (some [(-1, 258), (-1, 259)]), .answered (some [(-1, 260), (-1, 261)])] ∧
      (decodeHeader s.header).2.1 = s.blocks.length + 2 ∧
      resolve 0 (decodeHeader s.header).2.2 = s.blocks ++ [(-1, 260), (-1, 261)] ∧
      ¬ NoLostUpdate s) ∧
    (∃ s, (handoff .rust).Reachable s ∧ s.top = 100 ∧ (decodeHeader s.header).1 = 0 ∧
      ¬ NoLostUpdate s) ∧
    ∃ s, (handoff .go).Reachable s ∧ s.top = 100 ∧ (decodeHeader s.header).1 = 0 ∧
      ¬ NoLostUpdate s := by
  refine ⟨?_, ?_, ?_⟩
  · obtain ⟨s, hr, hp⟩ := System.exists_reachable_of_run (s := started .rust .none)
      (handoff .rust)
      ([.node (.requestExpand false), .node (.requestExpand false), .dispatch, .dispatch,
          .expander 1 .decode] ++ expansion 0 [(-1, 258), (-1, 259)] ++
        (expansion 1 [(-1, 260), (-1, 261)]).tail)
      (fun s => decide (s.expanders =
          [.answered (some [(-1, 258), (-1, 259)]), .answered (some [(-1, 260), (-1, 261)])] ∧
        (decodeHeader s.header).2.1 = s.blocks.length + 2 ∧
        resolve 0 (decodeHeader s.header).2.2 = s.blocks ++ [(-1, 260), (-1, 261)]))
      (init_started _ _) (by decide +kernel)
    obtain ⟨hex, hcnt, hseq⟩ := of_decide_eq_true hp
    refine ⟨s, hr, hex, hcnt, hseq, fun h => ?_⟩
    have hcount := h.blockCount
    rw [hcnt, hex] at hcount
    simp [List.countP_cons, Expander.ready, Expander.due] at hcount
  · obtain ⟨s, hr, hp⟩ := System.exists_reachable_of_run (s := started .rust .none)
      (handoff .rust)
      ([.node (.requestExpand false), .dispatch, .expander 0 .decode,
          .node (.pollWrite 100 100 false), .node .getMeta, .node .store] ++
        (expansion 0 [(-1, 258), (-1, 259)]).tail)
      (fun s => decide (s.top = 100 ∧ (decodeHeader s.header).1 = 0))
      (init_started _ _) (by decide +kernel)
    obtain ⟨htop, hlen⟩ := of_decide_eq_true hp
    exact ⟨s, hr, htop, hlen, not_noLostUpdate_of_top htop hlen⟩
  · obtain ⟨s, hr, hp⟩ := System.exists_reachable_of_run (s := started .go lateUpdate) (handoff .go)
      [.node (.writeAt 0 100), .late 0 (.alloc (some [(-1, 258), (-1, 259)])), .late 0 .update]
      (fun s => decide (s.top = 100 ∧ (decodeHeader s.header).1 = 0))
      (init_started _ _) (by decide +kernel)
    obtain ⟨htop, hlen⟩ := of_decide_eq_true hp
    exact ⟨s, hr, htop, hlen, not_noLostUpdate_of_top htop hlen⟩

end Mmfg.Expand
