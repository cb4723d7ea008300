import Mmfg.Hub.Blocks

/-!
# Blocks under the other steps

A goroutine that handles an expansion takes free blocks and puts them into the header; a handler
writes to the blocks that it found in the header, and to the data length there.
-/

namespace Mmfg.Hub

open Shm

variable {s t : State} {i : ℕ} {l : Bool} {granted taken lost : List BlockId}

theorem Aside.kept (h : Aside s t) (j : ℕ) : Kept s t j :=
  ⟨by rw [h.conns], fun _ => by rw [h.ledger], fun _ _ => by rw [h.mem], fun slot _ => h.header slot⟩

theorem Own.aside (h : Own l s) (hT : Tokens s) (hA : Asking s) (hu : Aside s t)
    (hexps : t.exps = s.exps) (hhand : t.handlers = s.handlers) : Own l t := by
  refine ⟨h.books.congr hu.used hu.ledger, fun j => ?_⟩
  obtain ⟨granted, taken, lost, hl, hst, hw⟩ := h.conn j
  have hap : Apart s t j :=
    ⟨hu.kept j, fun e x _ => by rw [hexps], fun k => by rw [hhand]⟩
  exact ⟨granted, taken, lost, hl, hap.toKept.stock hst (hT.slots.wf j), hap.workers hst hw hA hT⟩

theorem ConnPC.handed_of_awaits {pc : ConnPC} (h : pc.awaits = true) : pc.handed = true := by
  cases pc <;> first | rfl | cases h

/-- A connection that waits, after a change of its blocks in the header or with an expansion. -/
theorem Stock.awaiting {granted' taken' : List BlockId} (h : Stock s i granted taken lost)
    (ha : (s.conns i).pc.awaits = true) (hconn : t.conns i = s.conns i)
    (hreg : ∀ slot, (t.reg slot).header = (s.reg slot).header)
    (hholds : t.Holds i ((s.conns i).base ++ granted' ++ taken' ++ lost))
    (hgood : Shm.Good ⟨(s.conns i).stripe, t.mem (s.conns i).header, granted'⟩) :
    Stock t i granted' taken' lost := by
  have ho := ConnPC.isOpen_of_awaits ha
  refine ⟨by rw [hconn]; exact hholds, fun n needSlot held he => ?_, fun hc => ?_, fun he => ?_,
    fun _ => ?_, fun _ => by rw [hconn]; exact hgood, fun _ => ?_, fun he => ?_⟩
  · rw [hconn] at he
    rw [he] at ha
    cases ha
  · rw [hconn, ho] at hc
    cases hc
  · rw [hconn] at he
    rw [he] at ha
    cases ha
  · rw [hconn]
    exact h.nonempty ho
  · rw [hconn, hreg]
    exact h.entry (ConnPC.handed_of_awaits ha)
  · rw [hconn] at he
    rw [he] at ha
    cases ha

/-! ## Expansions -/

section Exp

variable {e : ℕ} {x w : Expander}

theorem ExpPC.live_or_refusing {pc : ExpPC} (h : pc ≠ .gone) :
    pc.live = true ∨ pc.refusing = true := by
  by_contra hno
  push Not at hno
  exact h (ExpPC.eq_gone (Bool.not_eq_true _ ▸ hno.1) (Bool.not_eq_true _ ▸ hno.2))

theorem Asking.exp_awaits (h : Asking s) (hT : Tokens s) (hx : s.exps e = some x)
    (hne : x.pc ≠ .gone) : (s.conns x.tag.1).pc.awaits = true := by
  rcases ExpPC.live_or_refusing hne with hl | hr
  · exact (h.live hT hx hl).1.awaits rfl
  · obtain ⟨tok, hg⟩ := hT.good x.tag.1
    obtain rfl := hg.failing hx hr
    exact hg.awaits rfl

theorem Asking.exp_unique (h : Asking s) (hT : Tokens s) {e' : ℕ} (hx : s.exps e = some x)
    (hw : s.exps e' = some w) (htag : w.tag.1 = x.tag.1) (hne : x.pc ≠ .gone)
    (hne' : w.pc ≠ .gone) : e' = e := by
  obtain ⟨tok, hg⟩ := hT.good x.tag.1
  have hg' := hg
  rw [← htag] at hg'
  -- a live one has an active handler, which a refusal does not
  have hactive : ∀ {e x}, s.exps e = some x → x.pc.live = true → Good s x.tag.1 tok →
      tok = .handling := by
    intro e x hx hl hg
    obtain ⟨y, hy, hact⟩ := h.active (asked_exp hx hl)
    exact (hg.handling (k := x.tag.2) hy hact).1
  rcases ExpPC.live_or_refusing hne with hl | hr <;>
    rcases ExpPC.live_or_refusing hne' with hl' | hr'
  · have heq : w.tag = x.tag := by
      refine Prod.ext htag ?_
      rw [(h.live hT hw hl').2.1, (h.live hT hx hl).2.1, htag]
    have hpos := asked_exp hw hl'
    rw [heq] at hpos
    have hplace := (h.lone x.tag).eq_of_pos hpos (asked_exp hx hl)
    exact Place.exp.inj hplace
  · rw [hactive hx hl hg] at hg'
    have := hg'.failing hw hr'
    cases this
  · rw [hactive hw hl' hg'] at hg
    have := hg.failing hx hr
    cases this
  · have h1 := hg.failing hx hr
    have h2 := hg'.failing hw hr'
    exact (Tok.failing.inj (h2.symm.trans h1)).1

/-- The active handlers of connection `i` may become fewer. -/
def Fades (s t : State) (i : ℕ) : Prop :=
  (∀ k, k.1 ≠ i → t.handlers k = s.handlers k) ∧
    ∀ k y, t.handlers k = some y → y.active = true → s.handlers k = some y

theorem fades_refl (h : t.handlers = s.handlers) : Fades s t i :=
  ⟨fun k _ => by rw [h], fun k y hy _ => by rw [← h]; exact hy⟩

theorem fades_refuse {h : Handoff} (ht : t.handlers = (s.refuse h).handlers) : Fades s t h.1 := by
  refine ⟨fun k hk => ?_, fun k y hy hact => ?_⟩
  · rw [ht]
    refine Function.update_of_ne ?_ _ _
    rintro rfl
    exact hk rfl
  · rw [ht] at hy
    change Function.update s.handlers h _ k = some y at hy
    by_cases hk : k = h
    · rw [hk, Function.update_self] at hy
      obtain ⟨z, -, rfl⟩ := Option.map_eq_some_iff.1 hy
      simp [Handler.active] at hact
    · rwa [Function.update_of_ne hk] at hy

/-- A step of an expansion, which writes to the blocks of its connection. -/
structure OnExp (s t : State) (e : ℕ) (x w : Expander) : Prop where
  conns : t.conns = s.conns
  exps : t.exps = Function.update s.exps e (some w)
  tag : w.tag = x.tag
  handlers : Fades s t x.tag.1
  header : ∀ slot, (t.reg slot).header = (s.reg slot).header
  ledger : ∀ j, j ≠ x.tag.1 → ∀ b, t.ledger b = some j ↔ s.ledger b = some j
  mem : ∀ b, s.ledger b ≠ some x.tag.1 → t.mem b = s.mem b

theorem OnExp.apart (h : OnExp s t e x w) (hx : s.exps e = some x) :
    ∀ j, j ≠ x.tag.1 → Apart s t j := by
  intro j hj
  refine ⟨⟨by rw [h.conns], h.ledger j hj, fun b hb => h.mem b ?_, fun slot _ => h.header slot⟩,
    fun e' z hz => ?_, fun k => by rw [h.handlers.1 (j, k) hj]⟩
  · rw [hb]
    exact fun he => hj (Option.some.inj he)
  · rw [h.exps]
    by_cases he : e' = e
    · rw [he, Function.update_self, hx]
      have hz1 : z ≠ w := by
        rintro rfl
        exact hj (by rw [← hz, h.tag])
      have hz2 : z ≠ x := by
        rintro rfl
        exact hj hz.symm
      simp [Ne.symm hz1, Ne.symm hz2]
    · rw [Function.update_of_ne he]

theorem Handler.Knows.mono {y : Handler} {hb : BlockId} {bs bs' : List BlockId}
    (h : y.Knows hb bs) (hp : bs <+: bs') : y.Knows hb bs' := by
  have hsees : y.Sees hb bs → y.Sees hb bs' := fun hs =>
    ⟨hs.header, hs.blocks.trans hp, hs.nonempty, hs.sequence⟩
  cases hpc : y.pc with
  | locate again =>
    cases again with
    | true =>
      simp only [Handler.Knows, hpc] at h ⊢
      exact hsees h
    | false => simp only [Handler.Knows, hpc]
  | running =>
    simp only [Handler.Knows, hpc] at h ⊢
    exact hsees h
  | decode again b =>
    simp only [Handler.Knows, hpc] at h ⊢
    exact ⟨h.1, fun ha => hsees (h.2 ha)⟩
  | setDone | respond | finished => simp only [Handler.Knows, hpc]

/-- The blocks of an expansion are all that are taken for its connection. -/
theorem Asking.taken_eq (h : Asking s) (hT : Tokens s) (hx : s.exps e = some x)
    (hne : x.pc ≠ .gone) (hw : Workers s x.tag.1 granted taken) : taken = x.pc.held := by
  by_cases h0 : x.pc.held = []
  · rw [h0]
    refine hw.none fun e' z hz htag => ?_
    by_cases hg : z.pc = .gone
    · rw [hg]
      rfl
    · obtain rfl := h.exp_unique hT hx hz htag hne hg
      obtain rfl := Option.some.inj (hx.symm.trans hz)
      exact h0
  · exact hw.held e x hx rfl h0

theorem Own.expUpdate (h : Own l s) (hT : Tokens s) (hA : Asking s) (hx : s.exps e = some x)
    (hne : x.pc ≠ .gone) (hs : OnExp s t e x w) (hbooks : Books t)
    (hi : ∀ granted lost, Stock s x.tag.1 granted x.pc.held lost →
      Workers s x.tag.1 granted x.pc.held → ∃ granted', Stock t x.tag.1 granted' w.pc.held lost ∧
        w.pc.Knows t.mem (s.conns x.tag.1).header ∧ granted <+: granted') : Own l t := by
  refine h.update hT hA hbooks (hs.apart hx) ?_
  obtain ⟨granted, taken, lost, hl, hst, hw⟩ := h.conn x.tag.1
  obtain rfl := hA.taken_eq hT hx hne hw
  obtain ⟨granted', hst', hknows, hsub⟩ := hi granted lost hst hw
  -- every other expansion of the connection has ended
  have hothers : ∀ e' z, t.exps e' = some z → z.tag.1 = x.tag.1 → z = w ∨ z.pc = .gone := by
    intro e' z hz htag
    rw [hs.exps] at hz
    by_cases he : e' = e
    · rw [he, Function.update_self] at hz
      exact .inl (Option.some.inj hz).symm
    · rw [Function.update_of_ne he] at hz
      by_contra hno
      push Not at hno
      exact he (hA.exp_unique hT hx hz htag hne hno.2)
  refine ⟨granted', w.pc.held, lost, hl, hst', ⟨fun e' z hz htag => ?_, fun e' z hz htag hh => ?_,
    fun hall => ?_, fun k y hy hact => ?_⟩⟩
  · rw [hs.conns]
    rcases hothers e' z hz htag with rfl | hg
    · exact hknows
    · rw [hg]
      trivial
  · rcases hothers e' z hz htag with rfl | hg
    · rfl
    · rw [hg] at hh
      exact absurd rfl hh
  · exact hall e w (by rw [hs.exps, Function.update_self]) (by rw [hs.tag])
  · rw [hs.conns]
    refine (hw.hand k y (hs.handlers.2 _ y hy hact) hact).mono ?_
    obtain ⟨more, rfl⟩ := hsub
    exact ⟨more, by rw [List.append_assoc]⟩

theorem Own.expQuiet (h : Own l s) (hT : Tokens s) (hA : Asking s) (hx : s.exps e = some x)
    (hne : x.pc ≠ .gone) (hu : Aside s t) (ht : t.exps = Function.update s.exps e (some w))
    (htag : w.tag = x.tag) (hf : Fades s t x.tag.1) (hheld : w.pc.held = x.pc.held)
    (hk : ∀ granted lost, Stock s x.tag.1 granted x.pc.held lost →
      x.pc.Knows s.mem (s.conns x.tag.1).header → w.pc.Knows s.mem (s.conns x.tag.1).header) :
    Own l t := by
  refine h.expUpdate hT hA hx hne ⟨hu.conns, ht, htag, hf, hu.header, fun _ _ _ => by rw [hu.ledger],
    fun _ _ => by rw [hu.mem]⟩ (h.books.congr hu.used hu.ledger) fun granted lost hst hw =>
      ⟨granted, ?_, ?_, List.prefix_rfl⟩
  · rw [hheld]
    exact (hu.kept _).stock hst (hT.slots.wf _)
  · rw [hu.mem]
    exact hk granted lost hst (hw.knows e x hx rfl)

theorem Own.expTake (h : Own l s) (hT : Tokens s) (hA : Asking s) {b : BlockId} {m : Meta}
    {held batch : List BlockId} (hx : s.exps e = some x) (hpc : x.pc = .alloc b m held)
    (hb : s.CanTake batch) :
    Own l ((s.take x.tag.1 batch).setExp e { x with pc := .alloc b m (held ++ batch) }) := by
  have hne : x.pc ≠ .gone := by
    rw [hpc]
    exact ExpPC.noConfusion
  have ha := hA.exp_awaits hT hx hne
  refine h.expUpdate hT hA hx hne
    (w := { x with pc := .alloc b m (held ++ batch) })
    ⟨rfl, rfl, rfl, fades_refl rfl, fun _ => rfl, (h.books.ledger_take hb).2, fun _ _ => rfl⟩
    ((h.books.take hb).congr rfl rfl) fun granted lost hst hw => ⟨granted, ?_, ?_, List.prefix_rfl⟩
  · refine hst.awaiting ha rfl (fun _ => rfl) ?_ (hst.good (ConnPC.isOpen_of_awaits ha))
    refine h.books.holds_take hb hst.holds ?_ rfl
    rw [show x.pc.held = held by rw [hpc]; rfl]
    change ((s.conns x.tag.1).base ++ granted ++ (held ++ batch) ++ lost).Perm _
    simp only [List.append_assoc]
    refine List.Perm.append_left _ (List.Perm.append_left _ (List.Perm.append_left _ ?_))
    exact List.perm_append_comm
  · have hk := hw.knows e x hx rfl
    rw [hpc] at hk
    exact hk

theorem Own.expUndo (h : Own l s) (hT : Tokens s) (hA : Asking s) {b : BlockId}
    {todo : List BlockId} (hx : s.exps e = some x) (hpc : x.pc = .undo (b :: todo)) :
    Own l ((s.free b).setExp e { x with pc := .undo todo }) := by
  have hne : x.pc ≠ .gone := by
    rw [hpc]
    exact ExpPC.noConfusion
  have ha := hA.exp_awaits hT hx hne
  have hheld : x.pc.held = b :: todo := by
    rw [hpc]
    rfl
  obtain ⟨granted, taken, lost, -, hst, hw⟩ := h.conn x.tag.1
  obtain rfl := hA.taken_eq hT hx hne hw
  have hb : s.ledger b = some x.tag.1 := hst.holds.ledger (by simp [hheld])
  refine h.expUpdate hT hA hx hne
    (w := { x with pc := .undo todo })
    ⟨rfl, rfl, rfl, fades_refl rfl, fun _ => rfl, ledger_free hb, fun _ _ => rfl⟩
    ((h.books.free hb).congr rfl rfl) fun granted lost hst hw =>
      ⟨granted, ?_, trivial, List.prefix_rfl⟩
  refine hst.awaiting ha rfl (fun _ => rfl) ?_ (hst.good (ConnPC.isOpen_of_awaits ha))
  refine holds_free hst.holds ?_ rfl
  rw [hheld]
  change List.Perm _ (b :: ((s.conns x.tag.1).base ++ granted ++ todo ++ lost))
  rw [List.append_assoc _ _ lost, List.append_assoc _ _ lost]
  exact List.perm_middle

/-- A header that was decoded is the one that the blocks determine. -/
theorem Stock.decoded (h : Stock s i granted taken lost) (ho : (s.conns i).pc.isOpen = true) :
    decodeHeader (s.mem (s.conns i).header) =
      ((decodeHeader (s.mem (s.conns i).header)).1,
        ((s.conns i).stripe.blocks ++ granted).length,
        encode ((s.conns i).stripe.blocks ++ granted)) :=
  Prod.ext rfl (h.good ho).header

/-- An expansion puts its blocks into the header. -/
theorem Own.expCommit (h : Own l s) (hT : Tokens s) (hA : Asking s) {b : BlockId} {m : Meta}
    {held : List BlockId} (hx : s.exps e = some x) (hpc : x.pc = .alloc b m held)
    (hfit : (m.append held).2.2.length ≤ HeaderEntries) :
    Own l ((s.putMeta b (m.append held)).setExp e { x with pc := .rewrite b (m.append held) }) := by
  have hne : x.pc ≠ .gone := by
    rw [hpc]
    exact ExpPC.noConfusion
  have ha := hA.exp_awaits hT hx hne
  have ho := ConnPC.isOpen_of_awaits ha
  have hheld : x.pc.held = held := by
    rw [hpc]
    rfl
  obtain ⟨granted, taken, lost, -, hst, hw⟩ := h.conn x.tag.1
  have hk := hw.knows e x hx rfl
  rw [hpc] at hk
  obtain ⟨rfl, rfl⟩ := hk
  refine h.expUpdate hT hA hx hne
    (w := { x with
      pc := .rewrite (s.conns x.tag.1).header
        (Meta.append (decodeHeader (s.mem (s.conns x.tag.1).header)) held) })
    ⟨rfl, rfl, rfl, fades_refl rfl, fun _ => rfl, fun _ _ _ => Iff.rfl, fun b hb => ?_⟩
    (h.books.congr rfl rfl) fun granted lost hst hw => ?_
  · refine Function.update_of_ne ?_ _ _
    rintro rfl
    exact hb (hst.ledger_header ho)
  · have hgood := hst.good ho
    have hseq : (Meta.append (decodeHeader (s.mem (s.conns x.tag.1).header)) held).2.2 =
        encode ((s.conns x.tag.1).stripe.blocks ++ granted ++ held) := by
      rw [hst.decoded ho, encode_append hgood.blk]
      rfl
    rw [hseq] at hfit
    have hdec := hgood.decodeHeader_append (fits_of_length hfit)
      (decodeHeader (s.mem (s.conns x.tag.1).header)).1 (s.mem (s.conns x.tag.1).header)
    have hblk : ∀ b ∈ held, Blk b := fun b hb =>
      h.books.blk b x.tag.1 (hst.holds.ledger (by simp [hheld, hb]))
    have hmem : ((s.putMeta (s.conns x.tag.1).header
        (Meta.append (decodeHeader (s.mem (s.conns x.tag.1).header)) held)).mem (s.conns x.tag.1).header) =
        updateStripeHeader (decodeHeader (s.mem (s.conns x.tag.1).header)).1
          ((decodeHeader (s.mem (s.conns x.tag.1).header)).2.1 + held.length)
          (Meta.append (decodeHeader (s.mem (s.conns x.tag.1).header)) held).2.2
          (s.mem (s.conns x.tag.1).header) := Function.update_self ..
    refine ⟨granted ++ held, hst.awaiting ha rfl (fun _ => rfl) ?_ ?_, ⟨rfl, ?_⟩, held, rfl⟩
    · refine hst.holds.perm ?_ fun _ => Iff.rfl
      rw [hheld]
      change ((s.conns x.tag.1).base ++ (granted ++ held) ++ [] ++ lost).Perm _
      simp only [List.append_assoc, List.nil_append, List.Perm.refl]
    · change Shm.Good ⟨_, (s.putMeta _ _).mem _, granted ++ held⟩
      rw [hmem]
      exact hgood.grant hblk (fits_of_length hfit) (congrArg Prod.snd hdec)
    · change _ = decodeHeader ((s.putMeta _ _).mem _)
      rw [hmem]
      refine Eq.trans ?_ hdec.symm
      refine Prod.ext rfl (Prod.ext ?_ hseq)
      change (decodeHeader (s.mem (s.conns x.tag.1).header)).2.1 + held.length = _
      rw [List.length_append, hst.decoded ho]

/-- The second write of the header changes nothing. -/
theorem Own.expRewrite (h : Own l s) (hT : Tokens s) (hA : Asking s) {b : BlockId} {m : Meta}
    (hx : s.exps e = some x) (hpc : x.pc = .rewrite b m) :
    Own l ((s.putMeta b m).setExp e { x with pc := .respond true }) := by
  have hne : x.pc ≠ .gone := by
    rw [hpc]
    exact ExpPC.noConfusion
  have ha := hA.exp_awaits hT hx hne
  have ho := ConnPC.isOpen_of_awaits ha
  have hheld : x.pc.held = [] := by
    rw [hpc]
    rfl
  obtain ⟨granted, taken, lost, -, hst, hw⟩ := h.conn x.tag.1
  have hk := hw.knows e x hx rfl
  rw [hpc] at hk
  obtain ⟨rfl, rfl⟩ := hk
  refine h.expUpdate hT hA hx hne
    (w := { x with pc := .respond true })
    ⟨rfl, rfl, rfl, fades_refl rfl, fun _ => rfl, fun _ _ _ => Iff.rfl, fun b hb => ?_⟩
    (h.books.congr rfl rfl) fun granted lost hst hw => ⟨granted, ?_, trivial, List.prefix_rfl⟩
  · refine Function.update_of_ne ?_ _ _
    rintro rfl
    exact hb (hst.ledger_header ho)
  · have hgood := hst.good ho
    have hmem : ((s.putMeta (s.conns x.tag.1).header
        (decodeHeader (s.mem (s.conns x.tag.1).header))).mem (s.conns x.tag.1).header) =
        updateStripeHeader (decodeHeader (s.mem (s.conns x.tag.1).header)).1
          (decodeHeader (s.mem (s.conns x.tag.1).header)).2.1
          (decodeHeader (s.mem (s.conns x.tag.1).header)).2.2
          (s.mem (s.conns x.tag.1).header) := Function.update_self ..
    refine hst.awaiting ha rfl (fun _ => rfl) ?_ ?_
    · rw [hheld] at hst
      exact hst.holds.perm (.refl _) fun _ => Iff.rfl
    · change Shm.Good ⟨_, (s.putMeta _ _).mem _, granted⟩
      rw [hmem, hst.decoded ho]
      refine ⟨hgood.blk, hgood.sequence, hgood.blockCount, hgood.fits, ?_, hgood.headerFits⟩
      exact congrArg Prod.snd (decodeHeader_encode hgood.headerFits _ _)

theorem Own.expStep (h : Own l s) (hT : Tokens s) (hA : Asking s) {a : ExpAct}
    (hfit : SequencesFit s (.exp e a)) (hx : s.exps e = some x) (hs : ExpStep s e x a t) :
    Own l t := by
  cases hs with
  | header hpc =>
    have hlive : x.pc.live = true := by
      rw [hpc]
      rfl
    refine h.expQuiet hT hA hx (by rw [hpc]; exact ExpPC.noConfusion)
      ⟨rfl, rfl, rfl, rfl, fun _ => rfl⟩ rfl rfl (fades_refl rfl) (by rw [hpc]; rfl)
      fun granted lost hst _ => ?_
    obtain ⟨hg, -, hslot⟩ := hA.live hT hx hlive
    change (s.reg x.slot).header = _
    rw [hslot]
    exact hst.entry (ConnPC.handed_of_awaits (hg.awaits rfl))
  | @decode b hpc =>
    refine h.expQuiet hT hA hx (by rw [hpc]; exact ExpPC.noConfusion)
      ⟨rfl, rfl, rfl, rfl, fun _ => rfl⟩ rfl rfl (fades_refl rfl) (by rw [hpc]; rfl)
      fun granted lost hst hk => ?_
    rw [hpc] at hk
    obtain rfl : b = _ := hk
    exact ⟨rfl, rfl⟩
  | check hpc ho =>
    refine h.expQuiet hT hA hx (by rw [hpc]; exact ExpPC.noConfusion)
      ⟨rfl, rfl, rfl, rfl, fun _ => rfl⟩ rfl rfl (fades_refl rfl) (by rw [hpc]; rfl)
      fun granted lost hst hk => ?_
    rw [hpc] at hk
    exact hk
  | refuse hpc ho =>
    exact h.expQuiet hT hA hx (by rw [hpc]; exact ExpPC.noConfusion)
      ⟨rfl, rfl, rfl, rfl, fun _ => rfl⟩ rfl rfl (fades_refuse rfl) (by rw [hpc]; rfl)
      fun _ _ _ _ => trivial
  | take hpc hb => exact h.expTake hT hA hx hpc hb
  | commit hpc hn =>
    refine h.expCommit hT hA hx hpc ?_
    have := hfit x hx
    simpa only [hpc] using this
  | fail hpc =>
    exact h.expQuiet hT hA hx (by rw [hpc]; exact ExpPC.noConfusion)
      ⟨rfl, rfl, rfl, rfl, fun _ => rfl⟩ rfl rfl (fades_refuse rfl) (by rw [hpc]; rfl)
      fun _ _ _ _ => trivial
  | rewrite hpc => exact h.expRewrite hT hA hx hpc
  | undo hpc => exact h.expUndo hT hA hx hpc
  | undoEnd hpc | ready hpc | readyLost hpc | error hpc | errorLost hpc | load hpc _ | loadNil hpc _
  | send hpc _ _ =>
    exact h.expQuiet hT hA hx (by rw [hpc]; exact ExpPC.noConfusion)
      ⟨rfl, rfl, rfl, rfl, fun _ => rfl⟩ rfl rfl (fades_refl rfl) (by rw [hpc]; rfl)
      fun _ _ _ _ => trivial

end Exp

theorem Own.dispStep (h : Own l s) (hT : Tokens s) (hA : Asking s) (hs : DispStep s t) :
    Own l t := by
  cases hs with
  | @spawn slot e tag hd he =>
    have hexps : ∀ e' z, Function.update s.exps e
        (some ⟨(s.reg slot).owner, slot, tag, .header⟩) e' = some z →
        s.exps e' = some z ∨ (z.tag = tag ∧ z.pc = .header) := by
      intro e' z hz
      by_cases hee : e' = e
      · rw [hee, Function.update_self] at hz
        cases hz
        exact .inr ⟨rfl, rfl⟩
      · rw [Function.update_of_ne hee] at hz
        exact .inl hz
    have hold : ∀ e' z, s.exps e' = some z → Function.update s.exps e
        (some ⟨(s.reg slot).owner, slot, tag, .header⟩) e' = some z := by
      intro e' z hz
      rw [Function.update_of_ne fun hee => by rw [hee, he] at hz; cases hz]
      exact hz
    have hu : Aside s { s with
        exps := Function.update s.exps e (some ⟨(s.reg slot).owner, slot, tag, .header⟩)
        disp := .idle } := ⟨rfl, rfl, rfl, rfl, fun _ => rfl⟩
    refine h.update (i := tag.1) hT hA (h.books.congr rfl rfl) (fun j hj => ?_) ?_
    · refine ⟨hu.kept j, fun e' z hz => ⟨fun hz' => ?_, hold e' z⟩, fun _ => rfl⟩
      rcases hexps e' z hz' with hz' | ⟨htag, -⟩
      · exact hz'
      · exact absurd (by rw [← hz, htag]) hj
    · obtain ⟨granted, taken, lost, hl, hst, hw⟩ := h.conn tag.1
      refine ⟨granted, taken, lost, hl, (hu.kept _).stock hst (hT.slots.wf _), ⟨?_, ?_, ?_, hw.hand⟩⟩
      · intro e' z hz htag
        rcases hexps e' z hz with hz | ⟨-, hpc⟩
        · exact hw.knows e' z hz htag
        · rw [hpc]
          trivial
      · intro e' z hz htag hh
        rcases hexps e' z hz with hz | ⟨-, hpc⟩
        · exact hw.held e' z hz htag hh
        · rw [hpc] at hh
          exact absurd rfl hh
      · exact fun hall => hw.none fun e' z hz => hall e' z (hold e' z hz)
  | _ => exact h.aside hT hA ⟨rfl, rfl, rfl, rfl, fun _ => rfl⟩ rfl rfl

/-! ## Handlers -/

section Hand

variable {k : Handoff} {y y' : Handler}

theorem Own.handUpdate (h : Own l s) (hT : Tokens s) (hA : Asking s) (hu : Aside s t)
    (hexps : t.exps = s.exps) (ht : t.handlers = Function.update s.handlers k (some y'))
    (hk : ∀ granted taken lost, Stock s k.1 granted taken lost → Workers s k.1 granted taken →
      y'.active = true →
        y'.Knows (s.conns k.1).header ((s.conns k.1).stripe.blocks ++ granted)) : Own l t := by
  refine h.update (i := k.1) hT hA (h.books.congr hu.used hu.ledger) (fun j hj => ?_) ?_
  · refine ⟨hu.kept j, fun e x _ => by rw [hexps], fun n => ?_⟩
    rw [ht, Function.update_of_ne]
    rintro rfl
    exact hj rfl
  · obtain ⟨granted, taken, lost, hl, hst, hw⟩ := h.conn k.1
    refine ⟨granted, taken, lost, hl, (hu.kept _).stock hst (hT.slots.wf _),
      ⟨fun e x hx htag => ?_, fun e x hx => ?_, fun hall => hw.none ?_, fun n z hz hact => ?_⟩⟩
    · rw [hexps] at hx
      rw [hu.conns, hu.mem]
      exact hw.knows e x hx htag
    · rw [hexps] at hx
      exact hw.held e x hx
    · rw [← hexps]
      exact hall
    · rw [hu.conns]
      rw [ht] at hz
      by_cases hn : (k.1, n) = k
      · rw [hn, Function.update_self] at hz
        cases hz
        exact hk granted taken lost hst hw hact
      · rw [Function.update_of_ne hn] at hz
        exact hw.hand n z hz hact

/-- The handler of the current handoff, while the connection waits for it. -/
theorem Tokens.active (hT : Tokens s) (hy : s.handlers k = some y) (hact : y.active = true) :
    (s.conns k.1).pc.awaits = true ∧ k.2 = (s.conns k.1).handoffs ∧
      y.slot = (s.conns k.1).slotID := by
  obtain ⟨tok, hg⟩ := hT.good k.1
  obtain ⟨rfl, hk⟩ := hg.handling (k := k.2) hy hact
  obtain ⟨-, z, hz, hslot, -⟩ := hg.ok
  rw [← hk] at hz
  obtain rfl := Option.some.inj (hy.symm.trans hz)
  exact ⟨hg.awaits rfl, hk, hslot⟩

theorem Asking.not_live (h : Asking s) (hT : Tokens s) (hy : s.handlers k = some y)
    (h0 : y.pending = 0) (hact : y.active = true) {e : ℕ} {x : Expander} (hx : s.exps e = some x)
    (htag : x.tag.1 = k.1) : x.pc.live = false := by
  by_contra hl
  rw [Bool.not_eq_false] at hl
  have heq : x.tag = k := by
    refine Prod.ext htag ?_
    rw [(h.live hT hx hl).2.1, htag, (hT.active hy hact).2.1]
  have hpos := asked_exp hx hl
  rw [heq, h.none hy h0] at hpos
  exact absurd hpos (lt_irrefl 0)

theorem ExpPC.knows_of_not_live {pc : ExpPC} (h : pc.live = false) (mem : BlockId → Bytes)
    (hb : BlockId) : pc.Knows mem hb := by
  cases pc with
  | respond ok => trivial
  | undo todo | load | send c | gone => trivial
  | _ => cases h

theorem Own.handWrite (h : Own l s) (hT : Tokens s) (hA : Asking s) (hy : s.handlers k = some y)
    (h0 : y.pending = 0) (hact : y.active = true) {b : BlockId} {bytes : Bytes}
    (hown : s.ledger b = some k.1)
    (hgood : ∀ granted, Shm.Good ⟨(s.conns k.1).stripe, s.mem (s.conns k.1).header, granted⟩ →
      Shm.Good ⟨(s.conns k.1).stripe, (s.setMem b bytes).mem (s.conns k.1).header, granted⟩) :
    Own l (s.setMem b bytes) := by
  have ha := (hT.active hy hact).1
  refine h.update (i := k.1) hT hA (h.books.congr rfl rfl) (fun j hj => ?_) ?_
  · refine ⟨⟨rfl, fun _ => Iff.rfl, fun b' hb' => ?_, fun _ _ => rfl⟩, fun _ _ _ => Iff.rfl,
      fun _ => rfl⟩
    refine Function.update_of_ne ?_ _ _
    rintro rfl
    rw [hown] at hb'
    exact hj (Option.some.inj hb').symm
  · obtain ⟨granted, taken, lost, hl, hst, hw⟩ := h.conn k.1
    refine ⟨granted, taken, lost, hl, hst.awaiting ha rfl (fun _ => rfl)
      (hst.holds.perm (.refl _) fun _ => Iff.rfl) (hgood _ (hst.good (ConnPC.isOpen_of_awaits ha))),
      ⟨fun e x hx htag => ?_, hw.held, hw.none, hw.hand⟩⟩
    exact ExpPC.knows_of_not_live (hA.not_live hT hy h0 hact hx htag) _ _

/-- A handler that runs sees blocks of its connection, the header block first. -/
theorem Workers.sees (hw : Workers s k.1 granted taken) (hy : s.handlers k = some y)
    (hact : y.active = true) (hpc : y.pc = .running) :
    y.Sees (s.conns k.1).header ((s.conns k.1).stripe.blocks ++ granted) := by
  have := hw.hand k.2 y hy hact
  simpa only [Handler.Knows, hpc] using this

theorem Handler.Sees.tail {hb b : BlockId} {bs : List BlockId} (h : y.Sees hb bs)
    (hm : b ∈ y.blocks.tail) : b ∈ bs.tail := by
  obtain ⟨more, rfl⟩ := h.blocks
  rw [List.tail_append_of_ne_nil h.nonempty]
  exact List.mem_append_left _ hm

theorem Own.handPoke (h : Own l s) (hT : Tokens s) (hA : Asking s) (hy : s.handlers k = some y)
    (h0 : y.pending = 0) (hact : y.active = true) (hpc : y.pc = .running) {b : BlockId}
    (bytes : Bytes) (hb : b ∈ y.blocks.tail) : Own l (s.setMem b bytes) := by
  obtain ⟨granted, taken, lost, -, hst, hw⟩ := h.conn k.1
  have ho := ConnPC.isOpen_of_awaits (hT.active hy hact).1
  have htail := (hw.sees hy hact hpc).tail hb
  refine h.handWrite hT hA hy h0 hact (hst.ledger ho (List.mem_of_mem_tail htail)) fun _ hgood => ?_
  rw [show (s.setMem b bytes).mem (s.conns k.1).header = s.mem (s.conns k.1).header from
    Function.update_of_ne (fun he => hst.header_not_tail ho (by rw [he]; exact htail)) _ _]
  exact hgood

/-- The data length is stored in the header block. -/
theorem Handler.Sees.lenBlock {c : Conn} {granted : List BlockId} (hne : c.stripe.blocks ≠ [])
    (h : y.Sees c.header (c.stripe.blocks ++ granted)) : y.lenBlock = c.header := by
  cases hl : y.lang with
  | rust =>
    simp only [Handler.lenBlock, hl]
    exact h.header
  | go =>
    obtain ⟨b, bs, hb⟩ := List.exists_cons_of_ne_nil hne
    obtain ⟨b', bs', hb'⟩ := List.exists_cons_of_ne_nil h.nonempty
    obtain ⟨more, hmore⟩ := h.blocks
    rw [hb', hb] at hmore
    simp only [Handler.lenBlock, hl, Conn.header, hb, hb', List.headD_cons]
    exact (List.cons.inj hmore).1

theorem Own.handLen (h : Own l s) (hT : Tokens s) (hA : Asking s) (hy : s.handlers k = some y)
    (h0 : y.pending = 0) (hact : y.active = true) (hpc : y.pc = .running) (n : UInt32) :
    Own l (s.setMem y.lenBlock (putDataLen (s.mem y.lenBlock) n)) := by
  obtain ⟨granted, taken, lost, -, hst, hw⟩ := h.conn k.1
  have ho := ConnPC.isOpen_of_awaits (hT.active hy hact).1
  rw [(hw.sees hy hact hpc).lenBlock (hst.nonempty ho)]
  refine h.handWrite hT hA hy h0 hact (hst.ledger_header ho) fun _ hgood => ?_
  rw [show (s.setMem _ _).mem (s.conns k.1).header = _ from Function.update_self ..]
  exact hgood.setLen _ n

/-- The blocks that a handler finds are those of the header. -/
theorem Handler.sees_decode {hb : BlockId} {bs : List BlockId} {again : Bool} {pc : HandlerPC}
    (hne : bs ≠ []) (hblk : ∀ b ∈ bs, Blk b) (hsees : again = true → y.Sees hb bs) :
    Handler.Sees { y with
      header := hb
      sequence := encode bs
      blocks := y.resolve again hb (encode bs)
      pc := pc } hb bs := by
  have hblocks : y.resolve again hb (encode bs) = bs := by
    cases hl : y.lang with
    | rust =>
      simp only [Handler.resolve, hl]
      exact resolve_encode_of_ne_nil hblk hne _
    | go =>
      cases again with
      | false =>
        simp only [Handler.resolve, hl]
        exact resolve_encode_of_ne_nil hblk hne _
      | true =>
        have hs := hsees rfl
        obtain ⟨more, hmore⟩ := hs.blocks
        simp only [Handler.resolve, hl, hs.sequence, ← hmore]
        rw [← hmore] at hblk
        rw [resolveFrom_encode_append (fun b hb => hblk b (List.mem_append_left _ hb))
          fun b hb => hblk b (List.mem_append_right _ hb)]
  refine ⟨rfl, ?_, ?_, ?_⟩
  · change y.resolve again hb (encode bs) <+: bs
    rw [hblocks]
  · change y.resolve again hb (encode bs) ≠ []
    rw [hblocks]
    exact hne
  · change encode bs = encode (y.resolve again hb (encode bs))
    rw [hblocks]

theorem Handler.knows_congr {hb : BlockId} {bs : List BlockId} (h : y.Knows hb bs)
    (hpc : y'.pc = y.pc) (hh : y'.header = y.header) (hs : y'.sequence = y.sequence)
    (hblocks : y'.blocks = y.blocks) : y'.Knows hb bs := by
  have hsees : y.Sees hb bs → y'.Sees hb bs := fun h =>
    ⟨hh.trans h.header, by rw [hblocks]; exact h.blocks, by rw [hblocks]; exact h.nonempty,
      by rw [hs, hblocks]; exact h.sequence⟩
  unfold Handler.Knows at h ⊢
  rw [hpc]
  cases hy : y.pc with
  | locate again =>
    rw [hy] at h
    cases again with
    | true => exact hsees h
    | false => trivial
  | running =>
    rw [hy] at h
    exact hsees h
  | decode again b =>
    rw [hy] at h
    exact ⟨h.1, fun ha => hsees (h.2 ha)⟩
  | setDone | respond | finished => trivial

theorem Own.popStep (h : Own l s) (hT : Tokens s) (hA : Asking s) {d : SessionId}
    (hs : PopStep s d t) : Own l t := by
  cases hs with
  | process hq hm =>
    exact h.handUpdate hT hA ⟨rfl, rfl, rfl, rfl, fun _ => rfl⟩ rfl rfl fun _ _ _ _ _ _ => trivial
  | @reply m q k hq hm hw =>
    obtain ⟨y, hy, -, -⟩ := hT.asks.wait d m.slot k hw
    rw [hy, Option.map_some]
    refine h.handUpdate hT hA ⟨rfl, rfl, rfl, rfl, fun _ => rfl⟩ rfl rfl
      fun granted taken lost hst hw hact => ?_
    exact Handler.knows_congr (hw.hand k.2 y hy hact) rfl rfl rfl rfl
  | drop hq hm => exact h.aside hT hA ⟨rfl, rfl, rfl, rfl, fun _ => rfl⟩ rfl rfl

theorem Handler.active_of_running (hpc : y.pc = .running) (hr : y.refused = false) :
    y.active = true := by
  simp [Handler.active, hpc, hr]

theorem Own.handStep (h : Own l s) (hT : Tokens s) (hA : Asking s) {a : HandAct}
    (hwait : Waits s (.hand k a)) (hidle : RefusedIdle s (.hand k a)) (hy : s.handlers k = some y)
    (hs : HandStep s k y a t) : Own l t := by
  have h0 : y.pending = 0 := hwait y hy
  have hact : ∀ {y' : Handler}, y'.active = true → y'.refused = y.refused → y.pc ≠ .finished →
      y.active = true := by
    intro y' hact hr hpc
    simp only [Handler.active, hr, Bool.and_eq_true] at hact
    simp [Handler.active, hact.1, hpc]
  cases hs with
  | @locate again hpc =>
    refine h.handUpdate hT hA ⟨rfl, rfl, rfl, rfl, fun _ => rfl⟩ rfl rfl
      fun granted taken lost hst hw hact' => ?_
    have hya : y.active = true := hact hact' rfl (by rw [hpc]; exact HandlerPC.noConfusion)
    obtain ⟨ha, -, hslot⟩ := hT.active hy hya
    refine ⟨?_, fun hag => ?_⟩
    · rw [hslot]
      exact hst.entry (ConnPC.handed_of_awaits ha)
    · have hk := hw.hand k.2 y hy hya
      simp only [Handler.Knows, hpc, hag] at hk
      exact ⟨hk.header, hk.blocks, hk.nonempty, hk.sequence⟩
  | @decode again b seq hpc hseq =>
    refine h.handUpdate hT hA ⟨rfl, rfl, rfl, rfl, fun _ => rfl⟩ rfl rfl
      fun granted taken lost hst hw hact' => ?_
    have hya : y.active = true := hact hact' rfl (by rw [hpc]; exact HandlerPC.noConfusion)
    have ho := ConnPC.isOpen_of_awaits (hT.active hy hya).1
    have hk := hw.hand k.2 y hy hya
    simp only [Handler.Knows, hpc] at hk
    obtain ⟨rfl, hsees⟩ := hk
    rw [hst.decoded ho] at hseq
    subst hseq
    refine Handler.sees_decode (fun he => hst.nonempty ho (List.append_eq_nil_iff.1 he).1)
      (hst.good ho).blk hsees
  | poke hpc hb =>
    exact h.handPoke hT hA hy h0 (Handler.active_of_running hpc (hidle y hy)) hpc _ hb
  | setLen hpc =>
    exact h.handLen hT hA hy h0 (Handler.active_of_running hpc (hidle y hy)) hpc _
  | request hpc =>
    refine h.handUpdate hT hA ⟨rfl, rfl, rfl, rfl, fun _ => rfl⟩ rfl rfl
      fun granted taken lost hst hw hact' => ?_
    have hya : y.active = true := hact hact' rfl (by rw [hpc]; exact HandlerPC.noConfusion)
    exact Handler.knows_congr (hw.hand k.2 y hy hya) rfl rfl rfl rfl
  | reload hpc =>
    refine h.handUpdate hT hA ⟨rfl, rfl, rfl, rfl, fun _ => rfl⟩ rfl rfl
      fun granted taken lost hst hw hact' => ?_
    have hya : y.active = true := hact hact' rfl (by rw [hpc]; exact HandlerPC.noConfusion)
    have hk := hw.sees hy hya hpc
    exact ⟨hk.header, hk.blocks, hk.nonempty, hk.sequence⟩
  | quit hpc _ _ | finish hpc _ | panic hpc | respond hpc =>
    exact h.handUpdate hT hA ⟨rfl, rfl, rfl, rfl, fun _ => rfl⟩ rfl rfl fun _ _ _ _ _ _ => trivial
  | setDone hpc =>
    have hu : Aside s (s.setReg y.slot { s.reg y.slot with status := .done }) := aside_setReg rfl
    exact h.handUpdate hT hA ⟨rfl, rfl, rfl, rfl, hu.header⟩ rfl rfl fun _ _ _ _ _ _ => trivial

end Hand

/-! ## All steps -/

theorem own_newHub (lossless : Bool) (mem : BlockId → Bytes) : Own lossless (newHub mem) := by
  refine ⟨⟨fun b => ?_, fun _ _ => rfl, fun b i hb => by cases hb⟩, fun i => ⟨[], [], [], fun _ => rfl,
    ⟨⟨List.nodup_nil, fun b => ?_⟩, ?_, fun _ => rfl, fun _ => rfl, ?_, ?_, ?_, ?_⟩, ?_⟩⟩
  · simp [newHub]
  · simp [newHub, Conn.base]
  · exact fun _ _ _ he => by cases he
  · exact fun ho => by cases ho
  · exact fun ho => by cases ho
  · exact fun ho => by cases ho
  · exact fun ho => by cases ho
  · refine ⟨fun _ _ he => ?_, fun _ _ he => ?_, fun _ => rfl, fun _ _ he => ?_⟩ <;> cases he

theorem own_step {a : Action} (h : Own l s) (hT : Tokens s) (hA : Asking s) (hmatch : NoMatch s a)
    (hwait : Waits s a) (hidle : RefusedIdle s a) (hfit : SequencesFit s a)
    (hkeep : l = true → KeepsUp s a) (hs : hub.step s a = some t) : Own l t := by
  have hsess : t = { s with sessions := t.sessions, names := t.names, ids := t.ids } → Own l t := by
    intro ht
    rw [ht]
    exact h.aside hT hA ⟨rfl, rfl, rfl, rfl, fun _ => rfl⟩ rfl rfl
  cases a with
  | dial d name lang => exact hsess (stepDial_eq hs)
  | watch d => exact hsess (hT.slots.stepWatch_eq hmatch hs)
  | conn i a =>
    refine h.connStep hT hA (fun hl hpc hc => ?_) hfit hkeep (connStep_of_step hs)
    obtain rfl := close_of_step hpc hs hc
    exact hkeep hl
  | disp e => exact h.dispStep hT hA (dispStep_of_step hs)
  | exp e a =>
    obtain ⟨x, hx, hst⟩ := expStep_of_step hs
    exact h.expStep hT hA hfit hx hst
  | pop d => exact h.popStep hT hA (popStep_of_step hs)
  | hand k a =>
    obtain ⟨y, hy, hst⟩ := handStep_of_step hs
    exact h.handStep hT hA hwait hidle hy hst

end Mmfg.Hub
