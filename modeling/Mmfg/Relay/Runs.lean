import Mmfg.Relay.Refine

/-!
# One file, passed from hand to hand

`relay_refines_file`: all the parties that a stripe visits see one file, also while the hub expands it
for one of them.  A goroutine that is in its update knows the header as it is (`Inv`), so that what it
writes back is the stripe with the new blocks at its end.
-/

namespace Mmfg.Relay

open File Shm Conn
open Expand (Expander ExpanderAct)

/-! ## Updates of the header -/

section Update

variable {s : State} {all : Stripe}

theorem Holder.Tracks.grow {c : BusConn} {all' : Stripe} {holder : Holder}
    (h : holder.Tracks c all) (hne : holder ≠ .hub) (hb : all.blocks <+: all'.blocks)
    (hheader : all'.header = all.header) (hlen : all'.dataLen = all.dataLen) :
    holder.Tracks c all' := by
  cases holder with
  | hub => exact absurd rfl hne
  | go n =>
    obtain ⟨⟨hbehind, hcount, hr, hw⟩, hpart, hpos, hle⟩ := h
    exact ⟨⟨hbehind.trans hb, hcount, hr, hw⟩,
      ⟨hpart.toBehind.trans hb, hpart.dataLen.trans hlen.symm, hpart.capacity⟩, hpos, hle⟩
  | rust r =>
    obtain ⟨⟨hbehind, hcount, hr, hw⟩, hstripe, hidle, hwritten⟩ := h
    exact ⟨⟨hbehind.trans hb, hcount, hr, hw⟩, hstripe.trans hheader.symm, hidle,
      hlen.symm ▸ hwritten⟩

/-- The header is written, with more blocks or with the same: no file that the stripe shows changes. -/
theorem carries_header (h : Tracks s all) (hne : s.holder ≠ .hub) {blocks : List BlockId} {n : ℕ}
    (hg : Granted all.blocks n blocks) (hfits : Fits (all.blocks ++ blocks)) {bytes : Bytes}
    (hdec : decodeHeader bytes =
      (all.dataLen, (all.blocks ++ blocks).length, encode (all.blocks ++ blocks))) :
    Carries s all (fun g => (g, none))
      { s with mem := Function.update s.mem (headerEntry s.conn.stripe) bytes }
      (all.allocBlocks blocks) none := by
  have hrep := h.rep
  rw [(waiting_of_tracks h hne).behind.headerEntry_eq hrep]
  have hseq : (all.allocBlocks blocks).sequence = encode (all.blocks ++ blocks) := by
    rw [encode_append hrep.blk blocks, ← hrep.sequence]
    rfl
  have hcount : (all.allocBlocks blocks).blockCount = (all.blocks ++ blocks).length := by
    rw [List.length_append, ← hrep.blockCount]
    rfl
  have hheader : (all.allocBlocks blocks).header = all.header := by
    rw [Stripe.header, Stripe.allocBlocks, Stripe.header_cons hrep.nonempty]
    rfl
  have hrep' : Represents (all.allocBlocks blocks) (Function.update s.mem all.header bytes) := by
    refine ⟨hrep.toWf.allocBlocks hg, hseq, hfits, ?_⟩
    rw [hheader, Function.update_self, hdec, hseq, hcount]
    rfl
  refine ⟨⟨hrep', h.readOff, h.writeOff, h.holder.grow hne (List.prefix_append _ _) hheader rfl⟩,
    all.allocBlocks blocks, _, ⟨hrep'.toWf, rfl, ?_, List.prefix_append _ _,
    fun b hb => Function.update_of_ne hb _ _⟩, rfl, fun g hg => ⟨rfl, hg, fun _ _ => rfl⟩⟩
  rw [Stripe.capacity, Stripe.capacity, List.length_tail, List.length_tail]
  simp only [Stripe.allocBlocks, List.length_append]
  exact Nat.mul_le_mul_right _ (by omega)

end Update

/-! ## What the goroutines know -/

/-- The stripe that a goroutine has made from the header is `all`, up to its blocks. -/
def SameMeta (stripe all : Stripe) : Prop :=
  stripe.dataLen = all.dataLen ∧ stripe.blockCount = all.blockCount ∧
    stripe.sequence = all.sequence

/-- One goroutine at most is in its update, only while a node has the stripe, and knows the header. -/
structure Inv (s : Shared) (all : Stripe) : Prop where
  tracks : Tracks s.stripe all
  one : ∀ {i j : ℕ} {x y : Expander}, s.expanders[i]? = some x → s.expanders[j]? = some y → x.inUpdate = true →
    y.inUpdate = true → i = j
  handed : ∀ x ∈ s.expanders, x.inUpdate = true → s.Handed
  current : ∀ x ∈ s.expanders, ∀ stripe, x.current = some stripe → SameMeta stripe all
  granted : ∀ stripe blocks, .allocated stripe blocks ∈ s.expanders → Granted all.blocks 2 blocks

variable {s t : Shared} {all all' : Stripe} {i : ℕ} {x x' : Expander} {res : Option (Result UInt8)}

/-- While there is no update, there is nothing that a goroutine has to know. -/
theorem Inv.quiet (htracks : Tracks s.stripe all) (hno : s.NoUpdate) : Inv s all where
  tracks := htracks
  one hx _ hin _ := nomatch hin.symm.trans (hno _ (List.mem_of_getElem? hx))
  handed x hx hin := nomatch hin.symm.trans (hno x hx)
  current x hx _ hst :=
    nomatch (Expander.inUpdate_of_current hst).symm.trans (hno x hx)
  granted _ _ hx := nomatch hno _ hx

theorem Inv.own {stripe : State} (h : Inv s all) (htracks : Tracks stripe all)
    (hhanded : s.Handed → stripe.holder ≠ .hub) : Inv ⟨stripe, s.expanders⟩ all where
  tracks := htracks
  one := h.one
  handed x hx hin := hhanded (h.handed x hx hin)
  current := h.current
  granted := h.granted

theorem Inv.request (h : Inv s all) : Inv ⟨s.stripe, s.expanders ++ [.started]⟩ all := by
  have hold : ∀ {j : ℕ} {y : Expander}, (s.expanders ++ [.started])[j]? = some y → y.inUpdate = true →
      s.expanders[j]? = some y := by
    intro j y hy hin
    rcases lt_or_ge j s.expanders.length with hlt | hge
    · rwa [List.getElem?_append_left hlt] at hy
    · obtain rfl : y = .started := by
        rw [List.getElem?_append_right hge] at hy
        exact List.mem_singleton.1 (List.mem_of_getElem? hy)
      cases hin
  have hmem : ∀ {y : Expander}, y ∈ s.expanders ++ [.started] → y.inUpdate = true → y ∈ s.expanders := by
    intro y hy hin
    obtain ⟨j, hj⟩ := List.getElem?_of_mem hy
    exact List.mem_of_getElem? (hold hj hin)
  exact
    { tracks := h.tracks
      one := fun hx hy hin hin' => h.one (hold hx hin) (hold hy hin') hin hin'
      handed := fun x hx hin => h.handed x (hmem hx hin) hin
      current := fun x hx stripe hst =>
        h.current x (hmem hx (Expander.inUpdate_of_current hst)) stripe hst
      granted := fun stripe blocks hx => h.granted stripe blocks (hmem hx rfl) }

/-- The goroutine that is in its update goes on, and the others are not in theirs. -/
theorem Inv.update {stripe : State} (hx : s.expanders[i]? = some x) (htracks : Tracks stripe all')
    (hholder : stripe.holder = s.stripe.holder)
    (hothers : ∀ {j : ℕ} {y : Expander}, s.expanders[j]? = some y → j ≠ i → y.inUpdate = false)
    (hhanded : x'.inUpdate = true → s.Handed)
    (hcurrent : ∀ st, x'.current = some st → SameMeta st all')
    (hgranted : ∀ st blocks, x' = .allocated st blocks → Granted all'.blocks 2 blocks) :
    Inv ⟨stripe, s.expanders.set i x'⟩ all' := by
  have hold : ∀ {j : ℕ} {y : Expander}, (s.expanders.set i x')[j]? = some y → y.inUpdate = true → j = i ∧ y = x' := by
    intro j y hy hin
    by_cases hj : i = j
    · subst hj
      rw [List.getElem?_set_self (List.getElem?_eq_some_iff.1 hx).1] at hy
      exact ⟨rfl, (Option.some.inj hy).symm⟩
    · rw [List.getElem?_set_ne hj] at hy
      exact nomatch hin.symm.trans (hothers hy (Ne.symm hj))
  have hmem : ∀ {y : Expander}, y ∈ s.expanders.set i x' → y.inUpdate = true → y = x' := by
    intro y hy hin
    obtain ⟨j, hj⟩ := List.getElem?_of_mem hy
    exact (hold hj hin).2
  exact
    { tracks := htracks
      one := fun hx hy hin hin' => (hold hx hin).1.trans (hold hy hin').1.symm
      handed := fun y hy hin => by
        rw [Shared.Handed, hholder]
        exact hhanded (hmem hy hin ▸ hin)
      current := fun y hy st hst =>
        hcurrent st (hmem hy (Expander.inUpdate_of_current hst) ▸ hst)
      granted := fun st blocks hy => hgranted st blocks (hmem hy rfl).symm }

theorem Inv.answer (h : Inv s all) (hx : s.expanders[i]? = some x) (hin : x'.inUpdate = false) :
    Inv ⟨s.stripe, s.expanders.set i x'⟩ all := by
  have hold : ∀ {j : ℕ} {y : Expander}, (s.expanders.set i x')[j]? = some y → y.inUpdate = true →
      s.expanders[j]? = some y := by
    intro j y hy hin'
    by_cases hj : i = j
    · subst hj
      rw [List.getElem?_set_self (List.getElem?_eq_some_iff.1 hx).1] at hy
      obtain rfl := Option.some.inj hy
      exact nomatch hin'.symm.trans hin
    · rwa [List.getElem?_set_ne hj] at hy
  have hmem : ∀ {y : Expander}, y ∈ s.expanders.set i x' → y.inUpdate = true → y ∈ s.expanders := by
    intro y hy hin'
    obtain ⟨j, hj⟩ := List.getElem?_of_mem hy
    exact List.mem_of_getElem? (hold hj hin')
  exact
    { tracks := h.tracks
      one := fun hx hy hin hin' => h.one (hold hx hin) (hold hy hin') hin hin'
      handed := fun y hy hin => h.handed y (hmem hy hin) hin
      current := fun y hy st hst => h.current y (hmem hy (Expander.inUpdate_of_current hst)) st hst
      granted := fun st blocks hy => h.granted st blocks (hmem hy rfl) }

/-! ## Steps -/

theorem handed_of_step {st st' : State} {e : Event} (hs : st.step e = some (st', res))
    (hno : e.stores = false) (hne : st.holder ≠ .hub) : st'.holder ≠ .hub := by
  obtain ⟨c, holder, mem⟩ := st
  cases e with
  | call | finish => cases hno
  | next lang => cases holder <;> first | exact absurd rfl hne | cases hs
  | goCall call =>
    cases holder with
    | go n =>
      obtain ⟨r, -, hr⟩ := Option.map_eq_some_iff.1 hs
      cases hr
      exact nofun
    | hub | rust => cases hs
  | onExpandComplete =>
    cases holder with
    | go n =>
      cases hs
      exact nofun
    | hub | rust => cases hs
  | access chunks a =>
    cases holder with
    | rust r =>
      obtain ⟨r, -, hr⟩ := Option.map_eq_some_iff.1 hs
      cases hr
      exact nofun
    | hub | go => cases hs
  | store b data =>
    cases hs
    exact hne

/-- What a step does to the file. -/
def Shared.effect (s : Shared) : Act → Handle UInt8 → Handle UInt8 × Option (Result UInt8)
  | .own e => fun g => fileEvent g (s.stripe.refusal e) e
  | .request | .expander .. => fun g => (g, none)

theorem carries_refl (h : Tracks s.stripe all) :
    Carries s.stripe all (fun g => (g, none)) s.stripe all none :=
  .same h h fun _ hg => ⟨rfl, hg, rfl⟩

theorem inv_expander {a : ExpanderAct} (h : Inv s all) (hok : s.Allows (.expander i a))
    (hs : s.step (.expander i a) = some (t, res)) :
    ∃ all', Inv t all' ∧ Carries s.stripe all (fun g => (g, none)) t.stripe all' res := by
  have hrep := h.tracks.rep
  obtain ⟨x, hx, hs⟩ := Option.bind_eq_some_iff.1 hs
  obtain ⟨⟨x', bytes⟩, hadv, hs⟩ := Option.map_eq_some_iff.1 hs
  cases hs
  have hmemx := List.mem_of_getElem? hx
  have hothers : x.inUpdate = true → ∀ {j : ℕ} {y : Expander}, s.expanders[j]? = some y → j ≠ i →
      y.inUpdate = false := by
    intro hin j y hy hj
    by_contra hne
    exact hj (h.one hy hx (Bool.eq_true_of_not_eq_false hne) hin)
  cases Expander.advance_cases hadv with
  | decode =>
    obtain ⟨hhanded, hno⟩ := hok
    have hentry := (waiting_of_tracks h.tracks hhanded).behind.headerEntry_eq hrep
    simp only [Function.update_eq_self]
    refine ⟨all, Inv.update hx h.tracks rfl (fun hy _ => hno _ (List.mem_of_getElem? hy))
      (fun _ => hhanded) (fun st hst => ?_) (by simp), carries_refl h.tracks⟩
    cases hst
    rw [hentry, Expand.decodeStripe, hrep.header]
    exact ⟨rfl, rfl, rfl⟩
  | alloc stripe blocks =>
    simp only [Function.update_eq_self]
    refine ⟨all, Inv.update hx h.tracks rfl (hothers rfl) (fun _ => h.handed _ hmemx rfl)
      (fun st hst => h.current _ hmemx st hst) (fun st bs hbs => ?_), carries_refl h.tracks⟩
    cases hbs
    exact blocks_eq h.tracks ▸ hok
  | fail stripe =>
    simp only [Function.update_eq_self]
    exact ⟨all, h.answer hx rfl, carries_refl h.tracks⟩
  | extend stripe blocks =>
    obtain ⟨hlen, hcount, hseq⟩ := h.current _ hmemx stripe rfl
    have hhanded := h.handed _ hmemx rfl
    have hseq' : (stripe.allocBlocks blocks).sequence = encode (all.blocks ++ blocks) := by
      rw [encode_append hrep.blk blocks, ← hrep.sequence, ← hseq]
      rfl
    have hcount' : (stripe.allocBlocks blocks).blockCount = (all.blocks ++ blocks).length := by
      rw [List.length_append, ← hrep.blockCount, ← hcount]
      rfl
    have hfits : Fits (all.blocks ++ blocks) := by
      rw [fits_iff, ← hseq']
      exact hok _ hx
    have hdec : decodeHeader ((stripe.allocBlocks blocks).updateHeader
        (s.stripe.mem (headerEntry s.stripe.conn.stripe))) =
        (all.dataLen, (all.blocks ++ blocks).length, encode (all.blocks ++ blocks)) := by
      rw [Stripe.updateHeader, hseq', hcount', decodeHeader_encode hfits, ← hlen]
      rfl
    have hcarries := carries_header h.tracks hhanded (h.granted stripe blocks hmemx) hfits hdec
    refine ⟨all.allocBlocks blocks, Inv.update hx hcarries.1 rfl (hothers rfl) (fun _ => hhanded)
      (fun st hst => ?_) (by simp), hcarries⟩
    cases hst
    refine ⟨hlen, ?_, ?_⟩
    · rw [Stripe.allocBlocks, Stripe.allocBlocks, hcount]
    · rw [Stripe.allocBlocks, Stripe.allocBlocks, hseq]
  | rewrite stripe blocks =>
    obtain ⟨hlen, hcount, hseq⟩ := h.current _ hmemx stripe rfl
    have hhanded := h.handed _ hmemx rfl
    have hnone : Granted all.blocks 0 [] := ⟨rfl, by simp, List.nodup_nil, by simp⟩
    have hfits : Fits (all.blocks ++ []) := by
      rw [List.append_nil]
      exact hrep.fits
    have hdec : decodeHeader (stripe.updateHeader
        (s.stripe.mem (headerEntry s.stripe.conn.stripe))) =
        (all.dataLen, (all.blocks ++ []).length, encode (all.blocks ++ [])) := by
      rw [List.append_nil, Stripe.updateHeader, hseq, hcount, hrep.sequence, hrep.blockCount,
        decodeHeader_encode hrep.fits, hlen]
    have hcarries := carries_header h.tracks hhanded hnone hfits hdec
    refine ⟨_, Inv.update hx hcarries.1 rfl (hothers rfl) (by simp [Expander.inUpdate])
      (by simp [Expander.current]) (by simp), hcarries⟩
  | respond grant =>
    simp only [Function.update_eq_self]
    exact ⟨all, h.answer hx rfl, carries_refl h.tracks⟩

theorem inv_step {a : Act} (h : Inv s all) (hok : s.Allows a) (hs : s.step a = some (t, res)) :
    ∃ all', Inv t all' ∧ Carries s.stripe all (s.effect a) t.stripe all' res := by
  cases a with
  | own e =>
    obtain ⟨⟨stripe, r⟩, hstep, hs⟩ := Option.map_eq_some_iff.1 hs
    cases hs
    obtain ⟨all', hsame, hcarries⟩ := carried_step h.tracks hok.1 hstep
    refine ⟨all', ?_, hcarries⟩
    cases he : e.stores with
    | true => exact .quiet hcarries.1 (hok.2 he)
    | false =>
      obtain rfl := hsame he
      exact h.own hcarries.1 fun hne => handed_of_step hstep he hne
  | request =>
    cases hs
    exact ⟨all, h.request, carries_refl h.tracks⟩
  | expander i a => exact inv_expander h hok hs

/-! ## Whole runs -/

/-- The event as the reference sees it. -/
def Entry.request (e : Entry) : Event × Option IOError := (e.event, e.refused)

/-- The contents of a block are those that it had when it was allocated, so they are found from the
last step to the first. -/
theorem Carries.contents {s s' : State}
    {effect : Handle UInt8 → Handle UInt8 × Option (Result UInt8)} (h : Tracks s all)
    (hc : Carries s all effect s' all' res) {f' : ℕ → UInt8}
    (hf' : ∀ i < all'.capacity, f' i = all'.content s'.mem i) :
    ∃ f : ℕ → UInt8, (∀ i < all.capacity, f i = all.content s.mem i) ∧
      effect ((s.view all).handle f) = ((s'.view all').handle f', res) := by
  obtain ⟨-, all₁, mem₁, hgrown, hblocks, hfile⟩ := hc
  set f : ℕ → UInt8 := fun i => if i < all₁.capacity then all₁.content mem₁ i else f' i with hfdef
  have hcap : all'.capacity = all₁.capacity := by rw [Stripe.capacity, hblocks, Stripe.capacity]
  have hsame : (s.view all₁).handle f = (s.view all).handle f := by
    simp only [BusConn.handle, State.view, hgrown.dataLen]
  have hshow : Shows (s.view all₁) mem₁ ((s.view all).handle f) := by
    rw [← hsame]
    exact shows_handle (c := s.view all₁) hgrown.wf h.readOff h.writeOff fun i hi => if_pos hi
  obtain ⟨hresult, hnext, hbeyond⟩ := hfile _ hshow
  refine ⟨f, fun i hi => ?_, Prod.ext (hnext.eq_handle hf' fun i hi => ?_) hresult⟩
  · rw [hfdef]
    dsimp only
    rw [if_pos (lt_of_lt_of_le hi hgrown.capacity)]
    exact hgrown.content h.rep.toWf hi
  · change all'.capacity ≤ i at hi
    rw [hbeyond i (by omega)]
    exact if_neg (by omega)

/-- The steps of goroutine `i` up to its answer. -/
def expansion (i : ℕ) (blocks : List BlockId) : List Act :=
  [.expander i .decode, .expander i (.alloc (some blocks)), .expander i .update,
    .expander i .update, .expander i .respond]

end Mmfg.Relay
