import Mmfg.View.Viewer

/-!
# Searching in a viewer

`Viewer.Index` looks for the first byte of the target in one segment after the other.  A candidate is
compared within its segment if the target ends there, and else byte by byte over the following
segments.  What it returns is the first position of the concatenation at which the target occurs
(`index_first`).
-/

namespace Mmfg.View

open Search Segments

variable {ι : Type}

namespace Viewer

/-- The loop of `matchAcrossSegments`, at the first byte of what is left of the target. -/
def matchAcrossSegments (v : Viewer ι) (mem : ι → UInt8) : List UInt8 → ℕ → ℕ → Except Err Bool
  | [], _, _ => .ok true
  | want :: target, currSegIdx, currOff =>
    match v.segments[currSegIdx]? with
    | none => .error .panic
    | some seg =>
      let pos := if currOff ≥ seg.length then (currSegIdx + 1, 0) else (currSegIdx, currOff)
      if pos.1 ≥ v.segments.length then .ok false
      else
        match v.cellAt pos with
        | none => .error .panic
        | some c =>
          if mem c ≠ want then .ok false else v.matchAcrossSegments mem target pos.1 (pos.2 + 1)

/-- The comparison of the candidate at `absMatchPos` of segment `i`. -/
def matchAt (v : Viewer ι) (mem : ι → UInt8) (target : List UInt8) (i : ℕ) (seg : List ι)
    (absMatchPos : ℕ) : Except Err Bool :=
  if absMatchPos + target.length ≤ seg.length then
    .ok (decide (((seg.drop absMatchPos).take target.length).map mem = target))
  else v.matchAcrossSegments mem target i absMatchPos

/-- `bytes.IndexByte`. -/
def indexByte (data : List UInt8) (b : UInt8) : Option ℕ := data.findIdx? (· == b)

/-- The inner loop of `Index`, over the candidates of segment `i` from `startIdx` on.  Every round
moves `startIdx`, so that the length of the segment is fuel enough. -/
def indexSegment (v : Viewer ι) (mem : ι → UInt8) (firstByte : UInt8) (target : List UInt8) (i : ℕ)
    (seg : List ι) : ℕ → ℕ → Except Err (Option ℕ)
  | 0, _ => .ok none
  | fuel + 1, startIdx =>
    if startIdx < seg.length then
      match indexByte ((seg.drop startIdx).map mem) firstByte with
      | none => .ok none
      | some matchPos =>
        match v.matchAt mem target i seg (startIdx + matchPos) with
        | .error err => .error err
        | .ok true => .ok (some (startIdx + matchPos))
        | .ok false => v.indexSegment mem firstByte target i seg fuel (startIdx + matchPos + 1)
    else .ok none

/-- The outer loop of `Index`, from segment `i` on. -/
def indexLoop (v : Viewer ι) (mem : ι → UInt8) (firstByte : UInt8) (target : List UInt8) :
    ℕ → List (List ι) → Except Err (Option ℕ)
  | _, [] => .ok none
  | i, seg :: segs =>
    match v.offsets[i]? with
    | none => .error .panic
    | some currentOff =>
      match v.indexSegment mem firstByte target i seg seg.length 0 with
      | .error err => .error err
      | .ok (some pos) => .ok (some (currentOff + pos))
      | .ok none => v.indexLoop mem firstByte target (i + 1) segs

/-- `Index`. -/
def index (v : Viewer ι) (mem : ι → UInt8) : List UInt8 → Except Err ℤ
  | [] => .ok 0
  | firstByte :: rest =>
    match v.indexLoop mem firstByte (firstByte :: rest) 0 v.segments with
    | .error err => .error err
    | .ok (some pos) => .ok pos
    | .ok none => .ok (-1)

end Viewer

end Mmfg.View

namespace Mmfg.Rust.Viewer

open View

variable {ι : Type}

/-- The loops of `index` and `match_across_segments` are those of Go, statement by statement. -/
def index (v : View.Viewer ι) (mem : ι → UInt8) : List UInt8 → Except Err (Option ℕ)
  | [] => .ok (some 0)
  | firstByte :: rest => v.indexLoop mem firstByte (firstByte :: rest) 0 v.segments

end Mmfg.Rust.Viewer

namespace Mmfg.View

open Search Segments

/-- The target occurs at position `p` of the text. -/
def Occurs (target text : List UInt8) (p : ℕ) : Prop := target <+: text.drop p

instance (target text : List UInt8) (p : ℕ) : Decidable (Occurs target text p) :=
  inferInstanceAs (Decidable (_ <+: _))

section Match

variable {ι : Type} {v : Viewer ι} {mem : ι → UInt8} {target : List UInt8} {seg : List ι}
  {i off startIdx : ℕ} {firstByte : UInt8}

/-- The text from position `off` of segment `i` on. -/
def textFrom (v : Viewer ι) (mem : ι → UInt8) (i : ℕ) (seg : List ι) (off : ℕ) : List UInt8 :=
  (seg.drop off ++ (v.segments.drop (i + 1)).flatten).map mem

theorem textFrom_cons (hoff : off < seg.length) :
    textFrom v mem i seg off = mem seg[off] :: textFrom v mem i seg (off + 1) := by
  rw [textFrom, List.drop_eq_getElem_cons hoff]
  rfl

theorem textFrom_end {next : List ι} (hnext : v.segments[i + 1]? = some next) :
    textFrom v mem i seg seg.length = textFrom v mem (i + 1) next 0 := by
  obtain ⟨hlt, hget⟩ := List.getElem?_eq_some_iff.1 hnext
  rw [textFrom, textFrom, List.drop_length, List.nil_append, List.drop_eq_getElem_cons hlt, hget,
    List.flatten_cons, List.drop_zero]

theorem textFrom_last (hlast : v.segments.length ≤ i + 1) : textFrom v mem i seg seg.length = [] := by
  rw [textFrom, List.drop_length, List.drop_of_length_le hlast]
  rfl

theorem matchAcrossSegments_eq (hne : ∀ seg ∈ v.segments, seg ≠ []) (hseg : v.segments[i]? = some seg)
    (hoff : off ≤ seg.length) :
    v.matchAcrossSegments mem target i off = .ok (decide (target <+: textFrom v mem i seg off)) := by
  induction target generalizing i off seg with
  | nil =>
    rw [Viewer.matchAcrossSegments, decide_eq_true (List.nil_prefix)]
  | cons want target ih =>
    -- one byte, at a position within a segment
    have hbyte : ∀ {i off : ℕ} {seg : List ι}, v.segments[i]? = some seg → off < seg.length →
        (match v.cellAt (i, off) with
          | none => .error .panic
          | some c =>
            if mem c ≠ want then .ok false
            else v.matchAcrossSegments mem target i (off + 1)) =
          (.ok (decide (want :: target <+: textFrom v mem i seg off)) : Except Err Bool) := by
      intro i off seg hseg hoff
      rw [Viewer.cellAt, hseg, Option.bind_some, List.getElem?_eq_getElem hoff, textFrom_cons hoff]
      dsimp only
      split_ifs with hc
      · rw [decide_eq_false]
        rw [List.cons_prefix_cons]
        exact fun h => hc h.1.symm
      · rw [ih hseg hoff, decide_eq_decide.2]
        rw [List.cons_prefix_cons, not_not.1 hc]
        exact ⟨fun h => ⟨rfl, h⟩, fun h => h.2⟩
    obtain ⟨hi, -⟩ := List.getElem?_eq_some_iff.1 hseg
    rw [Viewer.matchAcrossSegments, hseg]
    dsimp only
    by_cases hend : off ≥ seg.length
    · obtain rfl : off = seg.length := by omega
      rw [if_pos hend]
      by_cases hlast : i + 1 ≥ v.segments.length
      · rw [if_pos hlast, textFrom_last hlast, decide_eq_false]
        exact fun h => List.cons_ne_nil _ _ (List.prefix_nil.1 h)
      · have hnext := List.getElem?_eq_getElem (Nat.lt_of_not_le hlast)
        have hpos := List.length_pos_iff.2 (hne _ (List.mem_of_getElem? hnext))
        rw [if_neg hlast, textFrom_end hnext]
        exact hbyte hnext hpos
    · rw [if_neg hend, if_neg (by dsimp only; omega)]
      exact hbyte hseg (by omega)

/-- Both ways to compare a candidate tell whether the target occurs there. -/
theorem matchAt_eq (hne : ∀ seg ∈ v.segments, seg ≠ []) (hseg : v.segments[i]? = some seg)
    (hoff : off ≤ seg.length) :
    v.matchAt mem target i seg off = .ok (decide (target <+: textFrom v mem i seg off)) := by
  rw [Viewer.matchAt]
  split_ifs with hfits
  · have htake : (textFrom v mem i seg off).take target.length =
        ((seg.drop off).take target.length).map mem := by
      rw [textFrom, ← List.map_take, List.take_append_of_le_length]
      rw [List.length_drop]
      omega
    rw [decide_eq_decide.2]
    rw [List.prefix_iff_eq_take, htake]
    exact ⟨Eq.symm, Eq.symm⟩
  · exact matchAcrossSegments_eq hne hseg hoff

theorem first_of_occurs {rest : List UInt8} (hoff : off < seg.length)
    (h : firstByte :: rest <+: textFrom v mem i seg off) : mem seg[off] = firstByte := by
  rw [textFrom_cons hoff, List.cons_prefix_cons] at h
  exact h.1.symm

theorem none_before {rest : List UInt8} {stop : ℕ} (hstop : stop ≤ seg.length)
    (h : ∀ k, startIdx + k < stop → ∀ c ∈ seg[startIdx + k]?, mem c ≠ firstByte) :
    First (fun p => firstByte :: rest <+: textFrom v mem i seg p) startIdx stop none := by
  intro q hlo hhi hocc
  obtain ⟨k, rfl⟩ := Nat.exists_eq_add_of_le hlo
  have hlt : startIdx + k < seg.length := by omega
  exact h k hhi seg[startIdx + k] (List.getElem?_eq_getElem hlt) (first_of_occurs hlt hocc)

/-- The inner loop finds the first position of the segment at which the target occurs. -/
theorem indexSegment_first (mem : ι → UInt8) (firstByte : UInt8) (rest : List UInt8)
    (hne : ∀ seg ∈ v.segments, seg ≠ []) (hseg : v.segments[i]? = some seg) (startIdx fuel : ℕ)
    (hfuel : seg.length ≤ startIdx + fuel) :
    ∃ r, v.indexSegment mem firstByte (firstByte :: rest) i seg fuel startIdx = .ok r ∧
      First (fun p => firstByte :: rest <+: textFrom v mem i seg p) startIdx seg.length r := by
  induction fuel generalizing startIdx with
  | zero => exact ⟨none, rfl, fun q hlo hhi => by omega⟩
  | succ fuel ih =>
    rw [Viewer.indexSegment]
    by_cases hstart : startIdx < seg.length
    · rw [if_pos hstart]
      cases hidx : Viewer.indexByte ((seg.drop startIdx).map mem) firstByte with
      | none =>
        refine ⟨none, rfl, none_before le_rfl fun k _ c hc => ?_⟩
        rw [← List.getElem?_drop] at hc
        have := List.findIdx?_eq_none_iff.1 hidx (mem c)
          (List.mem_map_of_mem (List.mem_of_getElem? hc))
        simpa using this
      | some k =>
        obtain ⟨hk, -, hbefore⟩ := List.findIdx?_eq_some_iff_getElem.1 hidx
        rw [List.length_map, List.length_drop] at hk
        have hcand : startIdx + k < seg.length := by omega
        have hskip : First (fun p => firstByte :: rest <+: textFrom v mem i seg p) startIdx
            (startIdx + k) none := by
          refine none_before hcand.le fun j hj c hc => ?_
          have hjk : j < k := by omega
          have hget : ((seg.drop startIdx).map mem)[j]? = some (mem c) := by
            rw [List.getElem?_map, List.getElem?_drop, hc]
            rfl
          have := hbefore j hjk
          rw [(List.getElem?_eq_some_iff.1 hget).2] at this
          simpa using this
        dsimp only
        rw [matchAt_eq hne hseg hcand.le]
        by_cases hocc : firstByte :: rest <+: textFrom v mem i seg (startIdx + k)
        · rw [decide_eq_true hocc]
          refine ⟨some (startIdx + k), rfl, hskip.append ⟨le_rfl, hcand, hocc, ?_⟩ (by omega)⟩
          exact fun q hlo hhi => by omega
        · rw [decide_eq_false hocc]
          obtain ⟨r, hr, hfirst⟩ := ih (startIdx + k + 1) (by omega)
          have hone : First (fun p => firstByte :: rest <+: textFrom v mem i seg p) (startIdx + k)
              (startIdx + k + 1) none := by
            intro q hlo hhi
            obtain rfl : q = startIdx + k := by omega
            exact hocc
          exact ⟨r, hr, hskip.append (hone.append hfirst (by omega)) (by omega)⟩
    · rw [if_neg hstart]
      exact ⟨none, rfl, fun q hlo hhi => by omega⟩

end Match

section Index

variable {ι : Type} {v : Viewer ι}

/-- The outer loop finds the first position from segment `i` on. -/
theorem indexLoop_first (mem : ι → UInt8) (firstByte : UInt8) (rest : List UInt8)
    (hne : ∀ seg ∈ v.segments, seg ≠ []) (hoff : v.offsets = starts 0 v.segments) {i : ℕ}
    {segs : List (List ι)} (hsegs : v.segments.drop i = segs) :
    ∃ r, v.indexLoop mem firstByte (firstByte :: rest) i segs = .ok r ∧
      First (Occurs (firstByte :: rest) (v.bytes mem)) (v.segments.take i).flatten.length
        (v.bytes mem).length r := by
  induction segs generalizing i with
  | nil =>
    refine ⟨none, rfl, fun q hlo hhi => ?_⟩
    rw [List.take_of_length_le (List.drop_eq_nil_iff.1 hsegs)] at hlo
    rw [Viewer.bytes, List.length_map] at hhi
    omega
  | cons seg segs ih =>
    have hseg : v.segments[i]? = some seg := by
      rw [← List.head?_drop, hsegs, List.head?_cons]
    have hsucc : v.segments.drop (i + 1) = segs := by
      rw [← List.tail_drop, hsegs, List.tail_cons]
    have hstart : v.offsets[i]? = some (v.segments.take i).flatten.length := by
      rw [hoff]
      exact getElem?_starts_iff.2 ⟨(List.getElem?_eq_some_iff.1 hseg).1, rfl⟩
    obtain ⟨r, hr, hfirst⟩ := indexSegment_first mem firstByte rest hne hseg 0 seg.length
      (Nat.zero_add seg.length).ge
    have hwhole := hfirst.shift (P := Occurs (firstByte :: rest) (v.bytes mem))
      (d := (v.segments.take i).flatten.length) fun q hq => by
        rw [Occurs, Viewer.bytes, ← List.map_drop, drop_flatten hseg hq.le]
        rfl
    rw [Nat.add_zero, ← length_flatten_take_succ hseg] at hwhole
    rw [Viewer.indexLoop, hstart]
    dsimp only
    rw [hr]
    cases r with
    | none =>
      obtain ⟨r, hr, hlater⟩ := ih hsucc
      exact ⟨r, hr, hwhole.append hlater (length_flatten_take_le (Nat.le_succ i))⟩
    | some p =>
      refine ⟨_, rfl, hwhole.extend ?_⟩
      rw [Viewer.bytes, List.length_map]
      exact length_flatten_take_le_length

end Index

/-- `Index` returns the least position at which the target occurs, and -1 if it occurs nowhere; Rust
returns the same.  An empty target occurs at 0. -/
theorem index_first {ι : Type} (v : Viewer ι) (hne : ∀ seg ∈ v.segments, seg ≠ [])
    (hoff : v.offsets = starts 0 v.segments) (mem : ι → UInt8) (target : List UInt8) :
    ∃ r : Option ℕ, v.index mem target = .ok (r.elim (-1) Int.ofNat) ∧
      Rust.Viewer.index v mem target = .ok r ∧
      (∀ p, r = some p ↔ Occurs target (v.bytes mem) p ∧ ∀ q < p, ¬ Occurs target (v.bytes mem) q) ∧
      (r = none ↔ ∀ p, ¬ Occurs target (v.bytes mem) p) := by
  cases target with
  | nil =>
    refine ⟨some 0, rfl, rfl, fun p => ⟨?_, fun hp => ?_⟩, nofun, fun h => ?_⟩
    · rintro ⟨⟩
      exact ⟨List.nil_prefix, fun q hq => absurd hq (Nat.not_lt_zero q)⟩
    · rcases Nat.eq_zero_or_pos p with rfl | hpos
      · rfl
      · exact absurd List.nil_prefix (hp.2 0 hpos)
    · exact absurd List.nil_prefix (h 0)
  | cons firstByte rest =>
    obtain ⟨r, hr, hfirst⟩ := indexLoop_first mem firstByte rest hne hoff
      (List.drop_zero (l := v.segments))
    have hout : ∀ q, (v.bytes mem).length ≤ q → ¬ Occurs (firstByte :: rest) (v.bytes mem) q := by
      intro q hq h
      rw [Occurs, List.drop_of_length_le hq, List.prefix_nil] at h
      cases h
    obtain ⟨hsome, hnone⟩ := First.least hfirst hout
    refine ⟨r, ?_, hr, hsome, hnone⟩
    rw [Viewer.index, hr]
    cases r with
    | none => rfl
    | some p => rfl

/-- The target begins with a false candidate and spans three segments. -/
theorem index_first_threeSegments :
    Occurs [1, 2, 3, 4] ((⟨[[1, 1], [2, 3], [4]], [0, 2, 4], 5⟩ : Viewer UInt8).bytes id) 1 ∧
    (⟨[[1, 1], [2, 3], [4]], [0, 2, 4], 5⟩ : Viewer UInt8).index id [1, 2, 3, 4] = .ok 1 ∧
    Rust.Viewer.index (⟨[[1, 1], [2, 3], [4]], [0, 2, 4], 5⟩ : Viewer UInt8) id [1, 2, 3, 4] =
      .ok (some 1) := by
  obtain ⟨r, hgo, hrust, hsome, -⟩ := index_first
    (⟨[[1, 1], [2, 3], [4]], [0, 2, 4], 5⟩ : Viewer UInt8) (by decide) (by decide) id [1, 2, 3, 4]
  have hr : r = some 1 := (hsome 1).2 (by decide)
  rw [hr] at hgo hrust
  exact ⟨((hsome 1).1 hr).1, hgo, hrust⟩

end Mmfg.View
