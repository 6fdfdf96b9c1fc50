import CommandTemplate.Proofs.Cursor
import CommandTemplate.Proofs.Lookahead

namespace CommandTemplate

namespace Walk

variable {α β : Type}

theorem bind_eq_of_ok {w : Walk α} {f : α → Walk β} {c c' : Cursor} {a : α}
    (h : w c = some (.ok a, c')) : (w >>= f) c = f a c' := by
  change w.andThen f c = f a c'
  simp only [andThen, h]

theorem bind_eq_of_error {w : Walk α} {f : α → Walk β} {c c' : Cursor} {h : Halt}
    (hw : w c = some (.error h, c')) : (w >>= f) c = some (.error h, c') := by
  change w.andThen f c = some (.error h, c')
  simp only [andThen, hw]

end Walk

namespace Tape

/-- No token ends before itself or an earlier one starts. -/
def Ordered (T : Tape) : Prop :=
  ∀ (i j : Nat) (t u : Token), i ≤ j → T.tokens[i]? = some t → T.tokens[j]? = some u →
    t.start ≤ u.stop

/-- What holds between the places where a reader stands before and after it reported `log`. -/
structure Continues (T : Tape) (c : Cursor) (log : List Diagnostic) (c' : Cursor) : Prop where
  log : c'.log = c.log ++ log
  deepest : c.deepest ≤ maxNesting → c'.deepest ≤ maxNesting
  exact : T.Ordered → c.exact = true → c'.exact = true

/-- Reading by position ends with what `x` yields, and in case of success at the position `stop`
with as many groups open as before. -/
def Agrees {α : Type} (T : Tape) (w : Walk α) (c : Cursor) (stop : Nat) (x : Logged α) : Prop :=
  ∃ c', w c = some (x.result.mapError .problem, c') ∧ T.Continues c x.log c' ∧
    ∀ a, x.result = .ok a → c'.pos = stop ∧ c'.depth = c.depth

namespace Agrees

open Logged

variable {α β : Type} {T : Tape} {c : Cursor} {stop : Nat}

theorem pure (a : α) (h : c.pos = stop) : T.Agrees (pure a) c stop (pure a : Logged α) :=
  ⟨c, rfl, ⟨by simp [pure_def, Logged.value], id, fun _ => id⟩, fun _ _ => ⟨h, rfl⟩⟩

theorem abort (p : Problem) : T.Agrees (Walk.halt (.problem p)) c stop (abort p : Logged α) := by
  refine ⟨c, rfl, ⟨by simp [Logged.abort], id, fun _ => id⟩, ?_⟩
  intro a ha
  cases ha

theorem bind {w : Walk α} {f : α → Walk β} {x : Logged α} {g : α → Logged β} {middle : Nat}
    (hw : T.Agrees w c middle x)
    (hf : ∀ a c', c'.pos = middle → c'.depth = c.depth → T.Agrees (f a) c' stop (g a)) :
    T.Agrees (w >>= f) c stop (x >>= g) := by
  obtain ⟨c', hc, ⟨hlog, hdeep, hexact⟩, hend⟩ := hw
  cases hx : x.result with
  | error p =>
    rw [hx] at hc
    refine ⟨c', ?_, ?_, ?_⟩
    · simp only [bind_def, andThen, hx]
      exact Walk.bind_eq_of_error hc
    · simp only [bind_def, andThen, hx]
      exact ⟨hlog, hdeep, hexact⟩
    · simp [bind_def, andThen, hx]
  | ok a =>
    rw [hx] at hc
    obtain ⟨hpos, hdepth⟩ := hend a hx
    obtain ⟨c'', hc', ⟨hlog', hdeep', hexact'⟩, hend'⟩ := hf a c' hpos hdepth
    refine ⟨c'', ?_, ⟨?_, hdeep' ∘ hdeep, fun ho => hexact' ho ∘ hexact ho⟩, ?_⟩
    · simp only [bind_def, andThen, hx]
      rw [Walk.bind_eq_of_ok hc]
      exact hc'
    · simp [bind_def, andThen, hx, hlog', hlog]
    · simp only [bind_def, andThen, hx]
      intro b hb
      rw [← hdepth]
      exact hend' b hb

/-- A step that leaves the reader where it stands. -/
theorem look {w : Walk α} {f : α → Walk β} {x : Logged β} {a : α} (hw : w c = some (.ok a, c))
    (hf : T.Agrees (f a) c stop x) : T.Agrees (w >>= f) c stop x := by
  obtain ⟨c', hc, hrest⟩ := hf
  exact ⟨c', (Walk.bind_eq_of_ok hw).trans hc, hrest⟩

theorem moveTo {f : Unit → Walk β} {x : Logged β} {pos : Nat}
    (hf : ∀ c', c'.pos = pos → c'.depth = c.depth → T.Agrees (f ()) c' stop x) :
    T.Agrees (Walk.moveTo pos >>= f) c stop x := by
  obtain ⟨c', hc, ⟨hlog, hdeep, hexact⟩, hend⟩ := hf { c with pos := pos } rfl rfl
  refine ⟨c', ?_, ⟨hlog, hdeep, hexact⟩, hend⟩
  rw [Walk.bind_eq_of_ok (w := Walk.moveTo pos) rfl]
  exact hc

theorem advance {f : Unit → Walk β} {x : Logged β}
    (hf : ∀ c', c'.pos = c.pos + 1 → c'.depth = c.depth → T.Agrees (f ()) c' stop x) :
    T.Agrees (Walk.advance >>= f) c stop x :=
  moveTo hf

theorem report (d : Diagnostic) : T.Agrees (Walk.report d) c c.pos (Logged.report d) :=
  ⟨_, rfl, ⟨rfl, id, fun _ => id⟩, fun _ _ => ⟨rfl, rfl⟩⟩

theorem mistake (code : Code) (span : Span) :
    T.Agrees (Walk.mistake code span) c c.pos (Logged.mistake code span) :=
  report _

/-- A stretch is measured in the order of the text. -/
theorem measure {f : Span → Walk β} {x : Logged β} {first last : Nat}
    (h : T.Ordered → first ≤ last)
    (hf : ∀ c', c'.pos = c.pos → c'.depth = c.depth →
      T.Agrees (f ⟨first, last - first⟩) c' stop x) :
    T.Agrees (Walk.measure first last >>= f) c stop x := by
  obtain ⟨c', hc, ⟨hlog, hdeep, hexact⟩, hend⟩ :=
    hf { c with exact := c.exact && decide (first ≤ last) } rfl rfl
  refine ⟨c', ?_, ⟨hlog, hdeep, ?_⟩, hend⟩
  · rw [Walk.bind_eq_of_ok (w := Walk.measure first last) rfl]
    exact hc
  · intro ho he
    exact hexact ho (by simp [he, h ho])

end Agrees

/-- The tokens from the position `i` up to the position `j`. -/
def slice (T : Tape) (i j : Nat) : List Token :=
  (T.tokens.take j).drop i

/-- Where the tokens before a position end. -/
def edge (T : Tape) (j : Nat) : Edge :=
  match T.tokens[j]? with
  | some t => .before t.start
  | none => .inputEnd T.length

section

variable {T : Tape}

theorem slice_nil {i j : Nat} (h : j ≤ i) : T.slice i j = [] := by
  simp only [slice, List.drop_eq_nil_iff, List.length_take]
  omega

theorem slice_eq_cons {i j : Nat} {t : Token} (ht : T.tokens[i]? = some t) (h : i < j) :
    T.slice i j = t :: T.slice (i + 1) j := by
  obtain ⟨hi, rfl⟩ := List.getElem?_eq_some_iff.mp ht
  have hlen : i < (T.tokens.take j).length := by
    rw [List.length_take]
    omega
  rw [slice, List.drop_eq_getElem_cons hlen, List.getElem_take]
  rfl

theorem slice_cons {i j : Nat} (h : i < j) (hj : j ≤ T.tokens.length) :
    ∃ t, T.tokens[i]? = some t ∧ T.slice i j = t :: T.slice (i + 1) j := by
  have ht := List.getElem?_eq_getElem (show i < T.tokens.length by omega)
  exact ⟨_, ht, slice_eq_cons ht h⟩

theorem slice_length {i j : Nat} (hj : j ≤ T.tokens.length) : (T.slice i j).length = j - i := by
  simp only [slice, List.length_drop, List.length_take]
  omega

theorem slice_of_suffix {i limit : Nat} {rest : List Token} (hi : i ≤ limit)
    (hl : limit ≤ T.tokens.length) (h : rest <:+ T.slice i limit) :
    i ≤ limit - rest.length ∧ rest = T.slice (limit - rest.length) limit := by
  have hlen := h.length_le
  have hdrop := List.suffix_iff_eq_drop.mp h
  rw [slice_length hl] at hlen hdrop
  have hstart : i + (limit - i - rest.length) = limit - rest.length := by omega
  rw [slice, List.drop_drop, hstart] at hdrop
  exact ⟨by omega, hdrop⟩

theorem edge_of_token {j : Nat} {t : Token} (h : T.tokens[j]? = some t) :
    T.edge j = .before t.start := by
  simp [edge, h]

theorem regionEnd_eq (j : Nat) : T.regionEnd j = (T.edge j).offset := by
  unfold regionEnd edge
  cases T.tokens[j]? <;> rfl

theorem edge_place (j : Nat) : (T.edge j).place = .place (T.regionEnd j) := by
  rw [regionEnd_eq, Edge.place]

theorem edge_isInputEnd (j : Nat) : (T.edge j).isInputEnd = decide (T.tokens.length ≤ j) := by
  unfold edge
  cases h : T.tokens[j]? with
  | none => simpa [Edge.isInputEnd] using h
  | some t =>
    have hj := (List.getElem?_eq_some_iff.mp h).1
    simp [Edge.isInputEnd, hj]

theorem missing_agrees (p : Problem) (limit : Nat) (c : Cursor) :
    T.Agrees (T.missing p limit) c limit ((T.edge limit).missing p) := by
  have hend := T.edge_isInputEnd limit
  unfold missing
  cases he : T.edge limit with
  | inputEnd length =>
    rw [he] at hend
    rw [if_pos (of_decide_eq_true hend.symm)]
    exact .abort p
  | before offset =>
    rw [he] at hend
    rw [if_neg (of_decide_eq_false hend.symm), regionEnd_eq, he]
    exact .bind (.report _) fun _ c' _ _ => .moveTo fun c'' hc'' _ => .pure () hc''

theorem tokenAt_eq {i : Nat} {t : Token} (h : T.tokens[i]? = some t) (c : Cursor) :
    T.tokenAt i c = some (.ok t, c) := by
  simp only [tokenAt, h]
  rfl

theorem tokenBefore_eq_none {limit : Nat} {c : Cursor} (h : limit ≤ c.pos) :
    T.tokenBefore limit c = some (.ok none, c) := by
  simp [tokenBefore, Nat.not_lt.mpr h]

theorem tokenBefore_eq_some {limit : Nat} {c : Cursor} {t : Token} (h : c.pos < limit)
    (ht : T.tokens[c.pos]? = some t) : T.tokenBefore limit c = some (.ok (some t), c) := by
  simp [tokenBefore, h, ht]

/-- What a search between two positions finds: nothing, with all tokens `passed`, or the token
behind those with which the tokens `left` start. -/
inductive Finds (T : Tape) (i limit : Nat) (passed left : List Token) : Option Nat → Prop
  | nothing : passed = T.slice i limit → left = [] → Finds T i limit passed left none
  | found {j : Nat} {t : Token} : i ≤ j → j < limit → T.tokens[j]? = some t →
      passed = T.slice i j → left = t :: T.slice (j + 1) limit →
      Finds T i limit passed left (some j)

theorem Finds.cons {i limit : Nat} {passed left : List Token} {t : Token} {r : Option Nat}
    (ht : T.tokens[i]? = some t) (hi : i < limit) (h : T.Finds (i + 1) limit passed left r) :
    T.Finds i limit (t :: passed) left r := by
  cases h with
  | nothing hp hd => exact .nothing (by rw [hp, slice_eq_cons ht hi]) hd
  | found hij hj hu hp hd =>
    exact .found (by omega) hj hu (by rw [hp, slice_eq_cons ht (by omega)]) hd

theorem find_finds (p : Token → Bool) {count i limit : Nat} (hc : i + count = limit)
    (hl : limit ≤ T.tokens.length) :
    ∃ r, (∀ c, T.find p count i c = some (.ok r, c)) ∧
      T.Finds i limit (takeUntil p (T.slice i limit)) (dropUntil p (T.slice i limit)) r := by
  induction count generalizing i with
  | zero =>
    rw [slice_nil (by omega)]
    exact ⟨none, fun _ => rfl, .nothing (by rw [slice_nil (by omega)]; rfl) rfl⟩
  | succ count ih =>
    obtain ⟨t, ht, hs⟩ := slice_cons (show i < limit by omega) hl
    have hstep : ∀ c, T.find p (count + 1) i c =
        (if p t then pure (some i) else T.find p count (i + 1) : Walk _) c := by
      intro c
      rw [find, Walk.bind_eq_of_ok (tokenAt_eq ht c)]
    rw [hs]
    cases hp : p t with
    | true =>
      refine ⟨some i, fun c => ?_, .found (Nat.le_refl i) (by omega) ht ?_ ?_⟩
      · rw [hstep, if_pos hp]
        rfl
      · simp [takeUntil, hp, slice_nil]
      · simp [dropUntil, hp]
    | false =>
      obtain ⟨r, hr, hf⟩ := @ih (i + 1) (by omega)
      refine ⟨r, fun c => ?_, ?_⟩
      · rw [hstep, if_neg (by simp [hp])]
        exact hr c
      · have := hf.cons ht (by omega)
        simpa [takeUntil, dropUntil, hp] using this

theorem findPunct_finds (p : Punct) {i limit : Nat} (hi : i ≤ limit)
    (hl : limit ≤ T.tokens.length) :
    ∃ r, (∀ c, T.findPunct p i limit c = some (.ok r, c)) ∧
      T.Finds i limit (takeUntil (·.isPunct p) (T.slice i limit))
        (dropUntil (·.isPunct p) (T.slice i limit)) r :=
  find_finds (·.isPunct p) (by omega) hl

theorem findOutside_stops {p : Token → Bool} {count depth i : Nat} {t : Token}
    (ht : T.tokens[i]? = some t) (hp : depth = 0 ∧ p t = true) (c : Cursor) :
    T.findOutside p (count + 1) depth i c = some (.ok (some i), c) := by
  rw [findOutside, Walk.bind_eq_of_ok (tokenAt_eq ht c), if_pos hp]
  rfl

/-- A search outside parentheses passes over a token and keeps count of the depth. -/
theorem findOutside_passes {p : Token → Bool} {count depth i : Nat} {t : Token}
    (ht : T.tokens[i]? = some t) (hp : ¬ (depth = 0 ∧ p t = true))
    (hclose : ¬ (depth = 0 ∧ t.isPunct .closeParen = true)) (c : Cursor) :
    T.findOutside p (count + 1) depth i c =
      T.findOutside p count (t.depthAfter depth) (i + 1) c := by
  rw [findOutside, Walk.bind_eq_of_ok (tokenAt_eq ht c), if_neg hp, Token.depthAfter]
  split
  next => rfl
  split
  next hc =>
    have hd : depth ≠ 0 := fun hd => hclose ⟨hd, hc⟩
    rw [if_neg hd]
  next => rfl

theorem findOutside_close_finds {count depth i limit : Nat} (hc : i + count = limit)
    (hl : limit ≤ T.tokens.length) :
    ∃ r, (∀ c, T.findOutside (·.isPunct .closeParen) count depth i c = some (.ok r, c)) ∧
      T.Finds i limit (takeEnclosed depth (T.slice i limit))
        (dropEnclosed depth (T.slice i limit)) r := by
  induction count generalizing depth i with
  | zero =>
    rw [slice_nil (by omega)]
    exact ⟨none, fun _ => rfl, .nothing (by rw [slice_nil (by omega)]; rfl) rfl⟩
  | succ count ih =>
    obtain ⟨t, ht, hs⟩ := slice_cons (show i < limit by omega) hl
    rw [hs, takeEnclosed, dropEnclosed]
    by_cases hclose : depth = 0 ∧ t.isPunct .closeParen = true
    · rw [if_pos hclose, if_pos hclose]
      refine ⟨some i, findOutside_stops ht hclose, .found (Nat.le_refl i) (by omega) ht ?_ rfl⟩
      rw [slice_nil (Nat.le_refl i)]
    · obtain ⟨r, hr, hf⟩ := @ih (t.depthAfter depth) (i + 1) (by omega)
      rw [if_neg hclose, if_neg hclose]
      exact ⟨r, fun c => (findOutside_passes ht hclose hclose c).trans (hr c),
        hf.cons ht (by omega)⟩

theorem findOutsidePunct_close_finds {i limit : Nat} (hi : i ≤ limit)
    (hl : limit ≤ T.tokens.length) :
    ∃ r, (∀ c, T.findOutsidePunct .closeParen i limit c = some (.ok r, c)) ∧
      T.Finds i limit (takeEnclosed 0 (T.slice i limit)) (dropEnclosed 0 (T.slice i limit)) r :=
  findOutside_close_finds (by omega) hl

/-- The tokens between two positions as a region. -/
def region (T : Tape) (i j : Nat) : Region :=
  ⟨T.slice i j, T.edge j⟩

/-- What a search for a comma outside all parentheses finds, where tokens at parenthesis depth
`depth` are cut at such commas. -/
inductive Cuts (T : Tape) (depth i bound : Nat) : Option Nat → Prop
  | whole : cutAtCommas (T.edge bound) depth (T.slice i bound) = (T.region i bound, []) →
      Cuts T depth i bound none
  | part {j : Nat} {t : Token} : i ≤ j → j < bound → T.tokens[j]? = some t →
      t.isPunct .comma = true →
      cutAtCommas (T.edge bound) depth (T.slice i bound) =
        (T.region i j, (T.region (j + 1) bound).parts) →
      dropEnclosed 0 (T.slice (j + 1) bound) = [] → Cuts T depth i bound (some j)

theorem findOutside_comma_cuts {count depth i bound : Nat} (hc : i + count = bound)
    (hb : bound ≤ T.tokens.length) (hd : dropEnclosed depth (T.slice i bound) = []) :
    ∃ r, (∀ c, T.findOutside (·.isPunct .comma) count depth i c = some (.ok r, c)) ∧
      T.Cuts depth i bound r := by
  induction count generalizing depth i with
  | zero =>
    refine ⟨none, fun _ => rfl, .whole ?_⟩
    rw [region, slice_nil (by omega)]
    rfl
  | succ count ih =>
    obtain ⟨t, ht, hs⟩ := slice_cons (show i < bound by omega) hb
    rw [hs, dropEnclosed] at hd
    split at hd
    next => cases hd
    next hclose =>
      by_cases hcomma : depth = 0 ∧ t.isPunct .comma = true
      · have hv := Token.isPunct_iff.mp hcomma.2
        have hstay : t.depthAfter depth = 0 := by
          rw [Token.depthAfter_of_not_paren depth (by simp [hv]) (by simp [hv]), hcomma.1]
        rw [hstay] at hd
        refine ⟨some i, findOutside_stops ht hcomma,
          .part (Nat.le_refl i) (by omega) ht hcomma.2 ?_ hd⟩
        rw [hs, cutAtCommas, if_pos hcomma, region, slice_nil (Nat.le_refl i), edge_of_token ht]
        rfl
      · obtain ⟨r, hr, hcut⟩ := @ih (t.depthAfter depth) (i + 1) (by omega) hd
        refine ⟨r, fun c => (findOutside_passes ht hcomma hclose c).trans (hr c), ?_⟩
        cases hcut with
        | whole he =>
          refine .whole ?_
          rw [hs, cutAtCommas, if_neg hcomma, he, region, region, hs]
        | @part j u hij hj hu hp he hrest =>
          refine .part (by omega) hj hu hp ?_ hrest
          have hfront := slice_eq_cons ht (show i < j by omega)
          rw [hs, cutAtCommas, if_neg hcomma, he, region.eq_1 T i j, hfront]
          rfl

theorem Cuts.parts_whole {i bound : Nat} (h : T.Cuts 0 i bound none) :
    (T.region i bound).parts = [T.region i bound] := by
  cases h with
  | whole he =>
    rw [Region.parts]
    simp only [region] at he ⊢
    rw [he]

theorem Cuts.parts_part {i bound j : Nat} (h : T.Cuts 0 i bound (some j)) :
    i ≤ j ∧ j < bound ∧ (∃ t, T.tokens[j]? = some t ∧ t.isPunct .comma = true) ∧
      (T.region i bound).parts = T.region i j :: (T.region (j + 1) bound).parts ∧
      dropEnclosed 0 (T.slice (j + 1) bound) = [] := by
  cases h with
  | part hij hj ht hp he hrest =>
    refine ⟨hij, hj, ⟨_, ht, hp⟩, ?_, hrest⟩
    rw [Region.parts]
    simp only [region] at he ⊢
    rw [he]

theorem findOutsidePunct_comma_cuts {i bound : Nat} (hi : i ≤ bound) (hb : bound ≤ T.tokens.length)
    (hd : dropEnclosed 0 (T.slice i bound) = []) :
    ∃ r, (∀ c, T.findOutsidePunct .comma i bound c = some (.ok r, c)) ∧ T.Cuts 0 i bound r :=
  findOutside_comma_cuts (by omega) hb hd

/-- The tokens from a position on that do not satisfy `p`, and the first one that does. -/
inductive Ahead (T : Tape) (p : Token → Bool) (limit : Nat) :
    Nat → List Token → Option (Nat × Token) → Prop
  | done : Ahead T p limit limit [] none
  | found {i : Nat} {t : Token} : i < limit → T.tokens[i]? = some t → p t = true →
      Ahead T p limit i [] (some (i, t))
  | pass {i : Nat} {t : Token} {passed : List Token} {r : Option (Nat × Token)} : i < limit →
      T.tokens[i]? = some t → p t = false → Ahead T p limit (i + 1) passed r →
      Ahead T p limit i (t :: passed) r

theorem exists_ahead (p : Token → Bool) {i limit : Nat} (hi : i ≤ limit)
    (hl : limit ≤ T.tokens.length) : ∃ passed r, T.Ahead p limit i passed r := by
  obtain ⟨n, rfl⟩ := Nat.exists_eq_add_of_le hi
  induction n generalizing i with
  | zero => exact ⟨[], none, .done⟩
  | succ n ih =>
    obtain ⟨t, ht, _⟩ := slice_cons (show i < i + (n + 1) by omega) hl
    cases hp : p t with
    | true => exact ⟨[], _, .found (by omega) ht hp⟩
    | false =>
      have hshift : i + 1 + n = i + (n + 1) := by omega
      obtain ⟨passed, r, h⟩ := @ih (i + 1) (by omega) (by omega)
      rw [hshift] at h
      exact ⟨t :: passed, r, .pass (by omega) ht hp h⟩

theorem Ahead.length_le {p : Token → Bool} {limit i : Nat} {passed : List Token}
    {r : Option (Nat × Token)} (h : T.Ahead p limit i passed r) : passed.length ≤ limit - i := by
  induction h with
  | done => simp
  | found => simp
  | pass hi _ _ _ ih =>
    rw [List.length_cons]
    omega

theorem Ahead.takeUntil_eq {p : Token → Bool} {limit i : Nat} {passed : List Token}
    {r : Option (Nat × Token)} (h : T.Ahead p limit i passed r) :
    takeUntil p (T.slice i limit) = passed := by
  induction h with
  | done => simp [slice_nil, takeUntil]
  | found hi ht hp => simp [slice_eq_cons ht hi, takeUntil, hp]
  | pass hi ht hp _ ih =>
    rw [takeUntil] at ih
    simp [slice_eq_cons ht hi, takeUntil, hp, ih]

theorem Ahead.dropUntil_eq_nil {p : Token → Bool} {limit i : Nat} {passed : List Token}
    (h : T.Ahead p limit i passed none) : dropUntil p (T.slice i limit) = [] := by
  generalize hr : none = r at h
  induction h with
  | done => simp [slice_nil, dropUntil]
  | found => cases hr
  | pass hi ht hp _ ih =>
    have ih := ih hr
    rw [dropUntil] at ih
    simp [slice_eq_cons ht hi, dropUntil, hp, ih]

theorem Ahead.dropUntil_eq_cons {p : Token → Bool} {limit i j : Nat} {passed : List Token}
    {t : Token} (h : T.Ahead p limit i passed (some (j, t))) :
    i ≤ j ∧ j < limit ∧ T.tokens[j]? = some t ∧ p t = true ∧
      dropUntil p (T.slice i limit) = t :: T.slice (j + 1) limit := by
  generalize hr : some (j, t) = r at h
  induction h with
  | done => cases hr
  | found hi ht hp =>
    cases hr
    exact ⟨Nat.le_refl j, hi, ht, hp, by simp [slice_eq_cons ht hi, dropUntil, hp]⟩
  | pass hi ht hp _ ih =>
    obtain ⟨hij, hj, hu, hpu, hd⟩ := ih hr
    refine ⟨by omega, hj, hu, hpu, ?_⟩
    rw [dropUntil] at hd
    simp [slice_eq_cons ht hi, dropUntil, hp, hd]

end

end Tape

end CommandTemplate
