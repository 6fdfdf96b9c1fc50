import CommandTemplate.Proofs.Coverage

namespace CommandTemplate

/-- Modes that can lie below others: brackets, and a default in parentheses. -/
inductive Held : List Mode → Prop
  | nil : Held []
  | angle {below : List Mode} : Held below → Held (.angle :: below)
  | paren {below : List Mode} : Held below → Held (.paren :: below)
  | default {below : List Mode} : Held below → Held (.paren :: .afterDefault :: below)

/-- The modes of a scan: any one on top of those that can lie below. -/
inductive Stacked : List Mode → Prop
  | held {modes : List Mode} : Held modes → Stacked modes
  | top (mode : Mode) {below : List Mode} : Held below → Stacked (mode :: below)

/-- Modes in which no literal default has begun. -/
structure Settled (modes : List Mode) : Prop where
  stacked : Stacked modes
  unlettered : modes.head? ≠ some .defaultText

theorem Held.head?_ne {modes : List Mode} (h : Held modes) {mode : Mode}
    (ha : mode ≠ .angle) (hp : mode ≠ .paren) : modes.head? ≠ some mode := by
  intro hh
  cases h <;> simp_all

theorem Held.settled {modes : List Mode} (h : Held modes) : Settled modes :=
  ⟨.held h, h.head?_ne (by simp) (by simp)⟩

theorem Settled.top {mode : Mode} {below : List Mode} (h : Held below)
    (hm : mode ≠ .defaultText) : Settled (mode :: below) :=
  ⟨.top mode h, by simpa using hm⟩

/-- What is left of modes when the outer ones are kept. -/
theorem Held.suffix {modes rest : List Mode} (h : Held modes) (hs : rest <:+ modes) :
    Settled rest := by
  induction h with
  | nil =>
    obtain rfl : rest = [] := by simpa using hs
    exact Held.nil.settled
  | angle hb ih =>
    rcases List.suffix_cons_iff.mp hs with rfl | hs
    · exact hb.angle.settled
    · exact ih hs
  | paren hb ih =>
    rcases List.suffix_cons_iff.mp hs with rfl | hs
    · exact hb.paren.settled
    · exact ih hs
  | default hb ih =>
    rcases List.suffix_cons_iff.mp hs with rfl | hs
    · exact hb.default.settled
    · rcases List.suffix_cons_iff.mp hs with rfl | hs
      · exact .top hb (by simp)
      · exact ih hs

theorem Stacked.suffix {mode : Mode} {below rest : List Mode} (h : Stacked (mode :: below))
    (hs : rest <:+ below) : Settled rest := by
  cases h with
  | held h => exact h.suffix (hs.trans (List.suffix_cons mode below))
  | top _ h => exact h.suffix hs

theorem Stacked.held_of_bracket {modes : List Mode} (h : Stacked modes)
    (hm : ∀ mode, modes.head? = some mode → mode = .angle ∨ mode = .paren) : Held modes := by
  cases h with
  | held h => exact h
  | top mode h =>
    rcases hm mode rfl with rfl | rfl
    · exact h.angle
    · exact h.paren

theorem Stacked.held_below {mode : Mode} {below : List Mode} (h : Stacked (mode :: below))
    (ha : mode ≠ .angle) (hp : mode ≠ .paren) : Held below := by
  cases h with
  | held h => exact absurd rfl (h.head?_ne ha hp)
  | top _ h => exact h

theorem Stacked.leave {modes : List Mode} {mode : Mode} (h : Stacked modes) (hm : mode ∈ modes) :
    Settled (Scanner.leave mode modes) := by
  cases modes with
  | nil => cases hm
  | cons top below =>
    refine h.suffix ?_
    by_cases htop : top = mode
    · simp [Scanner.leave, htop]
    · rw [Scanner.leave_cons_of_ne htop]
      exact (List.drop_suffix 1 _).trans (List.dropWhile_suffix _)

/-- What can stand at a place among modes: a bracket, or a default directly below a parenthesis. -/
def Mode.LiesAt (mode : Mode) (i : Nat) (modes : List Mode) : Prop :=
  mode = .angle ∨ mode = .paren ∨
    mode = .afterDefault ∧ ∃ j, i = j + 1 ∧ modes[j]? = some .paren

theorem Mode.LiesAt.cons {mode : Mode} {i : Nat} {modes : List Mode} (h : mode.LiesAt i modes)
    (top : Mode) : mode.LiesAt (i + 1) (top :: modes) := by
  rcases h with hm | hm | ⟨hm, j, rfl, hj⟩
  · exact .inl hm
  · exact .inr (.inl hm)
  · exact .inr (.inr ⟨hm, j + 1, rfl, by simpa using hj⟩)

theorem Held.liesAt {modes : List Mode} (h : Held modes) {i : Nat} {mode : Mode}
    (hi : modes[i]? = some mode) : mode.LiesAt i modes := by
  induction h generalizing i with
  | nil => simp at hi
  | angle h ih =>
    cases i with
    | zero => exact .inl (by simpa using hi.symm)
    | succ i => exact (ih (by simpa using hi)).cons .angle
  | paren h ih =>
    cases i with
    | zero => exact .inr (.inl (by simpa using hi.symm))
    | succ i => exact (ih (by simpa using hi)).cons .paren
  | default h ih =>
    match i with
    | 0 => exact .inr (.inl (by simpa using hi.symm))
    | 1 => exact .inr (.inr ⟨by simpa using hi.symm, 0, rfl, rfl⟩)
    | i + 2 => exact ((ih (by simpa using hi)).cons .afterDefault).cons .paren

theorem Stacked.liesAt {modes : List Mode} (h : Stacked modes) {i : Nat} {mode : Mode}
    (hi : modes[i + 1]? = some mode) : mode.LiesAt (i + 1) modes := by
  cases h with
  | held h => exact h.liesAt hi
  | top m h => exact (h.liesAt (by simpa using hi)).cons m

theorem Stacked.lies_below {modes : List Mode} (h : Stacked modes) {i : Nat} {mode : Mode}
    (hi : modes[i + 1]? = some mode) : mode = .angle ∨ mode = .paren ∨ mode = .afterDefault := by
  rcases h.liesAt hi with hm | hm | ⟨hm, _⟩
  · exact .inl hm
  · exact .inr (.inl hm)
  · exact .inr (.inr hm)

theorem Stacked.covered {modes : List Mode} (h : Stacked modes) {i : Nat}
    (hi : modes[i + 1]? = some .afterDefault) : modes[i]? = some .paren := by
  rcases h.liesAt hi with hm | hm | ⟨_, j, hj, hp⟩
  · cases hm
  · cases hm
  · obtain rfl : i = j := by omega
    exact hp

namespace Scanner

variable {s : Scanner} {c : Char} {below : List Mode}

theorem close_stacked (h : Stacked s.modes) (p : Punct) (mode : Mode) :
    Stacked (s.close p mode).2.modes := by
  change Stacked (if mode ∈ s.modes then leave mode s.modes else s.modes)
  split
  next hm => exact (h.leave hm).stacked
  next => exact h

theorem stepText_stacked (h : Held s.modes) : Stacked (s.stepText c).2.modes := by
  unfold stepText
  split
  next => exact .held h
  split
  next => exact .held h.angle
  next => exact .held h
  next => exact .top _ h
  next => exact .top _ h
  next => exact .held h

theorem stepExpression_stacked (h : Held s.modes) : Stacked (s.stepExpression c).2.modes := by
  unfold stepExpression
  split
  next => exact .held h
  split
  next => exact .held h.angle
  next => exact close_stacked (.held h) .closeAngle .angle
  next => exact .held h.paren
  next => exact close_stacked (.held h) .closeParen .paren
  next => exact .held h
  next => exact .top _ h
  next => exact .top _ h
  next => exact .held h

/-- Both ways of going on may be looked at apart. -/
theorem stacked_ite {a : Prop} [Decidable a] {r r' : List Token × Scanner}
    (h : Stacked r.2.modes) (h' : Stacked r'.2.modes) : Stacked (if a then r else r').2.modes := by
  split
  next => exact h
  next => exact h'

theorem stepBodyFresh_stacked (h : Stacked s.modes) (hb : Held below) (marker : Marker) :
    Stacked (s.stepBodyFresh marker below c).2.modes := by
  unfold stepBodyFresh
  refine stacked_ite (.held hb) ?_
  refine stacked_ite h ?_
  refine stacked_ite (.top _ hb) ?_
  refine stacked_ite (close_stacked h .closeAngle .angle) ?_
  refine stacked_ite (close_stacked h .closeParen .paren) ?_
  exact stacked_ite h (stacked_ite h (stacked_ite h h))

theorem stepBody_stacked (h : Stacked s.modes) (hb : Held below) (marker : Marker) :
    Stacked (s.stepBody marker below c).2.modes := by
  have hfresh := @stepBodyFresh_stacked s c below h hb marker
  unfold stepBody
  split
  next => exact stacked_ite h hfresh
  next => exact stacked_ite h hfresh
  next => exact hfresh

theorem stepDefault_stacked (h : Stacked s.modes) (hb : Held below) :
    Stacked (s.stepDefault below c).2.modes := by
  unfold stepDefault
  refine stacked_ite h ?_
  refine stacked_ite (.held hb) ?_
  refine stacked_ite (close_stacked h .closeAngle .angle) ?_
  exact stacked_ite (close_stacked h .closeParen .paren) h

theorem step_stacked (h : Stacked s.modes) (c : Char) : Stacked (s.step c).2.modes := by
  have hbelow : ∀ {mode below}, s.modes = mode :: below → mode ≠ .angle → mode ≠ .paren →
      Held below :=
    fun hm ha hp => (hm ▸ h).held_below ha hp
  have hbracket : ∀ {mode below}, s.modes = mode :: below → mode = .angle ∨ mode = .paren →
      Held s.modes :=
    fun hm hmode => h.held_of_bracket fun mode hh => by simp_all
  unfold step
  split
  next hm =>
    have hheld : Held s.modes := hm ▸ .nil
    split
    next => exact stepText_stacked hheld
    next => exact stepExpression_stacked hheld
  next hm => exact stepExpression_stacked (hbracket hm (.inl rfl))
  next hm => exact stepExpression_stacked (hbracket hm (.inr rfl))
  next hm => exact stepBody_stacked h (hbelow hm (by simp) (by simp)) _
  next below hm =>
    have hb := hbelow hm (by simp) (by simp)
    exact stacked_ite (.held hb.default) (stepDefault_stacked (.top _ hb) hb)
  next below hm =>
    have hb := hbelow hm (by simp) (by simp)
    exact stacked_ite h (stepDefault_stacked h hb)
  next hm => exact stepDefault_stacked h (hbelow hm (by simp) (by simp))

/-- The state behind the given characters: its modes are in order, and its unfinished token is
what it was read from. -/
structure Behind (front : List Char) (s : Scanner) : Prop where
  stacked : Stacked s.modes
  tracks : s.Tracks
  offset : s.offset = front.length
  source : front.drop s.pendingStart = s.pending.source

theorem Behind.move {t : Scanner} {front : List Char} {out : List Token} (hs : s.Behind front)
    (h : Move s c out t) : (front ++ [c]).drop t.pendingStart = t.pending.source := by
  have hreaches := hs.tracks.reaches
  have hoffset := hs.offset
  have hdrop : (front ++ [c]).drop s.pendingStart = s.pending.source ++ [c] := by
    rw [List.drop_append_of_le_length (by omega), hs.source]
  cases h with
  | plain hb hc ho =>
    obtain ⟨hstart, hsource⟩ := entered_source hs.tracks.fits hb c
    rw [hstart, hsource, hdrop]
  | escape hb ha hc ho =>
    obtain ⟨hstart, hsource⟩ := escape_source ha c
    rw [hstart, hsource, hdrop]
  | moreDigits start digits hp hc =>
    simp only [pendingStart, hp, Pending.source] at hdrop ⊢
    rw [hdrop, List.reverse_cons]
  | moreLetters start letters hp hc =>
    simp only [pendingStart, hp, Pending.source] at hdrop ⊢
    rw [hdrop, List.reverse_cons]
  | number hb hc => simp [pendingStart, Pending.source, hoffset]
  | word hb hc => simp [pendingStart, Pending.source, hoffset]
  | _ => simp [pendingStart, next, Pending.source, hoffset]

theorem Behind.step {front : List Char} (hs : s.Behind front) (c : Char) :
    (s.step c).2.Behind (front ++ [c]) := by
  have hmove := step_move hs.tracks.fits c
  refine ⟨step_stacked hs.stacked c, hs.tracks.move hmove, ?_, hs.move hmove⟩
  rw [hmove.offset_eq, hs.offset, List.length_append, List.length_singleton]

theorem Behind.advance {front : List Char} (hs : s.Behind front) (cs : List Char) :
    (s.advance cs).2.Behind (front ++ cs) := by
  induction cs generalizing s front with
  | nil =>
    rw [List.append_nil]
    exact hs
  | cons c cs ih =>
    have hrest := ih (hs.step c)
    rwa [List.append_assoc] at hrest

theorem advance_behind (dialect : Dialect) (front : List Char) :
    ((initial dialect).advance front).2.Behind front :=
  @Behind.advance (initial dialect) [] ⟨.held .nil, .ofNothing rfl, rfl, rfl⟩ front

/-- What holds between any two characters: which modes lie below others, that no text is pending
where none is read, and that a pending text is the last characters read. -/
structure WellFormed (front : List Char) (s : Scanner) : Prop where
  below : ∀ i mode, s.modes[i + 1]? = some mode →
    mode = .angle ∨ mode = .paren ∨ mode = .afterDefault
  covered : ∀ i, s.modes[i + 1]? = some .afterDefault → s.modes[i]? = some .paren
  idle : s.inBody = true ∨ s.modes.head? = some .defaultStart →
    ∀ start pieces, s.pending ≠ .run start pieces
  contiguous : ∀ start pieces, s.pending = .run start pieces →
    start + piecesWidth pieces.reverse = front.length ∧
      front.drop start = piecesSource pieces.reverse

theorem Behind.wellFormed {front : List Char} (hs : s.Behind front) : s.WellFormed front where
  below _ _ hi := hs.stacked.lies_below hi
  covered _ hi := hs.stacked.covered hi
  idle h start pieces hp := by
    have hfits := hs.tracks.fits
    simp only [Fits, hp] at hfits
    rcases h with h | h
    · simp [hfits.2.1] at h
    · exact hfits.2.2 h
  contiguous start pieces hp := by
    have hreaches := hs.tracks.reaches
    have hsource := hs.source
    simp only [pendingStart, hp, Pending.source, length_piecesSource] at hreaches hsource
    exact ⟨hreaches.trans hs.offset, hsource⟩

end Scanner

end CommandTemplate
