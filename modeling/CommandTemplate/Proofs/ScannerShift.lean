import CommandTemplate.Proofs.ScannerMoves

namespace CommandTemplate

/-- The same token, `k` characters further on. -/
def Token.shift (k : Nat) (t : Token) : Token :=
  ⟨t.value, t.start + k, t.stop + k⟩

@[simp] theorem Token.shift_value (k : Nat) (t : Token) : (t.shift k).value = t.value := rfl

def Pending.shift (k : Nat) : Pending → Pending
  | .nothing => .nothing
  | .run start pieces => .run (start + k) pieces
  | .number start digits => .number (start + k) digits
  | .word start letters => .word (start + k) letters

namespace Scanner

/-- The same state, `k` characters further on. With `after`, tokens stand in front of it. -/
def shift (k : Nat) (after : Bool) (s : Scanner) : Scanner :=
  { s with offset := s.offset + k, pending := s.pending.shift k, started := s.started || after }

/-- Tokens may stand in front of a state unless its first word could name a function. -/
def Follows (s : Scanner) (after : Bool) : Prop :=
  after = true → s.dialect ≠ .singleFunction

/-- What a step does, `k` characters further on. -/
def shiftStep (k : Nat) (after : Bool) (r : List Token × Scanner) : List Token × Scanner :=
  (r.1.map (Token.shift k), r.2.shift k after)

variable (k : Nat) {after : Bool} (s : Scanner)

theorem callTokens_shift (start : Nat) (pieces : List Piece) :
    callTokens (start + k) pieces = (callTokens start pieces).map (Token.shift k) := by
  simp only [callTokens, List.map_append]
  congr 1 <;> split <;> simp [Token.shift] <;> omega

theorem namesFunction_shift (h : s.Follows after) (pieces : List Piece) :
    (s.shift k after).namesFunction pieces = s.namesFunction pieces := by
  cases after with
  | false => simp [namesFunction, shift]
  | true =>
    have hd : (s.dialect == .singleFunction) = false := beq_false_of_ne (h rfl)
    simp [namesFunction, shift, hd]

theorem flush_shift (h : s.Follows after) :
    (s.shift k after).flush = s.flush.map (Token.shift k) := by
  cases hp : s.pending with
  | run start pieces =>
    have hn := namesFunction_shift k s h pieces.reverse
    simp only [flush, hp, shift, Pending.shift, textToken, List.map_cons, List.map_nil,
      Token.shift] at hn ⊢
    rw [hn, Nat.add_right_comm]
  | nothing => simp [flush, shift, hp, Pending.shift]
  | number start digits => simp [flush, shift, hp, Pending.shift, Token.shift, Nat.add_right_comm]
  | word start letters => simp [flush, shift, hp, Pending.shift, Token.shift, Nat.add_right_comm]

theorem flushBeforeParen_shift (h : s.Follows after) :
    (s.shift k after).flushBeforeParen = s.flushBeforeParen.map (Token.shift k) := by
  have hf := flush_shift k s h
  cases hp : s.pending with
  | run start pieces => simp [flushBeforeParen, shift, hp, Pending.shift, callTokens_shift]
  | _ => simpa [flushBeforeParen, shift, hp, Pending.shift] using hf

theorem punctToken_shift (p : Punct) : (s.shift k after).punctToken p = (s.punctToken p).shift k := by
  simp [punctToken, shift, Token.shift]
  omega

theorem next_shift (modes : List Mode) :
    (s.shift k after).next modes = (s.next modes).shift k after := by
  simp [next, shift, Pending.shift]
  omega

theorem emit_shift (h : s.Follows after) (p : Punct) (modes : List Mode) :
    (s.shift k after).emit p modes = shiftStep k after (s.emit p modes) := by
  simp [emit, shiftStep, flush_shift k s h, punctToken_shift, next_shift]

theorem close_shift (h : s.Follows after) (p : Punct) (mode : Mode) :
    (s.shift k after).close p mode = shiftStep k after (s.close p mode) :=
  emit_shift k s h p _

theorem extend_shift (piece : Piece) :
    (s.shift k after).extend piece = shiftStep k after (s.extend piece) := by
  cases hp : s.pending <;> simp [extend, shift, shiftStep, hp, Pending.shift] <;> omega

theorem afterEscape_shift : (s.shift k after).afterEscape = s.afterEscape := by
  cases hp : s.pending with
  | run start pieces =>
    match pieces with
    | [] => simp [afterEscape, shift, hp, Pending.shift]
    | .plain c :: _ => simp [afterEscape, shift, hp, Pending.shift]
    | .escaped c :: _ => simp [afterEscape, shift, hp, Pending.shift]
  | _ => simp [afterEscape, shift, hp, Pending.shift]

theorem onlyEscape_shift : (s.shift k after).onlyEscape = s.onlyEscape := by
  cases hp : s.pending with
  | run start pieces =>
    match pieces with
    | [] => simp [onlyEscape, shift, hp, Pending.shift]
    | [.plain c] => simp [onlyEscape, shift, hp, Pending.shift]
    | .plain c :: _ :: _ => simp [onlyEscape, shift, hp, Pending.shift]
    | .escaped c :: _ => simp [onlyEscape, shift, hp, Pending.shift]
  | _ => simp [onlyEscape, shift, hp, Pending.shift]

theorem escape_shift (c : Char) : (s.shift k after).escape c = shiftStep k after (s.escape c) := by
  cases hp : s.pending with
  | run start pieces =>
    cases pieces <;> simp [escape, shift, shiftStep, hp, Pending.shift] <;> omega
  | _ =>
    simp [escape, shift, shiftStep, hp, Pending.shift]
    omega

theorem stepText_shift (h : s.Follows after) (c : Char) : (s.shift k after).stepText c = shiftStep k after (s.stepText c) := by
  unfold stepText
  rw [afterEscape_shift]
  split
  next => exact escape_shift k s c
  next =>
    split
    next => exact emit_shift k s h _ _
    next => exact emit_shift k s h _ _
    next => exact emit_shift k s h _ _
    next => exact emit_shift k s h _ _
    next => exact extend_shift k s _

theorem stepExpression_shift (h : s.Follows after) (c : Char) :
    (s.shift k after).stepExpression c = shiftStep k after (s.stepExpression c) := by
  unfold stepExpression
  rw [afterEscape_shift]
  split
  next => exact escape_shift k s c
  next =>
    split
    next => exact emit_shift k s h _ _
    next => exact close_shift k s h _ _
    next =>
      simp [shiftStep, flushBeforeParen_shift k s h, punctToken_shift, ← next_shift]
      rfl
    next => exact close_shift k s h _ _
    next => exact emit_shift k s h _ _
    next => exact emit_shift k s h _ _
    next => exact emit_shift k s h _ _
    next => exact extend_shift k s _

theorem stepBodyFresh_shift (h : s.Follows after) (marker : Marker) (below : List Mode) (c : Char) :
    (s.shift k after).stepBodyFresh marker below c =
      shiftStep k after (s.stepBodyFresh marker below c) := by
  have hm : (s.shift k after).modes = s.modes := rfl
  have ho : (s.shift k after).offset = s.offset + k := rfl
  have hblank : (s.flush.map (Token.shift k), (s.next s.modes).shift k after) =
      shiftStep k after (s.flush, s.next s.modes) := rfl
  have hnumber : (s.flush.map (Token.shift k),
      { (s.next s.modes).shift k after with pending := .number (s.offset + k) [c] }) =
      shiftStep k after (s.flush, { s.next s.modes with pending := .number s.offset [c] }) := rfl
  have hword : (s.flush.map (Token.shift k),
      { (s.next s.modes).shift k after with pending := .word (s.offset + k) [c] }) =
      shiftStep k after (s.flush, { s.next s.modes with pending := .word s.offset [c] }) := rfl
  have hodd : (s.flush.map (Token.shift k) ++
        [⟨.text (String.singleton c), s.offset + k, s.offset + k + 1⟩],
        (s.next s.modes).shift k after) =
      shiftStep k after
        (s.flush ++ [⟨.text (String.singleton c), s.offset, s.offset + 1⟩], s.next s.modes) := by
    rw [shiftStep, List.map_append, List.map_singleton, Token.shift, Nat.add_right_comm]
  simp only [stepBodyFresh, hm, ho, emit_shift k s h, close_shift k s h, flush_shift k s h,
    next_shift, hblank, hnumber, hword, hodd, ← apply_ite (shiftStep k after)]

theorem stepBody_shift (h : s.Follows after) (marker : Marker) (below : List Mode) (c : Char) :
    (s.shift k after).stepBody marker below c = shiftStep k after (s.stepBody marker below c) := by
  have hf := stepBodyFresh_shift k s h marker below c
  unfold stepBody
  cases hp : s.pending with
  | number start digits =>
    have hq : (s.shift k after).pending = .number (start + k) digits := by simp [shift, hp, Pending.shift]
    rw [hq]
    dsimp only
    split
    next =>
      simp [shiftStep, shift, Pending.shift]
      omega
    next => exact hf
  | word start letters =>
    have hq : (s.shift k after).pending = .word (start + k) letters := by simp [shift, hp, Pending.shift]
    rw [hq]
    dsimp only
    split
    next =>
      simp [shiftStep, shift, Pending.shift]
      omega
    next => exact hf
  | _ => simpa [shift, hp, Pending.shift] using hf

theorem stepDefault_shift (h : s.Follows after) (below : List Mode) (c : Char) :
    (s.shift k after).stepDefault below c = shiftStep k after (s.stepDefault below c) := by
  have hm : (s.shift k after).modes = s.modes := rfl
  unfold stepDefault
  rw [afterEscape_shift, hm]
  split
  next => exact escape_shift k s c
  split
  next => exact emit_shift k s h _ _
  split
  next => exact close_shift k s h _ _
  split
  next => exact close_shift k s h _ _
  next => exact extend_shift k s _

/-- Where a text stands makes no difference to how it is read, and neither does what stands in
front of it, unless its first word could name a function. -/
theorem step_shift (h : s.Follows after) (c : Char) :
    (s.shift k after).step c = shiftStep k after (s.step c) := by
  have hm : (s.shift k after).modes = s.modes := rfl
  have hd : (s.shift k after).dialect = s.dialect := rfl
  unfold step
  rw [hm, hd]
  split
  next =>
    split
    next => exact stepText_shift k s h c
    next => exact stepExpression_shift k s h c
  next => exact stepExpression_shift k s h c
  next => exact stepExpression_shift k s h c
  next => exact stepBody_shift k s h _ _ c
  next =>
    unfold stepDefaultStart
    split
    next => exact emit_shift k s h _ _
    next below _ _ => exact stepDefault_shift k { s with modes := .defaultText :: below } h below c
  next =>
    unfold stepDefaultText
    rw [onlyEscape_shift]
    split
    next => exact escape_shift k s c
    next => exact stepDefault_shift k s h _ c
  next => exact stepDefault_shift k s h _ c

theorem read_shift {s : Scanner} (hs : s.Fits) (h : s.Follows after) (cs : List Char) :
    (s.shift k after).read cs = (s.read cs).map (Token.shift k) := by
  induction cs generalizing s with
  | nil => exact flush_shift k s h
  | cons c cs ih =>
    have hmove := step_move hs c
    have hnext : (s.step c).2.Follows after := by
      intro ha
      rw [hmove.dialect_eq]
      exact h ha
    simp [read_cons, step_shift k s h, shiftStep, ih (hmove.fits hs) hnext]

end Scanner

end CommandTemplate
