import CommandTemplate.Proofs.Rescan
import CommandTemplate.Proofs.ScanLoop

namespace CommandTemplate

/-- The characters that an escape keeps in the text that is read in the given modes. -/
def escapable (dialect : Dialect) : List Mode → List Char
  | [] => dialect.root.special
  | .angle :: _ => expressionSpecial
  | .paren :: _ => expressionSpecial
  | .defaultText :: _ => defaultSpecial
  | .afterDefault :: _ => defaultSpecial
  | _ => []

namespace Scanner

theorem step_escapeChar {s : Scanner} (h : escapable s.dialect s.modes ≠ []) :
    s.step escapeChar = s.extend (.plain escapeChar) := by
  have htext : ∀ special, ReadsText s.dialect s.modes special →
      s.step escapeChar = s.extend (.plain escapeChar) := by
    intro special hr
    refine hr.step_plain (fun hm => escapeChar_not_mem_special (hr.subset _ hm)) fun _ hc => ?_
    exact absurd hc (by decide)
  generalize hm : s.modes = modes at h htext
  unfold escapable at h
  split at h
  next => exact htext _ .root
  next below => exact htext _ (.angle below)
  next below => exact htext _ (.paren below)
  next below => exact htext _ (.default below)
  next below => simp [step, hm, stepDefault, defaultSpecial, escapeChar]
  next => exact absurd rfl h

theorem step_escaped {s : Scanner} {c : Char} (hc : c ∈ escapable s.dialect s.modes)
    (ha : s.afterEscape = true) : s.step c = s.escape c := by
  have htext : ∀ special, ReadsText s.dialect s.modes special → c ∈ special →
      s.step c = s.escape c :=
    fun _ hr hc => hr.step_escape hc ha
  generalize hm : s.modes = modes at hc htext
  unfold escapable at hc
  split at hc
  next => exact htext _ .root hc
  next below => exact htext _ (.angle below) hc
  next below => exact htext _ (.paren below) hc
  next below => exact htext _ (.default below) hc
  next below => simp [step, hm, stepDefault, hc, ha]
  next => cases hc

theorem escapable_subset {dialect : Dialect} {modes : List Mode} {c : Char}
    (h : c ∈ escapable dialect modes) : c ∈ expressionSpecial := by
  unfold escapable at h
  split at h
  next => exact ReadsText.root.subset c h
  next => exact h
  next => exact h
  next => exact mem_expressionSpecial_of_defaultSpecial h
  next => exact mem_expressionSpecial_of_defaultSpecial h
  next => cases h

end Scanner

/-- Pieces one behind the other, the first at `start`. -/
def placed : (start : Nat) → List Piece → List PlacedPiece
  | _, [] => []
  | start, p :: pieces => ⟨p, start⟩ :: placed (start + p.width) pieces

/-- Where a scan stands: the finished tokens, the modes, and the text, cut at the first piece of
the pending text and behind the last one. -/
structure Spot where
  dialect : Dialect
  tokens : List Token
  modes : List Mode
  before : List Char
  pieces : List Piece
  rest : List Char

namespace Spot

def text (q : Spot) : List Char :=
  q.before ++ piecesSource q.pieces ++ q.rest

def index (q : Spot) : Nat :=
  q.before.length + piecesWidth q.pieces

/-- The state of the loop at a spot. -/
def loop (q : Spot) : ScanLoop :=
  ⟨q.dialect, q.text, q.index, q.modes.map .inner ++ [.root q.dialect.root],
    placed q.before.length q.pieces, q.tokens, false⟩

/-- The state of the scanner at a spot. -/
def scanner (q : Spot) : Scanner :=
  ⟨q.dialect, q.index, q.modes,
    if q.pieces = [] then .nothing else .run q.before.length q.pieces.reverse, !q.tokens.isEmpty⟩

/-- The tokens of the whole text, seen from a spot. -/
def total (q : Spot) : List Token :=
  q.tokens ++ q.scanner.read q.rest

/-- The rounds in which nothing is read before the next character is. -/
def pause : List Mode → Nat
  | .defaultStart :: _ => 1
  | _ => 0

/-- How many rounds are left at most. -/
def distance (q : Spot) : Nat :=
  2 * q.rest.length + pause q.modes

/-- The spots that a scan comes to. -/
structure Sound (q : Spot) : Prop where
  stacked : Stacked q.modes
  opens : q.tokens = [] → q.modes = []
  quiet : escapable q.dialect q.modes = [] → q.pieces = []
  escapes : EscapesSpecial q.pieces
  /-- An escape character that stands for itself is not followed by a special one. -/
  kept : q.pieces.getLast? = some (.plain escapeChar) →
    ∀ c, q.rest.head? = some c → c ∉ escapable q.dialect q.modes
  /-- Nor is it followed by a parenthesis at the start of a default. -/
  literal : q.modes.head? = some .defaultText →
    [escapeChar, '('] <+: piecesSource q.pieces ++ q.rest → q.pieces.head? = some (.escaped '(')

/-- The second spot is one of the same scan. -/
structure Leads (q q' : Spot) : Prop where
  sound : q'.Sound
  dialect : q'.dialect = q.dialect
  text : q'.text = q.text
  total : q'.total = q.total

/-- The second spot is one round further in the same scan. -/
structure Next (q q' : Spot) : Prop extends q.Leads q' where
  closer : q'.distance < q.distance

/-- The spot behind a piece of text. -/
def push (q : Spot) (piece : Piece) (rest : List Char) : Spot :=
  { q with pieces := q.pieces ++ [piece], rest := rest }

/-- The spot behind characters that finish tokens. -/
def finish (q : Spot) (out : List Token) (modes : List Mode) (taken rest : List Char) : Spot :=
  ⟨q.dialect, q.tokens ++ out, modes, q.before ++ piecesSource q.pieces ++ taken, [], rest⟩

section

variable {q : Spot}

theorem pause_le (modes : List Mode) : pause modes ≤ 1 := by
  unfold pause
  split <;> simp

theorem index_eq (q : Spot) : q.index = (q.before ++ piecesSource q.pieces).length := by
  rw [index, List.length_append, length_piecesSource]

theorem text_drop (q : Spot) : q.text.drop q.index = q.rest := by
  rw [index_eq, text, List.drop_left]

theorem text_getElem? (q : Spot) (i : Nat) : q.text[q.index + i]? = q.rest[i]? := by
  rw [← List.getElem?_drop, text_drop]

theorem holds (q : Spot) : q.scanner.Holds q.before.length q.pieces.reverse := by
  unfold Scanner.Holds scanner
  by_cases h : q.pieces = []
  · simp [h, index, piecesWidth]
  · simp [h]

theorem placed_append (start : Nat) (as bs : List Piece) :
    placed start (as ++ bs) = placed start as ++ placed (start + piecesWidth as) bs := by
  induction as generalizing start with
  | nil => rfl
  | cons p as ih => simp [placed, ih, piecesWidth, Nat.add_assoc]

theorem map_piece_placed (start : Nat) (pieces : List Piece) :
    (placed start pieces).map PlacedPiece.piece = pieces := by
  induction pieces generalizing start with
  | nil => rfl
  | cons p pieces ih => simp [placed, ih]

theorem length_placed (start : Nat) (pieces : List Piece) :
    (placed start pieces).length = pieces.length := by
  rw [← List.length_map PlacedPiece.piece, map_piece_placed]

theorem positionAt_placed (start : Nat) (pieces : List Piece) (i : Nat) :
    ScanLoop.positionAt (placed start pieces) (start + piecesWidth pieces) i =
      start + piecesWidth (pieces.take i) := by
  induction pieces generalizing start i with
  | nil => simp [ScanLoop.positionAt, placed, piecesWidth]
  | cons p pieces ih =>
    cases i with
    | zero => simp [ScanLoop.positionAt, placed, piecesWidth]
    | succ i =>
      have hrest := ih (start + p.width) i
      simpa [ScanLoop.positionAt, placed, piecesWidth, Nat.add_assoc] using hrest

theorem runTokens_placed (start : Nat) (pieces : List Piece) (named : Nat) :
    ScanLoop.runTokens (placed start pieces) (start + piecesWidth pieces) named =
      (if 0 < pieces.length - named then
        [⟨.text (piecesText (pieces.take (pieces.length - named))), start,
          start + piecesWidth (pieces.take (pieces.length - named))⟩] else []) ++
      (if 0 < named then
        [⟨.identifier (piecesText (pieces.drop (pieces.length - named))),
          start + piecesWidth (pieces.take (pieces.length - named)),
          start + piecesWidth pieces⟩] else []) := by
  simp [ScanLoop.runTokens, positionAt_placed, map_piece_placed, length_placed, piecesWidth]

theorem runTokens_call (start : Nat) (pieces : List Piece) :
    ScanLoop.runTokens (placed start pieces) (start + piecesWidth pieces)
        (trailingName pieces).length = Scanner.callTokens start pieces := by
  obtain ⟨front, hsplit, hcall⟩ := callTokens_eq start pieces
  rw [runTokens_placed, hcall]
  generalize trailingName pieces = name at hsplit
  subst hsplit
  simp only [List.length_append, Nat.add_sub_cancel, List.take_left, List.drop_left,
    piecesWidth_append, Nat.add_assoc]
  cases front <;> cases name <;> simp

theorem trailingName_length_eq_iff {pieces : List Piece} (h : EscapesSpecial pieces)
    (hne : pieces ≠ []) : (trailingName pieces).length = pieces.length ↔
      isIdentifier (pieces.map Piece.char) = true := by
  constructor
  · intro hl
    have heq := (trailingName_suffix pieces).eq_of_length hl
    have hname := @trailingName_isIdentifier pieces (by rwa [heq])
    rwa [heq] at hname
  · intro hi
    have hplain : ∀ p ∈ pieces, Piece.plain p.char = p := by
      intro p hp
      cases p with
      | plain c => rfl
      | escaped c => exact absurd hp (not_mem_escaped_of_isIdentifier h hi c)
    have hall : (pieces.map Piece.char).map Piece.plain = pieces := by
      rw [List.map_map]
      exact (List.map_congr_left hplain).trans (List.map_id _)
    have hname := @trailingName_append [] _ (by simp [EscapesSpecial]) rfl hi
    rw [List.nil_append, hall] at hname
    rw [hname]

theorem leadsFunction_loop (hq : q.Sound) :
    q.loop.leadsFunction = (q.dialect == .singleFunction && !q.scanner.started) := by
  cases ht : q.tokens with
  | nil => simp [ScanLoop.leadsFunction, loop, scanner, ht, hq.opens ht]
  | cons t ts => simp [ScanLoop.leadsFunction, loop, scanner, ht]

theorem runTokens_text (hq : q.Sound) (hne : q.pieces ≠ []) :
    ScanLoop.runTokens (placed q.before.length q.pieces) q.index
      (if (trailingName q.pieces).length == q.pieces.length && q.loop.leadsFunction then
        (trailingName q.pieces).length else 0) =
      [q.scanner.textToken q.before.length q.pieces] := by
  have hlength : 0 < q.pieces.length := List.length_pos_iff.mpr hne
  have hname : q.scanner.namesFunction q.pieces =
      ((trailingName q.pieces).length == q.pieces.length && q.loop.leadsFunction) := by
    rw [leadsFunction_loop hq, Scanner.namesFunction, Bool.and_comm]
    congr 1
    rw [Bool.eq_iff_iff, beq_iff_eq, trailingName_length_eq_iff hq.escapes hne]
  rw [← hname, index, runTokens_placed, Scanner.textToken]
  cases hn : q.scanner.namesFunction q.pieces with
  | true =>
    rw [hname, Bool.and_eq_true, beq_iff_eq] at hn
    simp [hn.1, hlength, piecesWidth]
  | false => simp [hlength]

/-- Emitting the pending text does what the scanner does. -/
theorem flush_loop (hq : q.Sound) (beforeParen : Bool) :
    q.loop.flush beforeParen =
      { q.loop with
        run := [],
        tokens := q.tokens ++
          if beforeParen then q.scanner.flushBeforeParen else q.scanner.flush } := by
  by_cases hne : q.pieces = []
  · have hrun : q.loop.run = [] := by simp [loop, hne, placed]
    have hpending : q.scanner.pending = .nothing := by simp [scanner, hne]
    simp only [ScanLoop.flush, hrun, List.isEmpty_nil, Scanner.flushBeforeParen, Scanner.flush,
      hpending, ite_self, List.append_nil, if_true]
    simp [loop, hne, placed]
  · have hpending : q.scanner.pending = .run q.before.length q.pieces.reverse := by
      simp [scanner, hne]
    have hrun : q.loop.run.isEmpty = false := by
      rw [List.isEmpty_eq_false_iff, ← List.length_pos_iff]
      simpa [loop, length_placed, List.length_pos_iff] using hne
    have hmap : q.loop.run.map PlacedPiece.piece = q.pieces := map_piece_placed _ _
    have hlength : q.loop.run.length = q.pieces.length := length_placed _ _
    simp only [ScanLoop.flush, hrun, hmap, hlength, Scanner.flushBeforeParen, Scanner.flush,
      hpending, List.reverse_reverse, Bool.false_eq_true, if_false]
    cases beforeParen with
    | true =>
      have hcall := runTokens_call q.before.length q.pieces
      simpa [loop, index] using hcall
    | false =>
      have htext := runTokens_text hq hne
      simpa [loop] using htext

theorem text_push {piece : Piece} {cs : List Char} (h : q.rest = piece.source ++ cs) :
    piecesSource (q.push piece cs).pieces ++ cs = piecesSource q.pieces ++ q.rest := by
  simp [push, piecesSource, h]

theorem loop_push {piece : Piece} {cs : List Char} (h : q.rest = piece.source ++ cs) :
    q.loop.add piece = (q.push piece cs).loop := by
  have htext := text_push h
  have hindex : (q.push piece cs).index = q.index + piece.width := by
    simp [index, push, piecesWidth_append, piecesWidth, Nat.add_assoc]
  simp only [ScanLoop.add, loop, hindex, text]
  simp only [push, placed_append] at htext ⊢
  simp [placed, index, htext]

theorem next_push (hq : q.Sound) {piece : Piece} {cs : List Char}
    (hm : escapable q.dialect q.modes ≠ []) (hr : q.rest = piece.source ++ cs)
    (he : ∀ c, piece = .escaped c → c ∈ expressionSpecial)
    (hk : piece = .plain escapeChar → ∀ c, cs.head? = some c → c ∉ escapable q.dialect q.modes)
    (hread : q.scanner.read q.rest = (q.push piece cs).scanner.read cs) :
    q.Next (q.push piece cs) where
  sound := {
    stacked := hq.stacked
    opens := hq.opens
    quiet := fun h => absurd h hm
    escapes := by
      intro c hc
      rcases List.mem_append.mp hc with hc | hc
      · exact hq.escapes c hc
      · exact he c (List.mem_singleton.mp hc).symm
    kept := by
      intro hl
      rw [Spot.push, List.getLast?_concat, Option.some.injEq] at hl
      exact hk hl
    literal := by
      intro hd hp
      have hp : [escapeChar, '('] <+: piecesSource q.pieces ++ q.rest := text_push hr ▸ hp
      have hhead := hq.literal hd hp
      simp [Spot.push, List.head?_append, hhead] }
  dialect := rfl
  text := by
    have htext := text_push hr
    simp only [Spot.push, Spot.text, List.append_assoc] at htext ⊢
    rw [htext]
  total := by rw [Spot.total, Spot.total, hread]; rfl
  closer := by
    have hw : 0 < piece.source.length := by cases piece <;> simp [Piece.source]
    simp only [distance, Spot.push, hr, List.length_append]
    omega

theorem loop_finish {out : List Token} {modes : List Mode} {taken cs : List Char}
    (h : q.rest = taken ++ cs) : (q.finish out modes taken cs).loop =
      { q.loop with
        index := q.index + taken.length
        layers := modes.map .inner ++ [.root q.dialect.root]
        run := []
        tokens := q.tokens ++ out } := by
  simp [loop, finish, text, index, h, placed, piecesSource, ← length_piecesSource,
    Nat.add_assoc]

theorem next_finish {out : List Token} {modes : List Mode} {taken cs : List Char}
    (hm : Settled modes) (ht : taken ≠ []) (hr : q.rest = taken ++ cs)
    (ho : q.tokens = [] → out ≠ [])
    (hread : q.scanner.read q.rest =
      out ++ (⟨q.dialect, q.index + taken.length, modes, .nothing, true⟩ : Scanner).read cs) :
    q.Next (q.finish out modes taken cs) where
  sound := {
    stacked := hm.stacked
    opens := by
      intro h
      rw [Spot.finish, List.append_eq_nil_iff] at h
      exact absurd h.2 (ho h.1)
    quiet := fun _ => rfl
    escapes := by simp [Spot.finish, EscapesSpecial]
    kept := by simp [Spot.finish]
    literal := fun h => absurd h hm.unlettered }
  dialect := rfl
  text := by simp [Spot.finish, Spot.text, hr, piecesSource]
  total := by
    have hne : (q.tokens ++ out).isEmpty = false := by
      rw [List.isEmpty_eq_false_iff]
      intro h
      rw [List.append_eq_nil_iff] at h
      exact ho h.1 h.2
    have hs : (q.finish out modes taken cs).scanner =
        ⟨q.dialect, q.index + taken.length, modes, .nothing, true⟩ := by
      simp only [Spot.scanner, Spot.finish, hne]
      simp [index, piecesWidth, ← length_piecesSource, Nat.add_assoc]
    rw [Spot.total, Spot.total, hread, hs]
    simp [Spot.finish]
  closer := by
    have hw : 0 < taken.length := List.length_pos_iff.mpr ht
    have hp := pause_le modes
    simp only [distance, Spot.finish, hr, List.length_append]
    omega

theorem Sound.not_afterEscape (hq : q.Sound) {c : Char} (hr : q.rest.head? = some c)
    (hc : c ∈ escapable q.dialect q.modes) : q.scanner.afterEscape = false := by
  cases ha : q.scanner.afterEscape with
  | false => rfl
  | true =>
    obtain ⟨start, pieces, hp⟩ := Scanner.afterEscape_pending ha
    have hl : q.pieces.getLast? = some (.plain escapeChar) := by
      simp only [scanner] at hp
      split at hp
      next => cases hp
      next =>
        rw [← List.head?_reverse, (Pending.run.inj hp).2]
        rfl
    exact absurd hc (hq.kept hl c hr)

theorem scanner_push (q : Spot) (piece : Piece) (cs : List Char) :
    (q.push piece cs).scanner =
      { q.scanner with
        offset := q.index + piece.width
        pending := .run q.before.length (piece :: q.pieces.reverse) } := by
  simp [scanner, push, index, piecesWidth_append, piecesWidth, Nat.add_assoc]

theorem next_plain (hq : q.Sound) {c : Char} {cs : List Char}
    (hm : escapable q.dialect q.modes ≠ []) (hr : q.rest = c :: cs)
    (hk : c = escapeChar → ∀ d, cs.head? = some d → d ∉ escapable q.dialect q.modes)
    (hstep : q.scanner.step c = q.scanner.extend (.plain c)) : q.Next (q.push (.plain c) cs) := by
  refine next_push hq hm hr (by simp) (fun h => hk (Piece.plain.inj h)) ?_
  rw [hr, Scanner.read_cons, hstep, q.holds.extend, scanner_push]
  rfl

theorem next_escaped (hq : q.Sound) {c : Char} {cs : List Char}
    (hr : q.rest = escapeChar :: c :: cs) (hc : c ∈ escapable q.dialect q.modes) :
    q.Next (q.push (.escaped c) cs) := by
  have hm : escapable q.dialect q.modes ≠ [] := List.ne_nil_of_mem hc
  have hspecial := Scanner.escapable_subset hc
  refine next_push hq hm hr (fun d hd => Piece.escaped.inj hd ▸ hspecial) (by simp) ?_
  -- The scanner takes the escape character for itself first, and corrects that.
  have hfirst : q.scanner.step escapeChar =
      ([], (q.push (.plain escapeChar) (c :: cs)).scanner) := by
    rw [Scanner.step_escapeChar hm, q.holds.extend, scanner_push]
    rfl
  have hsecond : (q.push (.plain escapeChar) (c :: cs)).scanner.step c =
      ([], (q.push (.escaped c) cs).scanner) := by
    rw [Scanner.step_escaped hc (by simp [scanner_push, Scanner.afterEscape]), scanner_push,
      scanner_push]
    rfl
  rw [hr, Scanner.read_cons, hfirst, Scanner.read_cons, hsecond]
  rfl

theorem escape_loop (hq : q.Sound) {tail : List Char} (hm : escapable q.dialect q.modes ≠ [])
    (hr : q.rest = escapeChar :: tail) :
    ∃ q', q.loop.escape (escapable q.dialect q.modes) = q'.loop ∧ q.Next q' := by
  have hnext : q.loop.text[q.loop.index + 1]? = tail.head? :=
    (q.text_getElem? 1).trans (by rw [hr, List.head?_eq_getElem?]; rfl)
  have hplain : (∀ c, tail.head? = some c → c ∉ escapable q.dialect q.modes) →
      ∃ q', q.loop.add (.plain escapeChar) = q'.loop ∧ q.Next q' := fun hk =>
    ⟨_, loop_push hr, next_plain hq hm hr (fun _ => hk) (Scanner.step_escapeChar hm)⟩
  unfold ScanLoop.escape
  rw [hnext]
  cases tail with
  | nil => exact hplain (by simp)
  | cons c cs =>
    simp only [List.head?_cons]
    split
    next hc => exact ⟨_, loop_push hr, next_escaped hq hr hc⟩
    next hc => exact hplain (by simpa using hc)

/-- The spot behind punctuation. -/
def emit (q : Spot) (p : Punct) (modes : List Mode) (c : Char) (cs : List Char) : Spot :=
  q.finish (q.scanner.flush ++ [q.scanner.punctToken p]) modes [c] cs

theorem next_emit {p : Punct} {modes : List Mode} {c : Char} {cs : List Char}
    (hm : Settled modes) (hr : q.rest = c :: cs)
    (hstep : q.scanner.step c = q.scanner.emit p modes) : q.Next (q.emit p modes c cs) := by
  refine next_finish hm (by simp) hr (by simp) ?_
  rw [hr, Scanner.read_cons, hstep]
  rfl

theorem emit_loop (hq : q.Sound) {c : Char} {cs : List Char} (hr : q.rest = c :: cs) (p : Punct)
    (modes : List Mode) : (q.emit p modes c cs).loop =
      { (q.loop.flush false).emit p with
        layers := modes.map .inner ++ [.root q.dialect.root] } := by
  rw [emit, loop_finish hr, flush_loop hq]
  simp [ScanLoop.emit, loop, Scanner.punctToken, scanner]

/-- Without a pending text punctuation can be emitted directly. -/
theorem flush_of_nil (h : q.pieces = []) (beforeParen : Bool) :
    q.loop.flush beforeParen = q.loop := by
  simp [ScanLoop.flush, loop, h, placed]

end

end Spot

namespace ScanLoop

variable {l : ScanLoop} {mode : Mode} {modes : List Mode} {root : Layer}

theorem leave_eq (h : l.layers = (mode :: modes).map .inner ++ [root]) :
    l.leave = { l with layers := modes.map .inner ++ [root] } := by
  simp [leave, h]

theorem replace_eq (h : l.layers = (mode :: modes).map .inner ++ [root]) (new : Mode) :
    l.replace new = { l with layers := (new :: modes).map .inner ++ [root] } := by
  simp [replace, h]

theorem encloses_eq (h : l.layers = modes.map .inner ++ [root]) (mode : Mode) :
    l.encloses mode = decide (mode ∈ modes) := by
  simp [encloses, h]

theorem unwindTo_eq (h : mode ∈ modes) :
    unwindTo mode (modes.map .inner ++ [root]) =
      (mode :: Scanner.leave mode modes).map .inner ++ [root] := by
  induction modes with
  | nil => cases h
  | cons m below ih =>
    by_cases hm : m = mode
    · subst hm
      cases below <;> simp [unwindTo, Scanner.leave]
    · have hin : mode ∈ below := by simpa [Ne.symm hm] using h
      have hrest := ih hin
      rw [Scanner.leave_cons_of_ne hm, ← hrest]
      cases below with
      | nil => cases hin
      | cons n below => simp [unwindTo, hm]

end ScanLoop

namespace Spot

variable {q : Spot} {c : Char} {cs : List Char}

theorem layers_emit (hq : q.Sound) (p : Punct) :
    ((q.loop.flush false).emit p).layers = q.modes.map .inner ++ [.root q.dialect.root] := by
  rw [flush_loop hq]
  rfl

theorem emit_loop_same (hq : q.Sound) (hr : q.rest = c :: cs) (p : Punct) :
    (q.loop.flush false).emit p = (q.emit p q.modes c cs).loop := by
  rw [emit_loop hq hr, ← layers_emit hq p]

theorem enterWith_loop (hq : q.Sound) (hr : q.rest = c :: cs) (p : Punct) (mode : Mode) :
    q.loop.enterWith p mode = (q.emit p (mode :: q.modes) c cs).loop := by
  rw [emit_loop hq hr, ScanLoop.enterWith, ScanLoop.enter, layers_emit hq]
  rfl

theorem close_loop (hq : q.Sound) (hr : q.rest = c :: cs) (p : Punct) (mode : Mode) :
    q.loop.close p mode =
      (q.emit p (if mode ∈ q.modes then Scanner.leave mode q.modes else q.modes) c cs).loop := by
  have hlayers := layers_emit hq p
  unfold ScanLoop.close
  rw [emit_loop hq hr]
  simp only [ScanLoop.encloses_eq hlayers, decide_eq_true_eq]
  split
  next hm => rw [ScanLoop.leave_eq (by rw [hlayers, ScanLoop.unwindTo_eq hm])]
  next => rw [← hlayers]

end Spot

end CommandTemplate
