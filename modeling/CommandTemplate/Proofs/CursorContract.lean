import CommandTemplate.Proofs.CursorSubstitution
import CommandTemplate.Proofs.Mistakes

namespace CommandTemplate

namespace Tape

open Logged

variable {T : Tape}

/-- Groups of fewer than `width` tokens that open at the given depth are read by `walk` as `group`
reads them. -/
def Serves (T : Tape) (depth width : Nat) (walk : Nat → Walk (List Expr)) (group : GroupReader) :
    Prop :=
  ∀ stop c, c.depth = depth → c.pos ≤ stop → stop ≤ T.tokens.length → stop - c.pos < width →
    T.Agrees (walk stop) c stop (group (T.region c.pos stop))

section

variable {walk : Nat → Walk (List Expr)} {group : GroupReader}

theorem Serves.mono {depth width narrow : Nat} (h : T.Serves depth width walk group)
    (hw : narrow ≤ width) : T.Serves depth narrow walk group := by
  intro stop c hd hpos hs hlt
  exact h stop c hd hpos hs (by omega)

theorem readAngleGroup_reads {limit : Nat} {c : Cursor}
    (hg : T.Serves c.depth (limit - c.pos) walk group) (hc : c.pos < limit)
    (hl : limit ≤ T.tokens.length) :
    T.Reads (T.readAngleGroup walk limit) c limit
      (parseAngleGroup group (T.edge limit) (T.slice (c.pos + 1) limit)) := by
  obtain ⟨r, hr, hf⟩ := findPunct_finds .closeAngle (show c.pos + 1 ≤ limit by omega) hl
  rw [parseAngleGroup]
  cases hf with
  | nothing hp hd =>
    rw [hp, hd]
    refine .of_stop hl (Nat.le_refl limit) (by rw [slice_nil (Nat.le_refl limit)]) ?_
    rw [readAngleGroup, edge_place]
    refine .advance fun c' hc' hd' => .look rfl ?_
    rw [hc']
    refine .look (hr c') (.bind (.mistake _ _) fun _ c'' hc'' hd'' => ?_)
    have hgroup := hg limit c'' (by omega) (by omega) hl (by omega)
    rw [show c''.pos = c.pos + 1 by omega] at hgroup
    exact .bind hgroup fun es c3 hc3 _ => .pure _ hc3
  | @found close t hij hj ht hp hd =>
    rw [hp, hd]
    refine .of_stop hl (show close + 1 ≤ limit by omega) rfl ?_
    rw [readAngleGroup]
    refine .advance fun c' hc' hd' => .look rfl ?_
    rw [hc']
    refine .look (hr c') ?_
    have hgroup := hg close c' hd' (by omega) (by omega) (by omega)
    rw [hc', region, edge_of_token ht] at hgroup
    exact .bind hgroup fun es c3 _ _ => .moveTo fun c4 hc4 _ => .pure _ hc4

theorem Reads.look {α : Type} {w : Walk α} {f : α → Walk (Option Expr)} {c : Cursor} {limit : Nat}
    {p : Parsed} {a : α} (hw : w c = some (.ok a, c)) (hf : T.Reads (f a) c limit p) :
    T.Reads (w >>= f) c limit p :=
  Agrees.look hw hf

theorem Reads.advance {f : Unit → Walk (Option Expr)} {c : Cursor} {limit : Nat} {p : Parsed}
    (hf : ∀ c', c'.pos = c.pos + 1 → c'.depth = c.depth → T.Reads (f ()) c' limit p) :
    T.Reads (Walk.advance >>= f) c limit p :=
  Agrees.advance hf

theorem skipDefault_reads {limit rounds : Nat} {c : Cursor} (colon : Token) (hc : c.pos ≤ limit)
    (hl : limit ≤ T.tokens.length) (hr : limit - c.pos < rounds) :
    T.Reads (do
      Walk.mistake .expressionExpected (.place colon.stop)
      T.skipToQuestion limit rounds
      pure none) c limit (skipDefault (T.edge limit) colon (T.slice c.pos limit)) := by
  obtain ⟨skipped, r, ha⟩ := exists_ahead (·.isPunct .question) hc hl
  have hlen := ha.length_le
  have hread : T.Agrees (do
      Walk.mistake .expressionExpected (.place colon.stop)
      T.skipToQuestion limit rounds
      pure none) c (behind limit r) (do
      mistake .expressionExpected (.place colon.stop)
      noneUnderstood skipped
      T.settle (.general .questionMarkExpected) limit r
      pure (none : Option Expr)) := by
    refine .bind (.mistake _ _) fun _ c' hc' _ => ?_
    have hskip := skipToQuestion_agrees ha (show skipped.length < rounds by omega) hc'
    have := hskip.bind (f := fun _ => pure none) (g := fun _ => pure (none : Option Expr))
      fun _ c'' hc'' _ => .pure none hc''
    rw [bind_def, bind_def, andThen_assoc] at this
    exact this
  rw [skipDefault, ha.takeUntil_eq]
  rcases r with _ | ⟨j, u⟩
  · rw [ha.dropUntil_eq_nil]
    exact .of_stop hl (Nat.le_refl limit) (by rw [slice_nil (Nat.le_refl limit)]) hread
  · obtain ⟨_, hj, _, _, hd⟩ := ha.dropUntil_eq_cons
    rw [hd]
    exact .of_stop hl (show j + 1 ≤ limit by omega) rfl hread

/-- The default in parentheses. -/
theorem readGroupDefault_reads {limit rounds : Nat} {c : Cursor} {colon t : Token}
    (hg : T.Serves c.depth (limit - c.pos) walk group) (hc : c.pos < limit)
    (hl : limit ≤ T.tokens.length) (ht : T.tokens[c.pos]? = some t)
    (hv : t.value = .punct .openParen) :
    T.Reads (T.readDefault walk rounds colon limit) c limit
      (parseDefault group (T.edge limit) colon (t :: T.slice (c.pos + 1) limit)) := by
  obtain ⟨r, hr, hf⟩ := findOutsidePunct_close_finds (show c.pos + 1 ≤ limit by omega) hl
  rw [readDefault]
  refine .look (tokenBefore_eq_some hc ht) ?_
  simp only [parseDefault, hv]
  cases hf with
  | nothing hp hd =>
    rw [hp, hd]
    refine .of_stop hl (Nat.le_refl limit) (by rw [slice_nil (Nat.le_refl limit)]) ?_
    refine .advance fun c' hc' hd' => .look rfl ?_
    rw [hc', edge_place]
    refine .look (hr c') (.bind (.mistake _ _) fun _ c'' hc'' hd'' => ?_)
    have hgroup := hg limit c'' (by omega) (by omega) hl (by omega)
    rw [show c''.pos = c.pos + 1 by omega] at hgroup
    exact .bind hgroup fun _ c3 hc3 _ => .pure none hc3
  | @found close u hij hj hu hp hd =>
    rw [hp, hd]
    refine .advance fun c' hc' hd' => .look rfl ?_
    rw [hc']
    refine .look (hr c') ?_
    have hgroup := hg close c' hd' (by omega) (by omega) (by omega)
    rw [hc', region, edge_of_token hu] at hgroup
    dsimp only
    rw [parseDefaultEnd_eq _ _ _ (.group [])]
    simp only [bind_def, andThen_assoc, pure_def, value_andThen]
    refine .bind hgroup fun es c3 _ hd3 => .moveTo fun c4 hc4 _ => ?_
    have hend := readDefaultEnd_reads (.group es) (show c4.pos ≤ limit by omega) hl
    rw [Reads, hc4, parseDefaultEnd_eq] at hend
    exact hend

theorem readDefault_reads {limit rounds : Nat} {c : Cursor} (colon : Token)
    (hg : T.Serves c.depth (limit - c.pos) walk group) (hc : c.pos ≤ limit)
    (hl : limit ≤ T.tokens.length) (hr : limit - c.pos < rounds) :
    T.Reads (T.readDefault walk rounds colon limit) c limit
      (parseDefault group (T.edge limit) colon (T.slice c.pos limit)) := by
  rcases Nat.eq_or_lt_of_le hc with he | hlt
  · rw [slice_nil (by omega), parseDefault]
    refine .of_stop hl (Nat.le_refl limit) (by rw [slice_nil (Nat.le_refl limit)]) ?_
    rw [readDefault]
    refine .look (tokenBefore_eq_none (by omega)) ?_
    rw [← edge_place]
    exact .bind (.mistake _ _) fun _ c' hc' _ => .pure none (by omega)
  · obtain ⟨t, ht, hs⟩ := slice_cons hlt hl
    have hlook := tokenBefore_eq_some hlt ht
    have hskip := skipDefault_reads colon hc hl hr
    rw [hs] at hskip ⊢
    by_cases hopen : t.value = .punct .openParen
    · exact readGroupDefault_reads hg hlt hl ht hopen
    rw [readDefault]
    refine .look hlook ?_
    dsimp only [parseDefault]
    cases hv : t.value with
    | text s =>
      refine .advance fun c' hc' _ => ?_
      rw [← hc']
      exact readDefaultEnd_reads (.literal s) (by omega) hl
    | integer n => exact hskip
    | identifier name => exact hskip
    | punct p =>
      cases p with
      | openParen => exact absurd hv hopen
      | question =>
        have hq : t.isPunct .question = true := Token.isPunct_iff.mpr hv
        refine .of_stop hl (show c.pos + 1 ≤ limit by omega) ?_ ?_
        · simp [skipDefault, dropUntil, hq]
        · simp only [skipDefault, dropUntil, takeUntil, List.dropWhile_cons, List.takeWhile_cons,
            hq, Bool.not_true, Bool.false_eq_true, if_false]
          exact .bind (.mistake _ _) fun _ c' hc' _ => .advance fun c'' hc'' _ =>
            .pure none (by omega)
      | _ => exact hskip

theorem readOptional_reads {limit rounds : Nat} {c : Cursor} {t : Token}
    (hg : T.Serves c.depth (limit - c.pos) walk group) (hc : c.pos < limit)
    (hl : limit ≤ T.tokens.length) (hr : limit - c.pos < rounds)
    (ht : T.tokens[c.pos]? = some t) :
    T.Reads (T.readOptional walk rounds limit) c limit
      (parseOptional group (T.edge limit) t.start (T.slice (c.pos + 1) limit)) := by
  obtain ⟨inner, r, ha⟩ :=
    exists_ahead Marker.optional.endsBody (show c.pos + 1 ≤ limit by omega) hl
  have hlen := ha.length_le
  have hbody := readSubstitution_agrees ht ha (show inner.length + 1 < rounds by omega)
  rw [readOptional, parseOptional, ha.takeUntil_eq]
  rcases r with _ | ⟨j, u⟩
  · rw [ha.dropUntil_eq_nil]
    refine .of_stop hl (Nat.le_refl limit) (by rw [slice_nil (Nat.le_refl limit)]) ?_
    rw [parseUnclosedBody_eq t.start]
    refine .bind hbody fun s c' hc' _ => ?_
    have hc' : c'.pos = limit := hc'
    exact .look (tokenBefore_eq_none (by omega)) (.pure none hc')
  · obtain ⟨hij, hj, hu, hp, hd⟩ := ha.dropUntil_eq_cons
    rw [hd]
    dsimp only
    cases hcolon : u.isPunct .colon with
    | true =>
      refine .bind hbody fun s c' hc' hd' => ?_
      have hc' : c'.pos = j := hc'
      subst hc'
      refine .look (tokenBefore_eq_some hj hu) (.advance fun c'' hc'' hd'' => ?_)
      rw [if_pos hcolon, ← hc'']
      have hserves : T.Serves c''.depth (limit - c''.pos) walk group := by
        rw [hd'', hd']
        exact hg.mono (by omega)
      refine .bind (readDefault_reads u hserves (by omega) hl (by omega)) fun e c3 hc3 _ => ?_
      cases e with
      | none => exact .pure none hc3
      | some e => exact .pure _ hc3
    | false =>
      refine .of_stop hl (show j + 1 ≤ limit by omega) rfl ?_
      refine .bind hbody fun s c' hc' hd' => ?_
      have hc' : c'.pos = j := hc'
      subst hc'
      refine .look (tokenBefore_eq_some hj hu) (.advance fun c'' hc'' hd'' => ?_)
      rw [if_neg (by simp [hcolon])]
      exact .pure _ hc''

theorem region_parts_self (bound : Nat) :
    (T.region bound bound).parts = [T.region bound bound] := by
  simp [region, slice_nil, Region.parts, cutAtCommas]

theorem parameterMissing_agrees (i : Nat) (c : Cursor) :
    T.Agrees (T.parameterMissing i) c c.pos
      (mistake .parameterMissing (.place ((T.edge i).offset - 1))) := by
  rw [← regionEnd_eq]
  exact .mistake _ _

theorem readArguments_agrees {closed flag : Bool} {bound width rounds n : Nat} {c : Cursor}
    (hg : T.Serves c.depth width walk group) (hn : bound - c.pos = n) (hw : n < width)
    (hr : n < rounds) (hb : bound ≤ T.tokens.length) (hc : c.pos ≤ bound)
    (hflag : flag = false → c.pos < bound)
    (hd : dropEnclosed 0 (T.slice c.pos bound) = []) :
    T.Agrees (T.readArguments walk closed bound rounds flag) c bound
      (parseArguments group closed (T.region c.pos bound).parts) := by
  -- Every round passes a comma, but for the last one, which reads up to the bound.
  induction n using Nat.strongRecOn generalizing c flag rounds with
  | ind n ih =>
    obtain ⟨rounds, rfl⟩ := exists_rounds hr
    rw [readArguments]
    refine .look rfl ?_
    rcases Nat.eq_or_lt_of_le hc with he | hlt
    · rw [if_pos (by omega), he, region_parts_self]
      obtain rfl : flag = true := by
        cases flag with
        | true => rfl
        | false => exact absurd (hflag rfl) (by omega)
      simp only [region, slice_nil (Nat.le_refl bound), parseArguments]
      cases closed with
      | true =>
        exact .bind (parameterMissing_agrees bound c) fun _ c' hc' _ => .pure [] (by omega)
      | false => exact .pure [] he
    · rw [if_neg (by omega)]
      obtain ⟨t, ht, hs⟩ := slice_cons hlt hb
      refine .look (tokenAt_eq ht c) ?_
      cases hcomma : t.isPunct .comma with
      | true =>
        have hv := Token.isPunct_iff.mp hcomma
        have hstay : t.depthAfter 0 = 0 :=
          Token.depthAfter_of_not_paren 0 (by simp [hv]) (by simp [hv])
        have hparts : (T.region c.pos bound).parts =
            ⟨[], .before t.start⟩ :: (T.region (c.pos + 1) bound).parts := by
          simp [region, Region.parts, hs, cutAtCommas, hcomma]
        have hlater : dropEnclosed 0 (T.slice (c.pos + 1) bound) = [] := by
          simpa [hs, dropEnclosed, Token.isPunct_iff, hv, hstay] using hd
        rw [hparts, parseArguments]
        simp only [if_true, List.isEmpty_nil]
        rw [if_neg (by simp [Region.parts])]
        have hmiss := T.parameterMissing_agrees c.pos c
        rw [edge_of_token ht] at hmiss
        refine .bind hmiss fun _ c' hc' hd' => .advance fun c'' hc'' hd'' => ?_
        rw [← hc', ← hc''] at hlater ⊢
        have hserves : T.Serves c''.depth width walk group := by
          rw [hd'', hd']
          exact hg
        exact ih (bound - c''.pos) (by omega) hserves rfl (by omega) (by omega) (by omega) (by simp)
          hlater
      | false =>
        rw [if_neg (by simp)]
        obtain ⟨r, hr, hcut⟩ := findOutsidePunct_comma_cuts hc hb hd
        refine .look (hr c) ?_
        cases r with
        | none =>
          have hgroup := hg bound c rfl hc hb (by omega)
          rw [hcut.parts_whole, parseArguments, if_neg (by simp [region, hs])]
          refine .bind hgroup fun e c' hc' hd' => ?_
          have hlast : T.Agrees (T.readArguments walk closed bound rounds false) c' bound
              (pure []) := by
            obtain ⟨rounds, rfl⟩ := exists_rounds (show 0 < rounds by omega)
            rw [readArguments]
            refine .look rfl ?_
            rw [if_pos (by omega)]
            exact .pure [] hc'
          exact .bind hlast fun es c'' hc'' _ => .pure _ hc''
        | some j =>
          obtain ⟨hij, hj, ⟨u, hu, hp⟩, hparts, hrest⟩ := hcut.parts_part
          have hlt' : c.pos < j := by
            rcases Nat.eq_or_lt_of_le hij with heq | hlt'
            · rw [← heq, ht] at hu
              cases hu
              simp [hcomma] at hp
            · exact hlt'
          have hgroup := hg j c rfl hij (by omega) (by omega)
          rw [hparts, parseArguments, if_neg (by simp [region, slice_eq_cons ht hlt'])]
          refine .bind hgroup fun e c' hc' hd' => .moveTo fun c'' hc'' hd'' => ?_
          have hserves : T.Serves c''.depth width walk group := by
            rw [hd'', hd']
            exact hg
          rw [← hc''] at hrest ⊢
          have hmore := @ih (bound - c''.pos) (by omega) true rounds c'' hserves rfl (by omega)
            (by omega) (by omega) (by simp) hrest
          exact .bind hmore fun es c3 hc3 _ => .pure _ hc3

theorem readArgumentList_agrees {bound width rounds : Nat} {c : Cursor} (closed : Bool)
    (hg : T.Serves c.depth width walk group) (hw : bound - c.pos < width)
    (hr : bound - c.pos < rounds)
    (hb : bound ≤ T.tokens.length) (hc : c.pos ≤ bound)
    (hd : dropEnclosed 0 (T.slice c.pos bound) = []) :
    T.Agrees (T.readArguments walk closed bound rounds false) c bound
      (parseArgumentList group closed (T.region c.pos bound)) := by
  rw [parseArgumentList]
  rcases Nat.eq_or_lt_of_le hc with he | hlt
  · obtain ⟨rounds, rfl⟩ := exists_rounds hr
    have hnone : (T.region c.pos bound).tokens = [] := slice_nil (by omega)
    rw [if_pos (by simp [hnone]), readArguments]
    refine .look rfl ?_
    rw [if_pos (by omega)]
    exact .pure [] he
  · obtain ⟨t, _, hs⟩ := slice_cons hlt hb
    rw [if_neg (by simp [region, hs])]
    exact readArguments_agrees hg rfl hw hr hb hc (fun _ => hlt) hd

theorem readOpenCall_reads {limit width rounds : Nat} {c : Cursor} (name : String)
    (hg : T.Serves c.depth width walk group) (hw : limit - c.pos < width) (hc : c.pos ≤ limit)
    (hl : limit ≤ T.tokens.length) (hr : limit - c.pos < rounds) :
    T.Reads (T.readOpenCall walk rounds name limit) c limit
      (parseOpenCall T.lenient group (T.edge limit) name (T.slice c.pos limit)) := by
  obtain ⟨r, hfind, hf⟩ := findOutsidePunct_close_finds hc hl
  have hinside := dropEnclosed_takeEnclosed 0 (T.slice c.pos limit)
  rw [readOpenCall, parseOpenCall]
  refine .look rfl (.look (hfind c) ?_)
  cases hf with
  | nothing hp hd =>
    rw [hp, hd]
    refine .of_stop hl (Nat.le_refl limit) (by rw [slice_nil (Nat.le_refl limit)]) ?_
    dsimp only
    rw [Nat.min_eq_left hl]
    refine .bind (readArgumentList_agrees false hg hw hr hl hc hd) fun as c' hc' _ => ?_
    rw [edge_isInputEnd]
    cases T.lenient && decide (T.tokens.length ≤ limit) with
    | true => exact .pure _ hc'
    | false =>
      exact .bind (missing_agrees _ limit c') fun _ c'' hc'' _ => .pure _ hc''
  | @found close u hij hj hu hp hd =>
    rw [hp] at hinside
    have hargs := readArgumentList_agrees true hg (by omega) (show close - c.pos < rounds by omega)
      (by omega) hij hinside
    rw [region, edge_of_token hu] at hargs
    rw [hp, hd]
    refine .of_stop hl (show close + 1 ≤ limit by omega) rfl ?_
    exact .bind hargs fun as c' _ _ => .moveTo fun c'' hc'' _ => .pure _ hc''

theorem readCall_reads {limit rounds : Nat} {c : Cursor} {t : Token} {name : String}
    (hg : T.Serves c.depth (limit - c.pos) walk group) (hc : c.pos < limit)
    (hl : limit ≤ T.tokens.length) (hr : limit - c.pos < rounds) (ht : T.tokens[c.pos]? = some t)
    (hv : t.value = .identifier name) :
    T.Reads (T.readCall walk rounds limit) c limit
      (parseCall T.lenient group (T.edge limit) name (T.slice (c.pos + 1) limit)) := by
  rw [readCall]
  refine .look rfl (.look (tokenAt_eq ht c) ?_)
  simp only [hv]
  refine .advance fun c' hc' hd' => ?_
  rw [← hc']
  rw [← hd'] at hg
  rcases Nat.eq_or_lt_of_le (show c'.pos ≤ limit by omega) with he | hlt
  · rw [slice_nil (by omega), parseCall]
    refine .look (tokenBefore_eq_none (by omega)) ?_
    refine .of_stop hl (Nat.le_refl limit) (by rw [slice_nil (Nat.le_refl limit)]) ?_
    dsimp only
    cases T.lenient with
    | true => exact .pure _ he
    | false => exact .bind (missing_agrees _ limit c') fun _ c'' hc'' _ => .pure _ hc''
  · obtain ⟨u, hu, hs⟩ := slice_cons hlt hl
    refine .look (tokenBefore_eq_some hlt hu) ?_
    dsimp only
    rw [hs, parseCall]
    cases ho : u.isPunct .openParen with
    | true =>
      refine .advance fun c'' hc'' hd'' => ?_
      rw [← hd''] at hg
      have hopen := readOpenCall_reads name hg (by omega) (show c''.pos ≤ limit by omega) hl
        (show limit - c''.pos < rounds by omega)
      rw [hc''] at hopen
      exact hopen
    | false =>
      refine .bind (.mistake _ _) fun _ c'' hc'' hd'' => ?_
      rw [← hd''] at hg
      have hopen := readOpenCall_reads name hg (by omega) (show c''.pos ≤ limit by omega) hl
        (show limit - c''.pos < rounds by omega)
      rw [hc'', hs] at hopen
      exact hopen

theorem readExpression_reads {limit rounds : Nat} {c : Cursor} {t : Token}
    (hg : T.Serves c.depth (limit - c.pos) walk group) (hc : c.pos < limit)
    (hl : limit ≤ T.tokens.length) (hr : limit - c.pos < rounds)
    (ht : T.tokens[c.pos]? = some t) :
    T.Reads (T.readExpression walk rounds limit) c limit
      (parseExpression T.lenient group (T.edge limit) t (T.slice (c.pos + 1) limit)) := by
  have hskip : T.Reads (do
      Walk.notUnderstood t
      Walk.advance
      pure none) c limit ⟨do
        notUnderstood t
        pure none, T.slice (c.pos + 1) limit⟩ := by
    refine .of_stop hl (show c.pos + 1 ≤ limit by omega) rfl ?_
    exact .bind (notUnderstood_agrees ht c) fun _ c' hc' _ => .advance fun c'' hc'' _ =>
      .pure none (by omega)
  rw [readExpression]
  refine .look (tokenBefore_eq_some hc ht) ?_
  dsimp only [parseExpression]
  cases hv : t.value with
  | text s =>
    refine .of_stop hl (show c.pos + 1 ≤ limit by omega) rfl ?_
    exact .advance fun c' hc' _ => .pure _ hc'
  | identifier name => exact readCall_reads hg hc hl hr ht hv
  | integer n => exact hskip
  | punct p =>
    cases p with
    | openAngle => exact readAngleGroup_reads hg hc hl
    | exclamation => exact readImperative_reads ht hc hl hr
    | question => exact readOptional_reads hg hc hl hr ht
    | _ => exact hskip

theorem readExpressions_agrees {stop width rounds n : Nat} {c : Cursor}
    (hg : T.Serves c.depth width walk group) (hn : stop - c.pos = n) (hw : n ≤ width)
    (hr : n + 1 < rounds) (hc : c.pos ≤ stop) (hs : stop ≤ T.tokens.length) :
    T.Agrees (T.readExpressions walk stop rounds) c stop
      (parseExpressions T.lenient group (T.edge stop) (T.slice c.pos stop)) := by
  induction n using Nat.strongRecOn generalizing c rounds with
  | ind n ih =>
    obtain ⟨rounds, rfl⟩ := exists_rounds hr
    rw [readExpressions]
    refine .look rfl ?_
    rcases Nat.eq_or_lt_of_le hc with he | hlt
    · rw [if_neg (by omega), slice_nil (by omega), parseExpressions_nil]
      exact .pure [] he
    · obtain ⟨t, ht, hslice⟩ := slice_cons hlt hs
      rw [if_pos hlt, hslice, parseExpressions_cons]
      have hread := readExpression_reads (hg.mono (by omega)) hlt hs
        (show stop - c.pos < rounds by omega) ht
      have hsuffix := parseExpression_rest_suffix T.lenient group (T.edge stop) t
        (T.slice (c.pos + 1) stop)
      obtain ⟨hpos, hrest⟩ := slice_of_suffix (by omega) hs hsuffix
      refine .bind hread fun e c' hc' hd' => ?_
      rw [hrest, ← hc']
      have hserves : T.Serves c'.depth width walk group := by
        rw [hd']
        exact hg
      have hmore := @ih (stop - c'.pos) (by omega) rounds c' hserves rfl (by omega) (by omega)
        (by omega)
      exact .bind hmore fun es c'' hc'' _ => .pure _ hc''

end

theorem readGroup_agrees {width stop rounds : Nat} {c : Cursor}
    (hg : ∀ depth, T.Serves depth width (T.readGroup rounds)
      (parseGroup T.lenient (maxNesting - depth)))
    (hw : stop - c.pos ≤ width) (hr : stop - c.pos + 1 < rounds) (hc : c.pos ≤ stop)
    (hs : stop ≤ T.tokens.length) :
    T.Agrees (T.readGroup (rounds + 1) stop) c stop
      (parseGroup T.lenient (maxNesting - c.depth) (T.region c.pos stop)) := by
  rw [readGroup]
  by_cases hdeep : maxNesting ≤ c.depth
  · rw [Nat.sub_eq_zero_of_le hdeep, parseGroup]
    have henter : Walk.enter c = some (.error (.problem (.general .nestingTooDeep)), c) := by
      rw [Walk.enter, if_pos hdeep]
    exact ⟨c, Walk.bind_eq_of_error henter, ⟨by simp [abort], id, fun _ => id⟩, by simp [abort]⟩
  · have hbudget : maxNesting - c.depth = maxNesting - (c.depth + 1) + 1 := by omega
    rw [hbudget, parseGroup]
    let opened : Cursor := { c with depth := c.depth + 1, deepest := max c.deepest (c.depth + 1) }
    have henter : Walk.enter c = some (.ok (), opened) := by
      rw [Walk.enter, if_neg hdeep]
    obtain ⟨c', hread, ⟨hlog, hdeepest, hexact⟩, hend⟩ :=
      readExpressions_agrees (c := opened) (hg (c.depth + 1)) rfl hw hr hc hs
    have hopen : c.deepest ≤ maxNesting → opened.deepest ≤ maxNesting := by
      intro hle
      exact Nat.max_le.mpr ⟨hle, by omega⟩
    cases hx : (parseExpressions T.lenient (parseGroup T.lenient (maxNesting - (c.depth + 1)))
        (T.edge stop) (T.slice c.pos stop)).result with
    | error p =>
      rw [show opened.pos = c.pos from rfl, hx] at hread
      refine ⟨c', ?_, ⟨hlog, hdeepest ∘ hopen, hexact⟩, ?_⟩
      · rw [Walk.bind_eq_of_ok henter, Walk.bind_eq_of_error hread]
        simp only [region, hx]
        rfl
      · intro es hes
        simp only [region, hx] at hes
        cases hes
    | ok es =>
      obtain ⟨hpos, hdepth⟩ := hend es hx
      have hdepth : c'.depth = c.depth + 1 := hdepth
      rw [show opened.pos = c.pos from rfl, hx] at hread
      refine ⟨{ c' with depth := c'.depth - 1, exact := c'.exact && decide (1 ≤ c'.depth) }, ?_,
        ⟨hlog, hdeepest ∘ hopen, ?_⟩, ?_⟩
      · rw [Walk.bind_eq_of_ok henter, Walk.bind_eq_of_ok hread]
        simp only [region, hx]
        rfl
      · intro ho he
        simp [hexact ho he, hdepth]
      · intro _ _
        exact ⟨hpos, by simp [hdepth]⟩

/-- Every group is read by position, given a few rounds more than it has tokens. -/
theorem serves (T : Tape) {width rounds : Nat} (hr : width + 2 ≤ rounds) (depth : Nat) :
    T.Serves depth width (T.readGroup rounds) (parseGroup T.lenient (maxNesting - depth)) := by
  -- The groups inside a group have fewer tokens, so they are served by one round less.
  induction width generalizing rounds depth with
  | zero =>
    intro stop c _ _ _ hlt
    omega
  | succ width ih =>
    obtain ⟨rounds, rfl⟩ := exists_rounds (show 0 < rounds by omega)
    intro stop c hd hc hs hlt
    rw [← hd]
    exact readGroup_agrees (ih (by omega)) (by omega) (by omega) hc hs

/-- A read that agrees ends, looks only at positions that have a token, and opens no more groups
than are allowed. -/
theorem Agrees.ends {α : Type} {w : Walk α} {c : Cursor} {stop : Nat} {x : Logged α}
    (h : T.Agrees w c stop x) : ∃ result c', w c = some (result, c') ∧
      result = x.result.mapError .problem ∧ c'.log = c.log ++ x.log ∧ result ≠ .error .outside ∧
      (c.deepest ≤ maxNesting → c'.deepest ≤ maxNesting) ∧
      ∀ a, result = .ok a → c'.pos = stop ∧ c'.depth = c.depth := by
  obtain ⟨c', hc, ⟨hlog, hdeepest, _⟩, hend⟩ := h
  refine ⟨_, c', hc, rfl, hlog, ?_, hdeepest, ?_⟩
  · intro hout
    cases hx : x.result with
    | error p =>
      rw [hx] at hout
      cases hout
    | ok a =>
      rw [hx] at hout
      cases hout
  · intro a ha
    cases hx : x.result with
    | error p =>
      rw [hx] at ha
      cases ha
    | ok b => exact hend b hx

/-- Reading all tokens by position yields what `parseTokens` yields. -/
theorem readTokens_agrees (T : Tape) {rounds : Nat} (hr : T.tokens.length + 3 ≤ rounds) :
    T.Agrees (T.readGroup rounds T.tokens.length) ⟨0, 0, 0, true, []⟩ T.tokens.length
      (parseTokens T.lenient T.tokens T.length) := by
  have hread := @serves T (T.tokens.length + 1) rounds hr 0 T.tokens.length ⟨0, 0, 0, true, []⟩ rfl
    (Nat.zero_le _) (Nat.le_refl _) (by simp)
  have hregion : T.region 0 T.tokens.length = ⟨T.tokens, .inputEnd T.length⟩ := by
    simp [region, slice, edge]
  rw [hregion] at hread
  exact hread

/-- The contract of reading by position, where every loop and the nesting of groups is granted so
many rounds. -/
structure Contract (T : Tape) (rounds : Nat) : Prop where
  /-- Reading all tokens ends with what `parseTokens` yields. It looks only at positions that have a
  token, never gives up because an expression is due, and opens at most 256 groups at a time. -/
  ends : ∃ result c, T.readTokens rounds = some (result, c) ∧
    result = (parseTokens T.lenient T.tokens T.length).result.mapError .problem ∧
    c.log = (parseTokens T.lenient T.tokens T.length).log ∧
    result ≠ .error .outside ∧
    (∀ p, result = .error (.problem p) → p.code ≠ .expressionExpected) ∧
    c.deepest ≤ 256
  /-- A construct moves the reader, but not past its limit. -/
  advances : ∀ limit c, c.pos < limit → limit ≤ T.tokens.length →
    ∃ result c', T.readExpression (T.readGroup rounds) rounds limit c = some (result, c') ∧
      result ≠ .error .outside ∧ (c.deepest ≤ 256 → c'.deepest ≤ 256) ∧
      ∀ e, result = .ok e → c.pos < c'.pos ∧ c'.pos ≤ limit
  /-- A group ends exactly where it should, with as many groups open as before. -/
  reaches : ∀ stop c, c.pos ≤ stop → stop ≤ T.tokens.length →
    ∃ result c', T.readGroup rounds stop c = some (result, c') ∧
      result ≠ .error .outside ∧ (c.deepest ≤ 256 → c'.deepest ≤ 256) ∧
      ∀ es, result = .ok es → c'.pos = stop ∧ c'.depth = c.depth

/-- Reading by position follows its contract on every list of tokens, given three rounds more than
there are tokens. -/
theorem readTokens_contract (T : Tape) {rounds : Nat} (hr : T.tokens.length + 3 ≤ rounds) :
    T.Contract rounds := by
  constructor
  · obtain ⟨result, c, hends, hresult, hlog, hinside, hdeepest, _⟩ :=
      Agrees.ends (T.readTokens_agrees hr)
    refine ⟨result, c, hends, hresult, hlog, hinside, ?_, hdeepest (Nat.zero_le _)⟩
    intro p hp
    rw [hresult] at hp
    cases hx : (parseTokens T.lenient T.tokens T.length).result with
    | error q =>
      rw [hx] at hp
      cases hp
      exact (parseGroup_fatal hx).code_ne
    | ok es =>
      rw [hx] at hp
      cases hp
  · intro limit c hc hl
    obtain ⟨t, ht, _⟩ := slice_cons hc hl
    have hserves := @serves T (limit - c.pos) rounds (by omega) c.depth
    have hread := readExpression_reads hserves hc hl (show limit - c.pos < rounds by omega) ht
    have hsuffix := parseExpression_rest_suffix T.lenient
      (parseGroup T.lenient (maxNesting - c.depth)) (T.edge limit) t (T.slice (c.pos + 1) limit)
    obtain ⟨hpos, _⟩ := slice_of_suffix (by omega) hl hsuffix
    obtain ⟨result, c', hends, _, _, hinside, hdeepest, hstops⟩ := Agrees.ends hread
    refine ⟨result, c', hends, hinside, hdeepest, fun e he => ?_⟩
    obtain ⟨hstop, _⟩ := hstops e he
    omega
  · intro stop c hc hs
    have hread := @serves T (stop - c.pos + 1) rounds (by omega) c.depth stop c rfl hc hs (by omega)
    obtain ⟨result, c', hends, _, _, hinside, hdeepest, hstops⟩ := Agrees.ends hread
    exact ⟨result, c', hends, hinside, hdeepest, hstops⟩

theorem readTokens_contract_unclosed :
    Tape.Contract ⟨[⟨.identifier "f", 0, 1⟩, ⟨.punct .openParen, 1, 2⟩, ⟨.punct .question, 2, 3⟩,
      ⟨.punct .colon, 3, 4⟩, ⟨.punct .openParen, 4, 5⟩], 5, true⟩ 8 :=
  readTokens_contract _ (by decide)

end Tape

end CommandTemplate
