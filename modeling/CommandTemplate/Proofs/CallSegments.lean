import CommandTemplate.Proofs.Logged
import CommandTemplate.Proofs.Mistakes

namespace CommandTemplate

open Logged

def openings (ts : List Token) : Nat := ts.countP (·.isPunct .openParen)

def closings (ts : List Token) : Nat := ts.countP (·.isPunct .closeParen)

/-- No prefix has more closing than open parentheses, and all together are as many. -/
structure Balanced (ts : List Token) : Prop where
  prefixes : ∀ front, front <+: ts → closings front ≤ openings front
  total : closings ts = openings ts

instance (ts : List Token) : Decidable (Balanced ts) :=
  decidable_of_iff ((∀ n < ts.length + 1, closings (ts.take n) ≤ openings (ts.take n)) ∧
    closings ts = openings ts) (by
  constructor
  · rintro ⟨hprefixes, htotal⟩
    refine ⟨fun front hfront => ?_, htotal⟩
    have hlen := hfront.length_le
    rw [List.prefix_iff_eq_take.mp hfront]
    exact hprefixes front.length (by omega)
  · intro h
    exact ⟨fun n _ => h.prefixes _ (List.take_prefix n ts), h.total⟩)

/-- Every comma stands inside parentheses. -/
def CommasInside (ts : List Token) : Prop :=
  ∀ front comma rest, ts = front ++ comma :: rest → comma.isPunct .comma = true →
    closings front < openings front

/-- The segments of balanced tokens between their commas outside all parentheses, each with the
place of the token that ends it: a comma, or the token behind all of them. -/
inductive Segments (ending : Token) : List Token → List Region → Prop
  | last {ts : List Token} : Balanced ts → CommasInside ts →
      Segments ending ts [⟨ts, .before ending.start⟩]
  | more {front rest : List Token} {comma : Token} {parts : List Region} : Balanced front →
      CommasInside front → comma.isPunct .comma = true → Segments ending rest parts →
      Segments ending (front ++ comma :: rest) (⟨front, .before comma.start⟩ :: parts)

theorem openings_cons (t : Token) (ts : List Token) :
    openings (t :: ts) = openings ts + if t.isPunct .openParen then 1 else 0 := by
  simp [openings, List.countP_cons]

theorem closings_cons (t : Token) (ts : List Token) :
    closings (t :: ts) = closings ts + if t.isPunct .closeParen then 1 else 0 := by
  simp [closings, List.countP_cons]

theorem openings_append (ts us : List Token) : openings (ts ++ us) = openings ts + openings us :=
  List.countP_append

theorem closings_append (ts us : List Token) : closings (ts ++ us) = closings ts + closings us :=
  List.countP_append

/-- The depth after a token counts on as the numbers of parentheses do. -/
theorem depthAfter_count {depth : Nat} {t : Token}
    (h : ¬ (depth = 0 ∧ t.isPunct .closeParen = true)) (ts : List Token) :
    t.depthAfter depth + closings (t :: ts) + openings ts =
      depth + closings ts + openings (t :: ts) := by
  rw [openings_cons, closings_cons, Token.depthAfter]
  cases ho : t.isPunct .openParen with
  | true =>
    have hc : t.isPunct .closeParen = false := by
      simp [Token.isPunct, Token.isPunct_iff.mp ho]
    simp [hc]
    omega
  | false =>
    cases hc : t.isPunct .closeParen with
    | true =>
      have hd : depth ≠ 0 := fun hd => h ⟨hd, hc⟩
      simp
      omega
    | false => simp

/-- Tokens among which the parenthesis depth, which is `depth` before them, never drops below zero,
and is not zero at a comma. -/
structure Climbs (depth : Nat) (ts : List Token) : Prop where
  prefixes : ∀ front, front <+: ts → closings front ≤ depth + openings front
  commas : ∀ front comma rest, ts = front ++ comma :: rest → comma.isPunct .comma = true →
    closings front < depth + openings front

namespace Climbs

variable {depth : Nat} {t : Token} {ts : List Token}

theorem not_close (h : Climbs depth (t :: ts)) :
    ¬ (depth = 0 ∧ t.isPunct .closeParen = true) := by
  rintro ⟨rfl, hc⟩
  have ho : t.isPunct .openParen = false := by
    simp [Token.isPunct, Token.isPunct_iff.mp hc]
  have hle := h.prefixes [t] ⟨ts, rfl⟩
  simp [openings, closings, hc, ho] at hle

theorem not_comma (h : Climbs depth (t :: ts)) : ¬ (depth = 0 ∧ t.isPunct .comma = true) := by
  rintro ⟨rfl, hm⟩
  have hlt := h.commas [] t ts rfl hm
  simp [openings, closings] at hlt

theorem tail (h : Climbs depth (t :: ts)) : Climbs (t.depthAfter depth) ts := by
  constructor
  · intro front hfront
    have hle := h.prefixes (t :: front) (List.cons_prefix_cons.mpr ⟨rfl, hfront⟩)
    have hcount := depthAfter_count h.not_close front
    omega
  · intro front comma rest he hm
    have hlt := h.commas (t :: front) comma rest (by rw [he, List.cons_append]) hm
    have hcount := depthAfter_count h.not_close front
    omega

/-- Look-ahead walks through the tokens and keeps count of the depth. -/
theorem walk (h : Climbs depth ts) :
    ∃ level, level + closings ts = depth + openings ts ∧ ∀ rest,
      takeEnclosed depth (ts ++ rest) = ts ++ takeEnclosed level rest ∧
      dropEnclosed depth (ts ++ rest) = dropEnclosed level rest ∧
      ∀ edge, cutAtCommas edge depth (ts ++ rest) =
        (⟨ts ++ (cutAtCommas edge level rest).1.tokens, (cutAtCommas edge level rest).1.edge⟩,
          (cutAtCommas edge level rest).2) := by
  induction ts generalizing depth with
  | nil => exact ⟨depth, rfl, fun rest => ⟨rfl, rfl, fun edge => rfl⟩⟩
  | cons t ts ih =>
    obtain ⟨level, hlevel, hwalk⟩ := ih h.tail
    refine ⟨level, ?_, fun rest => ?_⟩
    · have hcount := depthAfter_count h.not_close ts
      omega
    · obtain ⟨htake, hdrop, hcut⟩ := hwalk rest
      refine ⟨?_, ?_, fun edge => ?_⟩
      · rw [List.cons_append, takeEnclosed, if_neg h.not_close, htake, List.cons_append]
      · rw [List.cons_append, dropEnclosed, if_neg h.not_close, hdrop]
      · rw [List.cons_append, cutAtCommas, if_neg h.not_comma, hcut]
        rfl

end Climbs

theorem Balanced.keepsDepth {ts : List Token} (hb : Balanced ts) (hc : CommasInside ts) :
    KeepsDepth 0 ts := by
  have hwalk : ∀ depth rest,
      takeEnclosed depth (ts ++ rest) = ts ++ takeEnclosed depth rest ∧
      dropEnclosed depth (ts ++ rest) = dropEnclosed depth rest ∧
      ∀ edge, cutAtCommas edge depth (ts ++ rest) =
        (⟨ts ++ (cutAtCommas edge depth rest).1.tokens, (cutAtCommas edge depth rest).1.edge⟩,
          (cutAtCommas edge depth rest).2) := by
    intro depth rest
    have hclimbs : Climbs depth ts := by
      constructor
      · intro front hfront
        have := hb.prefixes front hfront
        omega
      · intro front comma rest he hm
        have := hc front comma rest he hm
        omega
    obtain ⟨level, hlevel, h⟩ := hclimbs.walk
    have htotal := hb.total
    obtain rfl : level = depth := by omega
    exact h rest
  exact ⟨fun depth rest => (hwalk depth rest).1, fun depth rest => (hwalk depth rest).2.1,
    fun edge depth _ rest => (hwalk depth rest).2.2 edge⟩

namespace Segments

variable {ending : Token} {ts : List Token} {parts : List Region}

theorem keepsDepth (h : Segments ending ts parts) : KeepsDepth 1 ts := by
  induction h with
  | last hb hc => exact (hb.keepsDepth hc).weaken 1
  | @more front rest comma parts hb hc hm _ ih =>
    have hcomma := (KeepsDepth.comma (Token.isPunct_iff.mp hm)).append ih
    exact ((hb.keepsDepth hc).weaken 1).append hcomma

/-- There is one way to cut tokens into segments, and it is how arguments are told apart. -/
theorem parts_eq (h : Segments ending ts parts) :
    (⟨ts, .before ending.start⟩ : Region).parts = parts := by
  induction h with
  | @last ts hb hc =>
    have hcut := (hb.keepsDepth hc).cut (.before ending.start) 0 (Nat.le_refl 0) []
    rw [List.append_nil] at hcut
    rw [Region.parts, hcut]
    simp [cutAtCommas]
  | @more front rest comma parts hb hc hm _ ih =>
    have hcut := (hb.keepsDepth hc).cut (.before ending.start) 0 (Nat.le_refl 0) (comma :: rest)
    rw [Region.parts] at ih
    rw [Region.parts, hcut, cutAtCommas, if_pos ⟨rfl, hm⟩, ← ih]
    simp

theorem append {comma : Token} {front rest : List Token} {ps qs : List Region}
    (hf : Segments comma front ps) (hm : comma.isPunct .comma = true)
    (hr : Segments ending rest qs) : Segments ending (front ++ comma :: rest) (ps ++ qs) := by
  induction hf with
  | last hb hc => exact .more hb hc hm hr
  | more hb hc hn _ ih =>
    rw [List.append_assoc, List.cons_append, List.cons_append]
    exact .more hb hc hn ih

end Segments

theorem Balanced.split {front rest : List Token} {comma : Token}
    (h : Balanced (front ++ comma :: rest)) (hm : comma.isPunct .comma = true)
    (heq : closings front = openings front) : Balanced front ∧ Balanced rest := by
  have hv := Token.isPunct_iff.mp hm
  have hopen : ∀ ts, openings (comma :: ts) = openings ts := by
    simp [openings, Token.isPunct, hv]
  have hclose : ∀ ts, closings (comma :: ts) = closings ts := by
    simp [closings, Token.isPunct, hv]
  have htotal := h.total
  rw [openings_append, closings_append, hopen, hclose] at htotal
  refine ⟨⟨?_, heq⟩, ⟨?_, by omega⟩⟩
  · intro start hstart
    exact h.prefixes start (hstart.trans (List.prefix_append _ _))
  · intro start hstart
    have hwhole : front ++ comma :: start <+: front ++ comma :: rest :=
      (List.prefix_append_right_inj front).mpr (List.cons_prefix_cons.mpr ⟨rfl, hstart⟩)
    have hle := h.prefixes _ hwhole
    rw [openings_append, closings_append, hopen, hclose] at hle
    omega

/-- Balanced tokens have segments. -/
theorem Balanced.segments (ending : Token) {ts : List Token} (h : Balanced ts) :
    ∃ parts, Segments ending ts parts := by
  by_cases hc : CommasInside ts
  · exact ⟨_, .last h hc⟩
  · simp only [CommasInside, Classical.not_forall] at hc
    -- Any comma outside the parentheses will do: both sides of it are balanced and shorter.
    obtain ⟨front, comma, rest, rfl, hm, hlt⟩ := hc
    have hle := h.prefixes front (List.prefix_append _ _)
    obtain ⟨hfront, hrest⟩ := h.split hm (by omega)
    have : front.length < (front ++ comma :: rest).length := by simp
    have : rest.length < (front ++ comma :: rest).length := by simp; omega
    obtain ⟨ps, hps⟩ := hfront.segments comma
    obtain ⟨qs, hqs⟩ := hrest.segments ending
    exact ⟨ps ++ qs, hps.append hm hqs⟩
termination_by ts.length

/-- What is reported about a segment: that it is empty, or what its tokens give rise to. -/
def segmentLog (group : GroupReader) (part : Region) : List Diagnostic :=
  if part.tokens.isEmpty then
    [.ofProblem (.general .parameterMissing) (.place (part.edge.offset - 1))]
  else (group part).log

/-- What comes of the segments that are not empty. -/
def segmentResults (group : GroupReader) (parts : List Region) :
    List (Except Problem (List Expr)) :=
  (parts.filter (fun part => !part.tokens.isEmpty)).map (fun part => (group part).result)

/-- The arguments of a closed call are read one by one, unless one is nested too deeply. -/
theorem parseArguments_segments {group : GroupReader} {parts : List Region}
    (hg : ∀ part ∈ parts, ∀ p, (group part).result = .error p → p = .general .nestingTooDeep) :
    (.error (.general .nestingTooDeep) ∈ segmentResults group parts ∧
      (parseArguments group true parts).result = .error (.general .nestingTooDeep)) ∨
    ∃ args, segmentResults group parts = args.map .ok ∧
      parseArguments group true parts = ⟨parts.flatMap (segmentLog group), .ok args⟩ := by
  induction parts with
  | nil => exact .inr ⟨[], rfl, rfl⟩
  | cons part parts ih =>
    have ih := ih fun r hr => hg r (List.mem_cons_of_mem _ hr)
    have hpart := hg part (List.mem_cons_self ..)
    cases he : part.tokens.isEmpty with
    | true =>
      have hresults : segmentResults group (part :: parts) = segmentResults group parts := by
        simp [segmentResults, he]
      rw [hresults, parseArguments, if_pos he, if_neg (by simp)]
      rcases ih with ⟨hmem, hdeep⟩ | ⟨args, hargs, hread⟩
      · exact .inl ⟨hmem, hdeep⟩
      · refine .inr ⟨args, hargs, ?_⟩
        rw [hread]
        simp [bind_def, andThen, mistake, problem, Logged.report, segmentLog, he]
    | false =>
      have hresults : segmentResults group (part :: parts) =
          (group part).result :: segmentResults group parts := by
        simp [segmentResults, he]
      rw [hresults, parseArguments, if_neg (by simp [he])]
      cases hr : (group part).result with
      | error p =>
        obtain rfl := hpart p hr
        refine .inl ⟨List.mem_cons_self .., ?_⟩
        simp [bind_def, andThen, hr]
      | ok es =>
        rcases ih with ⟨hmem, hdeep⟩ | ⟨args, hargs, hread⟩
        · refine .inl ⟨List.mem_cons_of_mem _ hmem, ?_⟩
          simp [bind_def, andThen, hr, hdeep]
        · refine .inr ⟨es :: args, by rw [hargs, List.map_cons], ?_⟩
          rw [hread]
          simp [bind_def, andThen, hr, pure_def, value, segmentLog, he]

theorem Segments.edge {ending : Token} {ts : List Token} {parts : List Region}
    (h : Segments ending ts parts) : ∀ part ∈ parts, ∃ offset, part.edge = .before offset := by
  induction h with
  | last hb hc => simp
  | more hb hc hm _ ih => simpa using ih

theorem parseTokens_cons (lenient : Bool) (t : Token) (ts : List Token) (length : Nat) :
    parseTokens lenient (t :: ts) length =
      (parseExpression lenient (parseGroup lenient (maxNesting - 1)) (.inputEnd length) t
        ts).outcome.andThen fun e =>
          (parseTokens lenient (parseExpression lenient (parseGroup lenient (maxNesting - 1))
            (.inputEnd length) t ts).rest length).andThen fun es => value (e.toList ++ es) :=
  parseExpressions_cons lenient (parseGroup lenient (maxNesting - 1)) (.inputEnd length) t ts

/-- A closed call ends at the closing parenthesis that belongs to it. -/
theorem parseExpression_call {lenient : Bool} {group : GroupReader} {edge : Edge} {name : String}
    {caller opening closing : Token} {body : List Token} {least : Nat}
    (hname : caller.value = .identifier name) (hopening : opening.value = .punct .openParen)
    (hclosing : closing.value = .punct .closeParen) (hbody : KeepsDepth least body)
    (post : List Token) :
    parseExpression lenient group edge caller (opening :: (body ++ closing :: post)) =
      ⟨do
        let args ← parseArgumentList group true ⟨body, .before closing.start⟩
        pure (some (.call name args)), post⟩ := by
  have hopen : opening.isPunct .openParen = true := Token.isPunct_iff.mpr hopening
  simp only [parseExpression, hname, parseCall, hopen, if_true, parseOpenCall,
    hbody.takeEnclosed_eq hclosing, hbody.dropEnclosed_eq hclosing]

/-- A call is read by its segments, which are read apart from each other and from what follows
the call. -/
theorem parseTokens_call_segments (lenient : Bool) (length : Nat) {name : String}
    {caller opening closing : Token} {body post : List Token}
    (hname : caller.value = .identifier name) (hopening : opening.value = .punct .openParen)
    (hclosing : closing.value = .punct .closeParen) (hbody : Balanced body) :
    (∃ parts, Segments closing body parts) ∧
    ∀ parts, Segments closing body parts →
      let group := parseGroup lenient (maxNesting - 1)
      let whole := parseTokens lenient (caller :: opening :: (body ++ closing :: post)) length
      let later := parseTokens lenient post length
      (.error (.general .nestingTooDeep) ∈ segmentResults group parts ∧
        whole.result = .error (.general .nestingTooDeep)) ∨
      ∃ args, segmentResults group parts = args.map .ok ∧
        whole.result = later.result.map (.call name args :: ·) ∧
        whole.log = (if body.isEmpty then [] else parts.flatMap (segmentLog group)) ++
          later.log := by
  refine ⟨hbody.segments closing, ?_⟩
  intro parts hparts group whole later
  have hdeep : ∀ part ∈ parts, ∀ p, (group part).result = .error p →
      p = .general .nestingTooDeep := by
    intro part hpart p hp
    obtain ⟨offset, hedge⟩ := hparts.edge part hpart
    have hfatal := parseGroup_fatal hp
    rw [hedge] at hfatal
    exact hfatal.eq_nestingTooDeep
  have hwhole : whole = (parseArgumentList group true ⟨body, .before closing.start⟩).andThen
      fun args => ⟨later.log, later.result.map (.call name args :: ·)⟩ := by
    have hcall := @parseExpression_call lenient group (.inputEnd length) name caller opening closing
      body 1 hname hopening hclosing hparts.keepsDepth post
    simp only [whole, parseTokens_cons, group] at hcall ⊢
    rw [hcall]
    simp only [bind_def, pure_def, andThen_assoc, value_andThen]
    simp only [andThen_map]
    rfl
  rw [hwhole, parseArgumentList, hparts.parts_eq]
  cases hempty : body.isEmpty with
  | true =>
    have hsingle : parts = [⟨[], .before closing.start⟩] := by
      rw [← hparts.parts_eq, List.isEmpty_iff.mp hempty]
      rfl
    refine .inr ⟨[], by simp [hsingle, segmentResults], ?_⟩
    simp [pure_def, value_andThen]
  | false =>
    rw [if_neg (by simp)]
    rcases parseArguments_segments hdeep with ⟨hmem, hresult⟩ | ⟨args, hargs, hread⟩
    · exact .inl ⟨hmem, by simp only [andThen, hresult]⟩
    · refine .inr ⟨args, hargs, ?_⟩
      rw [hread]
      exact ⟨rfl, rfl⟩

theorem parseTokens_call_segments_nested :
    let closing : Token := ⟨.punct .closeParen, 11, 12⟩
    let body : List Token := [⟨.text "a", 2, 3⟩, ⟨.punct .comma, 3, 4⟩, ⟨.identifier "g", 4, 5⟩,
      ⟨.punct .openParen, 5, 6⟩, ⟨.text "b", 6, 7⟩, ⟨.punct .comma, 7, 8⟩, ⟨.punct .question, 8, 9⟩,
      ⟨.punct .closeParen, 9, 10⟩, ⟨.punct .comma, 10, 11⟩]
    Balanced body ∧ (∃ parts, Segments closing body parts) ∧
      ∀ parts, Segments closing body parts →
        let group := parseGroup false (maxNesting - 1)
        let whole := parseTokens false (⟨.identifier "f", 0, 1⟩ :: ⟨.punct .openParen, 1, 2⟩ ::
          (body ++ closing :: [⟨.punct .colon, 12, 13⟩])) 13
        let later := parseTokens false [⟨.punct .colon, 12, 13⟩] 13
        (.error (.general .nestingTooDeep) ∈ segmentResults group parts ∧
          whole.result = .error (.general .nestingTooDeep)) ∨
        ∃ args, segmentResults group parts = args.map .ok ∧
          whole.result = later.result.map (.call "f" args :: ·) ∧
          whole.log = (if body.isEmpty then [] else parts.flatMap (segmentLog group)) ++
            later.log := by
  intro closing body
  have hbody : Balanced body := by decide
  exact ⟨hbody, parseTokens_call_segments false 13 rfl rfl rfl hbody⟩

end CommandTemplate
