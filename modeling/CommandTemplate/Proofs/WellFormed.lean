import CommandTemplate.Compilation
import CommandTemplate.Proofs.Grammar
import CommandTemplate.Proofs.Lookahead
import CommandTemplate.Proofs.TokenStream

namespace CommandTemplate

/-- Argument numbers start at one, a single argument has no second bound, and a range starts with
a number and does not run backwards. -/
structure Substitution.WellFormed (s : Substitution) : Prop where
  first_ne_zero : s.first ≠ some 0
  last_ne_zero : s.last ≠ some 0
  single : s.singular = true → s.last = none
  range : s.singular = false →
    ∃ first, s.first = some first ∧ ∀ last, s.last = some last → first ≤ last

/-- What holds of every node of a tree that was read from a text. A bare identifier is no such
node, and a default is a literal or a group. -/
inductive Expr.WellFormed : Expr → Prop
  | literal {text : String} : text ≠ "" → WellFormed (.literal text)
  | group {es : List Expr} : (∀ e ∈ es, WellFormed e) → WellFormed (.group es)
  | call {name : String} {arguments : List (List Expr)} : isIdentifier name.toList = true →
      (∀ a ∈ arguments, ∀ e ∈ a, WellFormed e) → WellFormed (.call name arguments)
  | imperative {s : Substitution} : s.WellFormed → WellFormed (.imperative s)
  | optional {s : Substitution} : s.WellFormed → WellFormed (.optional s none)
  | literalDefault {s : Substitution} {text : String} : s.WellFormed → text ≠ "" →
      WellFormed (.optional s (some (.literal text)))
  | groupDefault {s : Substitution} {es : List Expr} : s.WellFormed → (∀ e ∈ es, WellFormed e) →
      WellFormed (.optional s (some (.group es)))

/-- What the parser relies on in a token: texts are not empty, and identifiers are names. -/
def TokenValue.Sound : TokenValue → Prop
  | .text s => s ≠ ""
  | .identifier name => isIdentifier name.toList = true
  | _ => True

def AllSound (ts : List Token) : Prop :=
  ∀ t ∈ ts, t.value.Sound

theorem AllSound.subset {ts us : List Token} (h : AllSound ts) (hu : us ⊆ ts) : AllSound us :=
  fun t ht => h t (hu ht)

theorem Unescapes.eq_nil {cs ds : List Char} (h : Unescapes cs ds) (hd : ds = []) : cs = [] := by
  cases h with
  | nil => rfl
  | keep c h => cases hd
  | drop hc h => cases hd

theorem Tiles.text_ne_empty {offset : Nat} {cs : List Char} {ts : List Token}
    (h : Tiles offset cs ts) {s : String} : .text s ∈ ts.map Token.value → s ≠ "" := by
  induction h with
  | nil offset => simp
  | blank _ _ ih => exact ih
  | token hne _ hread _ ih =>
    rw [List.map_cons, List.mem_cons]
    rintro (rfl | hs)
    · rintro rfl
      cases hread with
      | text hu => exact hne (hu.eq_nil rfl)
    · exact ih hs

theorem Stream.isIdentifier {dialect : Dialect} {started : Bool} {modes : List Mode}
    {vs : List TokenValue} (h : Stream dialect started modes vs) {name : String}
    (hn : .identifier name ∈ vs) : isIdentifier name.toList = true := by
  induction h with
  | nil => simp at hn
  | punct p _ ih => exact ih (by simpa using hn)
  | integer _ _ ih => exact ih (by simpa using hn)
  | identifier hi _ _ ih =>
    rcases List.mem_cons.mp hn with he | hn
    · cases he
      exact hi
    · exact ih hn
  | text _ _ ih => exact ih (by simpa using hn)

theorem scan_allSound (dialect : Dialect) (text : String) : AllSound (scan dialect text) := by
  intro t ht
  have hmem : t.value ∈ (scan dialect text).map Token.value := List.mem_map_of_mem ht
  cases hv : t.value with
  | text s => exact (scan_tiles dialect text).text_ne_empty (hv ▸ hmem)
  | identifier name => exact (scan_stream dialect text).isIdentifier (hv ▸ hmem)
  | integer n => trivial
  | punct p => trivial

namespace Logged

variable {α β : Type} {P : α → Prop} {Q : β → Prop}

/-- Whatever the computation yields satisfies `P`. -/
def Yields (P : α → Prop) (x : Logged α) : Prop :=
  ∀ a, x.result = .ok a → P a

theorem Yields.value {a : α} (h : P a) : (value a).Yields P := by
  rintro _ ⟨⟩
  exact h

theorem Yields.pure {a : α} (h : P a) : (pure a : Logged α).Yields P :=
  .value h

theorem Yields.any (x : Logged α) : x.Yields fun _ => True :=
  fun _ _ => trivial

theorem Yields.abort (p : Problem) : (abort p : Logged α).Yields P := by
  rintro _ ⟨⟩

theorem Yields.andThen {x : Logged α} {f : α → Logged β} (hx : x.Yields P)
    (hf : ∀ a, P a → (f a).Yields Q) : (x.andThen f).Yields Q := by
  intro b hb
  cases hr : x.result with
  | error p =>
    simp only [Logged.andThen, hr] at hb
    cases hb
  | ok a =>
    simp only [Logged.andThen, hr] at hb
    exact hf a (hx a hr) b hb

theorem Yields.bind {x : Logged α} {f : α → Logged β} (hx : x.Yields P)
    (hf : ∀ a, P a → (f a).Yields Q) : (x >>= f).Yields Q :=
  hx.andThen hf

/-- What a step yields may not matter. -/
theorem Yields.after {x : Logged α} {f : α → Logged β} (hf : ∀ a, (f a).Yields Q) :
    (x >>= f).Yields Q :=
  .bind (.any x) fun a _ => hf a

end Logged

open Logged

/-- Whatever is kept satisfies `P`. -/
def Kept {α : Type} (P : α → Prop) (o : Option α) : Prop :=
  ∀ a, o = some a → P a

theorem Kept.none {α : Type} {P : α → Prop} : Kept P none := by
  rintro _ ⟨⟩

theorem Kept.some {α : Type} {P : α → Prop} {a : α} (h : P a) : Kept P (some a) := by
  rintro _ ⟨⟩
  exact h

theorem Kept.map {α β : Type} {P : α → Prop} {Q : β → Prop} {f : α → β} {o : Option α}
    (h : Kept P o) (hf : ∀ a, P a → Q (f a)) : Kept Q (o.map f) := by
  rintro b hb
  obtain ⟨a, ha, rfl⟩ := Option.map_eq_some_iff.mp hb
  exact hf a (h a ha)

/-- A bound that was read is not zero, and is a number in front of a hyphen. -/
def BoundFormed (hyphenFollows : Bool) (bound : Option Nat) : Prop :=
  bound ≠ some 0 ∧ (hyphenFollows = true → bound ≠ none)

theorem notBound_yields {P : Option Nat → Prop} (hyphenFollows : Bool) (t : Token) :
    (notBound hyphenFollows t).Yields (Kept P) :=
  .after fun _ => .pure .none

theorem parseBound_yields (hyphenFollows : Bool) (t : Token) :
    (parseBound hyphenFollows t).Yields (Kept (BoundFormed hyphenFollows)) := by
  unfold parseBound
  split
  next => exact .after fun _ => .pure .none
  next n hn _ => exact .pure (.some ⟨by simpa using hn, by simp⟩)
  next =>
    split
    next => exact notBound_yields hyphenFollows t
    split
    next => exact .after fun _ => .pure .none
    next hf => exact .pure (.some ⟨by simp, fun h => absurd h hf⟩)
  next => exact notBound_yields hyphenFollows t

theorem parseHyphen_yields (t : Token) :
    (parseHyphen t).Yields fun present => present = true → t.isPunct .hyphen = true := by
  unfold parseHyphen
  split
  next h => exact .pure fun _ => h
  next => exact .after fun _ => .pure (by simp)

/-- All that is left to check of a body that was read is the order of its bounds. -/
def Substitution.Ordered (s : Substitution) : Prop :=
  s.reversed = false → s.WellFormed

theorem rangeOf_ordered {hyphenFollows hyphen : Bool} {first last : Option (Option Nat)}
    (hfirst : Kept (BoundFormed hyphenFollows) first) (hlast : Kept (BoundFormed false) last)
    (hh : hyphen = true → hyphenFollows = true) :
    Kept Substitution.Ordered (rangeOf hyphen first last) := by
  unfold rangeOf
  split
  next first last =>
    obtain ⟨hzero, hnumber⟩ := hfirst first rfl
    -- The hyphen was there, so the first bound is a number.
    obtain ⟨n, rfl⟩ := Option.ne_none_iff_exists'.mp (hnumber (hh rfl))
    refine .some fun hr => ⟨hzero, (hlast last rfl).1, by simp, fun _ => ⟨n, rfl, ?_⟩⟩
    rintro m rfl
    simpa [Substitution.reversed] using hr
  next => exact .none

theorem parseBody_yields (ts : List Token) :
    (parseBody ts).Yields (Kept Substitution.Ordered) := by
  match ts with
  | [] => exact .pure .none
  | [a] =>
    refine .bind (parseBound_yields false a) fun number hn => .pure (hn.map fun bound hb _ => ?_)
    exact ⟨hb.1, by simp [Substitution.single], fun _ => rfl, by simp [Substitution.single]⟩
  | [a, h] =>
    refine .bind (parseBound_yields _ a) fun first hfirst => ?_
    refine .bind (parseHyphen_yields h) fun hyphen hh => .pure (rangeOf_ordered hfirst ?_ hh)
    exact .some ⟨by simp, by simp⟩
  | a :: h :: b :: extra =>
    refine .bind (parseBound_yields _ a) fun first hfirst => ?_
    refine .bind (parseHyphen_yields h) fun hyphen hh => ?_
    refine .bind (parseBound_yields false b) fun last hlast => .after fun _ => .pure ?_
    split
    next => exact rangeOf_ordered hfirst hlast hh
    next => exact .none

theorem parseClosedBody_yields (start : Nat) (inner : List Token) (terminator : Token) :
    (parseClosedBody start inner terminator).Yields (Kept Substitution.WellFormed) := by
  have hchecked : ∀ s : Substitution, s.Ordered → (if s.reversed then do
      mistake .reversedRange ⟨start, terminator.stop - start⟩
      pure none
    else pure (some s) : Logged (Option Substitution)).Yields (Kept Substitution.WellFormed) := by
    intro s hs
    split
    next => exact .after fun _ => .pure .none
    next hr => exact .pure (.some (hs (by simpa using hr)))
  unfold parseClosedBody
  split
  next =>
    refine .after fun _ => .bind (parseBody_yields inner) fun o ho => ?_
    cases o with
    | none => exact .pure .none
    | some s => exact hchecked s (ho s rfl)
  next =>
    refine .bind (parseBody_yields inner) fun o ho => ?_
    cases o with
    | none => exact .pure .none
    | some s => exact hchecked s (ho s rfl)

/-- A node with at most `budget` groups inside one another. -/
structure Expr.FormedWithin (budget : Nat) (e : Expr) : Prop where
  formed : e.WellFormed
  nesting : e.nesting ≤ budget

/-- A group of such nodes, which counts itself. -/
structure GroupFormed (budget : Nat) (es : List Expr) : Prop where
  formed : ∀ e ∈ es, e.WellFormed
  nesting : groupNesting es ≤ budget

theorem GroupFormed.group {budget : Nat} {es : List Expr} (h : GroupFormed budget es) :
    (Expr.group es).FormedWithin budget :=
  ⟨.group h.formed, by simpa [Expr.nesting] using h.nesting⟩

/-- A reader of groups that yields only well-formed ones. -/
def ReadsFormed (group : GroupReader) (budget : Nat) : Prop :=
  ∀ r, AllSound r.tokens → (group r).Yields (GroupFormed budget)

/-- What may be the default of a substitution. -/
inductive DefaultFormed (budget : Nat) : Expr → Prop
  | literal {text : String} : text ≠ "" → DefaultFormed budget (.literal text)
  | group {es : List Expr} : GroupFormed budget es → DefaultFormed budget (.group es)

theorem DefaultFormed.optional {budget : Nat} {e : Expr} (h : DefaultFormed budget e)
    {s : Substitution} (hs : s.WellFormed) :
    (Expr.optional s (some e)).FormedWithin budget := by
  cases h with
  | literal ht => exact ⟨.literalDefault hs ht, by simp [Expr.nesting]⟩
  | group hes => exact ⟨.groupDefault hs hes.formed, by simpa [Expr.nesting] using hes.nesting⟩

theorem parseImperative_yields (budget : Nat) (edge : Edge) (start : Nat) (ts : List Token) :
    (parseImperative edge start ts).outcome.Yields (Kept (Expr.FormedWithin budget)) := by
  unfold parseImperative
  dsimp only
  split
  next => exact .after fun _ => .after fun _ => .pure .none
  next =>
    refine .bind (parseClosedBody_yields _ _ _) fun o ho => .pure (ho.map fun s hs => ?_)
    exact ⟨.imperative hs, by simp [Expr.nesting]⟩

theorem parseDefaultEnd_yields {P : Expr → Prop} (edge : Edge) {x : Logged Expr} (hx : x.Yields P)
    (ts : List Token) : (parseDefaultEnd edge x ts).outcome.Yields (Kept P) := by
  cases ts with
  | nil => exact .after fun _ => .after fun _ => .pure .none
  | cons t ts =>
    simp only [parseDefaultEnd]
    split
    next => exact .bind hx fun e he => .pure (.some he)
    next => exact .after fun _ => .after fun _ => .pure .none

theorem skipDefault_yields {P : Expr → Prop} (edge : Edge) (colon : Token) (ts : List Token) :
    (skipDefault edge colon ts).outcome.Yields (Kept P) := by
  unfold skipDefault
  dsimp only
  split
  next => exact .after fun _ => .after fun _ => .after fun _ => .pure .none
  next => exact .after fun _ => .after fun _ => .pure .none

section

variable {group : GroupReader} {budget : Nat}

theorem parseDefault_yields (hg : ReadsFormed group budget) (edge : Edge) (colon : Token)
    {ts : List Token} (hts : AllSound ts) :
    (parseDefault group edge colon ts).outcome.Yields (Kept (DefaultFormed budget)) := by
  cases ts with
  | nil => exact .after fun _ => .pure .none
  | cons t ts =>
    have ht := hts t (List.mem_cons_self ..)
    have hinside : AllSound (takeEnclosed 0 ts) :=
      hts.subset fun u hu => List.mem_cons_of_mem _ (takeEnclosed_subset 0 ts hu)
    simp only [parseDefault]
    split
    next s hv =>
      rw [hv] at ht
      exact parseDefaultEnd_yields edge (.pure (.literal ht)) ts
    next =>
      split
      next => exact .after fun _ => .after fun _ => .pure .none
      next =>
        exact parseDefaultEnd_yields edge (.bind (hg _ hinside) fun es hes => .pure (.group hes)) _
    next => exact skipDefault_yields edge colon _

theorem parseOptional_yields (hg : ReadsFormed group budget) (edge : Edge) (start : Nat)
    {ts : List Token} (hts : AllSound ts) :
    (parseOptional group edge start ts).outcome.Yields (Kept (Expr.FormedWithin budget)) := by
  unfold parseOptional
  dsimp only
  split
  next => exact .after fun _ => .after fun _ => .pure .none
  next terminator rest hd =>
    have hrest : AllSound rest := hts.subset (List.cons_subset.mp (dropUntil_subset hd)).2
    split
    next =>
      refine .bind (parseClosedBody_yields _ _ _) fun o ho => ?_
      refine .bind (parseDefault_yields hg edge terminator hrest) fun d hd => ?_
      cases d with
      | none => exact .pure .none
      | some e => exact .pure (ho.map fun s hs => (hd e rfl).optional hs)
    next =>
      refine .bind (parseClosedBody_yields _ _ _) fun o ho => .pure (ho.map fun s hs => ?_)
      exact ⟨.optional hs, by simp [Expr.nesting]⟩

/-- Arguments that are well-formed groups. -/
structure ArgumentsFormed (budget : Nat) (as : List (List Expr)) : Prop where
  formed : ∀ a ∈ as, ∀ e ∈ a, e.WellFormed
  nesting : argumentsNesting as ≤ budget

theorem ArgumentsFormed.nil (budget : Nat) : ArgumentsFormed budget [] :=
  ⟨by simp, by simp [argumentsNesting]⟩

theorem ArgumentsFormed.cons {a : List Expr} {as : List (List Expr)} (ha : GroupFormed budget a)
    (has : ArgumentsFormed budget as) : ArgumentsFormed budget (a :: as) := by
  refine ⟨?_, ?_⟩
  · exact List.forall_mem_cons.mpr ⟨ha.formed, has.formed⟩
  · rw [argumentsNesting, Nat.max_le]
    exact ⟨ha.nesting, has.nesting⟩

theorem parseArguments_yields (hg : ReadsFormed group budget) (closed : Bool)
    {parts : List Region} (hp : ∀ r ∈ parts, AllSound r.tokens) :
    (parseArguments group closed parts).Yields (ArgumentsFormed budget) := by
  induction parts with
  | nil => exact .pure (.nil budget)
  | cons r parts ih =>
    have hparts := ih fun r hr => hp r (List.mem_cons_of_mem _ hr)
    simp only [parseArguments]
    split
    next =>
      split
      next => exact .pure (.nil budget)
      next => exact .after fun _ => hparts
    next =>
      refine .bind (hg r (hp r (List.mem_cons_self ..))) fun a ha => ?_
      exact .bind hparts fun as has => .pure (.cons ha has)

theorem parseArgumentList_yields (hg : ReadsFormed group budget) (closed : Bool) {r : Region}
    (hr : AllSound r.tokens) :
    (parseArgumentList group closed r).Yields (ArgumentsFormed budget) := by
  unfold parseArgumentList
  split
  next => exact .pure (.nil budget)
  next =>
    exact parseArguments_yields hg closed fun s hs => hr.subset (cutAtCommas_subset _ _ _ s hs)

theorem ArgumentsFormed.call {as : List (List Expr)} (h : ArgumentsFormed budget as)
    {name : String} (hn : isIdentifier name.toList = true) :
    (Expr.call name as).FormedWithin budget :=
  ⟨.call hn h.formed, by simpa [Expr.nesting] using h.nesting⟩

theorem parseOpenCall_yields (lenient : Bool) (hg : ReadsFormed group budget) (edge : Edge)
    {name : String} (hn : isIdentifier name.toList = true) {ts : List Token}
    (hts : AllSound ts) :
    (parseOpenCall lenient group edge name ts).outcome.Yields
      (Kept (Expr.FormedWithin budget)) := by
  have hinside := hts.subset (takeEnclosed_subset 0 ts)
  unfold parseOpenCall
  dsimp only
  split
  next =>
    refine .bind (parseArgumentList_yields hg false hinside) fun as has => ?_
    split
    next => exact .after fun _ => .pure (.some (has.call hn))
    next => exact .pure (.some (has.call hn))
  next =>
    exact .bind (parseArgumentList_yields hg true hinside) fun as has => .pure (.some (has.call hn))

theorem parseCall_yields (lenient : Bool) (hg : ReadsFormed group budget) (edge : Edge)
    {name : String} (hn : isIdentifier name.toList = true) {ts : List Token}
    (hts : AllSound ts) :
    (parseCall lenient group edge name ts).outcome.Yields (Kept (Expr.FormedWithin budget)) := by
  cases ts with
  | nil =>
    have hcall := (ArgumentsFormed.nil budget).call hn
    simp only [parseCall]
    split
    next => exact .after fun _ => .pure (.some hcall)
    next => exact .pure (.some hcall)
  | cons t ts =>
    simp only [parseCall]
    split
    next => exact parseOpenCall_yields lenient hg edge hn (hts.subset (List.subset_cons_self t ts))
    next => exact .after fun _ => parseOpenCall_yields lenient hg edge hn hts

theorem parseAngleGroup_yields (hg : ReadsFormed group budget) (edge : Edge) {ts : List Token}
    (hts : AllSound ts) :
    (parseAngleGroup group edge ts).outcome.Yields (Kept (Expr.FormedWithin budget)) := by
  have hinside := hts.subset (takeUntil_subset (·.isPunct .closeAngle) ts)
  unfold parseAngleGroup
  dsimp only
  split
  next => exact .after fun _ => .bind (hg _ hinside) fun es hes => .pure (.some hes.group)
  next => exact .bind (hg _ hinside) fun es hes => .pure (.some hes.group)

/-- Whatever construct the parser makes of tokens, it is well-formed, also after a mistake. -/
theorem parseExpression_yields (lenient : Bool) (hg : ReadsFormed group budget) (edge : Edge)
    {t : Token} {ts : List Token} (hts : AllSound (t :: ts)) :
    (parseExpression lenient group edge t ts).outcome.Yields
      (Kept (Expr.FormedWithin budget)) := by
  have ht := hts t (List.mem_cons_self ..)
  have hrest := hts.subset (List.subset_cons_self t ts)
  unfold parseExpression
  split
  next s hv =>
    rw [hv] at ht
    exact .pure (.some ⟨.literal ht, by simp [Expr.nesting]⟩)
  next name hv =>
    rw [hv] at ht
    exact parseCall_yields lenient hg edge ht hrest
  next => exact parseAngleGroup_yields hg edge hrest
  next => exact parseImperative_yields budget edge t.start ts
  next => exact parseOptional_yields hg edge t.start hrest
  next => exact .after fun _ => .pure .none

theorem parseExpressions_yields (lenient : Bool) (hg : ReadsFormed group budget) (edge : Edge)
    {ts : List Token} (hts : AllSound ts) :
    (parseExpressions lenient group edge ts).Yields
      (fun g => ∀ e ∈ g, e.FormedWithin budget) := by
  match ts with
  | [] =>
    rw [parseExpressions_nil]
    exact .value (by simp)
  | t :: ts =>
    have hsuffix := parseExpression_rest_suffix lenient group edge t ts
    have hlen := hsuffix.length_le
    have hrest := hts.subset (List.Subset.trans hsuffix.subset (List.subset_cons_self t ts))
    rw [parseExpressions_cons]
    refine .andThen (parseExpression_yields lenient hg edge hts) fun o ho => ?_
    refine .andThen (parseExpressions_yields lenient hg edge hrest) fun es hes => .value ?_
    intro e he
    rcases List.mem_append.mp he with he | he
    · exact ho e (Option.mem_toList.mp he)
    · exact hes e he
termination_by ts.length

end

theorem parseGroup_readsFormed (lenient : Bool) (budget : Nat) :
    ReadsFormed (parseGroup lenient budget) budget := by
  induction budget with
  | zero => exact fun _ _ => .abort _
  | succ budget ih =>
    intro r hr g hg
    have hall := parseExpressions_yields lenient ih r.edge hr g hg
    exact ⟨fun e he => (hall e he).formed, groupNesting_le_succ_iff.mpr fun e he => (hall e he).nesting⟩

theorem compile_groupFormed {options : Options} {text : String} {tree : List Expr}
    (h : (compile options text).tree = some tree) : GroupFormed maxNesting tree := by
  unfold compile at h
  dsimp only at h
  split at h
  next g hg =>
    cases h
    exact parseGroup_readsFormed _ _ ⟨_, .inputEnd _⟩ (scan_allSound _ _) tree hg
  next => cases h

/-- Every tree is well-formed, also one that was recovered from mistakes, and no deeper than is
allowed. -/
theorem compile_wellFormed {options : Options} {text : String} {tree : List Expr}
    (h : (compile options text).tree = some tree) :
    (∀ e ∈ tree, e.WellFormed) ∧ groupNesting tree ≤ maxNesting :=
  ⟨(compile_groupFormed h).formed, (compile_groupFormed h).nesting⟩

theorem compile_wellFormed_recovered :
    (compile ⟨.inlineExecution, true⟩ "f(!2-1!x,?3:(y)?,<g").tree =
        some [.call "f" [[.literal "x"], [.optional (.single (some 3)) (some (.group [.literal "y"]))],
          [.group [.literal "g"]]]] ∧
      (∀ e ∈ [Expr.call "f" [[.literal "x"],
          [.optional (.single (some 3)) (some (.group [.literal "y"]))], [.group [.literal "g"]]]],
        e.WellFormed) ∧
      groupNesting [.call "f" [[.literal "x"],
          [.optional (.single (some 3)) (some (.group [.literal "y"]))], [.group [.literal "g"]]]] ≤
        maxNesting := by
  have h : (compile ⟨.inlineExecution, true⟩ "f(!2-1!x,?3:(y)?,<g").tree =
      some [.call "f" [[.literal "x"], [.optional (.single (some 3)) (some (.group [.literal "y"]))],
        [.group [.literal "g"]]]] := by decide +kernel
  exact ⟨h, compile_wellFormed h⟩

end CommandTemplate
