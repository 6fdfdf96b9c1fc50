import CommandTemplate.Proofs.Coverage

namespace CommandTemplate

/-- Whether a text ends in a name, so that a name put behind it would not stand apart. -/
def endsInName (cs : List Char) : Bool :=
  (cs.reverse.takeWhile isIdentContinue).any isIdentStart

theorem Piece.inName_eq {pieces : List Piece} (h : EscapesSpecial pieces) {p : Piece}
    (hp : p ∈ pieces) : p.inName = isIdentContinue p.char := by
  cases p with
  | plain c => rfl
  | escaped c => exact (not_isIdentContinue_of_special (h c hp)).symm

theorem Piece.startsName_eq {p : Piece} (h : p.inName = true) :
    p.startsName = isIdentStart p.char := by
  cases p with
  | plain c => rfl
  | escaped c => simp [Piece.inName] at h

theorem takeWhile_inName {pieces : List Piece} (h : EscapesSpecial pieces) :
    (pieces.takeWhile Piece.inName).map Piece.char =
      (pieces.map Piece.char).takeWhile isIdentContinue := by
  induction pieces with
  | nil => rfl
  | cons p pieces ih =>
    have hp := Piece.inName_eq h (List.mem_cons_self ..)
    have hrest := ih fun c hc => h c (List.mem_cons_of_mem _ hc)
    rw [List.takeWhile_cons, List.map_cons, List.takeWhile_cons, ← hp]
    split
    next => rw [List.map_cons, hrest]
    next => rfl

theorem mem_takeWhile_inName {pieces : List Piece} {p : Piece}
    (h : p ∈ pieces.takeWhile Piece.inName) : p.inName = true :=
  List.all_eq_true.mp List.all_takeWhile p h

theorem endsInName_eq_false_iff {pieces : List Piece} (h : EscapesSpecial pieces) :
    endsInName (pieces.map Piece.char) = false ↔
      ∀ p ∈ pieces.reverse.takeWhile Piece.inName, p.startsName = false := by
  rw [endsInName, ← List.map_reverse, ← takeWhile_inName h.reverse, List.any_map,
    List.any_eq_false]
  constructor
  · intro hn p hp
    rw [Piece.startsName_eq (mem_takeWhile_inName hp)]
    simpa using hn p hp
  · intro hn p hp
    have hs := hn p hp
    rw [Piece.startsName_eq (mem_takeWhile_inName hp)] at hs
    simpa using hs

theorem takeWhile_dropWhile {α : Type} (p : α → Bool) (xs : List α) :
    (xs.dropWhile p).takeWhile p = [] := by
  have h := List.head?_dropWhile_not p xs
  cases hd : xs.dropWhile p with
  | nil => rfl
  | cons x rest =>
    rw [hd] at h
    simp only [List.head?_cons] at h
    simp [h]

/-- What stands in front of the name at the end does not end in a name itself. -/
theorem front_not_endsInName {pieces front : List Piece} (h : EscapesSpecial pieces)
    (hsplit : front ++ trailingName pieces = pieces) :
    endsInName (front.map Piece.char) = false := by
  have hfront : EscapesSpecial front := by
    intro c hc
    apply h
    rw [← hsplit]
    exact List.mem_append_left _ hc
  rw [endsInName_eq_false_iff hfront]
  -- The characters of names at the end, without those that the name itself takes.
  let run := (pieces.reverse.takeWhile Piece.inName).reverse
  let junk := run.takeWhile (fun p => !p.startsName)
  let base := (pieces.reverse.dropWhile Piece.inName).reverse
  have hrun : base ++ run = pieces := by
    simp only [base, run, ← List.reverse_append, List.takeWhile_append_dropWhile,
      List.reverse_reverse]
  have hjunk : junk ++ trailingName pieces = run := List.takeWhile_append_dropWhile
  have heq : front = base ++ junk := by
    have hboth : front ++ trailingName pieces = (base ++ junk) ++ trailingName pieces := by
      rw [List.append_assoc, hjunk, hrun, hsplit]
    exact List.append_cancel_right hboth
  have hname : ∀ p ∈ junk, p.inName = true := by
    intro p hp
    have hmem : p ∈ run := (List.takeWhile_sublist _).subset hp
    exact mem_takeWhile_inName (List.mem_reverse.mp hmem)
  intro p hp
  have hr : front.reverse = junk.reverse ++ pieces.reverse.dropWhile Piece.inName := by
    rw [heq, List.reverse_append, List.reverse_reverse]
  rw [hr, List.takeWhile_append_of_pos (fun p hp => hname p (List.mem_reverse.mp hp)),
    takeWhile_dropWhile, List.append_nil, List.mem_reverse] at hp
  have hs := List.all_eq_true.mp List.all_takeWhile p hp
  simpa using hs

theorem trailingName_isIdentifier {pieces : List Piece} (h : trailingName pieces ≠ []) :
    isIdentifier ((trailingName pieces).map Piece.char) = true := by
  have hin : ∀ p ∈ trailingName pieces, p.inName = true := by
    intro p hp
    have hmem := (List.dropWhile_suffix _).subset hp
    exact mem_takeWhile_inName (List.mem_reverse.mp hmem)
  have hhead := List.head?_dropWhile_not (fun p => !Piece.startsName p)
    (pieces.reverse.takeWhile Piece.inName).reverse
  rw [← trailingName] at hhead
  cases hn : trailingName pieces with
  | nil => exact absurd hn h
  | cons p rest =>
    rw [hn] at hin hhead
    simp only [List.head?_cons, Bool.not_eq_eq_eq_not, Bool.not_false] at hhead
    rw [List.map_cons, isIdentifier, Bool.and_eq_true, List.all_map, List.all_eq_true]
    have hp := hin p (List.mem_cons_self ..)
    refine ⟨?_, ?_⟩
    · rw [← Piece.startsName_eq hp]
      simpa using hhead
    · intro q hq
      have hq := hin q (List.mem_cons_of_mem _ hq)
      cases q with
      | plain c => exact hq
      | escaped c => simp [Piece.inName] at hq

/-- A name behind a text that does not end in one is found again. -/
theorem trailingName_append {front : List Piece} {name : List Char} (h : EscapesSpecial front)
    (hf : endsInName (front.map Piece.char) = false) (hn : isIdentifier name = true) :
    trailingName (front ++ name.map Piece.plain) = name.map Piece.plain := by
  rw [endsInName_eq_false_iff h] at hf
  have hin : ∀ p ∈ (name.map Piece.plain).reverse, p.inName = true := by
    intro p hp
    obtain ⟨c, hc, rfl⟩ := List.mem_map.mp (List.mem_reverse.mp hp)
    exact isIdentContinue_of_mem_identifier hn c hc
  rw [trailingName, List.reverse_append, List.takeWhile_append_of_pos hin, List.reverse_append,
    List.reverse_reverse, List.dropWhile_append_of_pos]
  · cases name with
    | nil => rfl
    | cons c cs =>
      simp only [isIdentifier, Bool.and_eq_true] at hn
      simp [Piece.startsName, hn.1]
  · intro p hp
    simp [hf p (List.mem_reverse.mp hp)]

theorem callTokens_append (start : Nat) {front : List Piece} {name : List Char}
    (h : EscapesSpecial front) (hf : endsInName (front.map Piece.char) = false)
    (hn : isIdentifier name = true) :
    (Scanner.callTokens start (front ++ name.map Piece.plain)).map Token.value =
      (if front.isEmpty then [] else [.text (piecesText front)]) ++
        [.identifier (String.ofList name)] := by
  obtain ⟨front', hsplit, hcall⟩ := callTokens_eq start (front ++ name.map Piece.plain)
  rw [trailingName_append h hf hn] at hsplit hcall
  obtain rfl := List.append_cancel_right hsplit
  have hname : piecesText (name.map Piece.plain) = String.ofList name := by
    simp [piecesText, Function.comp_def, Piece.char]
  have hne : (name.map Piece.plain).isEmpty = false := by
    cases name with
    | nil => simp [isIdentifier] at hn
    | cons c cs => rfl
  rw [hcall, hne, hname]
  cases front' <;> simp

end CommandTemplate
