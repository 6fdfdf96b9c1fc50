import CommandTemplate.Region

namespace CommandTemplate

theorem Token.isPunct_iff {t : Token} {p : Punct} : t.isPunct p = true ↔ t.value = .punct p := by
  simp [Token.isPunct]

theorem Token.depthAfter_of_not_paren {t : Token} (depth : Nat)
    (ho : t.value ≠ .punct .openParen) (hc : t.value ≠ .punct .closeParen) :
    t.depthAfter depth = depth := by
  simp [Token.depthAfter, Token.isPunct_iff, ho, hc]

theorem dropUntil_eq_cons {p : Token → Bool} {ts rest : List Token} {t : Token}
    (h : dropUntil p ts = t :: rest) :
    p t = true ∧ ts = takeUntil p ts ++ t :: rest := by
  refine ⟨?_, ?_⟩
  · have hd : ts.dropWhile (fun t => !p t) = t :: rest := h
    have hh := List.head_dropWhile_not (fun t => !p t) (l := ts) (by simp [hd])
    simpa [hd] using hh
  · rw [← h, takeUntil_append_dropUntil]

theorem takeUntil_not {p : Token → Bool} {ts : List Token} {t : Token} (h : t ∈ takeUntil p ts) :
    p t = false := by
  simpa using List.all_eq_true.mp List.all_takeWhile t h

theorem takeUntil_append_cons {p : Token → Bool} {us : List Token} {t : Token}
    (hu : ∀ u ∈ us, p u = false) (ht : p t = true) (rest : List Token) :
    takeUntil p (us ++ t :: rest) = us := by
  rw [takeUntil, List.takeWhile_append_of_pos (by simpa using hu)]
  simp [ht]

theorem dropUntil_append_cons {p : Token → Bool} {us : List Token} {t : Token}
    (hu : ∀ u ∈ us, p u = false) (ht : p t = true) (rest : List Token) :
    dropUntil p (us ++ t :: rest) = t :: rest := by
  rw [dropUntil, List.dropWhile_append_of_pos (by simpa using hu)]
  simp [ht]

theorem dropEnclosed_eq_cons {depth : Nat} {ts rest : List Token} {t : Token}
    (h : dropEnclosed depth ts = t :: rest) :
    t.value = .punct .closeParen ∧ ts = takeEnclosed depth ts ++ t :: rest := by
  refine ⟨?_, by rw [← h, takeEnclosed_append_dropEnclosed]⟩
  induction ts generalizing depth with
  | nil => simp [dropEnclosed] at h
  | cons u ts ih =>
    simp only [dropEnclosed] at h
    split at h
    next hu =>
      cases h
      exact Token.isPunct_iff.mp hu.2
    next => exact ih h

theorem dropEnclosed_takeEnclosed (depth : Nat) (ts : List Token) :
    dropEnclosed depth (takeEnclosed depth ts) = [] := by
  induction ts generalizing depth with
  | nil => rfl
  | cons t ts ih =>
    rw [takeEnclosed]
    split
    next => rfl
    next h => rw [dropEnclosed, if_neg h, ih]

theorem takeUntil_subset (p : Token → Bool) (ts : List Token) : takeUntil p ts ⊆ ts :=
  (List.takeWhile_prefix _).subset

theorem dropUntil_subset {p : Token → Bool} {ts us : List Token} (h : dropUntil p ts = us) :
    us ⊆ ts :=
  h ▸ (dropUntil_suffix p ts).subset

theorem takeEnclosed_subset (depth : Nat) (ts : List Token) : takeEnclosed depth ts ⊆ ts := by
  intro t ht
  rw [← takeEnclosed_append_dropEnclosed depth ts]
  exact List.mem_append_left _ ht

theorem dropEnclosed_subset {depth : Nat} {ts us : List Token} (h : dropEnclosed depth ts = us) :
    us ⊆ ts :=
  h ▸ (dropEnclosed_suffix depth ts).subset

theorem cutAtCommas_subset (edge : Edge) (depth : Nat) (ts : List Token) :
    ∀ r ∈ (cutAtCommas edge depth ts).1 :: (cutAtCommas edge depth ts).2, r.tokens ⊆ ts := by
  induction ts generalizing depth with
  | nil => simp [cutAtCommas]
  | cons t ts ih =>
    simp only [cutAtCommas]
    split
    next =>
      intro r hr
      rcases List.mem_cons.mp hr with rfl | hr
      · exact List.nil_subset _
      · exact List.Subset.trans (ih 0 r hr) (List.subset_cons_self t ts)
    next =>
      intro r hr
      rcases List.mem_cons.mp hr with rfl | hr
      · exact List.cons_subset_cons t (ih _ _ (List.mem_cons_self ..))
      · exact List.Subset.trans (ih _ r (List.mem_cons_of_mem _ hr)) (List.subset_cons_self t ts)

/-- A part between commas ends before a comma, or where all parts end. -/
theorem cutAtCommas_edge {edge : Edge} {depth : Nat} {ts : List Token} :
    ∀ r ∈ (cutAtCommas edge depth ts).1 :: (cutAtCommas edge depth ts).2,
      r.edge = edge ∨ ∃ comma ∈ ts, r.edge = .before comma.start := by
  induction ts generalizing depth with
  | nil => simp [cutAtCommas]
  | cons t ts ih =>
    have hlater : ∀ {e : Edge}, (e = edge ∨ ∃ comma ∈ ts, e = .before comma.start) →
        e = edge ∨ ∃ comma ∈ t :: ts, e = .before comma.start := by
      rintro e (he | ⟨comma, hcomma, he⟩)
      · exact .inl he
      · exact .inr ⟨comma, List.mem_cons_of_mem _ hcomma, he⟩
    simp only [cutAtCommas]
    split
    next =>
      intro r hr
      rcases List.mem_cons.mp hr with rfl | hr
      · exact .inr ⟨t, List.mem_cons_self .., rfl⟩
      · exact hlater (ih r hr)
    next =>
      intro r hr
      rcases List.mem_cons.mp hr with rfl | hr
      · exact hlater (ih (cutAtCommas edge (t.depthAfter depth) ts).1 (List.mem_cons_self ..))
      · exact hlater (ih r (List.mem_cons_of_mem _ hr))

/-- Whether look-ahead for parentheses and commas passes over a token. -/
def TokenValue.isPlain : TokenValue → Bool
  | .punct .openParen => false
  | .punct .closeParen => false
  | .punct .comma => false
  | _ => true

/-- Tokens with matching parentheses. Look-ahead walks through them and leaves the depth as it was:
it meets no closing parenthesis that it looks for, and from depth `least` on no comma. -/
structure KeepsDepth (least : Nat) (us : List Token) : Prop where
  take (depth : Nat) (rest : List Token) :
    takeEnclosed depth (us ++ rest) = us ++ takeEnclosed depth rest
  drop (depth : Nat) (rest : List Token) :
    dropEnclosed depth (us ++ rest) = dropEnclosed depth rest
  cut (edge : Edge) (depth : Nat) (hd : least ≤ depth) (rest : List Token) :
    cutAtCommas edge depth (us ++ rest) =
      (⟨us ++ (cutAtCommas edge depth rest).1.tokens, (cutAtCommas edge depth rest).1.edge⟩,
        (cutAtCommas edge depth rest).2)

namespace KeepsDepth

theorem nil (least : Nat) : KeepsDepth least [] :=
  ⟨fun _ _ => rfl, fun _ _ => rfl, fun _ _ _ _ => rfl⟩

theorem append {least : Nat} {us ws : List Token} (hu : KeepsDepth least us)
    (hw : KeepsDepth least ws) : KeepsDepth least (us ++ ws) where
  take depth rest := by
    rw [List.append_assoc, hu.take, hw.take, List.append_assoc]
  drop depth rest := by
    rw [List.append_assoc, hu.drop, hw.drop]
  cut edge depth hd rest := by
    rw [List.append_assoc, hu.cut edge depth hd, hw.cut edge depth hd]
    simp

theorem weaken {us : List Token} (h : KeepsDepth 0 us) (least : Nat) : KeepsDepth least us where
  take := h.take
  drop := h.drop
  cut edge depth _ := h.cut edge depth (Nat.zero_le _)

theorem plain {t : Token} (h : t.value.isPlain = true) : KeepsDepth 0 [t] := by
  have ho : t.value ≠ .punct .openParen := by rintro hv; simp [hv, TokenValue.isPlain] at h
  have hc : t.value ≠ .punct .closeParen := by rintro hv; simp [hv, TokenValue.isPlain] at h
  have hm : t.value ≠ .punct .comma := by rintro hv; simp [hv, TokenValue.isPlain] at h
  constructor
  · intro depth rest
    simp [takeEnclosed, Token.isPunct_iff, hc, Token.depthAfter_of_not_paren depth ho hc]
  · intro depth rest
    simp [dropEnclosed, Token.isPunct_iff, hc, Token.depthAfter_of_not_paren depth ho hc]
  · intro edge depth _ rest
    simp [cutAtCommas, Token.isPunct_iff, hm, Token.depthAfter_of_not_paren depth ho hc]

theorem cons {t : Token} {us : List Token} (ht : t.value.isPlain = true) (h : KeepsDepth 0 us) :
    KeepsDepth 0 (t :: us) :=
  (plain ht).append h

theorem ofPlain {us : List Token} (h : ∀ u ∈ us, u.value.isPlain = true) : KeepsDepth 0 us := by
  induction us with
  | nil => exact .nil 0
  | cons u us ih => exact .cons (h u (by simp)) (ih fun w hw => h w (by simp [hw]))

/-- A comma counts only outside all parentheses. -/
theorem comma {t : Token} (h : t.value = .punct .comma) : KeepsDepth 1 [t] := by
  have hs : ∀ depth, t.depthAfter depth = depth := fun depth =>
    Token.depthAfter_of_not_paren depth (by simp [h]) (by simp [h])
  constructor
  · intro depth rest
    simp [takeEnclosed, Token.isPunct_iff, h, hs]
  · intro depth rest
    simp [dropEnclosed, Token.isPunct_iff, h, hs]
  · intro edge depth hd rest
    have hn : depth ≠ 0 := by omega
    simp [cutAtCommas, hn, hs]

theorem paren {o c : Token} {us : List Token} (ho : o.value = .punct .openParen)
    (hc : c.value = .punct .closeParen) (h : KeepsDepth 1 us) :
    KeepsDepth 0 (o :: (us ++ [c])) := by
  have opened : ∀ depth, o.depthAfter depth = depth + 1 := by
    simp [Token.depthAfter, Token.isPunct_iff, ho]
  have closed : ∀ depth, c.depthAfter (depth + 1) = depth := by
    simp [Token.depthAfter, Token.isPunct_iff, hc]
  constructor
  · intro depth rest
    have hu := h.take (depth + 1) (c :: rest)
    simp [takeEnclosed, Token.isPunct_iff, ho, opened, hu, closed]
  · intro depth rest
    have hu := h.drop (depth + 1) (c :: rest)
    simp [dropEnclosed, Token.isPunct_iff, ho, opened, hu, closed]
  · intro edge depth _ rest
    have hu := h.cut edge (depth + 1) (by omega) (c :: rest)
    simp [cutAtCommas, Token.isPunct_iff, ho, opened, hu, closed]

theorem takeEnclosed_eq {least : Nat} {us : List Token} (h : KeepsDepth least us) {t : Token}
    (ht : t.value = .punct .closeParen) (rest : List Token) :
    takeEnclosed 0 (us ++ t :: rest) = us := by
  rw [h.take]
  simp [takeEnclosed, Token.isPunct_iff, ht]

theorem dropEnclosed_eq {least : Nat} {us : List Token} (h : KeepsDepth least us) {t : Token}
    (ht : t.value = .punct .closeParen) (rest : List Token) :
    dropEnclosed 0 (us ++ t :: rest) = t :: rest := by
  rw [h.drop]
  simp [dropEnclosed, Token.isPunct_iff, ht]

end KeepsDepth

end CommandTemplate
