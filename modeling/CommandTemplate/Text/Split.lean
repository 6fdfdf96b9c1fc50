namespace CommandTemplate

/-- The stretches of a text between the characters `sep`. There is always one. -/
def splitChars (sep : Char) : List Char → List (List Char)
  | [] => [[]]
  | c :: cs =>
    if c == sep then [] :: splitChars sep cs
    else match splitChars sep cs with
      | [] => [[c]]
      | part :: parts => (c :: part) :: parts

/-- Texts one after the other with `sep` between them. -/
def joinWith (sep : String) : List String → String
  | [] => ""
  | [s] => s
  | s :: t :: rest => s ++ sep ++ joinWith sep (t :: rest)

theorem splitChars_ne_nil (sep : Char) (cs : List Char) : splitChars sep cs ≠ [] := by
  cases cs with
  | nil => simp [splitChars]
  | cons c cs =>
    simp only [splitChars]
    split
    · simp
    · split <;> simp

theorem splitChars_of_not_mem {sep : Char} {cs : List Char} (h : sep ∉ cs) :
    splitChars sep cs = [cs] := by
  induction cs with
  | nil => rfl
  | cons c cs ih =>
    simp only [List.mem_cons, not_or] at h
    simp [splitChars, Ne.symm h.1, ih h.2]

theorem splitChars_append_sep (sep : Char) (cs ds : List Char) :
    splitChars sep (cs ++ sep :: ds) = splitChars sep cs ++ splitChars sep ds := by
  induction cs with
  | nil => simp [splitChars]
  | cons c cs ih =>
    by_cases hc : c = sep
    · simp [splitChars, hc, ih]
    · obtain ⟨part, parts, hp⟩ := List.exists_cons_of_ne_nil (splitChars_ne_nil sep cs)
      simp [splitChars, hc, ih, hp]

theorem splitChars_joinWith (sep : Char) {texts : List String} (h : texts ≠ []) :
    splitChars sep (joinWith (String.singleton sep) texts).toList =
      texts.flatMap fun s => splitChars sep s.toList := by
  match texts with
  | [] => exact absurd rfl h
  | [s] => simp [joinWith]
  | s :: t :: rest =>
    have hjoin : (joinWith (String.singleton sep) (s :: t :: rest)).toList =
        s.toList ++ sep :: (joinWith (String.singleton sep) (t :: rest)).toList := by
      simp [joinWith]
    rw [hjoin, splitChars_append_sep, splitChars_joinWith sep (List.cons_ne_nil t rest)]
    rfl

theorem not_mem_of_mem_splitChars {sep : Char} {cs part : List Char}
    (h : part ∈ splitChars sep cs) : sep ∉ part := by
  induction cs generalizing part with
  | nil => simp_all [splitChars]
  | cons c cs ih =>
    obtain ⟨first, later, hp⟩ := List.exists_cons_of_ne_nil (splitChars_ne_nil sep cs)
    by_cases hc : c = sep
    · simp only [splitChars, hc, beq_self_eq_true, if_true, List.mem_cons] at h
      rcases h with rfl | h
      · simp
      · exact ih h
    · simp only [splitChars, beq_iff_eq, hc, if_false, hp, List.mem_cons] at h
      rcases h with rfl | h
      · simp only [List.mem_cons, not_or]
        exact ⟨Ne.symm hc, ih (hp ▸ List.mem_cons_self ..)⟩
      · exact ih (hp ▸ List.mem_cons_of_mem first h)

end CommandTemplate
