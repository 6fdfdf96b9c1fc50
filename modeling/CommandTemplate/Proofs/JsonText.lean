import CommandTemplate.Json.Pretty

namespace CommandTemplate

/-- What may stand behind a number: nothing that would go on with it. -/
def EndsNumber (r : List Char) : Prop :=
  ∀ c, r.head? = some c → c.isDigit = false

theorem endsNumber_nil : EndsNumber [] := by simp [EndsNumber]

theorem endsNumber_cons {c : Char} (hc : c.isDigit = false) (r : List Char) :
    EndsNumber (c :: r) := by
  intro d hd
  obtain rfl : c = d := by simpa using hd
  exact hc

theorem takeWhile_isDigit_append {ds r : List Char} (hd : ds.all Char.isDigit = true)
    (hr : EndsNumber r) : (ds ++ r).takeWhile Char.isDigit = ds := by
  rw [List.takeWhile_append_of_pos (List.all_eq_true.mp hd)]
  cases r with
  | nil => simp
  | cons c r => simp [hr c rfl]

theorem decimal_append_inj {n m : Nat} {r r' : List Char} (hr : EndsNumber r)
    (hr' : EndsNumber r') (h : decimal n ++ r = decimal m ++ r') : n = m ∧ r = r' := by
  have hdigits : decimal n = decimal m := by
    have htake := congrArg (List.takeWhile Char.isDigit) h
    rwa [takeWhile_isDigit_append (decimal_all_isDigit n) hr,
      takeWhile_isDigit_append (decimal_all_isDigit m) hr'] at htake
  rw [hdigits] at h
  refine ⟨?_, List.append_cancel_left h⟩
  rw [← decimalValue_decimal n, hdigits, decimalValue_decimal]

theorem exists_digit_decimal (n : Nat) : ∃ c cs, decimal n = c :: cs ∧ c.isDigit = true := by
  have hall := List.all_eq_true.mp (decimal_all_isDigit n)
  obtain ⟨c, cs, hd⟩ := List.exists_cons_of_ne_nil (decimal_ne_nil n)
  exact ⟨c, cs, hd, hall c (by simp [hd])⟩

theorem intText_append_inj {a b : Int} {r r' : List Char} (hr : EndsNumber r)
    (hr' : EndsNumber r') (h : (intText a).toList ++ r = (intText b).toList ++ r') :
    a = b ∧ r = r' := by
  have hsign : ∀ n cs ds, decimal n ++ cs ≠ '-' :: ds := by
    intro n cs ds he
    obtain ⟨c, rest, hd, hc⟩ := exists_digit_decimal n
    rw [hd, List.cons_append] at he
    rw [(List.cons.inj he).1] at hc
    cases hc
  cases a with
  | ofNat n =>
    cases b with
    | ofNat m =>
      obtain ⟨rfl, hrest⟩ := decimal_append_inj hr hr' (by simpa [intText, natText] using h)
      exact ⟨rfl, hrest⟩
    | negSucc m => exact absurd (by simpa [intText, natText] using h) (hsign n r _)
  | negSucc n =>
    cases b with
    | ofNat m => exact absurd (by simpa [intText, natText] using h.symm) (hsign m r' _)
    | negSucc m =>
      obtain ⟨hnm, hrest⟩ := decimal_append_inj hr hr' (by simpa [intText, natText] using h)
      exact ⟨by rw [Nat.succ.inj hnm], hrest⟩

namespace Json

/-- The character that a letter behind a backslash stands for. -/
def escapedChar (c : Char) : Char :=
  if c = 'n' then '\n'
  else if c = 'r' then '\r'
  else if c = 't' then '\t'
  else if c = 'b' then '\x08'
  else if c = 'f' then '\x0c'
  else c

/-- Reads the first character inside quotes. -/
def unquoteChar : List Char → Option (Char × List Char)
  | '\\' :: 'u' :: _ :: _ :: a :: b :: r => some (Char.ofNat (16 * hexValue a + hexValue b), r)
  | '\\' :: c :: r => some (escapedChar c, r)
  | c :: r => some (c, r)
  | [] => none

theorem unquoteChar_quoteChar (c : Char) (r : List Char) :
    unquoteChar (quoteChar c ++ r) = some (c, r) := by
  unfold quoteChar
  split
  next h => rw [eq_of_beq h]; rfl
  split
  next h => rw [eq_of_beq h]; rfl
  split
  next h => rw [eq_of_beq h]; rfl
  split
  next h => rw [eq_of_beq h]; rfl
  split
  next h => rw [eq_of_beq h]; rfl
  split
  next h => rw [eq_of_beq h]; rfl
  split
  next h => rw [eq_of_beq h]; rfl
  split
  next h =>
    have hhigh := hexValue_hexDigit (c.toNat / 16) (by omega)
    have hlow := hexValue_hexDigit (c.toNat % 16) (by omega)
    have hvalue : 16 * (c.toNat / 16) + c.toNat % 16 = c.toNat := Nat.div_add_mod c.toNat 16
    simp [unquoteChar, hhigh, hlow, hvalue]
  next _ hback _ _ _ _ _ _ =>
    have hne : c ≠ '\\' := by simpa using hback
    simp [unquoteChar, hne]

theorem quoteChar_append_inj {c d : Char} {r r' : List Char}
    (h : quoteChar c ++ r = quoteChar d ++ r') : c = d ∧ r = r' := by
  have hread := congrArg unquoteChar h
  rw [unquoteChar_quoteChar, unquoteChar_quoteChar] at hread
  exact Prod.mk.inj (Option.some.inj hread)

/-- No character is written with a quote in front. -/
theorem quoteChar_ne_quote (c : Char) (r r' : List Char) : quoteChar c ++ r ≠ '"' :: r' := by
  intro h
  have hread := congrArg unquoteChar h
  rw [unquoteChar_quoteChar] at hread
  -- The quote itself has a backslash in front, all others start otherwise.
  obtain ⟨rfl, rfl⟩ : c = '"' ∧ r = r' := by simpa [unquoteChar] using hread
  simpa [quoteChar] using congrArg List.length h

theorem quoteChars_append_inj {cs ds r r' : List Char}
    (h : cs.flatMap quoteChar ++ '"' :: r = ds.flatMap quoteChar ++ '"' :: r') :
    cs = ds ∧ r = r' := by
  induction cs generalizing ds with
  | nil =>
    cases ds with
    | nil => exact ⟨rfl, (List.cons.inj h).2⟩
    | cons d ds =>
      rw [List.flatMap_cons, List.append_assoc] at h
      exact absurd h.symm (quoteChar_ne_quote d _ _)
  | cons c cs ih =>
    cases ds with
    | nil =>
      rw [List.flatMap_cons, List.append_assoc] at h
      exact absurd h (quoteChar_ne_quote c _ _)
    | cons d ds =>
      rw [List.flatMap_cons, List.flatMap_cons, List.append_assoc, List.append_assoc] at h
      obtain ⟨rfl, hrest⟩ := quoteChar_append_inj h
      obtain ⟨rfl, hr⟩ := ih hrest
      exact ⟨rfl, hr⟩

theorem quote_append_inj {s t : String} {r r' : List Char}
    (h : (quote s).toList ++ r = (quote t).toList ++ r') : s = t ∧ r = r' := by
  have hchars : s.toList.flatMap quoteChar ++ '"' :: r =
      t.toList.flatMap quoteChar ++ '"' :: r' := by
    simpa [quote] using h
  obtain ⟨hst, hr⟩ := quoteChars_append_inj hchars
  exact ⟨String.toList_inj.mp hst, hr⟩

/-- The kinds of documents. -/
inductive Kind
  | null
  | bool
  | num
  | str
  | arr
  | obj
deriving DecidableEq

def kind : Json → Kind
  | .null => .null
  | .bool _ => .bool
  | .num _ => .num
  | .str _ => .str
  | .arr _ => .arr
  | .obj _ => .obj

/-- The kind of a document, told from its first character. -/
def Kind.ofChar (c : Char) : Kind :=
  if c = 'n' then .null
  else if c = 't' ∨ c = 'f' then .bool
  else if c = '"' then .str
  else if c = '[' then .arr
  else if c = '\x7b' then .obj
  else .num

theorem ofChar_of_isDigit {c : Char} (h : c.isDigit = true) : Kind.ofChar c = .num := by
  have hne : ∀ d : Char, d.isDigit = false → c ≠ d := by
    rintro d hd rfl
    simp [h] at hd
  simp [Kind.ofChar, hne 'n' rfl, hne 't' rfl, hne 'f' rfl, hne '"' rfl, hne '[' rfl,
    hne '\x7b' rfl]

attribute [simp] layout layoutItems layoutFields

/-- The blanks at the start of a line. -/
def indent (level : Nat) : List Char :=
  List.replicate (2 * level) ' '

section

variable (level : Nat) (r : List Char)

theorem layout_arr_cons (item : Json) (items : List Json) :
    (layout level (.arr (item :: items))).toList ++ r =
      '[' :: '\n' :: (indent (level + 1) ++ ((layout (level + 1) item).toList ++
        ((layoutItems (level + 1) items).toList ++ '\n' :: (indent level ++ ']' :: r)))) := by
  simp [newLine, indent]

theorem layout_obj_cons (field : String × Json) (fields : List (String × Json)) :
    (layout level (.obj (field :: fields))).toList ++ r =
      '\x7b' :: '\n' :: (indent (level + 1) ++ ((quote field.1).toList ++ ':' :: ' ' ::
        ((layout (level + 1) field.2).toList ++ ((layoutFields (level + 1) fields).toList ++
          '\n' :: (indent level ++ '\x7d' :: r))))) := by
  simp [newLine, indent]

theorem layoutItems_cons (item : Json) (items : List Json) :
    (layoutItems level (item :: items)).toList ++ r =
      ',' :: '\n' :: (indent level ++ ((layout level item).toList ++
        ((layoutItems level items).toList ++ r))) := by
  simp [newLine, indent]

theorem layoutFields_cons (field : String × Json) (fields : List (String × Json)) :
    (layoutFields level (field :: fields)).toList ++ r =
      ',' :: '\n' :: (indent level ++ ((quote field.1).toList ++ ':' :: ' ' ::
        ((layout level field.2).toList ++ ((layoutFields level fields).toList ++ r)))) := by
  simp [newLine, indent]

theorem endsNumber_items (items : List Json) :
    EndsNumber ((layoutItems level items).toList ++ '\n' :: r) := by
  cases items with
  | nil =>
    rw [layoutItems]
    exact endsNumber_cons rfl r
  | cons item items =>
    rw [layoutItems_cons]
    exact endsNumber_cons rfl _

theorem endsNumber_fields (fields : List (String × Json)) :
    EndsNumber ((layoutFields level fields).toList ++ '\n' :: r) := by
  cases fields with
  | nil =>
    rw [layoutFields]
    exact endsNumber_cons rfl r
  | cons field fields =>
    rw [layoutFields_cons]
    exact endsNumber_cons rfl _

end

theorem layout_head (level : Nat) (j : Json) :
    ∃ c cs, (layout level j).toList = c :: cs ∧ Kind.ofChar c = j.kind := by
  match j with
  | .null => exact ⟨'n', _, by simp; rfl, rfl⟩
  | .bool true => exact ⟨'t', _, by simp; rfl, rfl⟩
  | .bool false => exact ⟨'f', _, by simp; rfl, rfl⟩
  | .num (.ofNat n) =>
    obtain ⟨c, cs, hd, hc⟩ := exists_digit_decimal n
    exact ⟨c, cs, by simp [intText, natText, hd], ofChar_of_isDigit hc⟩
  | .num (.negSucc n) => exact ⟨'-', _, by simp [intText]; rfl, rfl⟩
  | .str s => exact ⟨'"', _, by simp [quote]; rfl, rfl⟩
  | .arr [] => exact ⟨'[', _, by simp; rfl, rfl⟩
  | .arr (item :: items) => exact ⟨'[', _, by simp; rfl, rfl⟩
  | .obj [] => exact ⟨'\x7b', _, by simp; rfl, rfl⟩
  | .obj ((key, v) :: fields) => exact ⟨'\x7b', _, by simp; rfl, rfl⟩

theorem kind_eq_of_layout {level : Nat} {j k : Json} {r r' : List Char}
    (h : (layout level j).toList ++ r = (layout level k).toList ++ r') : j.kind = k.kind := by
  obtain ⟨c, cs, hj, hc⟩ := layout_head level j
  obtain ⟨d, ds, hk, hd⟩ := layout_head level k
  rw [hj, hk] at h
  rw [← hc, ← hd, (List.cons.inj h).1]

/-- A document that stands at the head of a text can be told from the text, and so can what
follows it. -/
def Unambiguous (level : Nat) (j : Json) : Prop :=
  ∀ k r r', EndsNumber r → EndsNumber r' →
    (layout level j).toList ++ r = (layout level k).toList ++ r' → j = k ∧ r = r'

section

variable {level : Nat}

theorem unambiguous_null : Unambiguous level .null := by
  intro k r r' _ _ h
  have hkind := kind_eq_of_layout h
  cases k with
  | null => exact ⟨rfl, List.append_cancel_left h⟩
  | _ => cases hkind

theorem unambiguous_bool (b : Bool) : Unambiguous level (.bool b) := by
  intro k r r' _ _ h
  have hkind := kind_eq_of_layout h
  cases k with
  | bool b' => cases b <;> cases b' <;> simp_all
  | _ => cases hkind

theorem unambiguous_num (n : Int) : Unambiguous level (.num n) := by
  intro k r r' hr hr' h
  have hkind := kind_eq_of_layout h
  cases k with
  | num m =>
    rw [layout, layout] at h
    obtain ⟨rfl, hrest⟩ := intText_append_inj hr hr' h
    exact ⟨rfl, hrest⟩
  | _ => cases hkind

theorem unambiguous_str (s : String) : Unambiguous level (.str s) := by
  intro k r r' _ _ h
  have hkind := kind_eq_of_layout h
  cases k with
  | str t =>
    rw [layout, layout] at h
    obtain ⟨rfl, hrest⟩ := quote_append_inj h
    exact ⟨rfl, hrest⟩
  | _ => cases hkind

theorem layoutItems_append_inj {xs ys : List Json} {r r' : List Char}
    (hxs : ∀ x ∈ xs, Unambiguous level x)
    (h : (layoutItems level xs).toList ++ '\n' :: r = (layoutItems level ys).toList ++ '\n' :: r') :
    xs = ys ∧ r = r' := by
  induction xs generalizing ys with
  | nil =>
    cases ys with
    | nil => simpa using h
    | cons y ys => simp at h
  | cons x xs ih =>
    cases ys with
    | nil => simp at h
    | cons y ys =>
      simp only [layoutItems_cons, List.cons.injEq, true_and, List.append_cancel_left_eq] at h
      obtain ⟨rfl, hitems⟩ := hxs x List.mem_cons_self y _ _ (endsNumber_items _ _ xs)
        (endsNumber_items _ _ ys) h
      obtain ⟨rfl, hrest⟩ := ih (fun z hz => hxs z (List.mem_cons_of_mem x hz)) hitems
      exact ⟨rfl, hrest⟩

theorem field_append_inj {f g : String × Json} {r r' : List Char} (hf : Unambiguous level f.2)
    (hr : EndsNumber r) (hr' : EndsNumber r')
    (h : (quote f.1).toList ++ ':' :: ' ' :: ((layout level f.2).toList ++ r) =
      (quote g.1).toList ++ ':' :: ' ' :: ((layout level g.2).toList ++ r')) :
    f = g ∧ r = r' := by
  obtain ⟨hkey, htail⟩ := quote_append_inj h
  simp only [List.cons.injEq, true_and] at htail
  obtain ⟨hvalue, hrest⟩ := hf g.2 r r' hr hr' htail
  exact ⟨Prod.ext hkey hvalue, hrest⟩

theorem layoutFields_append_inj {fs gs : List (String × Json)} {r r' : List Char}
    (hfs : ∀ f ∈ fs, Unambiguous level f.2)
    (h : (layoutFields level fs).toList ++ '\n' :: r =
      (layoutFields level gs).toList ++ '\n' :: r') :
    fs = gs ∧ r = r' := by
  induction fs generalizing gs with
  | nil =>
    cases gs with
    | nil => simpa using h
    | cons g gs => simp at h
  | cons f fs ih =>
    cases gs with
    | nil => simp at h
    | cons g gs =>
      simp only [layoutFields_cons, List.cons.injEq, true_and, List.append_cancel_left_eq] at h
      obtain ⟨rfl, hfields⟩ := field_append_inj (hfs f List.mem_cons_self)
        (endsNumber_fields _ _ fs) (endsNumber_fields _ _ gs) h
      obtain ⟨rfl, hrest⟩ := ih (fun e he => hfs e (List.mem_cons_of_mem f he)) hfields
      exact ⟨rfl, hrest⟩

theorem unambiguous_arr {items : List Json} (h : ∀ x ∈ items, Unambiguous (level + 1) x) :
    Unambiguous level (.arr items) := by
  intro k r r' _ _ htext
  have hkind := kind_eq_of_layout htext
  cases k with
  | arr items' =>
    cases items with
    | nil =>
      cases items' with
      | nil => exact ⟨rfl, List.append_cancel_left htext⟩
      | cons y ys => simp [newLine] at htext
    | cons x xs =>
      cases items' with
      | nil => simp [newLine] at htext
      | cons y ys =>
        simp only [layout_arr_cons, List.cons.injEq, true_and, List.append_cancel_left_eq] at htext
        obtain ⟨rfl, hitems⟩ := h x List.mem_cons_self y _ _ (endsNumber_items _ _ xs)
          (endsNumber_items _ _ ys) htext
        obtain ⟨rfl, hrest⟩ :=
          layoutItems_append_inj (fun z hz => h z (List.mem_cons_of_mem x hz)) hitems
        exact ⟨rfl, (List.cons.inj (List.append_cancel_left hrest)).2⟩
  | _ => cases hkind

theorem unambiguous_obj {fields : List (String × Json)}
    (h : ∀ f ∈ fields, Unambiguous (level + 1) f.2) : Unambiguous level (.obj fields) := by
  intro k r r' _ _ htext
  have hkind := kind_eq_of_layout htext
  cases k with
  | obj fields' =>
    cases fields with
    | nil =>
      cases fields' with
      | nil => exact ⟨rfl, List.append_cancel_left htext⟩
      | cons g gs => simp [newLine] at htext
    | cons f fs =>
      cases fields' with
      | nil => simp [newLine] at htext
      | cons g gs =>
        simp only [layout_obj_cons, List.cons.injEq, true_and, List.append_cancel_left_eq] at htext
        obtain ⟨rfl, hfields⟩ := field_append_inj (h f List.mem_cons_self)
          (endsNumber_fields _ _ fs) (endsNumber_fields _ _ gs) htext
        obtain ⟨rfl, hrest⟩ :=
          layoutFields_append_inj (fun e he => h e (List.mem_cons_of_mem f he)) hfields
        exact ⟨rfl, (List.cons.inj (List.append_cancel_left hrest)).2⟩
  | _ => cases hkind

end

theorem sizeOf_snd_lt {field : String × Json} {fields : List (String × Json)}
    (h : field ∈ fields) : sizeOf field.2 < sizeOf (Json.obj fields) := by
  have hfield := List.sizeOf_lt_of_mem h
  have hpair : sizeOf field = 1 + sizeOf field.1 + sizeOf field.2 := rfl
  simp only [Json.obj.sizeOf_spec]
  omega

theorem unambiguous (level : Nat) : (j : Json) → Unambiguous level j
  | .null => unambiguous_null
  | .bool b => unambiguous_bool b
  | .num n => unambiguous_num n
  | .str s => unambiguous_str s
  | .arr items => unambiguous_arr fun item _ => unambiguous (level + 1) item
  | .obj fields => unambiguous_obj fun field _ => unambiguous (level + 1) field.2
termination_by j => sizeOf j
decreasing_by
  · decreasing_tactic
  · exact sizeOf_snd_lt ‹_›

/-- A document can be told from its text. -/
theorem pretty_injective {j k : Json} (h : j.pretty = k.pretty) : j = k := by
  have hchars : (layout 0 j).toList ++ [] = (layout 0 k).toList ++ [] := by
    rw [← pretty, h, pretty]
  exact (unambiguous 0 j k [] [] endsNumber_nil endsNumber_nil hchars).1

end Json

end CommandTemplate
