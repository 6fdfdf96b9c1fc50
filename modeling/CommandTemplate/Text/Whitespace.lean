namespace CommandTemplate

/-- White space is the Unicode property White_Space: 25 characters in all. -/
def isBlank (c : Char) : Bool :=
  let n := c.toNat
  (0x09 ≤ n && n ≤ 0x0D) || n == 0x20 || n == 0x85 || n == 0xA0 || n == 0x1680 ||
    (0x2000 ≤ n && n ≤ 0x200A) || n == 0x2028 || n == 0x2029 || n == 0x202F ||
    n == 0x205F || n == 0x3000

/-- Drops the longest tail whose characters all satisfy `p`. -/
def dropTail (p : Char → Bool) (cs : List Char) : List Char :=
  (cs.reverse.dropWhile p).reverse

/-- A text without the white space at its end. -/
def trimBlanks (s : String) : String :=
  String.ofList (dropTail isBlank s.toList)

/-- A text without the line feeds and carriage returns at its end. -/
def trimLineBreaks (s : String) : String :=
  String.ofList (dropTail (fun c => c == '\n' || c == '\r') s.toList)

theorem dropTail_append_of_all {p : Char → Bool} (cs ds : List Char)
    (h : ds.all p = true) : dropTail p (cs ++ ds) = dropTail p cs := by
  have hr : ∀ c ∈ ds.reverse, p c = true := by
    intro c hc
    exact List.all_eq_true.mp h c (List.mem_reverse.mp hc)
  simp [dropTail, List.dropWhile_append_of_pos hr]

theorem dropTail_append_singleton {p : Char → Bool} (cs : List Char) {c : Char}
    (h : p c = false) : dropTail p (cs ++ [c]) = cs ++ [c] := by
  simp [dropTail, h]

end CommandTemplate
