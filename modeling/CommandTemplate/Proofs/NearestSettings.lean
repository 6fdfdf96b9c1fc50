import CommandTemplate.Config.Discovery

namespace CommandTemplate

namespace Path

/-- The directory around a directory, by its text alone: the last part that is not inert goes. -/
def parent? (path : String) : Option String :=
  match (relativeParts path).reverse.dropWhile isInert with
  | [] => none
  | _ :: rest => some (ofParts (isAbsolute path) (rest.dropWhile isInert).reverse)

theorem outward_dropWhile (ps : List String) : outward (ps.dropWhile isInert) = outward ps := by
  induction ps with
  | nil => rfl
  | cons p ps ih =>
    cases hp : isInert p with
    | true => simp [outward, hp, ih]
    | false => simp [outward, hp]

/-- Parts of a path, of which the first is not empty unless the path is absolute. -/
structure Parted (absolute : Bool) (ps : List String) : Prop where
  no_slash : ∀ p ∈ ps, '/' ∉ p.toList
  starts : absolute = false → ps.head? ≠ some ""

theorem Parted.initial {absolute : Bool} {ps qs : List String} (h : Parted absolute qs)
    (hp : ps <+: qs) : Parted absolute ps := by
  refine ⟨fun p hm => h.no_slash p (hp.subset hm), fun ha hh => h.starts ha ?_⟩
  obtain ⟨rest, rfl⟩ := hp
  rw [List.head?_append, hh, Option.some_or]

theorem splitChars_joinWith_parts {ps : List String} (h : ∀ p ∈ ps, '/' ∉ p.toList)
    (hne : ps ≠ []) : (splitChars '/' (joinWith "/" ps).toList).map String.ofList = ps := by
  have hparts : ps.map (fun p => splitChars '/' p.toList) = ps.map fun p => [p.toList] :=
    List.map_congr_left fun p hp => splitChars_of_not_mem (h p hp)
  rw [show "/" = String.singleton '/' from rfl, splitChars_joinWith '/' hne, List.flatMap_def,
    hparts, ← List.flatMap_def, ← List.map_eq_flatMap, List.map_map]
  simp [Function.comp_def]

theorem joinWith_cons_toList (p : String) (ps : List String) :
    ∃ tail, (joinWith "/" (p :: ps)).toList = p.toList ++ tail := by
  cases ps with
  | nil => exact ⟨[], by simp [joinWith]⟩
  | cons q ps => exact ⟨'/' :: (joinWith "/" (q :: ps)).toList, by simp [joinWith]⟩

theorem Parted.isAbsolute_ofParts {absolute : Bool} {ps : List String} (h : Parted absolute ps) :
    isAbsolute (ofParts absolute ps) = absolute := by
  cases absolute with
  | true => simp [isAbsolute, ofParts]
  | false =>
    cases ps with
    | nil => rfl
    | cons p ps =>
      obtain ⟨tail, htail⟩ := joinWith_cons_toList p ps
      have hslash := h.no_slash p (List.mem_cons_self ..)
      have hp : p ≠ "" := fun hp => h.starts rfl (by rw [hp]; rfl)
      obtain ⟨c, cs, hc⟩ := List.exists_cons_of_ne_nil (by simpa using hp : p.toList ≠ [])
      have hne : c ≠ '/' := by
        rintro rfl
        simp [hc] at hslash
      simp [isAbsolute, ofParts, htail, hc, hne]

theorem Parted.relativeParts_ofParts {absolute : Bool} {ps : List String}
    (h : Parted absolute ps) : relativeParts (ofParts absolute ps) =
      (splitChars '/' (joinWith "/" ps).toList).map String.ofList := by
  rw [relativeParts, h.isAbsolute_ofParts]
  cases absolute with
  | true => simp [parts, ofParts, splitChars]
  | false => simp [parts, ofParts]

/-- Writing the parts of a path and reading them again changes inert parts only. -/
theorem Parted.outward_ofParts {absolute : Bool} {ps : List String} (h : Parted absolute ps) :
    outward (relativeParts (ofParts absolute ps)).reverse = outward ps.reverse := by
  rw [h.relativeParts_ofParts]
  by_cases hps : ps = []
  · subst hps
    rfl
  · rw [splitChars_joinWith_parts h.no_slash hps]

theorem parted_relativeParts {path : String} (h : path ≠ "") :
    Parted (isAbsolute path) (relativeParts path) := by
  have hparts : ∀ p ∈ parts path, '/' ∉ p.toList := by
    intro p hp
    obtain ⟨cs, hcs, rfl⟩ := List.mem_map.mp hp
    rw [String.toList_ofList]
    exact not_mem_of_mem_splitChars hcs
  obtain ⟨c, cs, hc⟩ := List.exists_cons_of_ne_nil (by simpa using h : path.toList ≠ [])
  by_cases hslash : c = '/'
  · have habsolute : isAbsolute path = true := by simp [isAbsolute, hc, hslash]
    rw [relativeParts, habsolute]
    exact ⟨fun p hp => hparts p (List.mem_of_mem_drop hp), by simp⟩
  · have habsolute : isAbsolute path = false := by simp [isAbsolute, hc, hslash]
    rw [relativeParts, habsolute]
    refine ⟨hparts, fun _ => ?_⟩
    obtain ⟨part, later, hp⟩ := List.exists_cons_of_ne_nil (splitChars_ne_nil '/' cs)
    simp [parts, hc, splitChars, hslash, hp]

/-- A directory and its enclosing ones are it and those of its parent. -/
theorem ancestors_eq (path : String) :
    ancestors path = path :: ((parent? path).map ancestors).getD [] := by
  rw [ancestors, ← outward_dropWhile, parent?]
  cases hd : (relativeParts path).reverse.dropWhile isInert with
  | nil => rfl
  | cons p rest =>
    have hpath : path ≠ "" := by
      rintro rfl
      have hnone : (relativeParts "").reverse.dropWhile isInert = [] := by decide
      cases hnone.symm.trans hd
    have hp : isInert p = false := by
      have hh := List.head_dropWhile_not isInert (l := (relativeParts path).reverse) (by simp [hd])
      simpa [hd] using hh
    have hsuffix : rest.dropWhile isInert <:+ (relativeParts path).reverse :=
      ((List.dropWhile_suffix _).trans (List.suffix_cons p rest)).trans
        (hd ▸ List.dropWhile_suffix isInert)
    have hparted : Parted (isAbsolute path) (rest.dropWhile isInert).reverse :=
      (parted_relativeParts hpath).initial (by
        rw [← List.reverse_suffix, List.reverse_reverse]
        exact hsuffix)
    have houtward := hparted.outward_ofParts
    rw [List.reverse_reverse, outward_dropWhile] at houtward
    simp only [outward, hp, Bool.false_eq_true, if_false, Option.map_some, Option.getD_some,
      List.map_cons]
    rw [ancestors, houtward, hparted.isAbsolute_ofParts]

end Path

namespace Config

/-- The settings file nearest to a directory: in the directory if there is one, and else the one
nearest to its parent. -/
inductive Nearest (entry : String → Entry) : String → Option String → Prop
  | here {directory : String} {content : ByteArray} :
      entry (Path.join directory configFileName) = .file content →
      Nearest entry directory (some (Path.join directory configFileName))
  | above {directory parent : String} {found : Option String} :
      (∀ content, entry (Path.join directory configFileName) ≠ .file content) →
      Path.parent? directory = some parent → Nearest entry parent found →
      Nearest entry directory found
  | nowhere {directory : String} :
      (∀ content, entry (Path.join directory configFileName) ≠ .file content) →
      Path.parent? directory = none → Nearest entry directory none

theorem isFile_eq_true_iff {e : Entry} : isFile e = true ↔ ∃ content, e = .file content := by
  cases e <;> simp [isFile]

theorem find?_eq (entry : String → Entry) (directory : String) :
    find? entry directory =
      if isFile (entry (Path.join directory configFileName)) then
        some (Path.join directory configFileName)
      else (Path.parent? directory).bind (find? entry) := by
  rw [find?, candidates, Path.ancestors_eq, List.map_cons, List.find?_cons]
  cases isFile (entry (Path.join directory configFileName)) with
  | true => rfl
  | false => cases Path.parent? directory <;> rfl

theorem find?_nearest (entry : String → Entry) (directory : String) :
    Nearest entry directory (find? entry directory) := by
  -- A parent has fewer enclosing directories.
  generalize hn : (Path.ancestors directory).length = n
  induction n generalizing directory with
  | zero =>
    rw [Path.ancestors_eq] at hn
    cases hn
  | succ n ih =>
    rw [find?_eq]
    by_cases hfile : isFile (entry (Path.join directory configFileName)) = true
    · obtain ⟨content, hcontent⟩ := isFile_eq_true_iff.mp hfile
      rw [if_pos hfile]
      exact .here hcontent
    · have hno : ∀ content, entry (Path.join directory configFileName) ≠ .file content :=
        fun content hcontent => hfile (isFile_eq_true_iff.mpr ⟨content, hcontent⟩)
      rw [if_neg hfile]
      cases hparent : Path.parent? directory with
      | none => exact .nowhere hno hparent
      | some parent =>
        rw [Path.ancestors_eq, hparent] at hn
        exact .above hno hparent (ih parent (by simpa using hn))

theorem Nearest.find?_eq {entry : String → Entry} {directory : String} {found : Option String}
    (h : Nearest entry directory found) : find? entry directory = found := by
  induction h with
  | here hcontent => rw [Config.find?_eq, if_pos (isFile_eq_true_iff.mpr ⟨_, hcontent⟩)]
  | above hno hparent _ ih =>
    have hfile := mt isFile_eq_true_iff.mp (not_exists.mpr hno)
    rw [Config.find?_eq, if_neg hfile, hparent, Option.bind_some, ih]
  | nowhere hno hparent =>
    have hfile := mt isFile_eq_true_iff.mp (not_exists.mpr hno)
    rw [Config.find?_eq, if_neg hfile, hparent, Option.bind_none]

end Config

end CommandTemplate
