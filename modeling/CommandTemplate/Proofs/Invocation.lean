import CommandTemplate.CommandLine.Request
import CommandTemplate.Proofs.NearestSettings

namespace CommandTemplate

/-- Arguments that set an option, with the value that goes with it. -/
inductive OptionGroup
  | allowUnterminated
  | debugTrace
  | dialect (spelling : String) (d : Dialect) (spells : Dialect.parse? spelling = some d)
  | config (path : String)

namespace OptionGroup

def words : OptionGroup → List String
  | .allowUnterminated => ["--allow-unterminated"]
  | .debugTrace => ["--debug-trace"]
  | .dialect spelling _ _ => ["--dialect", spelling]
  | .config path => ["--config", path]

def dialect? : OptionGroup → Option Dialect
  | .dialect _ d _ => some d
  | _ => none

def config? : OptionGroup → Option String
  | .config path => some path
  | _ => none

def allows : OptionGroup → Bool
  | .allowUnterminated => true
  | _ => false

/-- What a group adds to a request. -/
def apply (r : Request) : OptionGroup → Request
  | .allowUnterminated => { r with allowUnterminated := true }
  | .debugTrace => r
  | .dialect _ d _ => { r with dialect := some d }
  | .config path => { r with config := some path }

end OptionGroup

open OptionGroup Request

/-- The arguments that groups are written as. -/
def spelled (groups : List OptionGroup) : List String :=
  groups.flatMap words

/-- The arguments of a command: options, and among them the one argument that is none. -/
structure Invocation where
  before : List OptionGroup
  argument : String
  after : List OptionGroup

namespace Invocation

def words (i : Invocation) : List String :=
  spelled i.before ++ i.argument :: spelled i.after

/-- All options, in order. -/
def options (i : Invocation) : List OptionGroup :=
  i.before ++ i.after

end Invocation

/-- What an argument that is no option stands for: itself, or the text on the standard input without
the line breaks at its end. -/
inductive World.StandsFor (w : World) : String → String → Prop
  | itself {argument : String} : argument ≠ "-" → ¬ ['-', '-'] <+: argument.toList →
      StandsFor w argument argument
  | input {decoded text breaks : String} : String.fromUTF8? w.stdin = some decoded →
      decoded = text ++ breaks → (∀ c ∈ breaks.toList, c = '\n' ∨ c = '\r') →
      (∀ c, text.toList.getLast? = some c → c ≠ '\n' ∧ c ≠ '\r') → StandsFor w "-" text

theorem isFlag_eq_true_iff {argument : String} :
    isFlag argument = true ↔ ['-', '-'] <+: argument.toList := by
  unfold isFlag
  split
  next rest h => simp [h]
  next h =>
    simp only [Bool.false_eq_true, false_iff]
    rintro ⟨rest, hrest⟩
    exact h rest hrest.symm

theorem dropTail_spec (p : Char → Bool) (cs : List Char) :
    ∃ tail, cs = dropTail p cs ++ tail ∧ (∀ c ∈ tail, p c = true) ∧
      ∀ c, (dropTail p cs).getLast? = some c → p c = false := by
  refine ⟨(cs.reverse.takeWhile p).reverse, ?_, ?_, ?_⟩
  · rw [dropTail, ← List.reverse_append, List.takeWhile_append_dropWhile, List.reverse_reverse]
  · intro c hc
    exact List.all_eq_true.mp List.all_takeWhile c (List.mem_reverse.mp hc)
  · intro c hc
    rw [dropTail, List.getLast?_reverse] at hc
    have hh := List.head?_dropWhile_not p cs.reverse
    simpa [hc] using hh

theorem dropTail_append {p : Char → Bool} {cs tail : List Char} (ht : ∀ c ∈ tail, p c = true)
    (hl : ∀ c, cs.getLast? = some c → p c = false) : dropTail p (cs ++ tail) = cs := by
  rw [dropTail_append_of_all cs tail (List.all_eq_true.mpr ht)]
  rcases List.eq_nil_or_concat cs with rfl | ⟨front, c, rfl⟩
  · rfl
  · rw [List.concat_eq_append] at hl ⊢
    exact dropTail_append_singleton front (hl c (by simp))

theorem stdinText_eq_ok_iff {w : World} {text : String} :
    w.stdinText = .ok text ↔ w.StandsFor "-" text := by
  constructor
  · intro h
    unfold World.stdinText at h
    split at h
    next decoded hdecoded =>
      cases h
      obtain ⟨tail, hsplit, htail, hlast⟩ :=
        dropTail_spec (fun c => c == '\n' || c == '\r') decoded.toList
      refine @World.StandsFor.input w decoded _ (String.ofList tail) hdecoded ?_
        (by simpa using htail) ?_
      · rw [← String.toList_inj, String.toList_append, trimLineBreaks, String.toList_ofList,
          String.toList_ofList, ← hsplit]
      · intro c hc
        rw [trimLineBreaks, String.toList_ofList] at hc
        simpa using hlast c hc
    next => cases h
  · intro h
    cases h with
    | itself hne _ => exact absurd rfl hne
    | @input decoded _ breaks hdecoded hsplit hbreaks hlast =>
      have htrim : dropTail (fun c => c == '\n' || c == '\r') (text.toList ++ breaks.toList) =
          text.toList :=
        dropTail_append (by simpa using hbreaks) (by simpa using hlast)
      simp only [World.stdinText, hdecoded]
      rw [trimLineBreaks, hsplit, String.toList_append, htrim, String.ofList_toList]

section

variable {stdin : Except Failure String}

theorem addArguments_words (r : Request) (g : OptionGroup) (rest : List String) :
    r.addArguments stdin (g.words ++ rest) = (g.apply r).addArguments stdin rest := by
  cases g with
  | allowUnterminated =>
    rw [OptionGroup.words, List.singleton_append, addArguments.eq_def]
    simp [apply]
  | debugTrace =>
    rw [OptionGroup.words, List.singleton_append, addArguments.eq_def]
    simp [apply]
  | dialect spelling d spells => simp [OptionGroup.words, addArguments, apply, spells]
  | config path => simp [OptionGroup.words, addArguments, apply]

theorem addArguments_spelled (r : Request) (groups : List OptionGroup) (rest : List String) :
    r.addArguments stdin (spelled groups ++ rest) =
      (groups.foldl apply r).addArguments stdin rest := by
  induction groups generalizing r with
  | nil => rfl
  | cons g groups ih =>
    rw [spelled, List.flatMap_cons, List.append_assoc, addArguments_words, List.foldl_cons]
    exact ih (g.apply r)

end

theorem addArguments_argument {w : World} {r : Request} (hr : r.text = none)
    {argument text : String} (h : w.StandsFor argument text) (rest : List String) :
    r.addArguments w.stdinText (argument :: rest) =
      { r with text := some text }.addArguments w.stdinText rest := by
  rw [addArguments.eq_def]
  cases h with
  | itself hne hflag =>
    have hno : ∀ flag : String, ['-', '-'] <+: flag.toList → argument ≠ flag := by
      rintro flag hf rfl
      exact hflag hf
    have hd := hno "--dialect" (by decide)
    have ha := hno "--allow-unterminated" (by decide)
    have hc := hno "--config" (by decide)
    have ht := hno "--debug-trace" (by decide)
    have hf : isFlag argument = false := by
      rw [← Bool.not_eq_true, isFlag_eq_true_iff]
      exact hflag
    simp [hd, ha, hc, ht, hne, hf, setText, hr, bind, Except.bind, pure, Except.pure]
  | input hdecoded hsplit hbreaks hlast =>
    have hin := stdinText_eq_ok_iff.mpr (.input hdecoded hsplit hbreaks hlast)
    simp [setText, hr, hin, bind, Except.bind, pure, Except.pure]

/-- The request that options make: the last dialect and the last settings file count. -/
def requestOf (groups : List OptionGroup) (text : Option String) : Request :=
  ⟨(groups.filterMap dialect?).getLast?, groups.any allows,
    (groups.filterMap config?).getLast?, text⟩

theorem requestOf_concat (groups : List OptionGroup) (g : OptionGroup) (text : Option String) :
    requestOf (groups ++ [g]) text = g.apply (requestOf groups text) := by
  cases g <;> simp [requestOf, apply, dialect?, config?, allows]

theorem foldl_apply_requestOf (groups later : List OptionGroup) (text : Option String) :
    later.foldl apply (requestOf groups text) = requestOf (groups ++ later) text := by
  induction later generalizing groups with
  | nil => simp
  | cons g later ih =>
    rw [List.foldl_cons, ← requestOf_concat, ih, List.append_assoc]
    rfl

/-- An invocation is read as the request that its options make. -/
theorem Invocation.addArguments_words {w : World} (i : Invocation) {text : String}
    (h : w.StandsFor i.argument text) :
    Request.empty.addArguments w.stdinText i.words = .ok (requestOf i.options (some text)) := by
  have hempty : Request.empty = requestOf [] none := rfl
  have hsome : { requestOf i.before none with text := some text } =
    requestOf i.before (some text) := rfl
  have hafter := @addArguments_spelled w.stdinText (requestOf i.before (some text)) i.after []
  rw [Invocation.words, addArguments_spelled, hempty, foldl_apply_requestOf, List.nil_append,
    addArguments_argument rfl h, hsome]
  rw [List.append_nil, foldl_apply_requestOf] at hafter
  rw [hafter]
  rfl

/-- Arguments that can be read when there is a text already, or none so far: options, and one
argument that is none if there is no text yet. -/
inductive World.Readable (w : World) : Option String → List String → Prop
  | options (text : Option String) (groups : List OptionGroup) : Readable w text (spelled groups)
  | invocation (i : Invocation) {text : String} :
      w.StandsFor i.argument text → Readable w none i.words

theorem World.Readable.option {w : World} {text : Option String} {arguments : List String}
    (h : w.Readable text arguments) (g : OptionGroup) :
    w.Readable text (g.words ++ arguments) := by
  cases h with
  | options _ groups => exact .options text (g :: groups)
  | invocation i h =>
    have hwords : g.words ++ i.words =
        (Invocation.mk (g :: i.before) i.argument i.after).words := by
      simp [Invocation.words, spelled]
    rw [hwords]
    exact .invocation _ h

theorem World.Readable.argument {w : World} {argument text : String} {arguments : List String}
    (h : w.Readable (some text) arguments) (ha : w.StandsFor argument text) :
    w.Readable none (argument :: arguments) := by
  cases h with
  | options _ groups => exact .invocation ⟨[], argument, groups⟩ ha

theorem bind_eq_ok {α β : Type} {x : Except Failure α} {f : α → Except Failure β} {b : β}
    (h : x.bind f = .ok b) : ∃ a, x = .ok a ∧ f a = .ok b := by
  cases x with
  | error e => cases h
  | ok a => exact ⟨a, rfl, h⟩

theorem setText_eq_ok {r r' : Request} {argument : String} {text : Except Failure String}
    (h : r.setText argument text = .ok r') :
    r.text = none ∧ ∃ s, text = .ok s ∧ r'.text = some s := by
  unfold setText at h
  split at h
  next => cases h
  next hr =>
    cases text with
    | error e => cases h
    | ok s =>
      cases h
      exact ⟨hr, s, rfl, rfl⟩

theorem addArguments_readable {w : World} {r r' : Request} {arguments : List String}
    (h : r.addArguments w.stdinText arguments = .ok r') : w.Readable r.text arguments := by
  fun_induction addArguments w.stdinText r arguments with
  | case1 r => exact .options r.text []
  | case2 r argument hd => cases h
  | case3 r argument hd name rest d hname ih =>
    rw [eq_of_beq hd]
    exact (ih h).option (.dialect name d hname)
  | case4 r argument hd name rest hname => cases h
  | case5 r argument rest hd ha ih =>
    rw [eq_of_beq ha]
    exact (ih h).option .allowUnterminated
  | case6 r argument hd ha hc => cases h
  | case7 r argument hd ha hc path rest ih =>
    rw [eq_of_beq hc]
    exact (ih h).option (.config path)
  | case8 r argument rest hd ha hc ht ih =>
    rw [eq_of_beq ht]
    exact (ih h).option .debugTrace
  | case9 r argument rest hd ha hc ht hin ih =>
    obtain ⟨q, hq, hrest⟩ := bind_eq_ok h
    obtain ⟨hnone, s, hs, hqs⟩ := setText_eq_ok hq
    rw [eq_of_beq hin, hnone]
    exact (hqs ▸ ih q hrest).argument (stdinText_eq_ok_iff.mp hs)
  | case10 r argument rest hd ha hc ht hin hflag => cases h
  | case11 r argument rest hd ha hc ht hin hflag ih =>
    obtain ⟨q, hq, hrest⟩ := bind_eq_ok h
    obtain ⟨hnone, s, hs, hqs⟩ := setText_eq_ok hq
    cases hs
    rw [hnone]
    exact (hqs ▸ ih q hrest).argument
      (.itself (fun he => hin (beq_of_eq he)) (mt isFlag_eq_true_iff.mpr hflag))

/-- The arguments of an invocation are those that are read and have a text among them. -/
theorem addArguments_text_iff {w : World} {arguments : List String} :
    (∃ r text, Request.empty.addArguments w.stdinText arguments = .ok r ∧ r.text = some text) ↔
      ∃ (i : Invocation) (text : String), arguments = i.words ∧ w.StandsFor i.argument text := by
  constructor
  · rintro ⟨r, text, hr, htext⟩
    have hread : w.Readable none arguments := addArguments_readable hr
    cases hread with
    | options _ groups =>
      -- Options alone leave the request without a text.
      have hnil := @addArguments_spelled w.stdinText Request.empty groups []
      have hempty : Request.empty = requestOf [] none := rfl
      rw [List.append_nil, hr, hempty, foldl_apply_requestOf] at hnil
      cases hnil
      cases htext
    | @invocation i text h => exact ⟨i, text, rfl, h⟩
  · rintro ⟨i, text, rfl, h⟩
    exact ⟨_, text, i.addArguments_words h, rfl⟩

/-- The settings file that options call for: the last one named, or else the nearest one. -/
inductive World.Uses (w : World) (groups : List OptionGroup) : Option String → Prop
  | named {path : String} : (groups.filterMap config?).getLast? = some path →
      Uses w groups (some path)
  | nearest {found : Option String} : groups.filterMap config? = [] →
      Config.Nearest w.entry w.currentDirectory found → Uses w groups found

/-- The options in a settings file, and those without one. -/
inductive World.Loads (reader : SettingsReader) (w : World) : Option String → Options → Prop
  | default : Loads reader w none default
  | file {path text : String} {content : ByteArray} {options : Options} :
      w.entry path = .file content → String.fromUTF8? content = some text →
      reader text = .ok options → Loads reader w (some path) options

theorem uses_configPath (w : World) (groups : List OptionGroup) (text : Option String) :
    w.Uses groups ((requestOf groups text).configPath w) := by
  unfold Request.configPath requestOf
  split
  next path h => exact .named h
  next h => exact .nearest (by simpa using h) (Config.find?_nearest ..)

theorem World.Uses.configPath_eq {w : World} {groups : List OptionGroup} {found : Option String}
    (h : w.Uses groups found) (text : Option String) :
    (requestOf groups text).configPath w = found := by
  cases h with
  | named h => simp [Request.configPath, requestOf, h]
  | nearest hno hnearest => simp [Request.configPath, requestOf, hno, hnearest.find?_eq]

section

variable {reader : SettingsReader}

theorem load_eq_ok_iff {entry : String → Entry} {path : String} {options : Options} :
    Config.load reader entry path = .ok options ↔ ∃ content text, entry path = .file content ∧
      String.fromUTF8? content = some text ∧ reader text = .ok options := by
  unfold Config.load
  cases entry path with
  | missing => simp
  | directory => simp
  | file content =>
    cases htext : String.fromUTF8? content with
    | none => simp [htext]
    | some text => cases hparse : reader text <;> simp [htext, hparse]

theorem loadOptions_eq_ok_iff {w : World} {found : Option String} {options : Options} :
    loadOptions reader w found = .ok options ↔ w.Loads reader found options := by
  cases found with
  | none =>
    constructor
    · rintro ⟨⟩
      exact .default
    · rintro ⟨⟩
      rfl
  | some path =>
    have hload : loadOptions reader w (some path) = .ok options ↔
        Config.load reader w.entry path = .ok options := by
      simp only [loadOptions]
      cases Config.load reader w.entry path with
      | ok loaded => simp
      | error e => cases e <;> simp
    rw [hload, load_eq_ok_iff]
    constructor
    · rintro ⟨content, text, hcontent, htext, hparse⟩
      exact .file hcontent htext hparse
    · rintro ⟨⟩
      exact ⟨_, _, ‹_›, ‹_›, ‹_›⟩

/-- The job of an invocation, given the options in the settings file. -/
def Invocation.job (i : Invocation) (text : String) (options : Options) : Job :=
  ⟨⟨(i.options.filterMap dialect?).getLast?.getD options.dialect,
    i.options.any allows || options.allowUnterminated⟩, text⟩

theorem Invocation.readJob_words {w : World} (i : Invocation) {text : String}
    (h : w.StandsFor i.argument text) :
    readJob reader w i.words =
      (loadOptions reader w ((requestOf i.options (some text)).configPath w)).map
        (i.job text) := by
  rw [readJob, i.addArguments_words h]
  change (loadOptions reader w ((requestOf i.options (some text)).configPath w)).bind
    (fun options => .ok (i.job text options)) = _
  cases loadOptions reader w ((requestOf i.options (some text)).configPath w) <;> rfl

/-- What the arguments of an invocation mean, whichever way settings files are read. -/
structure Invocation.Meaning (reader : SettingsReader) (w : World) (i : Invocation)
    (text : String) : Prop where
  /-- One settings file is called for, and the job is there if it can be read. -/
  job : ∃ found, w.Uses i.options found ∧ (∀ other, w.Uses i.options other → other = found) ∧
    ∀ result, readJob reader w i.words = .ok result ↔
      ∃ options, w.Loads reader found options ∧ result = i.job text options
  /-- The place of the options among the arguments is free. -/
  reordered : ∀ j : Invocation, j.argument = i.argument → j.options.Perm i.options →
    ∃ r, Request.empty.addArguments w.stdinText j.words = .ok r ∧ r.text = some text ∧
      r.allowUnterminated = i.options.any allows
  /-- So is their order, but for which dialect and which settings file come last. -/
  unchanged : ∀ j : Invocation, j.argument = i.argument → j.options.Perm i.options →
    (j.options.filterMap dialect?).getLast? = (i.options.filterMap dialect?).getLast? →
    (j.options.filterMap config?).getLast? = (i.options.filterMap config?).getLast? →
    readJob reader w j.words = readJob reader w i.words

theorem Invocation.meaning {w : World} (i : Invocation) {text : String}
    (h : w.StandsFor i.argument text) : i.Meaning reader w text where
  job := by
    have huses := uses_configPath w i.options (some text)
    refine ⟨_, huses, fun other hother => (hother.configPath_eq (some text)).symm,
      fun result => ?_⟩
    rw [i.readJob_words h]
    constructor
    · intro hjob
      cases hload : loadOptions reader w ((requestOf i.options (some text)).configPath w) with
      | error e =>
        rw [hload] at hjob
        cases hjob
      | ok options =>
        rw [hload] at hjob
        cases hjob
        exact ⟨options, loadOptions_eq_ok_iff.mp hload, rfl⟩
    · rintro ⟨options, hloads, rfl⟩
      rw [loadOptions_eq_ok_iff.mpr hloads]
      rfl
  reordered j hargument hperm := by
    refine ⟨_, j.addArguments_words (hargument ▸ h), rfl, ?_⟩
    exact hperm.any_eq
  unchanged j hargument hperm hdialect hconfig := by
    have hallows : j.options.any allows = i.options.any allows := hperm.any_eq
    have hrequest : requestOf j.options (some text) = requestOf i.options (some text) := by
      simp [requestOf, hdialect, hconfig, hallows]
    have hjob : j.job text = i.job text := by
      funext options
      simp [Invocation.job, hdialect, hallows]
    rw [j.readJob_words (hargument ▸ h), i.readJob_words h, hrequest, hjob]

end

/-- Arguments get as far as the settings file if and only if they are an invocation, and it says
what the job is. Other arguments are refused whatever the files are. None of it depends on how a
settings file is read: the reader is arbitrary, and the program's is `Config.parse`. -/
theorem readJob_arguments (w : World) (arguments : List String) :
    ((∃ r text, Request.empty.addArguments w.stdinText arguments = .ok r ∧ r.text = some text) ↔
      ∃ (i : Invocation) (text : String), arguments = i.words ∧ w.StandsFor i.argument text) ∧
    (∀ (i : Invocation) (text : String), arguments = i.words → w.StandsFor i.argument text →
      ∀ reader, i.Meaning reader w text) ∧
    ((¬ ∃ (i : Invocation) (text : String), arguments = i.words ∧ w.StandsFor i.argument text) →
      ∃ f, ∀ reader directory entry,
        readJob reader ⟨w.stdin, directory, entry⟩ arguments = .error f) := by
  refine ⟨addArguments_text_iff, fun i text _ h _ => i.meaning h, fun hno => ?_⟩
  have hstdin : ∀ directory entry, (World.mk w.stdin directory entry).stdinText = w.stdinText :=
    fun _ _ => rfl
  cases hscan : Request.empty.addArguments w.stdinText arguments with
  | error f =>
    refine ⟨f, fun reader directory entry => ?_⟩
    rw [readJob, hstdin, hscan]
    rfl
  | ok r =>
    have hnone : r.text = none := by
      cases htext : r.text with
      | none => rfl
      | some text => exact absurd (addArguments_text_iff.mp ⟨r, text, hscan, htext⟩) hno
    refine ⟨.usage .missingText, fun reader directory entry => ?_⟩
    rw [readJob, hstdin, hscan]
    simp [bind, Except.bind, hnone, throw, throwThe, MonadExceptOf.throw]

/-- A path may look like an option. -/
example : (Invocation.mk [.config "--dialect"] "-" [.debugTrace]).words =
    ["--config", "--dialect", "-", "--debug-trace"] := rfl

end CommandTemplate
