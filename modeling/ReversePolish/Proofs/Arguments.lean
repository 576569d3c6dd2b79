import Mathlib
import ReversePolish.CommandLine.Reply

/-!
# What a command line says

The grammar of command lines, said apart from the order in which their arguments are read, and what
follows for the source of a run.

* `Mention`: one thing that a command line says. `Reads`: what the arguments of a line say, one
  after the other, in all their forms.
* `Settings.readAll_eq_ok_iff`: reading arguments is taking what they say in order, and arguments of
  any other form are not accepted.
* `Settings.Adds`: what settings hold after a list of mentions. Nothing is dropped and nothing is
  taken twice. `Settings.foldlM_take_eq_ok_iff`: mentions are accepted if and only if there are such
  settings.
* `Mention.Give`: the options that mentions amount to.
* `Options.ofArgs_names_one_source`: an accepted line names exactly one source, and the run reads
  it.
-/

namespace ReversePolish.CommandLine

/-! ## The grammar of command lines -/

/-- One thing that a command line says. -/
inductive Mention where
  | text (text : String)
  | value (option : ValueOption) (value : String)
  | strict
  | verbose
  deriving DecidableEq

namespace Mention

/-- The texts among the mentions. -/
def texts : List Mention → List String
  | [] => []
  | .text t :: ms => t :: texts ms
  | _ :: ms => texts ms

/-- The values that the mentions give to an option. -/
def values (option : ValueOption) : List Mention → List String
  | [] => []
  | .value other v :: ms => if other = option then v :: values option ms else values option ms
  | _ :: ms => values option ms

end Mention

/-- The long name of an option that takes a value. -/
def ValueOption.name : ValueOption → String
  | .file => "file"
  | .emit => "emit"

/-- An argument that is no option: one that does not start with a dash, or a dash alone. -/
def IsPlain (arg : String) : Prop := arg.toList.head? = some '-' → arg = "-"

/-- A cluster of short options, what it says, and the option whose value has to be the next argument
if there is one. -/
inductive ClusterText : List Char → List Mention → Option ValueOption → Prop where
  | nil : ClusterText [] [] none
  | verbose {cs : List Char} {ms : List Mention} {awaited : Option ValueOption} :
    ClusterText cs ms awaited → ClusterText ('v' :: cs) (.verbose :: ms) awaited
  | awaiting : ClusterText ['f'] [] (some .file)
  | equals (path : List Char) :
    ClusterText ('f' :: '=' :: path) [.value .file (String.ofList path)] none
  | attached {path : List Char} : path ≠ [] → path.head? ≠ some '=' →
    ClusterText ('f' :: path) [.value .file (String.ofList path)] none

/-- An argument that is made of options, what it says, and the option whose value has to be the next
argument if there is one. -/
inductive OptionText : String → List Mention → Option ValueOption → Prop where
  | strict : OptionText "--strict" [.strict] none
  | verbose : OptionText "--verbose" [.verbose] none
  | awaiting (option : ValueOption) : OptionText ("--" ++ option.name) [] (some option)
  | attached (option : ValueOption) (value : String) :
    OptionText ("--" ++ option.name ++ "=" ++ value) [.value option value] none
  | short {cs : List Char} {ms : List Mention} {awaited : Option ValueOption} : cs ≠ [] →
    ClusterText cs ms awaited → OptionText (String.ofList ('-' :: cs)) ms awaited

/-- Arguments and what they say, where the first of them has to be the value of the awaited option
if there is one. -/
inductive Reads : Option ValueOption → List String → List Mention → Prop where
  | nil : Reads none [] []
  | rest (args : List String) : Reads none ("--" :: args) (args.map .text)
  | text {arg : String} {args : List String} {ms : List Mention} :
    IsPlain arg → Reads none args ms → Reads none (arg :: args) (.text arg :: ms)
  | option {arg : String} {args : List String} {ms ms' : List Mention}
      {awaited : Option ValueOption} : OptionText arg ms awaited → Reads awaited args ms' →
    Reads none (arg :: args) (ms ++ ms')
  | value {arg : String} {args : List String} {ms : List Mention} {option : ValueOption} :
    IsPlain arg → Reads none args ms → Reads (some option) (arg :: args) (.value option arg :: ms)

/-! ## The forms of an argument -/

theorem ClusterText.head?_ne_dash {cs : List Char} {ms : List Mention}
    {awaited : Option ValueOption} (h : ClusterText cs ms awaited) : cs.head? ≠ some '-' := by
  cases h <;> simp

namespace Argument

theorem ofString_of_isPlain {arg : String} (h : IsPlain arg) : ofString arg = .plain arg := by
  by_cases hDash : arg.toList.head? = some '-'
  · rw [h hDash]
    decide
  · unfold ofString
    split <;> simp_all

theorem ofString_short {cs : List Char} (hNonempty : cs ≠ []) (hDash : cs.head? ≠ some '-') :
    ofString (String.ofList ('-' :: cs)) = .short cs := by
  obtain _ | ⟨c, cs⟩ := cs
  · exact absurd rfl hNonempty
  · have hChar : c ≠ '-' := fun h => hDash (by rw [h]; rfl)
    unfold ofString
    rw [String.toList_ofList]
    split <;> simp_all

theorem ofString_name (option : ValueOption) :
    ofString ("--" ++ option.name) = .long option.name none := by
  cases option <;> decide

theorem ofString_name_equals (option : ValueOption) (value : String) :
    ofString ("--" ++ option.name ++ "=" ++ value) = .long option.name (some value) := by
  cases option <;> simp [ofString, ValueOption.name]

/-- The argument that has a given form. -/
def text : Argument → String
  | .endOfOptions => "--"
  | .long name none => "--" ++ name
  | .long name (some value) => "--" ++ name ++ "=" ++ value
  | .short cs => String.ofList ('-' :: cs)
  | .plain text => text

theorem text_ofString (arg : String) : (ofString arg).text = arg := by
  unfold ofString
  split
  · rename_i hArg
    rw [← String.toList_inj, hArg]
    rfl
  · rename_i body hNot hArg
    have hBody := List.takeWhile_append_dropWhile (p := (· != '=')) (l := body)
    rw [← String.toList_inj, hArg]
    rcases hRest : body.dropWhile (· != '=') with _ | ⟨c, value⟩
    · rw [hRest, List.append_nil] at hBody
      simp [text, hBody]
    · have hHead := List.head?_dropWhile_not (· != '=') body
      have hEquals : c = '=' := by simpa [hRest] using hHead
      rw [hRest, hEquals] at hBody
      simp [text, hBody]
  · rename_i c cs hNot hNot' hArg
    rw [← String.toList_inj, hArg]
    simp [text]
  · rfl

theorem isPlain_of_ofString {arg text : String} (h : ofString arg = .plain text) : IsPlain arg := by
  intro hDash
  unfold ofString at h
  split at h
  · cases h
  · cases h
  · cases h
  · rename_i hNot hNot' hNot''
    rw [← String.toList_inj]
    rcases hChars : arg.toList with _ | ⟨c, _ | ⟨c', cs⟩⟩
    · simp [hChars] at hDash
    · simp_all
    · simp_all

theorem ne_nil_of_ofString {arg : String} {cs : List Char} (h : ofString arg = .short cs) :
    cs ≠ [] := by
  rintro rfl
  unfold ofString at h
  split at h <;> cases h

end Argument

namespace Settings

variable {s s' : Settings} {awaited : Option ValueOption} {ms : List Mention}

/-- Takes one thing that a command line says. -/
def take (s : Settings) : Mention → Except Stop Settings
  | .text text => s.addText text
  | .value option value => s.setValue option value
  | .strict => s.setStrict
  | .verbose => .ok s.moreVerbose

/-! ## Reading is taking what is said -/

theorem map_bind_readAll (x : Except Stop Settings) (awaited : Option ValueOption)
    (args : List String) :
    (x.map (·, awaited) >>= fun a => readAll a args) =
      x >>= fun s => readAll (s, awaited) args := by
  cases x <;> rfl

theorem readCluster_of_clusterText {cs : List Char} (h : ClusterText cs ms awaited) :
    s.readCluster cs = (ms.foldlM take s).map (·, awaited) := by
  induction h generalizing s with
  | nil => rfl
  | verbose _ ih => exact ih
  | awaiting => rfl
  | equals path =>
    rw [readCluster, List.foldlM_cons]
    simp only [take, List.foldlM_nil, bind_pure]
  | attached hNonempty hEquals =>
    rw [readCluster, List.foldlM_cons]
    · simp only [take, List.foldlM_nil, bind_pure]
    · simpa using hNonempty
    · rintro cs rfl
      exact hEquals rfl

theorem readLong_of_take {name : String} {value : Option String} {m : Mention}
    (h : s.readLong name value = (s.take m).map (·, none)) :
    s.readLong name value = ([m].foldlM take s).map (·, none) := by
  rw [h, List.foldlM_cons]
  simp only [List.foldlM_nil, bind_pure]

theorem readAll_cons_long {arg name : String} {value : Option String} {args : List String}
    (hForm : Argument.ofString arg = .long name value)
    (hLong : s.readLong name value = (ms.foldlM take s).map (·, awaited)) :
    readAll (s, none) (arg :: args) =
      ms.foldlM take s >>= fun s' => readAll (s', awaited) args := by
  rw [readAll, hForm]
  simp only [hLong, map_bind_readAll]

theorem readAll_of_optionText {arg : String} (h : OptionText arg ms awaited) (args : List String) :
    readAll (s, none) (arg :: args) =
      ms.foldlM take s >>= fun s' => readAll (s', awaited) args := by
  cases h with
  | strict =>
    have hForm : Argument.ofString "--strict" = .long "strict" none := by decide
    exact readAll_cons_long hForm (readLong_of_take rfl)
  | verbose =>
    have hForm : Argument.ofString "--verbose" = .long "verbose" none := by decide
    exact readAll_cons_long hForm (readLong_of_take rfl)
  | awaiting option =>
    exact readAll_cons_long (Argument.ofString_name option) (by cases option <;> rfl)
  | attached option value =>
    refine readAll_cons_long (Argument.ofString_name_equals option value) (readLong_of_take ?_)
    cases option <;> rfl
  | short hNonempty hCluster =>
    rw [readAll, Argument.ofString_short hNonempty hCluster.head?_ne_dash]
    simp only [readCluster_of_clusterText hCluster, map_bind_readAll]

theorem readAll_of_reads {args : List String} (h : Reads awaited args ms) :
    readAll (s, awaited) args = ms.foldlM take s := by
  induction h generalizing s with
  | nil => rfl
  | rest args =>
    rw [readAll, show Argument.ofString "--" = .endOfOptions by decide, List.foldlM_map]
    rfl
  | text hPlain _ ih =>
    rw [readAll, Argument.ofString_of_isPlain hPlain, List.foldlM_cons]
    simp only [ih, take]
  | option hOption _ ih =>
    rw [readAll_of_optionText hOption, List.foldlM_append]
    simp only [ih]
  | value hPlain _ ih =>
    rw [readAll, Argument.ofString_of_isPlain hPlain, List.foldlM_cons]
    simp only [ih, take]

theorem exists_clusterText {cs : List Char} {a : Awaiting} (h : s.readCluster cs = .ok a) :
    ∃ ms, ClusterText cs ms a.2 := by
  fun_induction readCluster s cs with
  | case1 s =>
    cases h
    exact ⟨[], .nil⟩
  | case2 s cs ih =>
    obtain ⟨ms, hCluster⟩ := ih h
    exact ⟨.verbose :: ms, .verbose hCluster⟩
  | case3 => cases h
  | case4 => cases h
  | case5 s =>
    cases h
    exact ⟨[], .awaiting⟩
  | case6 s path =>
    obtain ⟨s', -, rfl⟩ := map_eq_ok.1 h
    exact ⟨_, .equals path⟩
  | case7 s path hNonempty hEquals =>
    obtain ⟨s', -, rfl⟩ := map_eq_ok.1 h
    refine ⟨_, .attached hNonempty fun hHead => ?_⟩
    obtain ⟨path, rfl⟩ := List.head?_eq_some_iff.1 hHead
    exact hEquals path rfl
  | case8 => cases h

theorem exists_optionText_of_long {name : String} {value : Option String} {a : Awaiting}
    (h : s.readLong name value = .ok a) :
    ∃ ms, OptionText (Argument.text (.long name value)) ms a.2 := by
  unfold readLong at h
  split at h
  · obtain ⟨s', -, rfl⟩ := map_eq_ok.1 h
    exact ⟨_, .attached .file _⟩
  · cases h
    exact ⟨_, .awaiting .file⟩
  · obtain ⟨s', -, rfl⟩ := map_eq_ok.1 h
    exact ⟨_, .attached .emit _⟩
  · cases h
    exact ⟨_, .awaiting .emit⟩
  · obtain ⟨s', -, rfl⟩ := map_eq_ok.1 h
    exact ⟨_, .strict⟩
  · cases h
    exact ⟨_, .verbose⟩
  · cases h
  · cases h
  · cases h

theorem exists_reads {a : Awaiting} {args : List String} (h : readAll a args = .ok s') :
    ∃ ms, Reads a.2 args ms := by
  fun_induction readAll a args with
  | case1 s => exact ⟨_, .nil⟩
  | case2 => cases h
  -- an awaited value comes first
  | case3 s option arg args value hForm ih =>
    obtain ⟨s₁, -, h⟩ := bind_eq_ok.1 h
    obtain ⟨ms, hReads⟩ := ih s₁ h
    exact ⟨_, .value (Argument.isPlain_of_ofString hForm) hReads⟩
  | case4 => cases h
  -- none is awaited: a case for each form of the first argument
  | case5 s arg args hForm =>
    rw [← Argument.text_ofString arg, hForm]
    exact ⟨_, .rest args⟩
  | case6 s arg args name value hForm ih =>
    obtain ⟨a, hLong, h⟩ := bind_eq_ok.1 h
    obtain ⟨ms, hOption⟩ := exists_optionText_of_long hLong
    obtain ⟨ms', hReads⟩ := ih a h
    rw [← Argument.text_ofString arg, hForm]
    exact ⟨_, .option hOption hReads⟩
  | case7 s arg args cs hForm ih =>
    obtain ⟨a, hCluster, h⟩ := bind_eq_ok.1 h
    obtain ⟨ms, hCluster⟩ := exists_clusterText hCluster
    obtain ⟨ms', hReads⟩ := ih a h
    rw [← Argument.text_ofString arg, hForm]
    exact ⟨_, .option (.short (Argument.ne_nil_of_ofString hForm) hCluster) hReads⟩
  | case8 s arg args text hForm ih =>
    obtain ⟨s₁, -, h⟩ := bind_eq_ok.1 h
    obtain ⟨ms, hReads⟩ := ih s₁ h
    exact ⟨_, .text (Argument.isPlain_of_ofString hForm) hReads⟩

theorem readAll_eq_ok_iff {args : List String} :
    readAll (s, awaited) args = .ok s' ↔
      ∃ ms, Reads awaited args ms ∧ ms.foldlM take s = .ok s' := by
  constructor
  · intro h
    obtain ⟨ms, hReads⟩ := exists_reads h
    exact ⟨ms, hReads, by rw [← readAll_of_reads hReads, h]⟩
  · rintro ⟨ms, hReads, hTake⟩
    rw [readAll_of_reads hReads, hTake]

/-! ## What is taken adds up -/

/-- The verbosity after so many requests for more, which have no effect at the limit. -/
def raised (verbosity requests : Nat) : Nat :=
  max verbosity (min (verbosity + requests) verbosityLimit)

theorem raised_moreVerbose (s : Settings) (requests : Nat) :
    raised s.moreVerbose.verbosity requests = raised s.verbosity (requests + 1) := by
  unfold raised moreVerbose
  dsimp only
  split <;> omega

/-- After the mentions the settings `s` have become `s'`: each of them holds what it held before,
followed by what the mentions say. -/
structure Adds (s : Settings) (ms : List Mention) (s' : Settings) : Prop where
  text : s'.text.toList = s.text.toList ++ Mention.texts ms
  path : s'.path.toList = s.path.toList ++ Mention.values .file ms
  path_ne : "" ∉ Mention.values .file ms
  view : (s'.view.map some).toList =
    (s.view.map some).toList ++ (Mention.values .emit ms).map View.ofName?
  strict : s'.strict.toNat = s.strict.toNat + ms.count .strict
  verbosity : s'.verbosity = raised s.verbosity (ms.count .verbose)

theorem Adds.refl (s : Settings) : Adds s [] s :=
  ⟨by simp [Mention.texts], by simp [Mention.values], by simp [Mention.values],
    by simp [Mention.values], by simp, by simp [raised]⟩

theorem toList_injective {α : Type} : (Option.toList : Option α → List α).Injective := by
  intro o o' h
  cases o <;> cases o' <;> simp_all

theorem toNat_injective : Bool.toNat.Injective := by decide

theorem Adds.eq_of_nil (h : Adds s [] s') : s' = s := by
  obtain ⟨text, path, view, strict, verbosity⟩ := s
  obtain ⟨text', path', view', strict', verbosity'⟩ := s'
  have hText : text' = text := toList_injective (by simpa [Mention.texts] using h.text)
  have hPath : path' = path := toList_injective (by simpa [Mention.values] using h.path)
  have hView : view' = view := by
    have hMap : view'.map some = view.map some :=
      toList_injective (by simpa only [Mention.values, List.map_nil, List.append_nil] using h.view)
    exact Option.map_injective (Option.some_injective View) hMap
  have hStrict : strict' = strict := toNat_injective (by simpa using h.strict)
  have hVerbosity : verbosity' = verbosity := by simpa [raised] using h.verbosity
  rw [hText, hPath, hView, hStrict, hVerbosity]

theorem eq_none_of_toList_append {α : Type} {o o' : Option α} {a : α} {l : List α}
    (h : o'.toList = o.toList ++ a :: l) : o = none := by
  cases o <;> cases o' <;> simp_all

theorem addText_eq_ok {text : String} :
    s.addText text = .ok s' ↔ s.text = none ∧ s' = { s with text := some text } := by
  cases hText : s.text <;> simp [addText, hText, eq_comm]

theorem setValue_file_eq_ok {path : String} :
    s.setValue .file path = .ok s' ↔
      s.path = none ∧ path ≠ "" ∧ s' = { s with path := some path } := by
  cases hPath : s.path with
  | some other => simp [setValue, hPath]
  | none => by_cases hEmpty : path = "" <;> simp [setValue, hPath, hEmpty, @eq_comm _ s']

theorem setValue_emit_eq_ok {name : String} :
    s.setValue .emit name = .ok s' ↔ s.view = none ∧
      ∃ view, View.ofName? name = some view ∧ s' = { s with view := some view } := by
  cases hView : s.view <;> cases hName : View.ofName? name <;>
    simp [setValue, hView, hName, eq_comm]

theorem setStrict_eq_ok :
    s.setStrict = .ok s' ↔ s.strict = false ∧ s' = { s with strict := true } := by
  cases hStrict : s.strict <;> simp [setStrict, hStrict, eq_comm]

theorem Adds.of_take {s₁ : Settings} {m : Mention} (h : s.take m = .ok s₁) (hAdds : Adds s₁ ms s') :
    Adds s (m :: ms) s' := by
  cases m with
  | text text =>
    obtain ⟨hText, rfl⟩ := addText_eq_ok.1 h
    exact { hAdds with text := by simpa [Mention.texts, hText] using hAdds.text }
  | value option value =>
    cases option with
    | file =>
      obtain ⟨hPath, hNonempty, rfl⟩ := setValue_file_eq_ok.1 h
      exact { hAdds with
        path := by simpa [Mention.values, hPath] using hAdds.path
        path_ne := by simpa [Mention.values] using ⟨hNonempty, hAdds.path_ne⟩ }
    | emit =>
      obtain ⟨hView, view, hName, rfl⟩ := setValue_emit_eq_ok.1 h
      exact { hAdds with view := by simpa [Mention.values, hView, hName] using hAdds.view }
  | strict =>
    obtain ⟨hStrict, rfl⟩ := setStrict_eq_ok.1 h
    exact { hAdds with strict := by simpa [hStrict, add_comm] using hAdds.strict }
  | verbose =>
    cases h
    refine { hAdds with verbosity := ?_ }
    rw [hAdds.verbosity, raised_moreVerbose, List.count_cons_self]

theorem Adds.exists_take {m : Mention} (h : Adds s (m :: ms) s') :
    ∃ s₁, s.take m = .ok s₁ ∧ Adds s₁ ms s' := by
  cases m with
  | text text =>
    have hText : s.text = none := eq_none_of_toList_append h.text
    exact ⟨_, addText_eq_ok.2 ⟨hText, rfl⟩,
      { h with text := by simpa [Mention.texts, hText] using h.text }⟩
  | value option value =>
    cases option with
    | file =>
      have hPath : s.path = none := eq_none_of_toList_append h.path
      have hNonempty : value ≠ "" ∧ "" ∉ Mention.values .file ms := by
        simpa [Mention.values, eq_comm] using h.path_ne
      exact ⟨_, setValue_file_eq_ok.2 ⟨hPath, hNonempty.1, rfl⟩,
        { h with
          path := by simpa [Mention.values, hPath] using h.path
          path_ne := hNonempty.2 }⟩
    | emit =>
      have hView : s.view = none := by simpa using eq_none_of_toList_append h.view
      have hViews : (s'.view.map some).toList =
          View.ofName? value :: (Mention.values .emit ms).map View.ofName? := by
        simpa [Mention.values, hView] using h.view
      have hMem : View.ofName? value ∈ (s'.view.map some).toList := by
        rw [hViews]
        exact List.mem_cons_self
      obtain ⟨view, -, hName⟩ := Option.mem_map.1 (Option.mem_toList.1 hMem)
      exact ⟨_, setValue_emit_eq_ok.2 ⟨hView, view, hName.symm, rfl⟩,
        { h with view := by rw [hViews, ← hName]; rfl }⟩
  | strict =>
    have hStrict : s.strict = false := by
      have hLe := s'.strict.toNat_le
      rw [h.strict, List.count_cons_self] at hLe
      exact Bool.toNat_eq_zero.1 (by omega)
    exact ⟨_, setStrict_eq_ok.2 ⟨hStrict, rfl⟩,
      { h with strict := by simpa [hStrict, add_comm] using h.strict }⟩
  | verbose =>
    refine ⟨_, rfl, { h with verbosity := ?_ }⟩
    rw [h.verbosity, raised_moreVerbose, List.count_cons_self]

theorem foldlM_take_eq_ok_iff : ms.foldlM take s = .ok s' ↔ Adds s ms s' := by
  induction ms generalizing s with
  | nil =>
    refine ⟨fun h => ?_, fun h => by rw [h.eq_of_nil]; rfl⟩
    cases h
    exact .refl _
  | cons m ms ih =>
    rw [List.foldlM_cons, bind_eq_ok]
    refine ⟨?_, fun h => ?_⟩
    · rintro ⟨s₁, hTake, hRest⟩
      exact .of_take hTake (ih.1 hRest)
    · obtain ⟨s₁, hTake, hRest⟩ := h.exists_take
      exact ⟨s₁, hTake, ih.2 hRest⟩

end Settings

/-! ## The options that are given -/

/-- Texts and paths of which there is exactly one, and the source that it is. -/
inductive OneSource : List String → List String → Source → Prop where
  | text (text : String) : OneSource [text] [] (.text text)
  | path {path : String} : path ≠ "" → OneSource [] [path] (.ofPath path)

/-- Names of views of which there is at most one, and the view that is shown. -/
inductive OneView : List String → View → Prop where
  | all : OneView [] .all
  | named {name : String} {view : View} : View.ofName? name = some view → OneView [name] view

/-- The mentions give the options: one source, at most one view, strictness at most once, and a
level of logging for each time that one more is asked for, up to the greatest one. -/
structure Mention.Give (ms : List Mention) (o : Options) : Prop where
  source : OneSource (texts ms) (values .file ms) o.source
  view : OneView (values .emit ms) o.view
  strict : ms.count .strict = o.strict.toNat
  verbosity : o.verbosity = min (ms.count .verbose) verbosityLimit

namespace Settings

variable {s : Settings} {ms : List Mention} {o : Options}

theorem raised_initial (requests : Nat) :
    raised initial.verbosity requests = min requests verbosityLimit := by
  unfold raised initial
  dsimp only
  omega

theorem Adds.oneView (h : Adds .initial ms s) :
    OneView (Mention.values .emit ms) (s.view.getD .all) := by
  have hViews : (s.view.map some).toList = (Mention.values .emit ms).map View.ofName? := h.view
  cases hView : s.view with
  | none =>
    rw [hView] at hViews
    rw [List.map_eq_nil_iff.1 hViews.symm]
    exact .all
  | some view =>
    rw [hView] at hViews
    obtain ⟨name, hNames, hName⟩ := List.map_eq_singleton_iff.1 hViews.symm
    rw [hNames]
    exact .named hName

theorem Adds.ne_empty (h : Adds .initial ms s) {path : String} (hPath : s.path = some path) :
    path ≠ "" := by
  have hPaths : s.path.toList = Mention.values .file ms := h.path
  rintro rfl
  apply h.path_ne
  rw [← hPaths, hPath]
  exact List.mem_singleton_self _

theorem toOptions_cases (h : s.toOptions = .ok o) :
    (o.view = s.view.getD .all ∧ o.strict = s.strict ∧ o.verbosity = s.verbosity) ∧
      ((∃ text, s.text = some text ∧ s.path = none ∧ o.source = .text text) ∨
        ∃ path, s.text = none ∧ s.path = some path ∧ o.source = .ofPath path) := by
  unfold toOptions at h
  split at h
  · rename_i text hText hPath
    cases h
    exact ⟨⟨rfl, rfl, rfl⟩, .inl ⟨text, hText, hPath, rfl⟩⟩
  · rename_i path hText hPath
    cases h
    exact ⟨⟨rfl, rfl, rfl⟩, .inr ⟨path, hText, hPath, rfl⟩⟩
  · cases h

theorem Adds.give (h : Adds .initial ms s) (hOptions : s.toOptions = .ok o) :
    Mention.Give ms o := by
  have hTexts : s.text.toList = Mention.texts ms := h.text
  have hPaths : s.path.toList = Mention.values .file ms := h.path
  obtain ⟨⟨hView, hStrict, hVerbosity⟩, hSource⟩ := toOptions_cases hOptions
  refine ⟨?_, hView ▸ h.oneView, ?_, ?_⟩
  · rw [← hTexts, ← hPaths]
    obtain ⟨text, hText, hPath, hSource⟩ | ⟨path, hText, hPath, hSource⟩ := hSource
    · rw [hText, hPath, hSource]
      exact .text text
    · rw [hText, hPath, hSource]
      exact .path (h.ne_empty hPath)
  · rw [hStrict, h.strict]
    exact (Nat.zero_add _).symm
  · rw [hVerbosity, h.verbosity, raised_initial]

theorem exists_toOptions {texts paths : List String} {source : Source}
    (h : OneSource texts paths source) :
    ∃ text path : Option String, text.toList = texts ∧ path.toList = paths ∧ "" ∉ paths ∧
      ∀ view strict verbosity, toOptions ⟨text, path, view, strict, verbosity⟩ =
        .ok ⟨source, view.getD .all, strict, verbosity⟩ := by
  cases h with
  | text text => exact ⟨some text, none, rfl, rfl, List.not_mem_nil, fun _ _ _ => rfl⟩
  | @path path hNonempty =>
    refine ⟨none, some path, rfl, rfl, ?_, fun _ _ _ => rfl⟩
    simpa [eq_comm] using hNonempty

theorem exists_view {names : List String} {shown : View} (h : OneView names shown) :
    ∃ view : Option View, (view.map some).toList = names.map View.ofName? ∧
      view.getD .all = shown := by
  cases h with
  | all => exact ⟨none, rfl, rfl⟩
  | named hName => exact ⟨some shown, by rw [List.map_singleton, hName]; rfl, rfl⟩

theorem exists_adds (h : Mention.Give ms o) : ∃ s, Adds .initial ms s ∧ s.toOptions = .ok o := by
  obtain ⟨text, path, hText, hPath, hNonempty, hOptions⟩ := exists_toOptions h.source
  obtain ⟨view, hViews, hView⟩ := exists_view h.view
  refine ⟨⟨text, path, view, o.strict, o.verbosity⟩,
    ⟨hText, hPath, hNonempty, hViews, ?_, ?_⟩, by rw [hOptions, hView]⟩
  · rw [h.strict]
    exact (Nat.zero_add _).symm
  · rw [h.verbosity, raised_initial]

/-- The source that settings name. A text is looked for first, and a path only without one. -/
def source? (s : Settings) : Option Source :=
  match s.text, s.path with
  | some text, _ => some (.text text)
  | none, some path => some (.ofPath path)
  | none, none => none

end Settings

section Reply

variable {m : Type → Type} [Monad m] (manual : Manual)
  (fetch : Source → m (Except ReadFailure ByteArray)) {args : List String} {o : Options}

theorem reply_of_error {stop : Stop} (h : Options.ofArgs args = .error stop) :
    reply manual fetch args = pure (.ofStop manual args stop) := by
  rw [reply, h]

theorem reply_of_text (h : Options.ofArgs args = .ok o) {text : String}
    (hSource : o.source = .text text) : reply manual fetch args = pure (.ofSource o text) := by
  simp only [reply, h, hSource]

theorem reply_of_path (h : Options.ofArgs args = .ok o) {path : String}
    (hSource : o.source = .ofPath path) :
    reply manual fetch args = do return .ofContents o (← fetch (.ofPath path)) := by
  have hReply : reply manual fetch args = do return .ofContents o (← fetch o.source) := by
    unfold Source.ofPath at hSource
    split at hSource
    · simp only [reply, h, hSource]
    · simp only [reply, h, hSource]
  rw [hReply, hSource]

end Reply

namespace Options

variable {args : List String} {o : Options}

theorem ofArgs_eq_ok_iff :
    ofArgs args = .ok o ↔
      ∃ s, Settings.readAll (.initial, none) args = .ok s ∧ s.toOptions = .ok o :=
  bind_eq_ok

theorem ofArgs_of_reads {ms : List Mention} (hReads : Reads none args ms)
    (hGive : Mention.Give ms o) : ofArgs args = .ok o := by
  obtain ⟨s, hAdds, hOptions⟩ := Settings.exists_adds hGive
  have hTake := Settings.foldlM_take_eq_ok_iff.2 hAdds
  exact ofArgs_eq_ok_iff.2 ⟨s, Settings.readAll_eq_ok_iff.2 ⟨ms, hReads, hTake⟩, hOptions⟩

/-- **One source.** A list of arguments either asks for no run or names exactly one source. It asks
for no run only if it is not of the grammar or what it says does not give options, and the answer is
then a usage error, the version or the help. Else exactly one of text and path is set, the path not
to nothing, no text and no path of the line is left out, and the run is about the one that is set,
however sources are fetched. -/
theorem ofArgs_names_one_source (args : List String) :
    (∃ stop, ofArgs args = .error stop ∧
      (¬∃ ms o, Reads none args ms ∧ Mention.Give ms o) ∧
      ∀ manual : Manual,
        (∀ (m : Type → Type) [Monad m] (fetch : Source → m (Except ReadFailure ByteArray)),
          reply manual fetch args = pure (.ofStop manual args stop)) ∧
        (Reply.ofStop manual args stop = ⟨2, "", manual.complaint args, []⟩ ∨
          Reply.ofStop manual args stop = ⟨0, "rpnc 0.1.0\n", "", []⟩ ∨
          Reply.ofStop manual args stop = ⟨0, manual.help, "", []⟩)) ∨
    ∃ s o ms, Settings.readAll (.initial, none) args = .ok s ∧ ofArgs args = .ok o ∧
      Reads none args ms ∧ s.text.toList = Mention.texts ms ∧
      s.path.toList = Mention.values .file ms ∧ Mention.Give ms o ∧
      s.source? = some o.source ∧
      ((∃ text, s.text = some text ∧ s.path = none ∧ o.source = .text text ∧
          ∀ (manual : Manual) (m : Type → Type) [Monad m]
            (fetch : Source → m (Except ReadFailure ByteArray)),
            reply manual fetch args = pure (.ofSource o text)) ∨
        ∃ path, s.text = none ∧ s.path = some path ∧ path ≠ "" ∧ o.source = .ofPath path ∧
          ∀ (manual : Manual) (m : Type → Type) [Monad m]
            (fetch : Source → m (Except ReadFailure ByteArray)),
            reply manual fetch args = do return .ofContents o (← fetch (.ofPath path))) := by
  cases hArgs : ofArgs args with
  | error stop =>
    refine .inl ⟨stop, rfl, ?_, fun manual => ⟨fun m _ fetch => ?_, ?_⟩⟩
    · rintro ⟨ms, o, hReads, hGive⟩
      rw [ofArgs_of_reads hReads hGive] at hArgs
      cases hArgs
    · exact reply_of_error manual fetch hArgs
    · cases stop with
      | usage => exact .inl rfl
      | version => exact .inr (.inl rfl)
      | help => exact .inr (.inr rfl)
  | ok o =>
    obtain ⟨s, hRead, hOptions⟩ := ofArgs_eq_ok_iff.1 hArgs
    obtain ⟨ms, hReads, hTake⟩ := Settings.readAll_eq_ok_iff.1 hRead
    have hAdds := Settings.foldlM_take_eq_ok_iff.1 hTake
    refine .inr ⟨s, o, ms, hRead, rfl, hReads, hAdds.text, hAdds.path, hAdds.give hOptions, ?_⟩
    obtain ⟨text, hText, hPath, hSource⟩ | ⟨path, hText, hPath, hSource⟩ :=
      (Settings.toOptions_cases hOptions).2
    · refine ⟨by rw [Settings.source?, hText, hSource], .inl ⟨text, hText, hPath, hSource, ?_⟩⟩
      exact fun manual m _ fetch => reply_of_text manual fetch hArgs hSource
    · refine ⟨by rw [Settings.source?, hText, hPath, hSource], .inr ⟨path, hText, hPath, ?_⟩⟩
      refine ⟨hAdds.ne_empty hPath, hSource, fun manual m _ fetch => ?_⟩
      exact reply_of_path manual fetch hArgs hSource

-- a short cluster whose last option takes a value, and an expression that looks like an option
example : ofArgs ["-vvf=a.txt", "--emit", "tree"] = .ok ⟨.file "a.txt", .tree, false, 2⟩ := by cbv

example : ofArgs ["--strict", "--", "-1"] = .ok ⟨.text "-1", .all, true, 0⟩ := by cbv

end Options

end ReversePolish.CommandLine
