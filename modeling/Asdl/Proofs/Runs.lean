/-
What a run of the command line leaves behind.

A run reads its two files, and either fails or goes on to print and to write:

* `OptionsLoaded`, `Loaded`, `LoadFails` — what the files of a run give, or which of them
  fails it first;
* `Merged` — how the arguments change the options of a file;
* `Artifact`, `Artifact.Text`, `Asked` — what can be asked for, what the library makes of
  it for a model, and the files that are to hold it;
* `result_plan_eq_error`, `exists_plan` — the plan of a run in these terms;
* `exists_writeFiles`, `placed_of_writeFiles` — the files of a plan are written exactly if
  all of them have a place in the tree that the run starts in;
* `Performed`, `perform_follows_arguments` — all of it for every list of arguments that
  is read, and every tree.

Design notes: nothing here looks at a tree in the middle of a run.  What is loaded, the
places of files and what stands at them afterwards are said in terms of the tree at the
start, so it does not matter which paths lead to the same place.
-/
import Asdl.CommandLine.Plan
import Asdl.Proofs.ArgumentLists
import Asdl.Proofs.FileTrees
import Asdl.Proofs.SortedMaps
import Asdl.Proofs.Totality
import Asdl.Proofs.Writing

namespace Asdl

/-! ### Reports -/

/-- The file that an event reports as written. -/
def Event.wrote? : Event → Option String
  | wrote path => some path
  | _ => none

namespace Run

variable {ε δ α β : Type}

/-- No file is reported as written. -/
def Silent (r : Run ε α) : Prop := r.events.filterMap Event.wrote? = []

theorem silent_ofExcept (x : Except ε α) : (ofExcept x).Silent := rfl

theorem Silent.mapError {r : Run ε α} (h : r.Silent) (f : ε → δ) : (r.mapError f).Silent := h

theorem Silent.bind {r : Run ε α} {next : α → Run ε β} (h : r.Silent)
    (hnext : ∀ a, r.result = .ok a → (next a).Silent) : (r >>= next).Silent := by
  show (r.andThen next).Silent
  cases hr : r.result with
  | error e =>
    rw [andThen, hr]
    exact h
  | ok a =>
    rw [andThen, hr, Silent, List.filterMap_append, h]
    exact hnext a hr

end Run

theorem silent_parseText (source : String) : (parseText source).Silent := by
  rw [parseText]
  cases Schema.parse source with
  | error e => rfl
  | ok s => rfl

theorem silent_resolveSchema (s : Schema) : (resolveSchema s).Silent := by
  rw [Run.Silent, resolveSchema, List.filterMap_map]
  exact List.filterMap_eq_nil_iff.mpr fun _ _ => rfl

theorem Header.silent_flatWarnings (m : Model) (o : Options) :
    (Run.report (flatWarnings m o) : Run Violation Unit).Silent := by
  refine List.filterMap_eq_nil_iff.mpr fun e he => ?_
  obtain ⟨name, -, hname⟩ := List.mem_filterMap.mp he
  split at hname <;> cases hname <;> rfl

namespace Header

theorem Section.silent_run {σ : Type} (s : Section σ) (state : σ) (m : Model)
    (h : (s.walk state m).emission.events = []) : (s.run state m).Silent := by
  rw [Run.Silent, Section.run, h]
  rfl

/-- The only section that reports anything reports classes. -/
theorem silent_declarations {s : Schema} {m : Model} (h : Model.Resolves s m) (o : Options) :
    ((Context.declarations ⟨m, o⟩).run {} m).Silent := by
  rw [Run.Silent, Section.run, Context.walk_declarations (c := ⟨m, o⟩) h]
  refine List.filterMap_eq_nil_iff.mpr fun e he => ?_
  rcases List.mem_append.mp he with he | he
  · obtain ⟨c, -, hc⟩ := List.mem_flatMap.mp he
    rw [List.mem_singleton.mp hc]
    rfl
  · obtain ⟨p, -, hp⟩ := List.mem_flatMap.mp he
    rw [List.mem_singleton.mp hp]
    rfl

theorem silent_generate {s : Schema} {m : Model} (h : Model.Resolves s m) (o : Options) :
    (generate m o).Silent := by
  have hforward : (forwardSection.run () m).Silent :=
    Section.silent_run _ _ _ (by rw [walk_forwardSection]; rfl)
  have hwalk := Context.walk_bodies ⟨m, o⟩
  have hbodies : ((Context.bodies ⟨m, o⟩).run () m).Silent :=
    Section.silent_run _ _ _ (by rw [hwalk]; rfl)
  -- the sections one after another, and a report after each
  refine (silent_flatWarnings m o).bind fun _ _ => hforward.bind fun _ _ => ?_
  refine Run.Silent.bind rfl fun _ _ => (silent_declarations h o).bind fun _ _ => ?_
  exact Run.Silent.bind rfl fun _ _ => hbodies.bind fun _ _ => Run.Silent.bind rfl fun _ _ => rfl

theorem silent_macros (m : Model) : (macros m).Silent := by
  have htable : (macroTable.run () m).Silent :=
    Section.silent_run _ _ _ (by rw [walk_macroTable]; rfl)
  exact htable.bind fun _ _ => rfl

end Header

namespace CommandLine

/-! ### What is loaded -/

/-- The text of the file at a path. -/
def FileTree.text (t : FileTree) (path : String) : Except FileFault String :=
  decodeFile (t.read path)

/-- The options that a run starts from: those of its options file, or the usual ones. -/
inductive OptionsLoaded (a : Arguments) (t : FileTree) : Options → Prop where
  | usual : a.config = none → OptionsLoaded a t {}
  | file {path text : String} {o : Options} : a.config = some path → t.text path = .ok text →
      Options.ofJson text = .ok o → OptionsLoaded a t o

/-- The options and the model that the files of a run give. -/
structure Loaded (a : Arguments) (t : FileTree) (o : Options) (m : Model) : Prop where
  options : OptionsLoaded a t o
  model : ∃ source s, t.text a.schema = .ok source ∧ Schema.parse source = .ok s ∧
    Model.ofSchema s = .ok m

/-- Why the files of a run give nothing: the first thing that goes wrong. -/
inductive LoadFails (a : Arguments) (t : FileTree) : Failure → Prop where
  | readingConfig {path : String} {fault : FileFault} :
      a.config = some path → t.text path = .error fault →
      LoadFails a t (.readingConfig path fault)
  | parsingConfig {path text : String} {fault : JsonFault} :
      a.config = some path → t.text path = .ok text → Options.ofJson text = .error fault →
      LoadFails a t (.parsingConfig path fault)
  | readingSchema {o : Options} {fault : FileFault} :
      OptionsLoaded a t o → t.text a.schema = .error fault →
      LoadFails a t (.readingSchema a.schema fault)
  | parsing {o : Options} {source : String} {error : ParseError} :
      OptionsLoaded a t o → t.text a.schema = .ok source → Schema.parse source = .error error →
      LoadFails a t (.parsing a.schema error)
  | resolving {o : Options} {source : String} {s : Schema} {error : SchemaError} :
      OptionsLoaded a t o → t.text a.schema = .ok source → Schema.parse source = .ok s →
      Model.ofSchema s = .error error → LoadFails a t (.resolving a.schema error)

/-- A tree in which the files that a run reads are the same. -/
structure SameInputs (a : Arguments) (t u : FileTree) : Prop where
  schema : u.read a.schema = t.read a.schema
  config : ∀ path, a.config = some path → u.read path = t.read path

section Loading

variable {a : Arguments} {t u : FileTree} {o : Options} {m : Model} {f : Failure}

/-- Bytes of a text are read as that text. -/
theorem text_of_read {path text : String} (h : t.read path = .ok text.toUTF8) :
    t.text path = .ok text := by
  have hdecoded : String.fromUTF8? text.toUTF8 = some text := by
    simp only [String.fromUTF8?, String.toUTF8_eq_toByteArray, dif_pos text.isValidUTF8]
    rfl
  rw [FileTree.text, h, decodeFile]
  refine bind_eq_ok.mpr ⟨_, rfl, ?_⟩
  rw [hdecoded]
  rfl

theorem readOptions_eq_ok :
    readOptions a (inputsOf a t).config = .ok o ↔ OptionsLoaded a t o := by
  unfold readOptions inputsOf
  cases hconfig : a.config with
  | none =>
    constructor
    · rintro ⟨⟩
      exact .usual hconfig
    · intro h
      cases h with
      | usual _ => rfl
      | file hpath _ _ => cases hconfig.symm.trans hpath
  | some path =>
    simp only [bind_eq_ok, mapError_eq_ok]
    constructor
    · rintro ⟨text, htext, ho⟩
      exact .file hconfig htext ho
    · intro h
      cases h with
      | usual hnone => cases hconfig.symm.trans hnone
      | file hpath htext ho =>
        obtain rfl := Option.some.inj (hconfig.symm.trans hpath)
        exact ⟨_, htext, ho⟩

theorem loadFails_of_readOptions (h : readOptions a (inputsOf a t).config = .error f) :
    LoadFails a t f := by
  unfold readOptions inputsOf at h
  cases hconfig : a.config with
  | none =>
    rw [hconfig] at h
    cases h
  | some path =>
    simp only [hconfig, bind_eq_error, mapError_eq_ok, mapError_eq_error] at h
    rcases h with ⟨fault, hfault, rfl⟩ | ⟨text, htext, fault, hfault, rfl⟩
    · exact .readingConfig hconfig hfault
    · exact .parsingConfig hconfig htext hfault

theorem result_readModel :
    (readModel a (inputsOf a t).schema).result =
      ((t.text a.schema).mapError (.readingSchema a.schema) >>= fun source =>
        (Schema.parse source).mapError (.parsing a.schema) >>= fun s =>
          (Model.ofSchema s).mapError (.resolving a.schema)) := by
  simp only [readModel, Header.result_bind, Run.mapError, result_parseText]
  rfl

theorem readModel_eq_ok :
    (readModel a (inputsOf a t).schema).result = .ok m ↔
      ∃ source s, t.text a.schema = .ok source ∧ Schema.parse source = .ok s ∧
        Model.ofSchema s = .ok m := by
  simp only [result_readModel, bind_eq_ok, mapError_eq_ok]
  constructor
  · rintro ⟨source, hsource, s, hs, hm⟩
    exact ⟨source, s, hsource, hs, hm⟩
  · rintro ⟨source, s, hsource, hs, hm⟩
    exact ⟨source, hsource, s, hs, hm⟩

theorem loadFails_of_readModel (ho : OptionsLoaded a t o)
    (h : (readModel a (inputsOf a t).schema).result = .error f) : LoadFails a t f := by
  simp only [result_readModel, bind_eq_error, mapError_eq_ok, mapError_eq_error] at h
  rcases h with ⟨fault, hfault, rfl⟩ | ⟨source, hsource, ⟨e, he, rfl⟩ | ⟨s, hs, e, he, rfl⟩⟩
  · exact .readingSchema ho hfault
  · exact .parsing ho hsource he
  · exact .resolving ho hsource hs he

theorem SameInputs.refl (a : Arguments) (t : FileTree) : SameInputs a t t :=
  ⟨rfl, fun _ _ => rfl⟩

/-- Nothing but the two files decides what is loaded. -/
theorem SameInputs.inputsOf_eq (h : SameInputs a t u) : inputsOf a u = inputsOf a t := by
  unfold inputsOf
  rw [h.schema]
  cases hconfig : a.config with
  | none => rfl
  | some path =>
    show Inputs.mk (u.read path) _ = Inputs.mk (t.read path) _
    rw [h.config path hconfig]

end Loading

/-! ### What is asked for -/

/-- How arguments change the options of a file. -/
structure Merged (a : Arguments) (file merged : Options) : Prop where
  enumSuffix : merged.enumSuffix = true ↔ file.enumSuffix = true ∧ a.noEnumSuffix = false
  treeMethods : merged.treeMethods = true ↔ file.treeMethods = true ∧ a.noTreeMethods = false
  flatSums : ∀ n, merged.isFlat n = true ↔ file.isFlat n = true ∨ n ∈ a.flatSums
  sidecar : merged.sidecar = true ↔ file.sidecar = true ∨ ∃ path, a.tagTables = some path
  hooks : ∀ n, merged.hasHook n = file.hasHook n

theorem merged_options (a : Arguments) (o : Options) : Merged a o (a.options o) where
  enumSuffix := by simp [Arguments.options]
  treeMethods := by simp [Arguments.options]
  flatSums n := NameSet.contains_addAll o.flatSums a.flatSums n
  sidecar := by simp [Arguments.options, Option.isSome_iff_exists]
  hooks _ := rfl

/-- What a run can be asked for. -/
inductive Artifact where
  | code
  | tags
  | macros
  deriving DecidableEq, Repr

namespace Artifact

/-- Everything, in the order of writing. -/
def all : List Artifact := [code, tags, macros]

/-- The option that asks for something. -/
def option : Artifact → Arguments.Valued
  | code => .output
  | tags => .tagTables
  | macros => .macros

/-- The file that is to hold something. -/
def file? (a : Arguments) (k : Artifact) : Option String := a.path? k.option

/-- What the library makes of a model under options. -/
inductive Text (m : Model) (o : Options) : Artifact → String → Prop where
  | code {out : Header.Output} :
      (Header.generate m o).result = .ok out → Text m o code (Header.withGuard m.name out.code)
  | tags {out : Header.Output} {tags : TagTables} :
      (Header.generate m o).result = .ok out → out.tags = some tags →
      Text m o Artifact.tags (TagTables.json tags)
  | macros {text : String} : (Header.macros m).result = .ok text → Text m o macros text

end Artifact

/-- Files for everything that arguments ask for, and nothing else, in the order of
writing. -/
def Asked (a : Arguments) (m : Model) (o : Options) (files : List (String × String)) : Prop :=
  List.Forall₂ (fun k f => k.file? a = some f.1 ∧ k.Text m o f.2)
    (Artifact.all.filter fun k => (k.file? a).isSome) files

section Asking

variable {a : Arguments} {m : Model} {o : Options}

/-- At most one file for each thing. -/
theorem asked_one {k : Artifact} {text : String} (h : k.file? a ≠ none → k.Text m o text) :
    List.Forall₂ (fun k f => k.file? a = some f.1 ∧ k.Text m o f.2)
      ([k].filter fun k => (k.file? a).isSome) ((k.file? a).map (·, text)).toList := by
  cases hfile : k.file? a with
  | none => simp [hfile]
  | some path => simpa [hfile] using h (by simp [hfile])

/-- **The files of a plan are those that are asked for.** -/
theorem asked_filesOf {out : Header.Output} {macros : String}
    (hout : (Header.generate m o).result = .ok out)
    (htags : a.tagTables ≠ none → ∃ tags, out.tags = some tags)
    (hmacros : (Header.macros m).result = .ok macros) :
    Asked a m o (Plan.filesOf a (Header.withGuard m.name out.code) out.tags macros) := by
  -- the options ask for the tables whenever there is a path for them
  have hfiles : (a.tagTables.bind fun path => out.tags.map fun t => (path, TagTables.json t)) =
      a.tagTables.map (·, (out.tags.map TagTables.json).getD "") := by
    cases htables : a.tagTables with
    | none => rfl
    | some path =>
      obtain ⟨tags, hsome⟩ := htags (by simp [htables])
      simp [hsome]
  have hall : ∀ p : Artifact → Bool, Artifact.all.filter p =
      [.code].filter p ++ [.tags].filter p ++ [.macros].filter p := fun p => by
    rw [← List.filter_append, ← List.filter_append]
    rfl
  rw [Asked, Plan.filesOf, hfiles, hall]
  refine List.rel_append (List.rel_append (asked_one fun _ => .code hout) (asked_one fun h => ?_))
    (asked_one fun _ => .macros hmacros)
  obtain ⟨tags, hsome⟩ := htags h
  simpa [hsome] using Artifact.Text.tags hout hsome

end Asking

/-! ### Plans -/

section Plans

variable {a : Arguments} {t : FileTree} {o : Options} {m : Model} {f : Failure}

theorem result_plan {inputs : Inputs} {out : Header.Output} {macros : String}
    (ho : readOptions a inputs.config = .ok o) (hm : (readModel a inputs.schema).result = .ok m)
    (hout : (Header.generate m (a.options o)).result = .ok out)
    (hmacros : (Header.macros m).result = .ok macros) :
    (Plan.of a inputs).result =
      .ok ⟨if a.output.isSome then "" else Header.withGuard m.name out.code,
        Plan.filesOf a (Header.withGuard m.name out.code) out.tags macros⟩ := by
  simp only [Plan.of, Header.result_bind]
  exact bind_eq_ok.mpr ⟨o, ho, bind_eq_ok.mpr ⟨m, hm, bind_eq_ok.mpr ⟨out,
    mapError_eq_ok.mpr hout, bind_eq_ok.mpr ⟨macros, mapError_eq_ok.mpr hmacros, rfl⟩⟩⟩⟩

/-- **What is loaded has a plan**: nothing fails any more. -/
theorem exists_plan (h : Loaded a t o m) :
    ∃ plan, (Plan.of a (inputsOf a t)).result = .ok plan ∧ Asked a m (a.options o) plan.files ∧
      (a.output = none → Artifact.code.Text m (a.options o) plan.printed) ∧
      (a.output ≠ none → plan.printed = "") := by
  have ho := readOptions_eq_ok.mpr h.options
  have hm := readModel_eq_ok.mpr h.model
  obtain ⟨_, s, -, -, hs⟩ := h.model
  have hout := Header.result_generate (Model.ofSchema_eq_ok.mp hs) (a.options o)
  have hmacros := Header.result_macros m
  refine ⟨_, result_plan ho hm hout hmacros, asked_filesOf hout (fun htables => ?_) hmacros,
    fun hnone => ?_, fun hsome => ?_⟩
  · -- asking for a file with tables turns the tables on
    have hsidecar : (a.options o).sidecar = true := by
      simp [Arguments.options, Option.isSome_iff_ne_none.mpr htables]
    exact ⟨_, if_pos hsidecar⟩
  · simpa [hnone] using Artifact.Text.code hout
  · simp [Option.isSome_iff_ne_none.mpr hsome]

theorem loaded_of_plan {plan : Plan} (h : (Plan.of a (inputsOf a t)).result = .ok plan) :
    ∃ o m, Loaded a t o m := by
  simp only [Plan.of, Header.result_bind, bind_eq_ok] at h
  obtain ⟨o, ho, m, hm, -⟩ := h
  exact ⟨o, m, readOptions_eq_ok.mp ho, readModel_eq_ok.mp hm⟩

/-- **A run has no plan exactly if its files give nothing**, for the very same reason. -/
theorem result_plan_eq_error : (Plan.of a (inputsOf a t)).result = .error f ↔ LoadFails a t f := by
  constructor
  · -- the stages are looked at in order, since each needs what the one before it gave
    intro h
    cases ho : readOptions a (inputsOf a t).config with
    | error e =>
      simp only [Plan.of, Header.result_bind, Run.ofExcept, ho] at h
      cases h
      exact loadFails_of_readOptions ho
    | ok o =>
      cases hm : (readModel a (inputsOf a t).schema).result with
      | error e =>
        simp only [Plan.of, Header.result_bind, Run.ofExcept, ho, hm] at h
        cases h
        exact loadFails_of_readModel (readOptions_eq_ok.mp ho) hm
      | ok m =>
        -- with options and a model there is a plan, so this case does not arise
        obtain ⟨plan, hplan, -⟩ :=
          exists_plan ⟨readOptions_eq_ok.mp ho, readModel_eq_ok.mp hm⟩
        cases hplan.symm.trans h
  · -- conversely, each failure is the error of one stage, and the stages before it succeed
    intro h
    simp only [Plan.of, Header.result_bind]
    cases h with
    | readingConfig hpath hfault =>
      refine bind_eq_error.mpr (.inl ?_)
      simp only [Run.ofExcept, readOptions, inputsOf, hpath]
      exact bind_eq_error.mpr (.inl (mapError_eq_error.mpr ⟨_, hfault, rfl⟩))
    | parsingConfig hpath htext hfault =>
      refine bind_eq_error.mpr (.inl ?_)
      simp only [Run.ofExcept, readOptions, inputsOf, hpath]
      exact bind_eq_error.mpr (.inr ⟨_, mapError_eq_ok.mpr htext,
        mapError_eq_error.mpr ⟨_, hfault, rfl⟩⟩)
    | readingSchema ho hfault =>
      refine bind_eq_error.mpr (.inr ⟨_, readOptions_eq_ok.mpr ho, bind_eq_error.mpr (.inl ?_)⟩)
      rw [result_readModel]
      exact bind_eq_error.mpr (.inl (mapError_eq_error.mpr ⟨_, hfault, rfl⟩))
    | parsing ho hsource he =>
      refine bind_eq_error.mpr (.inr ⟨_, readOptions_eq_ok.mpr ho, bind_eq_error.mpr (.inl ?_)⟩)
      rw [result_readModel]
      refine bind_eq_error.mpr (.inr ⟨_, mapError_eq_ok.mpr hsource, bind_eq_error.mpr (.inl ?_)⟩)
      exact mapError_eq_error.mpr ⟨_, he, rfl⟩
    | resolving ho hsource hs he =>
      refine bind_eq_error.mpr (.inr ⟨_, readOptions_eq_ok.mpr ho, bind_eq_error.mpr (.inl ?_)⟩)
      rw [result_readModel]
      refine bind_eq_error.mpr (.inr ⟨_, mapError_eq_ok.mpr hsource, bind_eq_error.mpr (.inr ?_)⟩)
      exact ⟨_, mapError_eq_ok.mpr hs, mapError_eq_error.mpr ⟨_, he, rfl⟩⟩

/-- Nothing is written while a run makes its plan. -/
theorem silent_plan (a : Arguments) (inputs : Inputs) : (Plan.of a inputs).Silent := by
  have hmodel : (readModel a inputs.schema).Silent := by
    refine (Run.silent_ofExcept _).bind fun source _ => ?_
    refine ((silent_parseText source).mapError _).bind fun s _ => ?_
    exact (silent_resolveSchema s).mapError _
  refine (Run.silent_ofExcept _).bind fun o _ => hmodel.bind fun m hm => ?_
  have hresolves : ∃ s, Model.Resolves s m := by
    simp only [readModel, Header.result_bind, bind_eq_ok] at hm
    obtain ⟨_, -, s, -, hs⟩ := hm
    exact ⟨s, Model.ofSchema_eq_ok.mp (mapError_eq_ok.mp hs)⟩
  obtain ⟨s, hs⟩ := hresolves
  refine ((Header.silent_generate hs _).mapError _).bind fun out _ => ?_
  exact ((Header.silent_macros m).mapError _).bind fun _ _ => rfl

end Plans

/-! ### Written files -/

section Writing

variable {t : FileTree} {files : List (String × String)}

theorem write_eq_ok {u : FileTree} {path : String} {contents : ByteArray} :
    t.write path contents = .ok u ↔
      ∃ p, t.target path = .ok p ∧ t.put p (.file contents) = u := by
  rw [FileTree.write, bind_eq_ok]
  simp only [pure_eq_ok]

theorem writeFiles_cons {u : FileTree} {path text : String}
    (h : t.write path text.toUTF8 = .ok u) (files : List (String × String)) :
    writeFiles t ((path, text) :: files) =
      (.wrote path :: (writeFiles u files).1, (writeFiles u files).2) := by
  rw [writeFiles, h]

/-- Files that have places are all written. -/
theorem exists_writeFiles (h : ∀ f ∈ files, ∃ p, t.target f.1 = .ok p) :
    ∃ u, writeFiles t files = (files.map fun f => .wrote f.1, u, none) ∧ t.Written files u := by
  induction files generalizing t with
  | nil => exact ⟨t, rfl, .nil⟩
  | cons f files ih =>
    obtain ⟨p, hp⟩ := h f List.mem_cons_self
    have hsame := FileTree.sameDirectories_put hp f.2.toUTF8
    have hrest : ∀ g ∈ files, ∃ q, (t.put p (.file f.2.toUTF8)).target g.1 = .ok q := by
      intro g hg
      obtain ⟨q, hq⟩ := h g (List.mem_cons_of_mem _ hg)
      exact ⟨q, (FileTree.target_congr hsame).mp hq⟩
    obtain ⟨u, hu, hwritten⟩ := ih hrest
    refine ⟨u, ?_, .cons hp hwritten⟩
    rw [writeFiles_cons (write_eq_ok.mpr ⟨p, hp, rfl⟩), hu]
    rfl

/-- All files have places if they are all written. -/
theorem placed_of_writeFiles (h : (writeFiles t files).2.2 = none) :
    ∀ f ∈ files, ∃ p, t.target f.1 = .ok p := by
  induction files generalizing t with
  | nil => simp
  | cons f files ih =>
    intro g hg
    cases hwrite : t.write f.1 f.2.toUTF8 with
    | error fault =>
      rw [writeFiles, hwrite] at h
      cases h
    | ok u =>
      obtain ⟨p, hp, rfl⟩ := write_eq_ok.mp hwrite
      rcases List.mem_cons.mp hg with rfl | hg
      · exact ⟨p, hp⟩
      · rw [writeFiles_cons hwrite] at h
        obtain ⟨q, hq⟩ := ih h g hg
        -- writing a file makes no directories, so the later paths lead where they did before
        exact ⟨q, (FileTree.target_congr (FileTree.sameDirectories_put hp _)).mpr hq⟩

end Writing

/-! ### Runs -/

/-- The files that a run reports as written, in order. -/
def Outcome.written (r : Outcome) : List String := r.events.filterMap Event.wrote?

/-- What a run in a tree leaves behind that succeeds with some files. -/
structure Delivered (a : Arguments) (m : Model) (o : Options) (files : List (String × String))
    (t : FileTree) (r : Outcome) : Prop where
  inOrder : r.written = files.map Prod.fst
  tree : t.Written files r.tree
  /-- Each file holds its text, unless a later one went to the same place. -/
  readBack : ∀ before f later, files = before ++ f :: later →
    (∀ g ∈ later, t.target g.1 ≠ t.target f.1) → r.tree.read f.1 = .ok f.2.toUTF8
  printed : a.output = none → Artifact.code.Text m o r.printed
  notPrinted : a.output ≠ none → r.printed = ""

/-- What a run does in a tree. -/
structure Performed (a : Arguments) (t : FileTree) : Prop where
  /-- The first thing that goes wrong ends the run, and nothing is written or printed. -/
  failFast : ∀ f, LoadFails a t f → (perform a t).failure = some f ∧ (perform a t).tree = t ∧
    (perform a t).written = [] ∧ (perform a t).printed = ""
  loaded : (∃ f, LoadFails a t f) ∨ ∃ o m, Loaded a t o m
  merged : ∀ o, Merged a o (a.options o)
  succeeds : (perform a t).failure = none ↔ (∃ o m, Loaded a t o m) ∧
    ∀ k path, Artifact.file? a k = some path → ∃ p, t.target path = .ok p
  /-- The files are those that are asked for, and they are the same in every tree with the
  same inputs. -/
  writes : ∀ o m, Loaded a t o m → ∃ files, Asked a m (a.options o) files ∧
    ∀ u, SameInputs a t u → (perform a u).failure = none →
      Delivered a m (a.options o) files u (perform a u)

section Performing

variable {a : Arguments} {t : FileTree} {f : Failure} {plan : Plan}

theorem perform_of_error (h : (Plan.of a (inputsOf a t)).result = .error f) :
    perform a t = ⟨(Plan.of a (inputsOf a t)).events, "", t, some f⟩ := by
  rw [perform, h]

theorem perform_of_ok (h : (Plan.of a (inputsOf a t)).result = .ok plan) :
    perform a t = ⟨(Plan.of a (inputsOf a t)).events ++ (writeFiles t plan.files).1, plan.printed,
      (writeFiles t plan.files).2.1, (writeFiles t plan.files).2.2⟩ := by
  rw [perform, h]

/-- Files have places exactly if what is asked for has. -/
theorem Asked.placed_iff {m : Model} {o : Options} {files : List (String × String)}
    (h : Asked a m o files) :
    (∀ f ∈ files, ∃ p, t.target f.1 = .ok p) ↔
      ∀ k path, Artifact.file? a k = some path → ∃ p, t.target path = .ok p := by
  constructor
  · intro hfiles k path hpath
    have hk : k ∈ Artifact.all.filter fun k => (k.file? a).isSome :=
      List.mem_filter.mpr ⟨by cases k <;> decide, by simp [hpath]⟩
    -- whatever has a path has a file under it
    obtain ⟨f, hf, hfile, -⟩ := exists_mem_right h hk
    obtain rfl := Option.some.inj (hpath.symm.trans hfile)
    exact hfiles f hf
  · intro hpaths f hf
    obtain ⟨k, -, hfile, -⟩ := exists_mem_left h hf
    exact hpaths k f.1 hfile

theorem delivered_of_plan {m : Model} {o : Options}
    (h : (Plan.of a (inputsOf a t)).result = .ok plan)
    (hprinted : a.output = none → Artifact.code.Text m o plan.printed)
    (hnot : a.output ≠ none → plan.printed = "") (hsuccess : (perform a t).failure = none) :
    Delivered a m o plan.files t (perform a t) := by
  have hperform := perform_of_ok h
  rw [hperform] at hsuccess
  -- a run that succeeds has written everything, so all of it had a place at the start
  obtain ⟨u, hu, hwritten⟩ := exists_writeFiles (placed_of_writeFiles hsuccess)
  rw [hperform, hu]
  refine ⟨?_, hwritten, fun before f later hfiles hlater => hwritten.read hfiles hlater, hprinted,
    hnot⟩
  rw [Outcome.written, List.filterMap_append, silent_plan, List.filterMap_map]
  simp [Function.comp_def, Event.wrote?]

/-- The files of a run give something, or one of them fails. -/
theorem loadFails_or_loaded (a : Arguments) (t : FileTree) :
    (∃ f, LoadFails a t f) ∨ ∃ o m, Loaded a t o m := by
  cases h : (Plan.of a (inputsOf a t)).result with
  | error f => exact .inl ⟨f, result_plan_eq_error.mp h⟩
  | ok plan => exact .inr (loaded_of_plan h)

/-- A run succeeds exactly if its files give something and there is a place for
everything that is asked for. -/
theorem failure_eq_none :
    (perform a t).failure = none ↔ (∃ o m, Loaded a t o m) ∧
      ∀ k path, Artifact.file? a k = some path → ∃ p, t.target path = .ok p := by
  constructor
  · intro h
    cases hplan : (Plan.of a (inputsOf a t)).result with
    | error f =>
      rw [perform_of_error hplan] at h
      cases h
    | ok plan =>
      -- the plan that there is is the one for what was loaded
      obtain ⟨o, m, hloaded⟩ := loaded_of_plan hplan
      obtain ⟨plan', hplan', hasked, -⟩ := exists_plan hloaded
      obtain rfl : plan = plan' := Except.ok.inj (hplan.symm.trans hplan')
      rw [perform_of_ok hplan] at h
      exact ⟨⟨o, m, hloaded⟩, hasked.placed_iff.mp (placed_of_writeFiles h)⟩
  · rintro ⟨⟨o, m, hloaded⟩, hpaths⟩
    obtain ⟨plan, hplan, hasked, -⟩ := exists_plan hloaded
    obtain ⟨u, hu, -⟩ := exists_writeFiles (hasked.placed_iff.mpr hpaths)
    rw [perform_of_ok hplan, hu]

end Performing

/-- **A run does what its arguments say.** -/
theorem perform_follows_arguments {arguments : List String} {a : Arguments}
    (ha : Arguments.parse? arguments = some a) (t : FileTree) :
    (∃ settings, Arguments.Says arguments settings ∧ Arguments.Meant settings a) ∧
      Performed a t := by
  refine ⟨Arguments.parse?_eq_some.mp ha, fun f hf => ?_, loadFails_or_loaded a t,
    merged_options a, failure_eq_none, fun o m h => ?_⟩
  · rw [perform_of_error (result_plan_eq_error.mpr hf)]
    exact ⟨rfl, rfl, silent_plan a _, rfl⟩
  · -- a tree with the same inputs has the same plan
    obtain ⟨plan, hplan, hasked, hprinted, hnot⟩ := exists_plan h
    refine ⟨plan.files, hasked, fun u hu hsuccess => ?_⟩
    rw [← hu.inputsOf_eq] at hplan
    exact delivered_of_plan hplan hprinted hnot hsuccess

/-- Arguments for a run that writes over both of the files that it reads. -/
def overwriting : List String :=
  ["--config", "gen.json", "m.asdl", "-o./m.asdl", "--debug-info=tags.json", "--enum-table",
    "gen.json", "--flat-int", "Color"]

/-- What they ask for. -/
def overwritingArguments : Arguments where
  schema := "m.asdl"
  output := some "./m.asdl"
  config := some "gen.json"
  tagTables := some "tags.json"
  macros := some "gen.json"
  flatSums := ["Color"]
  noEnumSuffix := false
  noTreeMethods := false

def overwrittenModule : Schema where
  name := "m"
  uses := []
  definitions := [.sum ⟨"Color", [⟨"Red", [], none⟩, ⟨"Black", [], none⟩], []⟩]

/-- The tree of that run. -/
def overwritten : FileTree where
  entries := [
    (Place.start.child "m.asdl", .file "module m \x7b Color = Red | Black \x7d".toUTF8),
    (Place.start.child "gen.json", .file "\x7b\"emit_debug_methods\": false\x7d".toUTF8)]

theorem parse_overwritten :
    Schema.parse "module m \x7b Color = Red | Black \x7d" = .ok overwrittenModule := by
  have hpieces : pieces "module m \x7b Color = Red | Black \x7d".toList =
      [.token (.keyword .module), .blank [' '], .token (.ident "m"), .blank [' '],
        .token (.punct .lbrace), .blank [' '], .token (.ident "Color"), .blank [' '],
        .token (.punct .equal), .blank [' '], .token (.ident "Red"), .blank [' '],
        .token (.punct .pipe), .blank [' '], .token (.ident "Black"), .blank [' '],
        .token (.punct .rbrace)] := by decide +kernel
  have hclean : Clean (pieces "module m \x7b Color = Red | Black \x7d".toList) := by
    rw [hpieces]
    decide
  rw [Schema.parse_of_clean hclean, hpieces]
  rfl

theorem ofJson_overwritten :
    Options.ofJson "\x7b\"emit_debug_methods\": false\x7d" = .ok { treeMethods := false } := by
  have hoption : (Options.ofJson "\x7b\"emit_debug_methods\": false\x7d").toOption =
      some { treeMethods := false } := by decide +kernel
  cases h : Options.ofJson "\x7b\"emit_debug_methods\": false\x7d" with
  | error fault =>
    rw [h] at hoption
    cases hoption
  | ok o =>
    rw [h] at hoption
    cases hoption
    rfl

theorem overwriting_performed :
    Arguments.parse? overwriting = some overwritingArguments ∧
      ∃ m code, Loaded overwritingArguments overwritten { treeMethods := false } m ∧
        Artifact.code.Text m
          { treeMethods := false, sidecar := true, flatSums := NameSet.add .empty "Color" } code ∧
        (perform overwritingArguments overwritten).failure = none ∧
        (perform overwritingArguments overwritten).printed = "" ∧
        (perform overwritingArguments overwritten).written =
          ["./m.asdl", "tags.json", "gen.json"] ∧
        (perform overwritingArguments overwritten).tree.read "./m.asdl" = .ok code.toUTF8 ∧
        (perform overwritingArguments overwritten).tree.read "gen.json" =
          .ok "#define Color__Red 1\n#define Color__Black 2\n\n".toUTF8 := by
  have hmacros : (fun m => (Header.macros m).result) <$> Model.ofSchema overwrittenModule =
      .ok (.ok "#define Color__Red 1\n#define Color__Black 2\n\n") := by rfl
  obtain ⟨m, hm, hmacros⟩ := map_eq_ok.mp hmacros
  have hparsed : Arguments.parse? overwriting = some overwritingArguments := by rfl
  obtain ⟨-, hperformed⟩ := perform_follows_arguments hparsed overwritten
  have hloaded : Loaded overwritingArguments overwritten { treeMethods := false } m :=
    ⟨.file rfl (text_of_read rfl) ofJson_overwritten, _, _, text_of_read rfl, parse_overwritten, hm⟩
  have hsuccess := hperformed.succeeds.mpr ⟨⟨_, m, hloaded⟩, fun k path hpath => by
    cases k <;> cases hpath <;> exact ⟨_, rfl⟩⟩
  obtain ⟨files, hasked, hfiles⟩ := hperformed.writes _ m hloaded
  have hdelivered := hfiles _ (SameInputs.refl _ _) hsuccess
  -- there is one file for each thing that is asked for
  obtain _ | ⟨⟨hcode, htext⟩, _ | ⟨⟨htables, -⟩, _ | ⟨⟨hlast, hdefines⟩, _ | _⟩⟩⟩ := hasked
  next f₁ f₂ f₃ =>
  obtain ⟨path₁, code⟩ := f₁
  obtain ⟨path₂, tables⟩ := f₂
  obtain ⟨path₃, defines⟩ := f₃
  cases hcode
  cases htables
  cases hlast
  cases hdefines with
  | macros hresult =>
  obtain rfl := Except.ok.inj (hmacros.symm.trans hresult)
  -- the header goes where the schema was, and nothing else does
  have hplaces : ∀ text : String, ∀ g ∈ [("tags.json", tables), ("gen.json", text)],
      overwritten.target g.1 ≠ overwritten.target "./m.asdl" := by
    have hheader : overwritten.target "./m.asdl" = .ok (Place.start.child "m.asdl") := by rfl
    have htags : overwritten.target "tags.json" = .ok (Place.start.child "tags.json") := by rfl
    have hconfig : overwritten.target "gen.json" = .ok (Place.start.child "gen.json") := by rfl
    simp [hheader, htags, hconfig, Place.child]
  exact ⟨hparsed, m, code, hloaded, htext, hsuccess, hdelivered.notPrinted (by decide),
    hdelivered.inOrder, hdelivered.readBack [] _ _ rfl (hplaces _),
    hdelivered.readBack [_, _] _ [] rfl (by simp)⟩

end CommandLine

end Asdl
