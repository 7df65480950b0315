/-
What a list of arguments says.

Arguments are read one by one, with a value that may still have to come.  The same lists
are described here by what stands in them: flags, options with their values, and paths of
schemas, each in one of its spellings:

* `Arguments.Spelled` — how each kind of argument is spelled, and
  `Arguments.kindOf_eq_iff`, which compares this with the way they are told apart;
* `Arguments.Says` — what a list of arguments says, setting after setting;
* `Arguments.Meant` — what settings mean together: no path is empty, and nothing is given
  twice except the sums to be written as integers;
* `Arguments.Draft.exists_said`, `Arguments.Draft.foldlM_step_of_said` — reading arguments
  is reading what they say;
* `Arguments.Draft.foldlM_read` — which gathers the settings;
* `Arguments.parse?_eq_some` — hence the arguments that are read are those that say
  something meaningful, and nothing else is read into them.

Design notes: that something is given at most once is said by lists.  What is gathered of
an option, as a list of at most one value, is what was there followed by what is said.
-/
import Asdl.CommandLine.Arguments

namespace Asdl

namespace CommandLine

namespace Arguments

/-! ### Spellings -/

def Valued.name : Valued → String
  | output => "output"
  | config => "config"
  | tagTables => "debug-info"
  | macros => "enum-table"
  | flatSum => "flat-int"

def Flag.name : Flag → String
  | noEnumSuffix => "no-enum-suffix"
  | noTreeMethods => "no-debug-methods"

/-- An argument that is no option. -/
def Plain (argument : String) : Prop := argument.toList.head? = some '-' → argument = "-"

/-- How arguments are spelled. -/
inductive Spelled : Kind → String → Prop where
  | endOfOptions : Spelled .endOfOptions "--"
  | flag (f : Flag) : Spelled (.flag f) ("--" ++ f.name)
  | long (v : Valued) : Spelled (.valued v) ("--" ++ v.name)
  | longWith (v : Valued) (value : String) :
      Spelled (.withValue v value) ("--" ++ v.name ++ "=" ++ value)
  | short : Spelled (.valued .output) "-o"
  | shortEquals (value : String) : Spelled (.withValue .output value) ("-o=" ++ value)
  | shortWith (value : String) : value ≠ "" → value.toList.head? ≠ some '=' →
      Spelled (.withValue .output value) ("-o" ++ value)
  | plain (argument : String) : Plain argument → Spelled .plain argument

theorem valued?_eq_some {name : List Char} {v : Valued} :
    valued? name = some v ↔ name = v.name.toList := by
  constructor
  · intro h
    unfold valued? at h
    repeat' split at h
    all_goals cases h <;> assumption
  · rintro rfl
    cases v <;> rfl

theorem flag?_eq_some {name : List Char} {f : Flag} :
    flag? name = some f ↔ name = f.name.toList := by
  constructor
  · intro h
    unfold flag? at h
    repeat' split at h
    all_goals cases h <;> assumption
  · rintro rfl
    cases f <;> rfl

/-- A long name ends at the first equals sign. -/
theorem takeWhile_append_eq {text value : List Char} {c : Char}
    (h : text.dropWhile (· != '=') = c :: value) :
    text = text.takeWhile (· != '=') ++ '=' :: value := by
  have hhead := List.head?_dropWhile_not (· != '=') text
  rw [h] at hhead
  obtain rfl : c = '=' := by simpa using hhead
  rw [← h, List.takeWhile_append_dropWhile]

theorem eq_takeWhile {text : List Char} (h : text.dropWhile (· != '=') = []) :
    text = text.takeWhile (· != '=') := by
  have hall := List.takeWhile_append_dropWhile (p := (· != '=')) (l := text)
  rw [h, List.append_nil] at hall
  exact hall.symm

/-- Two dashes, a name and what follows it, as one text. -/
theorem ofList_long (name : String) (rest : List Char) :
    String.ofList ('-' :: '-' :: (name.toList ++ rest)) = "--" ++ name ++ .ofList rest := by
  simp [← String.toList_inj]

theorem spelled_longKind {text : List Char} (h : longKind text ≠ .unknown) :
    Spelled (longKind text) (.ofList ('-' :: '-' :: text)) := by
  -- the first equals sign ends the name; only an option with a value may have one
  cases hdrop : text.dropWhile (· != '=') with
  | cons c value =>
    cases hv : valued? (text.takeWhile (· != '=')) with
    | none => simp [longKind, hdrop, hv] at h
    | some v =>
      have hkind : longKind text = .withValue v (.ofList value) := by simp [longKind, hdrop, hv]
      have htext := takeWhile_append_eq hdrop
      rw [valued?_eq_some.mp hv] at htext
      have hspelled : "--" ++ v.name ++ .ofList ('=' :: value) =
          "--" ++ v.name ++ "=" ++ .ofList value := by
        simp [← String.toList_inj]
      rw [hkind, htext, ofList_long, hspelled]
      exact .longWith v _
  | nil =>
    have htext := eq_takeWhile hdrop
    cases hv : valued? (text.takeWhile (· != '=')) with
    | some v =>
      have hkind : longKind text = .valued v := by simp [longKind, hdrop, hv]
      rw [valued?_eq_some.mp hv] at htext
      rw [hkind, htext, ← List.append_nil v.name.toList, ofList_long]
      simpa using Spelled.long v
    | none =>
      cases hf : flag? (text.takeWhile (· != '=')) with
      | none => simp [longKind, hdrop, hv, hf] at h
      | some f =>
        have hkind : longKind text = .flag f := by simp [longKind, hdrop, hv, hf]
        rw [flag?_eq_some.mp hf] at htext
        rw [hkind, htext, ← List.append_nil f.name.toList, ofList_long]
        simpa using Spelled.flag f

theorem spelled_shortKind {text : List Char} (h : shortKind text ≠ .unknown) :
    Spelled (shortKind text) (.ofList ('-' :: text)) := by
  unfold shortKind at h ⊢
  split
  · exact .short
  · next value =>
    have hspelled : String.ofList ('-' :: 'o' :: '=' :: value) = "-o=" ++ .ofList value := by
      simp [← String.toList_inj]
    rw [hspelled]
    exact .shortEquals _
  · next value hempty hequals =>
    have hspelled : String.ofList ('-' :: 'o' :: value) = "-o" ++ .ofList value := by
      simp [← String.toList_inj]
    rw [hspelled]
    refine .shortWith _ ?_ ?_
    · simpa [← String.toList_inj] using hempty
    · cases value with
      | nil => simp
      | cons c value =>
        rw [String.toList_ofList]
        rintro ⟨⟩
        exact hequals value rfl
  · simp_all

theorem longKind_withValue (v : Valued) (value : List Char) :
    longKind (v.name.toList ++ '=' :: value) = .withValue v (.ofList value) := by
  have hall : v.name.toList.all (· != '=') = true := by
    cases v <;> rfl
  have hname := List.all_eq_true.mp hall
  unfold longKind
  rw [List.takeWhile_append_of_pos hname, List.dropWhile_append_of_pos hname]
  simp [valued?_eq_some.mpr rfl]

theorem kindOf_of_plain {argument : String} (h : Plain argument) : kindOf argument = .plain := by
  by_cases hdash : argument.toList.head? = some '-'
  · rw [h hdash]
    rfl
  · unfold kindOf
    split <;> simp_all

/-- **Arguments are told apart by their spelling.** -/
theorem kindOf_eq_iff {k : Kind} (hk : k ≠ .unknown) {argument : String} :
    kindOf argument = k ↔ Spelled k argument := by
  constructor
  · rintro rfl
    obtain ⟨text, rfl⟩ : ∃ text, argument = .ofList text := ⟨_, String.ofList_toList.symm⟩
    unfold kindOf at hk ⊢
    rw [String.toList_ofList] at hk ⊢
    -- the clauses of `kindOf` in order: each one that matches has a spelling of its own
    split
    · exact .plain _ fun _ => rfl
    · exact .endOfOptions
    · exact spelled_longKind (by simpa using hk)
    · exact spelled_shortKind (by simp_all)
    · -- a text that none of them matched has no dash in front
      next hshort =>
      refine .plain _ fun hhead => ?_
      rw [String.toList_ofList] at hhead
      obtain ⟨rest, rfl⟩ : ∃ rest, text = '-' :: rest := List.head?_eq_some_iff.mp hhead
      exact absurd rfl (hshort rest)
  · intro h
    cases h with
    | endOfOptions => rfl
    | flag f => cases f <;> rfl
    | long v => cases v <;> rfl
    | longWith v value =>
      have hkind := longKind_withValue v value.toList
      rw [String.ofList_toList] at hkind
      rw [← hkind, kindOf]
      simp only [String.toList_append]
      cases v <;> rfl
    | short => rfl
    | shortEquals value =>
      rw [kindOf, String.toList_append]
      exact congrArg (Kind.withValue .output) String.ofList_toList
    -- the value follows the letter at once, so it must not look like `-o=`
    | shortWith value hempty hequals =>
      rw [kindOf, String.toList_append]
      cases hvalue : value.toList with
      | nil => exact absurd (String.toList_eq_nil_iff.mp hvalue) hempty
      | cons c rest =>
        rw [hvalue] at hequals
        have hc : c ≠ '=' := by simpa using hequals
        show shortKind ('o' :: c :: rest) = _
        have hkind : shortKind ('o' :: c :: rest) = .withValue .output (.ofList (c :: rest)) := by
          simp [shortKind, hc]
        rw [hkind, ← hvalue, String.ofList_toList]
    | plain _ hplain => exact kindOf_of_plain hplain

/-! ### What arguments say -/

/-- One thing that arguments say. -/
inductive Setting where
  | schema (path : String)
  | value (v : Valued) (value : String)
  | flag (f : Flag)
  deriving DecidableEq, Repr

/-- What a list of arguments says, in order.  Behind the mark that ends the options
everything is a path. -/
inductive Says : List String → List Setting → Prop where
  | nil : Says [] []
  | ended {mark : String} (paths : List String) :
      Spelled .endOfOptions mark → Says (mark :: paths) (paths.map .schema)
  | flag {argument : String} {rest : List String} {f : Flag} {settings : List Setting} :
      Spelled (.flag f) argument → Says rest settings →
      Says (argument :: rest) (.flag f :: settings)
  | joined {argument value : String} {rest : List String} {v : Valued} {settings : List Setting} :
      Spelled (.withValue v value) argument → Says rest settings →
      Says (argument :: rest) (.value v value :: settings)
  | apart {argument value : String} {rest : List String} {v : Valued} {settings : List Setting} :
      Spelled (.valued v) argument → Spelled .plain value → Says rest settings →
      Says (argument :: value :: rest) (.value v value :: settings)
  | path {argument : String} {rest : List String} {settings : List Setting} :
      Spelled .plain argument → Says rest settings →
      Says (argument :: rest) (.schema argument :: settings)

/-- The paths of schemas among settings. -/
def schemasIn (settings : List Setting) : List String :=
  settings.filterMap fun
    | .schema path => some path
    | _ => none

/-- The values of an option among settings. -/
def valuesIn (v : Valued) (settings : List Setting) : List String :=
  settings.filterMap fun
    | .value w value => if w = v then some value else none
    | _ => none

section Append

variable (xs ys : List Setting)

theorem schemasIn_append : schemasIn (xs ++ ys) = schemasIn xs ++ schemasIn ys :=
  List.filterMap_append

theorem valuesIn_append (v : Valued) : valuesIn v (xs ++ ys) = valuesIn v xs ++ valuesIn v ys :=
  List.filterMap_append

end Append

@[simp] theorem schemasIn_schema (path : String) : schemasIn [.schema path] = [path] := rfl

@[simp] theorem schemasIn_value (v : Valued) (value : String) :
    schemasIn [.value v value] = [] := rfl

@[simp] theorem schemasIn_flag (f : Flag) : schemasIn [.flag f] = [] := rfl

@[simp] theorem valuesIn_schema (w : Valued) (path : String) : valuesIn w [.schema path] = [] := rfl

@[simp] theorem valuesIn_value (w v : Valued) (value : String) :
    valuesIn w [.value v value] = if v = w then [value] else [] := by
  by_cases h : v = w <;> simp [valuesIn, h]

@[simp] theorem valuesIn_flag (w : Valued) (f : Flag) : valuesIn w [.flag f] = [] := rfl

/-- The path that is given with an option. -/
def path? (a : Arguments) : Valued → Option String
  | .output => a.output
  | .config => a.config
  | .tagTables => a.tagTables
  | .macros => a.macros
  | .flatSum => none

def flag (a : Arguments) : Flag → Bool
  | .noEnumSuffix => a.noEnumSuffix
  | .noTreeMethods => a.noTreeMethods

/-- Nothing that has to be a path is empty. -/
def Named (settings : List Setting) : Prop :=
  "" ∉ schemasIn settings ∧ ∀ v, v ≠ .flatSum → "" ∉ valuesIn v settings

theorem named_append {xs ys : List Setting} : Named (xs ++ ys) ↔ Named xs ∧ Named ys := by
  simp only [Named, schemasIn_append, valuesIn_append, List.mem_append, not_or]
  constructor
  · rintro ⟨⟨hx, hy⟩, h⟩
    exact ⟨⟨hx, fun v hv => (h v hv).1⟩, hy, fun v hv => (h v hv).2⟩
  · rintro ⟨⟨hx, hxs⟩, hy, hys⟩
    exact ⟨⟨hx, hy⟩, fun v hv => ⟨hxs v hv, hys v hv⟩⟩

/-- What settings mean together. -/
structure Meant (settings : List Setting) (a : Arguments) : Prop where
  named : Named settings
  schema : schemasIn settings = [a.schema]
  paths : ∀ v, v ≠ .flatSum → valuesIn v settings = (a.path? v).toList
  flatSums : valuesIn .flatSum settings = a.flatSums
  flags : ∀ f, settings.count (.flag f) = (a.flag f).toNat

/-! ### Gathering settings -/

namespace Draft

variable {d e : Draft} {x : Setting} {settings : List Setting}

/-- One setting more. -/
def read (d : Draft) : Setting → Option Draft
  | .schema path => d.setSchema path
  | .value v value => d.setValue value v
  | .flag f => d.setFlag f

def path (d : Draft) : Valued → Option String
  | .output => d.output
  | .config => d.config
  | .tagTables => d.tagTables
  | .macros => d.macros
  | .flatSum => none

def flag (d : Draft) : Flag → Bool
  | .noEnumSuffix => d.noEnumSuffix
  | .noTreeMethods => d.noTreeMethods

/-- A draft that has settings in addition to those of another one. -/
structure Adds (d : Draft) (settings : List Setting) (e : Draft) : Prop where
  named : Named settings
  schema : e.schema.toList = d.schema.toList ++ schemasIn settings
  paths : ∀ v, v ≠ .flatSum → (e.path v).toList = (d.path v).toList ++ valuesIn v settings
  flatSums : e.flatSums = d.flatSums ++ valuesIn .flatSum settings
  flags : ∀ f, (e.flag f).toNat = (d.flag f).toNat + settings.count (.flag f)
  pending : e.pending = d.pending
  ended : e.ended = d.ended

theorem path?_eq_some {present after : Option String} {path : String} :
    path? present path = some after ↔ present = none ∧ path ≠ "" ∧ some path = after := by
  cases present with
  | none =>
    by_cases hpath : path = "" <;> simp [path?, hpath]
  | some q => simp [path?]

theorem eq_of_toList_eq {present after : Option String} (h : after.toList = present.toList) :
    after = present := by
  cases present <;> cases after <;> simp_all

/-- Something that is given once more was not given before. -/
theorem eq_none_of_toList_eq {present after : Option String} {path : String} {rest : List String}
    (h : after.toList = present.toList ++ path :: rest) : present = none := by
  cases present with
  | none => rfl
  | some q => cases after <;> simp at h

/-- A path is set where there is none, and nothing else changes. -/
theorem setValue_of_path {v : Valued} {value : String} (hv : v ≠ .flatSum) (hnone : d.path v = none)
    (hne : value ≠ "") :
    ∃ e, d.setValue value v = some e ∧ e.path v = some value ∧ (∀ w, w ≠ v → e.path w = d.path w) ∧
      e.schema = d.schema ∧ e.flatSums = d.flatSums ∧ (∀ f, e.flag f = d.flag f) ∧
      e.pending = d.pending ∧ e.ended = d.ended := by
  have hset := path?_eq_some.mpr ⟨hnone, hne, rfl⟩
  cases v with
  | flatSum => exact absurd rfl hv
  | _ =>
    refine ⟨_, Option.map_eq_some_iff.mpr ⟨_, hset, rfl⟩, rfl, fun w hw => ?_, rfl, rfl,
      fun f => by cases f <;> rfl, rfl, rfl⟩
    cases w <;> first | rfl | exact absurd rfl hw

/-- A path is set only where there is none. -/
theorem path_of_setValue {v : Valued} {value : String} (hv : v ≠ .flatSum)
    (h : d.setValue value v = some e) : d.path v = none ∧ value ≠ "" := by
  cases v with
  | flatSum => exact absurd rfl hv
  | _ =>
    obtain ⟨_, hset, -⟩ := Option.map_eq_some_iff.mp h
    obtain ⟨hnone, hne, -⟩ := path?_eq_some.mp hset
    exact ⟨hnone, hne⟩

/-- A flag is set where it is not, and nothing else changes. -/
theorem setFlag_of_flag {f : Flag} (hoff : d.flag f = false) :
    ∃ e, d.setFlag f = some e ∧ e.flag f = true ∧ (∀ g, g ≠ f → e.flag g = d.flag g) ∧
      e.schema = d.schema ∧ e.flatSums = d.flatSums ∧ (∀ v, e.path v = d.path v) ∧
      e.pending = d.pending ∧ e.ended = d.ended := by
  cases f with
  | _ =>
    refine ⟨_, if_neg (by simpa [Draft.flag] using hoff), rfl, fun g hg => ?_, rfl, rfl,
      fun v => by cases v <;> rfl, rfl, rfl⟩
    cases g <;> first | rfl | exact absurd rfl hg

/-- A flag is set only where it is not. -/
theorem flag_of_setFlag {f : Flag} (h : d.setFlag f = some e) : d.flag f = false := by
  cases f <;> simp_all [setFlag, Draft.flag]

/-- **One setting is gathered** as it is said. -/
theorem adds_of_read (h : d.read x = some e) : Adds d [x] e := by
  cases x with
  | schema path =>
    obtain ⟨q, hq, rfl⟩ := Option.map_eq_some_iff.mp h
    obtain ⟨hnone, hne, rfl⟩ := path?_eq_some.mp hq
    refine ⟨⟨by simpa using hne.symm, by simp⟩, by simp [hnone], fun v _ => ?_, by simp,
      fun f => ?_, rfl, rfl⟩
    · cases v <;> simp [Draft.path]
    · cases f <;> simp [Draft.flag]
  | value v value =>
    -- a sum is added to those that are there, a path needs an empty place
    by_cases hv : v = .flatSum
    · subst hv
      cases h
      refine ⟨⟨by simp, fun w hw => by simp [hw.symm]⟩, by simp, fun w hw => ?_, by simp,
        fun f => ?_, rfl, rfl⟩
      · cases w <;> simp_all [Draft.path]
      · cases f <;> simp [Draft.flag]
    · obtain ⟨hnone, hne⟩ := path_of_setValue hv h
      obtain ⟨m, hm, hpath, hothers, hschema, hflat, hflags, hpending, hended⟩ :=
        setValue_of_path hv hnone hne
      obtain rfl : e = m := Option.some.inj (h.symm.trans hm)
      refine ⟨⟨by simp, fun w _ => ?_⟩, by simp [hschema], fun w _ => ?_, by simp [hflat, hv],
        fun f => by simp [hflags], hpending, hended⟩
      · by_cases hw : v = w <;> simp [hw, hne.symm]
      · by_cases hw : w = v
        · subst hw
          simp [hnone, hpath]
        · simp [hothers w hw, Ne.symm hw]
  | flag f =>
    have hoff := flag_of_setFlag h
    obtain ⟨m, hm, hon, hothers, hschema, hflat, hpaths, hpending, hended⟩ := setFlag_of_flag hoff
    obtain rfl : e = m := Option.some.inj (h.symm.trans hm)
    refine ⟨⟨by simp, by simp⟩, by simp [hschema], fun v _ => by simp [hpaths], by simp [hflat],
      fun g => ?_, hpending, hended⟩
    by_cases hg : g = f
    · subst hg
      simp [hon, hoff]
    · simp [hothers g hg, Ne.symm hg]

/-- A setting that can be gathered before others can be gathered first. -/
theorem Adds.exists_read (h : Adds d (x :: settings) e) : ∃ m, d.read x = some m := by
  cases x with
  | schema path =>
    have hnone := eq_none_of_toList_eq h.schema
    have hne : path ≠ "" := by
      rintro rfl
      exact h.named.1 List.mem_cons_self
    exact ⟨_, Option.map_eq_some_iff.mpr ⟨_, path?_eq_some.mpr ⟨hnone, hne, rfl⟩, rfl⟩⟩
  | value v value =>
    by_cases hv : v = .flatSum
    · subst hv
      exact ⟨_, rfl⟩
    · have hvalues : valuesIn v (.value v value :: settings) = value :: valuesIn v settings := by
        simp [valuesIn]
      have hpaths := h.paths v hv
      have hnamed := h.named.2 v hv
      rw [hvalues] at hpaths hnamed
      obtain ⟨m, hm, -⟩ := setValue_of_path hv (eq_none_of_toList_eq hpaths)
        (Ne.symm (List.ne_of_not_mem_cons hnamed))
      exact ⟨m, hm⟩
  | flag f =>
    have hcount := h.flags f
    rw [List.count_cons_self] at hcount
    -- it is given once in the end, and this is the one time
    have hoff : d.flag f = false := by
      have hle := Bool.toNat_le (e.flag f)
      cases hd : d.flag f with
      | false => rfl
      | true =>
        rw [hd, Bool.toNat_true] at hcount
        omega
    obtain ⟨m, hm, -⟩ := setFlag_of_flag hoff
    exact ⟨m, hm⟩

theorem Adds.append {m : Draft} {xs ys : List Setting} (h : Adds d xs m) (h' : Adds m ys e) :
    Adds d (xs ++ ys) e where
  named := named_append.mpr ⟨h.named, h'.named⟩
  schema := by rw [h'.schema, h.schema, schemasIn_append, List.append_assoc]
  paths v hv := by rw [h'.paths v hv, h.paths v hv, valuesIn_append, List.append_assoc]
  flatSums := by rw [h'.flatSums, h.flatSums, valuesIn_append, List.append_assoc]
  flags f := by rw [h'.flags f, h.flags f, List.count_append, Nat.add_assoc]
  pending := h'.pending.trans h.pending
  ended := h'.ended.trans h.ended

/-- What is gathered after a part is the rest. -/
theorem Adds.rest {m : Draft} {xs ys : List Setting} (h : Adds d xs m) (h' : Adds d (xs ++ ys) e) :
    Adds m ys e where
  named := (named_append.mp h'.named).2
  schema := by rw [h'.schema, h.schema, schemasIn_append, List.append_assoc]
  paths v hv := by rw [h'.paths v hv, h.paths v hv, valuesIn_append, List.append_assoc]
  flatSums := by rw [h'.flatSums, h.flatSums, valuesIn_append, List.append_assoc]
  flags f := by rw [h'.flags f, h.flags f, List.count_append, Nat.add_assoc]
  pending := h'.pending.trans h.pending.symm
  ended := h'.ended.trans h.ended.symm

theorem adds_nil : Adds d [] e ↔ d = e := by
  constructor
  · intro h
    -- nothing is added, so the drafts agree in each thing that settings can say
    have hpath : ∀ v, v ≠ .flatSum → e.path v = d.path v := fun v hv =>
      eq_of_toList_eq (by simpa [valuesIn] using h.paths v hv)
    have hflag : ∀ f, e.flag f = d.flag f := by
      intro f
      have hsame := h.flags f
      cases he : e.flag f <;> cases hd : d.flag f <;> simp_all
    have hschema : e.schema = d.schema := eq_of_toList_eq (by simpa [schemasIn] using h.schema)
    have hflat : e.flatSums = d.flatSums := by simpa [valuesIn] using h.flatSums
    have houtput := hpath .output (by simp)
    have hconfig := hpath .config (by simp)
    have htables := hpath .tagTables (by simp)
    have hmacros := hpath .macros (by simp)
    have hsuffix := hflag .noEnumSuffix
    have htree := hflag .noTreeMethods
    have hpending := h.pending
    have hended := h.ended
    cases d
    cases e
    simp_all [Draft.path, Draft.flag]
  · rintro rfl
    exact ⟨by simp [Named, schemasIn, valuesIn], by simp [schemasIn], by simp [valuesIn],
      by simp [valuesIn], by simp, rfl, rfl⟩

/-- **Settings are gathered as they are said.** -/
theorem foldlM_read : settings.foldlM read d = some e ↔ Adds d settings e := by
  induction settings generalizing d with
  | nil =>
    rw [adds_nil]
    simp
  | cons x settings ih =>
    rw [List.foldlM_cons, Option.bind_eq_bind, Option.bind_eq_some_iff]
    constructor
    · rintro ⟨m, hm, h⟩
      exact (adds_of_read hm).append (ih.mp h)
    · intro h
      obtain ⟨m, hm⟩ := h.exists_read
      exact ⟨m, hm, ih.mpr ((adds_of_read hm).rest h)⟩

/-! ### Reading arguments -/

/-- Behind the mark everything is a path. -/
theorem foldlM_step_ended (hpending : d.pending = none) (paths : List String) :
    paths.foldlM step { d with ended := true } =
      ((paths.map Setting.schema).foldlM read d).map fun e => { e with ended := true } := by
  induction paths generalizing d with
  | nil => rfl
  | cons path paths ih =>
    -- the mark stays in the draft and does nothing to a path
    have hstep : step { d with ended := true } path =
        (d.read (.schema path)).map fun e => { e with ended := true } := by
      simp only [step, hpending, if_true, read, setSchema]
      cases path? d.schema path <;> rfl
    rw [List.foldlM_cons, List.map_cons, List.foldlM_cons, hstep]
    cases hread : d.read (.schema path) with
    | none => rfl
    | some e => exact ih ((adds_of_read hread).pending.trans hpending)

/-- What one argument does to a draft that waits for nothing. -/
theorem step_eq (hpending : d.pending = none) (hended : d.ended = false) (argument : String) :
    d.step argument = match kindOf argument with
      | .endOfOptions => some { d with ended := true }
      | .flag f => d.read (.flag f)
      | .valued v => some { d with pending := some v }
      | .withValue v value => d.read (.value v value)
      | .plain => d.read (.schema argument)
      | .unknown => none := by
  rw [step, hpending]
  simp only [hended, Bool.false_eq_true, if_false]
  cases kindOf argument <;> rfl

/-- An option is followed by its value. -/
theorem step_pending {v : Valued} {value : String} (hpending : d.pending = none) :
    ({ d with pending := some v } : Draft).step value =
      if kindOf value = .plain then d.read (.value v value) else none := by
  have hsame : ({ d with pending := none } : Draft) = d := by rw [← hpending]
  simp only [step]
  split
  · next hplain => rw [if_pos hplain, hsame, read]
  · next hother => rw [if_neg hother]

/-- What comes after a setting starts from a draft that waits for nothing either. -/
theorem read_bind_finish {a : Arguments} {next : Draft → Option Draft} :
    ((d.read x).bind next).bind finish = some a ↔
      ∃ e, d.read x = some e ∧ e.pending = d.pending ∧ e.ended = d.ended ∧
        (next e).bind finish = some a := by
  rw [Option.bind_assoc, Option.bind_eq_some_iff]
  constructor
  · rintro ⟨e, hread, h⟩
    have hadds := adds_of_read hread
    exact ⟨e, hread, hadds.pending, hadds.ended, h⟩
  · rintro ⟨e, hread, -, -, h⟩
    exact ⟨e, hread, h⟩

/-- Arguments that are read say something. -/
theorem exists_said {a : Arguments} {arguments : List String} (hpending : d.pending = none)
    (hended : d.ended = false) (h : (arguments.foldlM step d).bind finish = some a) :
    ∃ settings, Says arguments settings ∧ (settings.foldlM read d).bind finish = some a := by
  -- by length, since an option and its value are read together
  induction hlength : arguments.length using Nat.strongRecOn generalizing arguments d with
  | ind n ih =>
  subst hlength
  cases arguments with
  | nil => exact ⟨[], .nil, h⟩
  | cons argument rest =>
    have hrest : ∀ {x : Setting} {others : List String},
        others.length < (argument :: rest).length →
        ((d.read x).bind fun e => others.foldlM step e).bind finish = some a →
        ∃ settings, Says others settings ∧
          ((x :: settings).foldlM read d).bind finish = some a := by
      intro x others hlt h
      obtain ⟨e, hread, hp, he, h⟩ := read_bind_finish.mp h
      obtain ⟨settings, hsaid, h⟩ := ih _ hlt (hp.trans hpending) (he.trans hended) h rfl
      exact ⟨settings, hsaid, read_bind_finish.mpr ⟨e, hread, hp, he, h⟩⟩
    rw [List.foldlM_cons, step_eq hpending hended, Option.bind_eq_bind] at h
    cases hk : kindOf argument with
    | endOfOptions =>
      rw [hk, Option.bind_some, foldlM_step_ended hpending, Option.bind_map] at h
      exact ⟨_, .ended rest ((kindOf_eq_iff (by simp)).mp hk), h⟩
    | flag f =>
      rw [hk] at h
      obtain ⟨settings, hsaid, h⟩ := hrest (Nat.lt_succ_self _) h
      exact ⟨_, .flag ((kindOf_eq_iff (by simp)).mp hk) hsaid, h⟩
    | valued v =>
      rw [hk, Option.bind_some] at h
      cases rest with
      | nil => cases h
      | cons value rest =>
        rw [List.foldlM_cons, step_pending hpending, Option.bind_eq_bind] at h
        split at h
        · next hplain =>
          have hlt : rest.length < (argument :: value :: rest).length := by
            simp only [List.length_cons]
            omega
          obtain ⟨settings, hsaid, h⟩ := hrest hlt h
          exact ⟨_, .apart ((kindOf_eq_iff (by simp)).mp hk)
            ((kindOf_eq_iff (by simp)).mp hplain) hsaid, h⟩
        · cases h
    | withValue v value =>
      rw [hk] at h
      obtain ⟨settings, hsaid, h⟩ := hrest (Nat.lt_succ_self _) h
      exact ⟨_, .joined ((kindOf_eq_iff (by simp)).mp hk) hsaid, h⟩
    | plain =>
      rw [hk] at h
      obtain ⟨settings, hsaid, h⟩ := hrest (Nat.lt_succ_self _) h
      exact ⟨_, .path ((kindOf_eq_iff (by simp)).mp hk) hsaid, h⟩
    | unknown =>
      rw [hk] at h
      cases h

/-- Arguments that say something are read. -/
theorem foldlM_step_of_said {a : Arguments} {arguments : List String} (hpending : d.pending = none)
    (hended : d.ended = false) (hsaid : Says arguments settings)
    (h : (settings.foldlM read d).bind finish = some a) :
    (arguments.foldlM step d).bind finish = some a := by
  induction hsaid generalizing d with
  | nil => exact h
  | ended paths hmark =>
    rw [List.foldlM_cons, step_eq hpending hended, (kindOf_eq_iff (by simp)).mpr hmark,
      Option.bind_eq_bind, Option.bind_some, foldlM_step_ended hpending, Option.bind_map]
    exact h
  -- the option is remembered, and the next argument is its value
  | apart hoption hvalue _ ih =>
    obtain ⟨e, hread, hp, he, h⟩ := read_bind_finish.mp h
    rw [List.foldlM_cons, step_eq hpending hended, (kindOf_eq_iff (by simp)).mpr hoption,
      Option.bind_eq_bind, Option.bind_some, List.foldlM_cons, step_pending hpending,
      if_pos ((kindOf_eq_iff (by simp)).mpr hvalue)]
    exact read_bind_finish.mpr ⟨e, hread, hp, he, ih (hp.trans hpending) (he.trans hended) h⟩
  | flag harg _ ih | joined harg _ ih | path harg _ ih =>
    obtain ⟨e, hread, hp, he, h⟩ := read_bind_finish.mp h
    rw [List.foldlM_cons, step_eq hpending hended, (kindOf_eq_iff (by simp)).mpr harg]
    exact read_bind_finish.mpr ⟨e, hread, hp, he, ih (hp.trans hpending) (he.trans hended) h⟩

/-- The draft of finished arguments. -/
def ofArguments (a : Arguments) : Draft :=
  ⟨some a.schema, a.output, a.config, a.tagTables, a.macros, a.flatSums, a.noEnumSuffix,
    a.noTreeMethods, none, false⟩

/-- What is gathered from the start on is finished exactly if it is what was meant. -/
theorem foldlM_read_finish {a : Arguments} :
    (settings.foldlM read {}).bind finish = some a ↔ Meant settings a := by
  rw [Option.bind_eq_some_iff]
  constructor
  · rintro ⟨d, hd, h⟩
    have hadds := foldlM_read.mp hd
    unfold finish at h
    split at h
    · next schema _ hschema =>
      cases h
      -- every option with a path has taken at most one value, which the draft holds
      have hpaths : ∀ v, v ≠ .flatSum → valuesIn v settings = (d.path v).toList := fun v hv => by
        cases v <;> simpa [Draft.path] using (hadds.paths _ hv).symm
      refine ⟨hadds.named, ?_, fun v hv => ?_, ?_, fun f => ?_⟩
      · simpa [hschema] using hadds.schema.symm
      · rw [hpaths v hv]
        cases v <;> rfl
      · simpa using hadds.flatSums.symm
      · have hflag := hadds.flags f
        cases f <;> simpa [Draft.flag, Arguments.flag] using hflag.symm
    · cases h
  · intro h
    -- what is meant is itself the draft to end at
    refine ⟨ofArguments a, foldlM_read.mpr ⟨h.named, ?_, fun v hv => ?_, ?_, fun f => ?_, rfl, rfl⟩,
      rfl⟩
    · rw [h.schema]
      rfl
    · rw [h.paths v hv]
      cases v <;> rfl
    · rw [h.flatSums]
      rfl
    · rw [h.flags f]
      cases f <;> simp [Draft.flag, ofArguments, Arguments.flag]

end Draft

/-- **Arguments are read exactly if they say something that has a meaning**, and that is
what they are read as. -/
theorem parse?_eq_some {arguments : List String} {a : Arguments} :
    parse? arguments = some a ↔ ∃ settings, Says arguments settings ∧ Meant settings a := by
  constructor
  · intro h
    obtain ⟨settings, hsaid, h⟩ := Draft.exists_said rfl rfl h
    exact ⟨settings, hsaid, Draft.foldlM_read_finish.mp h⟩
  · rintro ⟨settings, hsaid, h⟩
    exact Draft.foldlM_step_of_said rfl rfl hsaid (Draft.foldlM_read_finish.mpr h)

end Arguments

end CommandLine

end Asdl
