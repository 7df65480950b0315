/-
Files that are written into a tree.

A path is followed through directories, and writing a file neither makes nor removes a
directory.  So a path leads to the same place before and after other files are written:

* `FileTree.Leads` — steps lead from one directory to another, and
  `FileTree.walk_eq_directory`, which says that this is what a walk finds;
* `FileTree.target_eq_ok` — where a file is written, in these terms;
* `FileTree.read_of_target` — what is read at a path is what stands at that place;
* `FileTree.target_congr` — trees with the same directories agree about these places;
* `FileTree.Written` — the tree after some files are written, in terms of the tree before
  them, and `FileTree.Written.cons`, one file more.

Design notes: only the success of a path is the same before and after.  A path through a
file that is missing at first and is written then fails both times, but not for the same
reason.
-/
import Asdl.CommandLine.FileTree
import Asdl.Proofs.Checks

namespace Asdl

namespace CommandLine

namespace FileTree

variable {t u v : FileTree} {p q : Place} {path : String}

/-! ### Entries -/

theorem lookup_filter_ne {entries : List (Place × Entry)} (h : q ≠ p) :
    (entries.filter (·.1 != p)).lookup q = entries.lookup q := by
  induction entries with
  | nil => rfl
  | cons entry entries ih =>
    by_cases hentry : entry.1 = p
    · have hskip : (q == entry.1) = false := by simp [hentry, h]
      rw [List.filter_cons_of_neg (by simp [hentry]), ih, List.lookup_cons, hskip]
    · rw [List.filter_cons_of_pos (by simp [hentry]), List.lookup_cons, List.lookup_cons, ih]

theorem entry?_put_self {e : Entry} (hp : p.names ≠ []) :
    FileTree.entry? (t.put p e) p = some e := by
  simp [put, entry?, hp]

theorem entry?_put_ne {e : Entry} (h : q ≠ p) :
    FileTree.entry? (t.put p e) q = t.entry? q := by
  have hne : (q == p) = false := by simp [h]
  rw [put, entry?, entry?, List.lookup_cons, hne, lookup_filter_ne h]

/-! ### Directories -/

/-- Steps lead from a directory to a directory. -/
inductive Leads (t : FileTree) : Place → List String → Place → Prop where
  | here {p : Place} : Leads t p [] p
  | stay {p q : Place} {step : String} {rest : List String} :
      step = "" ∨ step = "." → Leads t p rest q → Leads t p (step :: rest) q
  | up {p q : Place} {rest : List String} :
      Leads t p.parent rest q → Leads t p (".." :: rest) q
  | down {p q : Place} {step : String} {rest : List String} :
      step ∉ ["", ".", ".."] → step.utf8ByteSize ≤ nameLimit →
      t.entry? (p.child step) = some .directory → Leads t (p.child step) rest q →
      Leads t p (step :: rest) q

theorem walk_stay {step : String} (h : step = "" ∨ step = ".") (rest : List String) :
    t.walk p (step :: rest) = t.walk p rest := by
  rw [walk.eq_def]
  exact if_pos h

theorem walk_up (rest : List String) : t.walk p (".." :: rest) = t.walk p.parent rest := by
  rw [walk.eq_def]
  rfl

theorem enter_eq_ok {name : String} {found : Option Entry} :
    t.enter p name = .ok (q, found) ↔
      name.utf8ByteSize ≤ nameLimit ∧ p.child name = q ∧ t.entry? (p.child name) = found := by
  rw [enter]
  split
  · next h => simp [Nat.not_le.mpr h]
  · next h => simp [Nat.not_lt.mp h]

/-- A step with a name leads into a directory, or it is the last one. -/
theorem walk_named {step : String} (hstep : step ∉ ["", ".", ".."])
    (hsize : step.utf8ByteSize ≤ nameLimit) (rest : List String) :
    t.walk p (step :: rest) =
      match t.entry? (p.child step), rest with
      | some .directory, rest => t.walk (p.child step) rest
      | found, [] => .ok (p.child step, found)
      | some (.file _), _ :: _ => .error .notDirectory
      | none, _ :: _ => .error .missing := by
  simp only [List.mem_cons, List.not_mem_nil, not_or] at hstep
  have henter : t.enter p step = .ok (p.child step, t.entry? (p.child step)) :=
    enter_eq_ok.mpr ⟨hsize, rfl, rfl⟩
  rw [walk.eq_def]
  simp only [hstep, or_self, if_false, henter]
  rcases t.entry? (p.child step) with _ | _ | _ <;> cases rest <;> rfl

theorem walk_long {step : String} (hstep : step ∉ ["", ".", ".."])
    (hsize : nameLimit < step.utf8ByteSize) (rest : List String) :
    t.walk p (step :: rest) = .error .nameTooLong := by
  simp only [List.mem_cons, List.not_mem_nil, not_or] at hstep
  have henter : t.enter p step = .error .nameTooLong := if_pos hsize
  rw [walk.eq_def]
  simp only [hstep, or_self, if_false, henter]

theorem Leads.walk_append {before : List String} (h : t.Leads p before q) (rest : List String) :
    t.walk p (before ++ rest) = t.walk q rest := by
  induction h with
  | here => rfl
  | stay hstep _ ih => rw [List.cons_append, walk_stay hstep, ih]
  | up _ ih => rw [List.cons_append, walk_up, ih]
  | down hstep hsize hdir _ ih => rw [List.cons_append, walk_named hstep hsize, hdir, ← ih]

/-- **A walk finds a directory exactly if its steps lead there.** -/
theorem walk_eq_directory {steps : List String} :
    t.walk p steps = .ok (q, some .directory) ↔ t.Leads p steps q := by
  constructor
  · intro h
    induction steps generalizing p with
    | nil =>
      cases h
      exact .here
    | cons step rest ih =>
      by_cases hstay : step = "" ∨ step = "."
      · rw [walk_stay hstay] at h
        exact .stay hstay (ih h)
      · by_cases hup : step = ".."
        · subst hup
          rw [walk_up] at h
          exact .up (ih h)
        · have hstep : step ∉ ["", ".", ".."] := by simp_all
          -- only a name can lead to something that is no directory
          by_cases hsize : step.utf8ByteSize ≤ nameLimit
          · rw [walk_named hstep hsize] at h
            split at h
            · next hdir => exact .down hstep hsize hdir (ih h)
            · next hfound =>
              obtain ⟨-, hdir⟩ := Prod.mk.inj (Except.ok.inj h)
              exact absurd hdir hfound
            · cases h
            · cases h
          · rw [walk_long hstep (Nat.not_le.mp hsize)] at h
            cases h
  · intro h
    simpa [walk] using h.walk_append []

theorem walkDirectory_eq_ok {steps : List String} :
    t.walkDirectory p steps = .ok q ↔ t.Leads p steps q := by
  rw [← walk_eq_directory, walkDirectory, bind_eq_ok]
  constructor
  · rintro ⟨⟨next, found⟩, hwalk, h⟩
    match found with
    | some .directory =>
      rw [hwalk, pure_eq_ok.mp h]
    | some (.file _) => cases h
    | none => cases h
  · intro h
    exact ⟨_, h, rfl⟩

/-! ### Where files are written -/

theorem checkPath_eq_ok : checkPath path = .ok () ↔ path.utf8ByteSize ≤ pathLimit := by
  rw [checkPath]
  split
  · next h => simp [h]
  · next h => simp [Nat.not_lt.mp h]

/-- The last step of a path without slashes behind it. -/
theorem lastStep?_eq_some {before : List String} {last : String} :
    lastStep? path = some (before, last, false) ↔ steps path = before ++ [last] ∧ last ≠ "" := by
  have hreverse :
      steps path = before ++ [last] ↔ (steps path).reverse = last :: before.reverse := by
    rw [List.reverse_eq_iff, List.reverse_cons, List.reverse_reverse]
  rw [hreverse, lastStep?]
  constructor
  · intro h
    split at h
    · cases h
    · next first others hdrop =>
      simp only [Option.some.injEq, Prod.mk.injEq, bne_eq_false_iff_eq] at h
      obtain ⟨rfl, rfl, hlength⟩ := h
      -- nothing is dropped, since nothing is missing
      have hsuffix := List.dropWhile_suffix (l := (steps path).reverse) (· == "")
      have hall := hsuffix.eq_of_length (by simp [hdrop, hlength])
      rw [hdrop] at hall
      refine ⟨by rw [List.reverse_reverse, ← hall], ?_⟩
      have hhead := List.head?_dropWhile_not (· == "") (steps path).reverse
      simpa [hdrop] using hhead
  · rintro ⟨hall, hlast⟩
    have hlength : (steps path).length = before.length + 1 := by
      rw [← List.length_reverse, hall]
      simp
    have hdrop : (steps path).reverse.dropWhile (· == "") = last :: before.reverse := by
      rw [hall, List.dropWhile_cons_of_neg (by simpa using hlast)]
    rw [hdrop]
    simp [hlength]

/-- **A file is written under the last step of its path**, in the directory that the
steps before it lead to, where no directory has that name. -/
theorem target_eq_ok :
    t.target path = .ok p ↔
      path.utf8ByteSize ≤ pathLimit ∧ ∃ before last d, steps path = before ++ [last] ∧
        last ∉ ["", ".", ".."] ∧ last.utf8ByteSize ≤ nameLimit ∧
        t.Leads (startOf path) before d ∧ p = d.child last ∧ t.entry? p ≠ some .directory := by
  rw [target, seq_eq_ok, checkPath_eq_ok]
  refine and_congr_right fun _ => ?_
  constructor
  · intro h
    -- the steps of `target` in order: the last step, its directory, its name, what is there
    split at h
    · cases h
    · next before last slashes hlast =>
      obtain ⟨d, hd, h⟩ := bind_eq_ok.mp h
      split at h
      · cases h
      · next hstep =>
        obtain ⟨⟨place, found⟩, henter, h⟩ := bind_eq_ok.mp h
        simp only [not_or, Bool.not_eq_true] at hstep
        obtain ⟨hdot, hdots, rfl⟩ := hstep
        obtain ⟨hsteps, hempty⟩ := lastStep?_eq_some.mp hlast
        obtain ⟨hsize, rfl, hfound⟩ := enter_eq_ok.mp henter
        refine ⟨before, last, d, hsteps, by simp [hempty, hdot, hdots], hsize,
          walkDirectory_eq_ok.mp hd, ?_⟩
        -- only a directory is in the way of a file
        match found with
        | some .directory => cases h
        | some (.file _) =>
          obtain rfl := pure_eq_ok.mp h
          exact ⟨rfl, by simp [hfound]⟩
        | none =>
          obtain rfl := pure_eq_ok.mp h
          exact ⟨rfl, by simp [hfound]⟩
  · rintro ⟨before, last, d, hsteps, hlast, hsize, hd, rfl, hfound⟩
    simp only [List.mem_cons, List.not_mem_nil, not_or] at hlast
    rw [lastStep?_eq_some.mpr ⟨hsteps, hlast.1⟩]
    refine bind_eq_ok.mpr ⟨d, walkDirectory_eq_ok.mpr hd, ?_⟩
    rw [if_neg (by simp [hlast])]
    refine bind_eq_ok.mpr ⟨_, enter_eq_ok.mpr ⟨hsize, rfl, rfl⟩, ?_⟩
    split
    · next h => exact absurd (Prod.mk.inj h).2 hfound
    · next h => rw [(Prod.mk.inj h).1]; rfl

theorem target_names_ne_nil (h : t.target path = .ok p) : p.names ≠ [] := by
  obtain ⟨-, _, _, _, -, -, -, -, rfl, -⟩ := target_eq_ok.mp h
  simp [Place.child]

theorem target_not_directory (h : t.target path = .ok p) : t.entry? p ≠ some .directory := by
  obtain ⟨-, _, _, _, -, -, -, -, -, hfound⟩ := target_eq_ok.mp h
  exact hfound

/-- What is read at a path is the file at its place. -/
theorem read_of_target (h : t.target path = .ok p) {contents : ByteArray}
    (hp : t.entry? p = some (.file contents)) : t.read path = .ok contents := by
  obtain ⟨hpath, before, last, d, hsteps, hlast, hsize, hd, rfl, hfound⟩ := target_eq_ok.mp h
  have hwalk : t.walk (startOf path) (steps path) = .ok (d.child last, some (.file contents)) := by
    rw [hsteps, hd.walk_append, walk_named hlast hsize, hp]
  rw [read, checkPath_eq_ok.mpr hpath, hwalk]
  rfl

/-! ### Trees with the same directories -/

/-- Whatever is a directory of one tree is a directory of the other. -/
def SameDirectories (t u : FileTree) : Prop :=
  ∀ p, t.entry? p = some .directory ↔ u.entry? p = some .directory

theorem SameDirectories.symm (h : SameDirectories t u) : SameDirectories u t := fun p => (h p).symm

theorem SameDirectories.trans (h : SameDirectories t u) (h' : SameDirectories u v) :
    SameDirectories t v := fun p => (h p).trans (h' p)

theorem Leads.congr (h : SameDirectories t u) {steps : List String} (hp : t.Leads p steps q) :
    u.Leads p steps q := by
  induction hp with
  | here => exact .here
  | stay hstep _ ih => exact .stay hstep ih
  | up _ ih => exact .up ih
  | down hstep hsize hdir _ ih => exact .down hstep hsize ((h _).mp hdir) ih

theorem target_congr (h : SameDirectories t u) : t.target path = .ok p ↔ u.target path = .ok p := by
  -- the two trees have the same part in it, so one direction is enough
  have hone : ∀ {t u : FileTree}, SameDirectories t u → t.target path = .ok p →
      u.target path = .ok p := by
    intro t u h ht
    obtain ⟨hpath, before, last, d, hsteps, hlast, hsize, hd, hplace, hfound⟩ := target_eq_ok.mp ht
    exact target_eq_ok.mpr ⟨hpath, before, last, d, hsteps, hlast, hsize, hd.congr h, hplace,
      mt (h p).mpr hfound⟩
  exact ⟨hone h, hone h.symm⟩

/-- A file that is written leaves the directories as they are. -/
theorem sameDirectories_put (h : t.target path = .ok p) (contents : ByteArray) :
    SameDirectories t (t.put p (.file contents)) := by
  intro q
  by_cases hq : q = p
  · subst hq
    rw [entry?_put_self (target_names_ne_nil h)]
    simp [target_not_directory h]
  · rw [entry?_put_ne hq]

/-! ### Several files -/

/-- A tree after files are written, one after another.  Their places are those that the
tree had for them at first. -/
structure Written (t : FileTree) (files : List (String × String)) (u : FileTree) : Prop where
  placed : ∀ f ∈ files, ∃ p, t.target f.1 = .ok p
  directories : SameDirectories t u
  /-- The last file for a place stands there. -/
  last : ∀ before f later p, files = before ++ f :: later → t.target f.1 = .ok p →
    (∀ g ∈ later, t.target g.1 ≠ .ok p) → u.entry? p = some (.file f.2.toUTF8)
  /-- Everything else is as it was. -/
  others : ∀ p, (∀ f ∈ files, t.target f.1 ≠ .ok p) → u.entry? p = t.entry? p

namespace Written

variable {files : List (String × String)}

theorem nil : Written t [] t where
  placed := by simp
  directories := fun _ => Iff.rfl
  last := by simp
  others := fun _ _ => rfl

/-- One file before the others. -/
theorem cons {f : String × String} (hp : t.target f.1 = .ok p)
    (h : Written (t.put p (.file f.2.toUTF8)) files u) : Written t (f :: files) u := by
  have hsame := sameDirectories_put hp f.2.toUTF8
  have htarget : ∀ g q, (t.put p (.file f.2.toUTF8)).target g = .ok q ↔ t.target g = .ok q :=
    fun g q => (target_congr hsame).symm
  refine ⟨fun g hg => ?_, hsame.trans h.directories, fun before g later q hfiles hq hlater => ?_,
    fun q hq => ?_⟩
  · rcases List.mem_cons.mp hg with rfl | hg
    · exact ⟨p, hp⟩
    · obtain ⟨q, hq⟩ := h.placed g hg
      exact ⟨q, (htarget _ q).mp hq⟩
  · cases before with
    | nil =>
      -- no file after the first one goes to its place, so the others keep it
      obtain ⟨rfl, rfl⟩ := List.cons.inj hfiles
      obtain rfl : p = q := Except.ok.inj (hp.symm.trans hq)
      rw [h.others p fun g hg hgp => hlater g hg ((htarget _ p).mp hgp),
        entry?_put_self (target_names_ne_nil hp)]
    | cons _ before =>
      obtain ⟨rfl, rfl⟩ := List.cons.inj hfiles
      exact h.last before g later q rfl ((htarget _ q).mpr hq)
        fun k hk hkq => hlater k hk ((htarget _ q).mp hkq)
  · have hne : q ≠ p := by
      rintro rfl
      exact hq f List.mem_cons_self hp
    rw [h.others q fun g hg hgq => hq g (List.mem_cons_of_mem _ hg) ((htarget _ q).mp hgq),
      entry?_put_ne hne]

/-- **A file is read back under its path**, unless a later one went to the same place. -/
theorem read (h : Written t files u) {before later : List (String × String)} {f : String × String}
    (hfiles : files = before ++ f :: later) (hlater : ∀ g ∈ later, t.target g.1 ≠ t.target f.1) :
    u.read f.1 = .ok f.2.toUTF8 := by
  obtain ⟨p, hp⟩ := h.placed f (by simp [hfiles])
  rw [hp] at hlater
  exact read_of_target ((target_congr h.directories).mp hp)
    (h.last before f later p hfiles hp hlater)

end Written

end FileTree

end CommandLine

end Asdl
