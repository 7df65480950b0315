/-
Which texts are read as which options.

Options may be written in many ways: as an object with its keys in any order, other keys
among them, or as an array; with blanks and escapes at will; with or without what is usual
anyway.  All of these texts are read as the same options, unless a key is given twice.

* `Reading.Leads`, `Reading.Fails` — where some tokens lead in the reading;
* `Reading.skips_of_written` — a value that nobody looks at is passed over, however deep it is
  nested;
* `Writes`, `Gives` — a text gives the value of a key;
* `Reading.leads_value`, `Reading.leads_entry` — what one value and one member of an object do;
* `Reading.leads_entries`, `Reading.fails_entries` — what all members of an object do;
* `ofJson_anySpelling` — the options of a text.

Design notes: what a container does follows from what its parts do, because its tokens are
those of the parts with commas between.  Of the members that are read, the reading keeps
the keys that are given and the values taken over for them, so one member is one step.
-/
import Asdl.Options.Json
import Asdl.Proofs.JsonTexts
import Asdl.Proofs.SortedMaps

namespace Asdl

namespace Options

open Json

/-! ### Steps -/

namespace Reading

/-- Reads tokens one after the other. -/
def run (r : Reading) (ts : List Json.Token) : Except JsonFault Reading := ts.foldlM step r

/-- The tokens lead from one place of the reading to another. -/
def Leads (r : Reading) (ts : List Json.Token) (r' : Reading) : Prop := r.run ts = .ok r'

/-- The reading ends with a fault within the tokens. -/
def Fails (r : Reading) (ts : List Json.Token) (f : JsonFault) : Prop := r.run ts = .error f

section

variable {r r' r'' : Reading} {t : Json.Token} {ts us : List Json.Token} {f : JsonFault}

theorem run_append (h : r.Leads ts r') (us : List Json.Token) : r.run (ts ++ us) = r'.run us := by
  rw [run, List.foldlM_append, show ts.foldlM step r = .ok r' from h]
  rfl

theorem Leads.append (h : r.Leads ts r') (h' : r'.Leads us r'') : r.Leads (ts ++ us) r'' :=
  (run_append h us).trans h'

theorem Leads.fails (h : r.Leads ts r') (h' : r'.Fails us f) : r.Fails (ts ++ us) f :=
  (run_append h us).trans h'

theorem Leads.cons (h : r.step t = .ok r') (h' : r'.Leads ts r'') : r.Leads (t :: ts) r'' := by
  rw [Leads, run, List.foldlM_cons, h]
  exact h'

theorem fails_cons (h : r.step t = .error f) (ts : List Json.Token) : r.Fails (t :: ts) f := by
  rw [Fails, run, List.foldlM_cons, h]
  rfl

end

theorem leads_nil (r : Reading) : r.Leads [] r := rfl

theorem leads_one {r r' : Reading} {t : Json.Token} (h : r.step t = .ok r') : r.Leads [t] r' :=
  .cons h (leads_nil r')

/-! ### Values that nobody looks at -/

/-- Where the reading goes on, inside a value or behind it. -/
def resume (o : Options) (given : List Key) : Option Ignored → Reading
  | none => .more o (.object given)
  | some v => .ignored o given v

variable {o : Options} {given : List Key}

theorem step_ignored {v : Ignored} {w : Option Ignored} {t : Json.Token} (h : v.step t = .ok w) :
    (ignored o given v).step t = .ok (resume o given w) := by
  show readIgnored o given v t = _
  rw [readIgnored, h]
  cases w <;> rfl

/-- The text is passed over: a value wherever one may stand, and the parts of a container
with the mark that closes it. -/
def Skips (o : Options) (given : List Key) : Part → List Char → Prop
  | .value, t => ∀ opened want, want = .value ∨ want = .firstItem →
      (ignored o given ⟨opened, want⟩).Leads (tokens t) (resume o given (Ignored.complete opened))
  | .items ts, t => ∀ opened want, want = .firstItem ∨ want = .value ∧ ts ≠ [] →
      (ignored o given ⟨.array :: opened, want⟩).Leads (tokens t ++ [.mark .closeBracket])
        (resume o given (Ignored.complete opened))
  | .members ms, t => ∀ opened want, want = .firstKey ∨ want = .key ∧ ms ≠ [] →
      (ignored o given ⟨.object :: opened, want⟩).Leads (tokens t ++ [.mark .closeBrace])
        (resume o given (Ignored.complete opened))

/-- Where a value or the end of an array may stand, all but the end is read as a value. -/
theorem step_value {opened : List Container} {want : Want}
    (hwant : want = .value ∨ want = .firstItem) {u : Json.Token} (hu : u ≠ .mark .closeBracket) :
    Ignored.step ⟨opened, want⟩ u = Ignored.readValue opened u := by
  rcases hwant with rfl | rfl
  · rfl
  · cases u with
    | mark m =>
      cases m with
      | closeBracket => exact absurd rfl hu
      | _ => rfl
    | _ => rfl

/-- A value of one token. -/
theorem skips_token {t : List Char} {u : Json.Token} (ht : tokens t = [u])
    (hread : ∀ opened, Ignored.readValue opened u = .ok (Ignored.complete opened)) :
    Skips o given .value t := by
  intro opened want hwant
  have hu : u ≠ .mark .closeBracket := by
    rintro rfl
    cases hread []
  rw [ht]
  exact leads_one (step_ignored ((step_value hwant hu).trans (hread opened)))

theorem step_key {opened : List Container} {want : Want} (hwant : want = .firstKey ∨ want = .key)
    (v : Except JsonFault String) :
    Ignored.step ⟨opened, want⟩ (.text v (.ok ())) = .ok (some ⟨opened, .colon⟩) := by
  rcases hwant with rfl | rfl <;> rfl

/-- A member is passed over up to what follows it. -/
theorem leads_member {opened : List Container} {want : Want} {k t : List Char}
    (hwant : want = .firstKey ∨ want = .key) (hskips : Skips o given .value t) :
    (ignored o given ⟨.object :: opened, want⟩).Leads (memberTokens (k, t))
      (ignored o given ⟨.object :: opened, .more⟩) :=
  .cons (step_ignored (step_key hwant _)) <|
    .cons (step_ignored rfl) (hskips (.object :: opened) .value (.inl rfl))

/-- **Whatever is JSON is passed over**, however deep it is nested. -/
theorem skips_of_written {p : Part} {t : List Char} (h : Written p t) : Skips o given p t := by
  -- by the grammar of JSON; every part is passed over from any stack of open containers
  induction h with
  | null => exact skips_token tokens_null fun _ => rfl
  | flag b => exact skips_token (tokens_flag b) fun _ => rfl
  | number h =>
    obtain ⟨n, hn⟩ := exists_tokens_number h
    have htokens := hn [] ends_nil
    rw [List.append_nil, tokens_nil] at htokens
    exact skips_token htokens fun _ => rfl
  | text h => exact skips_token (by rw [tokens_text h, tokens_nil]) fun _ => rfl
  -- the bracket is pushed on the stack and the items pop it again
  | array h ih =>
    intro opened want hwant
    rw [h.tokens_array]
    exact .cons (step_ignored (step_value hwant (by simp))) (ih opened .firstItem (.inl rfl))
  | object h ih =>
    intro opened want hwant
    rw [h.tokens_object]
    exact .cons (step_ignored (step_value hwant (by simp))) (ih opened .firstKey (.inl rfl))
  -- a container can end at once only where nothing is asked for yet
  | noItems ha =>
    rintro opened want (rfl | ⟨-, hne⟩)
    · rw [tokens_of_blanks ha]
      exact leads_one (step_ignored rfl)
    · exact absurd rfl hne
  | @item a t b ha h hb ih =>
    intro opened want hwant
    have hvalue : want = .value ∨ want = .firstItem := hwant.symm.imp_left And.left
    rw [(Written.item ha h hb).tokens_items, List.map_singleton, List.intercalate_singleton]
    exact (ih (.array :: opened) want hvalue).append (leads_one (step_ignored rfl))
  -- one item, the comma, and the rest where an item is asked for and no end is allowed
  | @items a t b u r ts ha h hb hr ih ihr =>
    intro opened want hwant
    have hvalue : want = .value ∨ want = .firstItem := hwant.symm.imp_left And.left
    rw [tokens_padded ha h.cuts hb (ends_comma r), tokens_comma, List.append_assoc]
    refine (ih (.array :: opened) want hvalue).append (.cons (step_ignored rfl) ?_)
    exact ihr opened .value (.inr ⟨rfl, by simp⟩)
  | noMembers ha =>
    rintro opened want (rfl | ⟨-, hne⟩)
    · rw [tokens_of_blanks ha]
      exact leads_one (step_ignored rfl)
    · exact absurd rfl hne
  | @member a k b c t d ha hk hb hc h hd ih =>
    intro opened want hwant
    rw [(Written.member ha hk hb hc h hd).tokens_members, List.map_singleton,
      List.intercalate_singleton]
    exact (leads_member (hwant.imp_right And.left) ih).append (leads_one (step_ignored rfl))
  | @members a k b c t d r m ms ha hk hb hc h hd hr ih ihr =>
    intro opened want hwant
    rw [tokens_key ha hk hb, tokens_padded hc h.cuts hd (ends_comma r), tokens_comma,
      ← List.cons_append, ← List.cons_append, List.append_assoc]
    refine (leads_member (hwant.imp_right And.left) ih).append (.cons (step_ignored rfl) ?_)
    exact ihr opened .key (.inr ⟨rfl, by simp⟩)

end Reading

/-! ### Values of keys -/

def flagOf (o : Options) : FlagKey → Bool
  | .enumSuffix => o.enumSuffix
  | .treeMethods => o.treeMethods
  | .sidecar => o.sidecar

def namesOf (o : Options) : NamesKey → NameSet
  | .flatSums => o.flatSums
  | .hooks => o.hooks

/-- The options have the same value for a key. -/
def Agrees (o c : Options) : Key → Prop
  | .flag k => o.flagOf k = c.flagOf k
  | .names k => o.namesOf k = c.namesOf k

/-- The options with the value that others have for a key. -/
def take (o c : Options) : Key → Options
  | .flag k => o.setFlag (c.flagOf k) k
  | .names k => o.setNames (c.namesOf k) k

theorem flagOf_setFlag (o : Options) (b : Bool) (j k : FlagKey) :
    (o.setFlag b k).flagOf j = if j = k then b else o.flagOf j := by
  cases j <;> cases k <;> rfl

theorem namesOf_setNames (o : Options) (s : NameSet) (j k : NamesKey) :
    (o.setNames s k).namesOf j = if j = k then s else o.namesOf j := by
  cases j <;> cases k <;> rfl

theorem namesOf_setFlag (o : Options) (b : Bool) (j : NamesKey) (k : FlagKey) :
    (o.setFlag b k).namesOf j = o.namesOf j := by
  cases j <;> cases k <;> rfl

theorem flagOf_setNames (o : Options) (s : NameSet) (j : FlagKey) (k : NamesKey) :
    (o.setNames s k).flagOf j = o.flagOf j := by
  cases j <;> cases k <;> rfl

theorem agrees_take (o c : Options) (k : Key) : (o.take c k).Agrees c k := by
  cases k with
  | flag k => exact (flagOf_setFlag o _ k k).trans (if_pos rfl)
  | names k => exact (namesOf_setNames o _ k k).trans (if_pos rfl)

theorem agrees_take_of_ne (o c : Options) {j k : Key} (h : j ≠ k) : (o.take c k).Agrees o j := by
  cases j with
  | flag j =>
    cases k with
    | flag k => exact (flagOf_setFlag o _ j k).trans (if_neg fun hjk => h (congrArg _ hjk))
    | names k => exact flagOf_setNames o _ j k
  | names j =>
    cases k with
    | flag k => exact namesOf_setFlag o _ j k
    | names k => exact (namesOf_setNames o _ j k).trans (if_neg fun hjk => h (congrArg _ hjk))

/-- The options with the values that others have for some keys. -/
def takeAll (o c : Options) (ks : List Key) : Options := ks.foldl (fun o k => o.take c k) o

theorem takeAll_append (o c : Options) (ks js : List Key) :
    o.takeAll c (ks ++ js) = (o.takeAll c ks).takeAll c js :=
  List.foldl_append

theorem Agrees.refl (o : Options) (k : Key) : o.Agrees o k := by
  cases k <;> rfl

theorem Agrees.trans {o p q : Options} {k : Key} (h : o.Agrees p k) (h' : p.Agrees q k) :
    o.Agrees q k := by
  cases k with
  | flag k => exact Eq.trans h h'
  | names k => exact Eq.trans h h'

/-- Options are given by their values for the keys. -/
theorem eq_of_agrees {o c : Options} (h : ∀ k, o.Agrees c k) : o = c := by
  obtain ⟨o₁, o₂, o₃, o₄, o₅⟩ := o
  obtain ⟨c₁, c₂, c₃, c₄, c₅⟩ := c
  have h₁ : o₁ = c₁ := h (.flag .enumSuffix)
  have h₂ : o₂ = c₂ := h (.flag .treeMethods)
  have h₃ : o₃ = c₃ := h (.names .flatSums)
  have h₄ : o₄ = c₄ := h (.flag .sidecar)
  have h₅ : o₅ = c₅ := h (.names .hooks)
  rw [h₁, h₂, h₃, h₄, h₅]

theorem agrees_takeAll (o c : Options) (ks : List Key) (k : Key) :
    (k ∈ ks → (o.takeAll c ks).Agrees c k) ∧ (k ∉ ks → (o.takeAll c ks).Agrees o k) := by
  induction ks generalizing o with
  | nil => exact ⟨fun hk => absurd hk List.not_mem_nil, fun _ => Agrees.refl o k⟩
  | cons j ks ih =>
    obtain ⟨hmem, hrest⟩ := ih (o.take c j)
    by_cases hk : k ∈ ks
    · exact ⟨fun _ => hmem hk, fun hnot => absurd (List.mem_cons_of_mem _ hk) hnot⟩
    · -- behind its last value, nothing changes a key any more
      refine ⟨fun hmem => ?_, fun hnot => ?_⟩
      · have hkj : k = j := (List.mem_cons.mp hmem).resolve_right hk
        exact (hrest hk).trans (hkj ▸ agrees_take o c k)
      · exact (hrest hk).trans (agrees_take_of_ne o c (List.ne_of_not_mem_cons hnot))

/-- The value that the options have for a key needs not be written. -/
def Usual (c : Options) (k : Key) : Prop := Agrees {} c k

/-- All that is not usual was taken over. -/
theorem takeAll_eq {c : Options} {ks : List Key} (h : ∀ k, k ∉ ks → c.Usual k) :
    takeAll {} c ks = c := by
  refine eq_of_agrees fun k => ?_
  obtain ⟨hmem, hrest⟩ := agrees_takeAll {} c ks k
  by_cases hk : k ∈ ks
  · exact hmem hk
  · exact (hrest hk).trans (h k hk)

/-- The text is the value that the options have for a key.  Names may come in any order and
more than once. -/
def Writes (c : Options) (t : List Char) : Key → Prop
  | .flag k => t = flagText (c.flagOf k)
  | .names k => ∃ ns ts, IsArray ts t ∧ List.Forall₂ IsString ns ts ∧
      ∀ n, n ∈ ns ↔ (c.namesOf k).contains n = true

/-- The member has the value that the options have for its key, if the key is known. -/
def Gives (c : Options) (m : String × List Char) : Prop :=
  ∀ k : Key, m.1 = k.name → c.Writes m.2 k

theorem Key.ofName?_eq_some {n : String} {k : Key} : Key.ofName? n = some k ↔ n = k.name := by
  constructor
  · intro h
    have hname : (k.name == n) = true := List.find?_some (p := fun j : Key => j.name == n) h
    exact (beq_iff_eq.mp hname).symm
  · rintro rfl
    exact Key.ofName?_name k

theorem Writes.written {c : Options} {k : Key} {t : List Char} (h : c.Writes t k) :
    Written .value t := by
  cases k with
  | flag k =>
    have ht : t = flagText (c.flagOf k) := h
    exact ht ▸ .flag _
  | names k =>
    obtain ⟨ns, ts, ht, -⟩ := h
    exact ht.written

theorem Writes.gives {c : Options} {k : Key} {t : List Char} (h : c.Writes t k) :
    c.Gives (k.name, t) := by
  intro j hj
  have hkey := Key.ofName?_eq_some.mpr hj
  rw [Key.ofName?_name] at hkey
  exact Option.some.inj hkey ▸ h

theorem gives_unknown (c : Options) {n : String} (h : Key.ofName? n = none) (t : List Char) :
    c.Gives (n, t) := by
  intro k hk
  rw [Key.ofName?_eq_some.mpr hk] at h
  cases h

/-- The keys of an object that are known, in order. -/
def keysOf (ms : List (String × List Char)) : List Key := ms.filterMap fun m => Key.ofName? m.1

theorem keysOf_cons (m : String × List Char) (ms : List (String × List Char)) :
    keysOf (m :: ms) = (Key.ofName? m.1).toList ++ keysOf ms := by
  rw [keysOf, List.filterMap_cons]
  cases Key.ofName? m.1 <;> rfl

theorem count_keysOf (k : Key) (ms : List (String × List Char)) :
    (keysOf ms).count k = (ms.map Prod.fst).count k.name := by
  induction ms with
  | nil => rfl
  | cons m ms ih =>
    rw [keysOf_cons, List.count_append, List.map_cons, List.count_cons, ih]
    -- keys and their names correspond, and a name that is no key counts on neither side
    cases hname : Key.ofName? m.1 with
    | none =>
      have hne : m.1 ≠ k.name := fun h => by
        rw [Key.ofName?_eq_some.mpr h] at hname
        cases hname
      simp [hne]
    | some j =>
      by_cases hj : j = k
      · have hmk : m.1 = k.name := hj ▸ Key.ofName?_eq_some.mp hname
        simp [hj, hmk, Nat.add_comm]
      · have hne : m.1 ≠ k.name := fun h => by
          rw [Key.ofName?_eq_some.mpr h] at hname
          exact hj (Option.some.inj hname).symm
        simp [hj, hne]

section

variable {given : List Key} {m : String × List Char}

/-- A key that is read moves from the members to come to the keys that are given. -/
theorem count_keysOf_cons (given : List Key) (m : String × List Char)
    (ms : List (String × List Char)) (k : Key) :
    ((Key.ofName? m.1).toList ++ given).count k + (keysOf ms).count k =
      given.count k + (keysOf (m :: ms)).count k := by
  rw [keysOf_cons, List.count_append, List.count_append]
  omega

theorem nodup_given (hgiven : given.Nodup) (hnew : ∀ k ∈ given, m.1 ≠ k.name) :
    ((Key.ofName? m.1).toList ++ given).Nodup := by
  cases hname : Key.ofName? m.1 with
  | none => exact hgiven
  | some k =>
    refine List.nodup_cons.mpr ⟨fun hk => ?_, hgiven⟩
    exact hnew k hk (Key.ofName?_eq_some.mp hname)

end

namespace Reading

variable {o c : Options} {holder : Holder}

/-- The names behind the first, up to the end of their array. -/
theorem leads_names {k : NamesKey} (read : NameSet) (ns : List String) :
    (names o holder k read .more).Leads
      (ns.flatMap (fun n => [.mark .comma, .text (.ok n) (.ok ())]) ++ [.mark .closeBracket])
      (more (o.setNames (read.addAll ns) k) holder) := by
  induction ns generalizing read with
  | nil => exact leads_one rfl
  | cons n ns ih => exact .cons rfl (.cons rfl (ih (read.add n)))

/-- **A value is taken over** where one is read. -/
theorem leads_value {r : Reading} {k : Key} {t : List Char}
    (hr : ∀ u, u ≠ .mark .closeBracket → r.step u = readValue o holder k u) (h : c.Writes t k) :
    r.Leads (tokens t) (more (o.take c k) holder) := by
  cases k with
  | flag k =>
    have ht : t = flagText (c.flagOf k) := h
    rw [ht, tokens_flag]
    exact leads_one (hr _ (by simp))
  | names k =>
    obtain ⟨ns, ts, ht, hns, hmem⟩ := h
    have hmap : ts.map tokens = ns.map fun n => [.text (.ok n) (.ok ())] :=
      map_eq_map (fun _ _ hn => hn.tokens_eq) hns
    -- only the set of the names counts, not their order or how often they are written
    have hset : NameSet.addAll .empty ns = c.namesOf k := by
      refine NameSet.ext_contains fun n => ?_
      rw [NameSet.contains_addAll, ← hmem]
      simp [SortedMap.contains, SortedMap.find?, SortedMap.empty]
    rw [ht.tokens_eq, hmap, take, ← hset]
    refine .cons (hr _ (by simp)) ?_
    cases ns with
    | nil => exact leads_one rfl
    | cons n ns =>
      rw [List.map_cons, intercalate_cons, List.flatMap_map]
      exact .cons rfl (leads_names _ ns)

/-- **A member of an object**: a key that is not given yet takes over its value, and all
other keys are passed over. -/
theorem leads_entry {given : List Key} {first : Bool} {m : String × List Char}
    (h : c.Gives m) (hvalue : Written .value m.2) (hnew : ∀ k ∈ given, m.1 ≠ k.name) :
    (key o given first).Leads (entryTokens m)
      (more (o.takeAll c (Key.ofName? m.1).toList)
        (.object ((Key.ofName? m.1).toList ++ given))) := by
  have hkey : (key o given first).step (.text (.ok m.1) (.ok ())) = readKey o given m.1 := by
    cases first <;> rfl
  cases hname : Key.ofName? m.1 with
  | none =>
    -- an unknown key: its value is passed over
    have hcolon : readKey o given m.1 = .ok (colon o given none) := by rw [readKey, hname]
    refine .cons (hkey.trans hcolon) (.cons rfl ?_)
    exact skips_of_written hvalue [] .value (.inl rfl)
  | some k =>
    have hk := Key.ofName?_eq_some.mp hname
    have hfresh : k ∉ given := fun hmem => hnew k hmem hk
    have hcolon : readKey o given m.1 = .ok (colon o (k :: given) (some k)) := by
      simp [readKey, hname, hfresh]
    refine .cons (hkey.trans hcolon) (.cons rfl ?_)
    exact leads_value (fun _ _ => rfl) (h k hk)

/-! ### Containers -/

/-- The members of an object behind the first, if no key comes twice. -/
theorem leads_entries {given : List Key} {ms : List (String × List Char)}
    (h : ∀ m ∈ ms, c.Gives m) (hvalues : ∀ m ∈ ms, Written .value m.2)
    (honce : ∀ k, given.count k + (keysOf ms).count k ≤ 1) :
    (more o (.object given)).Leads
      (ms.flatMap (fun m => .mark .comma :: entryTokens m) ++ [.mark .closeBrace])
      (done (o.takeAll c (keysOf ms))) := by
  induction ms generalizing o given with
  | nil => exact leads_one rfl
  | cons m ms ih =>
    have hnew : ∀ k ∈ given, m.1 ≠ k.name := by
      intro k hk hname
      -- the key would be counted twice
      have hcount := honce k
      have hpos := List.count_pos_iff.mpr hk
      rw [keysOf_cons, Key.ofName?_eq_some.mpr hname, Option.toList_some, List.singleton_append,
        List.count_cons_self] at hcount
      omega
    rw [List.flatMap_cons, List.append_assoc, List.cons_append, keysOf_cons, takeAll_append]
    refine .cons rfl ?_
    refine (leads_entry (h m List.mem_cons_self) (hvalues m List.mem_cons_self) hnew).append ?_
    refine ih (fun m hm => h m (List.mem_cons_of_mem _ hm))
      (fun m hm => hvalues m (List.mem_cons_of_mem _ hm)) fun k => ?_
    rw [count_keysOf_cons]
    exact honce k

/-- A key that comes twice is refused where it comes the second time. -/
theorem fails_entries {given : List Key} {ms : List (String × List Char)}
    (h : ∀ m ∈ ms, ∃ c : Options, c.Gives m) (hvalues : ∀ m ∈ ms, Written .value m.2)
    (hgiven : given.Nodup) (htwice : ∃ k, 1 < given.count k + (keysOf ms).count k) :
    (more o (.object given)).Fails
      (ms.flatMap (fun m => .mark .comma :: entryTokens m) ++ [.mark .closeBrace]) .mistyped := by
  -- member by member; `given` is what was read, so it holds no key twice yet
  induction ms generalizing o given with
  | nil =>
    obtain ⟨k, hk⟩ := htwice
    have hle := List.nodup_iff_count_le_one.mp hgiven k
    rw [show keysOf [] = [] from rfl, List.count_nil] at hk
    omega
  | cons m ms ih =>
    rw [List.flatMap_cons, List.append_assoc, List.cons_append]
    refine (leads_one rfl : (more o (.object given)).Leads [_] (key o given false)).fails ?_
    by_cases hseen : ∃ k ∈ given, m.1 = k.name
    · -- the second time is here; what follows is not read
      obtain ⟨k, hk, hname⟩ := hseen
      refine fails_cons ?_ _
      show readKey o given m.1 = _
      simp [readKey, Key.ofName?_eq_some.mpr hname, hk]
    · push Not at hseen
      obtain ⟨c, hc⟩ := h m List.mem_cons_self
      refine (leads_entry hc (hvalues m List.mem_cons_self) hseen).fails ?_
      refine ih (fun m hm => h m (List.mem_cons_of_mem _ hm))
        (fun m hm => hvalues m (List.mem_cons_of_mem _ hm)) (nodup_given hgiven hseen) ?_
      obtain ⟨k, hk⟩ := htwice
      exact ⟨k, by rwa [count_keysOf_cons]⟩

/-- The values of an array behind the first, for the keys that are next. -/
theorem leads_values {given left : List Key} {vs : List (List Char)}
    (h : List.Forall₂ (fun k v => c.Writes v k) given vs) :
    (more o (.array (given ++ left))).Leads
      (vs.flatMap (fun v => .mark .comma :: tokens v) ++ [.mark .closeBracket])
      (done (o.takeAll c given)) := by
  induction h generalizing o with
  | nil => cases left <;> exact leads_one rfl
  | @cons k v given vs hv _ ih =>
    rw [List.flatMap_cons, List.append_assoc, List.cons_append]
    have hcomma : (more o (.array (k :: given ++ left))).step (.mark .comma) =
        .ok (value o (.array (given ++ left)) k) := rfl
    exact .cons hcomma ((leads_value (fun _ _ => rfl) hv).append ih)

/-- Where a value or the end of an array may stand, all but the end is read as a value. -/
theorem step_firstValue {left : List Key} {k : Key} {u : Json.Token}
    (hu : u ≠ .mark .closeBracket) :
    (firstValue o left k).step u = readValue o (.array left) k u := by
  cases u with
  | mark m =>
    cases m with
    | closeBracket => exact absurd rfl hu
    | _ => rfl
  | _ => rfl

/-- An object is read as if a comma stood before its first member. -/
theorem run_object {ms : List (String × List Char)} {t : List Char} (ht : IsObject ms t) :
    start.run (tokens t) = (more {} (.object [])).run
      (ms.flatMap (fun m => .mark .comma :: entryTokens m) ++ [.mark .closeBrace]) := by
  rw [ht.tokens_eq]
  cases ms with
  | nil => rfl
  | cons m ms =>
    rw [List.map_cons, intercalate_cons, List.flatMap_map]
    rfl

/-- The values of an array lead to the options that they give. -/
theorem leads_array {given left : List Key} {vs : List (List Char)} {t : List Char}
    (ht : IsArray vs t) (hall : Key.all = given ++ left)
    (h : List.Forall₂ (fun k v => c.Writes v k) given vs) :
    start.Leads (tokens t) (done (takeAll {} c given)) := by
  rw [ht.tokens_eq]
  cases h with
  | nil => exact .cons rfl (leads_one rfl)
  | @cons k v given vs hv hvs =>
    have hopen : start.step (.mark .openBracket) = .ok (firstValue {} (given ++ left) k) := by
      rw [step, hall]
      rfl
    rw [List.map_cons, intercalate_cons, List.flatMap_map, List.append_assoc]
    refine .cons hopen ?_
    exact (leads_value (fun _ hu => step_firstValue hu) hv).append (leads_values hvs)

end Reading

/-! ### Texts -/

theorem ofJson_of_leads {text : String} {c : Options}
    (h : Reading.start.Leads (tokens text.toList) (.done c)) : ofJson text = .ok c := by
  show Reading.run .start (tokens text.toList) >>= Reading.finish = _
  rw [show Reading.run .start (tokens text.toList) = .ok (.done c) from h]
  rfl

theorem ofJson_of_fails {text : String} {f : JsonFault}
    (h : Reading.start.Fails (tokens text.toList) f) : ofJson text = .error f := by
  show Reading.run .start (tokens text.toList) >>= Reading.finish = _
  rw [show Reading.run .start (tokens text.toList) = .error f from h]
  rfl

theorem Key.mem_all (k : Key) : k ∈ Key.all := by
  rcases k with k | k <;> cases k <;> decide

/-- **Any spelling of options is read as these options.**  That goes for an object with the
keys in any order, each known key at most once, what is usual left out at will and any other
keys with any values, and for an array of the values in order, without what is usual at the
end; with blanks and escapes at will.  An object that gives a known key twice is refused as
mistyped. -/
theorem ofJson_anySpelling (c : Options) (text : String) {t : List Char}
    (htext : Holds text.toList t) :
    (∀ ms, IsObject ms t → (∀ m ∈ ms, c.Gives m) →
      (∀ k : Key, (ms.map Prod.fst).count k.name ≤ 1) →
      (∀ k : Key, k.name ∉ ms.map Prod.fst → c.Usual k) → ofJson text = .ok c) ∧
    (∀ given left vs, IsArray vs t → Key.all = given ++ left →
      List.Forall₂ (fun k v => c.Writes v k) given vs → (∀ k ∈ left, c.Usual k) →
      ofJson text = .ok c) ∧
    (∀ ms, IsObject ms t → (∀ m ∈ ms, ∃ d : Options, d.Gives m) →
      (∃ k : Key, 1 < (ms.map Prod.fst).count k.name) → ofJson text = .error .mistyped) := by
  refine ⟨fun ms ht hgives honce husual => ?_, fun given left vs ht hall hwrites husual => ?_,
    fun ms ht hgives htwice => ?_⟩
  · -- the keys of the object change the usual options into `c`, since the others are usual
    have hkeys : takeAll {} c (keysOf ms) = c := by
      refine takeAll_eq fun k hk => husual k fun hname => ?_
      rw [← List.count_eq_zero, count_keysOf] at hk
      exact (List.count_eq_zero.mp hk) hname
    apply ofJson_of_leads
    rw [htext.tokens_eq ht.written, Reading.Leads, Reading.run_object ht, ← hkeys]
    refine Reading.leads_entries hgives ht.value_of_mem fun k => ?_
    rw [List.count_nil, count_keysOf, Nat.zero_add]
    exact honce k
  · -- an array gives the first keys in order, and the ones that are left are usual
    have hkeys : takeAll {} c given = c := by
      refine takeAll_eq fun k hk => husual k ?_
      have hmem := Key.mem_all k
      rw [hall, List.mem_append] at hmem
      exact hmem.resolve_left hk
    apply ofJson_of_leads
    rw [htext.tokens_eq ht.written, ← hkeys]
    exact Reading.leads_array ht hall hwrites
  · apply ofJson_of_fails
    rw [htext.tokens_eq ht.written, Reading.Fails, Reading.run_object ht]
    refine Reading.fails_entries hgives ht.value_of_mem List.nodup_nil ?_
    obtain ⟨k, hk⟩ := htwice
    exact ⟨k, by rwa [List.count_nil, count_keysOf, Nat.zero_add]⟩

def spreadOptions : Options where
  treeMethods := false
  flatSums := NameSet.addAll .empty ["A", "B"]

/-- Names in no order, one of them with an escape and one twice. -/
def spreadNames : String := "[\"B\", \"\\u0041\",\"B\" ]"

/-- A number, and an object with half a character as its key. -/
def spreadIgnored : String := "[-1.5e+3,\x7b\"\\ud800\":null\x7d ]"

theorem spreadNames_writes : spreadOptions.Writes spreadNames.toList (.names .flatSums) := by
  have hspace : Blanks [' '] := blanks_cons (by decide) blanks_nil
  have hB : IsString "B" ['"', 'B', '"'] := ⟨_, spells_plain "B" rfl, rfl⟩
  have hcode : Code ['\\', 'u', '0', '0', '4', '1'] 'A'.toNat :=
    .mk (x := 0) (y := 0) (z := 4) (w := 1) (by decide) (by decide) (by decide) (by decide)
  have hA : IsString "A" ['"', '\\', 'u', '0', '0', '4', '1', '"'] :=
    ⟨_, Spells.code (c := 'A') hcode .nil, rfl⟩
  have hitems : Written (.items [_, _, _]) _ :=
    .items blanks_nil hB.written blanks_nil (.items hspace hA.written blanks_nil
      (.item blanks_nil hB.written hspace))
  refine ⟨["B", "A", "B"], _, ⟨_, hitems, rfl⟩, .cons hB (.cons hA (.cons hB .nil)), fun n => ?_⟩
  show _ ↔ (NameSet.addAll .empty ["A", "B"]).contains n = true
  rw [NameSet.contains_addAll]
  simp [SortedMap.contains, SortedMap.find?, SortedMap.empty]
  tauto

theorem spreadIgnored_written : Written .value spreadIgnored.toList := by
  have hdigit : ∀ c : Char, c.isDigit = true → IsDigits [c] := by
    intro c hc
    exact ⟨by simp, by simpa using hc⟩
  have hnumber : IsNumber (['-'] ++ (['1'] ++ (['.', '5'] ++ ['e', '+', '3']))) :=
    .mk (by decide) (.inr ⟨hdigit '1' rfl, by decide⟩) (.inr ⟨_, hdigit '5' rfl, rfl⟩)
      (.inr ⟨'e', by decide, ['+'], by decide, _, hdigit '3' rfl, rfl⟩)
  have hcode : Code ['\\', 'u', 'd', '8', '0', '0'] 0xd800 :=
    .mk (x := 13) (y := 8) (z := 0) (w := 0) (by decide) (by decide) (by decide) (by decide)
  have hmember : Written (.members [_]) _ :=
    .member blanks_nil (.code hcode .nil) blanks_nil blanks_nil .null blanks_nil
  exact .array (.items blanks_nil (.number hnumber) blanks_nil
    (.item blanks_nil (.object hmember) (blanks_cons (by decide) blanks_nil)))

/-- Keys in no order, other keys among them, and blanks. -/
def spreadText : String :=
  "\x7b \"flat_integer_sums\" :" ++ spreadNames ++ ",\n\"x\":" ++ spreadIgnored
    ++ ", \"emit_debug_methods\":false , \"x\" : \x7b\x7d \x7d"

theorem spreadText_isObject :
    IsObject [("flat_integer_sums", spreadNames.toList), ("x", spreadIgnored.toList),
      ("emit_debug_methods", flagText false), ("x", ['{', '}'])] spreadText.toList := by
  have hspace : Blanks [' '] := blanks_cons (by decide) blanks_nil
  have hline : Blanks ['\n'] := blanks_cons (by decide) blanks_nil
  have hsums := spells_plain "flat_integer_sums" rfl
  have hx := spells_plain "x" rfl
  have hmethods := spells_plain "emit_debug_methods" rfl
  have hmembers : Written (.members [_, _, _, _]) _ :=
    .members hspace hsums.between hspace blanks_nil spreadNames_writes.written blanks_nil
      (.members hline hx.between blanks_nil blanks_nil spreadIgnored_written blanks_nil
        (.members hspace hmethods.between blanks_nil blanks_nil (.flag false) hspace
          (.member hspace hx.between hspace hspace (.object (.noMembers blanks_nil)) hspace)))
  refine ⟨_, _, hmembers, .cons ⟨hsums, rfl⟩ (.cons ⟨hx, rfl⟩ (.cons ⟨hmethods, rfl⟩
    (.cons ⟨hx, rfl⟩ .nil))), ?_⟩
  decide +kernel

/-- The values of an array, and blanks around it. -/
def spreadArray : String := "\t[true, false," ++ spreadNames ++ "]\n"

def repeatedText : String := "\x7b\"debug_sidecar\":true,\"debug_sidecar\":false\x7d"

theorem repeatedText_isObject :
    IsObject [("debug_sidecar", flagText true), ("debug_sidecar", flagText false)]
      repeatedText.toList := by
  have hsidecar := spells_plain "debug_sidecar" rfl
  have hmembers : Written (.members [_, _]) _ :=
    .members blanks_nil hsidecar.between blanks_nil blanks_nil (.flag true) blanks_nil
      (.member blanks_nil hsidecar.between blanks_nil blanks_nil (.flag false) blanks_nil)
  exact ⟨_, _, hmembers, .cons ⟨hsidecar, rfl⟩ (.cons ⟨hsidecar, rfl⟩ .nil), by decide +kernel⟩

/-- The object and the array are read as the same; a key is given twice in the last. -/
theorem spreadText_read :
    ofJson spreadText = .ok spreadOptions ∧ ofJson spreadArray = .ok spreadOptions ∧
      ofJson repeatedText = .error .mistyped := by
  have hsuffix : spreadOptions.Writes (flagText true) (.flag .enumSuffix) := rfl
  have hmethods : spreadOptions.Writes (flagText false) (.flag .treeMethods) := rfl
  refine ⟨?_, ?_, ?_⟩
  · refine (ofJson_anySpelling spreadOptions _ (holds_self _)).1 _ spreadText_isObject ?_ ?_ ?_
    · simp only [List.forall_mem_cons]
      exact ⟨spreadNames_writes.gives, gives_unknown _ rfl _, hmethods.gives,
        gives_unknown _ rfl _, fun m hm => absurd hm List.not_mem_nil⟩
    · intro k
      rcases k with k | k <;> cases k <;> decide
    · intro k hk
      have hrest : k ∈ [.flag .enumSuffix, .flag .sidecar, .names .hooks] := by
        revert hk
        rcases k with k | k <;> cases k <;> decide
      simp only [List.mem_cons, List.not_mem_nil, or_false] at hrest
      rcases hrest with rfl | rfl | rfl <;> rfl
  · have hitems : Written (.items [_, _, _]) _ :=
      .items blanks_nil hsuffix.written blanks_nil
        (.items (blanks_cons (c := ' ') (by decide) blanks_nil) hmethods.written blanks_nil
          (.item blanks_nil spreadNames_writes.written blanks_nil))
    refine (ofJson_anySpelling spreadOptions _ ?_).2.1
      [.flag .enumSuffix, .flag .treeMethods, .names .flatSums] [.flag .sidecar, .names .hooks] _
      ⟨_, hitems, rfl⟩ rfl (.cons hsuffix (.cons hmethods (.cons spreadNames_writes .nil))) ?_
    · exact ⟨['\t'], ['\n'], blanks_cons (by decide) blanks_nil, blanks_cons (by decide) blanks_nil,
        by decide +kernel⟩
    · simp only [List.forall_mem_cons]
      exact ⟨rfl, rfl, fun k hk => absurd hk List.not_mem_nil⟩
  · have hgives : ∀ b, Gives { sidecar := b } ("debug_sidecar", flagText b) := fun b =>
      Writes.gives (k := .flag .sidecar) rfl
    refine (ofJson_anySpelling {} _ (holds_self _)).2.2 _ repeatedText_isObject ?_
      ⟨.flag .sidecar, by decide⟩
    simp only [List.forall_mem_cons]
    exact ⟨⟨_, hgives true⟩, ⟨_, hgives false⟩, fun m hm => absurd hm List.not_mem_nil⟩

end Options

end Asdl
