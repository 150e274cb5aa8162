import Mathlib
import Dql.Manifest
import Dql.Proofs.Lexeme

/-!
# Registration

A catalog is a map from names to entries in which letter case does not matter and the last
registration of a name wins. Packs put entries without a check, and `register` checks; both keep
the names of a catalog to those that `register` takes.

* `SameName`, `Registrable` - names that mean the same, and names that can be registered;
* `Registration`, `Catalog.attempt`, `Catalog.run` - a call of `register`, and calls in turn;
* `Registration.latest?` - the last call that gave a name its entry;
* `Catalog.Start` - the catalogs that programs start from;
* `Catalog.Lawful`, `Catalog.Takes` - what every catalog keeps to, and what a call does to it.

Principal result: `Catalog.last_registration_wins`.
-/

namespace Dql

/-! ## Names -/

/-- Names that are equal when ASCII letter case is ignored. -/
def SameName (a b : String) : Prop := foldCase a = foldCase b

theorem sameName_iff {a b : String} :
    SameName a b ↔ a.toList.map Char.toUpper = b.toList.map Char.toUpper := by
  rw [SameName, ← String.toList_inj, toList_foldCase, toList_foldCase]

-- letter by letter, since the folded texts take long to evaluate
instance SameName.decidable (a b : String) : Decidable (SameName a b) :=
  decidable_of_iff _ sameName_iff.symm

/-- A name can be registered if it is a name as a whole, and no built-in function has it. -/
structure Registrable (name : String) : Prop where
  wellFormed : NameText name.toList
  free : ∀ b : Builtin, ¬ SameName b.name name

theorem isNameStart_toUpper (c : Char) : isNameStart c.toUpper = isNameStart c := by
  by_cases h : c.isLower = true
  · have halpha : c.isAlpha = true := by simp [Char.isAlpha, h]
    simp [isNameStart, halpha]
  · rw [Char.toUpper_eq_of_not_isLower h]

theorem isNamePart_toUpper (c : Char) : isNamePart c.toUpper = isNamePart c := by
  by_cases h : c.isLower = true
  · have halpha : c.isAlpha = true := by simp [Char.isAlpha, h]
    simp [isNamePart, Char.isAlphanum, halpha]
  · rw [Char.toUpper_eq_of_not_isLower h]

theorem foldCase_foldCase (text : String) : foldCase (foldCase text) = foldCase text := by
  rw [← String.toList_inj, toList_foldCase, toList_foldCase, List.map_map]
  exact List.map_congr_left fun c _ => Char.toUpper_toUpper_eq_toUpper c

theorem sameName_foldCase_iff {a b : String} : SameName a (foldCase b) ↔ SameName a b := by
  rw [SameName, foldCase_foldCase, SameName]

/-- Letter case does not make a name. -/
theorem isName_foldCase (text : String) : isName (foldCase text) = isName text := by
  unfold isName
  rw [toList_foldCase]
  cases text.toList with
  | nil => rfl
  | cons c cs => simp [isNameStart_toUpper, Function.comp_def, isNamePart_toUpper]

theorem registrable_foldCase_iff {name : String} :
    Registrable (foldCase name) ↔ Registrable name := by
  have hname : NameText (foldCase name).toList ↔ NameText name.toList := by
    rw [← isName_iff, isName_foldCase, isName_iff]
  exact ⟨fun h => ⟨hname.1 h.wellFormed, fun b => mt sameName_foldCase_iff.2 (h.free b)⟩,
    fun h => ⟨hname.2 h.wellFormed, fun b => mt sameName_foldCase_iff.1 (h.free b)⟩⟩

theorem isSome_ofName?_iff {name : String} :
    (Builtin.ofName? name).isSome = true ↔ ∃ b : Builtin, SameName b.name name := by
  rw [Option.isSome_iff_exists]
  refine exists_congr fun b => ?_
  rw [Builtin.ofName?_eq_some_iff, SameName, Builtin.foldCase_name]

/-- What the check of a name says. -/
theorem checkName_eq (name : String) :
    (Catalog.checkName name = .ok () ∧ Registrable name) ∨
      (Catalog.checkName name = .error (.invalid name) ∧ ¬ NameText name.toList) ∨
      Catalog.checkName name = .error (.reserved name) ∧ NameText name.toList ∧
        ∃ b : Builtin, SameName b.name name := by
  unfold Catalog.checkName
  by_cases hname : isName name = true
  · by_cases hbuiltin : (Builtin.ofName? name).isSome = true
    · exact .inr (.inr ⟨by simp [hname, hbuiltin], isName_iff.1 hname,
        isSome_ofName?_iff.1 hbuiltin⟩)
    · exact .inl ⟨by simp [hname, hbuiltin], isName_iff.1 hname,
        fun b hb => hbuiltin (isSome_ofName?_iff.2 ⟨b, hb⟩)⟩
  · exact .inr (.inl ⟨by simp [hname], mt isName_iff.2 hname⟩)

theorem checkName_eq_ok_iff {name : String} :
    Catalog.checkName name = .ok () ↔ Registrable name := by
  rcases checkName_eq name with ⟨h, hname⟩ | ⟨h, hname⟩ | ⟨h, -, b, hb⟩ <;> rw [h]
  · exact iff_of_true rfl hname
  · exact iff_of_false nofun fun hr => hname hr.wellFormed
  · exact iff_of_false nofun fun hr => hr.free b hb

instance (name : String) : Decidable (Registrable name) :=
  decidable_of_iff (Catalog.checkName name = .ok ()) checkName_eq_ok_iff

/-! ## Calls -/

/-- A call of `register`. -/
structure Registration where
  name : String
  extension : Extension
  category : Category
  deriving DecidableEq

namespace Registration

/-- The entry that a call is about. -/
def entry (r : Registration) : Entry := ⟨r.extension, r.category⟩

/-- The last of some calls that gave a name its entry. -/
def latest? (rs : List Registration) (name : String) : Option Registration :=
  rs.reverse.find? fun r => Registrable r.name ∧ SameName r.name name

theorem latest?_cons (r : Registration) (rs : List Registration) (name : String) :
    latest? (r :: rs) name =
      (latest? rs name).or
        (if Registrable r.name ∧ SameName r.name name then some r else none) := by
  rw [latest?, List.reverse_cons, List.find?_append, List.find?_singleton, ← latest?]
  simp only [decide_eq_true_eq]

end Registration

namespace Catalog

variable {c : Catalog} {name : String} {entry : Entry} {r : Registration}

/-- What a call leaves: its answer, the catalog, and the events. A call that fails keeps the catalog
and reports nothing. -/
def attempt (c : Catalog) (r : Registration) : Except NameError Unit × Catalog × List Event :=
  match c.register r.name r.extension r.category with
  | .ok (after, event) => (.ok (), after, [event])
  | .error err => (.error err, c, [])

/-- The catalog after several calls, whatever became of each. -/
def run (c : Catalog) (rs : List Registration) : Catalog :=
  rs.foldl (fun c r => (c.attempt r).2.1) c

/-- The catalogs that programs start from. -/
inductive Start : Catalog → Prop where
  | empty : Start .empty
  | mysql : Start .mysql
  | oracle : Start .oracle
  | defaults : Start .defaults
  | ofManifest {m : Manifest} {c : Catalog} (h : (Catalog.ofManifest m).1 = .ok c) : Start c

/-- The names of a catalog are in upper case, and each can be registered. -/
structure Lawful (c : Catalog) : Prop where
  folded : ∀ key ∈ c.names.map Prod.fst, foldCase key = key
  registrable : ∀ key ∈ c.names.map Prod.fst, Registrable key

/-- What a call does: it fails if its name cannot be registered, and then changes nothing; else it
changes what its name stands for, and nothing else. -/
structure Takes (c : Catalog) (r : Registration) : Prop where
  succeeds : (c.attempt r).1 = .ok () ↔ Registrable r.name
  invalid : (c.attempt r).1 = .error (.invalid r.name) ↔ ¬ NameText r.name.toList
  reserved : (c.attempt r).1 = .error (.reserved r.name) ↔
    NameText r.name.toList ∧ ∃ b : Builtin, SameName b.name r.name
  fails : ¬ Registrable r.name → (c.attempt r).2 = (c, [])
  entries : Registrable r.name → ∀ name, (c.attempt r).2.1.find? name =
    if SameName r.name name then some r.entry else c.find? name
  event : Registrable r.name → ∃ replaced : Bool,
    (c.attempt r).2.2 = [.registered r.name r.category replaced] ∧
      (replaced = true ↔ ∃ key ∈ c.names.map Prod.fst, SameName key r.name)

theorem register_of_registrable (h : Registrable name) (extension : Extension)
    (category : Category) :
    c.register name extension category =
      .ok (c.put name ⟨extension, category⟩, .registered name category (c.find? name).isSome) := by
  rw [register, checkName_eq_ok_iff.2 h]
  rfl

theorem register_of_error {err : NameError} (h : checkName name = .error err)
    (extension : Extension) (category : Category) :
    c.register name extension category = .error err := by
  rw [register, h]
  rfl

/-! ## Listing -/

theorem map_fst_names (c : Catalog) : c.names.map Prod.fst = c.entries.keys := by
  rw [names, List.map_map, ← Std.TreeMap.map_fst_toList_eq_keys]
  rfl

theorem nodup_names (c : Catalog) : (c.names.map Prod.fst).Nodup := by
  rw [map_fst_names]
  exact Std.TreeMap.nodup_keys

theorem size_eq (c : Catalog) : c.size = c.names.length := by
  rw [names, List.length_map, Std.TreeMap.length_toList, size]

theorem mem_names_iff {key : String} {category : Category} :
    (key, category) ∈ c.names ↔
      ∃ entry, c.entries[key]? = some entry ∧ entry.category = category := by
  simp only [names, List.mem_map, Prod.mk.injEq, Prod.exists,
    Std.TreeMap.mem_toList_iff_getElem?_eq_some]
  constructor
  · rintro ⟨_, entry, h, rfl, rfl⟩
    exact ⟨entry, h, rfl⟩
  · rintro ⟨entry, h, rfl⟩
    exact ⟨key, entry, h, rfl, rfl⟩

theorem mem_keys_iff {key : String} :
    key ∈ c.names.map Prod.fst ↔ ∃ entry, c.entries[key]? = some entry := by
  rw [map_fst_names, Std.TreeMap.mem_keys, Std.TreeMap.mem_iff_isSome_getElem?,
    Option.isSome_iff_exists]

/-- The names of a catalog that took an entry. -/
theorem mem_keys_put_iff {key : String} :
    key ∈ (c.put name entry).names.map Prod.fst ↔
      key = foldCase name ∨ key ∈ c.names.map Prod.fst := by
  rw [map_fst_names, map_fst_names, Std.TreeMap.mem_keys, Std.TreeMap.mem_keys, put,
    Std.TreeMap.mem_insert, compare_eq_iff_eq, eq_comm]

/-! ## One call -/

theorem attempt_of_registrable (c : Catalog) (h : Registrable r.name) :
    c.attempt r = (.ok (), c.put r.name r.entry,
      [.registered r.name r.category (c.find? r.name).isSome]) := by
  rw [attempt, register_of_registrable h]
  rfl

theorem attempt_of_error (c : Catalog) {err : NameError} (h : checkName r.name = .error err) :
    c.attempt r = (.error err, c, []) := by
  rw [attempt, register_of_error h]

theorem attempt_of_not_registrable (c : Catalog) (h : ¬ Registrable r.name) :
    (c.attempt r).2 = (c, []) := by
  rcases checkName_eq r.name with ⟨-, hname⟩ | ⟨herr, -⟩ | ⟨herr, -⟩
  · exact absurd hname h
  · rw [attempt_of_error c herr]
  · rw [attempt_of_error c herr]

/-- After a call its name has the new entry, if the call succeeds, and all other names are as
before. -/
theorem find?_attempt (c : Catalog) (r : Registration) (name : String) :
    (c.attempt r).2.1.find? name =
      if Registrable r.name ∧ SameName r.name name then some r.entry else c.find? name := by
  by_cases h : Registrable r.name
  · simp only [attempt_of_registrable c h, find?_put, h, true_and, SameName]
  · simp [attempt_of_not_registrable c h, h]

/-- **After any calls a name has the entry of the last call that took it.** -/
theorem find?_run (rs : List Registration) (c : Catalog) (name : String) :
    (c.run rs).find? name =
      ((Registration.latest? rs name).map Registration.entry).or (c.find? name) := by
  induction rs generalizing c with
  | nil => rfl
  | cons r rs ih =>
    have hrun : c.run (r :: rs) = (c.attempt r).2.1.run rs := rfl
    rw [hrun, ih, find?_attempt, Registration.latest?_cons]
    cases Registration.latest? rs name with
    | some last => rfl
    | none =>
      split <;> rfl

/-! ## Every catalog is lawful -/

theorem Lawful.put (h : c.Lawful) (hname : Registrable name) (entry : Entry) :
    (c.put name entry).Lawful := by
  constructor <;> intro key hkey <;> rcases mem_keys_put_iff.1 hkey with rfl | hkey
  · exact foldCase_foldCase name
  · exact h.folded key hkey
  · exact registrable_foldCase_iff.2 hname
  · exact h.registrable key hkey

theorem lawful_empty : empty.Lawful := by
  have hnil : empty.names.map Prod.fst = [] := rfl
  constructor <;> rw [hnil] <;> exact nofun

theorem Lawful.ship (h : c.Lawful) (e : Shipped) : (c.ship e).Lawful :=
  h.put (by cases e <;> decide +kernel) _

theorem Lawful.attempt (h : c.Lawful) (r : Registration) : (c.attempt r).2.1.Lawful := by
  by_cases hname : Registrable r.name
  · rw [attempt_of_registrable c hname]
    exact h.put hname _
  · rw [attempt_of_not_registrable c hname]
    exact h

theorem Lawful.run (h : c.Lawful) (rs : List Registration) : (c.run rs).Lawful := by
  induction rs generalizing c with
  | nil => exact h
  | cons r rs ih => exact ih (h.attempt r)

/-- A manifest is registered call by call. -/
theorem run_of_registerAll {items : List (String × Shipped × Category)} {after : Catalog}
    (h : (c.registerAll items).1 = .ok after) :
    after = c.run (items.map fun (name, e, category) => ⟨name, .shipped e, category⟩) := by
  induction items generalizing c with
  | nil =>
    cases h
    rfl
  | cons item items ih =>
    obtain ⟨name, e, category⟩ := item
    unfold registerAll at h
    split at h
    · cases h
    · rename_i next event hnext
      rw [ih h, List.map_cons]
      have hattempt : (c.attempt ⟨name, .shipped e, category⟩).2.1 = next := by
        simp only [Catalog.attempt, hnext]
      rw [run, run, List.foldl_cons, hattempt]

theorem Start.lawful (h : Start c) : c.Lawful := by
  cases h with
  | empty => exact lawful_empty
  | mysql => exact lawful_empty.ship _
  | oracle => exact (lawful_empty.ship _).ship _
  | defaults => exact ((lawful_empty.ship _).ship _).ship _
  | ofManifest h =>
    rw [run_of_registerAll h]
    exact lawful_empty.run _

/-! ## Look-up -/

/-- A name has an entry if it is listed in some letter case, under the category of the entry. -/
theorem Lawful.category_eq_iff (h : c.Lawful) {category : Category} :
    (c.find? name).map Entry.category = some category ↔
      ∃ key, (key, category) ∈ c.names ∧ SameName key name := by
  simp only [mem_names_iff, Option.map_eq_some_iff]
  constructor
  · rintro ⟨entry, hentry, rfl⟩
    exact ⟨foldCase name, ⟨entry, hentry, rfl⟩, foldCase_foldCase name⟩
  · rintro ⟨key, ⟨entry, hentry, rfl⟩, hsame⟩
    have hkey := h.folded key (mem_keys_iff.2 ⟨entry, hentry⟩)
    rw [← hkey, hsame] at hentry
    exact ⟨entry, hentry, rfl⟩

theorem Lawful.isSome_find?_iff (h : c.Lawful) :
    (c.find? name).isSome = true ↔ ∃ key ∈ c.names.map Prod.fst, SameName key name := by
  rw [← Option.isSome_map (f := Entry.category), Option.isSome_iff_exists]
  simp only [h.category_eq_iff, List.mem_map, Prod.exists]
  constructor
  · rintro ⟨category, key, hkey, hsame⟩
    exact ⟨key, ⟨key, category, hkey, rfl⟩, hsame⟩
  · rintro ⟨_, ⟨key, category, hkey, rfl⟩, hsame⟩
    exact ⟨category, key, hkey, hsame⟩

/-- What has an entry can be registered. -/
theorem Lawful.registrable_of_find? (h : c.Lawful) (hfind : c.find? name = some entry) :
    Registrable name :=
  registrable_foldCase_iff.1 (h.registrable _ (mem_keys_iff.2 ⟨entry, hfind⟩))

/-- **What one call does.** -/
theorem Lawful.takes (h : c.Lawful) (r : Registration) : c.Takes r := by
  rcases checkName_eq r.name with ⟨-, hname⟩ | ⟨herr, hname⟩ | ⟨herr, hname, b, hb⟩
  · have hattempt := attempt_of_registrable c hname
    exact {
      succeeds := iff_of_true (by rw [hattempt]) hname
      invalid := iff_of_false (by rw [hattempt]; exact nofun) (not_not_intro hname.wellFormed)
      reserved := iff_of_false (by rw [hattempt]; exact nofun) fun ⟨_, b, hb⟩ => hname.free b hb
      fails := absurd hname
      entries := fun _ name => by rw [find?_attempt]; simp only [hname, true_and]
      event := fun _ => ⟨_, by rw [hattempt], h.isSome_find?_iff⟩ }
  · have hattempt := attempt_of_error c herr
    have hnot : ¬ Registrable r.name := fun hr => hname hr.wellFormed
    exact {
      succeeds := iff_of_false (by rw [hattempt]; exact nofun) hnot
      invalid := iff_of_true (by rw [hattempt]) hname
      reserved := iff_of_false (by rw [hattempt]; exact nofun) fun ⟨h, _⟩ => hname h
      fails := fun _ => by rw [hattempt]
      entries := fun h => absurd h hnot
      event := fun h => absurd h hnot }
  · have hattempt := attempt_of_error c herr
    have hnot : ¬ Registrable r.name := fun hr => hr.free b hb
    exact {
      succeeds := iff_of_false (by rw [hattempt]; exact nofun) hnot
      invalid := iff_of_false (by rw [hattempt]; exact nofun) (not_not_intro hname)
      reserved := iff_of_true (by rw [hattempt]) ⟨hname, b, hb⟩
      fails := fun _ => by rw [hattempt]
      entries := fun h => absurd h hnot
      event := fun h => absurd h hnot }

/-- **The last registration of a name wins.** Programs start from a pack or a manifest and register
what they like. Every call then takes the names that can be registered and no others, what a name
stands for is what the last call that took it says, or else what it stood for at the start, and the
listing has every such name once, in upper case. -/
theorem last_registration_wins {start : Catalog} (h : Start start) (rs : List Registration) :
    let c := start.run rs
    (∀ r, c.Takes r) ∧
      (∀ name, c.find? name =
        ((Registration.latest? rs name).map Registration.entry).or (start.find? name)) ∧
      c.Lawful ∧ (c.names.map Prod.fst).Nodup ∧ c.size = c.names.length ∧
      ∀ name category, (c.find? name).map Entry.category = some category ↔
        ∃ key, (key, category) ∈ c.names ∧ SameName key name :=
  have hc := h.lawful.run rs
  ⟨hc.takes, fun name => find?_run rs start name, hc, nodup_names _, size_eq _,
    fun _ _ => hc.category_eq_iff⟩

/-- A name is registered in two letter cases, and a built-in function's name is refused. -/
theorem last_registration_wins_case :
    Start oracle ∧
      (oracle.run [⟨"nvl2", .ifNull, .numeric⟩, ⟨"Nvl2", .shipped .extract, .datetime⟩,
        ⟨"lower", .ifNull, .string⟩]).find? "NVL2" = some ⟨.shipped .extract, .datetime⟩ := by
  have hlower : ¬ Registrable "lower" := by decide +kernel
  have hnvl2 : Registrable "Nvl2" := by decide +kernel
  have hsame : SameName "Nvl2" "NVL2" := by decide
  refine ⟨.oracle, ?_⟩
  rw [(last_registration_wins .oracle _).2.1]
  simp [Registration.latest?, hlower, hnvl2, hsame, Registration.entry]

end Catalog

end Dql
