import TermReader.Context.Load
import TermReader.Proofs.Openings

/-!
Validators. A lawful validator takes texts for texts and sets of texts for sets of names, makes
the context that fields give, with every table checked, and dumps a context as fields that give it
again. Data that it refuses is invalid and nothing worse. The standard validator is lawful, and so
may be any other that takes more for texts than it does.
-/

namespace TermReader

namespace NameTable

theorem mem_all (table : NameTable) : table ∈ all := by
  cases table <;> decide

theorem label_ne_name (table : NameTable) : table.label ≠ "name" := by
  cases table <;> decide

theorem label_inj {a b : NameTable} : a.label = b.label ↔ a = b := by
  cases a <;> cases b <;> decide

theorem label_of_ofLabel? {key : String} {table : NameTable} (h : ofLabel? key = some table) :
    table.label = key := by
  simpa using List.find?_some h

end NameTable

namespace Validator

/-- The context has the name and the names that the fields give it, or else those that a context
has by default. Every table that is given has passed the check. -/
structure Describes (V : Validator) (check : List String → Option String) (fields : Fields)
    (ctx : Context) : Prop where
  named : ∀ {d}, Entries.last? fields "name" = some d → ∃ v, d = .value v ∧
    V.text? v = some ctx.name
  unnamed : Entries.last? fields "name" = none → ctx.name = "Default"
  given : ∀ {table d}, Entries.last? fields table.label = some d →
    V.names? d = some (ctx.names table) ∧ check (ctx.names table) = none
  missing : ∀ {table}, Entries.last? fields table.label = none → ctx.names table = []

/-- Nothing in the fields is to be refused. -/
structure Admits (V : Validator) (check : List String → Option String) (fields : Fields) :
    Prop where
  name : ∀ {d}, Entries.last? fields "name" = some d → ∃ v s, d = .value v ∧ V.text? v = some s
  names : ∀ {table d}, Entries.last? fields (NameTable.label table) = some d →
    ∃ names, V.names? d = some names ∧ check names = none

/-- What a validator is expected to do. -/
structure Lawful (V : Validator) : Prop where
  text_text : ∀ s, V.text? (.text s) = some s
  mem_names : ∀ {items names}, V.names? (.items items) = some names → ∀ name, name ∈ names ↔
    ∃ item ∈ items, V.text? item = some name
  isSome_names_iff : ∀ items, (V.names? (.items items)).isSome ↔
    ∀ item ∈ items, (V.text? item).isSome
  describes : ∀ {check fields ctx}, V.validate check fields = .ok ctx →
    V.Describes check fields ctx
  accepts : ∀ {check fields}, V.Admits check fields → ∃ ctx, V.validate check fields = .ok ctx
  invalid : ∀ {check fields problem}, V.validate check fields = .error problem →
    ∃ faults text, problem = .invalid faults text
  refuses : ∀ v, ∃ faults text, V.refusal v = .invalid faults text
  dump_name : ∀ ctx, Entries.last? (V.dump ctx) "name" = some (.value (.text ctx.name))
  dump_names : ∀ ctx table, ∃ items, Entries.last? (V.dump ctx) (NameTable.label table) =
    some (.items items) ∧ ∀ item, item ∈ items ↔ ∃ name ∈ ctx.names table, item = .text name

section Names

variable {names additions : List String} {items : List Value} {name : String}

theorem mem_insertNames_iff : name ∈ insertNames names additions ↔
    name ∈ names ∨ name ∈ additions := by
  unfold insertNames
  induction additions generalizing names with
  | nil => simp
  | cons added additions ih =>
    rw [List.foldl_cons, ih]
    split
    · next hmem => grind
    · grind

theorem mapM_plainText? : items.mapM plainText? = some names ↔ items = names.map .text := by
  induction items generalizing names with
  | nil => simp [eq_comm]
  | cons item items ih =>
    rw [List.mapM_cons]
    cases item with
    | text s =>
      cases names with
      | nil => simp [plainText?, Option.bind_eq_some_iff]
      | cons name names => simp [plainText?, Option.bind_eq_some_iff, ih, and_comm]
    | _ => cases names <;> simp [plainText?]

theorem texts?_map_text (names : List String) :
    texts? (names.map .text) = some (insertNames [] names) := by
  rw [texts?, mapM_plainText?.2 rfl, Option.map_some]

theorem texts?_eq_some_iff : texts? items = some names ↔
    ∃ texts, items = texts.map .text ∧ insertNames [] texts = names := by
  rw [texts?, Option.map_eq_some_iff]
  simp only [mapM_plainText?]

theorem mem_texts? (h : texts? items = some names) :
    name ∈ names ↔ ∃ item ∈ items, plainText? item = some name := by
  obtain ⟨texts, rfl, rfl⟩ := texts?_eq_some_iff.1 h
  simp [mem_insertNames_iff, plainText?]

/-- Items that are all texts are texts that have been made into items. -/
theorem exists_map_text (h : ∀ item ∈ items, item.isText = true) :
    ∃ texts : List String, items = texts.map .text := by
  induction items with
  | nil => exact ⟨[], rfl⟩
  | cons item items ih =>
    obtain ⟨texts, rfl⟩ := ih fun item hmem => h item (List.mem_cons_of_mem _ hmem)
    cases item with
    | text s => exact ⟨s :: texts, rfl⟩
    | _ => cases h _ List.mem_cons_self

theorem isSome_texts?_iff : (texts? items).isSome ↔ ∀ item ∈ items, item.isText = true := by
  constructor
  · intro h item hitem
    obtain ⟨names, hnames⟩ := Option.isSome_iff_exists.1 h
    obtain ⟨texts, rfl, -⟩ := texts?_eq_some_iff.1 hnames
    obtain ⟨s, -, rfl⟩ := List.mem_map.1 hitem
    rfl
  · intro h
    obtain ⟨texts, rfl⟩ := exists_map_text h
    rw [texts?_map_text]
    rfl

theorem isSome_plainText? (v : Value) : (plainText? v).isSome = v.isText := by
  cases v <;> rfl

/-- Without faults in its items all items of a table are texts. -/
theorem isText_of_textFaults {table : NameTable} (h : textFaults table items = []) :
    ∀ item ∈ items, item.isText = true := by
  intro item hitem
  obtain ⟨i, hi, rfl⟩ := List.mem_iff_getElem.1 hitem
  have hnone := List.filterMap_eq_nil_iff.1 h (items[i], i)
    (List.mem_iff_getElem.2 ⟨i, by simpa using hi, by simp⟩)
  by_contra hnot
  simp [hnot] at hnone

end Names

section Standard

variable {check : List String → Option String} {fields : Fields} {ctx : Context}

/-- A table is without faults when it is missing or lists names that pass the check. -/
theorem tableFaults_eq_nil_iff {table : NameTable} : tableFaults check fields table = [] ↔
    ∀ d, Entries.last? fields table.label = some d →
      ∃ names, standard.names? d = some names ∧ check names = none := by
  unfold tableFaults
  cases hlast : Entries.last? fields table.label with
  | none => simp
  | some d =>
    simp only [Option.some.injEq, forall_eq', standard]
    cases items? d with
    | none => simp
    | some items =>
      simp only [Option.bind_some]
      cases htexts : texts? items with
      | some names => cases check names <;> simp
      | none =>
        have hsome : (texts? items).isSome = true ↔ _ := isSome_texts?_iff
        rw [htexts] at hsome
        simpa using fun h => hsome.2 (isText_of_textFaults h)

theorem nameFaults_eq_nil_iff : nameFaults fields = [] ↔
    ∀ d, Entries.last? fields "name" = some d →
      ∃ v s, d = .value v ∧ standard.text? v = some s := by
  unfold nameFaults
  cases Entries.last? fields "name" with
  | none => simp
  | some d =>
    cases d with
    | items items => simp
    | value v => cases v <;> simp [standard, plainText?]

/-- The standard validator finds no faults where there are none, and only there. -/
theorem faults_eq_nil_iff : faults check fields = [] ↔ standard.Admits check fields := by
  rw [faults, List.append_eq_nil_iff, List.flatMap_eq_nil_iff, nameFaults_eq_nil_iff]
  refine ⟨fun h => ⟨fun {d} => h.1 d, fun {table d} => ?_⟩,
    fun h => ⟨fun d => h.name, fun table _ => ?_⟩⟩
  · exact tableFaults_eq_nil_iff.1 (h.2 table table.mem_all) d
  · exact tableFaults_eq_nil_iff.2 fun d => h.names

theorem describes_described (h : standard.Admits check fields) :
    standard.Describes check fields (described fields) := by
  refine ⟨fun {d} hlast => ?_, fun hlast => ?_, fun {table d} hlast => ?_, fun {table} hlast => ?_⟩
  · obtain ⟨v, s, rfl, hs⟩ := h.name hlast
    cases v with
    | text s => exact ⟨_, rfl, by simp [described, hlast, standard, plainText?]⟩
    | _ => cases hs
  · simp [described, hlast]
  · obtain ⟨names, hnames, hcheck⟩ := h.names hlast
    have htable : (described fields).names table = names := by
      simp only [described, hlast, Option.bind_some]
      exact congrArg (Option.getD · []) hnames
    rw [htable]
    exact ⟨hnames, hcheck⟩
  · simp [described, hlast]

/-- The standard validator does what is expected of a validator. -/
theorem lawful_standard : standard.Lawful where
  text_text s := rfl
  mem_names h _ := mem_texts? h
  isSome_names_iff items := by
    simp only [standard, isSome_plainText?]
    exact isSome_texts?_iff
  describes {check fields ctx} h := by
    simp only [standard] at h
    split at h
    · next hfaults =>
      obtain rfl := Except.ok.inj h
      exact describes_described (faults_eq_nil_iff.1 hfaults)
    · cases h
  accepts {check fields} h := by
    have hfaults := faults_eq_nil_iff.2 h
    exact ⟨described fields, by simp only [standard, hfaults]⟩
  invalid {check fields problem} h := by
    simp only [standard] at h
    split at h
    · cases h
    · exact ⟨_, _, (Except.error.inj h).symm⟩
  refuses v := ⟨_, _, rfl⟩
  dump_name ctx := by
    simp [standard, NameTable.all, Entries.last?, NameTable.label]
  dump_names ctx table := by
    refine ⟨(ctx.names table).map .text, ?_, fun item => ?_⟩
    · cases table <;> simp [standard, NameTable.all, Entries.last?, NameTable.label]
    · simp [eq_comm]

end Standard

end Validator

end TermReader
