import TermReader.Proofs.Validation
import TermReader.Yaml.Load

/-!
Extending a context joins names to its tables. The context is dumped, its fields are merged with
those to be changed, and the whole is validated anew; no table is lost on the way. What a table
holds afterwards is what it held before and what the extension lists for it, so an extension can be
repeated to no effect, and of two extensions either may come first. Every table has passed the
check, so in every context that can be made all names are identifiers.
-/

namespace TermReader

/-- The name is listed by the value: as a character of a text, a field of an object, or what the
validator takes for a text in a list. -/
def Value.Lists (V : Validator) (name : String) : Value → Prop
  | text value => ∃ c ∈ value.toList, String.ofList [c] = name
  | object fields => ∃ value, (name, value) ∈ fields
  | list items => ∃ item ∈ items, V.text? item = some name
  | _ => False

namespace Context

variable (V : Validator)

/-- The name is listed for the table. A table that is given several times counts as given last. -/
def Listed (changes : List (String × Value)) (table : NameTable) (name : String) : Prop :=
  ∃ value, Entries.last? changes table.label = some value ∧ value.Lists V name

/-- The name of a context after the changes is the name given last, if there is one. -/
structure Named (changes : List (String × Value)) (ctx ctx' : Context) : Prop where
  given : ∀ {value}, Entries.last? changes "name" = some value → V.text? value = some ctx'.name
  kept : Entries.last? changes "name" = none → ctx'.name = ctx.name

/-- Contexts with the same name, and the same names in every table. -/
structure Same (ctx ctx' : Context) : Prop where
  name : ctx.name = ctx'.name
  mem_names : ∀ table name, name ∈ ctx.names table ↔ name ∈ ctx'.names table

/-- Contexts that come with the program, are made of fields, described by data or by a file, or
extend another. -/
inductive Reachable (read : DocumentReader) : Context → Prop
  | standard : Reachable read standard
  | built {fields ctx} (h : ofFields V fields = .ok ctx) : Reachable read ctx
  | described {v ctx} (h : ofValue V v = .ok ctx) : Reachable read ctx
  | loaded {files path ctx} (h : load read V files path = .ok ctx) : Reachable read ctx
  | extended {ctx changes ctx'} (h : Reachable read ctx)
      (hextend : ctx.extend V changes = .ok ctx') : Reachable read ctx'

/-- What an extension makes of a context: the arities of each name, and the constants, are those
from before together with those that are listed. -/
structure Joins (changes : List (String × Value)) (ctx ctx' : Context) : Prop where
  arities : ∀ name k, k ∈ ctx'.arities name ↔
    k ∈ ctx.arities name ∨ ∃ table, table.arity? = some k ∧ Listed V changes table name
  irrationals : ∀ name, ctx'.isIrrational name = true ↔
    ctx.isIrrational name = true ∨ Listed V changes .irrationals name

variable {V} {ctx ctx' : Context} {changes : List (String × Value)} {name : String}

theorem complaint?_eq_none_iff {names : List String} : complaint? names = none ↔
    ∀ name ∈ names, Token.isIdentifier name = true := by
  rw [complaint?, Option.map_eq_none_iff, List.find?_eq_none]
  simp

section Validated

variable (hV : V.Lawful)

include hV

/-- Every table that is given has been checked, and a missing one is empty. -/
theorem wellNamed_of_ofFields {fields : Fields} (h : ofFields V fields = .ok ctx) :
    ctx.WellNamed := by
  have hdescribes := hV.describes h
  intro table name hname
  cases hlast : Entries.last? fields table.label with
  | none =>
    rw [hdescribes.missing hlast] at hname
    cases hname
  | some d => exact complaint?_eq_none_iff.1 (hdescribes.given hlast).2 name hname

theorem wellNamed_of_ofValue {v : Value} (h : ofValue V v = .ok ctx) : ctx.WellNamed := by
  cases v with
  | object fields => exact wellNamed_of_ofFields hV h
  | _ => cases h

theorem wellNamed_of_load {read : DocumentReader} {files : Files} {path : String}
    (h : load read V files path = .ok ctx) : ctx.WellNamed := by
  unfold load at h
  cases hfile : files.read path with
  | error problem =>
    rw [hfile] at h
    cases h
  | ok bytes =>
    rw [hfile] at h
    change ofBytes read V bytes = _ at h
    unfold ofBytes at h
    cases hread : read bytes with
    | error problem =>
      rw [hread] at h
      cases h
    | ok v =>
      rw [hread] at h
      exact wellNamed_of_ofValue hV h

end Validated

/-! What an extension collects. -/

section Collecting

variable {changed changed' : Fields} {items : List Value}

/-- The fields to be changed after those collected before: the last name given, and for each table
that is given the items listed last together with the names that are there. -/
structure Collected (ctx : Context) (changes : List (String × Value)) (changed changed' : Fields) :
    Prop where
  name : Entries.last? changed' "name" =
    ((Entries.last? changes "name").map .value).or (Entries.last? changed "name")
  given : ∀ {table value}, Entries.last? changes (NameTable.label table) = some value →
    ∃ items, enumerated value = .ok items ∧ Entries.last? changed' (NameTable.label table) =
      some (.items (joined items (ctx.names table)))
  kept : ∀ {table}, Entries.last? changes (NameTable.label table) = none →
    Entries.last? changed' (NameTable.label table) = Entries.last? changed (NameTable.label table)

theorem collected_of_collect (h : ctx.collect changed changes = .ok changed') :
    Collected ctx changes changed changed' := by
  fun_induction collect ctx changed changes with
  | case1 changed =>
    cases h
    exact ⟨rfl, fun hlast => by simp [Entries.last?] at hlast, fun _ => rfl⟩
  | case2 changed value rest ih =>
    obtain ⟨hname, hgiven, hkept⟩ := ih h
    have hlabel (table : NameTable) : Entries.last? (("name", value) :: rest) table.label =
        Entries.last? rest table.label := by
      rw [Entries.last?_cons, if_neg table.label_ne_name.symm, Option.or_none]
    refine ⟨?_, fun hlast => hgiven (hlabel _ ▸ hlast), fun {table} hlast => ?_⟩
    · rw [hname, Entries.last?_cons, if_pos rfl, Entries.last?_set, if_pos rfl]
      cases Entries.last? rest "name" <;> rfl
    · rw [hkept (hlabel _ ▸ hlast), Entries.last?_set, if_neg table.label_ne_name.symm]
  | case3 => cases h
  | case4 => cases h
  | case5 changed key value rest hkey table htable items hitems ih =>
    obtain ⟨hname, hgiven, hkept⟩ := ih h
    obtain rfl := NameTable.label_of_ofLabel? htable
    have hlast (t : NameTable) : Entries.last? ((table.label, value) :: rest) t.label =
        (Entries.last? rest t.label).or (if table = t then some value else none) := by
      simp only [Entries.last?_cons, NameTable.label_inj]
    refine ⟨?_, fun {t v} hv => ?_, fun {t} hnone => ?_⟩
    · rw [hname, Entries.last?_cons, if_neg hkey, Option.or_none, Entries.last?_set, if_neg hkey]
    · rw [hlast] at hv
      cases hrest : Entries.last? rest t.label with
      | some later =>
        rw [hrest, Option.some_or] at hv
        exact hgiven (hrest.trans hv)
      | none =>
        rw [hrest, Option.none_or] at hv
        split at hv
        · next heq =>
          cases hv
          subst heq
          refine ⟨items, hitems, ?_⟩
          rw [hkept hrest, Entries.last?_set, if_pos rfl]
        · cases hv
    · rw [hlast, Option.or_eq_none_iff] at hnone
      have hne : table.label ≠ t.label := by
        rintro heq
        simp [NameTable.label_inj.1 heq] at hnone
      rw [hkept hnone.1, Entries.last?_set, if_neg hne]

/-- Changes can be collected when every key is known and every table is given items. -/
theorem collect_accepts_iff : (∃ changed', ctx.collect changed changes = .ok changed') ↔
    ∀ entry ∈ changes, entry.1 = "name" ∨
      (NameTable.ofLabel? entry.1).isSome ∧ ∃ items, enumerated entry.2 = .ok items := by
  fun_induction collect ctx changed changes with
  | case1 changed => simp
  | case2 changed value rest ih => simp [ih]
  | case3 changed key value rest hkey htable => simp [hkey, htable]
  | case4 changed key value rest hkey table htable refusal hrefused => simp [hkey, hrefused]
  | case5 changed key value rest hkey table htable items hitems ih =>
    simp [ih, htable, hitems]

theorem last?_merged (fields changed : Fields) (key : String) :
    Entries.last? (merged fields changed) key =
      (Entries.last? changed key).or (Entries.last? fields key) := by
  rw [merged, Entries.last?_ofList, Entries.last?_append]

theorem extend_eq_ok_iff : ctx.extend V changes = .ok ctx' ↔ ∃ changed,
    ctx.collect [] (Entries.ofList changes) = .ok changed ∧
      ofFields V (merged (V.dump ctx) changed) = .ok ctx' := by
  unfold extend
  cases hcollect : ctx.collect [] (Entries.ofList changes) with
  | error refusal => simp
  | ok changed =>
    simp only [Except.ok.injEq, exists_eq_left']
    cases ofFields V (merged (V.dump ctx) changed) <;> simp [Except.mapError]

section Lawful

variable (hV : V.Lawful)

include hV

/-- The texts among what a value enumerates are the names that it lists. -/
theorem exists_text_enumerated_iff {v : Value} (h : enumerated v = .ok items) :
    (∃ item ∈ items, V.text? item = some name) ↔ v.Lists V name := by
  cases v with
  | text value =>
    cases h
    simp [Value.Lists, hV.text_text]
  | object fields =>
    cases h
    simp [Value.Lists, hV.text_text]
  | list given =>
    simp only [enumerated] at h
    split at h
    · cases h
    · cases h
      rfl
  | _ => cases h

theorem exists_text_joined_iff {names : List String} :
    (∃ item ∈ joined items names, V.text? item = some name) ↔
      name ∈ names ∨ ∃ item ∈ items, V.text? item = some name := by
  simp only [joined, List.mem_append, List.mem_map, or_and_right, exists_or,
    exists_exists_and_eq_and, hV.text_text, Option.some.injEq, exists_eq_right, or_comm]

/-- A table that is dumped holds its names. -/
theorem exists_text_dumped_iff {table : NameTable}
    (h : Entries.last? (V.dump ctx) table.label = some (.items items)) :
    (∃ item ∈ items, V.text? item = some name) ↔ name ∈ ctx.names table := by
  obtain ⟨dumped, hdumped, hmem⟩ := hV.dump_names ctx table
  obtain rfl := Datum.items.inj (Option.some.inj (hdumped.symm.trans h))
  simp [hmem, hV.text_text]

end Lawful

end Collecting

section Extending

variable (hV : V.Lawful)

include hV

/-- A table that no change is given for comes back as it was, and one that is given gains what is
listed for it. -/
theorem mem_names_extend (h : ctx.extend V changes = .ok ctx') (table : NameTable) :
    name ∈ ctx'.names table ↔ name ∈ ctx.names table ∨ Listed V changes table name := by
  obtain ⟨changed, hcollect, hfields⟩ := extend_eq_ok_iff.1 h
  have hcollected := collected_of_collect hcollect
  have hdescribes := hV.describes hfields
  unfold Listed
  cases hlast : Entries.last? changes table.label with
  | none =>
    obtain ⟨items, hitems, -⟩ := hV.dump_names ctx table
    have hmerged :
        Entries.last? (merged (V.dump ctx) changed) table.label = some (.items items) := by
      rw [last?_merged, hcollected.kept ((Entries.last?_ofList ..).trans hlast)]
      exact hitems
    rw [hV.mem_names (hdescribes.given hmerged).1, exists_text_dumped_iff hV hitems]
    simp
  | some value =>
    obtain ⟨items, hitems, hchanged⟩ := hcollected.given ((Entries.last?_ofList ..).trans hlast)
    have hmerged := last?_merged (V.dump ctx) changed table.label
    rw [hchanged, Option.some_or] at hmerged
    rw [hV.mem_names (hdescribes.given hmerged).1, exists_text_joined_iff hV,
      exists_text_enumerated_iff hV hitems]
    simp

theorem named_extend (h : ctx.extend V changes = .ok ctx') : Named V changes ctx ctx' := by
  obtain ⟨changed, hcollect, hfields⟩ := extend_eq_ok_iff.1 h
  have hdescribes := hV.describes hfields
  have hname := (collected_of_collect hcollect).name
  rw [Entries.last?_ofList] at hname
  have hmerged := last?_merged (V.dump ctx) changed "name"
  rw [hname, hV.dump_name] at hmerged
  constructor
  · intro value hlast
    rw [hlast] at hmerged
    obtain ⟨v, hv, htext⟩ := hdescribes.named hmerged
    rwa [Datum.value.inj hv]
  · intro hlast
    rw [hlast] at hmerged
    obtain ⟨v, hv, htext⟩ := hdescribes.named hmerged
    rw [← Datum.value.inj hv, hV.text_text] at htext
    exact (Option.some.inj htext).symm

theorem wellNamed_extend (h : ctx.extend V changes = .ok ctx') : ctx'.WellNamed := by
  obtain ⟨changed, -, hfields⟩ := extend_eq_ok_iff.1 h
  exact wellNamed_of_ofFields hV hfields

end Extending

/-! Whether changes are accepted does not depend on the context that they are for. -/

section Accepting

/-- A change that is accepted: a name that is a text, or items for a table that are texts and
identifiers. -/
def Accepts (V : Validator) (key : String) (value : Value) : Prop :=
  if key = "name" then (V.text? value).isSome = true
  else (NameTable.ofLabel? key).isSome = true ∧ ∃ items, enumerated value = .ok items ∧
    ∀ item ∈ items, ∃ name, V.text? item = some name ∧ Token.isIdentifier name = true

variable (hV : V.Lawful)

include hV

theorem accepts_of_extend (h : ctx.extend V changes = .ok ctx') :
    ∀ entry ∈ Entries.ofList changes, Accepts V entry.1 entry.2 := by
  obtain ⟨changed, hcollect, hfields⟩ := extend_eq_ok_iff.1 h
  have hcollected := collected_of_collect hcollect
  have hdescribes := hV.describes hfields
  intro entry hentry
  have hlast := Entries.last?_of_mem_ofList hentry
  unfold Accepts
  split
  · next hname =>
    rw [hname] at hlast
    rw [(named_extend hV h).given hlast]
    rfl
  · next hname =>
    obtain ⟨hlabel, -⟩ := (collect_accepts_iff.1 ⟨_, hcollect⟩ entry hentry).resolve_left hname
    obtain ⟨table, htable⟩ := Option.isSome_iff_exists.1 hlabel
    rw [← NameTable.label_of_ofLabel? htable] at hlast
    obtain ⟨items, hitems, hchanged⟩ := hcollected.given ((Entries.last?_ofList ..).trans hlast)
    have hmerged := last?_merged (V.dump ctx) changed table.label
    rw [hchanged, Option.some_or] at hmerged
    obtain ⟨hnames, hcomplaint⟩ := hdescribes.given hmerged
    refine ⟨hlabel, items, hitems, fun item hitem => ?_⟩
    have hjoined : item ∈ joined items (ctx.names table) := List.mem_append_left _ hitem
    obtain ⟨name, htext⟩ := Option.isSome_iff_exists.1
      ((hV.isSome_names_iff _).1 (Option.isSome_of_mem hnames) item hjoined)
    exact ⟨name, htext, complaint?_eq_none_iff.1 hcomplaint name
      ((hV.mem_names hnames name).2 ⟨item, hjoined, htext⟩)⟩

/-- Items that are texts and identifiers are names that pass the check. -/
theorem exists_names_of_items {items : List Value}
    (h : ∀ item ∈ items, ∃ name, V.text? item = some name ∧ Token.isIdentifier name = true) :
    ∃ names, V.names? (.items items) = some names ∧ complaint? names = none := by
  obtain ⟨names, hnames⟩ := Option.isSome_iff_exists.1 ((hV.isSome_names_iff items).2
    fun item hitem => Option.isSome_of_mem (h item hitem).choose_spec.1)
  refine ⟨names, hnames, complaint?_eq_none_iff.2 fun name hname => ?_⟩
  obtain ⟨item, hitem, htext⟩ := (hV.mem_names hnames name).1 hname
  obtain ⟨name', htext', hid⟩ := h item hitem
  rwa [Option.some.inj (htext.symm.trans htext')]

theorem admits_of_accepts (hctx : ctx.WellNamed)
    (h : ∀ entry ∈ Entries.ofList changes, Accepts V entry.1 entry.2) {changed : Fields}
    (hcollect : ctx.collect [] (Entries.ofList changes) = .ok changed) :
    V.Admits complaint? (merged (V.dump ctx) changed) := by
  have hcollected := collected_of_collect hcollect
  have hold (table : NameTable) : ∀ item ∈ (ctx.names table).map Value.text,
      ∃ name, V.text? item = some name ∧ Token.isIdentifier name = true := by
    intro item hitem
    obtain ⟨name, hname, rfl⟩ := List.mem_map.1 hitem
    exact ⟨name, hV.text_text name, hctx table name hname⟩
  constructor
  · intro d hd
    rw [last?_merged, hcollected.name, hV.dump_name] at hd
    cases hlast : Entries.last? (Entries.ofList changes) "name" with
    | none =>
      rw [hlast] at hd
      exact ⟨_, _, (Option.some.inj hd).symm, hV.text_text _⟩
    | some value =>
      rw [hlast] at hd
      have haccepts := h _ (Entries.mem_of_last? hlast)
      rw [Accepts, if_pos rfl] at haccepts
      obtain ⟨s, hs⟩ := Option.isSome_iff_exists.1 haccepts
      exact ⟨value, s, (Option.some.inj hd).symm, hs⟩
  · intro table d hd
    rw [last?_merged] at hd
    cases hlast : Entries.last? (Entries.ofList changes) table.label with
    | none =>
      obtain ⟨items, hitems, hmem⟩ := hV.dump_names ctx table
      rw [hcollected.kept hlast, hitems] at hd
      obtain rfl := Option.some.inj hd
      refine exists_names_of_items hV fun item hitem => ?_
      obtain ⟨name, hname, rfl⟩ := (hmem item).1 hitem
      exact hold table _ (List.mem_map_of_mem hname)
    | some value =>
      obtain ⟨items, hitems, hchanged⟩ := hcollected.given hlast
      rw [hchanged] at hd
      obtain rfl := Option.some.inj hd
      have haccepts := h _ (Entries.mem_of_last? hlast)
      rw [Accepts, if_neg table.label_ne_name] at haccepts
      obtain ⟨-, items', hitems', hall⟩ := haccepts
      obtain rfl := Except.ok.inj (hitems.symm.trans hitems')
      exact exists_names_of_items hV fun item hitem =>
        (List.mem_append.1 hitem).elim (hall item) (hold table item)

theorem exists_extend_iff (hctx : ctx.WellNamed) : (∃ ctx', ctx.extend V changes = .ok ctx') ↔
    ∀ entry ∈ Entries.ofList changes, Accepts V entry.1 entry.2 := by
  constructor
  · rintro ⟨ctx', h⟩
    exact accepts_of_extend hV h
  · intro h
    obtain ⟨changed, hcollect⟩ :
        ∃ changed, ctx.collect [] (Entries.ofList changes) = .ok changed := by
      refine collect_accepts_iff.2 fun entry hentry => or_iff_not_imp_left.2 fun hname => ?_
      have haccepts := h entry hentry
      rw [Accepts, if_neg hname] at haccepts
      exact ⟨haccepts.1, haccepts.2.imp fun _ hitems => hitems.1⟩
    obtain ⟨ctx', hfields⟩ := hV.accepts (admits_of_accepts hV hctx h hcollect)
    exact ⟨ctx', extend_eq_ok_iff.2 ⟨changed, hcollect, hfields⟩⟩

theorem extend_ok_of_extend_ok (h : ctx.extend V changes = .ok ctx') {other : Context}
    (hother : other.WellNamed) : ∃ extended, other.extend V changes = .ok extended :=
  (exists_extend_iff hV hother).2 (accepts_of_extend hV h)

end Accepting

section Joining

/-- A name given by the later of two extensions goes before one given by the earlier. -/
theorem Named.append {changes' : List (String × Value)} {ctx'' : Context}
    (h : Named V changes ctx ctx') (h' : Named V changes' ctx' ctx'') :
    Named V (changes ++ changes') ctx ctx'' := by
  constructor
  · intro value hlast
    rw [Entries.last?_append] at hlast
    cases hlater : Entries.last? changes' "name" with
    | some later =>
      rw [hlater, Option.some_or] at hlast
      exact h'.given (hlater.trans hlast)
    | none =>
      rw [hlater, Option.none_or] at hlast
      rw [h'.kept hlater]
      exact h.given hlast
  · intro hlast
    rw [Entries.last?_append, Option.or_eq_none_iff] at hlast
    exact (h'.kept hlast.1).trans (h.kept hlast.2)

variable (hV : V.Lawful)

include hV

theorem same_extend_nil (hctx : ctx.WellNamed) :
    ∃ ctx', ctx.extend V [] = .ok ctx' ∧ ctx'.Same ctx := by
  obtain ⟨ctx', h⟩ : ∃ ctx', ctx.extend V [] = .ok ctx' :=
    (exists_extend_iff hV hctx).2 fun _ hentry => absurd hentry List.not_mem_nil
  refine ⟨ctx', h, (named_extend hV h).kept rfl, fun table name => ?_⟩
  rw [mem_names_extend hV h]
  simp [Listed, Entries.last?]

theorem same_extend_again (h : ctx.extend V changes = .ok ctx') :
    ∃ again, ctx'.extend V changes = .ok again ∧ again.Same ctx' := by
  obtain ⟨again, hagain⟩ := extend_ok_of_extend_ok hV h (wellNamed_extend hV h)
  refine ⟨again, hagain, ?_, fun table name => ?_⟩
  · have hnamed := named_extend hV h
    have hnamed' := named_extend hV hagain
    cases hlast : Entries.last? changes "name" with
    | none => exact hnamed'.kept hlast
    | some value =>
      exact Option.some.inj ((hnamed'.given hlast).symm.trans (hnamed.given hlast))
  · rw [mem_names_extend hV hagain, mem_names_extend hV h, or_assoc, or_self]

theorem joins_extend (h : ctx.extend V changes = .ok ctx') : Joins V changes ctx ctx' := by
  constructor
  · intro name k
    simp only [mem_arities_iff, mem_names_extend hV h]
    grind
  · intro name
    simp only [isIrrational, List.contains_iff_mem, mem_names_extend hV h]

theorem Reachable.wellNamed {read : DocumentReader} (h : ctx.Reachable V read) :
    ctx.WellNamed := by
  cases h with
  | standard => exact wellNamed_standard
  | built h => exact wellNamed_of_ofFields hV h
  | described h => exact wellNamed_of_ofValue hV h
  | loaded h => exact wellNamed_of_load hV h
  | extended _ h => exact wellNamed_extend hV h

/-- In every context that can be made all names are identifiers, and extending it is a join. It
adds to the functions and constants those that are listed and takes none away, extending by
nothing or by the same again changes nothing, no tables are changed when no names are listed,
and two extensions give the same tables in either order, under the name that was given last. -/
theorem Reachable.extend_join {read : DocumentReader} (h : ctx.Reachable V read) :
    ctx.WellNamed ∧ (∃ ctx', ctx.extend V [] = .ok ctx' ∧ ctx'.Same ctx) ∧
      (∀ changes ctx', ctx.extend V changes = .ok ctx' →
        Joins V changes ctx ctx' ∧ Named V changes ctx ctx' ∧
          (∃ again, ctx'.extend V changes = .ok again ∧ again.Same ctx') ∧
          ((∀ table name, ¬ Listed V changes table name) →
            ∀ table name, name ∈ ctx'.names table ↔ name ∈ ctx.names table)) ∧
      ∀ u v ctxu ctxv, ctx.extend V u = .ok ctxu → ctx.extend V v = .ok ctxv →
        ∃ ctxuv ctxvu, ctxu.extend V v = .ok ctxuv ∧ ctxv.extend V u = .ok ctxvu ∧
          (∀ table name, name ∈ ctxuv.names table ↔ name ∈ ctxvu.names table) ∧
          Named V (u ++ v) ctx ctxuv ∧ Named V (v ++ u) ctx ctxvu := by
  refine ⟨h.wellNamed hV, same_extend_nil hV (h.wellNamed hV), fun changes ctx' hextend => ?_,
    fun u v ctxu ctxv hu hv => ?_⟩
  · refine ⟨joins_extend hV hextend, named_extend hV hextend, same_extend_again hV hextend,
      fun hnone table name => ?_⟩
    rw [mem_names_extend hV hextend]
    exact or_iff_left (hnone table name)
  · obtain ⟨ctxuv, huv⟩ := extend_ok_of_extend_ok hV hv (wellNamed_extend hV hu)
    obtain ⟨ctxvu, hvu⟩ := extend_ok_of_extend_ok hV hu (wellNamed_extend hV hv)
    refine ⟨ctxuv, ctxvu, huv, hvu, fun table name => ?_, ?_, ?_⟩
    · rw [mem_names_extend hV huv, mem_names_extend hV hu, mem_names_extend hV hvu,
        mem_names_extend hV hv, or_right_comm]
    · exact (named_extend hV hu).append (named_extend hV huv)
    · exact (named_extend hV hv).append (named_extend hV hvu)

end Joining

/-- A logarithm of one argument, and then one of two arguments. -/
theorem reachable_logarithms : ∃ logs both,
    standard.extend .standard [("name", .text "Logs"), ("unary", .list [.text "log"])] = .ok logs ∧
      logs.extend .standard [("binary", .list [.text "log"])] = .ok both ∧
      1 ∈ both.arities "log" ∧ 2 ∈ both.arities "log" ∧ both.name = "Logs" ∧ both.WellNamed := by
  have hlawful := Validator.lawful_standard
  have hlog : Token.isIdentifier "log" = true := by decide
  obtain ⟨logs, hlogs⟩ := (exists_extend_iff hlawful wellNamed_standard).2
    (show ∀ entry ∈ Entries.ofList [("name", .text "Logs"), ("unary", .list [.text "log"])],
      Accepts .standard entry.1 entry.2 by
        simp [Entries.ofList, Entries.set, Accepts, enumerated, Validator.standard,
          Validator.plainText?, hlog, show NameTable.ofLabel? "unary" = some .unary by decide])
  have hreach : Reachable .standard Yaml.ofBytes logs := .extended .standard hlogs
  obtain ⟨-, -, hextend, -⟩ := hreach.extend_join hlawful
  obtain ⟨both, hboth⟩ := (exists_extend_iff hlawful (hreach.wellNamed hlawful)).2
    (show ∀ entry ∈ Entries.ofList [("binary", .list [.text "log"])],
      Accepts .standard entry.1 entry.2 by
        simp [Entries.ofList, Entries.set, Accepts, enumerated, Validator.standard,
          Validator.plainText?, hlog, show NameTable.ofLabel? "binary" = some .binary by decide])
  obtain ⟨hjoins', hnamed', -⟩ := hextend _ both hboth
  have hstart : Reachable .standard Yaml.ofBytes standard := .standard
  obtain ⟨hjoins, hnamed, -⟩ := (hstart.extend_join hlawful).2.2.1 _ logs hlogs
  have hunary : 1 ∈ logs.arities "log" :=
    (hjoins.arities "log" 1).2 (.inr ⟨.unary, rfl, _, rfl, _, List.mem_singleton_self _, rfl⟩)
  refine ⟨logs, both, hlogs, hboth, (hjoins'.arities "log" 1).2 (.inl hunary),
    (hjoins'.arities "log" 2).2 (.inr ⟨.binary, rfl, _, rfl, _, List.mem_singleton_self _, rfl⟩),
    ?_, ?_⟩
  · have hname : logs.name = "Logs" := (Option.some.inj (hnamed.given rfl)).symm
    exact (hnamed'.kept rfl).trans hname
  · exact ((hreach.extended hboth).extend_join hlawful).1

end Context

end TermReader
