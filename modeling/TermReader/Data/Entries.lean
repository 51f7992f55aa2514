/-!
Entries by name, in the order in which the names were first given. A name that
is given again keeps its place and takes its new value.
-/

namespace TermReader

abbrev Entries (α : Type) := List (String × α)

namespace Entries

variable {α : Type}

def set (entries : Entries α) (name : String) (value : α) : Entries α :=
  if entries.any (·.1 == name) then
    entries.map fun entry => if entry.1 = name then (name, value) else entry
  else entries ++ [(name, value)]

def unset (entries : Entries α) (name : String) : Entries α := entries.filter (·.1 != name)

/-- Entries given one after another, each name once. -/
def ofList (given : List (String × α)) : Entries α :=
  given.foldl (fun entries (name, value) => entries.set name value) []

/-- The last value given for a name. -/
def last? (given : List (String × α)) (name : String) : Option α :=
  (given.reverse.find? (·.1 == name)).map (·.2)

theorem last?_append (given later : List (String × α)) (name : String) :
    last? (given ++ later) name = (last? later name).or (last? given name) := by
  simp only [last?, List.reverse_append, List.find?_append, Option.map_or]

theorem last?_singleton (key name : String) (value : α) :
    last? [(key, value)] name = if key = name then some value else none := by
  by_cases h : key = name <;> simp [last?, h]

theorem last?_cons (key name : String) (value : α) (given : List (String × α)) :
    last? ((key, value) :: given) name =
      (last? given name).or (if key = name then some value else none) := by
  rw [← List.singleton_append, last?_append, last?_singleton]

/-- Setting an entry changes the value of its name alone. -/
theorem last?_set (entries : Entries α) (key name : String) (value : α) :
    last? (entries.set key value) name = if key = name then some value else last? entries name := by
  unfold set
  split
  · next hany =>
    have hkeys : (fun entry : String × α => entry.1 == name) ∘
        (fun entry => if entry.1 = key then (key, value) else entry) = (·.1 == name) := by
      funext entry
      by_cases h : entry.1 = key <;> simp [h]
    rw [last?, ← List.map_reverse, List.find?_map, hkeys, Option.map_map]
    by_cases hname : key = name
    · subst hname
      obtain ⟨entry, hmem, hentry⟩ := List.any_eq_true.1 hany
      obtain ⟨found, hfound⟩ := Option.isSome_iff_exists.1
        (List.find?_isSome (p := (·.1 == key)).2 ⟨entry, List.mem_reverse.2 hmem, hentry⟩)
      have hkey : found.1 = key := by simpa using List.find?_some hfound
      simp [hfound, hkey]
    · rw [if_neg hname, last?]
      refine Option.map_congr fun found hfound => ?_
      have hkey : found.1 = name := by simpa using List.find?_some hfound
      simp [hkey, Ne.symm hname]
  · rw [last?_append, last?_singleton]
    by_cases h : key = name <;> simp [h]

/-- Of several values for a name the last one counts. -/
theorem last?_ofList (given : List (String × α)) (name : String) :
    last? (ofList given) name = last? given name := by
  have hfold (entries : Entries α) : last? (given.foldl (fun entries entry =>
      set entries entry.1 entry.2) entries) name = (last? given name).or (last? entries name) := by
    induction given generalizing entries with
    | nil => rfl
    | cons entry given ih =>
      rw [List.foldl_cons, ih, last?_set, last?_cons]
      split <;> simp
  exact (hfold []).trans Option.or_none

/-- A value that counts has been given. -/
theorem mem_of_last? {given : List (String × α)} {name : String} {value : α}
    (h : last? given name = some value) : (name, value) ∈ given := by
  obtain ⟨entry, hfound, rfl⟩ := Option.map_eq_some_iff.1 h
  have hname : entry.1 = name := by simpa using List.find?_some hfound
  rw [← hname]
  exact List.mem_reverse.1 (List.mem_of_find?_eq_some hfound)

/-- Where every entry counts, every entry still counts when one has been set. -/
theorem last?_of_mem_set {entries : Entries α} {name : String} {value : α}
    (hentries : ∀ entry ∈ entries, last? entries entry.1 = some entry.2) {entry : String × α}
    (h : entry ∈ entries.set name value) :
    last? (entries.set name value) entry.1 = some entry.2 := by
  rw [last?_set]
  unfold set at h
  split at h
  · obtain ⟨old, hold, rfl⟩ := List.mem_map.1 h
    by_cases hname : old.1 = name
    · simp [hname]
    · simp only [if_neg hname, if_neg (Ne.symm hname)]
      exact hentries old hold
  · next hany =>
    rcases List.mem_append.1 h with hold | hnew
    · have hname : name ≠ entry.1 := by
        rintro rfl
        exact hany (List.any_eq_true.2 ⟨entry, hold, beq_self_eq_true _⟩)
      rw [if_neg hname]
      exact hentries entry hold
    · obtain rfl := List.mem_singleton.1 hnew
      rw [if_pos rfl]

/-- Where each name stands once, every entry counts. -/
theorem last?_of_mem_ofList {given : List (String × α)} {entry : String × α}
    (h : entry ∈ ofList given) : last? given entry.1 = some entry.2 := by
  rw [← last?_ofList]
  have hfold (entries : Entries α)
      (hentries : ∀ entry ∈ entries, last? entries entry.1 = some entry.2) :
      ∀ entry ∈ given.foldl (fun entries entry => set entries entry.1 entry.2) entries,
        last? (given.foldl (fun entries entry => set entries entry.1 entry.2) entries) entry.1 =
          some entry.2 := by
    clear h
    induction given generalizing entries with
    | nil => exact hentries
    | cons added given ih => exact ih _ fun entry => last?_of_mem_set hentries
  exact hfold [] nofun entry h

end Entries

end TermReader
