import TermReader.Settings.Environment

/-!
Settings are loaded once and kept until they are cleared. A load that fails is
not kept, so the next one sees the environment as it is then.
-/

namespace TermReader

/-- The variables of the environment, and the settings that are kept. -/
structure SettingsCache where
  environment : Variables
  kept : Option Settings

namespace SettingsCache

/-- A way to load settings from the environment. -/
abbrev Loader := Variables → Except Problem Settings

def start (environment : Variables) : SettingsCache := ⟨environment, none⟩

/-- The settings of the present environment, whatever is kept. -/
def fresh (load : Loader) (cache : SettingsCache) : Except Problem Settings :=
  load cache.environment

/-- The settings that are kept, or fresh ones, which are kept from then on. -/
def get (load : Loader) (cache : SettingsCache) : Except Problem Settings × SettingsCache :=
  match cache.kept with
  | some settings => (.ok settings, cache)
  | none =>
    match cache.fresh load with
    | .ok settings => (.ok settings, { cache with kept := some settings })
    | .error problem => (.error problem, cache)

def clear (cache : SettingsCache) : SettingsCache := { cache with kept := none }

def setVariable (cache : SettingsCache) (name : String) (value : Option String) : SettingsCache :=
  { cache with
    environment :=
      match value with
      | some value => cache.environment.set name value
      | none => cache.environment.unset name }

end SettingsCache

end TermReader
