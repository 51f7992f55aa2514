import TermReader.Session.Basic
import TermReader.Settings.Cache

/-!
Sessions that ask settings for what they are not told. A session opened from
settings takes its context, its random source and its splitting from them. Any
other one takes at most its splitting from the settings that are kept.
-/

namespace TermReader

variable {ρ σ τ : Type}

/-- The random sources that can be asked for: the one that is shared by all who
ask for none, and one for every seed. -/
structure RandomSources (ρ : Type) where
  chooser : Chooser ρ
  shared : ρ
  seeded : Int → ρ

namespace RandomSources

/-- The source for a seed, if there is one. -/
def ofSeed? (sources : RandomSources ρ) : Option Int → ρ
  | some seed => sources.seeded seed
  | none => sources.shared

end RandomSources

/-- The session that settings ask for. No name of a context means the standard
one. -/
def Session.ofSettings (sources : RandomSources ρ) (load : String → Except Problem Context)
    (settings : Settings) : Except Problem (Session ρ) := do
  let context ←
    match settings.contextFile with
    | some path => if path.isEmpty then pure Context.standard else load path
    | none => pure Context.standard
  return Session.start context (sources.ofSeed? settings.seed) settings.splits

namespace SettingsCache

variable (load : Loader)

/-- Whether to split tokens: as wanted, or else as the kept settings say. -/
def splits (cache : SettingsCache) : Option Bool → Except Problem Bool × SettingsCache
  | some wanted => (.ok wanted, cache)
  | none =>
    let (settings, cache) := cache.get load
    (settings.map (·.splits), cache)

/-- Starts a session. -/
def session (cache : SettingsCache) (context : Context) (random : ρ) (wanted : Option Bool) :
    Except Problem (Session ρ) × SettingsCache :=
  let (splits, cache) := cache.splits load wanted
  (splits.map fun splits => Session.start context random splits, cache)

/-- Parses one expression in a session of its own, in the standard context. The
random source is one that outlives the session. -/
def parse (chooser : Chooser ρ) (b : Builder σ τ) (room : Nat) (cache : SettingsCache)
    (random : ρ) (source : String) (state : σ) :
    Except Problem (Session.Reply σ τ) × SettingsCache × ρ :=
  match cache.session load Context.standard random none with
  | (.error problem, cache) => (.error problem, cache, random)
  | (.ok session, cache) =>
    let (reply, session) := session.parse chooser b room source none state
    (.ok reply, cache, session.random)

end SettingsCache

end TermReader
