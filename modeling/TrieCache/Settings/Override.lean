import TrieCache.Options
import TrieCache.Settings

/-!
# Overriding settings

The command line wins over the settings file.  A check that the file asks for cannot be
switched off on the command line.
-/

namespace TrieCache

def RunSettings.override (run : RunSettings) (options : Options) : RunSettings :=
  { run with
    trace := options.trace.or run.trace
    logLevel := options.logLevel.getD run.logLevel
    summary := options.summary.or run.summary
    verify := run.verify || options.verify }

def Config.override (config : Config) (options : Options) : Config :=
  { config with
    size := options.size.getD config.size
    blockSize := options.blockSize.getD config.blockSize
    levels := options.levels.getD config.levels
    fastPathSize := options.fastPathSize.getD config.fastPathSize
    maxAttempts := options.maxAttempts.getD config.maxAttempts }

namespace Settings

def override (settings : Settings) (options : Options) : Settings :=
  { run := settings.run.override options, cache := settings.cache.override options }

def notToml : String := "cannot parse config toml"

/-- Read settings from a text, and override them. -/
def load (text : String) (options : Options) : Checked (Except String Settings) := do
  match ← parse text with
  | none => return .error notToml
  | some settings => return .ok (settings.override options)

end Settings

end TrieCache
